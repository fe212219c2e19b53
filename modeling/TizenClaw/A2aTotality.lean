import TizenClaw.A2aHandler
import TizenClaw.JsonRpc

/-! Which JSON-RPC requests the A2A handler answers, for every value that it is given. -/
namespace A2aTotality

open ByteString JsonValue IpcHandler JsonRpc TryBlock A2aHandler

section Model

/-- The handler returns a response to the request. -/
def Answers (agent : Agent) (clock : Clock) (request : Json) (h : Handler) : Prop :=
  Returns (handleJsonRpc agent clock request) (fun r _ => IsResponse request r) h

/-- A text that is there is a string. -/
def TextString (j : Json) : Prop := ∀ v ∈ j.member? (bytes "text"), ∃ s, v = .str s

/-- So are the texts that are read of a message. -/
def TextStrings (message : Json) : Prop :=
  match message.member? (bytes "parts") with
  | some (.arr parts) => ∀ part ∈ parts, TextString part
  | _ => TextString message

/-- The tasks when the agent is given the prompt. -/
def started (clock : Clock) (message : Json) (h : Handler) : Handler :=
  let x := h.generateTaskId clock.millis
  (x.2.put (newTask x.1 message (clock.stamp 0))).setWorking x.1 (clock.stamp 1)

/-- The agent returns, from the prompt of the new task. -/
def PromptReturns (agent : Agent) (clock : Clock) (message : Json) (text : Bytes) (h : Handler) :
    Prop :=
  Returns (agent (bytes "a2a_" ++ taskId clock.millis h.counter) text)
    (fun _ _ => True) (started clock message h)

/-- The request is an object, and if it sends a message then the texts of the message are strings
and the agent returns from the prompt, if there is one. -/
def Answerable (agent : Agent) (clock : Clock) (request : Json) (h : Handler) : Prop :=
  (∃ m, request = .obj m) ∧
    (request.member? (bytes "jsonrpc") = some (.str (bytes "2.0")) →
      request.member? (bytes "method") = some (.str (bytes "tasks/send")) →
        ∀ params ∈ request.member? (bytes "params"),
          ∀ message ∈ params.member? (bytes "message"), TextStrings message ∧
            ∀ text, messageText message = .ok text → text ≠ [] →
              PromptReturns agent clock message text h)

end Model

section Texts

theorem succeeds_partText (part : Json) : Succeeds (partText part) ↔ TextString part := by
  rw [partText, TextString]
  cases part.member? (bytes "text") with
  | none => simp
  | some v => cases v <;> simp [Json.getString]

theorem succeeds_partsText (parts : List Json) :
    Succeeds (partsText parts) ↔ ∀ part ∈ parts, TextString part := by
  induction parts with
  | nil => simp [partsText]
  | cons part parts ih =>
    rw [partsText, succeeds_bind, List.forall_mem_cons, ← succeeds_partText, ← ih]
    constructor
    · rintro ⟨text, ht, hs⟩
      exact ⟨⟨text, ht⟩, (succeeds_map _ _).mp hs⟩
    · rintro ⟨⟨text, ht⟩, hs⟩
      exact ⟨text, ht, (succeeds_map _ _).mpr hs⟩

theorem succeeds_messageText (message : Json) :
    Succeeds (messageText message) ↔ TextStrings message := by
  unfold messageText TextStrings
  generalize message.member? (bytes "parts") = parts
  match parts with
  | some (.arr l) => exact succeeds_partsText l
  | none | some .null | some (.bool _) | some (.int _) | some (.float _) | some (.str _)
  | some (.obj _) => exact succeeds_partText message

end Texts

section Handling

variable {agent : Agent} {clock : Clock} {h : Handler}

/-- The sections of a `tasks/send` do not throw, only the agent can. -/
theorem returns_sections (message : Json) (text : Bytes) :
    Returns (do
        let id ← modifyGet (Handler.generateTaskId clock.millis)
        modify (Handler.put (newTask id message (clock.stamp 0)))
        modify (Handler.setWorking id (clock.stamp 1))
        let result ← agent (bytes "a2a_" ++ id) text
        modify (Handler.complete id result (clock.stamp 2))
        pure (.object [(bytes "id", .str id), (bytes "status", .str A2aTaskStatus.completed.text),
          (bytes "artifacts", textArtifacts result), (bytes "created_at", .str (clock.stamp 0)),
          (bytes "updated_at", .str (clock.stamp 3))]) : Action Thrown Handler Json)
        (fun _ _ => True) h ↔ PromptReturns agent clock message text h := by
  simp only [returns_bind]
  exact Iff.rfl

/-- A message is sent exactly if its texts can be read and the agent returns. -/
theorem returns_taskSend (params : Json) :
    Returns (taskSend agent clock params) (fun _ _ => True) h ↔
      ∀ message ∈ params.member? (bytes "message"), TextStrings message ∧
        ∀ text, messageText message = .ok text → text ≠ [] →
          PromptReturns agent clock message text h := by
  rw [taskSend]
  cases params.member? (bytes "message") with
  | none => exact iff_of_true trivial (by simp)
  | some message =>
    simp only [Option.mem_some_iff, forall_eq']
    rw [returns_bind, returns_lift, ← succeeds_messageText]
    constructor
    · rintro ⟨text, ht, hr⟩
      refine ⟨⟨text, ht⟩, ?_⟩
      intro text' ht' hne
      obtain rfl := Except.ok.inj (ht.symm.trans ht')
      rw [if_neg hne] at hr
      exact (returns_sections message text).mp hr
    · rintro ⟨⟨text, ht⟩, hr⟩
      refine ⟨text, ht, ?_⟩
      by_cases hne : text = []
      · rw [if_pos hne]
        trivial
      · rw [if_neg hne]
        exact (returns_sections message text).mpr (hr text ht hne)

/-- Every method answers, if `tasks/send` comes back. -/
theorem answers_route {request id : Json} (hid : (request.member? (bytes "id")).getD .null = id)
    (method : Bytes) (params : Json) :
    Returns (route agent clock method params id) (fun r _ => IsResponse request r) h ↔
      (method = bytes "tasks/send" →
        Returns (taskSend agent clock params) (fun _ _ => True) h) := by
  rw [route]
  by_cases hsend : method = bytes "tasks/send"
  · rw [if_pos hsend, returns_bind]
    simp only [hsend, forall_const]
    apply returns_congr
    intro result t
    exact iff_of_true ((isResponse_iff (.result result)).mpr hid) trivial
  · rw [if_neg hsend]
    refine iff_of_true ?_ fun h => absurd h hsend
    by_cases hget : method = bytes "tasks/get"
    · rw [if_pos hget]
      exact (isResponse_iff (.result _)).mpr hid
    · rw [if_neg hget]
      by_cases hcancel : method = bytes "tasks/cancel"
      · rw [if_pos hcancel]
        exact (isResponse_iff (.result _)).mpr hid
      · rw [if_neg hcancel]
        exact (isResponse_iff (.error _ _)).mpr hid

theorem requestId_eq {request id : Json} : requestId request = .ok id ↔
    (∃ m, request = .obj m) ∧ (request.member? (bytes "id")).getD .null = id := by
  cases request with
  | obj m =>
    have hvalue : requestId (.obj m) = .ok ((m.lookup (bytes "id")).getD .null) := by
      rw [requestId, Json.value]
      cases m.lookup (bytes "id") <;> rfl
    rw [hvalue, Except.ok.injEq]
    exact ⟨fun hid => ⟨⟨m, rfl⟩, hid⟩, fun hid => hid.2⟩
  | _ => exact iff_of_false (fun hid => by cases hid) (by simp)

/-- An error of the dispatcher is returned if the request has members at all. -/
theorem answers_error {request : Json} (code : ℤ) (message : Bytes) :
    Returns (do
        let id ← liftM (caught (requestId request))
        pure (jsonRpcError code message id) : Action Thrown Handler Json)
        (fun r _ => IsResponse request r) h ↔ ∃ m, request = .obj m := by
  rw [returns_bind, returns_lift]
  constructor
  · rintro ⟨id, hid, -⟩
    exact (requestId_eq.mp hid).1
  · intro hm
    exact ⟨_, requestId_eq.mpr ⟨hm, rfl⟩, (isResponse_iff (.error code message)).mpr rfl⟩

/-- The handler answers a request exactly if it is an object and, when it is a `tasks/send`, all
texts of its message are strings and the agent comes back from the prompt. -/
theorem answers_iff (agent : Agent) (clock : Clock) (request : Json) (h : Handler) :
    Answers agent clock request h ↔ Answerable agent clock request h := by
  rw [Answers, Answerable, handleJsonRpc]
  by_cases hv : request.member? (bytes "jsonrpc") = some (.str (bytes "2.0"))
  · rw [if_neg (not_not.mpr hv)]
    simp only [hv, forall_const]
    split
    next method hmethod =>
      obtain ⟨m, rfl⟩ : ∃ m, request = .obj m := by
        cases request with
        | obj m => exact ⟨m, rfl⟩
        | _ => cases hmethod
      have hparams : Json.value .ok (.obj m) (bytes "params") (.object []) =
          .ok (((Json.obj m).member? (bytes "params")).getD (.object [])) := by
        rw [Json.value, Json.member?]
        cases m.lookup (bytes "params") <;> rfl
      have hid : requestId (.obj m) = .ok _ := requestId_eq.mpr ⟨⟨m, rfl⟩, rfl⟩
      rw [returns_ok hid, returns_ok hparams, answers_route rfl, returns_taskSend, hmethod]
      simp only [Option.some.injEq, Json.str.injEq]
      rw [and_iff_right ⟨m, rfl⟩]
      apply imp_congr_right
      intro _
      cases (Json.obj m).member? (bytes "params") with
      | none => exact iff_of_true (by simp [Json.object, ofMembers, Json.member?]) (by simp)
      | some params => simp
    next hmethod =>
      rw [answers_error]
      refine (and_iff_left ?_).symm
      exact fun hs => absurd hs (hmethod _)
  · rw [if_pos hv, answers_error]
    exact (and_iff_left fun hv' => absurd hv' hv).symm

end Handling

namespace Counterexample

/-- An agent that says hello. -/
def polite : Agent := fun _ _ => pure (bytes "hello")

def noon : Clock := ⟨0, fun _ => bytes "1970-01-01T00:00:00Z"⟩

/-- A batch of requests, or any other value that is not an object, is answered with an exception. -/
theorem batch_throws : ¬ Answers polite noon (.arr []) {} := by
  intro h
  exact h

end Counterexample

end A2aTotality
