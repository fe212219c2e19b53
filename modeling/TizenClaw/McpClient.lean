import TizenClaw.ByteLines
import TizenClaw.JsonFailure
import TizenClaw.PipelineExecutor
import TizenClaw.TransitionSystem

/-! The client of an MCP server process: callers that send requests, and read lines from one pipe
through one buffer until the line with their own id. Reading and parsing take no time, so that a
deadline passes only while nothing can be read. -/
namespace McpClient

open ByteString ByteLines JsonValue JsonFailure PipelineExecutor TransitionSystem

section Model

variable (readFloat : Bytes → Option NumberText) (sameNumber : NumberText → ℤ → Bool)

/-- What a line is read as. Blank lines, ill-formed ones and a bare null are nothing. -/
def message (line : Bytes) : Option Json :=
  if line = [] ∨ line = bytes "\r" then none
  else match parseText readFloat line with
    | .ok .null => none
    | .ok j => some j
    | .error _ => none

/-- `res.contains("id") && res["id"] == req_id` -/
def carries (res : Json) (reqId : ℤ) : Bool :=
  match res.member? (bytes "id") with
  | some (.int id) => id = reqId
  | some (.float text) => sameNumber text reqId
  | _ => false

/-- A line that is the answer to a request. -/
def Answers (line : Bytes) (reqId : ℤ) : Prop :=
  ∃ res, message readFloat line = some res ∧ carries sameNumber res reqId = true

/-- Where a caller stands: in front of a read of a message, in `poll`, or behind a `read`. -/
inductive Phase where
  | ready
  | polling
  | chunk
  deriving DecidableEq, Repr

/-- A request that is waited for. `start` counts the lines of the connection taken before it. -/
structure Request where
  id : ℤ
  phase : Phase
  start : ℕ
  deriving DecidableEq, Repr

/-- The client with its pipe, with all that the server wrote on the connection and the lines taken
from it, and with the answers that were returned to callers. -/
structure Client (ι : Type*) where
  isConnected : Bool := false
  nextReqId : ℤ := 1
  readBuffer : Bytes := []
  requests : ι → Option Request := fun _ => none
  pipe : Bytes := []
  written : Bytes := []
  taken : List Bytes := []
  returned : List (ι × ℤ × Bytes) := []

inductive Event (ι : Type*) where
  | connect (i : ι)
  | disconnect
  | write (data : Bytes)
  | send (i : ι) (sent : Bool)
  | take (i : ι)
  | read (i : ι) (n : ℕ)
  | eof (i : ι)
  | expire (i : ι)
  | abandon (i : ι)
  deriving DecidableEq, Repr

variable {ι : Type*} [DecidableEq ι]

def Client.setRequest (s : Client ι) (i : ι) (r : Option Request) : Client ι :=
  { s with requests := Function.update s.requests i r }

/-- The first line of the buffer. -/
def splitLine (buffer : Bytes) : Option (Bytes × Bytes) :=
  (find [newline] buffer).map fun pos => (buffer.take pos, buffer.drop (pos + 1))

/-- One `parse_line` of a caller. Without a message the caller goes to `poll`; a message for nobody
or for somebody else is dropped. -/
def Client.takeLine (s : Client ι) (i : ι) (r : Request) : Client ι :=
  match splitLine s.readBuffer with
  | none => s.setRequest i (some { r with phase := .polling })
  | some (line, rest) =>
    let s := { s with readBuffer := rest, taken := s.taken ++ [line] }
    match message readFloat line with
    | none => s.setRequest i (some { r with phase := .polling })
    | some res =>
      if carries sameNumber res r.id then
        { s.setRequest i none with returned := s.returned ++ [(i, r.id, line)] }
      else s.setRequest i (some { r with phase := .ready })

/-- The size of a `read`. -/
def chunkSize : ℕ := 4095

/-- A reconnected client keeps its buffer. A caller looks at the connection before it reads a message
and before it polls, but not between a `read` and the line it takes next. -/
def step (s : Client ι) : Event ι → Option (Client ι)
  | .connect i =>
    if s.isConnected = false ∧ s.requests i = none then
      some { s with isConnected := true, pipe := [], written := [], taken := [] }
    else none
  | .disconnect => if s.isConnected then some { s with isConnected := false } else none
  | .write data =>
    if s.isConnected then some { s with pipe := s.pipe ++ data, written := s.written ++ data }
    else none
  | .send i sent =>
    if s.isConnected ∧ s.requests i = none then
      let request : Request := ⟨s.nextReqId, .ready, s.taken.length⟩
      let s := { s with nextReqId := wrap32 (s.nextReqId + 1) }
      some (if sent then s.setRequest i (some request) else s)
    else none
  | .take i =>
    (s.requests i).bind fun r =>
      if r.phase = .chunk ∨ r.phase = .ready ∧ s.isConnected then
        some (s.takeLine readFloat sameNumber i r)
      else none
  | .read i n =>
    (s.requests i).bind fun r =>
      if s.isConnected ∧ r.phase = .polling ∧ 0 < n ∧ n ≤ chunkSize ∧ n ≤ s.pipe.length then
        some (Client.setRequest
          { s with readBuffer := s.readBuffer ++ s.pipe.take n, pipe := s.pipe.drop n } i
          (some { r with phase := .chunk }))
      else none
  | .eof i =>
    (s.requests i).bind fun r =>
      if s.isConnected ∧ r.phase = .polling ∧ s.pipe = [] then
        some { s with isConnected := false }
      else none
  | .expire i =>
    (s.requests i).bind fun r =>
      if s.isConnected ∧ r.phase = .polling ∧ s.pipe = [] then some (s.setRequest i none) else none
  | .abandon i =>
    (s.requests i).bind fun r =>
      if s.isConnected = false ∧ r.phase ≠ .chunk then some (s.setRequest i none) else none

def client : System (Client ι) (Event ι) where
  Init s := s = {}
  Step s e t := step readFloat sameNumber s e = some t

end Model

section Lines

/-- The lines of a text that have their newline. -/
def completeLines : Bytes → List Bytes
  | [] => []
  | c :: s =>
    if c = newline then [] :: completeLines s
    else match completeLines s with
      | [] => []
      | l :: ls => (c :: l) :: ls

theorem completeLines_line {l : Bytes} (h : newline ∉ l) (s : Bytes) :
    completeLines (l ++ newline :: s) = l :: completeLines s := by
  induction l with
  | nil => rw [List.nil_append, completeLines, if_pos rfl]
  | cons c l ih =>
    rw [List.mem_cons, not_or] at h
    rw [List.cons_append, completeLines, if_neg (Ne.symm h.1), ih h.2]

theorem completeLines_unlines {ls : List Bytes} (h : ∀ l ∈ ls, newline ∉ l) (s : Bytes) :
    completeLines (unlines ls ++ s) = ls ++ completeLines s := by
  induction ls with
  | nil => rfl
  | cons l ls ih =>
    rw [List.forall_mem_cons] at h
    rw [unlines_cons, List.append_assoc, List.cons_append, completeLines_line h.1, ih h.2,
      List.cons_append]

theorem completeLines_open {s : Bytes} (h : newline ∉ s) : completeLines s = [] := by
  induction s with
  | nil => rfl
  | cons c s ih =>
    rw [List.mem_cons, not_or] at h
    rw [completeLines, if_neg (Ne.symm h.1), ih h.2]

theorem splitLine_some {buffer line rest : Bytes} (h : splitLine buffer = some (line, rest)) :
    buffer = line ++ newline :: rest ∧ newline ∉ line := by
  by_cases hm : newline ∈ buffer
  · obtain ⟨l, t, rfl, hn, hf⟩ := find_byte_some hm
    rw [splitLine, hf, Option.map_some, List.take_left, ← List.drop_drop, List.drop_left] at h
    obtain ⟨rfl, rfl⟩ := Prod.mk.inj (Option.some.inj h)
    exact ⟨rfl, hn⟩
  · rw [splitLine, find_byte_none hm] at h
    cases h

theorem splitLine_none {buffer : Bytes} (h : splitLine buffer = none) : newline ∉ buffer := by
  intro hm
  obtain ⟨l, t, -, -, hf⟩ := find_byte_some hm
  rw [splitLine, hf] at h
  cases h

end Lines

section Properties

variable (readFloat : Bytes → Option NumberText) (sameNumber : NumberText → ℤ → Bool)
  {ι : Type*}

/-- The lines taken, the buffer and the pipe are what the server wrote on this connection. -/
def Intact (s : Client ι) : Prop := unlines s.taken ++ s.readBuffer ++ s.pipe = s.written

/-- The server has written a whole line with the answer to the request of a caller, behind the lines
taken before the request. -/
def Answered (s : Client ι) (i : ι) : Prop :=
  ∃ r, s.requests i = some r ∧
    ∃ line ∈ (completeLines s.written).drop r.start, Answers readFloat sameNumber line r.id

/-- No caller gives up, at its deadline or for a lost connection, a request that is answered. -/
def NoneLost (tr : List (Client ι × Event ι)) : Prop :=
  ∀ x ∈ tr, ∀ i, x.2 = .expire i ∨ x.2 = .abandon i → ¬ Answered readFloat sameNumber x.1 i

/-- What is returned to a caller is the answer to its request. -/
def OwnAnswers (s : Client ι) : Prop :=
  ∀ x ∈ s.returned, Answers readFloat sameNumber x.2.2 x.2.1

/-- No caller takes a line with the answer to the request of another caller, and none gives up its
request while a whole line stands in the buffer, nor for a lost connection while there is something
to read. The client is reconnected with an empty buffer, when nobody waits. -/
def HandedOver (s : Client ι) : Event ι → Prop
  | .connect _ => s.readBuffer = [] ∧ ∀ i, s.requests i = none
  | .take i => ∀ line rest, splitLine s.readBuffer = some (line, rest) →
      ∀ j r, j ≠ i → s.requests j = some r → ¬ Answers readFloat sameNumber line r.id
  | .expire _ => newline ∉ s.readBuffer
  | .abandon _ => newline ∉ s.readBuffer ∧ s.pipe = []
  | _ => True

/-- The invariant: the answers that a caller waits for are not among the lines taken. -/
structure Kept (s : Client ι) : Prop where
  intact : Intact s
  lines : ∀ line ∈ s.taken, newline ∉ line
  start : ∀ i r, s.requests i = some r → r.start ≤ s.taken.length ∧
    ∀ line ∈ s.taken.drop r.start, ¬ Answers readFloat sameNumber line r.id

/-- One caller: a line that is nothing is taken only when no whole line stands behind it in the
buffer, the client is reconnected only with an empty buffer, and disconnected from outside only when
its caller waits and nothing is left to read. -/
def Steady (s : Client Unit) : Event Unit → Prop
  | .connect _ => s.readBuffer = []
  | .disconnect => ∀ r, s.requests () = some r → r.phase = .polling ∧ s.pipe = []
  | .take _ => ∀ line rest, splitLine s.readBuffer = some (line, rest) →
      message readFloat line = none → newline ∉ rest
  | _ => True

/-- One caller: it is in `poll` only while no whole line stands in the buffer. -/
structure Polls (s : Client Unit) : Prop where
  polling : ∀ r, s.requests () = some r → r.phase = .polling → newline ∉ s.readBuffer
  closed : s.isConnected = false → ∀ r, s.requests () = some r → r.phase = .polling ∧ s.pipe = []

end Properties

section Requests

variable {ι : Type*} [DecidableEq ι] {s : Client ι} {i j : ι} {q : Request}

theorem requests_set_self (s : Client ι) (i : ι) (r : Option Request) :
    (s.setRequest i r).requests i = r := Function.update_self _ _ _

theorem requests_set_of_ne (s : Client ι) (r : Option Request) (h : j ≠ i) :
    (s.setRequest i r).requests j = s.requests j := Function.update_of_ne h _ _

/-- The requests of the other callers stay as they are. -/
theorem requests_set_cases {r : Option Request} (h : (s.setRequest i r).requests j = some q) :
    j = i ∧ r = some q ∨ j ≠ i ∧ s.requests j = some q := by
  by_cases hj : j = i
  · subst hj
    exact .inl ⟨rfl, (requests_set_self s j r).symm.trans h⟩
  · exact .inr ⟨hj, (requests_set_of_ne s r hj).symm.trans h⟩

end Requests

section Steps

variable {readFloat : Bytes → Option NumberText} {sameNumber : NumberText → ℤ → Bool}
  {ι : Type*} {s t : Client ι} {i : ι} {r : Request}

/-- When nothing is left to read and no whole line to take, no request is answered. -/
theorem not_answered (hK : Kept readFloat sameNumber s) (hbuffer : newline ∉ s.readBuffer)
    (hpipe : s.pipe = []) : ¬ Answered readFloat sameNumber s i := by
  rintro ⟨r, hr, line, hline, hans⟩
  have hwritten : completeLines s.written = s.taken := by
    rw [← hK.intact, hpipe, List.append_nil, completeLines_unlines hK.lines,
      completeLines_open hbuffer, List.append_nil]
  rw [hwritten] at hline
  exact (hK.start i r hr).2 line hline hans

theorem kept_init : Kept readFloat sameNumber ({} : Client ι) where
  intact := rfl
  lines _ hm := absurd hm List.not_mem_nil
  start := nofun

/-- The lines taken with one more are no answer to a request if the new line is none. -/
theorem start_append (hK : Kept readFloat sameNumber s) (hr : s.requests i = some r) {line : Bytes}
    (hn : ¬ Answers readFloat sameNumber line r.id) :
    r.start ≤ (s.taken ++ [line]).length ∧
      ∀ l ∈ (s.taken ++ [line]).drop r.start, ¬ Answers readFloat sameNumber l r.id := by
  obtain ⟨hlength, hnone⟩ := hK.start i r hr
  rw [List.length_append, List.drop_append_of_le_length hlength, List.forall_mem_append,
    List.forall_mem_singleton]
  exact ⟨Nat.le_add_right_of_le hlength, hnone, hn⟩

variable [DecidableEq ι]

/-- The request of one caller is replaced, by one for which the lines taken are no answers. -/
theorem kept_setRequest (hK : Kept readFloat sameNumber s) {q : Option Request}
    (hq : ∀ q', q = some q' → q'.start ≤ s.taken.length ∧
      ∀ line ∈ s.taken.drop q'.start, ¬ Answers readFloat sameNumber line q'.id) :
    Kept readFloat sameNumber (s.setRequest i q) := by
  refine ⟨hK.intact, hK.lines, fun j p hp => ?_⟩
  rcases requests_set_cases hp with ⟨-, hset⟩ | ⟨-, hkept⟩
  · exact hq p hset
  · exact hK.start j p hkept

theorem kept_takeLine (hK : Kept readFloat sameNumber s) (hr : s.requests i = some r)
    (hhanded : HandedOver readFloat sameNumber s (.take i)) :
    Kept readFloat sameNumber (s.takeLine readFloat sameNumber i r) := by
  unfold Client.takeLine
  cases hsplit : splitLine s.readBuffer with
  | none =>
    refine kept_setRequest hK ?_
    rintro _ ⟨⟩
    exact hK.start i r hr
  | some x =>
    obtain ⟨line, rest⟩ := x
    obtain ⟨hbuffer, hline⟩ := splitLine_some hsplit
    have hintact : unlines (s.taken ++ [line]) ++ rest ++ s.pipe = s.written := by
      rw [← hK.intact, hbuffer]
      simp
    have hlines : ∀ l ∈ s.taken ++ [line], newline ∉ l := by
      rw [List.forall_mem_append, List.forall_mem_singleton]
      exact ⟨hK.lines, hline⟩
    -- the line is no answer to the others, and to this caller only if it is returned
    have hothers : ∀ {q : Option Request}, (∀ q', q = some q' → q'.start = r.start ∧
        q'.id = r.id ∧ ¬ Answers readFloat sameNumber line r.id) →
        Kept readFloat sameNumber
          ({ s with readBuffer := rest, taken := s.taken ++ [line] }.setRequest i q) := by
      intro q hq
      refine ⟨hintact, hlines, fun j p hp => ?_⟩
      rcases requests_set_cases hp with ⟨-, hset⟩ | ⟨hne, hkept⟩
      · obtain ⟨hstart, hid, hn⟩ := hq p hset
        rw [hstart, hid]
        exact start_append hK hr hn
      · exact start_append hK hkept (hhanded line rest hsplit j p hne hkept)
    dsimp only
    cases hm : message readFloat line with
    | none =>
      refine hothers ?_
      rintro _ ⟨⟩
      refine ⟨rfl, rfl, ?_⟩
      rintro ⟨res, hres, -⟩
      rw [hm] at hres
      cases hres
    | some res =>
      dsimp only
      by_cases hc : carries sameNumber res r.id = true
      · rw [if_pos hc]
        have hreturned := hothers (q := none) nofun
        exact ⟨hreturned.intact, hreturned.lines, hreturned.start⟩
      · rw [if_neg hc]
        refine hothers ?_
        rintro _ ⟨⟩
        refine ⟨rfl, rfl, ?_⟩
        rintro ⟨res', hres, hcar⟩
        rw [hm] at hres
        obtain rfl := Option.some.inj hres
        exact hc hcar

/-- The step lemma. -/
theorem kept_step {e : Event ι} (hK : Kept readFloat sameNumber s)
    (hhanded : HandedOver readFloat sameNumber s e) (h : step readFloat sameNumber s e = some t) :
    Kept readFloat sameNumber t := by
  cases e with
  | connect i =>
    obtain ⟨-, ⟨⟩⟩ := Option.ite_none_right_eq_some.mp h
    obtain ⟨hbuffer, hnone⟩ := hhanded
    refine ⟨?_, fun _ hm => absurd hm List.not_mem_nil, fun j q hq => ?_⟩
    · rw [Intact, hbuffer]
      rfl
    · exact absurd ((hnone j).symm.trans hq) (by simp)
  | disconnect =>
    obtain ⟨-, ⟨⟩⟩ := Option.ite_none_right_eq_some.mp h
    exact ⟨hK.intact, hK.lines, hK.start⟩
  | write data =>
    obtain ⟨-, ⟨⟩⟩ := Option.ite_none_right_eq_some.mp h
    refine ⟨?_, hK.lines, hK.start⟩
    have hintact := hK.intact
    rw [Intact] at hintact ⊢
    rw [← hintact]
    simp
  | send i sent =>
    obtain ⟨-, ⟨⟩⟩ := Option.ite_none_right_eq_some.mp h
    have hnext : Kept readFloat sameNumber { s with nextReqId := wrap32 (s.nextReqId + 1) } :=
      ⟨hK.intact, hK.lines, hK.start⟩
    cases sent with
    | false => exact hnext
    | true =>
      refine kept_setRequest hnext ?_
      rintro _ ⟨⟩
      refine ⟨Nat.le_refl _, fun l hl => ?_⟩
      rw [List.drop_length] at hl
      exact absurd hl List.not_mem_nil
  | take i =>
    obtain ⟨r, hr, h⟩ := Option.bind_eq_some_iff.mp h
    obtain ⟨-, ⟨⟩⟩ := Option.ite_none_right_eq_some.mp h
    exact kept_takeLine hK hr hhanded
  | read i n =>
    obtain ⟨r, hr, h⟩ := Option.bind_eq_some_iff.mp h
    obtain ⟨-, ⟨⟩⟩ := Option.ite_none_right_eq_some.mp h
    have hintact := hK.intact
    have hread : Kept readFloat sameNumber
        { s with readBuffer := s.readBuffer ++ s.pipe.take n, pipe := s.pipe.drop n } := by
      refine ⟨?_, hK.lines, hK.start⟩
      rw [Intact] at hintact ⊢
      rw [← hintact]
      simp
    refine kept_setRequest hread ?_
    rintro _ ⟨⟩
    exact hK.start i r hr
  | eof i =>
    obtain ⟨r, hr, h⟩ := Option.bind_eq_some_iff.mp h
    obtain ⟨-, ⟨⟩⟩ := Option.ite_none_right_eq_some.mp h
    exact ⟨hK.intact, hK.lines, hK.start⟩
  | expire i | abandon i =>
    obtain ⟨r, hr, h⟩ := Option.bind_eq_some_iff.mp h
    obtain ⟨-, ⟨⟩⟩ := Option.ite_none_right_eq_some.mp h
    exact kept_setRequest hK nofun

/-- Only a taken line is returned, as the answer to the request of the caller that takes it. -/
theorem returned_step {e : Event ι} (h : step readFloat sameNumber s e = some t) :
    t.returned = s.returned ∨ ∃ i id line, t.returned = s.returned ++ [(i, id, line)] ∧
      Answers readFloat sameNumber line id := by
  cases e with
  | take i =>
    obtain ⟨r, hr, h⟩ := Option.bind_eq_some_iff.mp h
    obtain ⟨-, ⟨⟩⟩ := Option.ite_none_right_eq_some.mp h
    unfold Client.takeLine
    cases splitLine s.readBuffer with
    | none => exact .inl rfl
    | some x =>
      dsimp only
      cases hm : message readFloat x.1 with
      | none => exact .inl rfl
      | some res =>
        dsimp only
        by_cases hc : carries sameNumber res r.id = true
        · rw [if_pos hc]
          exact .inr ⟨i, r.id, x.1, rfl, res, hm, hc⟩
        · rw [if_neg hc]
          exact .inl rfl
  | send i sent =>
    obtain ⟨-, ⟨⟩⟩ := Option.ite_none_right_eq_some.mp h
    cases sent with
    | false => exact .inl rfl
    | true => exact .inl rfl
  | connect i | disconnect | write data =>
    obtain ⟨-, ⟨⟩⟩ := Option.ite_none_right_eq_some.mp h
    exact .inl rfl
  | read i n | eof i | expire i | abandon i =>
    obtain ⟨r, hr, h⟩ := Option.bind_eq_some_iff.mp h
    obtain ⟨-, ⟨⟩⟩ := Option.ite_none_right_eq_some.mp h
    exact .inl rfl

theorem ownAnswers {tr : List (Client ι × Event ι)}
    (h : Run (client readFloat sameNumber) tr s) : OwnAnswers readFloat sameNumber s := by
  refine h.invariant ?_ fun s e t hs ht => ?_
  · rintro _ rfl x hx
    exact absurd hx List.not_mem_nil
  · rcases returned_step ht with hk | ⟨i, id, line, hk, hans⟩
    · rw [OwnAnswers, hk]
      exact hs
    · rw [OwnAnswers, hk, List.forall_mem_append, List.forall_mem_singleton]
      exact ⟨hs, hans⟩

end Steps

section Runs

variable {readFloat : Bytes → Option NumberText} {sameNumber : NumberText → ℤ → Bool}
  {ι : Type*} [DecidableEq ι]

/-- Where all states of a run keep the invariant and its steps hand over the lines, no request that
is answered is given up in it. -/
theorem noneLost_of_kept {tr : List (Client ι × Event ι)} {s : Client ι}
    (h : Run (client readFloat sameNumber) tr s)
    (hhanded : ∀ x ∈ tr, HandedOver readFloat sameNumber x.1 x.2) :
    NoneLost readFloat sameNumber tr := by
  rintro ⟨u, e⟩ hx i he
  obtain ⟨tr₁, tr₂, t, rfl, hr, ht⟩ := h.split hx
  have hK : Kept readFloat sameNumber u :=
    hr.guarded_invariant (by rintro _ rfl; exact kept_init) (fun _ _ _ => kept_step)
      fun y hy => hhanded y (List.mem_append_left _ hy)
  have hgiven : HandedOver readFloat sameNumber u e := hhanded _ hx
  rcases he with rfl | rfl
  · obtain ⟨r, -, ht⟩ := Option.bind_eq_some_iff.mp ht
    obtain ⟨⟨-, -, hpipe⟩, -⟩ := Option.ite_none_right_eq_some.mp ht
    exact not_answered hK hgiven hpipe
  · exact not_answered hK hgiven.1 hgiven.2

end Runs

section OneCaller

variable {readFloat : Bytes → Option NumberText} {sameNumber : NumberText → ℤ → Bool}
  {s t : Client Unit} {r : Request}

theorem polls_takeLine (hopen : s.isConnected = true) (hsteady : Steady readFloat s (.take ())) :
    Polls (s.takeLine readFloat sameNumber () r) := by
  have hset : ∀ {u : Client Unit} {q : Option Request}, u.isConnected = true →
      (∀ q', q = some q' → q'.phase = .polling → newline ∉ u.readBuffer) →
      Polls (u.setRequest () q) := by
    intro u q hu hq
    refine ⟨fun p hp => hq p ((requests_set_self u () q).symm.trans hp), fun hc => ?_⟩
    exact absurd (hu.symm.trans hc) (by decide)
  unfold Client.takeLine
  cases hsplit : splitLine s.readBuffer with
  | none =>
    refine hset hopen ?_
    rintro _ ⟨⟩ -
    exact splitLine_none hsplit
  | some x =>
    obtain ⟨line, rest⟩ := x
    dsimp only
    cases hm : message readFloat line with
    | none =>
      refine hset hopen ?_
      rintro _ ⟨⟩ -
      exact hsteady line rest hsplit hm
    | some res =>
      dsimp only
      by_cases hc : carries sameNumber res r.id = true
      · rw [if_pos hc]
        have hreturned := hset (q := none)
          (u := { s with readBuffer := rest, taken := s.taken ++ [line] }) hopen nofun
        exact ⟨hreturned.polling, hreturned.closed⟩
      · rw [if_neg hc]
        refine hset hopen ?_
        rintro _ ⟨⟩ ⟨⟩

/-- The step lemma for one caller. -/
theorem polls_step {e : Event Unit} (hP : Polls s) (hsteady : Steady readFloat s e)
    (h : step readFloat sameNumber s e = some t) : Polls t := by
  cases e with
  | connect i =>
    obtain ⟨⟨-, hnone⟩, ⟨⟩⟩ := Option.ite_none_right_eq_some.mp h
    exact ⟨fun q hq => absurd (hnone.symm.trans hq) (by simp), nofun⟩
  | disconnect =>
    obtain ⟨-, ⟨⟩⟩ := Option.ite_none_right_eq_some.mp h
    exact ⟨hP.polling, fun _ => hsteady⟩
  | write data =>
    obtain ⟨hc, ⟨⟩⟩ := Option.ite_none_right_eq_some.mp h
    exact ⟨hP.polling, fun hn => absurd (hc.symm.trans hn) (by decide)⟩
  | send i sent =>
    obtain ⟨⟨hc, -⟩, ⟨⟩⟩ := Option.ite_none_right_eq_some.mp h
    cases sent with
    | false => exact ⟨hP.polling, hP.closed⟩
    | true =>
      refine ⟨fun q hq hphase => ?_, fun hn => absurd (hc.symm.trans hn) (by decide)⟩
      obtain rfl := Option.some.inj ((requests_set_self _ _ _).symm.trans hq)
      cases hphase
  | take i =>
    obtain ⟨r, hr, h⟩ := Option.bind_eq_some_iff.mp h
    obtain ⟨hphase, ⟨⟩⟩ := Option.ite_none_right_eq_some.mp h
    have hopen : s.isConnected = true := by
      by_contra hc
      rw [Bool.not_eq_true] at hc
      have hp := (hP.closed hc r hr).1
      rw [hp] at hphase
      rcases hphase with h | h
      · cases h
      · cases h.1
    exact polls_takeLine hopen hsteady
  | read i n =>
    obtain ⟨r, hr, h⟩ := Option.bind_eq_some_iff.mp h
    obtain ⟨⟨hc, -⟩, ⟨⟩⟩ := Option.ite_none_right_eq_some.mp h
    refine ⟨fun q hq hphase => ?_, fun hn => absurd (hc.symm.trans hn) (by decide)⟩
    obtain rfl := Option.some.inj ((requests_set_self _ _ _).symm.trans hq)
    cases hphase
  | eof i =>
    obtain ⟨r, hr, h⟩ := Option.bind_eq_some_iff.mp h
    obtain ⟨⟨-, hp, hpipe⟩, ⟨⟩⟩ := Option.ite_none_right_eq_some.mp h
    refine ⟨hP.polling, fun _ q hq => ?_⟩
    obtain rfl := Option.some.inj (hr.symm.trans hq)
    exact ⟨hp, hpipe⟩
  | expire i | abandon i =>
    obtain ⟨r, hr, h⟩ := Option.bind_eq_some_iff.mp h
    obtain ⟨-, ⟨⟩⟩ := Option.ite_none_right_eq_some.mp h
    have hnone : (s.setRequest () none).requests () = none := requests_set_self s () none
    exact ⟨fun q hq => absurd (hnone.symm.trans hq) (by simp),
      fun _ q hq => absurd (hnone.symm.trans hq) (by simp)⟩

/-- A steady step of the one caller hands over its lines. -/
theorem handedOver_of_polls (hP : Polls s) {e : Event Unit} (hsteady : Steady readFloat s e)
    (h : step readFloat sameNumber s e = some t) : HandedOver readFloat sameNumber s e := by
  cases e with
  | connect i =>
    obtain ⟨⟨-, hnone⟩, -⟩ := Option.ite_none_right_eq_some.mp h
    exact ⟨hsteady, fun _ => hnone⟩
  | take i => exact fun _ _ _ j _ hne => absurd (Subsingleton.elim j i) hne
  | expire i =>
    obtain ⟨r, hr, h⟩ := Option.bind_eq_some_iff.mp h
    obtain ⟨⟨-, hphase, -⟩, -⟩ := Option.ite_none_right_eq_some.mp h
    exact hP.polling r hr hphase
  | abandon i =>
    obtain ⟨r, hr, h⟩ := Option.bind_eq_some_iff.mp h
    obtain ⟨⟨hc, -⟩, -⟩ := Option.ite_none_right_eq_some.mp h
    obtain ⟨hphase, hpipe⟩ := hP.closed hc r hr
    exact ⟨hP.polling r hr hphase, hpipe⟩
  | _ => trivial

theorem steady_handedOver {tr : List (Client Unit × Event Unit)}
    (h : Run (client readFloat sameNumber) tr s) (hp : ∀ x ∈ tr, Steady readFloat x.1 x.2) :
    ∀ x ∈ tr, HandedOver readFloat sameNumber x.1 x.2 := by
  intro x hx
  obtain ⟨tr₁, tr₂, t, rfl, hr, ht⟩ := h.split hx
  have hP : Polls x.1 :=
    hr.guarded_invariant (P := Steady readFloat)
      (by rintro _ rfl; exact ⟨nofun, fun _ => nofun⟩)
      (fun _ _ _ => polls_step) fun y hy => hp y (List.mem_append_left _ hy)
  exact handedOver_of_polls hP (hp x hx) ht

/-- One caller: the lines of a connection are read from it alone and in full, and an answer that can
be read before the deadline is returned, in every run whose steps are steady. -/
theorem lines_kept {tr : List (Client Unit × Event Unit)}
    (h : Run (client readFloat sameNumber) tr s) (hp : ∀ x ∈ tr, Steady readFloat x.1 x.2) :
    Intact s ∧ (∀ x ∈ tr, Intact x.1) ∧ OwnAnswers readFloat sameNumber s ∧
      NoneLost readFloat sameNumber tr := by
  have hhanded := steady_handedOver h hp
  have hintact : ∀ {tr₁ u}, tr₁ ⊆ tr → Run (client readFloat sameNumber) tr₁ u → Intact u :=
    fun hsub hu => (hu.guarded_invariant (I := Kept readFloat sameNumber)
      (by rintro _ rfl; exact kept_init) (fun _ _ _ => kept_step)
      fun y hy => hhanded y (hsub hy)).intact
  refine ⟨hintact (List.Subset.refl _) h, fun x hx => ?_, ownAnswers h,
    noneLost_of_kept h hhanded⟩
  obtain ⟨tr₁, tr₂, t, rfl, hr, -⟩ := h.split hx
  exact hintact (List.subset_append_left _ _) hr

end OneCaller

namespace Counterexample

def noFloat : Bytes → Option NumberText := fun _ => none
def notSame : NumberText → ℤ → Bool := fun _ _ => false

/-- The answer to the first request. -/
def answerLine : Bytes := bytes "\x7b\"id\":1\x7d"

theorem message_answerLine : message noFloat answerLine = some (.obj [(bytes "id", .int 1)]) := by
  have hstorable : JsonRoundTrip.Storable noFloat (.obj [(bytes "id", .int 1)]) := by
    have hmembers : Utf8.valid (bytes "id") = true ∧ JsonParse.InRange 1 ∧ True := by decide
    exact ⟨List.pairwise_singleton _ _, hmembers⟩
  have hdump : JsonDump.dump (.obj [(bytes "id", .int 1)]) = .ok answerLine := by rfl
  rw [message, if_neg (by decide), parseText_dump hstorable hdump]

theorem answers_answerLine : Answers noFloat notSame answerLine 1 :=
  ⟨_, message_answerLine, by decide⟩

theorem splitLine_answerLine : splitLine (answerLine ++ [newline]) = some (answerLine, []) := by
  decide

section Answer

variable {ι : Type*} [DecidableEq ι] {s : Client ι} {i : ι} {r : Request}

theorem step_take (hr : s.requests i = some r) (hp : r.phase = .chunk) :
    step noFloat notSame s (.take i) = some (s.takeLine noFloat notSame i r) := by
  simp [step, hr, hp]

/-- Any caller takes the line from the buffer, but only the one with the first request keeps it. -/
theorem takeLine_answerLine (hb : s.readBuffer = answerLine ++ [newline]) :
    s.takeLine noFloat notSame i r =
      if r.id = 1 then
        { ({ s with readBuffer := [], taken := s.taken ++ [answerLine] } : Client ι).setRequest i none
          with returned := s.returned ++ [(i, r.id, answerLine)] }
      else ({ s with readBuffer := [], taken := s.taken ++ [answerLine] } : Client ι).setRequest i
        (some { r with phase := .ready }) := by
  have hcarries : carries notSame (.obj [(bytes "id", .int 1)]) r.id = decide (1 = r.id) := rfl
  rw [Client.takeLine, hb, splitLine_answerLine]
  dsimp only
  rw [message_answerLine]
  dsimp only
  by_cases hid : r.id = 1
  · rw [if_pos hid, if_pos (by rw [hcarries, hid]; rfl)]
  · rw [if_neg hid, if_neg (by rw [hcarries, decide_eq_true_eq]; exact Ne.symm hid)]

end Answer

/-- A blank line is read together with the answer behind it, and the caller waits for more. -/
def blankLine : List (Event Unit) :=
  [.connect (), .send () true, .take (), .write (newline :: (answerLine ++ [newline])),
    .read () 10, .take (), .expire ()]

/-- The connection is lost in the middle of a line, and another is made. -/
def halfLine : List (Event Unit) :=
  [.connect (), .send () true, .take (), .write (bytes "x"), .read () 1, .take (), .eof (),
    .abandon (), .connect ()]

theorem stale_lines :
    (∃ tr s, Run (client (ι := Unit) noFloat notSame) tr s ∧ ¬ NoneLost noFloat notSame tr) ∧
      ∃ tr s, Run (client (ι := Unit) noFloat notSame) tr s ∧ ¬ Intact s := by
  constructor
  · obtain ⟨tr, s, h, hp⟩ := Run.of_execute (M := client noFloat notSame) (fun _ _ _ h => h) rfl
      blankLine (fun tr _ => tr.any fun x => x.2 = .expire () ∧
        x.1.requests () = some ⟨1, .polling, 0⟩ ∧ answerLine ∈ completeLines x.1.written)
      (by decide)
    obtain ⟨x, hx, hx'⟩ := List.any_eq_true.mp hp
    obtain ⟨he, hr, hline⟩ := of_decide_eq_true hx'
    refine ⟨tr, s, h, fun hn => hn x hx () (.inl he) ⟨_, hr, answerLine, hline, ?_⟩⟩
    exact answers_answerLine
  · obtain ⟨tr, s, h, hp⟩ := Run.of_execute (M := client noFloat notSame) (fun _ _ _ h => h) rfl
      halfLine (fun _ s => decide (¬ unlines s.taken ++ s.readBuffer ++ s.pipe = s.written))
      (by decide)
    exact ⟨tr, s, h, fun hi => of_decide_eq_true hp hi⟩

/-- The answer is read in one piece, and taken next. -/
def wholeLine : List (Event Unit) :=
  [.connect (), .send () true, .take (), .write (answerLine ++ [newline]), .read () 9]

theorem whole_line_returned : ∃ tr s, Run (client noFloat notSame) tr s ∧
    s.returned = [((), 1, answerLine)] ∧ Intact s ∧ NoneLost noFloat notSame tr := by
  obtain ⟨tr, s, h, hp⟩ := Run.of_execute (M := client noFloat notSame) (fun _ _ _ h => h) rfl
    wholeLine (fun tr s => decide (s.requests () = some ⟨1, .chunk, 0⟩ ∧
      s.readBuffer = answerLine ++ [newline] ∧ s.returned = []) && tr.all fun x =>
        x.1.readBuffer = [] ∧ x.2 ≠ .disconnect) (by decide)
  obtain ⟨hs, htr⟩ := Bool.and_eq_true_iff.mp hp
  obtain ⟨hr, hb, hret⟩ := of_decide_eq_true hs
  have hrun := h.step (step_take hr rfl)
  refine ⟨_, _, hrun, ?_, ?_⟩
  · rw [takeLine_answerLine hb, hret]
    rfl
  · have hsteady : ∀ x ∈ tr ++ [(s, .take ())], Steady noFloat x.1 x.2 := by
      rw [List.forall_mem_append, List.forall_mem_singleton]
      refine ⟨fun x hx => ?_, fun line rest hsplit _ => ?_⟩
      · obtain ⟨hempty, hne⟩ := of_decide_eq_true (List.all_eq_true.mp htr x hx)
        obtain ⟨u, e⟩ := x
        cases e with
        | connect i => exact hempty
        | disconnect => exact absurd rfl hne
        | take i =>
          intro line rest hsplit
          rw [hempty] at hsplit
          cases hsplit
        | _ => trivial
      · rw [hb, splitLine_answerLine] at hsplit
        obtain ⟨-, rfl⟩ := Prod.mk.inj (Option.some.inj hsplit)
        exact List.not_mem_nil
    obtain ⟨hintact, -, -, hlost⟩ := lines_kept hrun hsteady
    exact ⟨hintact, hlost⟩

/-- Two callers wait, and one of them reads the answer to the first request. -/
def twoCallers (i : Bool) : List (Event Bool) :=
  [.connect false, .send false true, .send true true, .take false, .take true,
    .write (answerLine ++ [newline]), .read i 9]

theorem twoCallers_run (i : Bool) : ∃ tr s, Run (client noFloat notSame) tr s ∧
    (s.isConnected = true ∧ s.requests i = some ⟨if i then 2 else 1, .chunk, 0⟩ ∧
      s.requests (!i) = some ⟨if i then 1 else 2, .polling, 0⟩ ∧ s.pipe = [] ∧
      s.readBuffer = answerLine ++ [newline] ∧ s.written = answerLine ++ [newline] ∧
      s.returned = []) ∧ ∀ x ∈ tr, HandedOver noFloat notSame x.1 x.2 := by
  obtain ⟨tr, s, h, hp⟩ := Run.of_execute (M := client noFloat notSame) (fun _ _ _ h => h) rfl
    (twoCallers i) (fun tr s => decide (s.isConnected = true ∧
      s.requests i = some ⟨if i then 2 else 1, .chunk, 0⟩ ∧
      s.requests (!i) = some ⟨if i then 1 else 2, .polling, 0⟩ ∧ s.pipe = [] ∧
      s.readBuffer = answerLine ++ [newline] ∧ s.written = answerLine ++ [newline] ∧
      s.returned = []) && tr.all fun x => x.1.readBuffer = [] ∧
        (x.2 = .connect false → x.1.requests false = none ∧ x.1.requests true = none) ∧
        x.2 ∈ twoCallers i) (by cases i <;> decide)
  obtain ⟨hs, htr⟩ := Bool.and_eq_true_iff.mp hp
  refine ⟨tr, s, h, of_decide_eq_true hs, fun x hx => ?_⟩
  obtain ⟨hempty, hconnect, hmem⟩ := of_decide_eq_true (List.all_eq_true.mp htr x hx)
  obtain ⟨u, e⟩ := x
  cases e with
  | connect k =>
    have hk : k = false := by simpa [twoCallers] using hmem
    obtain ⟨h0, h1⟩ := hconnect (by rw [hk])
    exact ⟨hempty, Bool.forall_bool.mpr ⟨h0, h1⟩⟩
  | take k =>
    intro line rest hsplit
    rw [hempty] at hsplit
    cases hsplit
  | expire k | abandon k => simp [twoCallers] at hmem
  | _ => trivial

end Counterexample

end McpClient
