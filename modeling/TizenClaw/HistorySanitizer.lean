import TizenClaw.LlmTypes

/-! Tool messages that are dropped from a history before it is sent to a model: what the code keeps,
and what its contract keeps. -/
namespace HistorySanitizer

open ByteString LlmTypes

/-- The identifiers of the calls that a message makes. -/
def callIds (msg : LlmMessage) : List Bytes :=
  if msg.role = .assistant then msg.toolCalls.map (·.id) else []

/-- `valid_tool_call_ids` -/
def validIds (history : List LlmMessage) : List Bytes :=
  (history.flatMap callIds).filter (· ≠ [])

def orphaned (ids : List Bytes) (msg : LlmMessage) : Bool :=
  if msg.role ≠ .tool then false
  else if msg.toolCallId = [] then true
  else msg.toolCallId ∉ ids

def sanitizeHistory (history : List LlmMessage) : List LlmMessage :=
  history.filter fun msg => !orphaned (validIds history) msg

/-- The contract, for a history behind messages that made calls with these identifiers: a result is
kept if its call was made in an earlier message. -/
def keepPaired : List Bytes → List LlmMessage → List LlmMessage
  | _, [] => []
  | ids, msg :: history =>
    if msg.role = .tool ∧ msg.toolCallId ∉ ids then keepPaired ids history
    else msg :: keepPaired (ids ++ callIds msg) history

/-- The message stands in the history behind `pre`. -/
def Behind (history pre : List LlmMessage) (msg : LlmMessage) : Prop :=
  ∃ post, history = pre ++ msg :: post

/-- No result stands before its call, and none without an identifier behind such a call. -/
structure InOrder (history : List LlmMessage) : Prop where
  called : ∀ pre msg, Behind history pre msg → msg.role = .tool → msg.toolCallId ≠ [] →
    msg.toolCallId ∈ history.flatMap callIds → msg.toolCallId ∈ pre.flatMap callIds
  unnamed : ∀ pre msg, Behind history pre msg → msg.role = .tool → msg.toolCallId = [] →
    [] ∉ pre.flatMap callIds

theorem mem_validIds {history : List LlmMessage} {id : Bytes} :
    id ∈ validIds history ↔ id ≠ [] ∧ id ∈ history.flatMap callIds := by
  rw [validIds, List.mem_filter, decide_eq_true_eq, and_comm]

theorem not_orphaned_iff {history : List LlmMessage} {msg : LlmMessage} :
    orphaned (validIds history) msg = false ↔
      (msg.role = .tool → msg.toolCallId ∈ validIds history) := by
  unfold orphaned
  split_ifs with hrole hid
  · exact iff_of_true rfl fun h => absurd h hrole
  · rw [hid, mem_validIds]
    exact iff_of_false (fun h => nomatch h) fun h => (h (not_not.mp hrole)).1 rfl
  · simp [not_not.mp hrole]

section Idempotence

theorem callIds_tool {msg : LlmMessage} (h : msg.role = .tool) : callIds msg = [] := by
  rw [callIds, h]
  rfl

/-- Only messages that make no calls are dropped. -/
theorem flatMap_sanitizeHistory (ids : List Bytes) (history : List LlmMessage) :
    (history.filter fun msg => !orphaned ids msg).flatMap callIds = history.flatMap callIds := by
  induction history with
  | nil => rfl
  | cons msg history ih =>
    rw [List.filter_cons, List.flatMap_cons]
    split_ifs with h
    · rw [List.flatMap_cons, ih]
    · have hrole : msg.role = .tool := by
        by_contra hrole
        rw [orphaned, if_pos hrole] at h
        exact h rfl
      rw [ih, callIds_tool hrole, List.nil_append]

theorem sanitizeHistory_idem (history : List LlmMessage) :
    sanitizeHistory (sanitizeHistory history) = sanitizeHistory history := by
  have hids : validIds (sanitizeHistory history) = validIds history := by
    rw [validIds, sanitizeHistory, flatMap_sanitizeHistory, validIds]
  rw [sanitizeHistory, hids, sanitizeHistory, List.filter_filter]
  simp only [Bool.and_self]

end Idempotence

section Contract

variable {all : List Bytes} {ids : List Bytes} {msg : LlmMessage} {history : List LlmMessage}

/-- The contract and the code, behind the same messages, decide alike about each result. -/
def Agree (all ids : List Bytes) (history : List LlmMessage) : Prop :=
  ∀ pre msg, Behind history pre msg → msg.role = .tool →
    (msg.toolCallId ∈ all ↔ msg.toolCallId ∈ ids ++ pre.flatMap callIds)

theorem behind_cons {m : LlmMessage} {pre : List LlmMessage} :
    Behind (m :: history) pre msg ↔
      pre = [] ∧ msg = m ∨ ∃ pre', pre = m :: pre' ∧ Behind history pre' msg := by
  constructor
  · rintro ⟨post, h⟩
    cases pre with
    | nil => exact .inl ⟨rfl, (List.cons.inj h).1.symm⟩
    | cons a pre =>
      obtain ⟨rfl, hpost⟩ := List.cons.inj h
      exact .inr ⟨pre, rfl, post, hpost⟩
  · rintro (⟨rfl, rfl⟩ | ⟨pre', rfl, post, rfl⟩)
    · exact ⟨history, rfl⟩
    · exact ⟨post, rfl⟩

theorem agree_cons : Agree all ids (msg :: history) ↔
    (msg.role = .tool → (msg.toolCallId ∈ all ↔ msg.toolCallId ∈ ids)) ∧
      Agree all (ids ++ callIds msg) history := by
  constructor
  · intro h
    refine ⟨fun hrole => ?_, fun pre m hm hrole => ?_⟩
    · simpa using h [] msg (behind_cons.mpr (.inl ⟨rfl, rfl⟩)) hrole
    · simpa using h (msg :: pre) m (behind_cons.mpr (.inr ⟨pre, rfl, hm⟩)) hrole
  · rintro ⟨hhead, htail⟩ pre m hm hrole
    rcases behind_cons.mp hm with ⟨rfl, rfl⟩ | ⟨pre', rfl, hm'⟩
    · simpa using hhead hrole
    · simpa using htail pre' m hm' hrole

def keptBy (all : List Bytes) (msg : LlmMessage) : Bool :=
  msg.role = .tool → msg.toolCallId ∈ all

/-- The code keeps no result without an identifier. -/
def named (msg : LlmMessage) : Bool := msg.role ≠ .tool ∨ msg.toolCallId ≠ []

/-- Apart from results without an identifier the contract keeps no more than the code. -/
theorem keepPaired_sublist (hids : ∀ id ∈ ids, id ≠ [] → id ∈ all)
    (hcalls : ∀ id ∈ history.flatMap callIds, id ≠ [] → id ∈ all) :
    ((keepPaired ids history).filter named).Sublist (history.filter (keptBy all)) := by
  induction history generalizing ids with
  | nil => exact List.Sublist.slnil
  | cons msg history ih =>
    have hrest : ∀ id ∈ history.flatMap callIds, id ≠ [] → id ∈ all := fun id hid =>
      hcalls id (List.mem_flatMap.mpr (by
        obtain ⟨m, hm, hid⟩ := List.mem_flatMap.mp hid
        exact ⟨m, List.mem_cons_of_mem msg hm, hid⟩))
    rw [keepPaired]
    split_ifs with hdrop
    · refine (ih hids hrest).trans ?_
      rw [List.filter_cons]
      split_ifs
      · exact List.sublist_cons_self msg _
      · exact List.Sublist.refl _
    · have hids' : ∀ id ∈ ids ++ callIds msg, id ≠ [] → id ∈ all := by
        intro id hid
        rcases List.mem_append.mp hid with hid | hid
        · exact hids id hid
        · exact hcalls id (List.mem_flatMap.mpr ⟨msg, List.mem_cons_self, hid⟩)
      have htail := ih hids' hrest
      rw [List.filter_cons, List.filter_cons]
      by_cases hnamed : named msg = true
      · have hkept : msg.role = .tool → msg.toolCallId ∈ all := by
          intro hrole
          have hid : msg.toolCallId ∈ ids := by
            by_contra hid
            exact hdrop ⟨hrole, hid⟩
          exact hids _ hid (by simpa [named, hrole] using hnamed)
        rw [if_pos hnamed, if_pos (show keptBy all msg = true from decide_eq_true hkept)]
        exact htail.cons_cons msg
      · rw [if_neg hnamed]
        split_ifs
        · exact htail.trans (List.sublist_cons_self msg _)
        · exact htail

theorem mem_calls_cons {id : Bytes} (h : id ∈ history.flatMap callIds) :
    id ∈ (msg :: history).flatMap callIds := by
  rw [List.flatMap_cons]
  exact List.mem_append_right _ h

theorem filter_eq_keepPaired_iff (hempty : [] ∉ all) (hids : ∀ id ∈ ids, id ≠ [] → id ∈ all)
    (hcalls : ∀ id ∈ history.flatMap callIds, id ≠ [] → id ∈ all) :
    history.filter (keptBy all) = keepPaired ids history ↔ Agree all ids history := by
  induction history generalizing ids with
  | nil => exact iff_of_true rfl fun pre _ ⟨_, h⟩ => by cases pre <;> cases h
  | cons msg history ih =>
    have hrest : ∀ id ∈ history.flatMap callIds, id ≠ [] → id ∈ all := fun id hid =>
      hcalls id (mem_calls_cons hid)
    rw [agree_cons]
    by_cases hrole : msg.role = .tool
    · rw [callIds_tool hrole, List.append_nil, ← ih hids hrest, List.filter_cons, keepPaired]
      by_cases hid : msg.toolCallId ∈ ids
      · by_cases hall : msg.toolCallId ∈ all
        · rw [if_pos (show keptBy all msg = true from decide_eq_true fun _ => hall),
            if_neg (fun h => h.2 hid), callIds_tool hrole, List.append_nil]
          simp [hid, hall]
        · -- an identifier that is empty: only the contract keeps the result
          have hdropped : ¬ keptBy all msg = true := fun h => hall (of_decide_eq_true h hrole)
          rw [if_neg hdropped, if_neg (fun h => h.2 hid)]
          refine iff_of_false (fun h => ?_) fun h => hall ((h.1 hrole).mpr hid)
          have hmem : msg ∈ history.filter (keptBy all) := h ▸ List.mem_cons_self
          exact hdropped (List.mem_filter.mp hmem).2
      · by_cases hall : msg.toolCallId ∈ all
        · -- a call that comes later: only the code keeps the result
          rw [if_pos (show keptBy all msg = true from decide_eq_true fun _ => hall),
            if_pos ⟨hrole, hid⟩]
          refine iff_of_false (fun h => ?_) fun h => hid ((h.1 hrole).mp hall)
          have hnamed : ∀ m ∈ msg :: history.filter (keptBy all), named m = true := by
            intro m hm
            have hkept : m.role = .tool → m.toolCallId ∈ all := by
              rcases List.mem_cons.mp hm with rfl | hm
              · exact fun _ => hall
              · exact of_decide_eq_true (List.mem_filter.mp hm).2
            refine decide_eq_true ?_
            by_cases hm' : m.role = .tool
            · exact .inr fun hnil => hempty (hnil ▸ hkept hm')
            · exact .inl hm'
          have hsub := keepPaired_sublist hids hrest
          rw [← h, List.filter_eq_self.mpr hnamed] at hsub
          have hlength := hsub.length_le
          rw [List.length_cons] at hlength
          omega
        · rw [if_neg (fun h : keptBy all msg = true => hall (of_decide_eq_true h hrole)),
            if_pos ⟨hrole, hid⟩]
          simp [hid, hall]
    · rw [List.filter_cons, keepPaired,
        if_pos (show keptBy all msg = true from decide_eq_true fun h => absurd h hrole),
        if_neg (fun h => hrole h.1), List.cons.injEq]
      have hids' : ∀ id ∈ ids ++ callIds msg, id ≠ [] → id ∈ all := by
        intro id hid
        rcases List.mem_append.mp hid with hid | hid
        · exact hids id hid
        · exact hcalls id (List.mem_flatMap.mpr ⟨msg, List.mem_cons_self, hid⟩)
      rw [ih hids' hrest]
      simp [hrole]

theorem agree_iff : Agree (validIds history) [] history ↔ InOrder history := by
  constructor
  · intro h
    refine ⟨fun pre msg hm hrole hid hcalled => ?_, fun pre msg hm hrole hid hcalled => ?_⟩
    · exact (h pre msg hm hrole).mp (mem_validIds.mpr ⟨hid, hcalled⟩)
    · have hvalid := (h pre msg hm hrole).mpr (by rw [hid]; exact hcalled)
      exact (mem_validIds.mp hvalid).1 hid
  · intro h pre msg hm hrole
    rw [mem_validIds, List.nil_append]
    constructor
    · rintro ⟨hid, hcalled⟩
      exact h.called pre msg hm hrole hid hcalled
    · intro hcalled
      obtain ⟨post, rfl⟩ := hm
      refine ⟨fun hid => h.unnamed pre msg ⟨post, rfl⟩ hrole hid (hid ▸ hcalled), ?_⟩
      rw [List.flatMap_append]
      exact List.mem_append_left _ hcalled

/-- Sanitizing keeps to its contract exactly for the histories whose results are in order; doing it
again never changes anything. -/
theorem sanitizeHistory_contract_iff (history : List LlmMessage) :
    (sanitizeHistory history = keepPaired [] history ∧
      sanitizeHistory (sanitizeHistory history) = sanitizeHistory history) ↔ InOrder history := by
  have hkept : sanitizeHistory history = history.filter (keptBy (validIds history)) := by
    refine List.filter_congr fun msg _ => ?_
    rw [Bool.eq_iff_iff, Bool.not_eq_true', not_orphaned_iff, keptBy, decide_eq_true_eq]
  rw [and_iff_left (sanitizeHistory_idem history), hkept, filter_eq_keepPaired_iff, agree_iff]
  · exact fun h => (mem_validIds.mp h).1 rfl
  · exact fun _ h => absurd h List.not_mem_nil
  · exact fun id hid hne => mem_validIds.mpr ⟨hne, hid⟩

end Contract

namespace Counterexample

def result : LlmMessage := { role := .tool, toolCallId := bytes "c1" }

def history : List LlmMessage :=
  [result, assistantMessage [] [⟨bytes "c1", bytes "list_apps", .obj []⟩]]

/-- The result of a call that is made only afterwards is kept. -/
theorem early_result_kept : sanitizeHistory history = history ∧
    ¬ sanitizeHistory history = keepPaired [] history := by decide

end Counterexample

end HistorySanitizer
