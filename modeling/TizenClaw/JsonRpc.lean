import TizenClaw.IpcHandler

/-! What a response of JSON-RPC 2.0 is, and parts of handlers that have to return. -/
namespace JsonRpc

open ByteString JsonValue IpcHandler TryBlock

/-- A response to the request, with its id and with either a result or an error. -/
structure IsResponse (request response : Json) : Prop where
  jsonrpc : response.member? (bytes "jsonrpc") = some (.str (bytes "2.0"))
  id : response.member? (bytes "id") = some ((request.member? (bytes "id")).getD .null)
  one : response.contains (bytes "result") = !response.contains (bytes "error")

theorem isResponse_iff {request id : Json} (reply : Reply) :
    IsResponse request (reply.json id) ↔ (request.member? (bytes "id")).getD .null = id := by
  have hid : (reply.json id).member? (bytes "id") = some id := by cases reply <;> rfl
  constructor
  · intro h
    exact Option.some.inj (h.id.symm.trans hid)
  · rintro rfl
    exact ⟨by cases reply <;> rfl, hid, by cases reply <;> rfl⟩

section Returns

variable {σ α β : Type} {s : σ}

/-- The block does not throw, and what it returns is good. -/
def Returns (x : Action Thrown σ α) (good : α → σ → Prop) (s : σ) : Prop :=
  Ends (fun _ => False) x good s

theorem returns_iff_run {x : Action Thrown σ α} {good : α → σ → Prop} :
    Returns x good s ↔ ∃ a t, x.run s = (.ok a, t) ∧ good a t := by
  rcases h : x.run s with ⟨r, t⟩
  cases r with
  | ok a =>
    refine (ends_ok h).trans ⟨fun hg => ⟨a, t, rfl, hg⟩, ?_⟩
    rintro ⟨b, u, hb, hg⟩
    obtain ⟨hr, rfl⟩ := Prod.mk.inj hb
    obtain rfl := Except.ok.inj hr
    exact hg
  | error e =>
    refine (ends_error h).trans (iff_of_false id ?_)
    rintro ⟨a, u, ha, -⟩
    cases ha

/-- A block that does not return throws. -/
theorem throws_of_not_returns {x : Action Thrown σ α} (h : ¬ Returns x (fun _ _ => True) s) :
    ∃ e t, x.run s = (.error e, t) := by
  rcases hx : x.run s with ⟨r, t⟩
  cases r with
  | ok a => exact absurd (returns_iff_run.mpr ⟨a, t, hx, trivial⟩) h
  | error e => exact ⟨e, t, rfl⟩

theorem returns_pure (a : α) (good : α → σ → Prop) :
    Returns (pure a : Action Thrown σ α) good s ↔ good a s := Iff.rfl

theorem returns_bind (x : Action Thrown σ α) (f : α → Action Thrown σ β) (good : β → σ → Prop) :
    Returns (x >>= f) good s ↔ Returns x (fun a t => Returns (f a) good t) s := ends_bind x f good

theorem returns_congr (x : Action Thrown σ α) {good good' : α → σ → Prop}
    (h : ∀ a t, good a t ↔ good' a t) : Returns x good s ↔ Returns x good' s := ends_congr x h

/-- It is enough to compare the values that the block can return. -/
theorem returns_congr_of {x : Action Thrown σ α} {known good good' : α → σ → Prop}
    (hx : Returns x known s) (h : ∀ a t, known a t → (good a t ↔ good' a t)) :
    Returns x good s ↔ Returns x good' s := by
  obtain ⟨a, t, hrun, hknown⟩ := returns_iff_run.mp hx
  exact (ends_ok hrun).trans ((h a t hknown).trans (ends_ok hrun).symm)

theorem returns_lift {x : Except JsonException α} {good : α → σ → Prop} :
    Returns (liftM (caught x) : Action Thrown σ α) good s ↔ ∃ a, x = .ok a ∧ good a s := by
  cases x with
  | error e => exact iff_of_false id (by simp)
  | ok a =>
    constructor
    · exact fun hg => ⟨a, rfl, hg⟩
    · rintro ⟨b, hb, hg⟩
      obtain rfl := Except.ok.inj hb
      exact hg

theorem returns_ok {x : Except JsonException α} {a : α} (hx : x = .ok a)
    {f : α → Action Thrown σ β} {good : β → σ → Prop} :
    Returns (liftM (caught x) >>= f) good s ↔ Returns (f a) good s := by
  rw [returns_bind, returns_lift, hx]
  simp

end Returns

end JsonRpc
