import TizenClaw.LlmTypes
import TizenClaw.TransitionSystem
import Mathlib.Logic.Function.Basic

/-! Which backend the usage of a response is charged to, over the prompts of all threads. A prompt
copies the backend once, at its start; a fallback that answers becomes the backend of later
prompts. -/
namespace UsageCharging

open ByteString LlmTypes TransitionSystem

/-- A backend, by what `GetName` says. -/
structure Backend where
  name : Bytes
  deriving DecidableEq, Repr

inductive Reply where
  | threw
  | answered (resp : LlmResponse)
  deriving DecidableEq, Repr

/-- What comes of a name in the list of fallbacks. -/
inductive Try where
  | notCreated
  | badConfig
  | notInitialized
  | asked (backend : Backend) (reply : Reply)
  deriving DecidableEq, Repr

/-- The end of the search for a response. -/
inductive Found where
  | threw
  | nothing
  | primary (resp : LlmResponse)
  | fallback (backend : Backend) (resp : LlmResponse)
  deriving DecidableEq, Repr

def tryFallbackBackends : List Try → Found
  | [] => .nothing
  | .notCreated :: tries | .notInitialized :: tries => tryFallbackBackends tries
  | .badConfig :: _ | .asked _ .threw :: _ => .threw
  | .asked backend (.answered resp) :: tries =>
    if resp.success then .fallback backend resp else tryFallbackBackends tries

def query : Reply → List Try → Found
  | .threw, _ => .threw
  | .answered resp, tries => if resp.success then .primary resp else tryFallbackBackends tries

/-- A call of `LogTokenUsage`, and the backend whose response it is for. -/
structure Record where
  charged : Bytes
  promptTokens : ℤ
  completionTokens : ℤ
  backend : Backend
  summary : Bool
  deriving DecidableEq, Repr

/-- A prompt in its loop. -/
structure Prompt where
  backend : Backend
  iterations : ℕ
  deriving DecidableEq, Repr

/-- `backend_`, the prompts, the backends that summarize for them, and what was logged. -/
structure State (κ : Type) where
  backend : Option Backend
  prompts : κ → Option Prompt
  summaries : κ → Option Backend
  records : List Record

/-- `stop` is the end of a loop without progress. A summary is logged if it is used. -/
inductive Event (κ : Type) where
  | switch (backend : Backend)
  | start (p : κ)
  | chat (p : κ) (reply : Reply) (tries : List Try)
  | stop (p : κ)
  | summarize (p : κ)
  | summarized (p : κ) (reply : Reply) (used : Bool)

variable {κ : Type} [DecidableEq κ] (maxIterations : ℕ)

/-- The log of a response, if it comes with a number of tokens. -/
def usage (charged : Bytes) (backend : Backend) (summary : Bool) (resp : LlmResponse) :
    List Record :=
  if 0 < resp.totalTokens then
    [⟨charged, resp.promptTokens, resp.completionTokens, backend, summary⟩]
  else []

/-- The prompt behind a response: another round after tool calls, while there may be one. -/
def goOn (prompt : Prompt) (resp : LlmResponse) : Option Prompt :=
  if resp.toolCalls = [] ∨ maxIterations ≤ prompt.iterations + 1 then none
  else some { prompt with iterations := prompt.iterations + 1 }

def step (s : State κ) : Event κ → Option (State κ)
  | .switch backend => some { s with backend := some backend }
  | .start p =>
    match s.prompts p, s.backend with
    | none, some backend =>
      some { s with prompts := Function.update s.prompts p (some ⟨backend, 0⟩) }
    | _, _ => none
  | .chat p reply tries => (s.prompts p).bind fun prompt =>
    match query reply tries with
    | .threw | .nothing => some { s with prompts := Function.update s.prompts p none }
    | .primary resp => some
        { s with
          prompts := Function.update s.prompts p (goOn maxIterations prompt resp)
          records := s.records ++ usage prompt.backend.name prompt.backend false resp }
    | .fallback backend resp => some
        { s with
          backend := some backend
          prompts := Function.update s.prompts p (goOn maxIterations prompt resp)
          records := s.records ++ usage prompt.backend.name backend false resp }
  | .stop p => some { s with prompts := Function.update s.prompts p none }
  | .summarize p =>
    match s.summaries p, s.backend with
    | none, some backend =>
      some { s with summaries := Function.update s.summaries p (some backend) }
    | _, _ => none
  | .summarized p reply used => (s.summaries p).bind fun asked => s.backend.map fun backend =>
    { s with
      summaries := Function.update s.summaries p none
      records := match reply, used with
        | .answered resp, true =>
          s.records ++ usage (backend.name ++ bytes "_compaction") asked true resp
        | _, _ => s.records }

/-- Runs of the prompts, from an agent that has logged nothing. -/
def prompting : System (State κ) (Event κ) where
  Init s := s.records = []
  Step s e t := step maxIterations s e = some t

/-- A record names the backend that answered. -/
def Record.Right (r : Record) : Prop :=
  r.charged = r.backend.name ++ if r.summary then bytes "_compaction" else []

def AllRight (s : State κ) : Prop := ∀ r ∈ s.records, r.Right

/-- A fallback that answers with tokens has the name of the backend that the prompt began with, and
the backend that summarized has the name of the current one. -/
def SameName (s : State κ) : Event κ → Prop
  | .chat p reply tries => ∀ prompt backend resp, s.prompts p = some prompt →
      query reply tries = .fallback backend resp → 0 < resp.totalTokens →
      prompt.backend.name = backend.name
  | .summarized p (.answered resp) true => ∀ asked backend, s.summaries p = some asked →
      s.backend = some backend → 0 < resp.totalTokens → backend.name = asked.name
  | _ => True

variable {maxIterations} {s t : State κ} {e : Event κ}

theorem usage_right {charged : Bytes} {backend : Backend} {summary : Bool} {resp : LlmResponse} :
    (∀ r ∈ usage charged backend summary resp, r.Right) ↔ (0 < resp.totalTokens →
      charged = backend.name ++ if summary then bytes "_compaction" else []) := by
  by_cases h : 0 < resp.totalTokens
  · rw [usage, if_pos h, List.forall_mem_singleton]
    exact ⟨fun hr _ => hr, fun hr => hr h⟩
  · rw [usage, if_neg h]
    exact iff_of_true (fun _ hr => absurd hr List.not_mem_nil) fun hpos => absurd hpos h

omit [DecidableEq κ] in
theorem allRight_append {l : List Record} (hI : AllRight s) (ht : t.records = s.records ++ l) :
    AllRight t ↔ ∀ r ∈ l, r.Right := by
  rw [AllRight, ht, List.forall_mem_append]
  exact and_iff_right hI

/-- A step keeps to the right names exactly if the names are the same. -/
theorem allRight_step (hI : AllRight s) (h : step maxIterations s e = some t) :
    AllRight t ↔ SameName s e := by
  cases e with
  | switch backend =>
    obtain rfl := Option.some.inj h
    exact iff_of_true hI trivial
  | start p =>
    simp only [step] at h
    split at h
    · obtain rfl := Option.some.inj h
      exact iff_of_true hI trivial
    · cases h
  | chat p reply tries =>
    obtain ⟨prompt, hprompt, h⟩ := Option.bind_eq_some_iff.mp h
    have hsame : SameName s (.chat p reply tries) ↔ ∀ backend resp,
        query reply tries = .fallback backend resp → 0 < resp.totalTokens →
          prompt.backend.name = backend.name := by
      refine ⟨fun hs backend resp => hs prompt backend resp hprompt, fun hs c backend resp hc => ?_⟩
      obtain rfl := Option.some.inj (hprompt.symm.trans hc)
      exact hs backend resp
    rw [hsame]
    split at h
    next hquery =>
      obtain rfl := Option.some.inj h
      exact iff_of_true hI (by simp [hquery])
    next hquery =>
      obtain rfl := Option.some.inj h
      exact iff_of_true hI (by simp [hquery])
    next resp hquery =>
      obtain rfl := Option.some.inj h
      rw [allRight_append hI rfl, usage_right]
      exact iff_of_true (fun _ => (List.append_nil _).symm) (by simp [hquery])
    next backend resp hquery =>
      obtain rfl := Option.some.inj h
      rw [allRight_append hI rfl, usage_right, hquery]
      simp
  | stop p =>
    obtain rfl := Option.some.inj h
    exact iff_of_true hI trivial
  | summarize p =>
    simp only [step] at h
    split at h
    · obtain rfl := Option.some.inj h
      exact iff_of_true hI trivial
    · cases h
  | summarized p reply used =>
    obtain ⟨asked, hasked, h⟩ := Option.bind_eq_some_iff.mp h
    obtain ⟨backend, hbackend, rfl⟩ := Option.map_eq_some_iff.mp h
    match reply, used with
    | .threw, _ => exact iff_of_true hI trivial
    | .answered resp, false => exact iff_of_true hI trivial
    | .answered resp, true =>
      rw [allRight_append hI rfl, usage_right]
      simp only [if_true, List.append_left_inj, SameName, hasked, hbackend, Option.some.injEq]
      exact ⟨fun hr asked' backend' ha hb => ha ▸ hb ▸ hr, fun hs => hs asked backend rfl rfl⟩

/-- In a run every record of usage names the backend that answered exactly if no fallback with
another name answers in the middle of a prompt, and none is switched to in the middle of a
summary. -/
theorem usage_charged_iff (maxIterations : ℕ) {tr : List (State κ × Event κ)} {s : State κ}
    (h : Run (prompting maxIterations) tr s) :
    ((∀ x ∈ tr, AllRight x.1) ∧ AllRight s) ↔ ∀ x ∈ tr, SameName x.1 x.2 :=
  h.invariant_iff
    (fun s hs r hr => by
      rw [show s.records = [] from hs] at hr
      cases hr)
    fun _ _ _ hI hstep => allRight_step hI hstep

namespace Counterexample

def start : State Unit := ⟨some ⟨bytes "openai"⟩, fun _ => none, fun _ => none, []⟩

def reply : LlmResponse :=
  { success := true, text := bytes "hi", promptTokens := 7, completionTokens := 2,
    totalTokens := 9 }

def failure : LlmResponse := {}

/-- The primary backend fails, a fallback answers, and the primary one is charged. -/
theorem fallback_charged_to_primary : ∃ tr s, Run (prompting (κ := Unit) 5) tr s ∧
    s.records.any (fun r => r.charged = bytes "openai" && r.backend.name = bytes "anthropic" &&
      !r.summary) = true :=
  Run.of_execute (M := prompting 5) (s := start) (fun _ _ _ h => h) rfl
    [.start (), .chat () (.answered failure) [.asked ⟨bytes "anthropic"⟩ (.answered reply)]] _
    (by decide)

def unaided : Event Unit → Bool
  | .chat _ (.answered resp) _ => resp.success
  | .summarized _ _ _ => false
  | _ => true

/-- The primary backend answers itself. -/
theorem primary_charged : ∃ tr s, Run (prompting (κ := Unit) 5) tr s ∧
    ((∀ x ∈ tr, AllRight x.1) ∧ AllRight s) ∧ s.records.length = 1 := by
  obtain ⟨tr, s, h, hp⟩ := Run.of_execute (M := prompting 5) (s := start) (fun _ _ _ h => h) rfl
    [.start (), .chat () (.answered reply) []]
    (fun tr s => tr.all (fun x => unaided x.2) && s.records.length = 1) (by decide)
  rw [Bool.and_eq_true, List.all_eq_true, decide_eq_true_eq] at hp
  refine ⟨tr, s, h, (usage_charged_iff 5 h).mpr fun x hx => ?_, hp.2⟩
  have hunaided := hp.1 x hx
  obtain ⟨s', e⟩ := x
  cases e with
  | chat p r tries =>
    intro prompt backend resp _ hquery
    cases r with
    | threw => cases hquery
    | answered resp' =>
      rw [query, if_pos (show resp'.success = true from hunaided)] at hquery
      cases hquery
  | summarized p r used => cases hunaided
  | _ => trivial

end Counterexample

end UsageCharging
