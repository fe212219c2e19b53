import TizenClaw.PromptNesting

/-! The exits of `ProcessPrompt`. Its failures leave as texts, like its replies. -/
namespace PromptExits

open ByteString ToolDispatch OfflineFallback NestedCalls PromptNesting

inductive Exit where
  | uninitialized
  | unavailable (error : Bytes)
  | idle
  | limit (last : Bytes)
  | answered (text : Bytes)
  | threw (e : ToolException)
  deriving DecidableEq, Repr

/-- What the caller gets. -/
def Exit.result : Exit → Result
  | .uninitialized => .ok (bytes "Error: AgentCore is not initialized.")
  | .unavailable error =>
    .ok (bytes "Error: All language model backends are unavailable. " ++ error)
  | .idle => .ok idleMessage
  | .limit last =>
    .ok (if last = [] then bytes "Task partially completed (reached iteration limit)." else last)
  | .answered text => .ok text
  | .threw e => .error e

/-- No backend, no answer from any, or a loop that was stopped. -/
def Exit.Failure : Exit → Prop
  | .uninitialized | .unavailable _ | .idle | .limit _ => True
  | .answered _ | .threw _ => False

instance : DecidablePred Exit.Failure
  | .uninitialized | .unavailable _ | .idle | .limit _ => isTrue trivial
  | .answered _ | .threw _ => isFalse id

def exitOf : Result → Exit
  | .ok text => .answered text
  | .error e => .threw e

@[simp] theorem result_exitOf (r : Result) : (exitOf r).result = r := by
  cases r with
  | ok text => rfl
  | error e => rfl

section Exits

variable (a : Agent) (answers : ℕ → Turn)
    (callee : Call → ℕ → Option (Outcome Result)) (call : Call)

/-- The tools of a round, up to the first exception among their results. -/
def roundResult (uses : List ToolUse) : PromptBody :=
  toolRound a call.session uses fun result => .done (result.map fun _ => [])

/-- The exit of the loop; `n` iterations are left. -/
def loopExit : ℕ → ℕ → Bytes → Option Exit
  | 0, _, last => some (.limit last)
  | n + 1, pos, _ => match answers pos with
    | .unavailable error use =>
      if (matchRule a.rules call.prompt).isNone then some (.unavailable error)
      else (play answers callee (offline a call error use) (pos + 1)).map fun x => exitOf x.1
    | .text text =>
      (play answers callee (finalText call.session call.prompt text) (pos + 1)).map
        fun x => exitOf x.1
    | .calls text uses after =>
      (play answers callee (roundResult a call uses) (pos + 1)).bind fun x =>
        match x.1.bind fun _ => after with
        | .error e => some (.threw e)
        | .ok true => some .idle
        | .ok false => loopExit n x.2 text
    | .throws e => some (.threw e)

def promptExit (pos : ℕ) : Option Exit :=
  if a.initialized ∧ a.hasBackend then
    loopExit a answers callee call a.config.policy.maxIterations.toNat pos []
  else some .uninitialized

end Exits

section Refinement

variable {a : Agent} {answers : ℕ → Turn}
    {callee : Call → ℕ → Option (Outcome Result)} {call : Call}

/-- A round of tools goes on with whether one of them threw. -/
theorem play_toolRound (session : Bytes) (uses : List ToolUse)
    (next : Except ToolException Unit → PromptBody) (pos : ℕ) :
    play answers callee (toolRound a session uses next) pos =
      (play answers callee (toolRound a session uses fun r => .done (r.map fun _ => [])) pos).bind
        fun x => play answers callee (next (x.1.map fun _ => ())) x.2 := by
  induction uses generalizing next pos with
  | nil => rfl
  | cons use uses ih =>
    rw [toolRound, toolRound, play_bind, play_bind, Option.bind_assoc]
    congr 1
    funext x
    rw [ih, ih (fun rest => .done ((x.1.bind fun _ => rest).map fun _ => [])), Option.bind_assoc]
    congr 1
    funext y
    rw [play_done, Option.bind_some]
    cases x.1 with
    | error e => rfl
    | ok text =>
      cases y.1 with
      | error e => rfl
      | ok text => rfl

/-- The loop returns what its exit says. -/
theorem play_loop (n pos : ℕ) (last : Bytes) :
    (play answers callee (loop a call n last) pos).map Prod.fst =
      (loopExit a answers callee call n pos last).map Exit.result := by
  induction n generalizing pos last with
  | zero => rfl
  | succ n ih =>
    rw [loop, play_ask, loopExit]
    cases answers pos with
    | unavailable error use =>
      dsimp only
      by_cases hm : (matchRule a.rules call.prompt).isNone
      · rw [if_pos hm, offline, Option.isNone_iff_eq_none.mp hm]
        rfl
      · rw [if_neg hm, Option.map_map]
        congr 1
        funext x
        exact (result_exitOf x.1).symm
    | text text =>
      dsimp only
      rw [Option.map_map]
      congr 1
      funext x
      exact (result_exitOf x.1).symm
    | calls text uses after =>
      dsimp only
      rw [play_toolRound, Option.map_bind, Option.map_bind]
      congr 1
      funext x
      dsimp only [Function.comp]
      have hround : ((x.1.map fun _ => ()).bind fun _ => after) = x.1.bind fun _ => after := by
        cases x.1 with
        | error e => rfl
        | ok text => rfl
      rw [hround]
      cases x.1.bind fun _ => after with
      | error e => rfl
      | ok stop =>
        cases stop with
        | true => rfl
        | false => exact ih x.2 text
    | throws e => rfl

/-- The result of a prompt is that of its exit. -/
theorem play_processPrompt (pos : ℕ) :
    (play answers callee (processPrompt a call) pos).map Prod.fst =
      (promptExit a answers callee call pos).map Exit.result := by
  unfold processPrompt promptExit
  by_cases h : a.initialized = true ∧ a.hasBackend = true
  · rw [if_pos h, if_pos h]
    exact play_loop _ pos []
  · rw [if_neg h, if_neg h]
    rfl

end Refinement

end PromptExits
