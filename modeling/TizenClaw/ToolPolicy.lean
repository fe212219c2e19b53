import TizenClaw.JsonDump
import Mathlib.Logic.Function.Basic

/-! The policy layer: blocked tools, repeated calls and idle rounds. -/
namespace ToolPolicy

open ByteString JsonValue JsonDump

structure ToolPolicyConfig where
  maxRepeatCount : ℤ := 3
  blockedSkills : List Bytes := []
  maxIterations : ℤ := 5

/-- `call_history_`: per session and call hash, how often the call was asked for. -/
abbrev CallHistory := Bytes → Bytes → ℕ

/-- `idle_history_`: per session, the signatures of the last rounds. -/
abbrev IdleHistory := Bytes → List Bytes

def hexText (n : ℕ) : Bytes :=
  if n = 0 then [48] else (Nat.digits 16 n).reverse.map hexDigit

/-- The text a call is hashed by. `stdHash` is `std::hash<std::string>`. -/
def hashCall (stdHash : Bytes → ℕ) (name : Bytes) (args : Json) : Bytes :=
  hexText (stdHash (name ++ bytes ":" ++ if args.isNull then [] else dumpReplace args))

def blockedText (name : Bytes) : Bytes :=
  bytes "Tool '" ++ name ++ bytes "' is blocked by security policy."

def repeatText (cfg : ToolPolicyConfig) (name : Bytes) (count : ℕ) : Bytes :=
  bytes "Tool '" ++ name ++ bytes "' with identical arguments has been called " ++
    decimal count ++ bytes " times (limit: " ++ decimalInt cfg.maxRepeatCount ++
    bytes "). Execution blocked to prevent infinite loop. Please try a different approach."

/-- The violation, empty for an allowed call, and the updated counts. A blocked tool is refused
before the call is counted. -/
def checkPolicy (cfg : ToolPolicyConfig) (stdHash : Bytes → ℕ) (history : CallHistory)
    (session name : Bytes) (args : Json) : Bytes × CallHistory :=
  if name ∈ cfg.blockedSkills then (blockedText name, history)
  else
    let hash := hashCall stdHash name args
    let count := history session hash + 1
    let history := Function.update history session (Function.update (history session) hash count)
    if cfg.maxRepeatCount < count then (repeatText cfg name count, history) else ([], history)

def resetSession {α : Type} (history : Bytes → α) (session : Bytes) (initial : α) : Bytes → α :=
  Function.update history session initial

def idleWindowSize : ℕ := 3

/-- `CheckIdleProgress` on the signatures of one session: the last three rounds are the same. -/
def checkIdleProgress (history : List Bytes) (signature : Bytes) : Bool × List Bytes :=
  let history := history ++ [signature]
  let window := history.drop (history.length - idleWindowSize)
  (window.length = idleWindowSize ∧ ∀ entry ∈ window, some entry = window.head?, window)

theorem checkPolicy_allowed {cfg : ToolPolicyConfig} {stdHash : Bytes → ℕ} {h : CallHistory}
    {session name : Bytes} {args : Json}
    (hc : (checkPolicy cfg stdHash h session name args).1 = []) : name ∉ cfg.blockedSkills := by
  intro hb
  rw [checkPolicy, if_pos hb] at hc
  simp [blockedText, show bytes "Tool '" ≠ [] by decide] at hc

end ToolPolicy
