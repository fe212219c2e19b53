import TizenClaw.PipelineExecutor
import TizenClaw.TransitionSystem

/-! The Telegram client: the thread that asks the server for updates and confirms them by its offset,
and the handlers that it starts, at most a few at a time. -/
namespace TelegramPolling

open ByteString JsonValue JsonParse TransitionSystem
open PipelineExecutor (getBool)

section Reading

variable (truncate : NumberText → ℤ)

/-- `get<long>()` -/
def getLong : Json → Except JsonException ℤ
  | .int i => .ok (i.bmod (2 ^ 64))
  | .float t => .ok ((truncate t).bmod (2 ^ 64))
  | .bool b => .ok (if b then 1 else 0)
  | _ => .error (.typeError 302)

/-- The items of an answer, if the server says that it is one. -/
def readResult (readFloat : Bytes → Option NumberText) (body : Bytes) :
    Except JsonException (Option (List Json)) := do
  let j ← parse readFloat body
  let ok ← j.value getBool (bytes "ok") false
  pure (if ok then some ((j.member? (bytes "result")).getD .null).elements else none)

def updateId (item : Json) : Except JsonException ℤ :=
  match item.member? (bytes "update_id") with
  | some v => getLong truncate v
  | none => .error (.typeError 302)

/-- The message that an item asks to have handled, if its chat is allowed. -/
def readMessage (allowed : List ℤ) (item : Json) : Except JsonException (Option (ℤ × Bytes)) :=
  match item.member? (bytes "message") with
  | none => .ok none
  | some msg => match msg.member? (bytes "text"), msg.member? (bytes "chat") with
    | some _, some chat => do
      let text ← msg.valueString (bytes "text") []
      let chatId ← chat.value (getLong truncate) (bytes "id") 0
      pure (if text = [] ∨ chatId = 0 then none
        else if allowed ≠ [] ∧ chatId ∉ allowed then none
        else some (chatId, text))
    | _, _ => .ok none

/-- What the server sends has an id. -/
structure Update where
  item : Json
  id : ℤ
  updateId_eq : updateId truncate item = .ok id

end Reading

def kMaxConcurrentHandlers : ℕ := 3

variable {truncate : NumberText → ℤ}

section Machine

/-- Where the polling thread is. An answer on its way has what the server had for the offset. -/
inductive Place (truncate : NumberText → ℤ) where
  | polling
  | waiting (answer : Option (List (Update truncate)))
  | items (rest : List (Update truncate))
  | starting (u : Update truncate) (chatId : ℤ) (text : Bytes) (rest : List (Update truncate))
  | sleeping (seconds : ℕ)
  | stopped

/-- The server keeps what has not been confirmed. What the client has gone over since its start, what
it had gone over before, and what was confirmed when it started are kept for the statements. -/
structure State (truncate : NumberText → ℤ) where
  sent : List (Update truncate) := []
  confirmed : ℤ := 0
  running : Bool := true
  updateOffset : ℤ := 0
  conflictBackoffSec : ℕ := 5
  activeHandlers : ℕ := 0
  place : Place truncate := .polling
  considered : List (Update truncate) := []
  started : List (Update truncate × ℤ × Bytes) := []
  past : List (Update truncate) := []
  base : ℤ := 0

inductive Event (truncate : NumberText → ℤ) where
  | arrive (u : Update truncate)
  | request (reached : Bool) (count : ℕ)
  | receive
  | conflict
  | failure
  | unusable
  | item
  | start
  | finish
  | wake
  | stop
  | resume
  | restart

variable (allowed : List ℤ)

def State.unconfirmed (s : State truncate) (offset : ℤ) : List (Update truncate) :=
  s.sent.filter fun u => offset ≤ u.id

/-- An answer other than a batch; a client that has been stopped does not look at it. -/
def State.back (s : State truncate) (seconds backoff : ℕ) : State truncate :=
  if s.running then { s with place := .sleeping seconds, conflictBackoffSec := backoff }
  else { s with place := .stopped }

/-- The offset moves before the item is looked into. -/
def State.consider (s : State truncate) (u : Update truncate) (rest : List (Update truncate)) :
    State truncate :=
  let s := { s with updateOffset := u.id + 1, considered := s.considered ++ [u] }
  match readMessage truncate allowed u.item with
  | .error _ => { s with place := .sleeping 5 }
  | .ok none => { s with place := .items rest }
  | .ok (some (chatId, text)) =>
    if kMaxConcurrentHandlers ≤ s.activeHandlers then { s with place := .items rest }
    else { s with place := .starting u chatId text rest }

/-- The count of the handlers is read, and then raised in a step of its own. -/
def step (s : State truncate) : Event truncate → Option (State truncate)
  | .arrive u =>
    if 0 < u.id ∧ ∀ v ∈ s.sent, v.id < u.id then some { s with sent := s.sent ++ [u] } else none
  | .request reached count => match s.place with
    | .polling =>
      if s.running = false then some { s with place := .stopped }
      else if reached then
        let confirmed := max s.confirmed s.updateOffset
        some { s with confirmed, place := .waiting (some ((s.unconfirmed confirmed).take count)) }
      else some { s with place := .waiting none }
    | _ => none
  | .receive => match s.place with
    | .waiting (some batch) => some (if s.running then
        { s with place := .items batch, conflictBackoffSec := 5 } else { s with place := .stopped })
    | _ => none
  | .conflict => match s.place with
    | .waiting _ => some (s.back s.conflictBackoffSec (min (s.conflictBackoffSec * 2) 60))
    | _ => none
  | .failure | .unusable => match s.place with
    | .waiting _ => some (s.back 5 5)
    | _ => none
  | .item => match s.place with
    | .items [] => some { s with place := .polling }
    | .items (u :: rest) => some (s.consider allowed u rest)
    | _ => none
  | .start => match s.place with
    | .starting u chatId text rest => some { s with
        activeHandlers := s.activeHandlers + 1
        started := s.started ++ [(u, chatId, text)]
        place := .items rest }
    | _ => none
  | .finish =>
    if 0 < s.activeHandlers then some { s with activeHandlers := s.activeHandlers - 1 } else none
  | .wake => match s.place with
    | .sleeping _ => some { s with place := .polling }
    | _ => none
  | .stop => some { s with running := false }
  | .resume => match s.place with
    | .stopped => some { s with running := true, place := .polling }
    | _ => none
  | .restart => some
      { sent := s.sent, confirmed := s.confirmed, base := s.confirmed
        past := s.past ++ s.considered }

def telegram : System (State truncate) (Event truncate) where
  Init s := s = {}
  Step s e t := step allowed s e = some t

end Machine

end TelegramPolling
