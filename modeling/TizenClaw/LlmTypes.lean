import TizenClaw.JsonValue

/-! The provider-independent messages. -/
namespace LlmTypes

open ByteString JsonValue

structure LlmToolCall where
  id : Bytes
  name : Bytes
  args : Json
  deriving DecidableEq, Repr

/-- The source keeps the role as a string; a fourth value stands for any other string. -/
inductive Role where
  | user
  | assistant
  | tool
  | other (name : Bytes)
  deriving DecidableEq, Repr

def roleText : Role → Bytes
  | .user => bytes "user"
  | .assistant => bytes "assistant"
  | .tool => bytes "tool"
  | .other name => name

structure LlmMessage where
  role : Role
  text : Bytes := []
  toolCalls : List LlmToolCall := []
  toolName : Bytes := []
  toolCallId : Bytes := []
  toolResult : Json := .null
  deriving DecidableEq, Repr

structure LlmResponse where
  success : Bool := false
  text : Bytes := []
  errorMessage : Bytes := []
  toolCalls : List LlmToolCall := []
  promptTokens : ℤ := 0
  completionTokens : ℤ := 0
  totalTokens : ℤ := 0
  deriving DecidableEq, Repr

def userMessage (prompt : Bytes) : LlmMessage := { role := .user, text := prompt }
def assistantMessage (text : Bytes) (calls : List LlmToolCall) : LlmMessage :=
  { role := .assistant, text := text, toolCalls := calls }

end LlmTypes
