import TizenClaw.IpcHandler

/-! Requests as the client library and the command line write them, by hand, and the frame they
are sent in. -/
namespace ClientRequest

open ByteString IpcHandler

/-- `JsonEscape` -/
def jsonEscapeByte (b : UInt8) : Bytes :=
  if b = 0x22 then bytes "\\\""
  else if b = 0x5C then bytes "\\\\"
  else if b = 0x0A then bytes "\\n"
  else if b = 0x0D then bytes "\\r"
  else if b = 0x09 then bytes "\\t"
  else [b]

def jsonEscape (s : Bytes) : Bytes := s.flatMap jsonEscapeByte

/-- The request of `PerformRequestTask`. -/
def promptRequest (sessionId prompt : Bytes) (stream : Bool) : Bytes :=
  bytes "\x7b\"jsonrpc\":\"2.0\",\"method\":\"prompt\",\"id\":1,\"params\":\x7b" ++
    bytes "\"session_id\":\"" ++ jsonEscape sessionId ++ bytes "\",\"text\":\"" ++
    jsonEscape prompt ++ bytes "\",\"stream\":" ++
    (if stream then bytes "true" else bytes "false") ++ bytes "\x7d\x7d"

/-- What `SendToChannel` escapes, in the text only. -/
def escapeTextByte (b : UInt8) : Bytes :=
  if b = 0x22 then bytes "\\\""
  else if b = 0x5C then bytes "\\\\"
  else if b = 0x0A then bytes "\\n"
  else [b]

def escapeText (s : Bytes) : Bytes := s.flatMap escapeTextByte

/-- The request of `SendToChannel`. -/
def sendToRequest (channel text : Bytes) : Bytes :=
  bytes "\x7b\"jsonrpc\":\"2.0\",\"method\":\"send_to\",\"id\":1,\"params\":\x7b" ++
    bytes "\"channel\":\"" ++ channel ++ bytes "\",\"text\":\"" ++ escapeText text ++
    bytes "\"\x7d\x7d"

/-- A request behind its length. -/
def frame (req : Bytes) : Bytes := lengthBytes req.length ++ req

end ClientRequest
