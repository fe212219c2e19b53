import TizenClaw.ClientRequest
import TizenClaw.JsonParseUtf8
import TizenClaw.JsonRoundTrip

/-! Which texts get through the requests of the clients: the daemon reads back what was asked just
when the escaping on the other side leaves no control character in the way. -/
namespace RequestCodec

open ByteString JsonValue JsonDump JsonParse JsonRoundTrip JsonScan JsonParseUtf8 IpcRequest
  IpcHandler ClientRequest

variable {readFloat : Bytes → Option NumberText} {truncate : NumberText → ℤ}

/-- The next frame is read as a request with this order. -/
def Decodes (readFloat : Bytes → Option NumberText) (truncate : NumberText → ℤ) (incoming : Bytes)
    (order : Order) : Prop :=
  ∃ raw rest req id, receive incoming = .framed raw rest ∧ parse readFloat raw = .ok req ∧
    readRequest truncate req = .ok (.call id order)

/-- Control characters that `JsonEscape` escapes, and all other characters. -/
def Escaped (s : Bytes) : Prop := ∀ b ∈ s, 0x20 ≤ b ∨ b = 0x0A ∨ b = 0x0D ∨ b = 0x09

/-- The same for the text of `SendToChannel`. -/
def TextEscaped (s : Bytes) : Prop := ∀ b ∈ s, 0x20 ≤ b ∨ b = 0x0A

/-- Characters that need no escaping. -/
def Bare (s : Bytes) : Prop := ∀ b ∈ s, 0x20 ≤ b ∧ b ≠ 0x22 ∧ b ≠ 0x5C

section Written

/-- The prompt request as a value, in the order it is written in. -/
def promptJson (sessionId prompt : Bytes) (stream : Bool) : Json :=
  .obj [(bytes "jsonrpc", .str (bytes "2.0")), (bytes "method", .str (bytes "prompt")),
    (bytes "id", .int 1), (bytes "params", .obj [(bytes "session_id", .str sessionId),
      (bytes "text", .str prompt), (bytes "stream", .bool stream)])]

def sendToJson (channel text : Bytes) : Json :=
  .obj [(bytes "jsonrpc", .str (bytes "2.0")), (bytes "method", .str (bytes "send_to")),
    (bytes "id", .int 1), (bytes "params", .obj [(bytes "channel", .str channel),
      (bytes "text", .str text)])]

/-- An escaping that agrees with the serializer on a text. -/
theorem flatMap_escapeByte {esc : UInt8 → Bytes} {P : UInt8 → Prop} [DecidablePred P]
    (h : ∀ n < 256, P (UInt8.ofNat n) → esc (UInt8.ofNat n) = escapeByte (UInt8.ofNat n))
    {s : Bytes} (hs : ∀ b ∈ s, P b) : s.flatMap esc = s.flatMap escapeByte := by
  apply List.flatMap_congr
  intro b hb
  have hbyte := h b.toNat b.toNat_lt
  rw [UInt8.ofNat_toNat] at hbyte
  exact hbyte (hs b hb)

theorem jsonEscape_eq {s : Bytes} (h : Escaped s) : jsonEscape s = s.flatMap escapeByte :=
  flatMap_escapeByte (P := fun b => 0x20 ≤ b ∨ b = 0x0A ∨ b = 0x0D ∨ b = 0x09)
    (by decide +kernel) h

theorem escapeText_eq {s : Bytes} (h : TextEscaped s) : escapeText s = s.flatMap escapeByte :=
  flatMap_escapeByte (P := fun b => 0x20 ≤ b ∨ b = 0x0A) (by decide +kernel) h

theorem escape_copies {s : Bytes} (h : Bare s) : s.flatMap escapeByte = s := by
  have hsame : s.flatMap (fun b => [b]) = s.flatMap escapeByte :=
    flatMap_escapeByte (P := fun b => 0x20 ≤ b ∧ b ≠ 0x22 ∧ b ≠ 0x5C) (by decide +kernel) h
  rw [← hsame]
  simp

theorem promptRequest_eq {sessionId prompt : Bytes} (hs : Escaped sessionId) (hp : Escaped prompt)
    (stream : Bool) :
    promptRequest sessionId prompt stream =
      render id compact 0 (promptJson sessionId prompt stream) := by
  have h₁ : bytes "\x7b\"jsonrpc\":\"2.0\",\"method\":\"prompt\",\"id\":1,\"params\":\x7b" ++
    bytes "\"session_id\":\"" = 0x7B :: (quote (bytes "jsonrpc") ++ bytes ":" ++
      quote (bytes "2.0") ++ 0x2C :: (quote (bytes "method") ++ bytes ":" ++
      quote (bytes "prompt") ++ 0x2C :: (quote (bytes "id") ++ bytes ":" ++ decimalInt 1 ++
      0x2C :: (quote (bytes "params") ++ bytes ":" ++
        0x7B :: (quote (bytes "session_id") ++ bytes ":" ++ [0x22]))))) := by decide
  have h₂ : bytes "\",\"text\":\"" =
      0x22 :: 0x2C :: (quote (bytes "text") ++ bytes ":" ++ [0x22]) := by
    decide
  have h₃ : bytes "\",\"stream\":" = 0x22 :: 0x2C :: (quote (bytes "stream") ++ bytes ":") := by
    decide
  have h₄ : bytes "\x7d\x7d" = [0x7D, 0x7D] := by decide
  rw [promptRequest, jsonEscape_eq hs, jsonEscape_eq hp, h₁, h₂, h₃, h₄]
  cases stream <;> simp [promptJson, render, renderMembers, compact, quote]

theorem sendToRequest_eq {channel text : Bytes} (hc : Bare channel) (ht : TextEscaped text) :
    sendToRequest channel text = render id compact 0 (sendToJson channel text) := by
  have h₁ : bytes "\x7b\"jsonrpc\":\"2.0\",\"method\":\"send_to\",\"id\":1,\"params\":\x7b" ++
    bytes "\"channel\":\"" = 0x7B :: (quote (bytes "jsonrpc") ++ bytes ":" ++
      quote (bytes "2.0") ++ 0x2C :: (quote (bytes "method") ++ bytes ":" ++
      quote (bytes "send_to") ++ 0x2C :: (quote (bytes "id") ++ bytes ":" ++ decimalInt 1 ++
      0x2C :: (quote (bytes "params") ++ bytes ":" ++
        0x7B :: (quote (bytes "channel") ++ bytes ":" ++ [0x22]))))) := by decide
  have h₂ : bytes "\",\"text\":\"" =
      0x22 :: 0x2C :: (quote (bytes "text") ++ bytes ":" ++ [0x22]) := by
    decide
  have h₃ : bytes "\"\x7d\x7d" = [0x22, 0x7D, 0x7D] := by decide
  have hchannel : channel = channel.flatMap escapeByte := by
    rw [escape_copies hc]
  rw [sendToRequest, escapeText_eq ht, h₁, h₂, h₃]
  conv_lhs => rw [hchannel]
  simp [sendToJson, render, renderMembers, compact, quote]

/-- What the parser keeps of the request, in the order of the keys. -/
theorem parse_prompt {sessionId prompt : Bytes} (hs : Escaped sessionId) (hp : Escaped prompt)
    (hvs : Utf8.valid sessionId = true) (hvp : Utf8.valid prompt = true) (stream : Bool) :
    parse readFloat (promptRequest sessionId prompt stream) =
      .ok (.obj [(bytes "id", .int 1), (bytes "jsonrpc", .str (bytes "2.0")),
        (bytes "method", .str (bytes "prompt")), (bytes "params", .obj [
          (bytes "session_id", .str sessionId), (bytes "stream", .bool stream),
          (bytes "text", .str prompt)])]) := by
  have hw : Writable readFloat (promptJson sessionId prompt stream) := by
    simp only [promptJson, Writable, WritableMembers, hvs, hvp]
    decide
  have h := parse_writable whiteLayout_compact hw 0 white_nil white_nil
  rw [List.nil_append, List.append_nil, ← promptRequest_eq hs hp] at h
  rw [h]
  rfl

theorem readRequest_prompt (sessionId prompt : Bytes) (stream : Bool) :
    readRequest truncate (.obj [(bytes "id", .int 1), (bytes "jsonrpc", .str (bytes "2.0")),
        (bytes "method", .str (bytes "prompt")), (bytes "params", .obj [
          (bytes "session_id", .str sessionId), (bytes "stream", .bool stream),
          (bytes "text", .str prompt)])]) =
      .ok (.call (.int 1) (.prompt sessionId prompt stream false)) := by
  rfl

theorem receive_request {req : Bytes} (h : req.length ≤ kMaxPayload) (rest : Bytes) :
    receive (frame req ++ rest) = .framed req rest := by
  have hlt : req.length % 2 ^ 32 = req.length :=
    Nat.mod_eq_of_lt (lt_of_le_of_lt h (by decide))
  have hlen : ¬ (req ++ rest).length < req.length := by
    rw [List.length_append]
    omega
  rw [frame, List.append_assoc, receive_lengthBytes, hlt, if_neg (Nat.not_lt.mpr h), if_neg hlen,
    List.take_left, List.drop_left]

end Written

section Escaping

theorem jsonEscapeByte_cases (b : UInt8) : Copies jsonEscapeByte b ∨ Escapes jsonEscapeByte b := by
  unfold Copies Escapes jsonEscapeByte
  split_ifs with h₁ h₂ h₃ h₄ h₅
  · exact .inr ⟨0x22, by decide, by decide, by rw [h₁]; decide⟩
  · exact .inr ⟨0x5C, by decide, by decide, by rw [h₂]; decide⟩
  · exact .inr ⟨0x6E, by decide, by decide, by rw [h₃]; decide⟩
  · exact .inr ⟨0x72, by decide, by decide, by rw [h₄]; decide⟩
  · exact .inr ⟨0x74, by decide, by decide, by rw [h₅]; decide⟩
  · exact .inl ⟨rfl, h₁, h₂⟩

theorem escapeTextByte_cases (b : UInt8) : Copies escapeTextByte b ∨ Escapes escapeTextByte b := by
  unfold Copies Escapes escapeTextByte
  split_ifs with h₁ h₂ h₃
  · exact .inr ⟨0x22, by decide, by decide, by rw [h₁]; decide⟩
  · exact .inr ⟨0x5C, by decide, by decide, by rw [h₂]; decide⟩
  · exact .inr ⟨0x6E, by decide, by decide, by rw [h₃]; decide⟩
  · exact .inl ⟨rfl, h₁, h₂⟩

/-- What is left of a control character that is not escaped. -/
theorem jsonEscapeByte_copies {b : UInt8} (h : ¬ (b = 0x0A ∨ b = 0x0D ∨ b = 0x09)) (hb : b < 0x20) :
    jsonEscapeByte b = [b] := by
  simp only [not_or] at h
  have hq : b ≠ 0x22 := by
    rintro rfl
    exact absurd hb (by decide)
  have hs : b ≠ 0x5C := by
    rintro rfl
    exact absurd hb (by decide)
  rw [jsonEscapeByte, if_neg hq, if_neg hs, if_neg h.1, if_neg h.2.1, if_neg h.2.2]

theorem escapeTextByte_copies {b : UInt8} (h : b ≠ 0x0A) (hb : b < 0x20) :
    escapeTextByte b = [b] := by
  have hq : b ≠ 0x22 := by
    rintro rfl
    exact absurd hb (by decide)
  have hs : b ≠ 0x5C := by
    rintro rfl
    exact absurd hb (by decide)
  rw [escapeTextByte, if_neg hq, if_neg hs, if_neg h]

theorem escaped_of_scan {s : Bytes} (h : ∀ b ∈ s, jsonEscapeByte b = [b] → 0x20 ≤ b) :
    Escaped s := by
  intro b hb
  by_contra hno
  rw [not_or] at hno
  exact hno.1 (h b hb (jsonEscapeByte_copies hno.2 (UInt8.not_le.mp hno.1)))

theorem textEscaped_of_scan {s : Bytes} (h : ∀ b ∈ s, escapeTextByte b = [b] → 0x20 ≤ b) :
    TextEscaped s := by
  intro b hb
  by_contra hno
  rw [not_or] at hno
  exact hno.1 (h b hb (escapeTextByte_copies hno.2 (UInt8.not_le.mp hno.1)))

end Escaping

section Read

/-- What is received is the request, or a part of one that is too long for the length bytes. -/
theorem received_cases {req rest raw r : Bytes} (h : receive (frame req ++ rest) = .framed raw r) :
    raw = req ∧ req.length ≤ kMaxPayload ∨ raw.length ≤ kMaxPayload ∧ 2 ^ 32 ≤ req.length := by
  rw [frame, List.append_assoc, receive_lengthBytes] at h
  split_ifs at h with h₁ h₂
  obtain ⟨rfl, -⟩ := Received.framed.inj h
  by_cases hlt : req.length < 2 ^ 32
  · left
    rw [Nat.mod_eq_of_lt hlt] at h₁ ⊢
    exact ⟨List.take_left, Nat.not_lt.mp h₁⟩
  · right
    rw [List.length_take]
    omega

/-- A text that an order was read with is one of the strings of the request, behind its key. -/
theorem field_within {ks : List Bytes} {req : Json} {key default s : Bytes} (hw : Within ks req)
    (h : ((req.member? (bytes "params")).getD (.obj [])).valueString key default = .ok s) :
    s = default ∨ [key, s] <:+: ks := by
  rcases valueString_cases h with rfl | hm
  · exact .inl rfl
  · right
    cases hp : req.member? (bytes "params") with
    | none =>
      rw [hp] at hm
      cases hm
    | some params =>
      rw [hp] at hm
      exact ((hw.member hp).1.member hm).2 s rfl

/-- A text that is read is no longer than its default or the request. -/
theorem field_length {raw : Bytes} {req : Json} {key default s : Bytes}
    (hp : parse readFloat raw = .ok req)
    (h : ((req.member? (bytes "params")).getD (.obj [])).valueString key default = .ok s) :
    s.length ≤ default.length + raw.length := by
  obtain ⟨ks, hw, hlen⟩ := parse_scan_short hp
  rcases field_within hw h with rfl | hk
  · exact Nat.le_add_right _ _
  · have := hlen s (hk.subset (by simp))
    omega

/-- The key of the text opens a string of its own. -/
theorem scan_textKey : scan .outside (bytes ",\"text\":\"") =
    some ([bytes "text"], .inside (.text []) []) := by
  decide

end Read

section Prompt

variable {sessionId prompt : Bytes} {stream : Bool}

/-- The request up to the session id. -/
def promptHead : Bytes :=
  bytes "\x7b\"jsonrpc\":\"2.0\",\"method\":\"prompt\",\"id\":1,\"params\":\x7b" ++
    bytes "\"session_id\":\""

theorem promptRequest_eq_append (sessionId prompt : Bytes) (stream : Bool) :
    promptRequest sessionId prompt stream =
      promptHead ++ (sessionId.flatMap jsonEscapeByte ++ 0x22 :: (bytes ",\"text\":\"" ++
        (prompt.flatMap jsonEscapeByte ++ 0x22 :: (bytes ",\"stream\":" ++
          ((if stream then bytes "true" else bytes "false") ++ bytes "\x7d\x7d"))))) := by
  have h₁ : bytes "\",\"text\":\"" = 0x22 :: bytes ",\"text\":\"" := by decide
  have h₂ : bytes "\",\"stream\":" = 0x22 :: bytes ",\"stream\":" := by decide
  rw [promptRequest, promptHead, h₁, h₂]
  simp only [jsonEscape, List.append_assoc, List.cons_append]

theorem promptRequest_length_le (sessionId prompt : Bytes) (stream : Bool) :
    (promptRequest sessionId prompt stream).length ≤
      100 + 2 * sessionId.length + 2 * prompt.length := by
  have hs := flatMap_length_le fun b (_ : b ∈ sessionId) => jsonEscapeByte_cases b
  have hp := flatMap_length_le fun b (_ : b ∈ prompt) => jsonEscapeByte_cases b
  have hb : (if stream then bytes "true" else bytes "false").length ≤ 5 := by
    cases stream <;> decide
  have h₁ : promptHead.length = 66 := by decide
  have h₂ : (bytes ",\"text\":\"").length = 9 := by decide
  have h₃ : (bytes ",\"stream\":").length = 10 := by decide
  have h₄ : (bytes "\x7d\x7d").length = 2 := by decide
  rw [promptRequest_eq_append]
  simp only [List.length_append, List.length_cons]
  omega

/-- A prompt request that parses has only characters that were escaped as they have to be. -/
theorem escaped_of_parse {req : Json}
    (h : parse readFloat (promptRequest sessionId prompt stream) = .ok req) :
    (Utf8.valid sessionId = true ∧ Escaped sessionId) ∧
      Utf8.valid prompt = true ∧ Escaped prompt := by
  obtain ⟨t, hhead⟩ : ∃ t, promptHead = 0x7B :: t := ⟨promptHead.tail, by decide⟩
  have hstart : scan .outside promptHead = some ([bytes "jsonrpc", bytes "2.0", bytes "method",
      bytes "prompt", bytes "id", bytes "params", bytes "session_id"], .inside (.text []) []) := by
    decide
  rw [promptRequest_eq_append, hhead, List.cons_append] at h
  obtain ⟨ks, hscan, -⟩ := parse_scan_head (by decide) h
  rw [← List.cons_append, ← hhead, scan_append, hstart, Option.bind_some,
    Option.map_eq_some_iff] at hscan
  obtain ⟨⟨ks₁, q₁⟩, hsid, he⟩ := hscan
  obtain ⟨hprint, hvalid, ks₂, -, hrest⟩ :=
    scan_quoted (fun b _ => jsonEscapeByte_cases b) hsid
  rw [scan_append, scan_textKey, Option.bind_some, Option.map_eq_some_iff] at hrest
  obtain ⟨⟨ks₃, q₃⟩, htext, -⟩ := hrest
  obtain ⟨hprint', hvalid', -⟩ := scan_quoted (fun b _ => jsonEscapeByte_cases b) htext
  exact ⟨⟨hvalid, escaped_of_scan hprint⟩, hvalid', escaped_of_scan hprint'⟩

/-- A prompt request is read back just when its texts are UTF-8 without control characters but
those that are escaped, and it is not too long. -/
theorem decodes_prompt_iff (rest : Bytes) :
    Decodes readFloat truncate (frame (promptRequest sessionId prompt stream) ++ rest)
        (.prompt sessionId prompt stream false) ↔
      ((Utf8.valid sessionId = true ∧ Escaped sessionId) ∧
        Utf8.valid prompt = true ∧ Escaped prompt) ∧
        (promptRequest sessionId prompt stream).length ≤ kMaxPayload := by
  constructor
  · rintro ⟨raw, r, req, id, hrec, hparse, hread⟩
    rcases received_cases hrec with ⟨rfl, hlen⟩ | ⟨hraw, hlen⟩
    · exact ⟨escaped_of_parse hparse, hlen⟩
    · -- a part of the request is too short for its texts
      obtain ⟨-, hsid, htext, -⟩ := readRequest_call hread
      have h₁ := field_length hparse hsid
      have h₂ := field_length hparse htext
      have h₃ := promptRequest_length_le sessionId prompt stream
      have h₄ : (bytes "default").length = 7 := by decide
      have h₅ : kMaxPayload = 10485760 := rfl
      rw [List.length_nil] at h₂
      omega
  · rintro ⟨⟨⟨hvs, hs⟩, hvp, hp⟩, hlen⟩
    exact ⟨_, rest, _, _, receive_request hlen rest, parse_prompt hs hp hvs hvp stream,
      readRequest_prompt sessionId prompt stream⟩

end Prompt

section SendTo

variable {channel text : Bytes}

/-- The request up to the channel. -/
def sendToHead : Bytes :=
  bytes "\x7b\"jsonrpc\":\"2.0\",\"method\":\"send_to\",\"id\":1,\"params\":\x7b" ++
    bytes "\"channel\":\""

theorem sendToRequest_eq_append (channel text : Bytes) :
    sendToRequest channel text =
      sendToHead ++ (channel ++ 0x22 :: (bytes ",\"text\":\"" ++
        (text.flatMap escapeTextByte ++ 0x22 :: bytes "\x7d\x7d"))) := by
  have h₁ : bytes "\",\"text\":\"" = 0x22 :: bytes ",\"text\":\"" := by decide
  have h₂ : bytes "\"\x7d\x7d" = 0x22 :: bytes "\x7d\x7d" := by decide
  rw [sendToRequest, sendToHead, h₁, h₂]
  simp only [escapeText, List.append_assoc, List.cons_append]

theorem sendToRequest_length_le (channel text : Bytes) :
    (sendToRequest channel text).length ≤ 100 + channel.length + 2 * text.length := by
  have ht := flatMap_length_le fun b (_ : b ∈ text) => escapeTextByte_cases b
  have h₁ : sendToHead.length = 64 := by decide
  have h₂ : (bytes ",\"text\":\"").length = 9 := by decide
  have h₃ : (bytes "\x7d\x7d").length = 2 := by decide
  rw [sendToRequest_eq_append]
  simp only [List.length_append, List.length_cons]
  omega

/-- Behind a channel the scanner stands in the string it began with, or in a later one: the next key
of the request is no number or literal. -/
theorem inside_of_scan {p : Place} {s : Bytes} {ks : List Bytes} (hp : PlaceInvariant p)
    (h : scan p (0x22 :: (bytes ",\"text\":\"" ++ s)) = some (ks, .outside)) :
    ∃ t, p = .inside (.text []) t := by
  rw [← List.cons_append] at h
  obtain ⟨xs, q, ys, h, -, -⟩ := scan_append_eq.mp h
  cases p with
  | outside =>
    have hno : scan .outside (0x22 :: bytes ",\"text\":\"") = none := by decide
    rw [hno] at h
    cases h
  | inside m t =>
    cases m with
    | text p =>
      obtain rfl := pending_nil_of_close (Utf8.run_tails (by simp [Utf8.Tails]) hp.2) h
      exact ⟨t, rfl⟩
    | escape =>
      have hno : scan (.inside .escape t) (0x22 :: bytes ",\"text\":\"") = none := rfl
      rw [hno] at h
      cases h
    | hex high left v =>
      have hno : stringStep (.hex high left v) 0x22 = none := by
        rw [stringStep, show hexValue 0x22 = none by decide]
        rfl
      rw [scan_cons, scanStep, if_neg (by simp), hno] at h
      cases h
    | low w slash =>
      have hno : stringStep (.low w slash) 0x22 = none := by cases slash <;> rfl
      rw [scan_cons, scanStep, if_neg (by simp), hno] at h
      cases h

/-- A string that stands last in a list only stands behind the one before it. -/
theorem key_of_last {α : Type*} {k c x y : α} {l : List α} (h : [k, c] <:+: l ++ [x, y])
    (hc : c ∉ l ++ [x]) : k = x := by
  obtain ⟨a, d, h⟩ := h
  cases d using List.reverseRecOn with
  | nil =>
    rw [List.append_nil] at h
    exact (List.cons.inj (List.append_inj' h rfl).2).1
  | append_singleton d z =>
    -- then it stands before the last one
    have hl : l ++ [x, y] = l ++ [x] ++ [y] := by simp
    rw [hl, ← List.append_assoc] at h
    have hmem : c ∈ l ++ [x] := by
      rw [← (List.append_inj' h rfl).1]
      simp
    exact absurd hmem hc

/-- The strings before the channel. -/
def sendToStrings : List Bytes :=
  [bytes "jsonrpc", bytes "2.0", bytes "method", bytes "send_to", bytes "id", bytes "params",
    bytes "channel"]

theorem scan_sendToHead :
    scan .outside sendToHead = some (sendToStrings, .inside (.text []) []) := by
  decide

theorem sendToStrings_plain {k : Bytes} (hk : k ∈ sendToStrings ∨ k = bytes "text") :
    ¬ (0x22 ∈ k ∨ 0x5C ∈ k) := by
  have hall : ∀ k ∈ bytes "text" :: sendToStrings, ¬ (0x22 ∈ k ∨ 0x5C ∈ k) := by decide
  rcases hk with hk | rfl
  · exact hall k (List.mem_cons_of_mem _ hk)
  · exact hall _ List.mem_cons_self

theorem tails_nil : Utf8.Tails [] := fun _ h => absurd h List.not_mem_nil

/-- A channel with a quote or a backslash is none of the strings before the text. -/
theorem channel_not_mem {kc : List Bytes} {acc : Bytes}
    (hc : scan (.inside (.text []) []) channel = some (kc, .inside (.text []) acc))
    (hq : 0x22 ∈ channel ∨ 0x5C ∈ channel) :
    channel ∉ sendToStrings ++ kc ++ [acc] ++ [bytes "text"] := by
  have hacc : acc.length < channel.length := by
    have := credit_lt tails_nil hc hq
    rwa [List.length_nil, Nat.zero_add] at this
  have hkc : ∀ k ∈ kc, k.length < channel.length := by
    intro k hk
    have := (scan_credit hc).2 k hk
    rwa [credit, owed, List.length_nil, Nat.zero_add] at this
  simp only [List.mem_append, List.mem_singleton, not_or]
  refine ⟨⟨⟨?_, ?_⟩, ?_⟩, ?_⟩
  · exact fun h => sendToStrings_plain (.inl h) hq
  · exact fun h => absurd (hkc channel h) (lt_irrefl _)
  · exact fun h => absurd hacc (by rw [← h]; exact lt_irrefl _)
  · exact fun h => sendToStrings_plain (.inr h) hq

/-- A channel without them is scanned as itself. -/
theorem bare_of_scan {kc : List Bytes} {acc : Bytes}
    (hc : scan (.inside (.text []) []) channel = some (kc, .inside (.text []) acc))
    (hq : ¬ (0x22 ∈ channel ∨ 0x5C ∈ channel)) : Utf8.valid channel = true ∧ Bare channel := by
  rw [not_or] at hq
  have hne : ∀ b ∈ channel, b ≠ 0x22 ∧ b ≠ 0x5C := by
    intro b hb
    constructor
    · rintro rfl
      exact hq.1 hb
    · rintro rfl
      exact hq.2 hb
  have hcopies : ∀ b ∈ channel, Copies (fun b => [b]) b ∨ Escapes (fun b => [b]) b :=
    fun b hb => .inl ⟨rfl, hne b hb⟩
  have hflat : channel = channel.flatMap fun b => [b] := by simp
  rw [hflat] at hc
  obtain ⟨-, hprint, p, hrun, hp⟩ := scan_text tails_nil hcopies hc
  obtain ⟨hm, -⟩ := Place.inside.inj hp
  rw [← StringMode.text.inj hm] at hrun
  exact ⟨(Utf8.valid_iff _).mpr hrun, fun b hb => ⟨hprint b hb rfl, hne b hb⟩⟩

/-- A `send_to` request that parses has only characters in its text that were escaped as they have
to be, and its channel is read back only if it needs no escaping. -/
theorem bare_of_parse {req : Json} (h : parse readFloat (sendToRequest channel text) = .ok req)
    (hchannel : ((req.member? (bytes "params")).getD (.obj [])).valueString (bytes "channel") [] =
      .ok channel) :
    (Utf8.valid channel = true ∧ Bare channel) ∧ Utf8.valid text = true ∧ TextEscaped text := by
  obtain ⟨t, hhead⟩ : ∃ t, sendToHead = 0x7B :: t := ⟨sendToHead.tail, by decide⟩
  have hend : scan .outside (bytes "\x7d\x7d") = some ([], .outside) := by decide
  rw [sendToRequest_eq_append, hhead, List.cons_append] at h
  obtain ⟨ks, hscan, hw⟩ := parse_scan_head (by decide) h
  rw [← List.cons_append, ← hhead, scan_append, scan_sendToHead, Option.bind_some,
    Option.map_eq_some_iff] at hscan
  obtain ⟨⟨ks₁, q₁⟩, hscan, he⟩ := hscan
  obtain ⟨rfl, rfl⟩ := Prod.mk.inj he
  obtain ⟨kc, p, ks₂, hc, hrest, rfl⟩ := scan_append_eq.mp hscan
  have hinside : PlaceInvariant (.inside (.text []) []) := ⟨trivial, rfl⟩
  obtain ⟨acc, rfl⟩ := inside_of_scan (scan_valid hinside hc).1 hrest
  obtain ⟨ks₃, rfl, hafter⟩ := scan_close.mp hrest
  rw [scan_append, scan_textKey, Option.bind_some, Option.map_eq_some_iff] at hafter
  obtain ⟨⟨ks₄, q₄⟩, htext, he⟩ := hafter
  obtain ⟨rfl, rfl⟩ := Prod.mk.inj he
  obtain ⟨hprint, hvalid, ks₅, rfl, hlast⟩ := scan_quoted (fun b _ => escapeTextByte_cases b) htext
  rw [hend] at hlast
  obtain ⟨rfl, -⟩ := Prod.mk.inj (Option.some.inj hlast)
  refine ⟨?_, hvalid, textEscaped_of_scan hprint⟩
  by_cases hq : 0x22 ∈ channel ∨ 0x5C ∈ channel
  · -- then it could only be the text, which stands behind another key
    have hne : channel ≠ [] := by
      rintro rfl
      simp at hq
    have hsub := (field_within hw hchannel).resolve_left hne
    have hkey := key_of_last (l := sendToStrings ++ kc ++ [acc])
      (by simpa using hsub) (channel_not_mem hc hq)
    exact absurd hkey (by decide)
  · exact bare_of_scan hc hq

/-- The request reads back. -/
theorem parse_sendTo (hvc : Utf8.valid channel = true) (hc : Bare channel)
    (hvt : Utf8.valid text = true) (ht : TextEscaped text) :
    parse readFloat (sendToRequest channel text) =
      .ok (.obj [(bytes "id", .int 1), (bytes "jsonrpc", .str (bytes "2.0")),
        (bytes "method", .str (bytes "send_to")), (bytes "params", .obj [
          (bytes "channel", .str channel), (bytes "text", .str text)])]) := by
  have hw : Writable readFloat (sendToJson channel text) := by
    simp only [sendToJson, Writable, WritableMembers, hvc, hvt]
    decide
  have h := parse_writable whiteLayout_compact hw 0 white_nil white_nil
  rw [List.nil_append, List.append_nil, ← sendToRequest_eq hc ht] at h
  rw [h]
  rfl

theorem readRequest_sendTo (channel text : Bytes) :
    readRequest truncate (.obj [(bytes "id", .int 1), (bytes "jsonrpc", .str (bytes "2.0")),
        (bytes "method", .str (bytes "send_to")), (bytes "params", .obj [
          (bytes "channel", .str channel), (bytes "text", .str text)])]) =
      .ok (.call (.int 1) (.sendTo channel text)) := rfl

/-- A `send_to` request is read back just when its channel needs no escaping, its text has no
control characters but line feeds, and it is not too long. -/
theorem decodes_sendTo_iff (rest : Bytes) :
    Decodes readFloat truncate (frame (sendToRequest channel text) ++ rest)
        (.sendTo channel text) ↔
      ((Utf8.valid channel = true ∧ Bare channel) ∧ Utf8.valid text = true ∧ TextEscaped text) ∧
        (sendToRequest channel text).length ≤ kMaxPayload := by
  constructor
  · rintro ⟨raw, r, req, id, hrec, hparse, hread⟩
    obtain ⟨-, hchannel, htext⟩ := readRequest_call hread
    rcases received_cases hrec with ⟨rfl, hlen⟩ | ⟨hraw, hlen⟩
    · exact ⟨bare_of_parse hparse hchannel, hlen⟩
    · have h₁ := field_length hparse hchannel
      have h₂ := field_length hparse htext
      have h₃ := sendToRequest_length_le channel text
      have h₄ : kMaxPayload = 10485760 := rfl
      rw [List.length_nil] at h₁ h₂
      omega
  · rintro ⟨⟨⟨hvc, hc⟩, hvt, ht⟩, hlen⟩
    exact ⟨_, rest, _, _, receive_request hlen rest, parse_sendTo hvc hc hvt ht,
      readRequest_sendTo channel text⟩

end SendTo

section Answer

/-- A frame that is read as a request has its order performed. -/
theorem answer_of_decodes {σ : Type} (st : Services σ) {incoming : Bytes} {order : Order}
    (h : Decodes readFloat truncate incoming order) :
    ∃ raw rest id, receive incoming = .framed raw rest ∧
      answer st readFloat truncate raw =
        (perform st readFloat order >>= fun reply => pure (reply.json id)) := by
  obtain ⟨raw, rest, req, id, hrec, hparse, hread⟩ := h
  refine ⟨raw, rest, id, hrec, ?_⟩
  rw [answer, hparse]
  change ((liftM (caught (readRequest truncate req)) :
    TryBlock.Action Thrown (Client σ) _) >>= _) = _
  rw [hread]
  rfl

end Answer

/-- The requests of the clients are read back as they were meant just when the texts are UTF-8 with
no control characters but those that are escaped, the channel needs no escaping, and the request is
not too long. -/
theorem codec_iff (readFloat : Bytes → Option NumberText) (truncate : NumberText → ℤ)
    (rest : Bytes) :
    (∀ sessionId prompt stream,
      Decodes readFloat truncate (frame (promptRequest sessionId prompt stream) ++ rest)
          (.prompt sessionId prompt stream false) ↔
        ((Utf8.valid sessionId = true ∧ Escaped sessionId) ∧
          Utf8.valid prompt = true ∧ Escaped prompt) ∧
          (promptRequest sessionId prompt stream).length ≤ kMaxPayload) ∧
    ∀ channel text,
      Decodes readFloat truncate (frame (sendToRequest channel text) ++ rest)
          (.sendTo channel text) ↔
        ((Utf8.valid channel = true ∧ Bare channel) ∧
          Utf8.valid text = true ∧ TextEscaped text) ∧
          (sendToRequest channel text).length ≤ kMaxPayload :=
  ⟨fun _ _ _ => decodes_prompt_iff rest, fun _ _ => decodes_sendTo_iff rest⟩

namespace Counterexample

def noFloats : Bytes → Option NumberText := fun _ => none

/-- A backspace in a prompt, a tab in a text and a quote in a channel. -/
theorem not_read_back :
    (Utf8.valid (bytes "ab\x08") = true ∧
      ¬ Decodes noFloats (fun _ => 0) (frame (promptRequest (bytes "s") (bytes "ab\x08") false))
        (.prompt (bytes "s") (bytes "ab\x08") false false)) ∧
    (Utf8.valid (bytes "a\tb") = true ∧
      ¬ Decodes noFloats (fun _ => 0) (frame (sendToRequest (bytes "all") (bytes "a\tb")))
        (.sendTo (bytes "all") (bytes "a\tb"))) ∧
    Utf8.valid (bytes "a\"b") = true ∧
      ¬ Decodes noFloats (fun _ => 0) (frame (sendToRequest (bytes "a\"b") (bytes "hello")))
        (.sendTo (bytes "a\"b") (bytes "hello")) := by
  refine ⟨⟨by decide, fun h => ?_⟩, ⟨by decide, fun h => ?_⟩, by decide, fun h => ?_⟩
  · rw [← List.append_nil (frame _), decodes_prompt_iff] at h
    exact absurd (h.1.2.2 0x08 (by decide)) (by decide)
  · rw [← List.append_nil (frame _), decodes_sendTo_iff] at h
    exact absurd (h.1.2.2 0x09 (by decide)) (by decide)
  · rw [← List.append_nil (frame _), decodes_sendTo_iff] at h
    exact absurd (h.1.1.2 0x22 (by decide)).2.1 (by decide)

end Counterexample

end RequestCodec
