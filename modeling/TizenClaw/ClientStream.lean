import TizenClaw.ByteLines
import TizenClaw.RequestCodec
import TizenClaw.StreamDecoders

/-! The client library at the other end of a stream: it looks fields up in the frames of the daemon
by their quotes, and does not undo the escaping. Which texts reach the callback as they were
sent. -/
namespace ClientStream

open ByteString JsonValue JsonDump ByteLines IpcHandler ClientRequest StreamDecoders RequestCodec

/-- UTF-8, as the serializer asks for. -/
abbrev Text := { t : Bytes // Utf8.valid t = true }

section Client

/-- A value up to the first quote without a backslash before it. -/
def untilQuote (before : UInt8) : Bytes → Bytes
  | [] => []
  | b :: s => if b = 0x22 ∧ before ≠ 0x5C then [] else b :: untilQuote b s

def needle (key : Bytes) : Bytes := bytes "\"" ++ key ++ bytes "\":\""

def extractJsonValue (json key : Bytes) : Bytes :=
  match find (needle key) json with
  | none => []
  | some pos => untilQuote 0x22 (json.drop (pos + (needle key).length))

/-- A call of the stream callback, or of the error callback instead. -/
inductive Callback where
  | text (t : Bytes) (isEnd : Bool)
  | error (message : Bytes)
  deriving DecidableEq, Repr

/-- A frame taken off the socket, with what is behind it. -/
inductive Received where
  | frame (chunk rest : Bytes)
  | failed (message rest : Bytes)
  deriving DecidableEq, Repr

def receiveFrame : Bytes → Received
  | a :: b :: c :: d :: rest =>
    if kMaxPayload < netLen a b c d then .failed (bytes "Response too large") rest
    else if rest.length < netLen a b c d then .failed (bytes "Socket body chunk failed") []
    else .frame (rest.take (netLen a b c d)) (rest.drop (netLen a b c d))
  | _ => .failed (bytes "Socket closed or recv header failed") []

/-- The callback is given a C string. -/
def readFrame (chunk : Bytes) : Callback :=
  let text := extractJsonValue chunk (bytes "text")
  if extractJsonValue chunk (bytes "method") = bytes "stream_chunk" then .text (cString text) false
  else if (find (bytes "\"result\":") chunk).isSome ∨ (find (bytes "\"error\":") chunk).isSome then
    .text (cString text) true
  else .text (cString chunk) true

/-- The loop over a stream, with what it leaves unread. -/
def receiveLoop : ℕ → Bytes → List Callback × Bytes
  | 0, s => ([], s)
  | n + 1, s =>
    match receiveFrame s with
    | .failed message rest => ([.error message], rest)
    | .frame chunk rest =>
      match readFrame chunk with
      | .text t false =>
        let r := receiveLoop n rest
        (.text t false :: r.1, r.2)
      | e => ([e], rest)

/-- `incoming` is all that the daemon still sends; every turn takes the length of a frame off it. -/
def receiveStream (incoming : Bytes) : List Callback × Bytes :=
  receiveLoop (incoming.length + 1) incoming

end Client

section Daemon

/-- A value behind its length. What cannot be serialized is not sent. -/
def sent (j : Json) : Bytes :=
  match dump j with
  | .ok s => frame s
  | .error _ => []

/-- The frames of a prompt with these chunks and this result. The request had 1 for its `id`. -/
def streamed (texts : List Text) (final : Text) : Bytes :=
  texts.flatMap (fun t => sent (chunkNotice t.1)) ++ sent ((textResult final.1).json (.int 1))

end Daemon

section Quotes

theorem untilQuote_of_quote {l : Bytes} (h : untilQuote 0x22 l = l) (c : UInt8) :
    untilQuote c l = l := by
  cases l with
  | nil => rfl
  | cons b l =>
    have hb : b ≠ 0x22 := by
      rintro rfl
      exact List.cons_ne_nil _ _ h.symm
    rw [untilQuote, if_neg fun hq => hb hq.1] at h ⊢
    exact h

theorem untilQuote_append {l : Bytes} {c : UInt8} (h : untilQuote c l = l) (s : Bytes) :
    untilQuote c (l ++ s) = l ++ untilQuote (l.getLastD c) s := by
  induction l generalizing c with
  | nil => rfl
  | cons b l ih =>
    have hq : ¬ (b = 0x22 ∧ c ≠ 0x5C) := by
      intro hq
      rw [untilQuote, if_pos hq] at h
      exact List.cons_ne_nil _ _ h.symm
    rw [untilQuote, if_neg hq] at h
    rw [List.cons_append, untilQuote, if_neg hq, ih (List.cons.inj h).2, List.getLastD_cons]
    rfl

theorem untilQuote_length_le (c : UInt8) (s : Bytes) : (untilQuote c s).length ≤ s.length := by
  induction s generalizing c with
  | nil => exact le_refl 0
  | cons b s ih =>
    rw [untilQuote]
    split_ifs
    · exact Nat.zero_le _
    · exact Nat.succ_le_succ (ih b)

/-- What the extraction and the C string make of an escaped byte. -/
theorem escapeByte_passes (b : UInt8) :
    untilQuote 0x22 (escapeByte b) = escapeByte b ∧ 0 ∉ escapeByte b ∧
      (escapeByte b).length ≤ 6 ∧
      ((0x20 ≤ b ∧ b ≠ 0x22 ∧ b ≠ 0x5C) ∧ escapeByte b = [b] ∨ 2 ≤ (escapeByte b).length) := by
  have h : ∀ n < 256, untilQuote 0x22 (escapeByte (UInt8.ofNat n)) = escapeByte (UInt8.ofNat n) ∧
      0 ∉ escapeByte (UInt8.ofNat n) ∧ (escapeByte (UInt8.ofNat n)).length ≤ 6 ∧
      ((0x20 ≤ UInt8.ofNat n ∧ UInt8.ofNat n ≠ 0x22 ∧ UInt8.ofNat n ≠ 0x5C) ∧
        escapeByte (UInt8.ofNat n) = [UInt8.ofNat n] ∨
          2 ≤ (escapeByte (UInt8.ofNat n)).length) := by
    decide +kernel
  have hb := h b.toNat b.toNat_lt
  rwa [UInt8.ofNat_toNat] at hb

theorem untilQuote_escape (t s : Bytes) (c : UInt8) :
    ∃ d, untilQuote c (t.flatMap escapeByte ++ s) = t.flatMap escapeByte ++ untilQuote d s := by
  induction t generalizing c with
  | nil => exact ⟨c, rfl⟩
  | cons b t ih =>
    obtain ⟨d, hd⟩ := ih ((escapeByte b).getLastD c)
    refine ⟨d, ?_⟩
    have hb := untilQuote_of_quote (escapeByte_passes b).1 c
    rw [List.flatMap_cons, List.append_assoc, untilQuote_append hb, hd, List.append_assoc]

theorem escape_nul_free (t : Bytes) : ∀ c ∈ t.flatMap escapeByte, c ≠ 0 := by
  rintro c hc rfl
  obtain ⟨b, -, hb⟩ := List.mem_flatMap.mp hc
  exact (escapeByte_passes b).2.1 hb

theorem length_le_escape (t : Bytes) : t.length ≤ (t.flatMap escapeByte).length := by
  induction t with
  | nil => exact le_refl 0
  | cons b t ih =>
    have hb : 1 ≤ (escapeByte b).length := by
      rcases (escapeByte_passes b).2.2.2 with ⟨-, h⟩ | h
      · rw [h, List.length_singleton]
      · exact le_trans (by decide) h
    rw [List.flatMap_cons, List.length_append, List.length_cons]
    omega

theorem escape_length_le (t : Bytes) : (t.flatMap escapeByte).length ≤ 6 * t.length := by
  induction t with
  | nil => exact le_refl 0
  | cons b t ih =>
    have hb := (escapeByte_passes b).2.2.1
    rw [List.flatMap_cons, List.length_append, List.length_cons]
    omega

/-- Escaping makes every other text longer. -/
theorem bare_of_length {t : Bytes} (h : (t.flatMap escapeByte).length ≤ t.length) : Bare t := by
  induction t with
  | nil => exact fun b hb => absurd hb List.not_mem_nil
  | cons b t ih =>
    have ht := length_le_escape t
    rw [List.flatMap_cons, List.length_append, List.length_cons] at h
    rcases (escapeByte_passes b).2.2.2 with ⟨hb, hcopy⟩ | hb
    · rw [hcopy, List.length_singleton] at h
      exact List.forall_mem_cons.mpr ⟨hb, ih (by omega)⟩
    · omega

/-- The callback gets the escaped text, and may get more. -/
theorem heard_isPrefix (t s : Bytes) (c : UInt8) :
    t.flatMap escapeByte <+: cString (untilQuote c (t.flatMap escapeByte ++ s)) := by
  obtain ⟨d, hd⟩ := untilQuote_escape t s c
  have hfree : ∀ b ∈ t.flatMap escapeByte, decide (b ≠ 0) = true := by
    simpa using escape_nul_free t
  rw [hd, cString, List.takeWhile_append_of_pos hfree]
  exact List.prefix_append _ _

theorem bare_of_heard {t s : Bytes} {c : UInt8}
    (h : cString (untilQuote c (t.flatMap escapeByte ++ s)) = t) : Bare t := by
  apply bare_of_length
  have hpre := (heard_isPrefix t s c).length_le
  rwa [h] at hpre

theorem heard_bare {t : Bytes} (h : Bare t) (s : Bytes) :
    cString (untilQuote 0x22 (t.flatMap escapeByte ++ 0x22 :: s)) = t := by
  have hself : ∀ c, c ≠ 0x5C → untilQuote c (t ++ 0x22 :: s) = t := by
    induction t with
    | nil =>
      intro c hc
      rw [List.nil_append, untilQuote, if_pos ⟨rfl, hc⟩]
    | cons b t ih =>
      intro c hc
      rw [Bare, List.forall_mem_cons] at h
      rw [List.cons_append, untilQuote, if_neg fun hq => h.1.2.1 hq.1, ih h.2 b h.1.2.2]
  have hnul : (0 : UInt8) ∉ t := fun h0 => absurd (h 0 h0).1 (by decide)
  rw [escape_copies h, hself 0x22 (by decide), cString_of_nul_free hnul]

end Quotes

section Frames

def chunkHead : Bytes :=
  bytes "\x7b\"jsonrpc\":\"2.0\",\"method\":\"stream_chunk\",\"params\":\x7b\"text\":\""

def finalHead : Bytes := bytes "\x7b\"id\":1,\"jsonrpc\":\"2.0\",\"result\":\x7b\"text\":\""

def close : Bytes := bytes "\"\x7d\x7d"

def chunkText (t : Bytes) : Bytes := chunkHead ++ (t.flatMap escapeByte ++ close)
def finalText (t : Bytes) : Bytes := finalHead ++ (t.flatMap escapeByte ++ close)

theorem dump_chunkNotice (t : Text) : dump (chunkNotice t.1) = .ok (chunkText t.1) := by
  have hj : chunkNotice t.1 = .obj [(bytes "jsonrpc", .str (bytes "2.0")),
      (bytes "method", .str (bytes "stream_chunk")),
      (bytes "params", .obj [(bytes "text", .str t.1)])] := rfl
  have hutf : (chunkNotice t.1).utf8 = true := by
    simp only [hj, Json.utf8, utf8Members, t.2]
    decide
  have hsplit : chunkHead = 0x7B :: (quote (bytes "jsonrpc") ++ 0x3A :: quote (bytes "2.0") ++
      0x2C :: (quote (bytes "method") ++ 0x3A :: quote (bytes "stream_chunk")) ++
      0x2C :: (quote (bytes "params") ++ [0x3A]) ++
      0x7B :: (quote (bytes "text") ++ 0x3A :: [0x22])) := by decide
  rw [dump, dumpWith, if_pos hutf, hj, chunkText, hsplit, close]
  simp [render, renderMembers, compact, quote]
  rfl

theorem dump_textResult (t : Text) :
    dump ((textResult t.1).json (.int 1)) = .ok (finalText t.1) := by
  have hj : (textResult t.1).json (.int 1) = .obj [(bytes "id", .int 1),
      (bytes "jsonrpc", .str (bytes "2.0")),
      (bytes "result", .obj [(bytes "text", .str t.1)])] := rfl
  have hutf : ((textResult t.1).json (.int 1)).utf8 = true := by
    simp only [hj, Json.utf8, utf8Members, t.2]
    decide
  have hsplit : finalHead = 0x7B :: (quote (bytes "id") ++ 0x3A :: decimalInt 1 ++
      0x2C :: (quote (bytes "jsonrpc") ++ 0x3A :: quote (bytes "2.0")) ++
      0x2C :: (quote (bytes "result") ++ [0x3A]) ++
      0x7B :: (quote (bytes "text") ++ 0x3A :: [0x22])) := by decide
  rw [dump, dumpWith, if_pos hutf, hj, finalText, hsplit, close]
  simp [render, renderMembers, compact, quote]
  rfl

theorem receiveFrame_frame (raw s : Bytes) :
    receiveFrame (frame raw ++ s) =
      if kMaxPayload < raw.length % 2 ^ 32 then .failed (bytes "Response too large") (raw ++ s)
      else if (raw ++ s).length < raw.length % 2 ^ 32 then
        .failed (bytes "Socket body chunk failed") []
      else .frame ((raw ++ s).take (raw.length % 2 ^ 32))
        ((raw ++ s).drop (raw.length % 2 ^ 32)) := by
  rw [frame, List.append_assoc, ← netLen_lengthBytes raw.length]
  rfl

/-- A value behind the first of its needles. -/
theorem extractJsonValue_append {l key : Bytes} (s : Bytes)
    (h : (find (needle key) l).map (· + (needle key).length) = some l.length) :
    extractJsonValue (l ++ s) key = untilQuote 0x22 s := by
  obtain ⟨pos, hpos, hlen⟩ := Option.map_eq_some_iff.mp h
  rw [extractJsonValue, find_append_left hpos]
  change untilQuote 0x22 ((l ++ s).drop (pos + (needle key).length)) = _
  rw [hlen, List.drop_left]

theorem readFrame_chunk (t : Bytes) :
    readFrame (chunkText t) =
      .text (cString (untilQuote 0x22 (t.flatMap escapeByte ++ close))) false := by
  have hmethod : extractJsonValue (chunkText t) (bytes "method") = bytes "stream_chunk" := by
    have hsplit : chunkHead = bytes "\x7b\"jsonrpc\":\"2.0\",\"method\":\"" ++
        (bytes "stream_chunk" ++ bytes "\",\"params\":\x7b\"text\":\"") := by decide
    have hvalue : untilQuote 0x22 (bytes "stream_chunk") = bytes "stream_chunk" := by decide
    rw [chunkText, hsplit, List.append_assoc, extractJsonValue_append _ (by decide),
      List.append_assoc, untilQuote_append hvalue]
    rfl
  have htext : extractJsonValue (chunkText t) (bytes "text") =
      untilQuote 0x22 (t.flatMap escapeByte ++ close) :=
    extractJsonValue_append _ (by decide)
  unfold readFrame
  rw [if_pos hmethod, htext]

theorem escapeByte_head (b : UInt8) :
    (b ≠ 0x22 ∧ escapeByte b = [b]) ∨ ∃ e, escapeByte b = 0x5C :: e ∧ (e = [0x22] ∨ 0x22 ∉ e) := by
  have h : ∀ n < 256, (UInt8.ofNat n ≠ 0x22 ∧ escapeByte (UInt8.ofNat n) = [UInt8.ofNat n]) ∨
      (escapeByte (UInt8.ofNat n)).head? = some 0x5C ∧
        ((escapeByte (UInt8.ofNat n)).tail = [0x22] ∨
          0x22 ∉ (escapeByte (UInt8.ofNat n)).tail) := by
    decide +kernel
  have hb := h b.toNat b.toNat_lt
  rw [UInt8.ofNat_toNat] at hb
  rcases hb with hb | ⟨hhead, htail⟩
  · exact .inl hb
  · exact .inr ⟨_, (List.cons_head?_tail hhead).symm, htail⟩

/-- A name that a quoted text starts with is not followed by a colon. -/
theorem name_not_prefix {name : Bytes} (hn : ∀ b ∈ name, b ≠ 0x22 ∧ b ≠ 0x5C) (t : Bytes) :
    ¬ name ++ [0x22, 0x3A] <+: t.flatMap escapeByte ++ close := by
  induction name generalizing t with
  | nil =>
    intro h
    cases t with
    | nil => exact absurd h (by decide)
    | cons b t =>
      rcases escapeByte_head b with ⟨hb, hcopy⟩ | ⟨e, he, -⟩
      · rw [List.flatMap_cons, hcopy] at h
        exact hb (List.cons_prefix_cons.mp h).1.symm
      · rw [List.flatMap_cons, he] at h
        exact absurd (List.cons_prefix_cons.mp h).1 (by decide)
  | cons a name ih =>
    rw [List.forall_mem_cons] at hn
    intro h
    cases t with
    | nil => exact hn.1.1 (List.cons_prefix_cons.mp h).1
    | cons b t =>
      rcases escapeByte_head b with ⟨hb, hcopy⟩ | ⟨e, he, -⟩
      · rw [List.flatMap_cons, hcopy] at h
        exact ih hn.2 t (List.cons_prefix_cons.mp h).2
      · rw [List.flatMap_cons, he] at h
        exact hn.1.2 (List.cons_prefix_cons.mp h).1

theorem needle_not_prefix (t : Bytes) :
    ¬ needle (bytes "method") <+: 0x22 :: (t.flatMap escapeByte ++ close) := by
  intro h
  have hsplit : needle (bytes "method") = 0x22 :: ((bytes "method" ++ [0x22, 0x3A]) ++ [0x22]) := by
    decide
  have hname : (bytes "method").all (fun b => decide (b ≠ 0x22 ∧ b ≠ 0x5C)) = true := by decide
  rw [hsplit, List.cons_prefix_cons] at h
  exact name_not_prefix (by simpa using hname) t ((List.prefix_append _ _).trans h.2)

theorem find_method_quoted {t : Bytes}
    (h : find (needle (bytes "method")) (t.flatMap escapeByte ++ close) = none) :
    find (needle (bytes "method")) (0x22 :: (t.flatMap escapeByte ++ close)) = none := by
  rw [find, if_neg fun hp => needle_not_prefix t (List.isPrefixOf_iff_prefix.mp hp), h]
  rfl

theorem find_method_escaped (t : Bytes) :
    find (needle (bytes "method")) (t.flatMap escapeByte ++ close) = none := by
  have hneedle : needle (bytes "method") = 0x22 :: bytes "method\":\"" := by decide
  induction t with
  | nil => decide
  | cons b t ih =>
    rw [List.flatMap_cons, List.append_assoc]
    rcases escapeByte_head b with ⟨hb, hcopy⟩ | ⟨e, he, rfl | hfree⟩
    · rw [hcopy, hneedle, find_skip (by simpa using hb.symm), ← hneedle, ih]
      rfl
    · rw [he, hneedle, List.cons_append, find_cons_of_ne (by decide) (by decide), ← hneedle]
      change (find _ (0x22 :: (t.flatMap escapeByte ++ close))).map _ = none
      rw [find_method_quoted ih]
      rfl
    · have hcons : (0x22 : UInt8) ∉ 0x5C :: e := by simpa using hfree
      rw [he, hneedle, find_skip hcons, ← hneedle, ih]
      rfl

theorem readFrame_final (t : Bytes) :
    readFrame (finalText t) =
      .text (cString (untilQuote 0x22 (t.flatMap escapeByte ++ close))) true := by
  have hmethod : extractJsonValue (finalText t) (bytes "method") = [] := by
    have hsplit : finalHead =
        bytes "\x7b\"id\":1,\"jsonrpc\":\"2.0\",\"result\":\x7b\"text\":" ++ [0x22] := by
      decide
    rw [extractJsonValue, finalText, hsplit, List.append_assoc, List.singleton_append,
      find_skip_all (by decide), find_method_quoted (find_method_escaped t)]
    rfl
  have hresult : (find (bytes "\"result\":") (finalText t)).isSome := by
    have hhead : find (bytes "\"result\":") finalHead = some 24 := by decide
    rw [finalText, find_append_left hhead]
    rfl
  have htext : extractJsonValue (finalText t) (bytes "text") =
      untilQuote 0x22 (t.flatMap escapeByte ++ close) :=
    extractJsonValue_append _ (by decide)
  unfold readFrame
  rw [hmethod, if_neg (by decide), if_pos (.inl hresult), htext]

end Frames

section Stream

/-- The texts as they were sent, and the end of the stream at the last one. -/
def asSent (texts : List Text) (final : Text) : List Callback :=
  texts.map (fun t => .text t.1 false) ++ [.text final.1 true]

/-- What a text must be to arrive, in a frame of its own. -/
def Arrives (t raw : Bytes) : Prop := Bare t ∧ raw.length ≤ kMaxPayload

theorem readFrame_length {raw t : Bytes} {isEnd : Bool} (h : readFrame raw = .text t isEnd) :
    t.length ≤ raw.length := by
  have hc : ∀ s : Bytes, (cString s).length ≤ s.length := fun s =>
    (List.takeWhile_prefix _).length_le
  have hx : (extractJsonValue raw (bytes "text")).length ≤ raw.length := by
    unfold extractJsonValue
    split
    · exact Nat.zero_le _
    · refine le_trans (untilQuote_length_le _ _) ?_
      rw [List.length_drop]
      exact Nat.sub_le _ _
  unfold readFrame at h
  split_ifs at h
  · obtain ⟨rfl, -⟩ := Callback.text.inj h
    exact le_trans (hc _) hx
  · obtain ⟨rfl, -⟩ := Callback.text.inj h
    exact le_trans (hc _) hx
  · obtain ⟨rfl, -⟩ := Callback.text.inj h
    exact hc raw

theorem receiveFrame_short {raw : Bytes} (h : raw.length ≤ kMaxPayload) (s : Bytes) :
    receiveFrame (frame raw ++ s) = .frame raw s := by
  have hlt : raw.length % 2 ^ 32 = raw.length :=
    Nat.mod_eq_of_lt (lt_of_le_of_lt h (by decide))
  have hlen : ¬ (raw ++ s).length < raw.length := by
    rw [List.length_append]
    omega
  rw [receiveFrame_frame, hlt, if_neg (Nat.not_lt.mpr h), if_neg hlen, List.take_left,
    List.drop_left]

/-- A frame that is too long is refused, or only a short piece of it is read. -/
theorem receiveFrame_cases (raw s : Bytes) :
    raw.length ≤ kMaxPayload ∨ (∃ message rest, receiveFrame (frame raw ++ s) =
      .failed message rest) ∨ ∃ piece rest, receiveFrame (frame raw ++ s) = .frame piece rest ∧
        piece.length ≤ kMaxPayload ∧ 2 ^ 32 ≤ raw.length := by
  by_cases hshort : raw.length ≤ kMaxPayload
  · exact .inl hshort
  · refine .inr ?_
    rw [receiveFrame_frame]
    split_ifs with hlong hrest
    · exact .inl ⟨_, _, rfl⟩
    · exact .inl ⟨_, _, rfl⟩
    · refine .inr ⟨_, _, rfl, ?_, ?_⟩
      · rw [List.length_take]
        omega
      · by_contra hlt
        rw [Nat.mod_eq_of_lt (Nat.lt_of_not_le hlt)] at hlong
        exact hshort (Nat.le_of_not_lt hlong)

/-- The callback of a frame that is read. -/
def turn (n : ℕ) (rest : Bytes) : Callback → List Callback × Bytes
  | .text t false => (.text t false :: (receiveLoop n rest).1, (receiveLoop n rest).2)
  | e => ([e], rest)

theorem receiveLoop_frame {n : ℕ} {s chunk rest : Bytes} (h : receiveFrame s = .frame chunk rest) :
    receiveLoop (n + 1) s = turn n rest (readFrame chunk) := by
  rw [receiveLoop, h]
  rfl

theorem turn_head (n : ℕ) (rest : Bytes) (e : Callback) : (turn n rest e).1.head? = some e := by
  unfold turn
  split <;> rfl

/-- If the first callback is the text of the first frame, that text arrives. -/
theorem arrives_of_head {n : ℕ} {t raw s r : Bytes} {isEnd : Bool}
    (hraw : readFrame raw = .text (cString (untilQuote 0x22 (t.flatMap escapeByte ++ r))) isEnd)
    (hlen : raw.length ≤ 6 * t.length + 100)
    (h : (receiveLoop (n + 1) (frame raw ++ s)).1.head? = some (.text t isEnd)) :
    Arrives t raw := by
  rcases receiveFrame_cases raw s with hshort | ⟨message, rest, hf⟩ | ⟨piece, rest, hf, hp, hl⟩
  · rw [receiveLoop_frame (receiveFrame_short hshort s), turn_head, hraw, Option.some.injEq,
      Callback.text.injEq] at h
    exact ⟨bare_of_heard h.1, hshort⟩
  · rw [receiveLoop, hf] at h
    exact absurd (Option.some.inj h) (by simp)
  · rw [receiveLoop_frame hf, turn_head, Option.some.injEq] at h
    have ht := readFrame_length h
    have hmax : kMaxPayload = 10485760 := rfl
    omega

theorem text_of_arrives {t raw : Bytes} {isEnd : Bool} (h : Arrives t raw)
    (hraw : readFrame raw = .text (cString (untilQuote 0x22 (t.flatMap escapeByte ++ close))) isEnd)
    (n : ℕ) (s : Bytes) :
    receiveLoop (n + 1) (frame raw ++ s) = turn n s (.text t isEnd) := by
  rw [receiveLoop_frame (receiveFrame_short h.2 s), hraw]
  exact congrArg (fun x => turn n s (.text x isEnd)) (heard_bare h.1 _)

theorem chunkText_length (t : Bytes) : (chunkText t).length ≤ 6 * t.length + 100 := by
  have hhead : chunkHead.length = 59 := by decide
  have hesc := escape_length_le t
  have hclose : close.length = 3 := by decide
  rw [chunkText, List.length_append, List.length_append]
  omega

theorem finalText_length (t : Bytes) : (finalText t).length ≤ 6 * t.length + 100 := by
  have hhead : finalHead.length = 42 := by decide
  have hesc := escape_length_le t
  have hclose : close.length = 3 := by decide
  rw [finalText, List.length_append, List.length_append]
  omega

theorem sent_chunk (t : Text) : sent (chunkNotice t.1) = frame (chunkText t.1) := by
  rw [sent, dump_chunkNotice]

theorem sent_final (t : Text) :
    sent ((textResult t.1).json (.int 1)) = frame (finalText t.1) := by
  rw [sent, dump_textResult]

theorem streamed_nil (final : Text) : streamed [] final = frame (finalText final.1) :=
  sent_final final

theorem streamed_cons (t : Text) (texts : List Text) (final : Text) :
    streamed (t :: texts) final = frame (chunkText t.1) ++ streamed texts final := by
  rw [streamed, List.flatMap_cons, List.append_assoc, sent_chunk]
  rfl

theorem receiveLoop_iff (texts : List Text) (final : Text) (rest : Bytes) :
    ∀ n, texts.length < n →
      (receiveLoop n (streamed texts final ++ rest) = (asSent texts final, rest) ↔
        (∀ t ∈ texts, Arrives t.1 (chunkText t.1)) ∧ Arrives final.1 (finalText final.1)) := by
  induction texts with
  | nil =>
    intro n hn
    obtain ⟨n, rfl⟩ := Nat.exists_eq_succ_of_ne_zero (Nat.ne_of_gt hn)
    rw [streamed_nil]
    constructor
    · intro h
      refine ⟨fun t ht => absurd ht List.not_mem_nil, ?_⟩
      exact arrives_of_head (readFrame_final final.1) (finalText_length final.1) (by rw [h]; rfl)
    · rintro ⟨-, h⟩
      exact text_of_arrives h (readFrame_final final.1) n rest
  | cons t texts ih =>
    intro n hn
    obtain ⟨n, rfl⟩ := Nat.exists_eq_succ_of_ne_zero (Nat.ne_of_gt (Nat.zero_lt_of_lt hn))
    have htail := ih n (Nat.lt_of_succ_lt_succ hn)
    rw [streamed_cons, List.append_assoc, List.forall_mem_cons]
    have hgo : Arrives t.1 (chunkText t.1) → receiveLoop (n + 1)
        (frame (chunkText t.1) ++ (streamed texts final ++ rest)) =
          (.text t.1 false :: (receiveLoop n (streamed texts final ++ rest)).1,
            (receiveLoop n (streamed texts final ++ rest)).2) := fun h =>
      text_of_arrives h (readFrame_chunk t.1) n _
    constructor
    · intro h
      have ht : Arrives t.1 (chunkText t.1) :=
        arrives_of_head (readFrame_chunk t.1) (chunkText_length t.1) (by rw [h]; rfl)
      rw [hgo ht, Prod.mk.injEq] at h
      have hrest := htail.mp (Prod.ext (List.cons.inj h.1).2 h.2)
      exact ⟨⟨ht, hrest.1⟩, hrest.2⟩
    · rintro ⟨⟨ht, hts⟩, hfinal⟩
      rw [hgo ht, htail.mpr ⟨hts, hfinal⟩]
      rfl

theorem length_le_streamed (texts : List Text) (final : Text) :
    texts.length ≤ (streamed texts final).length := by
  induction texts with
  | nil => exact Nat.zero_le _
  | cons t texts ih =>
    have hframe : (frame (chunkText t.1)).length = 4 + (chunkText t.1).length := by
      rw [frame, List.length_append]
      rfl
    rw [streamed_cons, List.length_append, List.length_cons, hframe]
    omega

theorem arrives_chunk (t : Bytes) :
    Arrives t (chunkText t) ↔ Bare t ∧ t.length + 62 ≤ kMaxPayload := by
  have hhead : chunkHead.length = 59 := by decide
  refine and_congr_right fun h => ?_
  rw [chunkText, escape_copies h, List.length_append, List.length_append, hhead,
    show close.length = 3 by decide]
  omega

theorem arrives_final (t : Bytes) :
    Arrives t (finalText t) ↔ Bare t ∧ t.length + 45 ≤ kMaxPayload := by
  have hhead : finalHead.length = 42 := by decide
  refine and_congr_right fun h => ?_
  rw [finalText, escape_copies h, List.length_append, List.length_append, hhead,
    show close.length = 3 by decide]
  omega

/-- A stream arrives as it was sent just when no text in it needs escaping and no frame is longer
than the library takes. -/
theorem stream_iff (texts : List Text) (final : Text) (rest : Bytes) :
    receiveStream (streamed texts final ++ rest) = (asSent texts final, rest) ↔
      (∀ t ∈ texts, Bare t.1 ∧ t.1.length + 62 ≤ kMaxPayload) ∧
        Bare final.1 ∧ final.1.length + 45 ≤ kMaxPayload := by
  have hlen := length_le_streamed texts final
  have hfuel : texts.length < (streamed texts final ++ rest).length + 1 := by
    rw [List.length_append]
    omega
  rw [receiveStream, receiveLoop_iff texts final rest _ hfuel]
  simp only [arrives_chunk, arrives_final]

end Stream

section Handler

variable {σ : Type}

/-- A run that hands out chunks and ends with a result. -/
def streaming (texts : List Text) (final : Text) (s : σ) : PromptRun σ :=
  texts.foldr (fun t run => .chunk t.1 fun _ => run) (.ends (.ok final.1) s)

/-- What a client takes off the socket of a frame. -/
def written : Frame → Bytes
  | .chunk text => frame text
  | .response text _ => frame text

theorem play_streaming (texts : List Text) (final : Text) (s : σ) (c : Client σ) :
    (streaming texts final s).play true c =
      (.ok final.1, { c with
        daemon := s, frames := c.frames ++ texts.map fun t => Frame.chunk (chunkText t.1) }) := by
  induction texts generalizing c with
  | nil =>
    rw [List.map_nil, List.append_nil]
    rfl
  | cons t texts ih =>
    have hchunk : onChunk true t.1 = .ok (chunkText t.1) := by
      rw [onChunk, if_pos rfl, dump_chunkNotice]
      rfl
    rw [streaming, List.foldr_cons, PromptRun.play, hchunk]
    exact (ih _).trans (by rw [List.map_cons, List.append_assoc]; rfl)

/-- The handler writes such a stream for the request of the library. -/
theorem round_streamed (st : Services σ) {readFloat : Bytes → Option NumberText}
    {truncate : NumberText → ℤ} {raw sessionId text : Bytes} {req : Json} {a2ui : Bool}
    {s s₁ s₂ : σ} {texts : List Text} {final : Text} (delivery : Delivery)
    (hparse : JsonParse.parse readFloat raw = .ok req)
    (hread : IpcRequest.readRequest truncate req =
      .ok (.call (.int 1) (.prompt sessionId text true a2ui)))
    (htext : text ≠ [])
    (hmode : (st.setSessionMode sessionId
      (if a2ui then bytes "a2ui" else bytes "default")).run s = (.ok (), s₁))
    (hrun : st.processPrompt sessionId text s₁ = streaming texts final s₂) :
    (round st readFloat truncate raw delivery s).1.frames.flatMap written =
      streamed texts final := by
  have hset : (onDaemon (st.setSessionMode sessionId
      (if a2ui then bytes "a2ui" else bytes "default"))).run (⟨s, [], []⟩ : Client σ) =
        (.ok (), ⟨s₁, [], []⟩) := by
    change (match (st.setSessionMode sessionId
      (if a2ui then bytes "a2ui" else bytes "default")).run s with
      | (r, s') => (r, (⟨s', [], []⟩ : Client σ))) = _
    rw [hmode]
  have hplay : (runPrompt st ⟨sessionId, text, false⟩ true).run (⟨s₁, [], []⟩ : Client σ) =
      (.ok final.1, ⟨s₂, [⟨sessionId, text, false⟩],
        texts.map fun t => Frame.chunk (chunkText t.1)⟩) := by
    change (st.processPrompt sessionId text s₁).play true ⟨s₁, [⟨sessionId, text, false⟩], []⟩ = _
    rw [hrun, play_streaming]
    rfl
  have hperform : (perform st readFloat (.prompt sessionId text true a2ui)).run
      (⟨s, [], []⟩ : Client σ) = (.ok (textResult final.1), ⟨s₂, [⟨sessionId, text, false⟩],
        texts.map fun t => Frame.chunk (chunkText t.1)⟩) := by
    rw [perform, performPrompt, TryBlock.run_bind hset, if_neg htext, TryBlock.run_bind hplay]
    rfl
  have hanswer : (answer st readFloat truncate raw).run (⟨s, [], []⟩ : Client σ) =
      (.ok ((textResult final.1).json (.int 1)), ⟨s₂, [⟨sessionId, text, false⟩],
        texts.map fun t => Frame.chunk (chunkText t.1)⟩) := by
    rw [answer, TryBlock.run_bind (TryBlock.run_lift (congrArg caught hparse) _),
      TryBlock.run_bind (TryBlock.run_lift (congrArg caught hread) _)]
    exact TryBlock.run_bind hperform
  have hdump : caught (dump ((textResult final.1).json (.int 1))) = .ok (finalText final.1) :=
    congrArg caught (dump_textResult final)
  have hrespond : (respond st readFloat truncate raw delivery).run (⟨s, [], []⟩ : Client σ) =
      (.ok (), ⟨s₂, [⟨sessionId, text, false⟩],
        texts.map (fun t => Frame.chunk (chunkText t.1)) ++
          [.response (finalText final.1) delivery]⟩) := by
    have htry := TryBlock.run_tryCatch (answer st readFloat truncate raw) (recover st raw)
      (⟨s, [], []⟩ : Client σ)
    rw [hanswer] at htry
    rw [respond, TryBlock.run_bind htry, TryBlock.run_bind (TryBlock.run_lift hdump _)]
    rfl
  rw [IpcHandler.round, hrespond]
  simp only [List.flatMap_append, List.flatMap_map, streamed, sent_chunk, sent_final]
  rw [List.flatMap_singleton]
  rfl

end Handler

namespace Counterexample

/-- A line feed arrives as a backslash and an `n`; behind a backslash at its end a text arrives with
the end of the frame. -/
theorem not_as_sent :
    receiveStream (streamed [⟨bytes "a\nb", by decide⟩] ⟨bytes "ok", by decide⟩) =
      ([.text (bytes "a\\nb") false, .text (bytes "ok") true], []) ∧
    receiveStream (streamed [] ⟨bytes "c:\\", by decide⟩) =
      ([.text (bytes "c:\\\\\"\x7d\x7d") true], []) ∧
    ¬ (∀ texts final rest,
      receiveStream (streamed texts final ++ rest) = (asSent texts final, rest)) := by
  refine ⟨by decide +kernel, by decide +kernel, fun h => ?_⟩
  exact absurd (h [⟨bytes "a\nb", by decide⟩] ⟨bytes "ok", by decide⟩ []) (by decide +kernel)

end Counterexample

end ClientStream
