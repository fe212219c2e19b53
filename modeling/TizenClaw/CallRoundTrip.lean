import TizenClaw.JsonLines
import TizenClaw.SessionMarkdown

/-! What the reader makes of written headings and tool calls. -/
namespace CallRoundTrip

open ByteString ByteLines JsonValue JsonDump JsonParse JsonRoundTrip JsonLines LlmTypes
  SessionMarkdown

section Headings

theorem bytes_open : bytes "[" = [0x5B] := by decide
theorem bytes_close : bytes "]" = [0x5D] := by decide
theorem bytes_space : bytes " " = [space] := by decide
theorem bytes_space_open : bytes " [" = [space, 0x5B] := by decide

theorem open_ne_space : (0x5B : UInt8) ≠ space := by decide
theorem close_ne_space : (0x5D : UInt8) ≠ space := by decide

theorem trimRight_eq_self_iff {s : Bytes} :
    trimRight (bytes " ") s = s ↔ s.getLast? ≠ some space := by
  rw [bytes_space]
  rcases List.eq_nil_or_concat s with rfl | ⟨t, b, rfl⟩
  · simp [trimRight]
  · rw [List.concat_eq_append, List.getLast?_concat]
    by_cases hb : b = space
    · subst hb
      rw [trimRight_white t (by simp)]
      simp only [ne_eq, not_true_eq_false, iff_false]
      intro he
      have hle : (trimRight [space] t).length ≤ t.length := (List.rdropWhile_prefix _ _).length_le
      rw [he, List.length_append, List.length_singleton] at hle
      omega
    · rw [trimRight_last t (by simpa using hb)]
      simpa using hb

theorem length_trimRight_le (s : Bytes) : (trimRight (bytes " ") s).length ≤ s.length :=
  (List.rdropWhile_prefix _ _).length_le

/-- The heading of a call behind its mark. -/
def callTitle (tc : LlmToolCall) : Bytes :=
  tc.name ++ if tc.id = [] then [] else bytes " [" ++ tc.id ++ bytes "]"

/-- The names of calls that a heading tells apart. -/
def PlainNames (name id : Bytes) : Prop :=
  name.getLast? ≠ some space ∧
    if id = [] then 0x5B ∉ name ∨ 0x5D ∉ name ∨ [0x5B, 0x5D] <+: name
    else 0x5B ∉ name ∧ 0x5D ∉ name ∧ 0x5D ∉ id

theorem readCallHeading_bare (name : Bytes) :
    readCallHeading name = (name, []) ↔ PlainNames name [] := by
  unfold readCallHeading PlainNames
  rw [bytes_open, bytes_close, if_pos rfl]
  by_cases hb : 0x5B ∈ name
  · by_cases he : 0x5D ∈ name
    · obtain ⟨l, t, hl, hnl, hfb⟩ := find_byte_some hb
      obtain ⟨l', t', hl', hnl', hfe⟩ := find_byte_some he
      rw [hfb, hfe]
      simp only [hb, he, not_true_eq_false, false_or, Prod.mk.injEq]
      cases l with
      | nil =>
        rw [List.length_nil, if_pos rfl, trimRight_eq_self_iff]
        refine and_congr_right fun _ => ?_
        cases l' with
        | nil =>
          rw [hl] at hl'
          cases hl'
        | cons c l' =>
          obtain ⟨rfl, ht⟩ : (0x5B : UInt8) = c ∧ t = l' ++ 0x5D :: t' := by
            rw [hl] at hl'
            simpa using hl'
          rw [between, if_pos (by simp), hl, ht]
          cases l' with
          | nil => simp
          | cons d l' =>
            have hd : d ≠ 0x5D := by
              rintro rfl
              exact hnl' (by simp)
            simp [Ne.symm hd]
      | cons c l =>
        have hc : c ≠ 0x5B := by
          rintro rfl
          exact hnl (by simp)
        rw [if_neg (by simp)]
        constructor
        · rintro ⟨hname, -⟩
          exfalso
          have hle := length_trimRight_le (name.take ((c :: l).length - 1))
          rw [hname, List.length_take] at hle
          have hlen := congrArg List.length hl
          rw [List.length_append, List.length_cons, List.length_cons] at hlen
          rw [List.length_cons] at hle
          omega
        · rintro ⟨-, u, hu⟩
          rw [hl] at hu
          exact absurd (List.cons.inj hu).1.symm hc
    · obtain ⟨l, t, -, -, hfb⟩ := find_byte_some hb
      rw [hfb, find_byte_none he]
      simp [he, trimRight_eq_self_iff]
  · rw [find_byte_none hb]
    simp [hb, trimRight_eq_self_iff]

theorem readCallHeading_with_id {id : Bytes} (hid : id ≠ []) (name : Bytes) :
    readCallHeading (name ++ (bytes " [" ++ id ++ bytes "]")) = (name, id) ↔
      PlainNames name id := by
  have htitle : name ++ (bytes " [" ++ id ++ bytes "]") =
      name ++ space :: 0x5B :: (id ++ [0x5D]) := by
    rw [bytes_space_open, bytes_close]
    rfl
  unfold readCallHeading PlainNames
  rw [bytes_open, bytes_close] at *
  rw [if_neg hid, htitle]
  have he : (0x5D : UInt8) ∈ name ++ space :: 0x5B :: (id ++ [0x5D]) := by simp
  by_cases hb : 0x5B ∈ name
  · obtain ⟨l, t, rfl, hnl, -⟩ := find_byte_some hb
    have hfb : find [0x5B] (l ++ 0x5B :: t ++ space :: 0x5B :: (id ++ [0x5D])) = some l.length := by
      rw [List.append_assoc, List.cons_append, find_byte hnl]
    obtain ⟨l', t', -, -, hfe⟩ := find_byte_some he
    rw [hfb, hfe]
    simp only [hb, not_true_eq_false, false_and, and_false, iff_false, Prod.mk.injEq, not_and]
    intro hname
    exfalso
    split_ifs at hname with h0
    · have hlast : trimRight (bytes " ") (l ++ 0x5B :: t ++ space :: 0x5B :: (id ++ [0x5D])) =
          l ++ 0x5B :: t ++ space :: 0x5B :: (id ++ [0x5D]) := by
        have hsplit : l ++ 0x5B :: t ++ space :: 0x5B :: (id ++ [0x5D]) =
            (l ++ 0x5B :: t ++ space :: 0x5B :: id) ++ [0x5D] := by simp
        rw [hsplit, trimRight_last _ (by decide)]
      rw [hlast] at hname
      have := congrArg List.length hname
      simp at this
    · have hle := length_trimRight_le
        ((l ++ 0x5B :: t ++ space :: 0x5B :: (id ++ [0x5D])).take (l.length - 1))
      rw [hname, List.length_take, List.length_append] at hle
      simp only [List.length_cons] at hle
      omega
  · have hfb : find [0x5B] (name ++ space :: 0x5B :: (id ++ [0x5D])) = some (name.length + 1) := by
      have hnl : (0x5B : UInt8) ∉ name ++ [space] := by simp [hb, open_ne_space]
      have := find_byte hnl (id ++ [0x5D])
      simpa using this
    have htake : (name ++ space :: 0x5B :: (id ++ [0x5D])).take name.length = name := by simp
    have hdrop : (name ++ space :: 0x5B :: (id ++ [0x5D])).drop (name.length + 1 + 1) =
        id ++ [0x5D] := by
      rw [List.drop_append, List.drop_eq_nil_of_le (by omega), List.nil_append,
        show name.length + 1 + 1 - name.length = 2 by omega]
      rfl
    by_cases hn : 0x5D ∈ name
    · obtain ⟨l, t, rfl, hnl, -⟩ := find_byte_some hn
      have hfe : find [0x5D] (l ++ 0x5D :: t ++ space :: 0x5B :: (id ++ [0x5D])) =
          some l.length := by
        rw [List.append_assoc, List.cons_append, find_byte hnl]
      rw [hfb, hfe]
      simp only [hn, not_true_eq_false, false_and, and_false, iff_false, Prod.mk.injEq, not_and]
      intro _ hbetween
      rw [between, if_neg (by simp; omega), hdrop] at hbetween
      have := congrArg List.length hbetween
      simp at this
    · by_cases hi : 0x5D ∈ id
      · obtain ⟨l, t, rfl, hnl, -⟩ := find_byte_some hi
        have hfe : find [0x5D] (name ++ space :: 0x5B :: (l ++ 0x5D :: t ++ [0x5D])) =
            some (name.length + 2 + l.length) := by
          have hnl' : (0x5D : UInt8) ∉ name ++ space :: 0x5B :: l := by
            simp [hn, hnl, close_ne_space]
          have := find_byte hnl' (t ++ [0x5D])
          simpa [Nat.add_assoc, Nat.add_comm 2] using this
        rw [hfb, hfe]
        simp only [hi, not_true_eq_false, and_false, iff_false, Prod.mk.injEq, not_and]
        intro _ hbetween
        rw [between, if_pos (by omega), hdrop] at hbetween
        have := congrArg List.length hbetween
        simp only [List.length_take, List.length_append, List.length_cons] at this
        omega
      · have hfe : find [0x5D] (name ++ space :: 0x5B :: (id ++ [0x5D])) =
            some (name.length + 2 + id.length) := by
          have hnl' : (0x5D : UInt8) ∉ name ++ space :: 0x5B :: id := by
            simp [hn, hi, close_ne_space]
          have := find_byte hnl' []
          simpa [Nat.add_assoc, Nat.add_comm 2] using this
        rw [hfb, hfe]
        simp only [Nat.add_eq_zero_iff, Nat.one_ne_zero, and_false, if_false, Nat.add_sub_cancel,
          htake, Prod.mk.injEq, trimRight_eq_self_iff, hb, hn, hi, not_false_eq_true, and_true]
        refine and_iff_left ?_
        rw [between, if_pos (by omega), hdrop,
          show name.length + 2 + id.length - (name.length + 1) - 1 = id.length by omega,
          List.take_left]

/-- The heading of a call is read back exactly when its names are plain. -/
theorem readCallHeading_iff (tc : LlmToolCall) :
    readCallHeading (callTitle tc) = (tc.name, tc.id) ↔ PlainNames tc.name tc.id := by
  unfold callTitle
  by_cases hid : tc.id = []
  · rw [if_pos hid, List.append_nil, hid]
    exact readCallHeading_bare tc.name
  · rw [if_neg hid]
    exact readCallHeading_with_id hid tc.name

/-- Id and name in the heading of a tool message, behind the word. -/
def toolTitle (id name : Bytes) : Bytes :=
  (if id = [] then [] else bytes " [" ++ id ++ bytes "]") ++
    if name = [] then [] else bytes " " ++ name

def ToolNames (id name : Bytes) : Prop := if id = [] then name = [] else 0x5D ∉ id

theorem readToolNames_bare (name : Bytes) :
    readToolNames (bytes "tool" ++ toolTitle [] name) = ([], name) ↔ name = [] := by
  unfold toolTitle readToolNames
  rw [if_pos rfl, List.nil_append, bytes_open, bytes_close]
  by_cases hn : name = []
  · subst hn
    rw [if_pos rfl, List.append_nil, find_byte_none (by decide)]
    simp
  · have htitle : bytes "tool" ++ (if name = [] then [] else bytes " " ++ name) =
        bytes "tool " ++ name := by
      rw [if_neg hn, ← List.append_assoc]
      rfl
    rw [htitle]
    simp only [hn, iff_false]
    intro h
    have hopen : (0x5B : UInt8) ∉ bytes "tool " := by decide
    have hclose : (0x5D : UInt8) ∉ bytes "tool " := by decide
    rw [find_skip hopen, find_skip hclose] at h
    cases hb : find [0x5B] name with
    | none =>
      rw [hb] at h
      exact hn (Prod.mk.inj h).2.symm
    | some b =>
      cases he : find [0x5D] name with
      | none =>
        rw [hb, he] at h
        exact hn (Prod.mk.inj h).2.symm
      | some e =>
        rw [hb, he] at h
        have hname := (Prod.mk.inj h).2
        dsimp only [Option.map_some] at hname
        split_ifs at hname
        · have := congrArg List.length hname
          rw [List.length_drop, List.length_append] at this
          have hpos := List.length_pos_iff.mpr hn
          have hfive : (bytes "tool ").length = 5 := by decide
          omega
        · exact hn hname.symm

theorem readToolNames_with_id {id : Bytes} (hid : id ≠ []) (name : Bytes) :
    readToolNames (bytes "tool" ++ toolTitle id name) = (id, name) ↔ 0x5D ∉ id := by
  unfold toolTitle readToolNames
  rw [if_neg hid, bytes_open, bytes_close]
  generalize hx : (if name = [] then [] else bytes " " ++ name) = x
  have htitle : bytes "tool" ++ (bytes " [" ++ id ++ [0x5D] ++ x) =
      bytes "tool " ++ 0x5B :: (id ++ 0x5D :: x) := by
    rw [bytes_space_open]
    simp only [List.cons_append, List.nil_append, List.append_assoc]
    rfl
  have hfive : (bytes "tool ").length = 5 := by decide
  have hfb : find [0x5B] (bytes "tool " ++ 0x5B :: (id ++ 0x5D :: x)) = some 5 :=
    find_byte (by decide) _
  have hdrop : (bytes "tool " ++ 0x5B :: (id ++ 0x5D :: x)).drop (5 + 1) = id ++ 0x5D :: x := by
    rw [List.drop_append, hfive]
    rfl
  rw [htitle, hfb]
  by_cases hi : 0x5D ∈ id
  · obtain ⟨l, t, rfl, hnl, -⟩ := find_byte_some hi
    have hfe : find [0x5D] (bytes "tool " ++ 0x5B :: (l ++ 0x5D :: t ++ 0x5D :: x)) =
        some (6 + l.length) := by
      have hnl' : (0x5D : UInt8) ∉ bytes "tool " ++ 0x5B :: l := by
        simp only [List.mem_append, List.mem_cons, not_or]
        exact ⟨by decide, by decide, hnl⟩
      have := find_byte hnl' (t ++ 0x5D :: x)
      rw [List.length_append, hfive, List.length_cons] at this
      rw [List.append_assoc, List.cons_append, ← List.cons_append, ← List.append_assoc, this]
      congr 1
      omega
    rw [hfe]
    simp only [hi, not_true_eq_false, iff_false, Prod.mk.injEq, not_and]
    intro hbetween
    rw [between, if_pos (by omega), hdrop] at hbetween
    have := congrArg List.length hbetween
    simp only [List.length_take, List.length_append, List.length_cons] at this
    omega
  · have hfe : find [0x5D] (bytes "tool " ++ 0x5B :: (id ++ 0x5D :: x)) =
        some (6 + id.length) := by
      have hnl : (0x5D : UInt8) ∉ bytes "tool " ++ 0x5B :: id := by
        simp only [List.mem_append, List.mem_cons, not_or]
        exact ⟨by decide, by decide, hi⟩
      have := find_byte hnl x
      rw [List.length_append, hfive, List.length_cons] at this
      rw [← List.cons_append, ← List.append_assoc, this]
      congr 1
      omega
    rw [hfe]
    simp only [hi, not_false_eq_true, iff_true, Prod.mk.injEq]
    constructor
    · rw [between, if_pos (by omega), hdrop, show 6 + id.length - 5 - 1 = id.length by omega,
        List.take_left]
    · have hlen : (bytes "tool " ++ 0x5B :: (id ++ 0x5D :: x)).length =
        7 + id.length + x.length := by
        simp only [List.length_append, List.length_cons, hfive]
        omega
      rw [hlen]
      by_cases hn : name = []
      · rw [if_pos hn] at hx
        subst hx
        rw [if_neg (by simp; omega), hn]
      · rw [if_neg hn, bytes_space] at hx
        subst hx
        have hpos := List.length_pos_iff.mpr hn
        rw [if_pos (by simp only [List.length_append, List.length_singleton]; omega),
          show 6 + id.length + 2 = (5 + 1) + (id.length + 2) by omega, ← List.drop_drop, hdrop,
          List.drop_append, List.drop_eq_nil_of_le (by omega), Nat.add_sub_cancel_left]
        rfl

/-- The heading of a tool message is read back exactly when its id closes no bracket, and a
name does not stand without an id. -/
theorem readToolNames_iff (id name : Bytes) :
    readToolNames (bytes "tool" ++ toolTitle id name) = (id, name) ↔ ToolNames id name := by
  unfold ToolNames
  by_cases hid : id = []
  · subst hid
    rw [if_pos rfl]
    exact readToolNames_bare name
  · rw [if_neg hid]
    exact readToolNames_with_id hid name

end Headings

section Calls

variable {readFloat : Bytes → Option NumberText}

/-- The indented text of a value. -/
def jsonText (j : Json) : Bytes := render id (indented 2) 0 j

theorem parse_jsonText {j : Json} (h : Storable readFloat j) {w : Bytes} (hw : White w) :
    parse readFloat (jsonText j ++ w) = .ok j :=
  parse_render (whiteLayout_indented 2) h 0 white_nil hw

def fenceLines (j : Json) : List Bytes :=
  bytes "```json" :: (lines (jsonText j ++ [newline]) ++ [bytes "```"])

theorem fencedJson_ok {j : Json} {c : Bytes} (h : fencedJson j = .ok c) :
    c = bytes "```json\n" ++ (jsonText j ++ bytes "\n```\n") := by
  obtain ⟨text, ht, rfl⟩ := map_eq_ok.mp h
  unfold dumpIndent dumpWith at ht
  split_ifs at ht
  obtain rfl := Except.ok.inj ht
  rw [List.append_assoc]
  rfl

theorem unlines_fenceLines (j : Json) :
    unlines (fenceLines j) = bytes "```json\n" ++ (jsonText j ++ bytes "\n```\n") := by
  rw [fenceLines, unlines_cons, unlines_append, unlines_lines, List.append_assoc]
  rfl

theorem newline_not_mem_fenceLines (j : Json) : ∀ l ∈ fenceLines j, newline ∉ l := by
  intro l hl
  rcases List.mem_cons.mp hl with rfl | hl
  · decide
  rcases List.mem_append.mp hl with hl | hl
  · exact newline_not_mem_lines _ l hl
  · obtain rfl := List.mem_singleton.mp hl
    decide

/-- The lines of a call. -/
def callLines (tc : LlmToolCall) : List Bytes :=
  (bytes "### tool_call: " ++ callTitle tc) :: [] ::
    if tc.args.empty then [] else fenceLines tc.args

def callsLines (tcs : List LlmToolCall) : List Bytes := tcs.flatMap fun tc => [] :: callLines tc

theorem callMarkdown_ok {tc : LlmToolCall} {c : Bytes} (h : callMarkdown tc = .ok c) :
    c = unlines ([] :: callLines tc) := by
  have hheading : callHeading tc =
      newline :: (bytes "### tool_call: " ++ callTitle tc) ++ [newline, newline] := by
    have hopen : bytes "\n### tool_call: " = newline :: bytes "### tool_call: " := by decide
    have hclose : bytes "\n\n" = [newline, newline] := by decide
    unfold callHeading callTitle
    rw [hopen, hclose]
    simp only [List.append_assoc, List.cons_append]
  unfold callMarkdown at h
  rw [unlines_cons, callLines, unlines_cons, unlines_cons]
  split_ifs at h ⊢ with he
  · obtain rfl := Except.ok.inj h
    rw [hheading]
    simp
  · obtain ⟨block, hb, rfl⟩ := map_eq_ok.mp h
    rw [hheading, fencedJson_ok hb, ← unlines_fenceLines]
    simp

theorem callsMarkdown_ok {tcs : List LlmToolCall} {c : Bytes} (h : callsMarkdown tcs = .ok c) :
    c = unlines (callsLines tcs) := by
  induction tcs generalizing c with
  | nil =>
    obtain rfl := Except.ok.inj h
    rfl
  | cons tc tcs ih =>
    obtain ⟨c₁, h₁, h⟩ := bind_eq_ok.mp h
    obtain ⟨c₂, h₂, rfl⟩ := map_eq_ok.mp h
    rw [callMarkdown_ok h₁, ih h₂, ← unlines_append]
    rfl

theorem readCallLines_append (st : CallReader) (ls ls' : List Bytes) :
    readCallLines readFloat st (ls ++ ls') =
      (readCallLines readFloat st ls).bind fun st => readCallLines readFloat st ls' := by
  induction ls generalizing st with
  | nil => rfl
  | cons l ls ih =>
    rw [List.cons_append, readCallLines, readCallLines]
    cases readCallLine readFloat st l with
    | error e => rfl
    | ok st' => exact ih st'

/-- A line inside a fence. -/
theorem readCallLine_json {st : CallReader} (hj : st.inJson = true) {l : Bytes} (hl : JsonLine l) :
    readCallLine readFloat st l = .ok { st with json := st.json ++ l ++ [newline] } := by
  obtain ⟨b, hb, htick, hhash⟩ := hl.head
  have ne : ∀ {c : UInt8} {t : Bytes}, b ≠ c → l ≠ c :: t := by
    rintro c t hne rfl
    exact hne (Option.some.inj hb).symm
  have hmark : l.take 14 ≠ callMarker := by
    intro h
    refine ne (c := 0x23) (t := (bytes "## tool_call:") ++ l.drop 14) hhash ?_
    calc l = l.take 14 ++ l.drop 14 := (List.take_append_drop 14 l).symm
      _ = callMarker ++ l.drop 14 := by rw [h]
      _ = _ := rfl
  have hopen : l ≠ bytes "```json" := ne (c := 0x60) (t := bytes "``json") htick
  have hclose : l ≠ bytes "```" := ne (c := 0x60) (t := bytes "``") htick
  rw [readCallLine, if_neg hmark, if_neg hopen, if_neg fun h => hclose h.1, if_pos hj]

theorem readCallLines_json {st : CallReader} (hj : st.inJson = true) {ls : List Bytes}
    (hl : ∀ l ∈ ls, JsonLine l) :
    readCallLines readFloat st ls = .ok { st with json := st.json ++ unlines ls } := by
  induction ls generalizing st with
  | nil =>
    rw [readCallLines, unlines_nil, List.append_nil]
  | cons l ls ih =>
    rw [readCallLines, readCallLine_json hj (hl l (by simp))]
    change readCallLines readFloat { st with json := st.json ++ l ++ [newline] } ls = _
    have hrest : readCallLines readFloat { st with json := st.json ++ l ++ [newline] } ls = .ok _ :=
      ih hj fun x hx => hl x (List.mem_cons_of_mem l hx)
    rw [hrest]
    simp

/-- A fence gives the current call its arguments. -/
theorem readCallLines_fence (st : CallReader) {j : Json} (h : Storable readFloat j) :
    ∃ json, readCallLines readFloat st (fenceLines j) =
      .ok { st with inJson := false, json := json, current := { st.current with args := j } } := by
  have hopen : readCallLine readFloat st (bytes "```json") =
      .ok { st with inJson := true, json := [] } := by
    rw [readCallLine, if_neg (by decide), if_pos rfl]
  have hclose : ∀ st' : CallReader, st'.inJson = true → parse readFloat st'.json = .ok j →
      readCallLine readFloat st' (bytes "```") =
        .ok { st' with inJson := false, current := { st'.current with args := j } } := by
    intro st' hj hp
    unfold readCallLine
    rw [hp]
    exact (if_neg (by decide)).trans ((if_neg (by decide)).trans (if_pos ⟨rfl, hj⟩))
  have hl : ∀ l ∈ lines (jsonText j ++ [newline]), JsonLine l := render_lines h
  have hbody : readCallLines readFloat { st with inJson := true, json := [] }
      (lines (jsonText j ++ [newline])) =
        .ok { st with inJson := true, json := jsonText j ++ [newline] } := by
    rw [readCallLines_json rfl hl, unlines_lines]
    rfl
  have hp : parse readFloat (jsonText j ++ [newline]) = .ok j :=
    parse_jsonText h (white_singleton (by decide))
  refine ⟨jsonText j ++ [newline], ?_⟩
  rw [fenceLines, readCallLines, hopen]
  change readCallLines readFloat { st with inJson := true, json := [] } _ = _
  rw [readCallLines_append, hbody]
  change readCallLines readFloat { st with inJson := true, json := jsonText j ++ [newline] }
    [bytes "```"] = _
  rw [readCallLines, hclose _ rfl hp]
  rfl

/-- The calls read so far, with the one that is still open. -/
def flushed (st : CallReader) : List LlmToolCall :=
  if st.inCall then st.calls ++ [st.current] else st.calls

/-- Outside a fence; the first call starts without arguments. -/
structure Fresh (st : CallReader) : Prop where
  notJson : st.inJson = false
  args : st.inCall = false → st.current.args = .null

/-- What becomes of a call. -/
def readBack (tc : LlmToolCall) : LlmToolCall :=
  ⟨(readCallHeading (callTitle tc)).2, (readCallHeading (callTitle tc)).1,
    if tc.args.empty then .null else tc.args⟩

theorem readCallLine_blank {st : CallReader} (h : st.inJson = false) :
    readCallLine readFloat st [] = .ok st := by
  rw [readCallLine, if_neg (by decide), if_neg (by decide), if_neg fun hc => by simp [h] at hc,
    if_neg (by simp [h])]

theorem readCallLine_heading (st : CallReader) (title : Bytes) :
    readCallLine readFloat st (bytes "### tool_call: " ++ title) =
      .ok { st with
        calls := flushed st
        inCall := true
        current := ⟨(readCallHeading title).2, (readCallHeading title).1,
          if st.inCall then .null else st.current.args⟩ } := by
  have htake : (bytes "### tool_call: " ++ title).take 14 = callMarker := rfl
  have hlen : ¬ (bytes "### tool_call: " ++ title).length < 15 := by
    rw [List.length_append, show (bytes "### tool_call: ").length = 15 by decide]
    omega
  have hdrop : (bytes "### tool_call: " ++ title).drop 15 = title := rfl
  rw [readCallLine, if_pos htake, if_neg hlen, hdrop]
  rfl

theorem readCallLines_call {st : CallReader} (hf : Fresh st) {tc : LlmToolCall}
    (h : Storable readFloat tc.args) :
    ∃ st', readCallLines readFloat st (callLines tc) = .ok st' ∧ Fresh st' ∧
      flushed st' = flushed st ++ [readBack tc] := by
  have hargs : (if st.inCall then Json.null else st.current.args) = .null := by
    split_ifs with hc
    · rfl
    · exact hf.args (by simpa using hc)
  unfold callLines
  rw [readCallLines, readCallLine_heading, hargs]
  change ∃ st', readCallLines readFloat { st with
    calls := flushed st
    inCall := true
    current := ⟨(readCallHeading (callTitle tc)).2, (readCallHeading (callTitle tc)).1, .null⟩ } _ =
      .ok st' ∧ _
  have hblank : readCallLine readFloat { st with
    calls := flushed st
    inCall := true
    current := ⟨(readCallHeading (callTitle tc)).2,
      (readCallHeading (callTitle tc)).1, .null⟩ } [] =
      .ok _ := readCallLine_blank hf.notJson
  rw [readCallLines, hblank]
  change ∃ st', readCallLines readFloat { st with
    calls := flushed st
    inCall := true
    current := ⟨(readCallHeading (callTitle tc)).2, (readCallHeading (callTitle tc)).1, .null⟩ } _ =
      .ok st' ∧ _
  split_ifs with he
  · refine ⟨_, rfl, ⟨hf.notJson, by simp⟩, ?_⟩
    simp [flushed, readBack, he]
  · obtain ⟨json, hj⟩ := readCallLines_fence { st with
      calls := flushed st
      inCall := true
      current := ⟨(readCallHeading (callTitle tc)).2, (readCallHeading (callTitle tc)).1, .null⟩ } h
    refine ⟨_, hj, ⟨rfl, by simp⟩, ?_⟩
    simp [flushed, readBack, he]

theorem readCallLines_calls {st : CallReader} (hf : Fresh st) {tcs : List LlmToolCall}
    (h : ∀ tc ∈ tcs, Storable readFloat tc.args) :
    ∃ st', readCallLines readFloat st (callsLines tcs) = .ok st' ∧ Fresh st' ∧
      flushed st' = flushed st ++ tcs.map readBack := by
  induction tcs generalizing st with
  | nil => exact ⟨st, rfl, hf, by simp⟩
  | cons tc tcs ih =>
    obtain ⟨st₁, h₁, hf₁, hc₁⟩ := readCallLines_call hf (h tc (by simp))
    obtain ⟨st₂, h₂, hf₂, hc₂⟩ := ih hf₁ fun x hx => h x (List.mem_cons_of_mem tc hx)
    refine ⟨st₂, ?_, hf₂, by rw [hc₂, hc₁]; simp⟩
    rw [callsLines, List.flatMap_cons, List.cons_append, readCallLines,
      readCallLine_blank hf.notJson]
    change readCallLines readFloat st (callLines tc ++ callsLines tcs) = _
    rw [readCallLines_append, h₁]
    exact h₂

/-- No name or id contains a newline. -/
def OneLine (tcs : List LlmToolCall) : Prop :=
  ∀ tc ∈ tcs, newline ∉ tc.name ∧ newline ∉ tc.id

theorem callsLines_newline {tcs : List LlmToolCall} (h : OneLine tcs) :
    ∀ l ∈ callsLines tcs, newline ∉ l := by
  intro l hl
  obtain ⟨tc, htc, hl⟩ := List.mem_flatMap.mp hl
  obtain ⟨hname, hid⟩ := h tc htc
  rcases List.mem_cons.mp hl with rfl | hl
  · simp
  rcases List.mem_cons.mp hl with rfl | hl
  · have htitle : newline ∉ callTitle tc := by
      unfold callTitle
      simp only [List.mem_append, hname, false_or]
      split_ifs
      · simp
      · simp only [List.mem_append, hid, or_false, not_or]
        decide
    simp only [List.mem_append, htitle, or_false]
    decide
  rcases List.mem_cons.mp hl with rfl | hl
  · simp
  split_ifs at hl
  · cases hl
  · exact newline_not_mem_fenceLines _ l hl

/-- The calls of a block that starts with one: written lines, then blank ones. -/
theorem readCalls_callLines {tc : LlmToolCall} {tcs : List LlmToolCall}
    (hline : OneLine (tc :: tcs)) (h : ∀ x ∈ tc :: tcs, Storable readFloat x.args)
    {n : ℕ} : readCalls readFloat (unlines (callLines tc ++ callsLines tcs) ++
      List.replicate n newline) = .ok ((tc :: tcs).map readBack) := by
  have hnl := callsLines_newline hline
  rw [callsLines, List.flatMap_cons] at hnl
  have hall : ∀ l ∈ callLines tc ++ callsLines tcs, newline ∉ l :=
    fun l hl => hnl l (List.mem_cons_of_mem [] hl)
  have hblank : lines (List.replicate n newline) = List.replicate n [] := by
    induction n with
    | zero => rfl
    | succ n ih => rw [List.replicate_succ, lines, if_pos rfl, ih, List.replicate_succ]
  have hstart : Fresh {} := ⟨rfl, fun _ => rfl⟩
  obtain ⟨st₁, h₁, hf₁, hc₁⟩ := readCallLines_call hstart (h tc (by simp))
  obtain ⟨st₂, h₂, hf₂, hc₂⟩ := readCallLines_calls hf₁ fun x hx => h x (List.mem_cons_of_mem tc hx)
  have hrest : ∀ m, readCallLines readFloat st₂ (List.replicate m []) = .ok st₂ := by
    intro m
    induction m with
    | zero => rfl
    | succ m ih =>
      rw [List.replicate_succ, readCallLines, readCallLine_blank hf₂.notJson]
      exact ih
  rw [readCalls, lines_unlines_append hall, hblank, readCallLines_append, readCallLines_append, h₁]
  change Except.map flushed ((readCallLines readFloat st₁ (callsLines tcs)).bind fun st =>
    readCallLines readFloat st (List.replicate n [])) = _
  rw [h₂]
  change Except.map flushed (readCallLines readFloat st₂ (List.replicate n [])) = _
  rw [hrest]
  change Except.ok (flushed st₂) = _
  rw [hc₂, hc₁]
  simp [flushed]

theorem readBack_eq_iff (tc : LlmToolCall) :
    readBack tc = tc ↔ PlainNames tc.name tc.id ∧ (tc.args.empty = true → tc.args = .null) := by
  rw [← readCallHeading_iff]
  constructor
  · intro h
    refine ⟨Prod.ext (congrArg LlmToolCall.name h) (congrArg LlmToolCall.id h), fun he => ?_⟩
    have hargs := congrArg LlmToolCall.args h
    rw [readBack, if_pos he] at hargs
    exact hargs.symm
  · rintro ⟨h, hargs⟩
    unfold readBack
    rw [h]
    split_ifs with he
    · rw [← hargs he]
    · rfl

section OneLine

variable {readFloat : Bytes → Option NumberText}

theorem newline_not_mem_between {t : Bytes} (h : newline ∉ t) (s e : ℕ) :
    newline ∉ between s e t := by
  unfold between
  split_ifs
  · exact fun hm => h (List.mem_of_mem_drop (List.mem_of_mem_take hm))
  · exact fun hm => h (List.mem_of_mem_drop hm)

theorem newline_not_mem_trimRight {t : Bytes} (h : newline ∉ t) (ws : Bytes) :
    newline ∉ trimRight ws t := fun hm => h ((List.rdropWhile_prefix _ _).subset hm)

theorem readCallHeading_newline {t : Bytes} (h : newline ∉ t) :
    newline ∉ (readCallHeading t).1 ∧ newline ∉ (readCallHeading t).2 := by
  unfold readCallHeading
  split
  · refine ⟨newline_not_mem_trimRight ?_ _, newline_not_mem_between h _ _⟩
    split_ifs
    · exact h
    · exact fun hm => h (List.mem_of_mem_take hm)
  · exact ⟨newline_not_mem_trimRight h _, by simp⟩

theorem readToolNames_newline {t : Bytes} (h : newline ∉ t) :
    newline ∉ (readToolNames t).1 ∧ newline ∉ (readToolNames t).2 := by
  unfold readToolNames
  split
  · refine ⟨newline_not_mem_between h _ _, ?_⟩
    dsimp only
    split_ifs
    · exact fun hm => h (List.mem_of_mem_drop hm)
    · simp
  · exact ⟨by simp, by simp⟩

theorem readCallLine_oneLine {st st' : CallReader} {l : Bytes} (hl : newline ∉ l)
    (h : readCallLine readFloat st l = .ok st') (hc : OneLine (st.current :: st.calls)) :
    OneLine (st'.current :: st'.calls) := by
  obtain ⟨hcur, hcalls⟩ := List.forall_mem_cons.mp hc
  obtain ⟨hname, hid⟩ := readCallHeading_newline (t := l.drop 15)
    fun hm => hl (List.mem_of_mem_drop hm)
  unfold readCallLine at h
  split_ifs at h
  · obtain rfl := Except.ok.inj h
    refine List.forall_mem_cons.mpr ⟨⟨hname, hid⟩, fun tc htc => ?_⟩
    rcases List.mem_append.mp htc with htc | htc
    · exact hcalls tc htc
    · rwa [List.mem_singleton.mp htc]
  · obtain rfl := Except.ok.inj h
    exact List.forall_mem_cons.mpr ⟨⟨hname, hid⟩, hcalls⟩
  · obtain rfl := Except.ok.inj h
    exact hc
  · obtain rfl := Except.ok.inj h
    exact List.forall_mem_cons.mpr ⟨hcur, hcalls⟩
  · obtain rfl := Except.ok.inj h
    exact hc
  · obtain rfl := Except.ok.inj h
    exact hc

theorem readCallLines_oneLine {st st' : CallReader} {ls : List Bytes} (hl : ∀ l ∈ ls, newline ∉ l)
    (h : readCallLines readFloat st ls = .ok st') (hc : OneLine (st.current :: st.calls)) :
    OneLine (st'.current :: st'.calls) := by
  induction ls generalizing st with
  | nil =>
    obtain rfl := Except.ok.inj h
    exact hc
  | cons l ls ih =>
    obtain ⟨st₁, h₁, h₂⟩ := bind_eq_ok.mp h
    exact ih (fun x hx => hl x (List.mem_cons_of_mem l hx)) h₂
      (readCallLine_oneLine (hl l (by simp)) h₁ hc)

/-- Names and ids that are read are within one line. -/
theorem readCalls_oneLine {s : Bytes} {tcs : List LlmToolCall}
    (h : readCalls readFloat s = .ok tcs) : OneLine tcs := by
  obtain ⟨st, hst, rfl⟩ := map_eq_ok.mp h
  have hstart : OneLine [⟨[], [], .null⟩] := by simp [OneLine]
  have hc := readCallLines_oneLine (newline_not_mem_lines s) hst hstart
  obtain ⟨hcur, hcalls⟩ := List.forall_mem_cons.mp hc
  split_ifs
  · intro tc htc
    rcases List.mem_append.mp htc with htc | htc
    · exact hcalls tc htc
    · rwa [List.mem_singleton.mp htc]
  · exact hcalls

end OneLine

end Calls

end CallRoundTrip
