import TizenClaw.JsonScan

/-! A text that parses is a sequence of tokens and well-formed UTF-8, and so are all strings of its
value. -/
namespace JsonParseUtf8

open ByteString JsonValue JsonDump JsonParse JsonTokens JsonScan

theorem leadRanges_ofNat : ∀ x < 256, Utf8.leadRanges (UInt8.ofNat x) =
    if x ≤ 0x7F then some []
    else if 0xC2 ≤ x ∧ x ≤ 0xDF then some [(0x80, 0xBF)]
    else if x = 0xE0 then some [(0xA0, 0xBF), (0x80, 0xBF)]
    else if x = 0xED then some [(0x80, 0x9F), (0x80, 0xBF)]
    else if 0xE1 ≤ x ∧ x ≤ 0xEF then some [(0x80, 0xBF), (0x80, 0xBF)]
    else if x = 0xF0 then some [(0x90, 0xBF), (0x80, 0xBF), (0x80, 0xBF)]
    else if 0xF1 ≤ x ∧ x ≤ 0xF3 then some [(0x80, 0xBF), (0x80, 0xBF), (0x80, 0xBF)]
    else if x = 0xF4 then some [(0x80, 0x8F), (0x80, 0xBF), (0x80, 0xBF)]
    else none := by decide +kernel

theorem step_ofNat {lo hi : UInt8} {p : List Utf8.Range} {x : ℕ} (hx : x < 256)
    (hl : lo.toNat ≤ x) (hh : x ≤ hi.toNat) :
    Utf8.step ((lo, hi) :: p) (UInt8.ofNat x) = some p := by
  have h : (UInt8.ofNat x).toNat = x := by simp; omega
  simp [Utf8.step, UInt8.le_iff_toNat_le, h, hl, hh]

theorem encodeUtf8_valid {cp : ℕ} (h : cp < 0x110000) (hs : ¬ (0xD800 ≤ cp ∧ cp ≤ 0xDFFF)) :
    Utf8.valid (encodeUtf8 cp) = true := by
  rw [Utf8.valid_iff]
  unfold encodeUtf8
  split_ifs with h1 h2 h3
  · rw [Utf8.run_cons, Utf8.step, leadRanges_ofNat _ (by omega)]
    simp [show cp ≤ 0x7F by omega]
  · rw [Utf8.run_cons, Utf8.step, leadRanges_ofNat _ (by omega)]
    rw [if_neg (by omega), if_pos (by omega), Option.bind_some, Utf8.run_cons,
      step_ofNat (by omega) (by simp) (by simp; omega)]
    rfl
  · rw [Utf8.run_cons, Utf8.step, leadRanges_ofNat _ (by omega)]
    rw [if_neg (by omega), if_neg (by omega)]
    split_ifs with e0 ed e1
    · rw [Option.bind_some, Utf8.run_cons, step_ofNat (by omega) (by simp; omega) (by simp; omega),
        Option.bind_some, Utf8.run_cons, step_ofNat (by omega) (by simp) (by simp; omega)]
      rfl
    · rw [Option.bind_some, Utf8.run_cons, step_ofNat (by omega) (by simp) (by simp; omega),
        Option.bind_some, Utf8.run_cons, step_ofNat (by omega) (by simp) (by simp; omega)]
      rfl
    · rw [Option.bind_some, Utf8.run_cons, step_ofNat (by omega) (by simp) (by simp; omega),
        Option.bind_some, Utf8.run_cons, step_ofNat (by omega) (by simp) (by simp; omega)]
      rfl
    all_goals omega
  · rw [Utf8.run_cons, Utf8.step, leadRanges_ofNat _ (by omega)]
    rw [if_neg (by omega), if_neg (by omega), if_neg (by omega), if_neg (by omega),
      if_neg (by omega)]
    split_ifs with f0 f1 f4
    · rw [Option.bind_some, Utf8.run_cons, step_ofNat (by omega) (by simp; omega) (by simp; omega),
        Option.bind_some, Utf8.run_cons, step_ofNat (by omega) (by simp) (by simp; omega),
        Option.bind_some, Utf8.run_cons, step_ofNat (by omega) (by simp) (by simp; omega)]
      rfl
    · rw [Option.bind_some, Utf8.run_cons, step_ofNat (by omega) (by simp) (by simp; omega),
        Option.bind_some, Utf8.run_cons, step_ofNat (by omega) (by simp) (by simp; omega),
        Option.bind_some, Utf8.run_cons, step_ofNat (by omega) (by simp) (by simp; omega)]
      rfl
    · rw [Option.bind_some, Utf8.run_cons, step_ofNat (by omega) (by simp) (by simp; omega),
        Option.bind_some, Utf8.run_cons, step_ofNat (by omega) (by simp) (by simp; omega),
        Option.bind_some, Utf8.run_cons, step_ofNat (by omega) (by simp) (by simp; omega)]
      rfl
    all_goals omega

theorem hexValue_some {b : UInt8} {d : ℕ} (h : hexValue b = some d) : b ≤ 0x7F ∧ d < 16 := by
  unfold hexValue isDigit at h
  simp only [UInt8.le_iff_toNat_le, Bool.decide_and, Bool.and_eq_true, decide_eq_true_eq] at h ⊢
  split_ifs at h with h1 h2 h3
  all_goals
    obtain rfl := Option.some.inj h
    simp only [UInt8.reduceToNat] at *
    omega

/-- What the scanner has left open in the text and, equally, in the string it builds. -/
def pendingOf : StringMode → List Utf8.Range
  | .text p => p
  | _ => []

def HighSurrogate (h : ℕ) : Prop := 0xD800 ≤ h ∧ h ≤ 0xDBFF

def ModeInvariant : StringMode → Prop
  | .hex high left v => 1 ≤ left ∧ left ≤ 4 ∧ v < 16 ^ (4 - left) ∧ ∀ h ∈ high, HighSurrogate h
  | .low h _ => HighSurrogate h
  | _ => True

theorem finishHex_sound {high : Option ℕ} {v : ℕ} {m : StringMode} {out : Bytes}
    (hv : v < 16 ^ 4) (hh : ∀ h ∈ high, HighSurrogate h) (he : finishHex high v = some (m, out)) :
    ModeInvariant m ∧ pendingOf m = [] ∧ Utf8.valid out = true := by
  cases high with
  | none =>
    simp only [finishHex] at he
    split_ifs at he with h1 h2
    · obtain ⟨rfl, rfl⟩ := Prod.mk.inj (Option.some.inj he)
      exact ⟨h1, rfl, rfl⟩
    · obtain ⟨rfl, rfl⟩ := Prod.mk.inj (Option.some.inj he)
      exact ⟨trivial, rfl, encodeUtf8_valid (by omega) (by omega)⟩
  | some h =>
    have hs : HighSurrogate h := hh h rfl
    unfold HighSurrogate at hs
    simp only [finishHex] at he
    split_ifs at he with h1
    obtain ⟨rfl, rfl⟩ := Prod.mk.inj (Option.some.inj he)
    exact ⟨trivial, rfl, encodeUtf8_valid (by omega) (by omega)⟩

/-- One step of the scanner moves the text and the string alike. -/
theorem stringStep_sound {m m' : StringMode} {b : UInt8} {out : Bytes} (hm : ModeInvariant m)
    (h : stringStep m b = some (m', out)) :
    ModeInvariant m' ∧ Utf8.run (pendingOf m) [b] = some (pendingOf m') ∧
      Utf8.run (pendingOf m) out = some (pendingOf m') := by
  have ascii : ∀ c : UInt8, c ≤ 0x7F → Utf8.run [] [c] = some [] := by
    intro c hc
    simp [Utf8.run_cons, Utf8.step_ascii hc]
  cases m with
  | text p =>
    simp only [stringStep] at h
    split_ifs at h with h1 h2
    · obtain ⟨rfl, rfl⟩ := h2
      obtain ⟨rfl, rfl⟩ := Prod.mk.inj (Option.some.inj h)
      exact ⟨trivial, ascii _ (by decide), rfl⟩
    · obtain ⟨q, hq, he⟩ := Option.map_eq_some_iff.mp h
      obtain ⟨rfl, rfl⟩ := Prod.mk.inj he
      have hr : Utf8.run p [b] = some q := by simp [Utf8.run_cons, hq]
      exact ⟨trivial, hr, hr⟩
  | escape =>
    simp only [stringStep] at h
    split_ifs at h with h1
    · obtain ⟨rfl, rfl⟩ := Prod.mk.inj (Option.some.inj h)
      subst b
      exact ⟨by simp [ModeInvariant], ascii _ (by decide), rfl⟩
    · obtain ⟨c, hc, he⟩ := Option.map_eq_some_iff.mp h
      obtain ⟨rfl, rfl⟩ := Prod.mk.inj he
      exact ⟨trivial, ascii _ (unescape_some hc).1, ascii _ (unescape_some hc).2⟩
  | hex high left v =>
    obtain ⟨hl, hl', hv, hh⟩ := hm
    obtain ⟨d, hd, he⟩ := Option.bind_eq_some_iff.mp h
    have hb := hexValue_some hd
    have hv' : 16 * v + d < 16 ^ (4 - left + 1) := by rw [pow_succ]; omega
    split_ifs at he with h1
    · obtain ⟨rfl, rfl⟩ := Prod.mk.inj (Option.some.inj he)
      refine ⟨⟨by omega, by omega, ?_, hh⟩, ascii _ hb.1, rfl⟩
      rwa [show 4 - (left - 1) = 4 - left + 1 by omega]
    · obtain rfl : left = 1 := by omega
      obtain ⟨hi, hp, ho⟩ := finishHex_sound hv' hh he
      exact ⟨hi, by rw [hp]; exact ascii _ hb.1, by rw [hp]; exact (Utf8.valid_iff _).mp ho⟩
  | low high slash =>
    cases slash with
    | false =>
      simp only [stringStep] at h
      split_ifs at h with h1
      obtain ⟨rfl, rfl⟩ := Prod.mk.inj (Option.some.inj h)
      subst b
      exact ⟨hm, ascii _ (by decide), rfl⟩
    | true =>
      simp only [stringStep] at h
      split_ifs at h with h1
      obtain ⟨rfl, rfl⟩ := Prod.mk.inj (Option.some.inj h)
      subst b
      refine ⟨⟨by decide, by decide, by decide, ?_⟩, ascii _ (by decide), rfl⟩
      intro h hh
      obtain rfl := Option.some.inj hh
      exact hm

theorem readString_sound {s t r : Bytes} {m : StringMode} (hm : ModeInvariant m)
    (h : readString m s = some (t, r)) :
    ∃ c, s = c ++ r ∧ Utf8.run (pendingOf m) c = some [] ∧
      Utf8.run (pendingOf m) t = some [] := by
  induction s generalizing m t with
  | nil => simp [readString] at h
  | cons b s ih =>
    unfold readString at h
    split_ifs at h with h1
    · obtain ⟨rfl, rfl⟩ := h1
      obtain ⟨rfl, rfl⟩ := Prod.mk.inj (Option.some.inj h)
      exact ⟨[0x22], rfl, by decide, rfl⟩
    · obtain ⟨⟨m', out⟩, hstep, h⟩ := Option.bind_eq_some_iff.mp h
      obtain ⟨⟨t', r'⟩, hrest, he⟩ := Option.map_eq_some_iff.mp h
      obtain ⟨rfl, rfl⟩ := Prod.mk.inj he
      obtain ⟨hm', hb, ho⟩ := stringStep_sound hm hstep
      obtain ⟨c, rfl, hc, ht⟩ := ih hm' hrest
      refine ⟨b :: c, rfl, ?_, ?_⟩
      · rw [show b :: c = [b] ++ c from rfl, Utf8.run_append, hb]
        exact hc
      · rw [Utf8.run_append, ho]
        exact ht

theorem plain_ascii {b : UInt8} (h : isPlain b = true) : b ≤ 0x7F := by
  have hall : ∀ n < 256, isPlain (UInt8.ofNat n) = true → UInt8.ofNat n ≤ 0x7F := by decide +kernel
  have hb := hall b.toNat b.toNat_lt
  rw [UInt8.ofNat_toNat] at hb
  exact hb h

/-- The characters of a sequence of tokens are complete. -/
theorem tokens_valid {s : Bytes} (h : Tokens s) : Utf8.valid s = true := by
  induction h with
  | nil => rfl
  | @plain b s hb _ ih =>
    have hascii := Utf8.valid_ascii (s := [b]) (by simpa using plain_ascii hb)
    rw [← List.singleton_append, Utf8.valid_append hascii]
    exact ih
  | @string c t s hc _ ih =>
    obtain ⟨c', hc', hrun, -⟩ := readString_sound (m := .text []) trivial hc
    rw [List.append_nil] at hc'
    subst hc'
    have hquote : Utf8.valid [0x22] = true := by decide
    rw [← List.singleton_append, Utf8.valid_append hquote,
      Utf8.valid_append ((Utf8.valid_iff c).mpr hrun)]
    exact ih

/-- Where the scanner stands, the text of the string it is in is complete but for what is
pending. -/
def PlaceInvariant : Place → Prop
  | .outside => True
  | .inside m t => ModeInvariant m ∧ Utf8.run [] t = some (pendingOf m)

theorem scanStep_valid {p q : Place} {b : UInt8} {xs : List Bytes} (hp : PlaceInvariant p)
    (h : scanStep p b = some (xs, q)) : PlaceInvariant q ∧ ∀ k ∈ xs, Utf8.valid k = true := by
  cases p with
  | outside =>
    rw [scanStep] at h
    split_ifs at h
    · obtain ⟨rfl, rfl⟩ := Prod.mk.inj (Option.some.inj h)
      exact ⟨⟨trivial, rfl⟩, by simp⟩
    · obtain ⟨rfl, rfl⟩ := Prod.mk.inj (Option.some.inj h)
      exact ⟨trivial, by simp⟩
  | inside m t =>
    obtain ⟨hm, ht⟩ := hp
    rw [scanStep] at h
    split_ifs at h with h1
    · obtain ⟨rfl, rfl⟩ := Prod.mk.inj (Option.some.inj h)
      rw [h1.1] at ht
      exact ⟨trivial, by simpa using (Utf8.valid_iff t).mpr ht⟩
    · obtain ⟨⟨m', out⟩, hx, he⟩ := Option.map_eq_some_iff.mp h
      obtain ⟨rfl, rfl⟩ := Prod.mk.inj he
      obtain ⟨hm', -, hout⟩ := stringStep_sound hm hx
      refine ⟨⟨hm', ?_⟩, by simp⟩
      rw [Utf8.run_append, ht, Option.bind_some, hout]

theorem scan_valid {p q : Place} {s : Bytes} {ks : List Bytes} (hp : PlaceInvariant p)
    (h : scan p s = some (ks, q)) : PlaceInvariant q ∧ ∀ k ∈ ks, Utf8.valid k = true := by
  induction s generalizing p ks with
  | nil =>
    rw [scan_nil] at h
    obtain ⟨rfl, rfl⟩ := Prod.mk.inj (Option.some.inj h)
    exact ⟨hp, by simp⟩
  | cons b s ih =>
    obtain ⟨xs, p', ys, hstep, hrest, rfl⟩ := scan_cons_eq.mp h
    obtain ⟨hp', hxs⟩ := scanStep_valid hp hstep
    obtain ⟨hq, hys⟩ := ih hp' hrest
    exact ⟨hq, List.forall_mem_append.mpr ⟨hxs, hys⟩⟩

section Value

variable {ks : List Bytes}

mutual

theorem Within.utf8 (h : ∀ k ∈ ks, Utf8.valid k = true) :
    ∀ {j : Json}, Within ks j → j.utf8 = true
  | .null, _ | .bool _, _ | .int _, _ | .float _, _ => rfl
  | .str _, hj => by
    rw [Within] at hj
    rw [Json.utf8]
    exact h _ hj
  | .arr _, hj => by
    rw [Within] at hj
    rw [Json.utf8]
    exact WithinList.utf8 h hj
  | .obj _, hj => by
    rw [Within] at hj
    rw [Json.utf8]
    exact WithinMembers.utf8 h hj

theorem WithinList.utf8 (h : ∀ k ∈ ks, Utf8.valid k = true) :
    ∀ {l : List Json}, WithinList ks l → utf8List l = true
  | [], _ => rfl
  | _ :: _, hl => by
    rw [WithinList] at hl
    rw [utf8List, Within.utf8 h hl.1, WithinList.utf8 h hl.2]
    rfl

theorem WithinMembers.utf8 (h : ∀ k ∈ ks, Utf8.valid k = true) :
    ∀ {m : List (Bytes × Json)}, WithinMembers ks m → utf8Members m = true
  | [], _ => rfl
  | (_, _) :: _, hm => by
    rw [WithinMembers] at hm
    rw [utf8Members, h _ hm.1.1, Within.utf8 h hm.1.2.1, WithinMembers.utf8 h hm.2]
    rfl

end

end Value

section Parser

variable {readFloat : Bytes → Option NumberText}

/-- A text that parses is tokens, after a byte order mark that may stand before them. -/
theorem parse_tokens {s : Bytes} {j : Json} (h : parse readFloat s = .ok j) :
    Tokens s ∨ ∃ t, s = 0xEF :: 0xBB :: 0xBF :: t ∧ Tokens t := by
  obtain ⟨t, ks, rfl | rfl, hscan, -⟩ := parse_scan h
  · exact .inl (tokens_of_scan hscan)
  · exact .inr ⟨t, rfl, tokens_of_scan hscan⟩

/-- Acceptance certifies the encoding of the text and of the value. -/
theorem parse_utf8 {s : Bytes} {j : Json} (h : parse readFloat s = .ok j) :
    Utf8.valid s = true ∧ j.utf8 = true := by
  have hbom : Utf8.valid [0xEF, 0xBB, 0xBF] = true := by decide
  constructor
  · rcases parse_tokens h with ht | ⟨t, rfl, ht⟩
    · exact tokens_valid ht
    · exact (Utf8.valid_append hbom t).trans (tokens_valid ht)
  · obtain ⟨t, ks, -, hscan, hj⟩ := parse_scan h
    exact Within.utf8 (scan_valid (p := .outside) trivial hscan).2 hj

theorem parse_zero_not_mem {s : Bytes} {j : Json}
    (h : parse readFloat s = .ok j) : 0 ∉ s := by
  rcases parse_tokens h with ht | ⟨t, rfl, ht⟩
  · exact ht.zero_not_mem
  · simp only [List.mem_cons, not_or]
    exact ⟨by decide, by decide, by decide, ht.zero_not_mem⟩

theorem not_parse {d e : UInt8} {u : Bytes}
    (hd : isPlain d = false) (hu : 0x22 ∉ d :: u) (he : e < 0x20)
    (hbom : d ∉ ([0xEF, 0xBB, 0xBF] : Bytes)) (l x : Bytes) (j : Json) :
    parse readFloat (l ++ d :: (u ++ e :: x)) ≠ .ok j := by
  intro h
  rcases parse_tokens h with ht | ⟨t, hs, ht⟩
  · exact not_tokens hd hu he l x ht
  · simp only [List.mem_cons, List.not_mem_nil, or_false, not_or] at hbom
    match l, hs with
    | [], hs => exact hbom.1 (List.cons.inj hs).1
    | [_], hs => exact hbom.2.1 (List.cons.inj (List.cons.inj hs).2).1
    | [_, _], hs => exact hbom.2.2 (List.cons.inj (List.cons.inj (List.cons.inj hs).2).2).1
    | _ :: _ :: _ :: l, hs =>
      obtain rfl := (List.cons.inj (List.cons.inj (List.cons.inj hs).2).2).2
      exact not_tokens hd hu he l x ht

end Parser

end JsonParseUtf8
