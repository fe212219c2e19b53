import TizenClaw.JsonTokens
import Mathlib.Data.List.Infix

/-! The strings of a text in the order they stand in, read without a grammar, and that the values of
the parser are made of them. -/
namespace JsonScan

open ByteString JsonValue JsonParse JsonTokens

/-- Outside of strings, or in one with what has been read of it. -/
inductive Place where
  | outside
  | inside (m : StringMode) (text : Bytes)
  deriving DecidableEq

/-- The string that a byte completes, and where the next byte stands. -/
def scanStep : Place → UInt8 → Option (List Bytes × Place)
  | .outside, b =>
    if b = 0x22 then some ([], .inside (.text []) [])
    else if isPlain b then some ([], .outside)
    else none
  | .inside m t, b =>
    if m = .text [] ∧ b = 0x22 then some ([t], .outside)
    else (stringStep m b).map fun x => ([], .inside x.1 (t ++ x.2))

def scan : Place → Bytes → Option (List Bytes × Place)
  | p, [] => some ([], p)
  | p, b :: s => (scanStep p b).bind fun x => (scan x.2 s).map fun y => (x.1 ++ y.1, y.2)

/-- The parser moved from one text to a suffix of it, over these strings. -/
def Scans (s r : Bytes) (ks : List Bytes) : Prop :=
  ∃ c, s = c ++ r ∧ scan .outside c = some (ks, .outside)

section Scan

theorem scan_nil (p : Place) : scan p [] = some ([], p) := by
  rw [scan]

theorem scan_cons (p : Place) (b : UInt8) (s : Bytes) :
    scan p (b :: s) = (scanStep p b).bind fun x => (scan x.2 s).map fun y => (x.1 ++ y.1, y.2) := by
  rw [scan]

theorem scan_append (p : Place) (a b : Bytes) :
    scan p (a ++ b) = (scan p a).bind fun x => (scan x.2 b).map fun y => (x.1 ++ y.1, y.2) := by
  induction a generalizing p with
  | nil => cases h : scan p b <;> simp [scan_nil, h]
  | cons c a ih =>
    rw [List.cons_append, scan_cons, scan_cons]
    cases scanStep p c with
    | none => rfl
    | some x =>
      rw [Option.bind_some, ih, Option.bind_some]
      cases scan x.2 a with
      | none => rfl
      | some y =>
        rw [Option.bind_some, Option.map_some, Option.bind_some, Option.map_map]
        congr 1
        funext z
        simp

theorem scan_append_eq {p q : Place} {a b : Bytes} {ks : List Bytes} :
    scan p (a ++ b) = some (ks, q) ↔
      ∃ xs p' ys, scan p a = some (xs, p') ∧ scan p' b = some (ys, q) ∧ ks = xs ++ ys := by
  rw [scan_append, Option.bind_eq_some_iff]
  constructor
  · rintro ⟨⟨xs, p'⟩, ha, h⟩
    obtain ⟨⟨ys, q'⟩, hb, he⟩ := Option.map_eq_some_iff.mp h
    obtain ⟨rfl, rfl⟩ := Prod.mk.inj he
    exact ⟨xs, p', ys, ha, hb, rfl⟩
  · rintro ⟨xs, p', ys, ha, hb, rfl⟩
    exact ⟨(xs, p'), ha, Option.map_eq_some_iff.mpr ⟨(ys, q), hb, rfl⟩⟩

theorem scan_cons_eq {p q : Place} {b : UInt8} {s : Bytes} {ks : List Bytes} :
    scan p (b :: s) = some (ks, q) ↔
      ∃ xs p' ys, scanStep p b = some (xs, p') ∧ scan p' s = some (ys, q) ∧ ks = xs ++ ys := by
  have hb : ∀ xs p', scan p [b] = some (xs, p') ↔ scanStep p b = some (xs, p') := by
    intro xs p'
    rw [scan_cons]
    cases scanStep p b with
    | none => simp
    | some x => simp [scan_nil]
  rw [← List.singleton_append, scan_append_eq]
  simp only [hb]

/-- Bytes that can stand outside of strings are passed over. -/
theorem scan_plain {s : Bytes} (h : ∀ b ∈ s, isPlain b = true) :
    scan .outside s = some ([], .outside) := by
  induction s with
  | nil => exact scan_nil _
  | cons b s ih =>
    rw [List.forall_mem_cons] at h
    have hq : b ≠ 0x22 := by
      rintro rfl
      exact absurd h.1 (by decide)
    apply scan_cons_eq.mpr
    refine ⟨[], .outside, [], ?_, ih h.2, rfl⟩
    rw [scanStep, if_neg hq, if_pos h.1]

/-- A string is scanned as it is read. -/
theorem scan_readString {m : StringMode} {s t r : Bytes} (h : readString m s = some (t, r)) :
    ∃ c, s = c ++ r ∧ ∀ acc, scan (.inside m acc) c = some ([acc ++ t], .outside) := by
  induction s generalizing m t with
  | nil => simp [readString] at h
  | cons b s ih =>
    unfold readString at h
    split_ifs at h with h1
    · obtain ⟨rfl, rfl⟩ := Prod.mk.inj (Option.some.inj h)
      refine ⟨[b], rfl, fun acc => ?_⟩
      rw [List.append_nil]
      apply scan_cons_eq.mpr
      refine ⟨[acc], .outside, [], ?_, scan_nil _, rfl⟩
      rw [scanStep, if_pos h1]
    · obtain ⟨⟨m', out⟩, hstep, h⟩ := Option.bind_eq_some_iff.mp h
      obtain ⟨⟨t', r'⟩, hrest, he⟩ := Option.map_eq_some_iff.mp h
      obtain ⟨rfl, rfl⟩ := Prod.mk.inj he
      obtain ⟨c, rfl, hc⟩ := ih hrest
      refine ⟨b :: c, rfl, fun acc => ?_⟩
      apply scan_cons_eq.mpr
      refine ⟨[], .inside m' (acc ++ out), [acc ++ (out ++ t')], ?_, ?_, rfl⟩
      · rw [scanStep, if_neg h1, hstep]
        rfl
      · rw [hc (acc ++ out), List.append_assoc]

/-- What is scanned in a string up to its end is read as that string. -/
theorem readString_of_scan {m : StringMode} {acc c : Bytes} {ks : List Bytes}
    (h : scan (.inside m acc) c = some (ks, .outside)) :
    ∃ a b t ks', c = a ++ b ∧ readString m a = some (t, []) ∧ ks = (acc ++ t) :: ks' ∧
      scan .outside b = some (ks', .outside) := by
  induction c generalizing m acc with
  | nil =>
    rw [scan_nil] at h
    cases (Prod.mk.inj (Option.some.inj h)).2
  | cons b c ih =>
    obtain ⟨xs, p, ys, hstep, hrest, rfl⟩ := scan_cons_eq.mp h
    rw [scanStep] at hstep
    split_ifs at hstep with h1
    · obtain ⟨rfl, rfl⟩ := Prod.mk.inj (Option.some.inj hstep)
      refine ⟨[b], c, [], ys, rfl, ?_, ?_, hrest⟩
      · rw [readString, if_pos h1]
      · rw [List.append_nil, List.singleton_append]
    · obtain ⟨⟨m', out⟩, hs, he⟩ := Option.map_eq_some_iff.mp hstep
      obtain ⟨rfl, rfl⟩ := Prod.mk.inj he
      obtain ⟨a, b', t, ks', rfl, ha, rfl, hb⟩ := ih hrest
      refine ⟨b :: a, b', out ++ t, ks', rfl, ?_, ?_, hb⟩
      · rw [readString, if_neg h1, hs, Option.bind_some, ha]
        rfl
      · rw [List.nil_append, List.append_assoc]

/-- The strings of a text and the bytes between them are its tokens. -/
theorem tokens_of_scan {c : Bytes} {ks : List Bytes}
    (h : scan .outside c = some (ks, .outside)) : Tokens c := by
  induction hn : c.length using Nat.strong_induction_on generalizing c ks with
  | _ n ih =>
    subst hn
    cases c with
    | nil => exact .nil
    | cons b c =>
      obtain ⟨xs, p, ys, hstep, hrest, rfl⟩ := scan_cons_eq.mp h
      rw [scanStep] at hstep
      split_ifs at hstep with h1 h2
      · obtain ⟨rfl, rfl⟩ := Prod.mk.inj (Option.some.inj hstep)
        subst b
        obtain ⟨a, b', t, ks', rfl, ha, -, hb⟩ := readString_of_scan hrest
        refine .string ha (ih b'.length ?_ hb rfl)
        rw [List.length_cons, List.length_append]
        omega
      · obtain ⟨rfl, rfl⟩ := Prod.mk.inj (Option.some.inj hstep)
        exact .plain h2 (ih c.length (Nat.lt_succ_self _) hrest rfl)

end Scan

section Length

/-- The bytes read of an escape, but for the first. -/
def owed : StringMode → ℕ
  | .text _ | .escape => 0
  | .hex none left _ => 5 - left
  | .hex (some _) left _ => 11 - left
  | .low _ false => 5
  | .low _ true => 6

def credit : Place → ℕ
  | .outside => 0
  | .inside m t => t.length + owed m

theorem encodeUtf8_length (cp : ℕ) : (encodeUtf8 cp).length ≤ 4 := by
  unfold encodeUtf8
  split_ifs <;> simp

theorem finishHex_credit {high : Option ℕ} {v left : ℕ} {x : StringMode × Bytes} (hl : left ≤ 1)
    (h : finishHex high v = some x) (w : ℕ) :
    x.2.length + owed x.1 ≤ owed (.hex high left w) + 1 := by
  have hlen := encodeUtf8_length
  cases high with
  | none =>
    simp only [finishHex] at h
    split_ifs at h
    · obtain rfl := Option.some.inj h
      simp only [List.length_nil, owed]
      omega
    · obtain rfl := Option.some.inj h
      have := hlen v
      simp only [owed]
      omega
  | some w =>
    simp only [finishHex] at h
    split_ifs at h
    obtain rfl := Option.some.inj h
    have := hlen (0x10000 + (w - 0xD800) * 0x400 + (v - 0xDC00))
    simp only [owed]
    omega

/-- A byte of a string adds at most one byte to it. -/
theorem stringStep_credit {m : StringMode} {b : UInt8} {x : StringMode × Bytes}
    (h : stringStep m b = some x) : x.2.length + owed x.1 ≤ owed m + 1 := by
  cases m with
  | text p =>
    simp only [stringStep] at h
    split_ifs at h
    · obtain rfl := Option.some.inj h
      simp [owed]
    · obtain ⟨q, -, rfl⟩ := Option.map_eq_some_iff.mp h
      simp [owed]
  | escape =>
    simp only [stringStep] at h
    split_ifs at h
    · obtain rfl := Option.some.inj h
      simp [owed]
    · obtain ⟨c, -, rfl⟩ := Option.map_eq_some_iff.mp h
      simp [owed]
  | hex high left v =>
    obtain ⟨d, -, he⟩ := Option.bind_eq_some_iff.mp h
    split_ifs at he with hl
    · obtain rfl := Option.some.inj he
      cases high <;> simp only [List.length_nil, owed] <;> omega
    · exact finishHex_credit (Nat.not_lt.mp hl) he v
  | low w slash =>
    cases slash with
    | false =>
      simp only [stringStep] at h
      split_ifs at h
      obtain rfl := Option.some.inj h
      simp [owed]
    | true =>
      simp only [stringStep] at h
      split_ifs at h
      obtain rfl := Option.some.inj h
      simp [owed]

theorem scanStep_credit {p q : Place} {b : UInt8} {xs : List Bytes}
    (h : scanStep p b = some (xs, q)) :
    credit q ≤ credit p + 1 ∧ ∀ k ∈ xs, k.length ≤ credit p := by
  cases p with
  | outside =>
    rw [scanStep] at h
    split_ifs at h
    all_goals
      obtain ⟨rfl, rfl⟩ := Prod.mk.inj (Option.some.inj h)
      simp [credit, owed]
  | inside m t =>
    rw [scanStep] at h
    split_ifs at h with h1
    · obtain ⟨rfl, rfl⟩ := Prod.mk.inj (Option.some.inj h)
      simp [credit]
    · obtain ⟨x, hx, he⟩ := Option.map_eq_some_iff.mp h
      obtain ⟨rfl, rfl⟩ := Prod.mk.inj he
      have := stringStep_credit hx
      refine ⟨?_, by simp⟩
      simp only [credit, List.length_append]
      omega

/-- A string is shorter than the text it is read from. -/
theorem scan_credit {p q : Place} {s : Bytes} {ks : List Bytes} (h : scan p s = some (ks, q)) :
    credit q ≤ credit p + s.length ∧ ∀ k ∈ ks, k.length < credit p + s.length := by
  induction s generalizing p ks with
  | nil =>
    rw [scan_nil] at h
    obtain ⟨rfl, rfl⟩ := Prod.mk.inj (Option.some.inj h)
    simp
  | cons b s ih =>
    obtain ⟨xs, p', ys, hstep, hrest, rfl⟩ := scan_cons_eq.mp h
    obtain ⟨hc, hxs⟩ := scanStep_credit hstep
    obtain ⟨hq, hys⟩ := ih hrest
    rw [List.length_cons]
    refine ⟨by omega, fun k hk => ?_⟩
    rcases List.mem_append.mp hk with hk | hk
    · have := hxs k hk
      omega
    · have := hys k hk
      omega

end Length

section Text

/-- A byte that stands for itself in a string. -/
def Copies (esc : UInt8 → Bytes) (b : UInt8) : Prop := esc b = [b] ∧ b ≠ 0x22 ∧ b ≠ 0x5C

/-- A byte that an escape of two bytes stands for. -/
def Escapes (esc : UInt8 → Bytes) (b : UInt8) : Prop :=
  ∃ e, esc b = [0x5C, e] ∧ e ≠ 0x75 ∧ unescape e = some b

theorem not_step_ascii {p : List Utf8.Range} (hp : Utf8.Tails p) (hne : p ≠ []) {b : UInt8}
    (hb : b ≤ 0x7F) : Utf8.step p b = none := by
  cases p with
  | nil => exact absurd rfl hne
  | cons r p =>
    rw [Utf8.step, if_neg]
    rintro ⟨hr, -⟩
    exact absurd (UInt8.le_trans (hp r List.mem_cons_self) hr) (UInt8.not_le.mpr
      (UInt8.lt_of_le_of_lt hb (by decide)))

/-- A text with its quotes and backslashes escaped is scanned as itself, if no byte of it that is
copied is a control character. -/
theorem scan_text {esc : UInt8 → Bytes} {p : List Utf8.Range} {t s : Bytes} {ks : List Bytes}
    {q : Place} (hp : Utf8.Tails p) (hesc : ∀ b ∈ s, Copies esc b ∨ Escapes esc b)
    (h : scan (.inside (.text p) t) (s.flatMap esc) = some (ks, q)) :
    ks = [] ∧ (∀ b ∈ s, esc b = [b] → 0x20 ≤ b) ∧
      ∃ p', Utf8.run p s = some p' ∧ q = .inside (.text p') (t ++ s) := by
  induction s generalizing p t ks with
  | nil =>
    rw [List.flatMap_nil, scan_nil] at h
    obtain ⟨rfl, rfl⟩ := Prod.mk.inj (Option.some.inj h)
    exact ⟨rfl, by simp, p, rfl, by simp⟩
  | cons b s ih =>
    rw [List.forall_mem_cons] at hesc
    rw [List.flatMap_cons] at h
    obtain ⟨xs, p₁, ys, hb, hs, rfl⟩ := scan_append_eq.mp h
    -- one byte of the text
    have hbyte : xs = [] ∧ (esc b = [b] → 0x20 ≤ b) ∧
        ∃ p', Utf8.step p b = some p' ∧ p₁ = .inside (.text p') (t ++ [b]) := by
      rcases hesc.1 with ⟨hcopy, hquote, hslash⟩ | ⟨e, he, hu, hun⟩
      · rw [hcopy] at hb
        obtain ⟨xs₁, p₂, ys₁, hstep, hnil, rfl⟩ := scan_cons_eq.mp hb
        rw [scan_nil] at hnil
        obtain ⟨rfl, rfl⟩ := Prod.mk.inj (Option.some.inj hnil)
        rw [scanStep, if_neg fun hc => hquote hc.2] at hstep
        obtain ⟨x, hx, he⟩ := Option.map_eq_some_iff.mp hstep
        obtain ⟨rfl, rfl⟩ := Prod.mk.inj he
        have hge := stringStep_printable hx
        rw [stringStep, if_neg (UInt8.not_lt.mpr hge), if_neg fun hc => hslash hc.2] at hx
        obtain ⟨p', hp', rfl⟩ := Option.map_eq_some_iff.mp hx
        exact ⟨rfl, fun _ => hge, p', hp', rfl⟩
      · rw [he] at hb
        obtain ⟨xs₁, p₂, ys₁, hstep, hrest, rfl⟩ := scan_cons_eq.mp hb
        obtain ⟨xs₂, p₃, ys₂, hstep₂, hnil, rfl⟩ := scan_cons_eq.mp hrest
        rw [scan_nil] at hnil
        obtain ⟨rfl, rfl⟩ := Prod.mk.inj (Option.some.inj hnil)
        rw [scanStep, if_neg (by simp)] at hstep
        obtain ⟨x, hx, hxe⟩ := Option.map_eq_some_iff.mp hstep
        obtain ⟨rfl, rfl⟩ := Prod.mk.inj hxe
        have hnil : p = [] := by
          by_contra hne
          rw [stringStep, if_neg (by decide), if_neg fun hc => hne hc.1,
            not_step_ascii hp hne (by decide)] at hx
          cases hx
        subst hnil
        rw [stringStep, if_neg (by decide), if_pos ⟨rfl, rfl⟩] at hx
        obtain rfl := Option.some.inj hx
        rw [scanStep, if_neg (by simp), stringStep, if_neg hu, hun] at hstep₂
        obtain ⟨rfl, rfl⟩ := Prod.mk.inj (Option.some.inj hstep₂)
        refine ⟨rfl, ?_, [], ?_, by simp⟩
        · intro hcopy
          rw [he] at hcopy
          simp at hcopy
        · exact Utf8.step_ascii (unescape_some hun).2
    obtain ⟨rfl, hprint, p', hp', rfl⟩ := hbyte
    obtain ⟨rfl, hall, p'', hrun, rfl⟩ := ih (Utf8.step_tails hp hp') hesc.2 hs
    refine ⟨rfl, List.forall_mem_cons.mpr ⟨hprint, hall⟩, p'', ?_, by simp⟩
    rw [Utf8.run_cons, hp', Option.bind_some, hrun]

/-- Each quote and each backslash of the text takes more bytes than it gives. -/
theorem credit_lt {p : List Utf8.Range} {t s : Bytes} {ks : List Bytes} {q : Place}
    (hp : Utf8.Tails p) (h : scan (.inside (.text p) t) s = some (ks, q))
    (hs : 0x22 ∈ s ∨ 0x5C ∈ s) : credit q < t.length + s.length := by
  induction s generalizing p t ks with
  | nil => simp at hs
  | cons b s ih =>
    obtain ⟨xs, p', ys, hstep, hrest, rfl⟩ := scan_cons_eq.mp h
    have hle := (scan_credit hrest).1
    rw [List.length_cons]
    rw [scanStep] at hstep
    split_ifs at hstep with h1
    · obtain ⟨rfl, rfl⟩ := Prod.mk.inj (Option.some.inj hstep)
      have hout : credit .outside = 0 := rfl
      omega
    · obtain ⟨x, hx, he⟩ := Option.map_eq_some_iff.mp hstep
      obtain ⟨rfl, rfl⟩ := Prod.mk.inj he
      rw [stringStep] at hx
      split_ifs at hx with h2 h3
      · obtain rfl := Option.some.inj hx
        have hin : credit (.inside .escape (t ++ [])) = t.length := by simp [credit, owed]
        dsimp only at hle
        omega
      · obtain ⟨p', hp', rfl⟩ := Option.map_eq_some_iff.mp hx
        have hs : 0x22 ∈ s ∨ 0x5C ∈ s := by
          by_contra hno
          rw [not_or] at hno
          -- the byte itself is a quote or a backslash, inside of no character
          have hb : b = 0x22 ∨ b = 0x5C := by
            rcases hs with hs | hs
            · exact .inl ((List.mem_cons.mp hs).resolve_right hno.1).symm
            · exact .inr ((List.mem_cons.mp hs).resolve_right hno.2).symm
          have hne : p ≠ [] := by
            rintro rfl
            rcases hb with rfl | rfl
            · exact h1 ⟨rfl, rfl⟩
            · exact h3 ⟨rfl, rfl⟩
          rw [not_step_ascii hp hne (by rcases hb with rfl | rfl <;> decide)] at hp'
          cases hp'
        have := ih (Utf8.step_tails hp hp') hrest hs
        rw [List.length_append, List.length_singleton] at this
        omega

theorem flatMap_length_le {esc : UInt8 → Bytes} {s : Bytes}
    (hesc : ∀ b ∈ s, Copies esc b ∨ Escapes esc b) : (s.flatMap esc).length ≤ 2 * s.length := by
  induction s with
  | nil => exact le_refl 0
  | cons b s ih =>
    rw [List.forall_mem_cons] at hesc
    have hs := ih hesc.2
    have hb : (esc b).length ≤ 2 := by
      rcases hesc.1 with ⟨hcopy, -⟩ | ⟨e, he, -⟩
      · rw [hcopy]
        exact Nat.le_succ 1
      · rw [he]
        exact le_refl 2
    rw [List.flatMap_cons, List.length_append, List.length_cons]
    omega

theorem pending_nil_of_close {p : List Utf8.Range} (hp : Utf8.Tails p) {t s : Bytes}
    {ks : List Bytes} {q : Place} (h : scan (.inside (.text p) t) (0x22 :: s) = some (ks, q)) :
    p = [] := by
  by_contra hne
  obtain ⟨xs, p', ys, hstep, -, -⟩ := scan_cons_eq.mp h
  rw [scanStep, if_neg fun hc => hne (StringMode.text.inj hc.1), stringStep, if_neg (by decide),
    if_neg fun hc => hne hc.1, not_step_ascii hp hne (by decide)] at hstep
  cases hstep

theorem scan_close {t s : Bytes} {ks : List Bytes} {q : Place} :
    scan (.inside (.text []) t) (0x22 :: s) = some (ks, q) ↔
      ∃ ks', ks = t :: ks' ∧ scan .outside s = some (ks', q) := by
  have hstep : scanStep (.inside (.text []) t) 0x22 = some ([t], .outside) := rfl
  rw [scan_cons_eq, hstep]
  constructor
  · rintro ⟨xs, p, ys, hx, hs, rfl⟩
    obtain ⟨rfl, rfl⟩ := Prod.mk.inj (Option.some.inj hx)
    exact ⟨ys, rfl, hs⟩
  · rintro ⟨ks', rfl, hs⟩
    exact ⟨[t], .outside, ks', rfl, hs, rfl⟩

/-- An escaped text up to the quote behind it. -/
theorem scan_quoted {esc : UInt8 → Bytes} {s r : Bytes} {ks : List Bytes} {q : Place}
    (hesc : ∀ b ∈ s, Copies esc b ∨ Escapes esc b)
    (h : scan (.inside (.text []) []) (s.flatMap esc ++ 0x22 :: r) = some (ks, q)) :
    (∀ b ∈ s, esc b = [b] → 0x20 ≤ b) ∧ Utf8.valid s = true ∧
      ∃ ks', ks = s :: ks' ∧ scan .outside r = some (ks', q) := by
  have htails : Utf8.Tails [] := by simp [Utf8.Tails]
  obtain ⟨xs, p, ys, hs, hr, rfl⟩ := scan_append_eq.mp h
  obtain ⟨rfl, hprint, p', hrun, rfl⟩ := scan_text htails hesc hs
  obtain rfl := pending_nil_of_close (Utf8.run_tails htails hrun) hr
  obtain ⟨ks', rfl, hrest⟩ := scan_close.mp hr
  exact ⟨hprint, (Utf8.valid_iff s).mpr hrun, ks', rfl, hrest⟩

end Text

section Value

mutual

/-- A value whose strings are among these, the key of a string right before it. -/
def Within (ks : List Bytes) : Json → Prop
  | .str s => s ∈ ks
  | .arr l => WithinList ks l
  | .obj m => WithinMembers ks m
  | _ => True

def WithinList (ks : List Bytes) : List Json → Prop
  | [] => True
  | x :: xs => Within ks x ∧ WithinList ks xs

def WithinMembers (ks : List Bytes) : List (Bytes × Json) → Prop
  | [] => True
  | (k, x) :: m =>
    (k ∈ ks ∧ Within ks x ∧ ∀ s, x = .str s → [k, s] <:+: ks) ∧ WithinMembers ks m

end

variable {ks ks' : List Bytes}

theorem withinMembers_iff {m : List (Bytes × Json)} :
    WithinMembers ks m ↔
      ∀ e ∈ m, e.1 ∈ ks ∧ Within ks e.2 ∧ ∀ s, e.2 = .str s → [e.1, s] <:+: ks := by
  induction m with
  | nil => simp [WithinMembers]
  | cons e m ih => rw [List.forall_mem_cons, ← ih, WithinMembers]

mutual

theorem Within.mono (h : ks <:+: ks') : ∀ {j : Json}, Within ks j → Within ks' j
  | .null, _ | .bool _, _ | .int _, _ | .float _, _ => trivial
  | .str _, hj => by
    rw [Within] at hj ⊢
    exact h.subset hj
  | .arr _, hj => by
    rw [Within] at hj ⊢
    exact WithinList.mono h hj
  | .obj _, hj => by
    rw [Within] at hj ⊢
    exact WithinMembers.mono h hj

theorem WithinList.mono (h : ks <:+: ks') : ∀ {l : List Json}, WithinList ks l → WithinList ks' l
  | [], _ => trivial
  | _ :: _, hl => by
    rw [WithinList] at hl ⊢
    exact ⟨Within.mono h hl.1, WithinList.mono h hl.2⟩

theorem WithinMembers.mono (h : ks <:+: ks') :
    ∀ {m : List (Bytes × Json)}, WithinMembers ks m → WithinMembers ks' m
  | [], _ => trivial
  | (_, _) :: _, hm => by
    rw [WithinMembers] at hm ⊢
    obtain ⟨⟨hk, hx, hp⟩, hm⟩ := hm
    exact ⟨⟨h.subset hk, Within.mono h hx, fun s hs => (hp s hs).trans h⟩, WithinMembers.mono h hm⟩

end

/-- A member and its key. -/
theorem Within.member {j v : Json} {k : Bytes} (h : Within ks j) (hv : j.member? k = some v) :
    Within ks v ∧ ∀ s, v = .str s → [k, s] <:+: ks := by
  cases j with
  | obj m =>
    have hmem : (k, v) ∈ m := by
      obtain ⟨l₁, l₂, rfl, -⟩ := List.lookup_eq_some_iff.mp hv
      exact List.mem_append_right l₁ List.mem_cons_self
    rw [Within, withinMembers_iff] at h
    exact (h (k, v) hmem).2
  | _ => cases hv

theorem mem_ofMembers {m : List (Bytes × Json)} {e : Bytes × Json} (h : e ∈ ofMembers m) :
    e ∈ m := by
  suffices H : ∀ acc, e ∈ m.foldl (fun acc kv => insertMember kv.1 kv.2 acc) acc →
      e ∈ acc ∨ e ∈ m from (H [] h).resolve_left List.not_mem_nil
  clear h
  induction m with
  | nil => exact fun acc h => .inl h
  | cons x m ih =>
    intro acc h
    rcases ih _ h with h | h
    · rcases mem_insertMember h with rfl | h
      · exact .inr List.mem_cons_self
      · exact .inl h
    · exact .inr (List.mem_cons_of_mem _ h)

theorem within_object {m : List (Bytes × Json)} (h : WithinMembers ks m) :
    Within ks (.object m) := by
  rw [Json.object, Within, withinMembers_iff]
  intro e he
  exact withinMembers_iff.mp h e (mem_ofMembers he)

end Value

section Parser

variable {readFloat : Bytes → Option NumberText}

theorem Scans.refl (s : Bytes) : Scans s s [] := ⟨[], rfl, scan_nil _⟩

theorem Scans.trans {a b c : Bytes} {ks ks' : List Bytes} (h : Scans a b ks) (k : Scans b c ks') :
    Scans a c (ks ++ ks') := by
  obtain ⟨x, rfl, hx⟩ := h
  obtain ⟨y, rfl, hy⟩ := k
  exact ⟨x ++ y, by simp, scan_append_eq.mpr ⟨ks, .outside, ks', hx, hy, rfl⟩⟩

theorem Scans.cons {b : UInt8} {s r : Bytes} {ks : List Bytes} (hb : isPlain b = true)
    (h : Scans s r ks) : Scans (b :: s) r ks := by
  have hb : Scans (b :: s) s [] := ⟨[b], rfl, scan_plain (List.forall_mem_singleton.mpr hb)⟩
  exact hb.trans h

theorem scans_dropWhile {p : UInt8 → Bool} (hp : ∀ b, p b = true → isPlain b = true) (s : Bytes) :
    Scans s (s.dropWhile p) [] :=
  ⟨s.takeWhile p, (List.takeWhile_append_dropWhile).symm, scan_plain fun b hb =>
    hp b (List.mem_takeWhile_imp hb)⟩

theorem scans_whitespace (s : Bytes) : Scans s (skipWhitespace s) [] :=
  scans_dropWhile (fun b hb => by simp [isPlain, hb]) s

theorem scans_number (s : Bytes) : Scans s (s.dropWhile isNumberChar) [] :=
  scans_dropWhile (fun b hb => by simp [isPlain, hb]) s

theorem scans_literal {p s : Bytes} (hp : ∀ b ∈ p, isPlain b = true)
    (h : p.isPrefixOf s = true) : Scans s (s.drop p.length) [] := by
  obtain ⟨r, rfl⟩ := List.isPrefixOf_iff_prefix.mp h
  exact ⟨p, by simp, scan_plain hp⟩

theorem scans_string {s t r : Bytes} (h : readString (.text []) s = some (t, r)) :
    Scans (0x22 :: s) r [t] := by
  obtain ⟨c, rfl, hc⟩ := scan_readString h
  exact ⟨0x22 :: c, rfl, scan_cons_eq.mpr ⟨[], .inside (.text []) [], [t], rfl, hc [], rfl⟩⟩

/-- The strings of a text that one value is made of: a value that is a string is the only one. -/
def Holds (ks : List Bytes) (j : Json) : Prop := Within ks j ∧ ∀ s, j = .str s → ks = [s]

theorem holds_numberOf {t : Bytes} {j : Json} (h : numberOf readFloat t = some j) : Holds [] j := by
  unfold numberOf at h
  split at h
  · cases h
  · obtain ⟨x, _, rfl⟩ := Option.map_eq_some_iff.mp h
    exact ⟨trivial, by simp⟩
  · split_ifs at h
    · obtain rfl := Option.some.inj h
      exact ⟨trivial, by simp⟩
    · obtain ⟨x, _, rfl⟩ := Option.map_eq_some_iff.mp h
      exact ⟨trivial, by simp⟩

theorem parseScalar_scans {s r : Bytes} {j : Json} (h : parseScalar readFloat s = some (j, r)) :
    Scans s r [] ∧ Holds [] j := by
  unfold parseScalar at h
  split_ifs at h with h1 h2 h3
  · obtain ⟨rfl, rfl⟩ := Prod.mk.inj (Option.some.inj h)
    exact ⟨scans_literal (List.all_eq_true.mp (by decide)) h1, trivial, by simp⟩
  · obtain ⟨rfl, rfl⟩ := Prod.mk.inj (Option.some.inj h)
    exact ⟨scans_literal (List.all_eq_true.mp (by decide)) h2, trivial, by simp⟩
  · obtain ⟨rfl, rfl⟩ := Prod.mk.inj (Option.some.inj h)
    exact ⟨scans_literal (List.all_eq_true.mp (by decide)) h3, trivial, by simp⟩
  · obtain ⟨x, hx, he⟩ := Option.map_eq_some_iff.mp h
    obtain ⟨rfl, rfl⟩ := Prod.mk.inj he
    exact ⟨scans_number s, holds_numberOf hx⟩

mutual

theorem parseValue_scans : ∀ {n : ℕ} {s r : Bytes} {j : Json},
    parseValue readFloat n s = some (j, r) → ∃ ks, Scans s r ks ∧ Holds ks j
  | 0, s, r, j, h => by simp [parseValue] at h
  | n + 1, s, r, j, h => by
    have hs := scans_whitespace s
    unfold parseValue at h
    split at h
    · cases h
    next c t hc =>
      rw [hc] at hs
      have ht := scans_whitespace t
      split_ifs at h with h1 h2 h3
      · subst c
        split at h
        · cases h
        next d t' hd =>
          rw [hd] at ht
          have hst := hs.trans (.cons (by decide) ht)
          split_ifs at h with h4
          · obtain ⟨rfl, rfl⟩ := Prod.mk.inj (Option.some.inj h)
            subst d
            exact ⟨[], hst.trans (.cons (by decide) (.refl _)), trivial, by simp⟩
          · obtain ⟨⟨xs, r'⟩, hx, he⟩ := Option.map_eq_some_iff.mp h
            obtain ⟨rfl, rfl⟩ := Prod.mk.inj he
            obtain ⟨ks, hx, hl⟩ := parseElements_scans hx
            exact ⟨ks, hst.trans hx, hl, by simp⟩
      · subst c
        split at h
        · cases h
        next d t' hd =>
          rw [hd] at ht
          have hst := hs.trans (.cons (by decide) ht)
          split_ifs at h with h4
          · obtain ⟨rfl, rfl⟩ := Prod.mk.inj (Option.some.inj h)
            subst d
            exact ⟨[], hst.trans (.cons (by decide) (.refl _)), trivial, by simp⟩
          · obtain ⟨⟨xs, r'⟩, hx, he⟩ := Option.map_eq_some_iff.mp h
            obtain ⟨rfl, rfl⟩ := Prod.mk.inj he
            obtain ⟨ks, hx, hm⟩ := parseMembers_scans hx
            exact ⟨ks, hst.trans hx, within_object hm, by simp [Json.object]⟩
      · subst c
        obtain ⟨⟨x, r'⟩, hx, he⟩ := Option.map_eq_some_iff.mp h
        obtain ⟨rfl, rfl⟩ := Prod.mk.inj he
        refine ⟨[x], hs.trans (scans_string hx), ?_, ?_⟩
        · exact List.mem_singleton_self x
        · intro v hv
          obtain rfl := Json.str.inj hv
          rfl
      · have hx := parseScalar_scans h
        exact ⟨[], hs.trans hx.1, hx.2⟩

theorem parseElements_scans : ∀ {n : ℕ} {s r : Bytes} {l : List Json},
    parseElements readFloat n s = some (l, r) → ∃ ks, Scans s r ks ∧ WithinList ks l
  | 0, s, r, l, h => by simp [parseElements] at h
  | n + 1, s, r, l, h => by
    unfold parseElements at h
    obtain ⟨⟨v, t⟩, hv, h⟩ := Option.bind_eq_some_iff.mp h
    obtain ⟨ks, hv, hw, -⟩ := parseValue_scans hv
    have ht := scans_whitespace t
    split at h
    · cases h
    next d t' hd =>
      rw [hd] at ht
      split_ifs at h with h1 h2
      · subst d
        obtain ⟨⟨xs, r'⟩, hx, he⟩ := Option.map_eq_some_iff.mp h
        obtain ⟨rfl, rfl⟩ := Prod.mk.inj he
        obtain ⟨ks', hx, hl⟩ := parseElements_scans hx
        refine ⟨ks ++ ks', hv.trans (ht.trans (.cons (by decide) hx)), ?_, ?_⟩
        · exact hw.mono (List.prefix_append ks ks').isInfix
        · exact hl.mono (List.suffix_append ks ks').isInfix
      · obtain ⟨rfl, rfl⟩ := Prod.mk.inj (Option.some.inj h)
        subst d
        refine ⟨ks ++ [], hv.trans (ht.trans (.cons (by decide) (.refl _))), ?_, trivial⟩
        rw [List.append_nil]
        exact hw

theorem parseMembers_scans : ∀ {n : ℕ} {s r : Bytes} {m : List (Bytes × Json)},
    parseMembers readFloat n s = some (m, r) → ∃ ks, Scans s r ks ∧ WithinMembers ks m
  | 0, s, r, m, h => by simp [parseMembers] at h
  | n + 1, s, r, m, h => by
    have hs := scans_whitespace s
    unfold parseMembers at h
    split at h
    · cases h
    next c t hc =>
      rw [hc] at hs
      split_ifs at h with h1
      obtain rfl : c = 0x22 := by simpa using h1
      obtain ⟨⟨k, t₁⟩, hk, h⟩ := Option.bind_eq_some_iff.mp h
      have hk := hs.trans (scans_string hk)
      have ht₁ := scans_whitespace t₁
      split at h
      · cases h
      next d t₂ hd =>
        rw [hd] at ht₁
        split_ifs at h with h2
        obtain rfl : d = 0x3A := by simpa using h2
        obtain ⟨⟨v, t₃⟩, hv, h⟩ := Option.bind_eq_some_iff.mp h
        obtain ⟨ks, hv, hw, hstr⟩ := parseValue_scans hv
        have ht₃ := scans_whitespace t₃
        have hst := hk.trans (ht₁.trans (.cons (by decide) hv))
        have hmember :
            k ∈ k :: ks ∧ Within (k :: ks) v ∧ ∀ s, v = .str s → [k, s] <:+: k :: ks := by
          refine ⟨List.mem_cons_self, hw.mono (List.suffix_cons k ks).isInfix, ?_⟩
          intro s hs
          rw [hstr s hs]
        split at h
        · cases h
        next e t₄ he =>
          rw [he] at ht₃
          split_ifs at h with h3 h4
          · subst e
            obtain ⟨⟨xs, r'⟩, hx, he⟩ := Option.map_eq_some_iff.mp h
            obtain ⟨rfl, rfl⟩ := Prod.mk.inj he
            obtain ⟨ks', hx, hm⟩ := parseMembers_scans hx
            have hleft : k :: ks <:+: k :: ks ++ ks' := (List.prefix_append _ _).isInfix
            refine ⟨k :: ks ++ ks', hst.trans (ht₃.trans (.cons (by decide) hx)), ⟨?_, ?_, ?_⟩, ?_⟩
            · exact hleft.subset hmember.1
            · exact hmember.2.1.mono hleft
            · exact fun s hs => (hmember.2.2 s hs).trans hleft
            · exact hm.mono (List.suffix_append _ _).isInfix
          · obtain ⟨rfl, rfl⟩ := Prod.mk.inj (Option.some.inj h)
            subst e
            refine ⟨k :: ks ++ [], hst.trans (ht₃.trans (.cons (by decide) (.refl _))), ?_, trivial⟩
            rw [List.append_nil]
            exact hmember

end

/-- A text that parses is scanned from end to end, but for a byte order mark, and its value is made
of the strings found. -/
theorem parse_scan {s : Bytes} {j : Json} (h : parse readFloat s = .ok j) :
    ∃ t ks, (s = t ∨ s = 0xEF :: 0xBB :: 0xBF :: t) ∧ scan .outside t = some (ks, .outside) ∧
      Within ks j := by
  unfold parse at h
  split at h
  next j' r hp =>
    split_ifs at h with hw
    obtain rfl := Except.ok.inj h
    obtain ⟨t, ht, hv⟩ := Option.bind_eq_some_iff.mp hp
    obtain ⟨ks, hv, hj, -⟩ := parseValue_scans hv
    have hr := scans_whitespace r
    rw [hw] at hr
    obtain ⟨c, hc, hscan⟩ := hv.trans hr
    rw [List.append_nil] at hc hscan
    subst c
    refine ⟨t, ks, ?_, hscan, hj⟩
    unfold skipBom at ht
    split at ht
    · obtain rfl := Option.some.inj ht
      exact .inl rfl
    next b u =>
      split_ifs at ht with h1
      · subst b
        split at ht
        · obtain rfl := Option.some.inj ht
          exact .inr rfl
        · cases ht
      · obtain rfl := Option.some.inj ht
        exact .inl rfl
  · cases h

theorem parse_scan_head {b : UInt8} (hb : b ≠ 0xEF) {s : Bytes} {j : Json}
    (h : parse readFloat (b :: s) = .ok j) :
    ∃ ks, scan .outside (b :: s) = some (ks, .outside) ∧ Within ks j := by
  obtain ⟨t, ks, rfl | ht, hscan, hj⟩ := parse_scan h
  · exact ⟨ks, hscan, hj⟩
  · exact absurd (List.cons.inj ht).1 hb

/-- The strings of the value are shorter than the text. -/
theorem parse_scan_short {s : Bytes} {j : Json} (h : parse readFloat s = .ok j) :
    ∃ ks, Within ks j ∧ ∀ k ∈ ks, k.length ≤ s.length := by
  obtain ⟨t, ks, ht, hscan, hj⟩ := parse_scan h
  refine ⟨ks, hj, fun k hk => ?_⟩
  have hlt := (scan_credit hscan).2 k hk
  rw [credit] at hlt
  rcases ht with rfl | rfl
  · omega
  · simp only [List.length_cons]
    omega

end Parser

end JsonScan
