import TizenClaw.JsonParse

/-! Sequences of tokens: strings, and the bytes that stand outside of strings as white space,
punctuation, numbers and literals. -/
namespace JsonTokens

open ByteString JsonValue JsonParse

/-- The bytes outside of strings. -/
def isPlain (b : UInt8) : Bool :=
  isWhitespace b || isNumberChar b || (bytes "[]\x7b\x7d,:").contains b ||
    (bytes "nulltruefalse").contains b

inductive Tokens : Bytes → Prop where
  | nil : Tokens []
  | plain {b s} : isPlain b = true → Tokens s → Tokens (b :: s)
  | string {c t s} : readString (.text []) c = some (t, []) → Tokens s → Tokens (0x22 :: (c ++ s))

section Bytes

theorem control_codes : ∀ n < 32, UInt8.ofNat n ≠ 0x75 ∧ UInt8.ofNat n ≠ 0x5C ∧
    unescape (UInt8.ofNat n) = none ∧ hexValue (UInt8.ofNat n) = none := by decide

theorem unescape_some {b c : UInt8} (h : unescape b = some c) : b ≤ 0x7F ∧ c ≤ 0x7F := by
  unfold unescape at h
  split_ifs at h with h1 h2 h3 h4 h5 h6
  · rcases h1 with rfl | rfl | rfl <;> (obtain rfl := Option.some.inj h; decide)
  all_goals
    subst b
    obtain rfl := Option.some.inj h
    decide

theorem stringStep_printable {m : StringMode} {b : UInt8} {x : StringMode × Bytes}
    (h : stringStep m b = some x) : 0x20 ≤ b := by
  by_contra hb
  have hlt : b < 0x20 := UInt8.not_le.mp hb
  obtain ⟨hu, hs, hne, hnh⟩ := control_codes b.toNat (UInt8.lt_iff_toNat_lt.mp hlt)
  rw [UInt8.ofNat_toNat] at hu hs hne hnh
  unfold stringStep at h
  split at h
  · rw [if_pos hlt] at h
    cases h
  · rw [if_neg hu, hne] at h
    cases h
  · rw [hnh] at h
    cases h
  · rw [if_neg hs] at h
    cases h
  · rw [if_neg hu] at h
    cases h

/-- The text of a string has no control characters, and its last byte is the closing quote. -/
theorem string_bytes {m : StringMode} {c t : Bytes} (h : readString m c = some (t, [])) :
    (∀ b ∈ c, 0x20 ≤ b) ∧ c.getLast? = some 0x22 := by
  induction c generalizing m t with
  | nil => simp [readString] at h
  | cons b c ih =>
    unfold readString at h
    split_ifs at h with h1
    · obtain ⟨rfl, rfl⟩ := Prod.mk.inj (Option.some.inj h)
      obtain ⟨-, rfl⟩ := h1
      exact ⟨List.forall_mem_singleton.mpr (by decide), rfl⟩
    · obtain ⟨⟨m', out⟩, hstep, h⟩ := Option.bind_eq_some_iff.mp h
      obtain ⟨⟨t', r'⟩, hrest, he⟩ := Option.map_eq_some_iff.mp h
      obtain ⟨rfl, rfl⟩ := Prod.mk.inj he
      obtain ⟨hall, hlast⟩ := ih hrest
      refine ⟨List.forall_mem_cons.mpr ⟨stringStep_printable hstep, hall⟩, ?_⟩
      rw [List.getLast?_cons, hlast]
      rfl

theorem Tokens.zero_not_mem {s : Bytes} (h : Tokens s) : 0 ∉ s := by
  induction h with
  | nil => exact List.not_mem_nil
  | plain hp _ ih =>
    rw [List.mem_cons, not_or]
    refine ⟨?_, ih⟩
    rintro rfl
    exact absurd hp (by decide)
  | string hs _ ih =>
    rw [List.mem_cons, List.mem_append, not_or, not_or]
    refine ⟨by decide, fun h0 => ?_, ih⟩
    exact absurd ((string_bytes hs).1 0 h0) (by decide)

/-- A byte that only a string can hold and, without a quote between them, a control character. -/
theorem not_tokens {d e : UInt8} {u : Bytes} (hd : isPlain d = false) (hu : 0x22 ∉ d :: u)
    (he : e < 0x20) (l x : Bytes) : ¬ Tokens (l ++ d :: (u ++ e :: x)) := by
  intro h
  generalize hs : l ++ d :: (u ++ e :: x) = s at h
  induction h generalizing l with
  | nil => simp at hs
  | @plain b s hp _ ih =>
    cases l with
    | nil =>
      obtain ⟨rfl, -⟩ := List.cons.inj hs
      rw [hd] at hp
      cases hp
    | cons a l => exact ih l (List.cons.inj hs).2
  | @string c t s hc _ ih =>
    cases l with
    | nil =>
      obtain ⟨rfl, -⟩ := List.cons.inj hs
      exact hu List.mem_cons_self
    | cons a l =>
      obtain ⟨hall, hlast⟩ := string_bytes hc
      rcases List.append_eq_append_iff.mp (List.cons.inj hs).2 with ⟨w, hw, hrest⟩ | ⟨w, hw, hrest⟩
      · cases w with
        | nil => exact ih [] hrest
        | cons b w =>
          -- the byte is in the string, whose last byte is a quote
          obtain ⟨rfl, hmid⟩ := List.cons.inj hrest
          have hquote : 0x22 ∈ d :: w := by
            rw [hw, List.getLast?_append_of_ne_nil _ (List.cons_ne_nil d w)] at hlast
            exact List.mem_of_getLast? hlast
          rcases List.append_eq_append_iff.mp hmid with ⟨v, rfl, hv⟩ | ⟨v, rfl, -⟩
          · cases v with
            | nil =>
              rw [List.append_nil] at hquote
              exact hu hquote
            | cons b v =>
              obtain ⟨rfl, -⟩ := List.cons.inj hv
              exact absurd (hall e (by simp [hw])) (UInt8.not_le.mpr he)
          · exact hu (List.cons_subset_cons d (List.subset_append_left w v) hquote)
      · exact ih w hrest.symm

end Bytes

end JsonTokens
