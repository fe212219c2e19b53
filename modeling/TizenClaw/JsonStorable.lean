import TizenClaw.JsonParseUtf8
import TizenClaw.JsonRoundTrip
import TizenClaw.OrderedMap

/-! Members of objects that are built key by key, one value read off a stream, and that what the
parser builds can be written and read back. -/
namespace JsonStorable

open ByteString JsonValue JsonDump JsonParse JsonTokens JsonScan JsonParseUtf8 JsonRoundTrip

section Members

theorem lookup_insertMember (k l : Bytes) (v : Json) (m : List (Bytes × Json)) :
    (insertMember k v m).lookup l = if l = k then some v else m.lookup l := by
  induction m with
  | nil =>
    rw [insertMember, List.lookup_cons]
    by_cases h : l = k
    · simp [h]
    · simp [h, beq_false_of_ne h]
  | cons x m ih =>
    obtain ⟨k', w⟩ := x
    rw [insertMember]
    by_cases hk : k = k'
    · subst hk
      rw [if_pos rfl, List.lookup_cons, List.lookup_cons]
      by_cases h : l = k
      · simp [h]
      · simp [h, beq_false_of_ne h]
    · rw [if_neg hk]
      by_cases hlt : k < k'
      · rw [if_pos hlt, List.lookup_cons]
        by_cases h : l = k
        · simp [h]
        · simp [h, beq_false_of_ne h]
      · rw [if_neg hlt, List.lookup_cons, ih, List.lookup_cons]
        by_cases h : l = k'
        · subst h
          simp [Ne.symm hk]
        · simp [beq_false_of_ne h]

/-- The last value under a key is the one that stays. -/
theorem lookup_ofMembers (l : Bytes) (m : List (Bytes × Json)) :
    (ofMembers m).lookup l = m.reverse.lookup l := by
  induction m using List.reverseRecOn with
  | nil => rfl
  | append_singleton m x ih =>
    have hstep : ofMembers (m ++ [x]) = insertMember x.1 x.2 (ofMembers m) := by
      rw [ofMembers, List.foldl_append]
      rfl
    rw [hstep, lookup_insertMember, List.reverse_append, List.reverse_singleton,
      List.singleton_append, List.lookup_cons, ih]
    by_cases h : l = x.1
    · simp [h]
    · simp [h, beq_false_of_ne h]

/-- An object of distinct keys has the members it was built from. -/
theorem member_object {m : List (Bytes × Json)} (h : (m.map Prod.fst).Nodup) (key : Bytes) :
    (Json.object m).member? key = m.lookup key := by
  rw [Json.object, Json.member?, lookup_ofMembers]
  exact OrderedMap.lookup_perm h (List.reverse_perm m).symm key

theorem insertMember_head {k : Bytes} {v : Json} {m : List (Bytes × Json)} {l : Bytes}
    (hl : ∀ x ∈ m.map Prod.fst, l < x) (hk : l < k) :
    ∀ x ∈ (insertMember k v m).map Prod.fst, l < x := by
  intro x hx
  rcases insertMember_keys.mp hx with rfl | hx
  · exact hk
  · exact hl x hx

theorem keysSorted_insert (k : Bytes) (v : Json) {m : List (Bytes × Json)} (h : KeysSorted m) :
    KeysSorted (insertMember k v m) := by
  induction m with
  | nil => exact List.pairwise_singleton _ _
  | cons x m ih =>
    obtain ⟨k', w⟩ := x
    rw [KeysSorted, List.map_cons, List.pairwise_cons] at h
    rw [insertMember]
    by_cases hk : k = k'
    · subst hk
      rw [if_pos rfl]
      exact List.pairwise_cons.mpr h
    · rw [if_neg hk]
      by_cases hlt : k < k'
      · rw [if_pos hlt]
        refine List.pairwise_cons.mpr ⟨fun x hx => ?_, List.pairwise_cons.mpr h⟩
        rcases List.mem_cons.mp hx with rfl | hx
        · exact hlt
        · exact List.lt_trans hlt (h.1 x hx)
      · rw [if_neg hlt]
        have hgt : k' < k := by
          by_contra hno
          exact hk (Std.Trichotomous.trichotomous k k' hlt hno)
        exact List.pairwise_cons.mpr ⟨insertMember_head h.1 hgt, ih h.2⟩

theorem keysSorted_ofMembers (m : List (Bytes × Json)) : KeysSorted (ofMembers m) := by
  suffices H : ∀ acc, KeysSorted acc →
      KeysSorted (m.foldl (fun acc kv => insertMember kv.1 kv.2 acc) acc) from
    H [] List.Pairwise.nil
  induction m with
  | nil => exact fun _ h => h
  | cons x m ih => exact fun acc h => ih _ (keysSorted_insert x.1 x.2 h)

end Members

section Storable

variable {readFloat : Bytes → Option NumberText}

theorem storableMembers_iff {m : List (Bytes × Json)} :
    StorableMembers readFloat m ↔
      ∀ e ∈ m, Utf8.valid e.1 = true ∧ Storable readFloat e.2 := by
  induction m with
  | nil => simp [StorableMembers]
  | cons x m ih =>
    obtain ⟨k, v⟩ := x
    rw [StorableMembers, ih, List.forall_mem_cons, and_assoc]

theorem storableList_iff {l : List Json} :
    StorableList readFloat l ↔ ∀ j ∈ l, Storable readFloat j := by
  induction l with
  | nil => simp [StorableList]
  | cons j l ih => rw [StorableList, ih, List.forall_mem_cons]

theorem storable_insert {k : Bytes} {v : Json} {m : List (Bytes × Json)}
    (hk : Utf8.valid k = true) (hv : Storable readFloat v) (h : Storable readFloat (.obj m)) :
    Storable readFloat (.obj (insertMember k v m)) := by
  rw [Storable, storableMembers_iff] at h ⊢
  refine ⟨keysSorted_insert k v h.1, fun e he => ?_⟩
  rcases mem_insertMember he with rfl | he
  · exact ⟨hk, hv⟩
  · exact h.2 e he

theorem storable_object {m : List (Bytes × Json)} (h : StorableMembers readFloat m) :
    Storable readFloat (.object m) := by
  rw [storableMembers_iff] at h
  rw [Json.object, Storable, storableMembers_iff]
  exact ⟨keysSorted_ofMembers m, fun e he => h e (mem_ofMembers he)⟩

/-- Members can be set in objects and in null; nothing else has members. -/
theorem assign_cases (key : Bytes) (v j : Json) :
    (∃ m, Json.assign key v j = .ok (.obj (insertMember key v m)) ∧
      (∀ k, j.member? k = m.lookup k) ∧
      ∀ readFloat, Storable readFloat j → Storable readFloat (.obj m)) ∨
    (∃ e, Json.assign key v j = .error e) ∧ ∀ k, j.member? k = none := by
  cases j with
  | null => exact .inl ⟨[], rfl, fun _ => rfl, fun _ _ => ⟨List.Pairwise.nil, trivial⟩⟩
  | obj m => exact .inl ⟨m, rfl, fun _ => rfl, fun _ h => h⟩
  | _ => exact .inr ⟨⟨_, rfl⟩, fun _ => rfl⟩

theorem Storable.member {j v : Json} {k : Bytes} (h : Storable readFloat j)
    (hv : j.member? k = some v) : Storable readFloat v := by
  cases j with
  | obj m =>
    rw [Storable, storableMembers_iff] at h
    exact (h.2 (k, v) (OrderedMap.mem_of_lookup hv)).2
  | _ => cases hv

/-- Every float the reader of numbers returns is written as a text that it reads back. -/
def ReadsBack (readFloat : Bytes → Option NumberText) : Prop :=
  ∀ t x, readFloat t = some x → FloatText readFloat x

theorem storable_numberOf (hf : ReadsBack readFloat) {t : Bytes} {j : Json}
    (h : numberOf readFloat t = some j) : Storable readFloat j := by
  unfold numberOf at h
  split at h
  · cases h
  · obtain ⟨x, hx, rfl⟩ := Option.map_eq_some_iff.mp h
    exact hf t x hx
  · split_ifs at h with hr
    · obtain rfl := Option.some.inj h
      exact hr
    · obtain ⟨x, hx, rfl⟩ := Option.map_eq_some_iff.mp h
      exact hf t x hx

theorem storable_parseScalar (hf : ReadsBack readFloat) {s r : Bytes} {j : Json}
    (h : parseScalar readFloat s = some (j, r)) : Storable readFloat j := by
  unfold parseScalar at h
  split_ifs at h
  · obtain ⟨rfl, -⟩ := Prod.mk.inj (Option.some.inj h)
    trivial
  · obtain ⟨rfl, -⟩ := Prod.mk.inj (Option.some.inj h)
    trivial
  · obtain ⟨rfl, -⟩ := Prod.mk.inj (Option.some.inj h)
    trivial
  · obtain ⟨x, hx, he⟩ := Option.map_eq_some_iff.mp h
    obtain ⟨rfl, -⟩ := Prod.mk.inj he
    exact storable_numberOf hf hx

theorem readString_valid {s t r : Bytes} (h : readString (.text []) s = some (t, r)) :
    Utf8.valid t = true := by
  obtain ⟨-, -, -, ht⟩ := readString_sound (m := .text []) trivial h
  exact (Utf8.valid_iff t).mpr ht

mutual

theorem storable_parseValue (hf : ReadsBack readFloat) : ∀ {n : ℕ} {s r : Bytes} {j : Json},
    parseValue readFloat n s = some (j, r) → Storable readFloat j
  | 0, s, r, j, h => by simp [parseValue] at h
  | n + 1, s, r, j, h => by
    unfold parseValue at h
    split at h
    · cases h
    next c t hc =>
      split_ifs at h
      · split at h
        · cases h
        next d t' hd =>
          split_ifs at h
          · obtain ⟨rfl, -⟩ := Prod.mk.inj (Option.some.inj h)
            trivial
          · obtain ⟨x, hx, he⟩ := Option.map_eq_some_iff.mp h
            obtain ⟨rfl, -⟩ := Prod.mk.inj he
            exact storable_parseElements hf hx
      · split at h
        · cases h
        next d t' hd =>
          split_ifs at h
          · obtain ⟨rfl, -⟩ := Prod.mk.inj (Option.some.inj h)
            exact ⟨List.Pairwise.nil, trivial⟩
          · obtain ⟨x, hx, he⟩ := Option.map_eq_some_iff.mp h
            obtain ⟨rfl, -⟩ := Prod.mk.inj he
            exact storable_object (storable_parseMembers hf hx)
      · obtain ⟨x, hx, he⟩ := Option.map_eq_some_iff.mp h
        obtain ⟨rfl, -⟩ := Prod.mk.inj he
        exact readString_valid hx
      · exact storable_parseScalar hf h

theorem storable_parseElements (hf : ReadsBack readFloat) :
    ∀ {n : ℕ} {s r : Bytes} {l : List Json},
      parseElements readFloat n s = some (l, r) → StorableList readFloat l
  | 0, s, r, l, h => by simp [parseElements] at h
  | n + 1, s, r, l, h => by
    unfold parseElements at h
    obtain ⟨v, hv, h⟩ := Option.bind_eq_some_iff.mp h
    have hval := storable_parseValue hf hv
    split at h
    · cases h
    next d t hd =>
      split_ifs at h
      · obtain ⟨x, hx, he⟩ := Option.map_eq_some_iff.mp h
        obtain ⟨rfl, -⟩ := Prod.mk.inj he
        exact ⟨hval, storable_parseElements hf hx⟩
      · obtain ⟨rfl, -⟩ := Prod.mk.inj (Option.some.inj h)
        exact ⟨hval, trivial⟩

theorem storable_parseMembers (hf : ReadsBack readFloat) :
    ∀ {n : ℕ} {s r : Bytes} {m : List (Bytes × Json)},
      parseMembers readFloat n s = some (m, r) → StorableMembers readFloat m
  | 0, s, r, m, h => by simp [parseMembers] at h
  | n + 1, s, r, m, h => by
    unfold parseMembers at h
    split at h
    · cases h
    next c t hc =>
      split_ifs at h
      obtain ⟨k, hk, h⟩ := Option.bind_eq_some_iff.mp h
      have hkey := readString_valid hk
      split at h
      · cases h
      next d t' hd =>
        split_ifs at h
        obtain ⟨v, hv, h⟩ := Option.bind_eq_some_iff.mp h
        have hval := storable_parseValue hf hv
        split at h
        · cases h
        next e t'' he =>
          split_ifs at h
          · obtain ⟨x, hx, he⟩ := Option.map_eq_some_iff.mp h
            obtain ⟨rfl, -⟩ := Prod.mk.inj he
            exact ⟨hkey, hval, storable_parseMembers hf hx⟩
          · obtain ⟨rfl, -⟩ := Prod.mk.inj (Option.some.inj h)
            exact ⟨hkey, hval, trivial⟩

end

/-- What the parser accepts can be stored. -/
theorem storable_parse (hf : ReadsBack readFloat) {s : Bytes} {j : Json}
    (h : parse readFloat s = .ok j) : Storable readFloat j := by
  unfold parse at h
  split at h
  next v r hp =>
    split_ifs at h
    obtain rfl := Except.ok.inj h
    obtain ⟨t, -, ht⟩ := Option.bind_eq_some_iff.mp hp
    exact storable_parseValue hf ht
  · cases h

end Storable

section Stream

variable (readFloat : Bytes → Option NumberText)

/-- The number at the start of a text. The lexer commits itself to a fraction at the point and to
an exponent at the `e`. -/
def numberToken (s : Bytes) : Option Bytes :=
  let sign := s.takeWhile (· = 0x2D) |>.take 1
  let u := s.drop sign.length
  let ip := if u.head? = some 0x30 then [0x30] else u.takeWhile isDigit
  let v := u.drop ip.length
  let frac := if v.head? = some 0x2E then 0x2E :: (v.drop 1).takeWhile isDigit else []
  let w := v.drop frac.length
  let mark := if w.head? = some 0x45 ∨ w.head? = some 0x65 then w.take 1 else []
  let x := w.drop mark.length
  let expSign := if mark ≠ [] ∧ (x.head? = some 0x2B ∨ x.head? = some 0x2D) then x.take 1 else []
  let expDigits := if mark ≠ [] then (x.drop expSign.length).takeWhile isDigit else []
  if ip = [] ∨ frac.length = 1 ∨ (mark ≠ [] ∧ expDigits = []) then none
  else some (sign ++ ip ++ frac ++ mark ++ expSign ++ expDigits)

/-- `operator>>`: the value at the start of a stream, whatever stands behind it. -/
def readStream (s : Bytes) : Except JsonException Json :=
  let value := (skipBom s).bind fun t =>
    match skipWhitespace t with
    | [] => none
    | c :: r =>
      if isDigit c ∨ c = 0x2D then (numberToken (c :: r)).bind (numberOf readFloat)
      else (parseValue readFloat (t.length + 1) t).map Prod.fst
  match value with
  | some j => .ok j
  | none => .error .parseError

variable {readFloat}

theorem storable_readStream (hf : ReadsBack readFloat) {s : Bytes} {j : Json}
    (h : readStream readFloat s = .ok j) : Storable readFloat j := by
  unfold readStream at h
  dsimp only at h
  split at h
  next v hv =>
    obtain rfl := Except.ok.inj h
    obtain ⟨t, -, ht⟩ := Option.bind_eq_some_iff.mp hv
    split at ht
    · cases ht
    · split_ifs at ht
      · obtain ⟨x, -, hx⟩ := Option.bind_eq_some_iff.mp ht
        exact storable_numberOf hf hx
      · obtain ⟨x, hx, rfl⟩ := Option.map_eq_some_iff.mp ht
        exact storable_parseValue hf hx
  · cases h

/-- A text that is one value and does not start with a number reads the same off a stream. -/
theorem readStream_of_parse {c : UInt8} {s : Bytes} {j : Json} (hc : isNumberChar c = false)
    (hw : isWhitespace c = false) (hb : c ≠ 0xEF) (h : parse readFloat (c :: s) = .ok j) :
    readStream readFloat (c :: s) = .ok j := by
  have hbom : skipBom (c :: s) = some (c :: s) := by simp [skipBom, hb]
  have hdigit : ¬ (isDigit c = true ∨ c = 0x2D) := by
    intro hd
    rw [isNumberChar, decide_eq_false_iff_not] at hc
    rcases hd with hd | hd
    · exact hc (.inl hd)
    · exact hc (.inr (.inr (.inl hd)))
  unfold parse at h
  split at h
  next v r hp =>
    split_ifs at h
    obtain rfl := Except.ok.inj h
    rw [hbom, Option.bind_some] at hp
    simp only [readStream, hbom, Option.bind_some, skipWhitespace_head hw, if_neg hdigit, hp,
      Option.map_some]
  · cases h

/-- An object that has been written is read back from the stream. -/
theorem readStream_render {lay : Layout} (hl : WhiteLayout lay) {m : List (Bytes × Json)}
    (h : Storable readFloat (.obj m)) {w : Bytes} (hw : White w) :
    readStream readFloat (render id lay 0 (.obj m) ++ w) = .ok (.obj m) := by
  have hp := parse_render hl h 0 white_nil hw
  have hhead : ∃ s, render id lay 0 (.obj m) = 0x7B :: s := by
    cases m with
    | nil => exact ⟨[0x7D], by rw [render]; decide⟩
    | cons x m => exact ⟨_, by rw [render]⟩
  obtain ⟨s, hs⟩ := hhead
  rw [List.nil_append, hs, List.cons_append] at hp
  rw [hs, List.cons_append]
  exact readStream_of_parse (by decide) (by decide) (by decide) hp

end Stream

end JsonStorable
