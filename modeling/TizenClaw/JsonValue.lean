import TizenClaw.Utf8

/-! JSON values with byte strings and the accessors that throw. A float is kept as the text
the serializer writes for it, so that its rounding stays with the reader of numbers. -/
namespace JsonValue

open ByteString

def isDigit (b : UInt8) : Bool := 0x30 ≤ b ∧ b ≤ 0x39

/-- The bytes a number is written with. -/
def isNumberChar (b : UInt8) : Bool :=
  isDigit b ∨ b = 0x2B ∨ b = 0x2D ∨ b = 0x2E ∨ b = 0x45 ∨ b = 0x65

abbrev NumberText := { t : Bytes // ∀ b ∈ t, isNumberChar b = true }

inductive Json where
  | null
  | bool (b : Bool)
  | int (i : ℤ)
  | float (text : NumberText)
  | str (s : Bytes)
  | arr (l : List Json)
  | obj (m : List (Bytes × Json))
  deriving Repr

inductive JsonException where
  | parseError
  | typeError (id : ℕ)
  deriving DecidableEq, Repr

mutual

def Json.beq : Json → Json → Bool
  | .null, .null => true
  | .bool a, .bool b => a == b
  | .int a, .int b => a == b
  | .float a, .float b => a == b
  | .str a, .str b => a == b
  | .arr a, .arr b => beqList a b
  | .obj a, .obj b => beqMembers a b
  | _, _ => false

def beqList : List Json → List Json → Bool
  | [], [] => true
  | x :: xs, y :: ys => x.beq y && beqList xs ys
  | _, _ => false

def beqMembers : List (Bytes × Json) → List (Bytes × Json) → Bool
  | [], [] => true
  | (k, x) :: xs, (l, y) :: ys => k == l && x.beq y && beqMembers xs ys
  | _, _ => false

end

mutual

theorem Json.beq_iff : ∀ a b : Json, a.beq b = true ↔ a = b
  | .arr a, .arr b => by simp [Json.beq, beqList_iff a b]
  | .obj a, .obj b => by simp [Json.beq, beqMembers_iff a b]
  | .null, b => by cases b <;> simp [Json.beq]
  | .bool _, b => by cases b <;> simp [Json.beq]
  | .int _, b => by cases b <;> simp [Json.beq]
  | .float _, b => by cases b <;> simp [Json.beq, Subtype.ext_iff]
  | .str _, b => by cases b <;> simp [Json.beq]
  | .arr _, .null | .arr _, .bool _ | .arr _, .int _ | .arr _, .float _ | .arr _, .str _
  | .arr _, .obj _ | .obj _, .null | .obj _, .bool _ | .obj _, .int _ | .obj _, .float _
  | .obj _, .str _ | .obj _, .arr _ => by simp [Json.beq]

theorem beqList_iff : ∀ a b : List Json, beqList a b = true ↔ a = b
  | [], b => by cases b <;> simp [beqList]
  | _ :: _, [] => by simp [beqList]
  | x :: xs, y :: ys => by simp [beqList, Json.beq_iff x y, beqList_iff xs ys]

theorem beqMembers_iff : ∀ a b : List (Bytes × Json), beqMembers a b = true ↔ a = b
  | [], b => by cases b <;> simp [beqMembers]
  | _ :: _, [] => by simp [beqMembers]
  | (k, x) :: xs, (l, y) :: ys => by
    simp [beqMembers, Json.beq_iff x y, beqMembers_iff xs ys]

end

instance : DecidableEq Json := fun a b => decidable_of_iff (a.beq b = true) (a.beq_iff b)

def Json.isNull : Json → Bool
  | .null => true
  | _ => false

theorem isNull_iff {j : Json} : j.isNull = true ↔ j = .null := by
  cases j <;> simp [Json.isNull]

def Json.isArray : Json → Bool
  | .arr _ => true
  | _ => false

/-- `empty()`: only null and containers without elements are empty. -/
def Json.empty : Json → Bool
  | .null | .arr [] | .obj [] => true
  | _ => false

/-- The member of an object under a key; no other value has members. -/
def Json.member? (key : Bytes) : Json → Option Json
  | .obj m => m.lookup key
  | _ => none

def Json.contains (j : Json) (key : Bytes) : Bool := (j.member? key).isSome

/-- `j[key]`: a missing member, also of null, is null. -/
def Json.field (key : Bytes) : Json → Except JsonException Json
  | .obj m => .ok ((m.lookup key).getD .null)
  | .null => .ok .null
  | _ => .error (.typeError 305)

/-- `j[i]`: an array is filled up with null. -/
def Json.item (i : ℕ) : Json → Except JsonException Json
  | .arr l => .ok (l.getD i .null)
  | .null => .ok .null
  | _ => .error (.typeError 305)

/-- `size()` -/
def Json.size : Json → ℕ
  | .arr l => l.length
  | .obj m => m.length
  | .null => 0
  | _ => 1

/-- What a loop over a value visits: a value that is no container is its own single element. -/
def Json.elements : Json → List Json
  | .arr l => l
  | .obj m => m.map Prod.snd
  | .null => []
  | j => [j]

/-- A call that does not throw. -/
def Succeeds {ε α : Type*} (x : Except ε α) : Prop := ∃ a, x = .ok a

@[simp] theorem succeeds_ok {ε α : Type*} (a : α) : Succeeds (.ok a : Except ε α) := ⟨a, rfl⟩

@[simp] theorem succeeds_error {ε α : Type*} (e : ε) : ¬ Succeeds (.error e : Except ε α) := by
  rintro ⟨a, h⟩
  cases h

@[simp] theorem succeeds_map {ε α β : Type*} (f : α → β) (x : Except ε α) :
    Succeeds (x.map f) ↔ Succeeds x := by
  cases x <;> simp [Except.map]

theorem succeeds_bind {ε α β : Type*} (f : α → Except ε β) (x : Except ε α) :
    Succeeds (x.bind f) ↔ ∃ a, x = .ok a ∧ Succeeds (f a) := by
  cases x <;> simp [Except.bind]

theorem map_eq_ok {ε α β : Type*} {f : α → β} {x : Except ε α} {b : β} :
    x.map f = .ok b ↔ ∃ a, x = .ok a ∧ f a = b := by
  cases x <;> simp [Except.map]

theorem bind_eq_ok {ε α β : Type*} {f : α → Except ε β} {x : Except ε α} {b : β} :
    x.bind f = .ok b ↔ ∃ a, x = .ok a ∧ f a = .ok b := by
  cases x <;> simp [Except.bind]

theorem mapM_cons_ok {ε α β : Type} {f : α → Except ε β} {a : α} {l : List α} {m : List β} :
    (a :: l).mapM f = .ok m ↔ ∃ b m', f a = .ok b ∧ l.mapM f = .ok m' ∧ m = b :: m' := by
  rw [List.mapM_cons]
  constructor
  · intro h
    cases ha : f a with
    | error e =>
      rw [ha] at h
      cases h
    | ok b =>
      cases hl : l.mapM f with
      | error e =>
        rw [ha, hl] at h
        cases h
      | ok m' =>
        rw [ha, hl] at h
        exact ⟨b, m', rfl, rfl, (Except.ok.inj h).symm⟩
  · rintro ⟨b, m', ha, hl, rfl⟩
    rw [ha, hl]
    rfl

theorem succeeds_mapM {ε α β : Type} {f : α → Except ε β} {l : List α} :
    Succeeds (l.mapM f) ↔ ∀ a ∈ l, Succeeds (f a) := by
  induction l with
  | nil => exact iff_of_true ⟨[], rfl⟩ (by simp)
  | cons a l ih =>
    rw [List.forall_mem_cons, ← ih]
    simp only [Succeeds, mapM_cons_ok]
    constructor
    · rintro ⟨m, b, m', ha, hl, -⟩
      exact ⟨⟨b, ha⟩, m', hl⟩
    · rintro ⟨⟨b, ha⟩, m', hl⟩
      exact ⟨_, b, m', ha, hl, rfl⟩

theorem length_mapM {ε α β : Type} {f : α → Except ε β} {l : List α} {m : List β}
    (h : l.mapM f = .ok m) : m.length = l.length := by
  induction l generalizing m with
  | nil =>
    obtain rfl := Except.ok.inj h
    rfl
  | cons a l ih =>
    obtain ⟨b, m', -, hl, rfl⟩ := mapM_cons_ok.mp h
    exact congrArg (· + 1) (ih hl)

/-- `get<std::string>()` -/
def Json.getString : Json → Except JsonException Bytes
  | .str s => .ok s
  | _ => .error (.typeError 302)

/-- `value(key, default)`: throws on everything but objects. -/
def Json.value {α : Type} (get : Json → Except JsonException α) (j : Json) (key : Bytes)
    (default : α) : Except JsonException α :=
  match j with
  | .obj m => match m.lookup key with
    | none => .ok default
    | some v => get v
  | _ => .error (.typeError 306)

def Json.valueString (j : Json) (key default : Bytes) : Except JsonException Bytes :=
  j.value Json.getString key default

theorem valueString_of_member {j : Json} {key s : Bytes} (h : j.member? key = some (.str s))
    (default : Bytes) : j.valueString key default = .ok s := by
  cases j with
  | obj m =>
    have hl : m.lookup key = some (.str s) := h
    simp only [Json.valueString, Json.value, hl, Json.getString]
  | _ => cases h

/-- A text field is the member of an object or its default. -/
theorem valueString_cases {j : Json} {key default s : Bytes}
    (h : j.valueString key default = .ok s) : s = default ∨ j.member? key = some (.str s) := by
  cases j with
  | obj m =>
    simp only [Json.valueString, Json.value] at h
    rw [Json.member?]
    cases hl : m.lookup key with
    | none =>
      rw [hl] at h
      exact .inl (Except.ok.inj h).symm
    | some v =>
      rw [hl] at h
      cases v with
      | str t => exact .inr (by rw [Except.ok.inj h])
      | _ => cases h
  | _ => cases h

theorem field_of_member {j v : Json} {key : Bytes} (h : j.member? key = some v) :
    j.field key = .ok v := by
  cases j with
  | obj m =>
    have hl : m.lookup key = some v := h
    simp only [Json.field, hl, Option.getD_some]
  | _ => cases h

/-- `operator[]` of the map behind an object: the keys stay sorted, a later value wins. -/
def insertMember (k : Bytes) (v : Json) : List (Bytes × Json) → List (Bytes × Json)
  | [] => [(k, v)]
  | (l, w) :: m =>
    if k = l then (k, v) :: m
    else if k < l then (k, v) :: (l, w) :: m
    else (l, w) :: insertMember k v m

/-- `j[key] = v`: null becomes an object, no other value but an object has members. -/
def Json.assign (key : Bytes) (v : Json) : Json → Except JsonException Json
  | .null => .ok (.obj [(key, v)])
  | .obj m => .ok (.obj (insertMember key v m))
  | _ => .error (.typeError 305)

def ofMembers (m : List (Bytes × Json)) : List (Bytes × Json) :=
  m.foldl (fun acc kv => insertMember kv.1 kv.2 acc) []

/-- An object built member by member. -/
def Json.object (m : List (Bytes × Json)) : Json := .obj (ofMembers m)

mutual

/-- All strings and keys are UTF-8, which is what the strict serializer needs. -/
def Json.utf8 : Json → Bool
  | .str s => Utf8.valid s
  | .arr l => utf8List l
  | .obj m => utf8Members m
  | _ => true

def utf8List : List Json → Bool
  | [] => true
  | x :: xs => x.utf8 && utf8List xs

def utf8Members : List (Bytes × Json) → Bool
  | [] => true
  | (k, x) :: m => Utf8.valid k && x.utf8 && utf8Members m

end

theorem utf8List_iff (l : List Json) : utf8List l = true ↔ ∀ j ∈ l, j.utf8 = true := by
  induction l with
  | nil => simp [utf8List]
  | cons j l ih => simp [utf8List, ih]

theorem utf8_of_mem {m : List (Bytes × Json)} (h : utf8Members m = true) :
    ∀ x ∈ m, x.2.utf8 = true := by
  induction m with
  | nil => simp
  | cons x m ih =>
    obtain ⟨k, v⟩ := x
    simp only [utf8Members, Bool.and_eq_true] at h
    intro x hx
    rcases List.mem_cons.mp hx with rfl | hx
    · exact h.1.2
    · exact ih h.2 x hx

theorem utf8_of_empty {j : Json} (h : j.empty = true) : j.utf8 = true := by
  unfold Json.empty at h
  split at h
  · rfl
  · rfl
  · rfl
  · cases h

theorem utf8_of_isNull {j : Json} (h : j.isNull = true) : j.utf8 = true := by
  unfold Json.isNull at h
  split at h
  · rfl
  · cases h

abbrev KeysSorted (m : List (Bytes × Json)) : Prop := (m.map Prod.fst).Pairwise (· < ·)

theorem insertMember_last {k : Bytes} {v : Json} {m : List (Bytes × Json)}
    (h : ∀ l ∈ m.map Prod.fst, l < k) : insertMember k v m = m ++ [(k, v)] := by
  induction m with
  | nil => rfl
  | cons kv m ih =>
    obtain ⟨l, w⟩ := kv
    have hl : l < k := h l (by simp)
    have ih := ih fun x hx => h x (by simp only [List.map_cons, List.mem_cons]; exact Or.inr hx)
    have hne : k ≠ l := by rintro rfl; exact List.lt_irrefl _ hl
    simp [insertMember, hne, List.lt_asymm hl, ih]

theorem ofMembers_sorted {m : List (Bytes × Json)} (h : KeysSorted m) : ofMembers m = m := by
  suffices H : ∀ acc, KeysSorted (acc ++ m) →
      m.foldl (fun acc kv => insertMember kv.1 kv.2 acc) acc = acc ++ m from by
    simpa [ofMembers] using H [] (by simpa using h)
  clear h
  induction m with
  | nil => intro acc _; simp
  | cons kv m ih =>
    intro acc h
    have hlast : ∀ l ∈ acc.map Prod.fst, l < kv.1 := by
      intro l hl
      unfold KeysSorted at h
      rw [List.map_append, List.pairwise_append] at h
      exact h.2.2 l hl kv.1 (by simp)
    rw [List.foldl_cons, insertMember_last hlast, ih _ (by simpa using h)]
    simp

theorem utf8Members_insert {k : Bytes} {v : Json} {m : List (Bytes × Json)}
    (hk : Utf8.valid k = true) (hv : v.utf8 = true) (hm : utf8Members m = true) :
    utf8Members (insertMember k v m) = true := by
  induction m with
  | nil => simp [insertMember, utf8Members, hk, hv]
  | cons kv m ih =>
    obtain ⟨l, w⟩ := kv
    simp only [utf8Members, Bool.and_eq_true] at hm
    unfold insertMember
    split
    · simp [utf8Members, hk, hv, hm]
    · split
      · simp [utf8Members, hk, hv, hm]
      · simp [utf8Members, hm, ih hm.2]

theorem utf8Members_of {m : List (Bytes × Json)} (h : utf8Members m = true) :
    utf8Members (ofMembers m) = true := by
  suffices H : ∀ acc, utf8Members acc = true →
      utf8Members (m.foldl (fun acc kv => insertMember kv.1 kv.2 acc) acc) = true from
    H [] rfl
  induction m with
  | nil => intro acc ha; exact ha
  | cons kv m ih =>
    intro acc ha
    simp only [utf8Members, Bool.and_eq_true] at h
    exact ih h.2 _ (utf8Members_insert h.1.1 h.1.2 ha)

theorem utf8Members_insert_new {k : Bytes} {v : Json} {m : List (Bytes × Json)}
    (h : k ∉ m.map Prod.fst) : utf8Members (insertMember k v m) = utf8Members ((k, v) :: m) := by
  induction m with
  | nil => rfl
  | cons kv m ih =>
    obtain ⟨l, w⟩ := kv
    simp only [List.map_cons, List.mem_cons, not_or] at h
    unfold insertMember
    rw [if_neg h.1]
    split
    · rfl
    · rw [utf8Members, ih h.2]
      simp only [utf8Members]
      ac_rfl

theorem insertMember_keys {k l : Bytes} {v : Json} {m : List (Bytes × Json)} :
    l ∈ (insertMember k v m).map Prod.fst ↔ l = k ∨ l ∈ m.map Prod.fst := by
  induction m with
  | nil => simp [insertMember]
  | cons kv m ih =>
    obtain ⟨x, w⟩ := kv
    unfold insertMember
    split
    · rename_i hk
      subst hk
      simp
    · split
      · simp
      · rw [List.map_cons, List.mem_cons, ih, List.map_cons, List.mem_cons]
        tauto

theorem mem_insertMember {k : Bytes} {v : Json} {m : List (Bytes × Json)} {e : Bytes × Json}
    (h : e ∈ insertMember k v m) : e = (k, v) ∨ e ∈ m := by
  induction m with
  | nil => exact .inl (List.mem_singleton.mp h)
  | cons x m ih =>
    unfold insertMember at h
    split_ifs at h
    · rcases List.mem_cons.mp h with h | h
      · exact .inl h
      · exact .inr (List.mem_cons_of_mem _ h)
    · rcases List.mem_cons.mp h with h | h
      · exact .inl h
      · exact .inr h
    · rcases List.mem_cons.mp h with rfl | h
      · exact .inr List.mem_cons_self
      · rcases ih h with h | h
        · exact .inl h
        · exact .inr (List.mem_cons_of_mem _ h)

/-- An object of distinct keys loses no member. -/
theorem utf8_object {m : List (Bytes × Json)} (keys : List Bytes) (hm : m.map Prod.fst = keys)
    (h : keys.Nodup) : (Json.object m).utf8 = utf8Members m := by
  subst hm
  suffices H : ∀ acc, (∀ k ∈ m.map Prod.fst, k ∉ acc.map Prod.fst) →
      utf8Members (m.foldl (fun acc kv => insertMember kv.1 kv.2 acc) acc) =
        (utf8Members acc && utf8Members m) from by
    rw [Json.object, Json.utf8, ofMembers, H [] (by simp)]
    rfl
  induction m with
  | nil => intro acc _; simp [utf8Members]
  | cons kv m ih =>
    intro acc hacc
    obtain ⟨k, v⟩ := kv
    rw [List.map_cons, List.nodup_cons] at h
    have hk : k ∉ acc.map Prod.fst := hacc k (by simp)
    rw [List.foldl_cons, ih h.2, utf8Members_insert_new hk]
    · simp only [utf8Members]
      ac_rfl
    · intro l hl
      rw [insertMember_keys, not_or]
      refine ⟨?_, hacc l (by simp only [List.map_cons, List.mem_cons]; exact Or.inr hl)⟩
      rintro rfl
      exact h.1 hl

end JsonValue
