import Mathlib.Data.Nat.Notation
import Mathlib.Logic.Function.Basic

/-! Files that are replaced by renaming: each has a name for its text and one for the text that is
being written. A name stands for an inode, and who has opened an inode goes on with it whatever
becomes of the name. -/
namespace RenamedFiles

structure Disk (π β : Type) where
  file : π → Option ℕ
  tmp : π → Option ℕ
  data : ℕ → List β
  fresh : ℕ

variable {π β : Type}

def Disk.empty : Disk π β := ⟨fun _ => none, fun _ => none, fun _ => [], 0⟩

section Operations

variable [DecidableEq π] (d : Disk π β)

def read (p : π) : Option (List β) := (d.file p).map d.data

/-- Opening for writing: the text of an inode that is already there is dropped. -/
def openTmp (p : π) : Disk π β × ℕ :=
  match d.tmp p with
  | some n => ({ d with data := Function.update d.data n [] }, n)
  | none => ({ d with
      tmp := Function.update d.tmp p (some d.fresh)
      data := Function.update d.data d.fresh []
      fresh := d.fresh + 1 }, d.fresh)

/-- A piece laid over a text; `zero` fills what was dropped before it. -/
def overlay (zero : β) (text : List β) (offset : ℕ) (piece : List β) : List β :=
  text.take offset ++ List.replicate (offset - text.length) zero ++ piece ++
    text.drop (offset + piece.length)

def writeAt (zero : β) (n offset : ℕ) (piece : List β) : Disk π β :=
  { d with data := Function.update d.data n (overlay zero (d.data n) offset piece) }

/-- Without a temporary name there is nothing to rename. -/
def rename (p : π) : Option (Disk π β) :=
  (d.tmp p).map fun n =>
    { d with file := Function.update d.file p (some n), tmp := Function.update d.tmp p none }

def removeTmp (p : π) : Disk π β := { d with tmp := Function.update d.tmp p none }

end Operations

section Sound

/-- No inode has two names. -/
structure Sound (d : Disk π β) : Prop where
  file_fresh : ∀ p n, d.file p = some n → n < d.fresh
  tmp_fresh : ∀ p n, d.tmp p = some n → n < d.fresh
  file_inj : ∀ p q n, d.file p = some n → d.file q = some n → p = q
  tmp_inj : ∀ p q n, d.tmp p = some n → d.tmp q = some n → p = q
  apart : ∀ p q n, d.file p = some n → d.tmp q ≠ some n

theorem sound_empty : Sound (Disk.empty : Disk π β) where
  file_fresh _ _ h := by cases h
  tmp_fresh _ _ h := by cases h
  file_inj _ _ _ h := by cases h
  tmp_inj _ _ _ h := by cases h
  apart _ _ _ h := by cases h

variable {d : Disk π β} {p q : π}

theorem overlay_end (zero : β) (text piece : List β) :
    overlay zero text text.length piece = text ++ piece := by
  rw [overlay, List.take_length, Nat.sub_self, List.drop_of_length_le (Nat.le_add_right _ _)]
  simp

/-- Writing to an inode under a temporary name leaves every file as it is. -/
theorem read_writeAt (h : Sound d) {n : ℕ} (hn : d.tmp p = some n) (zero : β) (offset : ℕ)
    (piece : List β) (q : π) : read (writeAt d zero n offset piece) q = read d q := by
  unfold read writeAt
  cases hq : d.file q with
  | none => rfl
  | some m =>
    have hne : m ≠ n := by
      rintro rfl
      exact h.apart q p m hq hn
    simp only [Option.map_some, Function.update_of_ne hne]

theorem sound_writeAt (h : Sound d) (zero : β) (n offset : ℕ) (piece : List β) :
    Sound (writeAt d zero n offset piece) := ⟨h.1, h.2, h.3, h.4, h.5⟩

variable [DecidableEq π]

theorem openTmp_none (h : d.tmp p = none) :
    openTmp d p = ({ d with
      tmp := Function.update d.tmp p (some d.fresh)
      data := Function.update d.data d.fresh []
      fresh := d.fresh + 1 }, d.fresh) := by
  rw [openTmp, h]

theorem sound_openTmp (h : Sound d) (hp : d.tmp p = none) : Sound (openTmp d p).1 := by
  rw [openTmp_none hp]
  refine ⟨?_, ?_, h.file_inj, ?_, ?_⟩
  · intro q n hq
    exact Nat.lt_succ_of_lt (h.file_fresh q n hq)
  · intro q n hq
    by_cases he : q = p
    · subst he
      simp only [Function.update_self, Option.some.injEq] at hq
      rw [← hq]
      exact Nat.lt_succ_self _
    · simp only [Function.update_of_ne he] at hq
      exact Nat.lt_succ_of_lt (h.tmp_fresh q n hq)
  · intro q r n hq hr
    by_cases he : q = p
    · by_cases he' : r = p
      · rw [he, he']
      · simp only [he, Function.update_self, Option.some.injEq] at hq
        simp only [Function.update_of_ne he'] at hr
        have := h.tmp_fresh r n hr
        omega
    · simp only [Function.update_of_ne he] at hq
      by_cases he' : r = p
      · simp only [he', Function.update_self, Option.some.injEq] at hr
        have := h.tmp_fresh q n hq
        omega
      · simp only [Function.update_of_ne he'] at hr
        exact h.tmp_inj q r n hq hr
  · intro q r n hq hr
    by_cases he : r = p
    · simp only [he, Function.update_self, Option.some.injEq] at hr
      have := h.file_fresh q n hq
      omega
    · simp only [Function.update_of_ne he] at hr
      exact h.apart q r n hq hr

theorem read_openTmp (h : Sound d) (hp : d.tmp p = none) (q : π) :
    read (openTmp d p).1 q = read d q := by
  rw [openTmp_none hp]
  unfold read
  cases hq : d.file q with
  | none => rfl
  | some m =>
    have hne : m ≠ d.fresh := Nat.ne_of_lt (h.file_fresh q m hq)
    simp only [Option.map_some, Function.update_of_ne hne]

theorem rename_some {n : ℕ} (hp : d.tmp p = some n) :
    rename d p = some { d with
      file := Function.update d.file p (some n), tmp := Function.update d.tmp p none } := by
  rw [rename, hp]
  rfl

theorem sound_rename (h : Sound d) {n : ℕ} (hp : d.tmp p = some n) {d' : Disk π β}
    (hd : rename d p = some d') : Sound d' := by
  rw [rename_some hp, Option.some.injEq] at hd
  subst hd
  have htmp : ∀ {q m}, Function.update d.tmp p none q = some m → q ≠ p ∧ d.tmp q = some m := by
    intro q m hq
    by_cases he : q = p
    · simp only [he, Function.update_self] at hq
      cases hq
    · rw [Function.update_of_ne he] at hq
      exact ⟨he, hq⟩
  have hfile : ∀ {q m}, Function.update d.file p (some n) q = some m →
      q = p ∧ m = n ∨ q ≠ p ∧ d.file q = some m := by
    intro q m hq
    by_cases he : q = p
    · simp only [he, Function.update_self, Option.some.injEq] at hq
      exact .inl ⟨he, hq.symm⟩
    · rw [Function.update_of_ne he] at hq
      exact .inr ⟨he, hq⟩
  refine ⟨?_, ?_, ?_, ?_, ?_⟩
  · intro q m hq
    rcases hfile hq with ⟨-, rfl⟩ | ⟨-, hold⟩
    · exact h.tmp_fresh p m hp
    · exact h.file_fresh q m hold
  · intro q m hq
    exact h.tmp_fresh q m (htmp hq).2
  · intro q r m hq hr
    rcases hfile hq with ⟨rfl, rfl⟩ | ⟨-, hqold⟩
    · rcases hfile hr with ⟨rfl, -⟩ | ⟨-, hrold⟩
      · rfl
      · exact absurd hp (h.apart r q m hrold)
    · rcases hfile hr with ⟨rfl, rfl⟩ | ⟨-, hrold⟩
      · exact absurd hp (h.apart q r m hqold)
      · exact h.file_inj q r m hqold hrold
  · intro q r m hq hr
    exact h.tmp_inj q r m (htmp hq).2 (htmp hr).2
  · intro q r m hq hr
    obtain ⟨hne, hrold⟩ := htmp hr
    rcases hfile hq with ⟨rfl, rfl⟩ | ⟨-, hqold⟩
    · exact hne (h.tmp_inj r q m hrold hp)
    · exact h.apart q r m hqold hrold

theorem read_rename_self {n : ℕ} (hp : d.tmp p = some n) {d' : Disk π β}
    (hd : rename d p = some d') : read d' p = some (d.data n) := by
  rw [rename_some hp, Option.some.injEq] at hd
  subst hd
  simp only [read, Function.update_self, Option.map_some]

theorem read_rename_other {n : ℕ} (hp : d.tmp p = some n) (hq : q ≠ p) {d' : Disk π β}
    (hd : rename d p = some d') : read d' q = read d q := by
  rw [rename_some hp, Option.some.injEq] at hd
  subst hd
  simp only [read, Function.update_of_ne hq]

end Sound

end RenamedFiles
