import TizenClaw.OtaUpdater
import TizenClaw.TransitionSystem

/-! The backups over all updates and rollbacks of all skills. They lie in one directory, under the
name of the skill and the time; a rollback finds them by the start of their names. -/
namespace OtaBackups

open ByteString JsonValue JsonDump JsonRoundTrip OtaUpdater OrderedMap TransitionSystem

section Model

/-- The skills and their backups. The backups that are there are also listed in the order in which
they were made, each with the skill whose operation made it. -/
structure History where
  disk : Disk
  made : List (SkillName × Bytes) := []

inductive Event where
  | update (configured : Bool) (w : World) (name : SkillName)
  | rollback (w : World) (name : SkillName)

variable (readFloat : Bytes → Option NumberText) (sha256 : Bytes → Bytes)

def names (disk : Disk) : List Bytes := disk.backups.map Prod.fst

/-- What an operation on a skill has made and taken away. -/
def record (name : SkillName) (before after : List Bytes) (made : List (SkillName × Bytes)) :
    List (SkillName × Bytes) :=
  made.filter (fun m => m.2 ∈ after) ++ (after.filter (· ∉ before)).map fun d => (name, d)

def History.become (s : History) (name : SkillName) (disk : Disk) : History :=
  ⟨disk, record name (names s.disk) (names disk) s.made⟩

def step (s : History) : Event → History
  | .update configured w name =>
    s.become name (updateSkill readFloat sha256 configured w name s.disk).2
  | .rollback w name => s.become name (rollbackSkill readFloat w name s.disk).2

def ota : System History Event where
  Init s := s.disk.skills.get backupName = none ∧ s.made = []
  Step s e t := t = step readFloat sha256 s e

/-- The last of the backups of a skill that are there. -/
def newest (name : SkillName) (made : List (SkillName × Bytes)) : Option Bytes :=
  (made.filter fun m => m.1.text = name.text).getLast?.map Prod.snd

/-- A rollback takes up the last backup that was made of its skill, or none. -/
def Own (s : History) : Event → Prop
  | .update _ _ _ => True
  | .rollback w name =>
    ∀ b ∈ latestBackup w name s.disk.backups, newest name s.made = some b.1

instance (s : History) : ∀ e : Event, Decidable (Own s e)
  | .update _ _ _ => inferInstanceAs (Decidable True)
  | .rollback w name => inferInstanceAs
      (Decidable (∀ b ∈ latestBackup w name s.disk.backups, newest name s.made = some b.1))

/-- The skill itself, or one whose name goes on behind an underscore. -/
def Similar (name other : SkillName) : Prop :=
  other.text = name.text ∨ name.text ++ bytes "_" <+: other.text

instance (name other : SkillName) : Decidable (Similar name other) :=
  inferInstanceAs (Decidable (_ ∨ _))

/-- At a rollback the last backup of the skill has been written after all those before it, and not
before those behind it, among the skills of similar names; or none of them can be read. -/
def Distinguished (s : History) : Event → Prop
  | .update _ _ _ => True
  | .rollback w name =>
    (∀ m ∈ s.made, Similar name m.1 → w.lastWrite m.2 = none) ∨
      ∃ m₁ m m₂ t, s.made = m₁ ++ m :: m₂ ∧ m.1.text = name.text ∧
        (∀ x ∈ m₂, x.1.text ≠ name.text) ∧ w.lastWrite m.2 = some t ∧
          (∀ x ∈ m₁, Similar name x.1 → ∀ u ∈ w.lastWrite x.2, u < t) ∧
            ∀ x ∈ m₂, Similar name x.1 → ∀ u ∈ w.lastWrite x.2, u ≤ t

end Model

section Names

/-- The directory of a backup. -/
def backupDir (name : SkillName) (now : ℤ) : Bytes := name.text ++ bytes "_" ++ decimalInt now

/-- The name of a backup starts like those of another skill only if the name of its skill does. -/
theorem prefix_backupDir (name other : SkillName) (now : ℤ) :
    name.text ++ bytes "_" <+: backupDir other now ↔ Similar name other := by
  have hbytes : bytes "_" = [0x5F] := by decide
  rw [backupDir, Similar, hbytes, List.append_assoc]
  constructor
  · rintro ⟨u, hu⟩
    rcases List.append_eq_append_iff.mp hu with ⟨a, ha, -⟩ | ⟨c, hc, hd⟩
    · exact .inr ⟨a, ha.symm⟩
    · cases c with
      | nil =>
        rw [List.append_nil] at hc
        exact .inr ⟨[], by rw [List.append_nil, hc]⟩
      | cons b c =>
        obtain ⟨rfl, hdec⟩ := List.cons.inj hd
        cases c using List.reverseRecOn with
        | nil => exact .inl (List.append_inj' hc rfl).1.symm
        | append_singleton c b' =>
          -- the underscore behind the name would be one of the digits
          rw [← List.cons_append, ← List.append_assoc] at hc
          obtain ⟨-, hb⟩ := List.append_inj' hc rfl
          obtain rfl := List.singleton_inj.mp hb
          have hdec : decimalInt now = (c ++ [0x5F]) ++ u := hdec
          apply absurd _ (underscore_not_mem now)
          rw [hdec]
          simp
  · rintro (h | ⟨a, ha⟩)
    · rw [h, ← List.append_assoc]
      exact List.prefix_append _ _
    · rw [← ha, List.append_assoc]
      exact List.prefix_append _ _

end Names

section Latest

variable {α β : Type*}

/-- The later of the one so far and the next, if there is a time for that. -/
def pick (time : α → Option ℤ) (latest : Option (α × ℤ)) (x : α) : Option (α × ℤ) :=
  match time x with
  | none => latest
  | some t => match latest with
    | none => some (x, t)
    | some (y, u) => if u < t then some (x, t) else some (y, u)

theorem foldl_pick_none (time : α → Option ℤ) (l : List α) :
    l.foldl (pick time) none = none ↔ ∀ x ∈ l, time x = none := by
  induction l using List.reverseRecOn with
  | nil => simp
  | append_singleton l a ih =>
    rw [List.foldl_append, List.forall_mem_append, List.forall_mem_singleton, ← ih]
    rcases l.foldl (pick time) none with _ | ⟨y, u⟩
    · cases ht : time a with
      | none => simp [pick, ht]
      | some t => simp [pick, ht]
    · refine iff_of_false ?_ (by simp)
      rw [List.foldl_cons, List.foldl_nil, pick]
      cases time a with
      | none => simp
      | some t =>
        dsimp only
        split_ifs <;> simp

theorem pick_eq_some (time : α → Option ℤ) (latest : Option (α × ℤ)) (a x : α) (t : ℤ) :
    pick time latest a = some (x, t) ↔
      (x = a ∧ time a = some t ∧ ∀ y u, latest = some (y, u) → u < t) ∨
        (latest = some (x, t) ∧ ∀ u ∈ time a, u ≤ t) := by
  rw [pick]
  cases time a with
  | none => simp
  | some v =>
    rcases latest with _ | ⟨y, u⟩
    · simp [eq_comm]
    · simp only [Option.some.injEq, Prod.mk.injEq, and_imp, Option.mem_def, forall_eq']
      split_ifs with hlt
      · simp only [Option.some.injEq, Prod.mk.injEq]
        constructor
        · rintro ⟨rfl, rfl⟩
          exact .inl ⟨rfl, rfl, fun _ _ _ hu => hu ▸ hlt⟩
        · rintro (⟨rfl, rfl, -⟩ | ⟨⟨rfl, rfl⟩, hle⟩)
          · exact ⟨rfl, rfl⟩
          · omega
      · simp only [Option.some.injEq, Prod.mk.injEq]
        constructor
        · rintro ⟨rfl, rfl⟩
          exact .inr ⟨⟨rfl, rfl⟩, by omega⟩
        · rintro (⟨rfl, rfl, h⟩ | ⟨h, -⟩)
          · exact absurd (h y u rfl rfl) hlt
          · exact h

/-- What stands in a list with one more element at its end. -/
theorem exists_split_concat {l : List α} {a x : α} {P : List α → List α → Prop} :
    (∃ l₁ l₂, l ++ [a] = l₁ ++ x :: l₂ ∧ P l₁ l₂) ↔
      (x = a ∧ P l []) ∨ ∃ l₁ l₂, l = l₁ ++ x :: l₂ ∧ P l₁ (l₂ ++ [a]) := by
  constructor
  · rintro ⟨l₁, l₂, hl, hP⟩
    cases l₂ using List.reverseRecOn with
    | nil =>
      obtain ⟨rfl, hx⟩ := List.append_inj' hl rfl
      obtain rfl := List.singleton_inj.mp hx
      exact .inl ⟨rfl, hP⟩
    | append_singleton l₂ b =>
      rw [← List.cons_append, ← List.append_assoc] at hl
      obtain ⟨rfl, hb⟩ := List.append_inj' hl rfl
      obtain rfl := List.singleton_inj.mp hb
      exact .inr ⟨l₁, l₂, rfl, hP⟩
  · rintro (⟨rfl, hP⟩ | ⟨l₁, l₂, rfl, hP⟩)
    · exact ⟨l, [], rfl, hP⟩
    · exact ⟨l₁, l₂ ++ [a], by simp, hP⟩

/-- The latest is later than those before it, and as late as those behind it. -/
theorem foldl_pick_some (time : α → Option ℤ) (l : List α) (x : α) (t : ℤ) :
    l.foldl (pick time) none = some (x, t) ↔ ∃ l₁ l₂, l = l₁ ++ x :: l₂ ∧ time x = some t ∧
      (∀ z ∈ l₁, ∀ u ∈ time z, u < t) ∧ ∀ z ∈ l₂, ∀ u ∈ time z, u ≤ t := by
  induction l using List.reverseRecOn generalizing x t with
  | nil => simp
  | append_singleton l a ih =>
    have hlate : (∀ z ∈ l, ∀ u ∈ time z, u < t) ↔
        ∀ y u, l.foldl (pick time) none = some (y, u) → u < t := by
      constructor
      · intro h y u hy
        obtain ⟨l₁, l₂, rfl, hu, -, -⟩ := (ih y u).mp hy
        exact h y (by simp) u hu
      · intro h z hz v hv
        cases hr : l.foldl (pick time) none with
        | none =>
          rw [(foldl_pick_none time l).mp hr z hz] at hv
          cases hv
        | some y =>
          have hy := h y.1 y.2 hr
          obtain ⟨l₁, l₂, rfl, hu, hbefore, hbehind⟩ := (ih y.1 y.2).mp hr
          rcases List.mem_append.mp hz with hz | hz
          · exact (hbefore z hz v hv).trans hy
          · rcases List.mem_cons.mp hz with rfl | hz
            · obtain rfl := Option.some.inj (hu.symm.trans hv)
              exact hy
            · exact lt_of_le_of_lt (hbehind z hz v hv) hy
    have hsplit : (∃ l₁ l₂, l ++ [a] = l₁ ++ x :: l₂ ∧ time x = some t ∧
        (∀ z ∈ l₁, ∀ u ∈ time z, u < t) ∧ ∀ z ∈ l₂, ∀ u ∈ time z, u ≤ t) ↔
        (x = a ∧ time a = some t ∧ ∀ y u, l.foldl (pick time) none = some (y, u) → u < t) ∨
          (l.foldl (pick time) none = some (x, t) ∧ ∀ u ∈ time a, u ≤ t) := by
      rw [exists_split_concat, ih, ← hlate]
      refine or_congr ?_ ?_
      · constructor
        · rintro ⟨rfl, ht, hl, -⟩
          exact ⟨rfl, ht, hl⟩
        · rintro ⟨rfl, ht, hl⟩
          exact ⟨rfl, ht, hl, by simp⟩
      · constructor
        · rintro ⟨l₁, l₂, hl, ht, h₁, h₂⟩
          rw [List.forall_mem_append, List.forall_mem_singleton] at h₂
          exact ⟨⟨l₁, l₂, hl, ht, h₁, h₂.1⟩, h₂.2⟩
        · rintro ⟨⟨l₁, l₂, hl, ht, h₁, h₂⟩, ha⟩
          rw [← List.forall_mem_singleton (a := a) (p := fun z => ∀ u ∈ time z, u ≤ t)] at ha
          exact ⟨l₁, l₂, hl, ht, h₁, List.forall_mem_append.mpr ⟨h₂, ha⟩⟩
    rw [hsplit, List.foldl_append, List.foldl_cons, List.foldl_nil]
    exact pick_eq_some time _ a x t

theorem foldl_pick_map (time : β → Option ℤ) (f : α → β) (l : List α) (latest : Option (α × ℤ)) :
    (l.map f).foldl (pick time) (latest.map (Prod.map f id)) =
      (l.foldl (pick (time ∘ f)) latest).map (Prod.map f id) := by
  induction l generalizing latest with
  | nil => rfl
  | cons a l ih =>
    rw [List.map_cons, List.foldl_cons, List.foldl_cons, ← ih]
    congr 1
    simp only [pick, Function.comp_apply]
    cases time (f a) with
    | none => rfl
    | some t =>
      rcases latest with _ | ⟨y, u⟩
      · rfl
      · simp only [Option.map_some, Prod.map_apply, id_eq]
        split_ifs <;> rfl

end Latest

section Directory

variable {readFloat : Bytes → Option NumberText} {sha256 : Bytes → Bytes} {disk : Disk}

theorem setEntry_names (d : Bytes) (node : Node) (l : List (Bytes × Node)) :
    (setEntry d node l).map Prod.fst =
      if d ∈ l.map Prod.fst then l.map Prod.fst else l.map Prod.fst ++ [d] := by
  induction l with
  | nil => rfl
  | cons e l ih =>
    rw [setEntry]
    by_cases he : e.1 = d
    · rw [if_pos he, List.map_cons, List.map_cons, if_pos (by rw [he]; exact List.mem_cons_self), he]
    · rw [if_neg he, List.map_cons, List.map_cons, ih]
      by_cases hd : d ∈ l.map Prod.fst
      · rw [if_pos hd, if_pos (List.mem_cons_of_mem _ hd)]
      · rw [if_neg hd, if_neg (List.not_mem_cons_of_ne_of_not_mem (Ne.symm he) hd),
          List.cons_append]

theorem backups_setBackups (disk : Disk) (entries : List (Bytes × Node)) :
    (disk.setBackups entries).backups = entries := by
  have hget : (disk.setBackups entries).skills.get backupName = some (.dir entries) :=
    Map.get_insert_self _ _ _
  rw [Disk.backups, hget]
  rfl

theorem get_setSkill (disk : Disk) (name : SkillName) (node : Option Node) :
    (disk.setSkill name node).skills.get backupName = disk.skills.get backupName := by
  cases node with
  | none => exact Map.get_erase_other name.notBackup.symm _
  | some node => exact Map.get_insert_other name.notBackup.symm _ _

/-- What may become of the names of the backups when one of a skill is made. -/
def Adds (name : SkillName) (before after : List Bytes) : Prop :=
  after = before ∨ ∃ now, backupDir name now ∉ before ∧ after = before ++ [backupDir name now]

theorem backupSkill_adds (w : World) (name : SkillName) (disk : Disk) :
    Adds name (names disk) (names (backupSkill w name disk).2) := by
  have hset : ∀ node, Adds name (names disk)
      (names (disk.setBackups (setEntry (backupDir name w.now) node disk.backups))) := by
    intro node
    unfold names
    rw [backups_setBackups, setEntry_names]
    by_cases hd : backupDir name w.now ∈ disk.backups.map Prod.fst
    · rw [if_pos hd]
      exact .inl rfl
    · rw [if_neg hd]
      exact .inr ⟨w.now, hd, rfl⟩
  rw [backupSkill]
  cases disk.skill name with
  | none => exact .inl rfl
  | some src =>
    dsimp only
    by_cases hc : w.createBackupDir = true
    · rw [if_pos hc]
      rcases w.backupFails with _ | _ | left
      · exact hset _
      · refine .inl ?_
        rw [names, backups_setBackups]
        rfl
      · exact hset left
    · rw [if_neg hc]
      exact .inl rfl

theorem downloadFile_names (w : World) (name : SkillName) (disk : Disk) :
    names (downloadFile w name disk).2 = names disk := by
  rw [downloadFile]
  cases w.download with
  | none => rfl
  | some body =>
    dsimp only
    split_ifs
    · rfl
    · rfl

theorem prepare_adds (w : World) (name : SkillName) (disk : Disk) :
    Adds name (names disk) (names (prepare readFloat sha256 w name disk).2) := by
  have hbackup := backupSkill_adds w name disk
  have hdownload : Adds name (names disk)
      (names (downloadFile w name (backupSkill w name disk).2).2) := by
    rw [downloadFile_names]
    exact hbackup
  unfold prepare
  split
  · exact .inl rfl
  · split
    · exact .inl rfl
    · dsimp only
      split_ifs
      · exact hdownload
      · exact hdownload
      · exact hdownload
      · exact hbackup
      · exact .inl rfl

theorem names_setSkill (disk : Disk) (name : SkillName) (node : Option Node) :
    names (disk.setSkill name node) = names disk := by
  rw [names, Disk.backups, get_setSkill]
  rfl

theorem updateSkill_adds (configured : Bool) (w : World) (name : SkillName) (disk : Disk) :
    Adds name (names disk) (names (updateSkill readFloat sha256 configured w name disk).2) := by
  cases configured with
  | false => exact .inl rfl
  | true =>
    have hprepare : Adds name (names disk) (names (prepare readFloat sha256 w name disk).2) :=
      prepare_adds w name disk
    rw [updateSkill, if_pos rfl]
    rcases hp : prepare readFloat sha256 w name disk with ⟨report | target, disk'⟩
    · rw [hp] at hprepare
      exact hprepare
    · rw [hp, ← names_setSkill disk' name (w.createDirectory (w.removeAll (disk'.skill name)))]
        at hprepare
      dsimp only
      cases w.move (w.createDirectory (w.removeAll (disk'.skill name))) with
      | some message => exact hprepare
      | none =>
        rw [names_setSkill, ← names_setSkill disk' name (some (.dir (setEntry
          (bytes "manifest.json") (.file ((disk'.tmp.get name.text).getD []))
          (((w.createDirectory (w.removeAll (disk'.skill name))).map Node.entries).getD []))))]
          at hprepare
        exact hprepare

/-- A rollback takes away the backup it has restored, if any. -/
theorem rollbackSkill_names (w : World) (name : SkillName) (disk : Disk) :
    names (rollbackSkill readFloat w name disk).2 = names disk ∨
      ∃ d, names (rollbackSkill readFloat w name disk).2 = (names disk).filter (· ≠ d) := by
  rw [rollbackSkill]
  cases disk.skills.get backupName with
  | none => exact .inl rfl
  | some node =>
    dsimp only
    cases latestBackup w name disk.backups with
    | none => exact .inl rfl
    | some backup =>
      dsimp only
      cases w.restoreFails with
      | some fails => exact .inl (names_setSkill _ _ _)
      | none =>
        refine .inr ⟨backup.1, ?_⟩
        dsimp only
        rw [names, backups_setBackups, names, List.filter_map]
        rfl

end Directory

section Runs

variable {readFloat : Bytes → Option NumberText} {sha256 : Bytes → Bytes}

/-- The backups that are there are those that were made, each under the name of its skill. -/
structure Inv (s : History) : Prop where
  listed : s.made.map Prod.snd = names s.disk
  nodup : (names s.disk).Nodup
  named : ∀ m ∈ s.made, ∃ now, m.2 = backupDir m.1 now

theorem become_inv {s : History} (hI : Inv s) {name : SkillName} {disk : Disk}
    (h : Adds name (names s.disk) (names disk) ∨
      ∃ d, names disk = (names s.disk).filter (· ≠ d)) : Inv (s.become name disk) := by
  have hmade : ∀ m ∈ s.made, m.2 ∈ names s.disk := by
    intro m hm
    rw [← hI.listed]
    exact List.mem_map_of_mem hm
  rcases h with (h | ⟨now, hnew, h⟩) | ⟨d, h⟩
  · have hrecord : record name (names s.disk) (names disk) s.made = s.made := by
      rw [record, h, List.filter_eq_self.mpr (by simpa using hmade), List.filter_eq_nil_iff.mpr]
      · exact List.append_nil _
      · simp
    refine ⟨?_, ?_, ?_⟩
    · rw [History.become, hrecord, h]
      exact hI.listed
    · rw [History.become, h]
      exact hI.nodup
    · rw [History.become, hrecord]
      exact hI.named
  · have hrecord : record name (names s.disk) (names disk) s.made =
        s.made ++ [(name, backupDir name now)] := by
      rw [record, h, List.filter_eq_self.mpr, List.filter_append, List.filter_eq_nil_iff.mpr]
      · simp [hnew]
      · simp
      · intro m hm
        simp [hmade m hm]
    refine ⟨?_, ?_, ?_⟩
    · rw [History.become, hrecord, List.map_append, hI.listed]
      exact h.symm
    · rw [History.become, h, List.nodup_append]
      refine ⟨hI.nodup, List.nodup_singleton _, ?_⟩
      rintro a ha b hb rfl
      rw [List.mem_singleton] at hb
      exact hnew (hb ▸ ha)
    · rw [History.become, hrecord, List.forall_mem_append, List.forall_mem_singleton]
      exact ⟨hI.named, now, rfl⟩
  · have hrecord : record name (names s.disk) (names disk) s.made =
        s.made.filter fun m => m.2 ≠ d := by
      rw [record, h, List.filter_eq_nil_iff (p := fun x => decide (x ∉ names s.disk)) |>.mpr]
      · rw [List.map_nil, List.append_nil]
        apply List.filter_congr
        intro m hm
        simp [hmade m hm]
      · intro x hx
        simpa using (List.mem_filter.mp hx).1
    refine ⟨?_, ?_, ?_⟩
    · rw [History.become, hrecord, h, ← hI.listed, List.filter_map]
      rfl
    · rw [History.become, h]
      exact hI.nodup.filter _
    · rw [History.become, hrecord]
      intro m hm
      exact hI.named m (List.mem_filter.mp hm).1

theorem run_inv {tr} {s : History} (h : Run (ota readFloat sha256) tr s) : Inv s := by
  apply h.invariant
  · rintro s ⟨hdir, hmade⟩
    have hnames : names s.disk = [] := by
      rw [names, Disk.backups, hdir]
      rfl
    refine ⟨?_, ?_, ?_⟩
    · rw [hmade, hnames]
      rfl
    · rw [hnames]
      exact List.nodup_nil
    · rw [hmade]
      exact nofun
  · rintro s e t hI rfl
    cases e with
    | update configured w name => exact become_inv hI (.inl (updateSkill_adds configured w name _))
    | rollback w name =>
      have hnames : names (rollbackSkill readFloat w name s.disk).2 = names s.disk ∨ _ :=
        rollbackSkill_names w name s.disk
      rcases hnames with h | h
      · exact become_inv hI (.inl (.inl h))
      · exact become_inv hI (.inr h)

end Runs

section Rollback

variable {s : History} {w : World} {name : SkillName}

/-- When a backup was written that a rollback takes into account. -/
def writeTime (w : World) (name : SkillName) (m : SkillName × Bytes) : Option ℤ :=
  if Similar name m.1 then w.lastWrite m.2 else none

/-- The choice of a rollback, as one among the backups that were made. -/
theorem latestBackup_made (hI : Inv s) :
    (latestBackup w name s.disk.backups).map Prod.fst =
      (s.made.foldl (pick (writeTime w name)) none).map fun x => x.1.2 := by
  let time : Bytes → Option ℤ := fun d =>
    if (name.text ++ bytes "_").isPrefixOf d then w.lastWrite d else none
  have hentries : latestBackup w name s.disk.backups =
      (s.disk.backups.foldl (pick (time ∘ Prod.fst)) none).map Prod.fst := by
    rw [latestBackup]
    congr 2
    funext latest e
    rw [pick]
    by_cases hp : (name.text ++ bytes "_").isPrefixOf e.1 = true
    · rw [if_pos hp]
      have ht : (time ∘ Prod.fst) e = w.lastWrite e.1 := if_pos hp
      rw [ht]
      cases w.lastWrite e.1 with
      | none => rfl
      | some t =>
        rcases latest with _ | ⟨y, u⟩
        · rfl
        · rfl
    · rw [if_neg hp]
      have ht : (time ∘ Prod.fst) e = none := if_neg hp
      rw [ht]
  have hmade : s.made.foldl (pick (time ∘ Prod.snd)) none =
      s.made.foldl (pick (writeTime w name)) none := by
    apply List.foldl_ext
    intro latest m hm
    obtain ⟨now, hd⟩ := hI.named m hm
    have ht : (time ∘ Prod.snd) m = writeTime w name m := by
      change (if (name.text ++ bytes "_").isPrefixOf m.2 = true then _ else _) = _
      rw [writeTime]
      refine if_congr ?_ rfl rfl
      rw [List.isPrefixOf_iff_prefix, hd]
      exact prefix_backupDir name m.1 now
    rw [pick, pick, ht]
  have hfst := foldl_pick_map time Prod.fst s.disk.backups none
  have hsnd := foldl_pick_map time Prod.snd s.made none
  rw [hI.listed] at hsnd
  have hnames := hfst.symm.trans hsnd
  rw [hmade] at hnames
  rw [hentries, Option.map_map]
  have hkeys := congrArg (Option.map Prod.fst) hnames
  rw [Option.map_map, Option.map_map] at hkeys
  exact hkeys

theorem newest_eq_some {made : List (SkillName × Bytes)} {d : Bytes} :
    newest name made = some d ↔ ∃ m₁ m m₂, made = m₁ ++ m :: m₂ ∧ m.1.text = name.text ∧
      (∀ x ∈ m₂, x.1.text ≠ name.text) ∧ m.2 = d := by
  induction made using List.reverseRecOn with
  | nil => simp [newest]
  | append_singleton made a ih =>
    have hsplit : (∃ m₁ m m₂, made ++ [a] = m₁ ++ m :: m₂ ∧ m.1.text = name.text ∧
        (∀ x ∈ m₂, x.1.text ≠ name.text) ∧ m.2 = d) ↔
        (a.1.text = name.text ∧ a.2 = d) ∨ (a.1.text ≠ name.text ∧ newest name made = some d) := by
      rw [exists_comm, ih]
      simp only [exists_split_concat, List.forall_mem_append, List.forall_mem_singleton]
      constructor
      · rintro ⟨m, ⟨rfl, hm, -, hd⟩ | ⟨m₁, m₂, hl, hm, ⟨h₂, ha⟩, hd⟩⟩
        · exact .inl ⟨hm, hd⟩
        · exact .inr ⟨ha, m₁, m, m₂, hl, hm, h₂, hd⟩
      · rintro (⟨hm, hd⟩ | ⟨ha, m₁, m, m₂, hl, hm, h₂, hd⟩)
        · exact ⟨a, .inl ⟨rfl, hm, by simp, hd⟩⟩
        · exact ⟨m, .inr ⟨m₁, m₂, hl, hm, ⟨h₂, ha⟩, hd⟩⟩
    rw [hsplit, newest, List.filter_append]
    by_cases ha : a.1.text = name.text
    · rw [List.filter_singleton, decide_eq_true ha]
      simp [ha]
    · rw [List.filter_singleton, decide_eq_false ha]
      simp [ha, newest]

/-- An element stands once in a list without repetitions. -/
theorem split_unique {α β : Type*} (f : α → β) {l₁ l₂ l₁' l₂' : List α} {a b : α}
    (h : l₁ ++ a :: l₂ = l₁' ++ b :: l₂') (hn : ((l₁ ++ a :: l₂).map f).Nodup) (hf : f a = f b) :
    l₁ = l₁' ∧ a = b ∧ l₂ = l₂' := by
  have hfresh : ∀ (k₁ k₂ : List α) (x y : α), ((k₁ ++ x :: k₂).map f).Nodup → f x = f y →
      y ∉ k₁ ∧ y ∉ k₂ := by
    intro k₁ k₂ x y hk hxy
    rw [List.map_append, List.map_cons, List.nodup_append, List.nodup_cons] at hk
    obtain ⟨-, ⟨hx, -⟩, hdis⟩ := hk
    constructor
    · intro hy
      exact hdis _ (List.mem_map_of_mem hy) _ List.mem_cons_self hxy.symm
    · intro hy
      exact hx (hxy ▸ List.mem_map_of_mem hy)
  rcases List.append_eq_append_iff.mp h with ⟨c, rfl, hc⟩ | ⟨c, rfl, hc⟩
  · cases c with
    | nil =>
      obtain ⟨rfl, rfl⟩ := List.cons.inj hc
      exact ⟨(List.append_nil _).symm, rfl, rfl⟩
    | cons x c =>
      obtain ⟨rfl, rfl⟩ := List.cons.inj hc
      exact absurd (by simp) (hfresh _ _ _ _ hn hf).2
  · cases c with
    | nil =>
      obtain ⟨rfl, rfl⟩ := List.cons.inj hc
      exact ⟨List.append_nil _, rfl, rfl⟩
    | cons x c =>
      obtain ⟨rfl, rfl⟩ := List.cons.inj hc
      exact absurd (by simp) (hfresh _ _ _ _ hn hf).1

theorem own_iff (hI : Inv s) (e : Event) : Own s e ↔ Distinguished s e := by
  cases e with
  | update configured w name => exact Iff.rfl
  | rollback w name =>
    have hmade : (latestBackup w name s.disk.backups).map Prod.fst =
        (s.made.foldl (pick (writeTime w name)) none).map fun x => x.1.2 := latestBackup_made hI
    have hnodup : (s.made.map Prod.snd).Nodup := by
      rw [hI.listed]
      exact hI.nodup
    have htime : ∀ {m u}, u ∈ writeTime w name m ↔ Similar name m.1 ∧ u ∈ w.lastWrite m.2 := by
      intro m u
      rw [writeTime, Option.mem_ite_none_right]
    have hown : Own s (.rollback w name) ↔
        ∀ x ∈ s.made.foldl (pick (writeTime w name)) none, newest name s.made = some x.1.2 := by
      have hforall : Own s (.rollback w name) ↔
          ∀ d ∈ (latestBackup w name s.disk.backups).map Prod.fst, newest name s.made = some d := by
        rw [Option.forall_mem_map (p := fun d => newest name s.made = some d)]
        exact Iff.rfl
      rw [hforall, hmade, Option.forall_mem_map (p := fun d => newest name s.made = some d)]
    rw [hown, Distinguished]
    rcases hr : s.made.foldl (pick (writeTime w name)) none with _ | ⟨x, t⟩
    · refine iff_of_true nofun (.inl ?_)
      intro m hm hs
      have hnone := (foldl_pick_none _ _).mp hr m hm
      rwa [writeTime, if_pos hs] at hnone
    · obtain ⟨l₁, l₂, hl, ht, h₁, h₂⟩ := (foldl_pick_some _ _ x t).mp hr
      have hx := htime.mp ht
      have hnewest : (∀ y ∈ some (x, t), newest name s.made = some y.1.2) ↔
          newest name s.made = some x.2 := by simp
      rw [hnewest]
      constructor
      · intro hn
        obtain ⟨n₁, n, n₂, hsplit, hname, hlast, hd⟩ := newest_eq_some.mp hn
        obtain ⟨rfl, rfl, rfl⟩ := split_unique Prod.snd (hl.symm.trans hsplit) (hl ▸ hnodup) hd.symm
        exact .inr ⟨l₁, x, l₂, t, hl, hname, hlast, hx.2, fun z hz hs u hu => h₁ z hz u (htime.mpr
          ⟨hs, hu⟩), fun z hz hs u hu => h₂ z hz u (htime.mpr ⟨hs, hu⟩)⟩
      · rintro (hnone | ⟨m₁, m, m₂, u, hsplit, hname, hlast, hu, hbefore, hbehind⟩)
        · have hmem : x ∈ s.made := by
            rw [hl]
            simp
          have hnot := hnone x hmem hx.1
          rw [hnot] at hx
          cases hx.2
        · have hfold := (foldl_pick_some (writeTime w name) s.made m u).mpr
            ⟨m₁, m₂, hsplit, htime.mpr ⟨.inl hname, hu⟩,
              fun z hz v hv => hbefore z hz (htime.mp hv).1 v (htime.mp hv).2,
              fun z hz v hv => hbehind z hz (htime.mp hv).1 v (htime.mp hv).2⟩
          rw [hr] at hfold
          obtain ⟨rfl, rfl⟩ := Prod.mk.inj (Option.some.inj hfold)
          exact newest_eq_some.mpr ⟨m₁, x, m₂, hsplit, hname, hlast, rfl⟩

end Rollback

namespace Counterexample

open OtaUpdater.Counterexample (installed)

def car : SkillName := ⟨bytes "car", by decide, by decide⟩
def carWash : SkillName := ⟨bytes "car_wash", by decide, by decide⟩

/-- Two skills of the same version, and no backups. -/
def start : History where
  disk := { skills := ⟨[(bytes "car", installed), (bytes "car_wash", installed)], by decide⟩ }

/-- There is a new version of one skill; every call works, at the time 5. -/
def world (name : String) : World where
  manifest := some (bytes "\x7b\"skills\":[\x7b\"name\":\"" ++ bytes name ++
    bytes "\",\"version\":\"2\"\x7d]\x7d")
  createBackupDir := true
  now := 5
  backupFails := none
  download := some []
  tmpOpens := true
  written := id
  tmpReads := true
  unremoved := none
  createSkillDir := true
  renameFails := none
  lastWrite := fun _ => some 5
  restoreFails := none

/-- The skill is updated, and then a skill is rolled back. -/
def events (updated : String) (name restored : SkillName) : List Event :=
  [.update true (world updated) name, .rollback (world updated) restored]

theorem step_ota (s : History) (e : Event) (t : History)
    (h : some (step (fun _ => none) id s e) = some t) : (ota (fun _ => none) id).Step s e t :=
  (Option.some.inj h).symm

theorem start_init : (ota (fun _ => none) id).Init start := ⟨rfl, rfl⟩

end Counterexample

end OtaBackups
