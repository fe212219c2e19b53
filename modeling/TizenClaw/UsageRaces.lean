import TizenClaw.RenamedFiles
import TizenClaw.UsageAggregates

/-! Calls of `LogTokenUsage` on several threads: each reads an aggregate file, writes the new text
under a temporary name that all calls share, and renames it. No lock keeps them apart. -/
namespace UsageRaces

open ByteString RenamedFiles TransitionSystem UsageAggregates

/-- The files that all sessions share. -/
inductive Path where
  | daily (date : Bytes)
  | monthly (month : Bytes)
  deriving DecidableEq, Repr

/-- Which of its two updates a call is at. -/
inductive Stage where
  | daily
  | monthly
  | returned
  deriving DecidableEq, Repr

/-- Where it stands within the update: before the file is read, or with a text to write. -/
inductive Place where
  | ready
  | opening (text : Bytes)
  | writing (inode offset : ℕ) (rest : Bytes)
  | failed
  deriving DecidableEq, Repr

structure Thread where
  call : Call
  stage : Stage := .daily
  place : Place := .ready

inductive Action where
  | read
  | openTmp
  | write (n : ℕ)
  | rename
  | remove
  deriving DecidableEq, Repr

structure State where
  disk : Disk Path UInt8 := .empty
  threads : List Thread := []

inductive Event where
  | start (c : Call)
  | act (i : ℕ) (a : Action)

section Step

def Thread.path (th : Thread) : Option Path :=
  match th.stage with
  | .daily => some (.daily th.call.today.date)
  | .monthly => some (.monthly th.call.today.month)
  | .returned => none

/-- The text that replaces what was read. -/
def Thread.render (th : Thread) (content : Option Bytes) : Option Bytes :=
  match th.stage with
  | .daily => dailyMarkdown th.call content
  | .monthly => monthlyMarkdown th.call content
  | .returned => none

def Thread.next (th : Thread) : Thread :=
  { th with place := .ready, stage := match th.stage with
    | .daily => .monthly
    | .monthly => .returned
    | .returned => .returned }

/-- The steps of an update; `AtomicWrite` is from `openTmp` on. What `stoi` throws ends the call. -/
def Thread.advance (th : Thread) (d : Disk Path UInt8) (p : Path) :
    Action → Option (Disk Path UInt8 × Thread)
  | .read => match th.place with
    | .ready => some (d, match th.render (read d p) with
      | some text => { th with place := .opening text }
      | none => { th with stage := .returned })
    | _ => none
  | .openTmp => match th.place with
    | .opening text => some ((openTmp d p).1, { th with place := .writing (openTmp d p).2 0 text })
    | _ => none
  | .write n => match th.place with
    | .writing inode offset rest => some (writeAt d 0 inode offset (rest.take n),
        { th with place := .writing inode (offset + (rest.take n).length) (rest.drop n) })
    | _ => none
  | .rename => match th.place with
    | .writing _ _ [] => some (match rename d p with
      | some d' => (d', th.next)
      | none => (d, { th with place := .failed }))
    | _ => none
  | .remove => match th.place with
    | .failed => some (removeTmp d p, th.next)
    | _ => none

def step (s : State) : Event → Option State
  | .start c => some { s with threads := s.threads ++ [{ call := c }] }
  | .act i a => (s.threads[i]?).bind fun th => th.path.bind fun p =>
    (th.advance s.disk p a).map fun x => ⟨x.1, s.threads.set i x.2⟩

def logging : System State Event where
  Init s := s = {}
  Step s e t := step s e = some t

end Step

section Property

/-- The call has updated the file. -/
def Done (p : Path) (th : Thread) : Bool :=
  match p with
  | .daily date => th.call.today.date = date ∧ th.stage ≠ .daily
  | .monthly month => th.call.today.month = month ∧ th.stage = .returned

def recorded (s : State) (p : Path) : List Call :=
  (s.threads.filter (Done p)).map Thread.call

/-- When all calls have returned, the totals are sums over all of them. -/
def NothingLost (s : State) : Prop :=
  (∀ th ∈ s.threads, th.stage = .returned) → ∀ today : Today,
    (∃ date, parseAggregateMd (read s.disk (.daily today.date)) =
      some ((tally ((s.threads.map Thread.call).filter
        fun c => c.today.date = today.date)).summary date)) ∧
    ∃ month, parseAggregateMd (read s.disk (.monthly today.month)) =
      some ((tally ((s.threads.map Thread.call).filter
        fun c => c.today.month = today.month)).summary month)

/-- Between reading a file and renaming it. -/
def Inside (p : Path) (th : Thread) : Prop := th.path = some p ∧ th.place ≠ .ready

instance (p : Path) (th : Thread) : Decidable (Inside p th) := inferInstanceAs (Decidable (_ ∧ _))

/-- A call reads a file only while no other is between reading and renaming it. The sums fit an
`int`, and no line of the row is taken for a rule of the frontmatter. -/
def Permitted (s : State) : Event → Prop
  | .act i .read => ∀ th ∈ s.threads[i]?, ∀ p ∈ th.path,
    (∀ other ∈ s.threads.eraseIdx i, ¬ Inside p other) ∧
      ((tally (recorded s p)).add th.call).InRange ∧ bytes "---" ∉ lines (dailyRow th.call)
  | _ => True

instance (s : State) (e : Event) : Decidable (Permitted s e) :=
  match e with
  | .start _ => .isTrue trivial
  | .act i .read => inferInstanceAs (Decidable (∀ th ∈ s.threads[i]?, ∀ p ∈ th.path, _))
  | .act _ .openTmp => .isTrue trivial
  | .act _ (.write _) => .isTrue trivial
  | .act _ .rename => .isTrue trivial
  | .act _ .remove => .isTrue trivial

end Property

section Recorded

variable {s : State} {th th' : Thread} {p q : Path} {i : ℕ}

def Path.key : Path → Bytes
  | .daily _ => bytes "date"
  | .monthly _ => bytes "month"

def Path.value : Path → Bytes
  | .daily date => date
  | .monthly month => month

theorem threads_split (h : s.threads[i]? = some th) (th' : Thread) :
    ∃ l₁ l₂, s.threads = l₁ ++ th :: l₂ ∧ s.threads.set i th' = l₁ ++ th' :: l₂ := by
  obtain ⟨hi, rfl⟩ := List.getElem?_eq_some_iff.mp h
  obtain ⟨l₁, l₂, hl, -, hset⟩ := @List.exists_of_set _ i th' s.threads hi
  exact ⟨l₁, l₂, hl, hset⟩

/-- A step within an update, or one of another file. -/
theorem recorded_same (h : s.threads[i]? = some th) (th' : Thread) (hc : th'.call = th.call)
    (hd : Done q th' = Done q th) (d : Disk Path UInt8) :
    recorded ⟨d, s.threads.set i th'⟩ q = recorded s q := by
  obtain ⟨l₁, l₂, hl, hset⟩ := threads_split h th'
  simp only [recorded, hset]
  rw [hl, List.filter_append, List.filter_append, List.filter_cons, List.filter_cons, hd]
  split
  · rw [List.map_append, List.map_append, List.map_cons, List.map_cons, hc]
  · rfl

/-- The end of an update adds the call. -/
theorem recorded_done (h : s.threads[i]? = some th) (th' : Thread) (hc : th'.call = th.call)
    (hbefore : Done q th = false) (hafter : Done q th' = true) (d : Disk Path UInt8) :
    tally (recorded ⟨d, s.threads.set i th'⟩ q) = (tally (recorded s q)).add th.call := by
  obtain ⟨l₁, l₂, hl, hset⟩ := threads_split h th'
  simp only [recorded, hset]
  rw [hl, List.filter_append, List.filter_append, List.filter_cons_of_pos (by simpa using hafter),
    List.filter_cons_of_neg (by simp [hbefore]), List.map_append, List.map_append, List.map_cons,
    tally_insert, hc]

theorem recorded_start (s : State) (c : Call) (q : Path) :
    recorded ⟨s.disk, s.threads ++ [{ call := c }]⟩ q = recorded s q := by
  have hnot : Done q { call := c } = false := by
    cases q <;> simp [Done]
  rw [recorded, recorded, List.filter_append, List.filter_cons_of_neg (by simp [hnot]),
    List.filter_nil, List.append_nil]

theorem path_next_ne (h : th.path = some p) : Done p th = false ∧ Done p th.next = true := by
  unfold Thread.path at h
  split at h
  · next hs =>
    obtain rfl := Option.some.inj h
    simp [Done, Thread.next, hs]
  · next hs =>
    obtain rfl := Option.some.inj h
    simp [Done, Thread.next, hs]
  · cases h

theorem done_next_other (h : th.path = some p) (hq : q ≠ p) : Done q th.next = Done q th := by
  unfold Thread.path at h
  split at h
  · next hs =>
    obtain rfl := Option.some.inj h
    cases q with
    | daily date =>
      have hne : th.call.today.date ≠ date := fun he => hq (he ▸ rfl)
      simp [Done, Thread.next, hne]
    | monthly month => simp [Done, Thread.next, hs]
  · next hs =>
    obtain rfl := Option.some.inj h
    cases q with
    | daily date => simp [Done, Thread.next, hs]
    | monthly month =>
      have hne : th.call.today.month ≠ month := fun he => hq (he ▸ rfl)
      simp [Done, Thread.next, hne]
  · cases h

end Recorded

section Invariant

variable {s t : State} {th th' : Thread} {p q : Path} {i : ℕ}

/-- The text on its way adds the call to what is recorded. -/
def Adds (s : State) (p : Path) (th : Thread) (text : Bytes) : Prop :=
  Tells p.key p.value ((tally (recorded s p)).add th.call) text ∧
    ((tally (recorded s p)).add th.call).InRange

/-- A thread inside an update has the file to itself. -/
def Fine (s : State) (p : Path) (th : Thread) : Prop :=
  match th.place with
  | .ready => True
  | .opening text => Adds s p th text
  | .writing inode offset rest => s.disk.tmp p = some inode ∧
      offset = (s.disk.data inode).length ∧ Adds s p th (s.disk.data inode ++ rest)
  | .failed => False

/-- Writing under the temporary name. -/
def Opened (p : Path) (th : Thread) : Prop :=
  th.path = some p ∧ ∃ inode offset rest, th.place = .writing inode offset rest

structure Good (s : State) : Prop where
  sound : Sound s.disk
  told : ∀ p : Path, Holds p.key p.value (tally (recorded s p)) (read s.disk p) ∧
    (tally (recorded s p)).InRange
  alone : ∀ (i j : ℕ) (th other : Thread) (p : Path), s.threads[i]? = some th →
    s.threads[j]? = some other → Inside p th → Inside p other → i = j
  tmp : ∀ p, (∀ th ∈ s.threads, ¬ Opened p th) → s.disk.tmp p = none
  inside : ∀ (i : ℕ) (th : Thread) (p : Path), s.threads[i]? = some th → th.path = some p →
    Fine s p th

theorem Opened.inside (h : Opened p th) : Inside p th := by
  obtain ⟨hp, inode, offset, rest, hplace⟩ := h
  refine ⟨hp, ?_⟩
  rw [hplace]
  exact fun he => Place.noConfusion he

theorem good_init : Good {} where
  sound := sound_empty
  told p := ⟨rfl, (by decide : (tally []).InRange)⟩
  alone i j th other p hi := by simp at hi
  tmp p _ := rfl
  inside i th p hi := by simp at hi

/-- What a step of one thread has to keep, for the others nothing changes but the disk. -/
theorem good_step (h : Good s) (hi : s.threads[i]? = some th) {d : Disk Path UInt8} {th' : Thread}
    (hsound : Sound d)
    (htold : ∀ q : Path, Holds q.key q.value (tally (recorded ⟨d, s.threads.set i th'⟩ q))
      (read d q) ∧ (tally (recorded ⟨d, s.threads.set i th'⟩ q)).InRange)
    (halone : ∀ (j : ℕ) (other : Thread) (q : Path), j ≠ i → s.threads[j]? = some other →
      Inside q th' → ¬ Inside q other)
    (htmp : ∀ q, ¬ Opened q th' → (∀ j other, j ≠ i → s.threads[j]? = some other →
      ¬ Opened q other) → d.tmp q = none)
    (hself : ∀ q, th'.path = some q → Fine ⟨d, s.threads.set i th'⟩ q th')
    (hother : ∀ (j : ℕ) (other : Thread) (q : Path), j ≠ i → s.threads[j]? = some other →
      other.path = some q → Fine ⟨d, s.threads.set i th'⟩ q other) :
    Good ⟨d, s.threads.set i th'⟩ := by
  have hlen : i < s.threads.length := (List.getElem?_eq_some_iff.mp hi).1
  have hget : ∀ {j : ℕ} {x : Thread}, (s.threads.set i th')[j]? = some x →
      (j = i ∧ x = th') ∨ (j ≠ i ∧ s.threads[j]? = some x) := by
    intro j x hj
    by_cases he : j = i
    · subst he
      rw [List.getElem?_set_self hlen, Option.some.injEq] at hj
      exact .inl ⟨rfl, hj.symm⟩
    · rw [List.getElem?_set_ne (Ne.symm he)] at hj
      exact .inr ⟨he, hj⟩
  refine ⟨hsound, htold, ?_, ?_, ?_⟩
  · intro j k x y q hj hk hx hy
    rcases hget hj with ⟨hji, rfl⟩ | ⟨hji, hjx⟩
    · rcases hget hk with ⟨hki, -⟩ | ⟨hki, hky⟩
      · rw [hji, hki]
      · exact absurd hy (halone k y q hki hky hx)
    · rcases hget hk with ⟨hki, rfl⟩ | ⟨hki, hky⟩
      · exact absurd hx (halone j x q hji hjx hy)
      · exact h.alone j k x y q hjx hky hx hy
  · intro q hq
    refine htmp q (hq th' (List.mem_set hlen th')) ?_
    intro j other hj hother
    refine hq other (List.mem_iff_getElem?.mpr ⟨j, ?_⟩)
    rwa [List.getElem?_set_ne (Ne.symm hj)]
  · intro j x q hj hq
    rcases hget hj with ⟨-, rfl⟩ | ⟨hji, hjx⟩
    · exact hself q hq
    · exact hother j x q hji hjx hq

theorem fine_opening {text : Bytes} (hplace : th.place = .opening text) :
    Fine s p th ↔ Adds s p th text := by
  rw [Fine, hplace]

theorem fine_writing {inode offset : ℕ} {rest : Bytes}
    (hplace : th.place = .writing inode offset rest) :
    Fine s p th ↔ s.disk.tmp p = some inode ∧ offset = (s.disk.data inode).length ∧
      Adds s p th (s.disk.data inode ++ rest) := by
  rw [Fine, hplace]

theorem adds_congr {s' : State} {text : Bytes} (hr : recorded s' p = recorded s p)
    (hc : th'.call = th.call) (h : Adds s p th text) : Adds s' p th' text := by
  unfold Adds at h ⊢
  rwa [hr, hc]

/-- Another thread's update does not depend on what is not its own. -/
theorem fine_congr {s' : State} (hf : Fine s q th) (hr : recorded s' q = recorded s q)
    (htmp : s'.disk.tmp q = s.disk.tmp q)
    (hdata : ∀ n, s.disk.tmp q = some n → s'.disk.data n = s.disk.data n) : Fine s' q th := by
  cases hp : th.place with
  | ready =>
    rw [Fine, hp]
    trivial
  | opening text =>
    rw [fine_opening hp] at hf ⊢
    exact adds_congr hr rfl hf
  | writing inode offset rest =>
    rw [fine_writing hp] at hf ⊢
    rw [htmp, hdata inode hf.1]
    exact ⟨hf.1, hf.2.1, adds_congr hr rfl hf.2.2⟩
  | failed =>
    rw [Fine, hp] at hf
    exact hf.elim

theorem render_spec (h : th.path = some p) (hholds : Holds p.key p.value (tally (recorded s p))
      (read s.disk p)) (hrange : (tally (recorded s p)).InRange)
    (hadd : ((tally (recorded s p)).add th.call).InRange)
    (hrow : bytes "---" ∉ lines (dailyRow th.call)) :
    ∃ text, th.render (read s.disk p) = some text ∧ Adds s p th text := by
  unfold Thread.path at h
  unfold Thread.render
  split at h
  · obtain rfl := Option.some.inj h
    obtain ⟨text, ht, htells⟩ := dailyMarkdown_spec hholds hrange hadd hrow
    exact ⟨text, ht, htells, hadd⟩
  · obtain rfl := Option.some.inj h
    obtain ⟨text, ht, htells⟩ := monthlyMarkdown_spec hholds hrange hadd
    exact ⟨text, ht, htells, hadd⟩
  · cases h

theorem done_same (q : Path) (th : Thread) (place : Place) :
    Done q { th with place := place } = Done q th := by
  cases q <;> rfl

theorem recorded_place (hi : s.threads[i]? = some th) (d : Disk Path UInt8) (place : Place)
    (q : Path) : recorded ⟨d, s.threads.set i { th with place := place }⟩ q = recorded s q :=
  recorded_same hi { th with place := place } rfl (done_same q th place) d

/-- Who has opened no file keeps none from being renamed. -/
theorem tmp_none (h : Good s) (hi : s.threads[i]? = some th) (hq : ¬ Opened q th)
    (hother : ∀ j other, j ≠ i → s.threads[j]? = some other → ¬ Opened q other) :
    s.disk.tmp q = none := by
  apply h.tmp q
  intro x hx hopen
  obtain ⟨j, hj⟩ := List.mem_iff_getElem?.mp hx
  by_cases he : j = i
  · rw [he, hi, Option.some.injEq] at hj
    exact hq (hj ▸ hopen)
  · exact hother j x he hj hopen

/-- Another thread inside an update is in that of another file. -/
theorem other_path (h : Good s) (hi : s.threads[i]? = some th) (hin : Inside p th) {j : ℕ}
    {other : Thread} (hj : j ≠ i) (hother : s.threads[j]? = some other) : ¬ Inside p other :=
  fun hin' => hj (h.alone j i other th p hother hi hin' hin)

theorem good_read (h : Good s) (hi : s.threads[i]? = some th) (hp : th.path = some p)
    (hready : th.place = .ready) (hperm : Permitted s (.act i .read)) {text : Bytes}
    (hadds : Adds s p th text) :
    Good ⟨s.disk, s.threads.set i { th with place := .opening text }⟩ := by
  obtain ⟨hnone, -, -⟩ := hperm th hi p hp
  have hrec := recorded_place hi s.disk (.opening text)
  refine good_step h hi h.sound ?_ ?_ ?_ ?_ ?_
  · intro q
    rw [hrec q]
    exact h.told q
  · rintro j other q hj hother ⟨hq, -⟩
    obtain rfl : p = q := Option.some.inj (hp.symm.trans hq)
    exact hnone other (List.mem_eraseIdx_iff_getElem?.mpr ⟨j, hj, hother⟩)
  · intro q hself hother
    refine tmp_none h hi ?_ hother
    rintro ⟨-, inode, offset, rest, hplace⟩
    rw [hready] at hplace
    cases hplace
  · intro q hq
    obtain rfl : p = q := Option.some.inj (hp.symm.trans hq)
    exact (fine_opening rfl).mpr (adds_congr (hrec p) rfl hadds)
  · intro j other q hj hother hq
    exact fine_congr (h.inside j other q hother hq) (hrec q) rfl fun _ _ => rfl

theorem good_openTmp (h : Good s) (hi : s.threads[i]? = some th) (hp : th.path = some p)
    {text : Bytes} (hplace : th.place = .opening text) :
    Good ⟨(openTmp s.disk p).1,
      s.threads.set i { th with place := .writing (openTmp s.disk p).2 0 text }⟩ := by
  have hin : Inside p th := ⟨hp, by rw [hplace]; exact fun he => Place.noConfusion he⟩
  have hadds := (fine_opening hplace).mp (h.inside i th p hi hp)
  have hrec := recorded_place hi (openTmp s.disk p).1 (.writing (openTmp s.disk p).2 0 text)
  have hnone : s.disk.tmp p = none := by
    refine tmp_none h hi ?_ ?_
    · rintro ⟨-, inode, offset, rest, hw⟩
      rw [hplace] at hw
      cases hw
    · intro j other hj hother hopen
      exact other_path h hi hin hj hother hopen.inside
  refine good_step h hi (sound_openTmp h.sound hnone) ?_ ?_ ?_ ?_ ?_
  · intro q
    rw [hrec q, read_openTmp h.sound hnone]
    exact h.told q
  · rintro j other q hj hother ⟨hq, -⟩
    obtain rfl : p = q := Option.some.inj (hp.symm.trans hq)
    exact other_path h hi hin hj hother
  · intro q hself hother
    have hne : q ≠ p := by
      rintro rfl
      exact hself ⟨hp, _, _, _, rfl⟩
    have hold : s.disk.tmp q = none := by
      refine tmp_none h hi ?_ hother
      rintro ⟨hq, -⟩
      exact hne (Option.some.inj (hq.symm.trans hp))
    rw [openTmp_none hnone]
    exact (Function.update_of_ne hne _ _).trans hold
  · intro q hq
    obtain rfl : p = q := Option.some.inj (hp.symm.trans hq)
    have htmp : (openTmp s.disk p).1.tmp p = some (openTmp s.disk p).2 := by
      rw [openTmp_none hnone]
      exact Function.update_self _ _ _
    have hdata : (openTmp s.disk p).1.data (openTmp s.disk p).2 = [] := by
      rw [openTmp_none hnone]
      exact Function.update_self _ _ _
    refine (fine_writing rfl).mpr ⟨htmp, ?_, ?_⟩
    · rw [hdata]
      rfl
    · rw [hdata, List.nil_append]
      exact adds_congr (hrec p) rfl hadds
  · intro j other q hj hother hq
    have hold := h.inside j other q hother hq
    by_cases hready : other.place = .ready
    · rw [Fine, hready]
      trivial
    · have hne : q ≠ p := by
        rintro rfl
        exact other_path h hi hin hj hother ⟨hq, hready⟩
      refine fine_congr hold (hrec q) ?_ ?_
      · rw [openTmp_none hnone]
        exact Function.update_of_ne hne _ _
      · intro n hn
        have hlt := h.sound.tmp_fresh q n hn
        rw [openTmp_none hnone]
        exact Function.update_of_ne (Nat.ne_of_lt hlt) _ _

theorem good_write (h : Good s) (hi : s.threads[i]? = some th) (hp : th.path = some p)
    {inode offset : ℕ} {rest : Bytes} (hplace : th.place = .writing inode offset rest) (n : ℕ) :
    Good ⟨writeAt s.disk 0 inode offset (rest.take n), s.threads.set i { th with
      place := .writing inode (offset + (rest.take n).length) (rest.drop n) }⟩ := by
  have hin : Inside p th := ⟨hp, by rw [hplace]; exact fun he => Place.noConfusion he⟩
  obtain ⟨htmp, rfl, hadds⟩ := (fine_writing hplace).mp (h.inside i th p hi hp)
  have hrec := recorded_place hi (writeAt s.disk 0 inode (s.disk.data inode).length (rest.take n))
    (.writing inode ((s.disk.data inode).length + (rest.take n).length) (rest.drop n))
  refine good_step h hi (sound_writeAt h.sound _ _ _ _) ?_ ?_ ?_ ?_ ?_
  · intro q
    rw [hrec q, read_writeAt h.sound htmp]
    exact h.told q
  · rintro j other q hj hother ⟨hq, -⟩
    obtain rfl : p = q := Option.some.inj (hp.symm.trans hq)
    exact other_path h hi hin hj hother
  · intro q hself hother
    refine tmp_none h hi ?_ hother
    rintro ⟨hq, -⟩
    exact hself ⟨hq, _, _, _, rfl⟩
  · intro q hq
    obtain rfl : p = q := Option.some.inj (hp.symm.trans hq)
    have hdata : (writeAt s.disk 0 inode (s.disk.data inode).length (rest.take n)).data inode =
        s.disk.data inode ++ rest.take n := by
      rw [← overlay_end 0]
      exact Function.update_self _ _ _
    refine (fine_writing rfl).mpr ⟨htmp, ?_, ?_⟩
    · rw [hdata, List.length_append]
    · rw [hdata, List.append_assoc, List.take_append_drop]
      exact adds_congr (hrec p) rfl hadds
  · intro j other q hj hother hq
    have hold := h.inside j other q hother hq
    by_cases hready : other.place = .ready
    · rw [Fine, hready]
      trivial
    · have hne : q ≠ p := by
        rintro rfl
        exact other_path h hi hin hj hother ⟨hq, hready⟩
      refine fine_congr hold (hrec q) rfl ?_
      intro m hm
      have hother : m ≠ inode := by
        rintro rfl
        exact hne (h.sound.tmp_inj q p m hm htmp)
      exact Function.update_of_ne hother _ _

theorem good_rename (h : Good s) (hi : s.threads[i]? = some th) (hp : th.path = some p)
    {inode offset : ℕ} (hplace : th.place = .writing inode offset []) :
    ∃ d, rename s.disk p = some d ∧ Good ⟨d, s.threads.set i th.next⟩ := by
  have hin : Inside p th := ⟨hp, by rw [hplace]; exact fun he => Place.noConfusion he⟩
  obtain ⟨htmp, -, htells, hrange⟩ := (fine_writing hplace).mp (h.inside i th p hi hp)
  rw [List.append_nil] at htells
  have hren := rename_some htmp
  refine ⟨_, hren, ?_⟩
  obtain ⟨hbefore, hafter⟩ := path_next_ne hp
  have hself := recorded_done hi th.next rfl hbefore hafter
  have hothers : ∀ q, q ≠ p → ∀ d, recorded ⟨d, s.threads.set i th.next⟩ q = recorded s q :=
    fun q hq d => recorded_same hi th.next rfl (done_next_other hp hq) d
  refine good_step h hi (sound_rename h.sound htmp hren) ?_ ?_ ?_ ?_ ?_
  · intro q
    by_cases hq : q = p
    · subst hq
      rw [hself, read_rename_self htmp hren]
      exact ⟨htells, hrange⟩
    · rw [hothers q hq, read_rename_other htmp hq hren]
      exact h.told q
  · rintro j other q hj hother ⟨-, hready⟩
    exact absurd rfl hready
  · intro q hself hother
    by_cases hq : q = p
    · subst hq
      exact Function.update_self _ _ _
    · refine (Function.update_of_ne hq _ _).trans (tmp_none h hi ?_ hother)
      rintro ⟨hpath, -⟩
      exact hq (Option.some.inj (hpath.symm.trans hp))
  · intro q _
    trivial
  · intro j other q hj hother hq
    have hold := h.inside j other q hother hq
    by_cases hready : other.place = .ready
    · rw [Fine, hready]
      trivial
    · have hne : q ≠ p := by
        rintro rfl
        exact other_path h hi hin hj hother ⟨hq, hready⟩
      exact fine_congr hold (hothers q hne _) (Function.update_of_ne hne _ _) fun _ _ => rfl

theorem good_start (h : Good s) (c : Call) : Good ⟨s.disk, s.threads ++ [{ call := c }]⟩ := by
  have hget : ∀ {j : ℕ} {x : Thread}, (s.threads ++ [{ call := c }])[j]? = some x →
      s.threads[j]? = some x ∨ x.place = .ready := by
    intro j x hj
    rcases List.getElem?_eq_some_iff.mp hj with ⟨hlen, rfl⟩
    by_cases hlt : j < s.threads.length
    · rw [List.getElem_append_left hlt]
      exact .inl (List.getElem?_eq_getElem hlt)
    · rw [List.getElem_append_right (Nat.le_of_not_lt hlt), List.getElem_singleton]
      exact .inr rfl
  have hrec := recorded_start s c
  refine ⟨h.sound, ?_, ?_, ?_, ?_⟩
  · intro q
    rw [hrec q]
    exact h.told q
  · intro j k x y q hj hk hx hy
    rcases hget hj with hjx | hready
    · rcases hget hk with hky | hready
      · exact h.alone j k x y q hjx hky hx hy
      · exact absurd hready hy.2
    · exact absurd hready hx.2
  · intro q hq
    exact h.tmp q fun th hth => hq th (List.mem_append_left _ hth)
  · intro j x q hj hq
    rcases hget hj with hjx | hready
    · exact fine_congr (h.inside j x q hjx hq) (hrec q) rfl fun _ _ => rfl
    · rw [Fine, hready]
      trivial

theorem good_act (h : Good s) (hi : s.threads[i]? = some th) (hp : th.path = some p) {a : Action}
    (hperm : Permitted s (.act i a)) {x : Disk Path UInt8 × Thread}
    (hx : th.advance s.disk p a = some x) : Good ⟨x.1, s.threads.set i x.2⟩ := by
  cases a with
  | read =>
    cases hplace : th.place with
    | ready =>
      obtain ⟨-, hadd, hrow⟩ := hperm th hi p hp
      obtain ⟨text, htext, hadds⟩ := render_spec hp (h.told p).1 (h.told p).2 hadd hrow
      simp only [Thread.advance, hplace, htext, Option.some.injEq] at hx
      rw [← hx]
      exact good_read h hi hp hplace hperm hadds
    | opening text => simp [Thread.advance, hplace] at hx
    | writing inode offset rest => simp [Thread.advance, hplace] at hx
    | failed => simp [Thread.advance, hplace] at hx
  | openTmp =>
    cases hplace : th.place with
    | opening text =>
      simp only [Thread.advance, hplace, Option.some.injEq] at hx
      rw [← hx]
      exact good_openTmp h hi hp hplace
    | ready => simp [Thread.advance, hplace] at hx
    | writing inode offset rest => simp [Thread.advance, hplace] at hx
    | failed => simp [Thread.advance, hplace] at hx
  | write n =>
    cases hplace : th.place with
    | writing inode offset rest =>
      simp only [Thread.advance, hplace, Option.some.injEq] at hx
      rw [← hx]
      exact good_write h hi hp hplace n
    | ready => simp [Thread.advance, hplace] at hx
    | opening text => simp [Thread.advance, hplace] at hx
    | failed => simp [Thread.advance, hplace] at hx
  | rename =>
    cases hplace : th.place with
    | writing inode offset rest =>
      cases rest with
      | nil =>
        obtain ⟨d, hd, hgood⟩ := good_rename h hi hp hplace
        simp only [Thread.advance, hplace, hd, Option.some.injEq] at hx
        rw [← hx]
        exact hgood
      | cons b rest => simp [Thread.advance, hplace] at hx
    | ready => simp [Thread.advance, hplace] at hx
    | opening text => simp [Thread.advance, hplace] at hx
    | failed => simp [Thread.advance, hplace] at hx
  | remove =>
    cases hplace : th.place with
    | failed =>
      have hfine := h.inside i th p hi hp
      rw [Fine, hplace] at hfine
      exact hfine.elim
    | ready => simp [Thread.advance, hplace] at hx
    | opening text => simp [Thread.advance, hplace] at hx
    | writing inode offset rest => simp [Thread.advance, hplace] at hx

theorem good_of_step {e : Event} (h : Good s) (hperm : Permitted s e)
    (hs : logging.Step s e t) : Good t := by
  cases e with
  | start c =>
    obtain rfl := Option.some.inj hs
    exact good_start h c
  | act i a =>
    obtain ⟨th, hi, hs⟩ := Option.bind_eq_some_iff.mp hs
    obtain ⟨p, hp, hs⟩ := Option.bind_eq_some_iff.mp hs
    obtain ⟨x, hx, rfl⟩ := Option.map_eq_some_iff.mp hs
    exact good_act h hi hp hperm hx

end Invariant

section Totals

variable {s : State}

theorem recorded_returned (hr : ∀ th ∈ s.threads, th.stage = .returned) (today : Today) :
    recorded s (.daily today.date) =
        (s.threads.map Thread.call).filter (fun c => c.today.date = today.date) ∧
      recorded s (.monthly today.month) =
        (s.threads.map Thread.call).filter fun c => c.today.month = today.month := by
  simp only [recorded, List.filter_map]
  refine ⟨congrArg _ (List.filter_congr ?_), congrArg _ (List.filter_congr ?_)⟩
  · intro th hth
    simp [Done, hr th hth]
  · intro th hth
    simp [Done, hr th hth]

theorem Good.nothingLost (h : Good s) : NothingLost s := by
  intro hr today
  obtain ⟨hdaily, hmonthly⟩ := recorded_returned hr today
  rw [← hdaily, ← hmonthly]
  exact ⟨parseAggregateMd_spec (h.told (.daily today.date)).1 (.inl rfl) today.date_line
      (h.told (.daily today.date)).2,
    parseAggregateMd_spec (h.told (.monthly today.month)).1 (.inr rfl) today.month_line
      (h.told (.monthly today.month)).2⟩

/-- In a run in which no call reads a file that another is between reading and renaming, no update
is lost. -/
theorem nothing_lost {tr : List (State × Event)} (h : Run logging tr s)
    (hp : ∀ x ∈ tr, Permitted x.1 x.2) : NothingLost s ∧ ∀ x ∈ tr, NothingLost x.1 := by
  have hgood : ∀ {tr : List (State × Event)} {s : State}, Run logging tr s →
      (∀ x ∈ tr, Permitted x.1 x.2) → NothingLost s := by
    intro tr s h hp
    refine Good.nothingLost (Run.guarded_invariant ?_ ?_ h hp)
    · rintro s rfl
      exact good_init
    · intro s e t hs hperm hstep
      exact good_of_step hs hperm hstep
  refine ⟨hgood h hp, fun x hx => ?_⟩
  obtain ⟨tr₁, tr₂, t, rfl, hrun, -⟩ := h.split hx
  exact hgood hrun fun y hy => hp y (List.mem_append_left _ hy)

end Totals

namespace Counterexample

def clock : SessionMarkdown.Timestamp := ⟨bytes "2026-03-01T09:00:00+0900", by decide⟩

def call (session : Bytes) : Call where
  session := session
  model := bytes "gemini"
  prompt := ⟨100, by decide⟩
  completion := ⟨50, by decide⟩
  today := ⟨bytes "2026-03", bytes "01", by decide⟩
  dailyUpdated := clock
  stamp := clock
  monthlyUpdated := clock

/-- An update of one thread from reading to renaming, without the reading. -/
def replacing (i : ℕ) : List Event :=
  [.act i .openTmp, .act i (.write 4096), .act i .rename]

def updating (i : ℕ) : List Event := .act i .read :: replacing i

/-- Both calls read the daily file before the first of them renames it. -/
def overlapping : List Event :=
  [.start (call (bytes "alice")), .start (call (bytes "bob")), .act 0 .read, .act 1 .read] ++
    replacing 0 ++ replacing 1 ++ updating 0 ++ updating 1

def day : Today := (call []).today

/-- Both have returned, and one of them is missing from the totals. -/
theorem update_lost : ∃ tr s, Run logging tr s ∧
    (s.threads.length = 2 ∧ ∀ th ∈ s.threads, th.stage = .returned) ∧
      parseAggregateMd (read s.disk (.daily day.date)) = some ⟨day.date, 100, 50, 1⟩ ∧
      ¬ NothingLost s := by
  obtain ⟨tr, s, hrun, hs⟩ := Run.of_execute (fun _ _ _ h => h) (M := logging) rfl overlapping
    (fun _ s => decide ((s.threads.length = 2 ∧ ∀ th ∈ s.threads, th.stage = .returned) ∧
      parseAggregateMd (read s.disk (.daily day.date)) = some ⟨day.date, 100, 50, 1⟩ ∧
      ((s.threads.map Thread.call).filter fun c => c.today.date = day.date).length = 2))
    (by decide +kernel)
  obtain ⟨hback, hload, htwo⟩ := of_decide_eq_true hs
  refine ⟨tr, s, hrun, hback, hload, fun h => ?_⟩
  obtain ⟨⟨date, hd⟩, -⟩ := h hback.2 day
  rw [hload, Option.some.injEq] at hd
  have hone := congrArg DailyUsageSummary.totalRequests hd
  simp only [Tally.summary, tally, htwo] at hone
  exact absurd hone (by decide)

/-- One call after the other. -/
theorem updates_kept : ∃ tr s, Run logging tr s ∧
    (s.threads.length = 2 ∧ ∀ th ∈ s.threads, th.stage = .returned) ∧ NothingLost s := by
  obtain ⟨tr, s, hrun, hs⟩ := Run.of_execute (fun _ _ _ h => h) (M := logging) rfl
    ([.start (call (bytes "alice")), .start (call (bytes "bob"))] ++
      updating 0 ++ updating 0 ++ updating 1 ++ updating 1)
    (fun tr s => decide ((s.threads.length = 2 ∧ ∀ th ∈ s.threads, th.stage = .returned) ∧
      ∀ x ∈ tr, Permitted x.1 x.2))
    (by decide +kernel)
  obtain ⟨hback, hperm⟩ := of_decide_eq_true hs
  exact ⟨tr, s, hrun, hback, (nothing_lost hrun hperm).1⟩

end Counterexample

end UsageRaces
