import TizenClaw.TransitionSystem
import Mathlib.Data.Int.Notation
import Mathlib.Logic.Function.Basic
import Mathlib.Data.List.Perm.Basic

/-! The sessions of the tool executor and their child processes. A session keeps the process id it
was given by `fork`; the system gives an id again once its process has been waited for. Sessions are
numbered like their children, by the forks. -/
namespace CliSessions

open TransitionSystem

section Model

/-- A child that has exited stays until it is waited for. -/
inductive Status where
  | running
  | exited
  | reaped
  deriving DecidableEq, Repr

structure Child where
  pid : ℕ
  status : Status := .running
  deriving DecidableEq, Repr

structure CliSession where
  pid : ℕ
  lastActivity : ℤ
  timeoutSeconds : ℤ
  active : Bool := true
  deriving DecidableEq, Repr

/-- Who holds `sessions_mutex_` between two steps: `CloseSession` before its wait returns, a pass
of the cleanup loop before a session, or before the wait for the session it has signalled. -/
inductive Lock where
  | free
  | closing (id : ℕ)
  | cleaning (now : ℤ) (ids : List ℕ)
  | expired (now : ℤ) (id : ℕ) (ids : List ℕ)
  deriving DecidableEq, Repr

/-- `creating` are the sessions that `CreateSession` has not put into the table yet. -/
structure Manager where
  children : List Child := []
  creating : ℕ → Option CliSession := fun _ => none
  sessions : ℕ → Option CliSession := fun _ => none
  lock : Lock := .free

/-- `fork` and `register` are the two halves of `CreateSession`, `close` and `closed` those of
`CloseSession`. A pass of the cleanup loop visits the sessions in the order of the table. -/
inductive Event where
  | fork (pid : ℕ) (timeoutSeconds now : ℤ)
  | register (id : ℕ)
  | sendInput (id : ℕ) (now : ℤ)
  | readOutput (id : ℕ) (now : ℤ)
  | close (id : ℕ)
  | closed
  | cleanup (now : ℤ) (ids : List ℕ)
  | visit
  | wait
  | exit (child : ℕ)
  deriving DecidableEq, Repr

/-- The child that a process id stands for, when it has exited. -/
def waitpid (children : List Child) (pid : ℕ) : Option ℕ :=
  children.findIdx? fun child => child.pid = pid ∧ child.status = .exited

/-- Waiting without `WNOHANG` returns at once unless a child with the id is running. -/
def Blocks (children : List Child) (pid : ℕ) : Prop :=
  ∃ child ∈ children, child.pid = pid ∧ child.status = .running

instance (children : List Child) (pid : ℕ) : Decidable (Blocks children pid) :=
  inferInstanceAs (Decidable (∃ child ∈ children, _))

def setStatus (children : List Child) (c : ℕ) (status : Status) : List Child :=
  children.modify c fun child => { child with status := status }

def reap (children : List Child) : Option ℕ → List Child
  | some c => setStatus children c .reaped
  | none => children

/-- Clock readings are in nanoseconds. -/
def Stale (now : ℤ) (x : CliSession) : Prop :=
  (now - x.lastActivity).tdiv 1000000000 > x.timeoutSeconds ∨ x.active = false

instance (now : ℤ) (x : CliSession) : Decidable (Stale now x) :=
  inferInstanceAs (Decidable (_ ∨ _))

/-- A fork returns an id that no child has that was not waited for. -/
def Fresh (children : List Child) (pid : ℕ) : Prop :=
  0 < pid ∧ ∀ child ∈ children, child.pid = pid → child.status = .reaped

instance (children : List Child) (pid : ℕ) : Decidable (Fresh children pid) :=
  inferInstanceAs (Decidable (_ ∧ _))

variable (s : Manager)

def tableIds : List ℕ := (List.range s.children.length).filter fun id => (s.sessions id).isSome

def setSession (id : ℕ) (x : Option CliSession) : Manager :=
  { s with sessions := Function.update s.sessions id x }

def step : Event → Option Manager
  | .fork pid timeoutSeconds now =>
    if Fresh s.children pid then
      some { s with
        children := s.children ++ [{ pid := pid }]
        creating := Function.update s.creating s.children.length
          (some ⟨pid, now, timeoutSeconds, true⟩) }
    else none
  | .register id => match s.lock, s.creating id with
    | .free, some x =>
      some { setSession s id (some x) with creating := Function.update s.creating id none }
    | _, _ => none
  | .sendInput id now => match s.lock, s.sessions id with
    | .free, some x => some (setSession s id (some { x with lastActivity := now }))
    | .free, none => some s
    | _, _ => none
  | .readOutput id now => match s.lock, s.sessions id with
    | .free, some x =>
      let found := waitpid s.children x.pid
      some { setSession s id (some { x with
          lastActivity := now
          active := x.active && found.isNone }) with
        children := reap s.children found }
    | .free, none => some s
    | _, _ => none
  | .close id => match s.lock, s.sessions id with
    | .free, some x =>
      if 0 < x.pid then some { s with lock := .closing id }
      else some (setSession s id (some { x with active := false }))
    | .free, none => some s
    | _, _ => none
  | .closed => match s.lock with
    | .closing id => (s.sessions id).bind fun x =>
      if Blocks s.children x.pid then none
      else some { setSession s id (some { x with active := false }) with
        children := reap s.children (waitpid s.children x.pid)
        lock := .free }
    | _ => none
  | .cleanup now ids =>
    if s.lock = .free ∧ ids.Perm (tableIds s) then some { s with lock := .cleaning now ids }
    else none
  | .visit => match s.lock with
    | .cleaning _ [] => some { s with lock := .free }
    | .cleaning now (id :: ids) => (s.sessions id).bind fun x =>
      if Stale now x then
        if 0 < x.pid then some { s with lock := .expired now id ids }
        else some { setSession s id none with lock := .cleaning now ids }
      else some { s with lock := .cleaning now ids }
    | _ => none
  | .wait => match s.lock with
    | .expired now id ids => (s.sessions id).bind fun x =>
      some { setSession s id none with
        children := reap s.children (waitpid s.children x.pid)
        lock := .cleaning now ids }
    | _ => none
  | .exit c =>
    if s.children[c]?.any (fun child => child.status = .running) then
      some { s with children := setStatus s.children c .exited }
    else none

/-- The session and the process id that a step sends `SIGTERM` to. -/
def signalled : Event → Option (ℕ × ℕ)
  | .close id => match s.lock, s.sessions id with
    | .free, some x => if 0 < x.pid then some (id, x.pid) else none
    | _, _ => none
  | .visit => match s.lock with
    | .cleaning now (id :: _) => (s.sessions id).bind fun x =>
      if Stale now x ∧ 0 < x.pid then some (id, x.pid) else none
    | _ => none
  | _ => none

/-- The session for which a step waits and the child it collects. -/
def collected : Event → Option (ℕ × ℕ)
  | .readOutput id _ => match s.lock, s.sessions id with
    | .free, some x => (waitpid s.children x.pid).map fun c => (id, c)
    | _, _ => none
  | .closed => match s.lock with
    | .closing id => (s.sessions id).bind fun x => (waitpid s.children x.pid).map fun c => (id, c)
    | _ => none
  | .wait => match s.lock with
    | .expired _ id _ => (s.sessions id).bind fun x =>
      (waitpid s.children x.pid).map fun c => (id, c)
    | _ => none
  | _ => none

end Model

/-- The sessions of a new manager. -/
def manager : System Manager Event where
  Init s := s = {}
  Step s e t := step s e = some t

/-- The child has the process id and was not waited for. -/
def Holds (children : List Child) (c pid : ℕ) : Prop :=
  ∃ child, children[c]? = some child ∧ child.pid = pid ∧ child.status ≠ .reaped

/-- A signal goes to the child of its session before that was waited for, a session collects its own
child only, and a child that was not waited for has a session. -/
structure Sound (s : Manager) (e : Event) : Prop where
  signal : ∀ id pid, signalled s e = some (id, pid) → Holds s.children id pid
  own : ∀ id c, collected s e = some (id, c) → c = id
  kept : ∀ t, step s e = some t → ∀ c pid, Holds t.children c pid →
    (t.creating c).isSome ∨ (t.sessions c).isSome

/-- Only active sessions are closed or found stale by the cleanup loop, whose wait finds that the
child has exited; no read of an inactive session finds an exited child with its process id. -/
def Careful (s : Manager) : Event → Prop
  | .readOutput id _ => s.lock = .free → ∀ x, s.sessions id = some x →
    x.active = true ∨ waitpid s.children x.pid = none
  | .close id => s.lock = .free → ∀ x, s.sessions id = some x → x.active = true
  | .visit => ∀ now id ids x, s.lock = .cleaning now (id :: ids) → s.sessions id = some x →
    x.active = true
  | .wait => ∀ now id ids child, s.lock = .expired now id ids → s.children[id]? = some child →
    child.status ≠ .running
  | _ => True

section Children

variable {children : List Child} {c d pid : ℕ}

theorem waitpid_eq_some (h : waitpid children pid = some c) :
    children[c]? = some ⟨pid, .exited⟩ := by
  obtain ⟨hc, hp, -⟩ := List.findIdx?_eq_some_iff_getElem.mp h
  obtain ⟨hpid, hstatus⟩ := of_decide_eq_true hp
  rw [List.getElem?_eq_getElem hc, ← hpid, ← hstatus]

theorem waitpid_holds (h : waitpid children pid = some c) : Holds children c pid :=
  ⟨_, waitpid_eq_some h, rfl, nofun⟩

theorem waitpid_eq_none (h : waitpid children pid = none) {child : Child}
    (hc : child ∈ children) (hp : child.pid = pid) : child.status ≠ .exited := by
  intro hs
  have := List.findIdx?_eq_none_iff.mp h child hc
  simp [hp, hs] at this

theorem holds_lt (h : Holds children c pid) : c < children.length := by
  obtain ⟨child, hc, -⟩ := h
  exact (List.getElem?_eq_some_iff.mp hc).1

theorem holds_fork {pid' : ℕ} :
    Holds (children ++ [⟨pid', .running⟩]) c pid ↔
      Holds children c pid ∨ c = children.length ∧ pid = pid' := by
  rcases Nat.lt_trichotomy c children.length with h | rfl | h
  · simp only [Holds, List.getElem?_append_left h, Nat.ne_of_lt h, false_and, or_false]
  · simp [Holds, eq_comm]
  · have : (children ++ [⟨pid', .running⟩])[c]? = none := by
      rw [List.getElem?_eq_none_iff, List.length_append, List.length_singleton]
      omega
    simp [Holds, this, List.getElem?_eq_none_iff.mpr (Nat.le_of_lt h), Nat.ne_of_gt h]

theorem holds_reap {o : Option ℕ} :
    Holds (reap children o) c pid ↔ Holds children c pid ∧ o ≠ some c := by
  cases o with
  | none => simp [reap]
  | some d =>
    by_cases h : d = c
    · subst h
      simp [Holds, reap, setStatus]
    · simp [Holds, reap, setStatus, h]

theorem holds_exit (h : (children[d]?).any (fun child => child.status = .running) = true) :
    Holds (setStatus children d .exited) c pid ↔ Holds children c pid := by
  by_cases hd : d = c
  · subst hd
    obtain ⟨child, hc, hr⟩ := (Option.any_eq_true _ _).mp h
    simp [Holds, setStatus, hc, of_decide_eq_true hr]
  · simp [Holds, setStatus, hd]

theorem length_reap {o : Option ℕ} : (reap children o).length = children.length := by
  cases o <;> simp [reap, setStatus]

end Children

/-- The session that is signalled and not waited for yet. -/
def Lock.signalled : Lock → Option ℕ
  | .closing id | .expired _ id _ => some id
  | _ => none

/-- A process id stands for one child at most, and a session is active exactly if its child was not
waited for. -/
structure Invariant (s : Manager) : Prop where
  distinct : ∀ c d pid, Holds s.children c pid → Holds s.children d pid → c = d
  creating : ∀ id x, s.creating id = some x →
    0 < x.pid ∧ x.active = true ∧ Holds s.children id x.pid ∧ s.sessions id = none
  session : ∀ id x, s.sessions id = some x →
    0 < x.pid ∧ id < s.children.length ∧ (x.active = true ↔ Holds s.children id x.pid)
  kept : ∀ c pid, Holds s.children c pid → (s.creating c).isSome ∨ (s.sessions c).isSome
  signalled : ∀ id, s.lock.signalled = some id → ∃ x, s.sessions id = some x ∧ x.active = true

variable {s t : Manager} {e : Event} {id c : ℕ} {x : CliSession}

/-- An active session collects no other child than its own. -/
theorem Invariant.own (hI : Invariant s) (hx : s.sessions id = some x) (ha : x.active = true)
    (hw : waitpid s.children x.pid = some c) : c = id :=
  hI.distinct c id x.pid (waitpid_holds hw) ((hI.session id x hx).2.2.mp ha)

/-- A step that changes one session, and collects its child at most, keeps the invariant. -/
theorem Invariant.update (hI : Invariant s) (hx : s.sessions id = some x) {o : Option ℕ}
    {y : Option CliSession} {lock : Lock} (ho : ∀ c, o = some c → c = id)
    (hy : ∀ z, y = some z → z.pid = x.pid ∧
      (z.active = true ↔ x.active = true ∧ o = none))
    (hn : y = none → o = some id) (hl : lock.signalled = none) :
    Invariant { setSession s id y with children := reap s.children o, lock := lock } where
  distinct c d pid hc hd := hI.distinct c d pid (holds_reap.mp hc).1 (holds_reap.mp hd).1
  creating c z hz := by
    obtain ⟨hp, ha, hh, hs⟩ := hI.creating c z hz
    have hne : c ≠ id := by
      rintro rfl
      rw [hs] at hx
      cases hx
    refine ⟨hp, ha, holds_reap.mpr ⟨hh, fun h => hne (ho c h)⟩, ?_⟩
    exact (Function.update_of_ne hne _ _).trans hs
  session c z hz := by
    by_cases hc : c = id
    · subst hc
      have hz : y = some z := by simpa [setSession] using hz
      obtain ⟨hp, hlt, ha⟩ := hI.session c x hx
      obtain ⟨he, hza⟩ := hy z hz
      refine ⟨he ▸ hp, Nat.lt_of_lt_of_eq hlt length_reap.symm, ?_⟩
      rw [hza, ha, holds_reap, he]
      refine and_congr_right fun _ => ⟨fun h => by simp [h], fun h => ?_⟩
      cases o with
      | none => rfl
      | some d => exact absurd (congrArg some (ho d rfl)) h
    · have hz : s.sessions c = some z := by simpa [setSession, hc] using hz
      obtain ⟨hp, hlt, ha⟩ := hI.session c z hz
      refine ⟨hp, Nat.lt_of_lt_of_eq hlt length_reap.symm, ?_⟩
      rw [ha, holds_reap]
      exact (and_iff_left fun h => hc (ho c h)).symm
  kept c pid hc := by
    obtain ⟨hc, hne⟩ := holds_reap.mp hc
    refine (hI.kept c pid hc).imp_right fun hs => ?_
    by_cases he : c = id
    · subst he
      cases y with
      | none => exact absurd (hn rfl) hne
      | some z => simp [setSession]
    · simpa [setSession, he] using hs
  signalled c hc := by
    rw [hl] at hc
    cases hc

theorem Invariant.lock (hI : Invariant s) {lock : Lock}
    (hl : ∀ id, lock.signalled = some id → ∃ x, s.sessions id = some x ∧ x.active = true) :
    Invariant { s with lock := lock } :=
  ⟨hI.distinct, hI.creating, hI.session, hI.kept, hl⟩

theorem Invariant.fork (hI : Invariant s) {pid : ℕ} {timeoutSeconds now : ℤ}
    (hf : Fresh s.children pid) :
    Invariant { s with
      children := s.children ++ [⟨pid, .running⟩]
      creating := Function.update s.creating s.children.length
        (some ⟨pid, now, timeoutSeconds, true⟩) } where
  distinct c d p hc hd := by
    have fresh : ∀ c, ¬ Holds s.children c pid := by
      rintro c ⟨child, hc, hp, hr⟩
      exact hr (hf.2 child (List.mem_of_getElem? hc) hp)
    rcases holds_fork.mp hc with hc | ⟨rfl, rfl⟩ <;> rcases holds_fork.mp hd with hd | ⟨rfl, hp⟩
    · exact hI.distinct c d p hc hd
    · exact absurd (hp ▸ hc) (fresh c)
    · exact absurd hd (fresh d)
    · rfl
  creating id x hx := by
    by_cases h : id = s.children.length
    · subst h
      obtain rfl : ⟨pid, now, timeoutSeconds, true⟩ = x := by simpa using hx
      refine ⟨hf.1, rfl, holds_fork.mpr (.inr ⟨rfl, rfl⟩), ?_⟩
      refine Option.eq_none_iff_forall_ne_some.mpr fun z hz => ?_
      exact Nat.lt_irrefl _ (hI.session _ z hz).2.1
    · obtain ⟨hp, ha, hh, hs⟩ := hI.creating id x (by simpa [h] using hx)
      exact ⟨hp, ha, holds_fork.mpr (.inl hh), hs⟩
  session id x hx := by
    obtain ⟨hp, hlt, ha⟩ := hI.session id x hx
    refine ⟨hp, by simp only [List.length_append]; omega, ha.trans ?_⟩
    rw [holds_fork]
    exact (or_iff_left fun h => Nat.ne_of_lt hlt h.1).symm
  kept c p hc := by
    rcases holds_fork.mp hc with hc | ⟨rfl, -⟩
    · refine (hI.kept c p hc).imp_left fun h => ?_
      simp only [Function.update_of_ne (Nat.ne_of_lt (holds_lt hc)), h]
    · exact .inl (by simp)
  signalled := hI.signalled

theorem Invariant.register (hI : Invariant s) (hx : s.creating id = some x) :
    Invariant { setSession s id (some x) with
      creating := Function.update s.creating id none } where
  distinct := hI.distinct
  creating c z hz := by
    have hne : c ≠ id := by
      rintro rfl
      simp at hz
    obtain ⟨hp, ha, hh, hs⟩ := hI.creating c z (by simpa [hne] using hz)
    exact ⟨hp, ha, hh, (Function.update_of_ne hne _ _).trans hs⟩
  session c z hz := by
    by_cases hc : c = id
    · subst hc
      obtain rfl : x = z := by simpa [setSession] using hz
      obtain ⟨hp, ha, hh, -⟩ := hI.creating c x hx
      exact ⟨hp, holds_lt hh, iff_of_true ha hh⟩
    · exact hI.session c z (by simpa [setSession, hc] using hz)
  kept c pid hc := by
    by_cases he : c = id
    · subst he
      exact .inr (by simp [setSession])
    · simpa [setSession, he] using hI.kept c pid hc
  signalled c hc := by
    obtain ⟨z, hz, ha⟩ := hI.signalled c hc
    have hne : c ≠ id := by
      rintro rfl
      rw [(hI.creating c x hx).2.2.2] at hz
      cases hz
    exact ⟨z, (Function.update_of_ne hne _ _).trans hz, ha⟩

theorem Invariant.exit (hI : Invariant s)
    (hc : (s.children[c]?).any (fun child => child.status = .running) = true) :
    Invariant { s with children := setStatus s.children c .exited } where
  distinct d d' pid hd hd' := hI.distinct d d' pid ((holds_exit hc).mp hd) ((holds_exit hc).mp hd')
  creating id x hx := by
    obtain ⟨hp, ha, hh, hs⟩ := hI.creating id x hx
    exact ⟨hp, ha, (holds_exit hc).mpr hh, hs⟩
  session id x hx := by
    obtain ⟨hp, hlt, ha⟩ := hI.session id x hx
    exact ⟨hp, by simpa [setStatus] using hlt, ha.trans (holds_exit hc).symm⟩
  kept d pid hd := hI.kept d pid ((holds_exit hc).mp hd)
  signalled := hI.signalled

/-- Waiting for an active session whose child is not running collects the child. -/
theorem Invariant.collects (hI : Invariant s) (hx : s.sessions id = some x)
    (ha : x.active = true)
    (hr : ∀ child, s.children[id]? = some child → child.status ≠ .running) :
    waitpid s.children x.pid = some id := by
  obtain ⟨child, hc, hp, hs⟩ := (hI.session id x hx).2.2.mp ha
  cases hw : waitpid s.children x.pid with
  | some c => rw [hI.own hx ha hw]
  | none =>
    have he := waitpid_eq_none hw (List.mem_of_getElem? hc) hp
    have hr := hr child hc
    cases h : child.status <;> contradiction

theorem Invariant.step (hI : Invariant s) (hc : Careful s e) (hs : step s e = some t) :
    Invariant t := by
  cases e with
  | fork pid timeoutSeconds now =>
    simp only [CliSessions.step] at hs
    split_ifs at hs with hf
    obtain rfl := Option.some.inj hs
    exact hI.fork hf
  | register id =>
    simp only [CliSessions.step] at hs
    split at hs
    · obtain rfl := Option.some.inj hs
      rename_i x _ hx
      exact hI.register hx
    · cases hs
  | exit c =>
    simp only [CliSessions.step] at hs
    split_ifs at hs with hr
    obtain rfl := Option.some.inj hs
    exact hI.exit hr
  | sendInput id now =>
    simp only [CliSessions.step] at hs
    split at hs
    · obtain rfl := Option.some.inj hs
      rename_i x hl hx
      exact hI.update (o := none) hx nofun (by rintro z ⟨⟩; simp) nofun (by rw [hl]; rfl)
    · obtain rfl := Option.some.inj hs
      exact hI
    · cases hs
  | readOutput id now =>
    simp only [CliSessions.step] at hs
    split at hs
    · obtain rfl := Option.some.inj hs
      rename_i x hl hx
      have hown : ∀ c, waitpid s.children x.pid = some c → c = id := by
        intro c hw
        rcases hc hl x hx with ha | hn
        · exact hI.own hx ha hw
        · rw [hn] at hw
          cases hw
      exact hI.update hx hown (by rintro z ⟨⟩; simp [Option.isNone_iff_eq_none]) nofun
        (show s.lock.signalled = none by rw [hl]; rfl)
    · obtain rfl := Option.some.inj hs
      exact hI
    · cases hs
  | close id =>
    simp only [CliSessions.step] at hs
    split at hs
    · rename_i x hl hx
      rw [if_pos (hI.session id x hx).1] at hs
      obtain rfl := Option.some.inj hs
      refine hI.lock ?_
      rintro id ⟨⟩
      exact ⟨x, hx, hc hl x hx⟩
    · obtain rfl := Option.some.inj hs
      exact hI
    · cases hs
  | closed =>
    simp only [CliSessions.step] at hs
    split at hs
    · rename_i id hl
      obtain ⟨x, hx, hs⟩ := Option.bind_eq_some_iff.mp hs
      split_ifs at hs with hb
      obtain rfl := Option.some.inj hs
      obtain ⟨z, hz, ha⟩ := hI.signalled id (by rw [hl]; rfl)
      obtain rfl := Option.some.inj (hx.symm.trans hz)
      have hw := hI.collects hx ha fun child hchild hr => by
        obtain ⟨own, hown, hp, -⟩ := (hI.session id x hx).2.2.mp ha
        obtain rfl := Option.some.inj (hchild.symm.trans hown)
        exact hb ⟨child, List.mem_of_getElem? hown, hp, hr⟩
      rw [hw]
      exact hI.update hx (by rintro c ⟨⟩; rfl) (by rintro z ⟨⟩; simp) nofun rfl
    · cases hs
  | cleanup now ids =>
    simp only [CliSessions.step] at hs
    split_ifs at hs
    obtain rfl := Option.some.inj hs
    exact hI.lock nofun
  | visit =>
    simp only [CliSessions.step] at hs
    split at hs
    · obtain rfl := Option.some.inj hs
      exact hI.lock nofun
    · rename_i now id ids hl
      obtain ⟨x, hx, hs⟩ := Option.bind_eq_some_iff.mp hs
      rw [if_pos (hI.session id x hx).1] at hs
      split_ifs at hs with hstale
      · obtain rfl := Option.some.inj hs
        refine hI.lock ?_
        rintro id ⟨⟩
        exact ⟨x, hx, hc now _ ids x hl hx⟩
      · obtain rfl := Option.some.inj hs
        exact hI.lock nofun
    · cases hs
  | wait =>
    simp only [CliSessions.step] at hs
    split at hs
    · rename_i now id ids hl
      obtain ⟨x, hx, hs⟩ := Option.bind_eq_some_iff.mp hs
      obtain rfl := Option.some.inj hs
      obtain ⟨z, hz, ha⟩ := hI.signalled id (by rw [hl]; rfl)
      obtain rfl := Option.some.inj (hx.symm.trans hz)
      rw [hI.collects hx ha fun child hchild => hc now id ids child hl hchild]
      exact hI.update hx (by rintro c ⟨⟩; rfl) nofun (fun _ => rfl) rfl
    · cases hs

theorem Careful.sound (hI : Invariant s) (hc : Careful s e) : Sound s e where
  signal id pid h := by
    cases e with
    | close id =>
      simp only [signalled] at h
      split at h
      · rename_i x hl hx
        split_ifs at h
        obtain ⟨rfl, rfl⟩ := Prod.mk.inj (Option.some.inj h)
        exact (hI.session _ x hx).2.2.mp (hc hl x hx)
      · cases h
    | visit =>
      simp only [signalled] at h
      split at h
      · rename_i now id ids hl
        obtain ⟨x, hx, h⟩ := Option.bind_eq_some_iff.mp h
        split_ifs at h
        obtain ⟨rfl, rfl⟩ := Prod.mk.inj (Option.some.inj h)
        exact (hI.session _ x hx).2.2.mp (hc now _ ids x hl hx)
      · cases h
    | _ => cases h
  own id c h := by
    cases e with
    | readOutput id now =>
      simp only [collected] at h
      split at h
      · rename_i x hl hx
        obtain ⟨d, hw, h⟩ := Option.map_eq_some_iff.mp h
        obtain ⟨rfl, rfl⟩ := Prod.mk.inj h
        rcases hc hl x hx with ha | hn
        · exact hI.own hx ha hw
        · rw [hn] at hw
          cases hw
      · cases h
    | closed =>
      simp only [collected] at h
      split at h
      · rename_i id hl
        obtain ⟨x, hx, h⟩ := Option.bind_eq_some_iff.mp h
        obtain ⟨d, hw, h⟩ := Option.map_eq_some_iff.mp h
        obtain ⟨rfl, rfl⟩ := Prod.mk.inj h
        obtain ⟨z, hz, ha⟩ := hI.signalled _ (by rw [hl]; rfl)
        obtain rfl := Option.some.inj (hx.symm.trans hz)
        exact hI.own hx ha hw
      · cases h
    | wait =>
      simp only [collected] at h
      split at h
      · rename_i now id ids hl
        obtain ⟨x, hx, h⟩ := Option.bind_eq_some_iff.mp h
        obtain ⟨d, hw, h⟩ := Option.map_eq_some_iff.mp h
        obtain ⟨rfl, rfl⟩ := Prod.mk.inj h
        obtain ⟨z, hz, ha⟩ := hI.signalled _ (by rw [hl]; rfl)
        obtain rfl := Option.some.inj (hx.symm.trans hz)
        exact hI.own hx ha hw
      · cases h
    | _ => cases h
  kept t ht := (hI.step hc ht).kept

theorem Sound.careful (hI : Invariant s) (h : Sound s e) : Careful s e := by
  cases e with
  | readOutput id now =>
    intro hl x hx
    refine or_iff_not_imp_left.mpr fun ha => ?_
    refine Option.eq_none_iff_forall_ne_some.mpr fun c hw => ?_
    -- the child found belongs to another session
    obtain rfl := h.own id c (by simp only [collected, hl, hx, hw, Option.map_some])
    exact ha ((hI.session _ x hx).2.2.mpr (waitpid_holds hw))
  | close id =>
    intro hl x hx
    obtain ⟨hp, -, ha⟩ := hI.session id x hx
    exact ha.mpr (h.signal id x.pid (by simp only [signalled, hl, hx, if_pos hp]))
  | visit =>
    intro now id ids x hl hx
    obtain ⟨hp, -, ha⟩ := hI.session id x hx
    by_contra hn
    have hstale : Stale now x := .inr (Bool.eq_false_iff.mpr hn)
    refine hn (ha.mpr (h.signal id x.pid ?_))
    simp only [signalled, hl, hx, Option.bind_some, if_pos (And.intro hstale hp)]
  | wait =>
    intro now id ids child hl hchild hr
    obtain ⟨x, hx, ha⟩ := hI.signalled id (by rw [hl]; rfl)
    obtain ⟨own, hown, hp, -⟩ := (hI.session id x hx).2.2.mp ha
    obtain rfl := Option.some.inj (hchild.symm.trans hown)
    -- the wait finds nothing, and the session is gone
    have hw : waitpid s.children x.pid = none := by
      refine Option.eq_none_iff_forall_ne_some.mpr fun c hw => ?_
      obtain rfl := hI.own hx ha hw
      rw [waitpid_eq_some hw] at hchild
      obtain rfl := Option.some.inj hchild
      cases hr
    have hs : step s .wait = some { setSession s id none with
        children := reap s.children none
        lock := .cleaning now ids } := by
      simp only [step, hl, hx, hw, Option.bind_some]
    rcases h.kept _ hs id x.pid ⟨child, hchild, hp, by rw [hr]; decide⟩ with hc | hc
    · obtain ⟨z, hz⟩ := Option.isSome_iff_exists.mp hc
      rw [(hI.creating id z hz).2.2.2] at hx
      cases hx
    · simp [setSession] at hc
  | _ => trivial

theorem invariant_init : Invariant {} where
  distinct := by simp [Holds]
  creating := nofun
  session := nofun
  kept := by simp [Holds]
  signalled := nofun

/-- Signals go to children that were not waited for, each child is collected once and by its own
session, and none is left behind, exactly if all steps of the run are careful. -/
theorem signals_and_reaping_iff {tr : List (Manager × Event)} (h : Run manager tr s) :
    (∀ x ∈ tr, Sound x.1 x.2) ↔ ∀ x ∈ tr, Careful x.1 x.2 := by
  refine h.steps_iff (I := Invariant) ?_ ?_ ?_
  · rintro s rfl
    exact invariant_init
  · exact fun s e t hI _ => ⟨fun h => h.careful hI, fun h => h.sound hI⟩
  · exact fun s e t hI hc hs => hI.step hc hs

namespace Counterexample

/-- A read collects the child of the session, and the session is closed after that. -/
def events : List Event :=
  [.fork 42 60 0, .register 0, .exit 0, .readOutput 0 1, .close 0]

theorem closed_session_signalled :
    ¬ ∀ tr s, Run manager tr s → ∀ x ∈ tr, Sound x.1 x.2 := by
  intro h
  obtain ⟨tr, s, hr, hp⟩ := Run.of_execute (M := manager) (s := {}) (fun _ _ _ h => h) rfl events
    (fun tr _ => tr.any fun x => signalled x.1 x.2 = some (0, 42) ∧
      x.1.children = [⟨42, .reaped⟩]) (by decide)
  obtain ⟨x, hx, hq⟩ := List.any_eq_true.mp hp
  obtain ⟨hsig, hc⟩ := of_decide_eq_true hq
  obtain ⟨child, hchild, -, hs⟩ := (h tr s hr x hx).signal 0 42 hsig
  rw [hc] at hchild
  obtain rfl := Option.some.inj hchild
  exact hs rfl

/-- A session that is closed once, before the cleanup loop finds it. -/
theorem first_close_sound :
    ∃ tr s, Run manager tr s ∧ (∃ x ∈ tr, x.2 = .closed) ∧ ∀ x ∈ tr, Sound x.1 x.2 := by
  obtain ⟨tr, s, hr, hp⟩ := Run.of_execute (M := manager) (s := {}) (fun _ _ _ h => h) rfl
    [.fork 42 60 0, .register 0, .close 0, .exit 0, .closed]
    (fun tr _ => (tr.any fun x => x.2 = .closed) && tr.all fun x => match x.2 with
      | .close id => (x.1.sessions id).any fun x => x.active
      | .fork .. | .register _ | .exit _ | .closed => true
      | _ => false) (by decide)
  simp only [Bool.and_eq_true, List.any_eq_true, List.all_eq_true, decide_eq_true_eq] at hp
  obtain ⟨hclosed, hall⟩ := hp
  refine ⟨tr, s, hr, hclosed, (signals_and_reaping_iff hr).mpr ?_⟩
  rintro ⟨u, e⟩ hx
  have he := hall _ hx
  cases e with
  | close id =>
    intro _ x hx
    change (u.sessions id).any (fun x => x.active) = true at he
    rwa [show u.sessions id = some x from hx] at he
  | fork | register | exit | closed => trivial
  | _ => cases he

end Counterexample

end CliSessions
