import TizenClaw.WebFiles

/-! Which part of the tree of files an answer of the dashboard can depend on. -/
namespace WebFiles

open ByteString ByteLines JsonValue JsonDump PathResolution PosixPath FileSystem

/-- What is found on a path is settled by what lies in the directory. -/
def DependsOn (dir path : Bytes) : Prop :=
  ∀ (t t' : FileTree) (cwd root : Place), t.node cwd = some .dir → t'.node cwd = some .dir →
    LeadsTo t cwd dir root → LeadsTo t' cwd dir root → Linkless t root → SameBeneath root t t' →
    openRead t cwd path = openRead t' cwd path

section Plain

variable {dir rel path : Bytes}

/-- A NUL in the directory's text hides what follows. -/
theorem dependsOn_of_nul (h0 : 0 ∈ dir) (rel : Bytes) : DependsOn dir (dir ++ rel) := by
  intro t t' cwd root _ _ hr hr' _ h
  have hcut : ∀ b : Bytes, pathOf (dir ++ b) = pathOf dir := by
    intro b
    unfold pathOf
    rw [components_of_mem h0, untilNul_of_mem h0]
  unfold LeadsTo at hr hr'
  rw [hcut] at hr hr'
  have hn := h root (List.prefix_refl root)
  simp only [openRead, opened, hcut, hr, hr', hn]

theorem dependsOn_plain (hp : .parent ∉ components rel) : DependsOn dir (dir ++ slash :: rel) := by
  by_cases h0 : 0 ∈ dir
  · exact dependsOn_of_nul h0 _
  · intro t t' cwd root hc hc' hr hr' hl h
    rw [openRead_plain h0 (Or.inr hc) hr hl hp, openRead_plain h0 (Or.inr hc') hr' (h.linkless hl) hp]
    exact opened_congr h _

theorem parent_not_mem_of_hasParent (h : hasParent rel = false) : .parent ∉ components rel := by
  apply parent_not_mem
  simpa [hasParent] using h

end Plain

section Names

variable {name : Bytes}

theorem badName_false (h : badName name = false) : hasParent name = false ∧ slash ∉ name := by
  simp only [badName, decide_eq_false_iff_not, not_or] at h
  exact ⟨by simpa using h.2.1, h.2.2⟩

/-- An extension of three bytes or more makes no step to a parent of a name. -/
theorem parent_not_mem_ext {ext : Bytes} (hext : slash ∉ ext) (hlen : 2 < (untilNul ext).length)
    (hs : slash ∉ name) (h : .parent ∉ components name) : .parent ∉ components (name ++ ext) := by
  by_cases h0 : 0 ∈ name
  · rwa [components_of_mem h0]
  · have hall : slash ∉ name ++ ext := by
      rw [List.mem_append]
      exact not_or.mpr ⟨hs, hext⟩
    rw [components_of_slash_free hall, List.mem_singleton, untilNul_append h0]
    intro he
    have hsize := congrArg List.length (component_parent.mp he.symm)
    have hdots : (bytes "..").length = 2 := by decide
    rw [List.length_append, hdots] at hsize
    omega

theorem parent_not_mem_of_badName (h : badName name = false) :
    .parent ∉ components (name ++ bytes ".md") ∧ .parent ∉ components name := by
  obtain ⟨hp, hs⟩ := badName_false h
  have hname := parent_not_mem_of_hasParent hp
  exact ⟨parent_not_mem_ext (by decide) (by decide) hs hname, hname⟩

theorem parent_not_mem_taskName (h : badName name = false) :
    .parent ∉ components (taskName name) := by
  unfold taskName
  split_ifs
  · exact (parent_not_mem_of_badName h).1
  · exact (parent_not_mem_of_badName h).2

theorem parent_not_mem_index (h : hasParent name = false) : .parent ∉ components
    (if name = [] ∨ name.getLast? = some slash then name ++ bytes "index.html" else name) := by
  split_ifs with hlast
  · rcases hlast with rfl | hlast
    · decide
    · obtain ⟨l, rfl⟩ := List.getLast?_eq_some_iff.mp hlast
      rw [List.append_assoc, List.singleton_append]
      apply parent_not_mem_append
      · have hall := parent_not_mem_of_hasParent h
        by_cases h0 : 0 ∈ l
        · rwa [components_of_mem h0] at hall
        · rw [components_append h0] at hall
          exact fun hm => hall (List.mem_append_left _ hm)
      · decide
  · exact parent_not_mem_of_hasParent h

end Names

section Logs

variable {date u v : Bytes}

/-- The dates of the right shape whose path leaves the directory of the logs. -/
def stepsBack (date : Bytes) : Bool :=
  (bytes "../").isPrefixOf date || (bytes "/../").isPrefixOf date

/-- Two dots between slashes can only stand in front of the first dash. -/
theorem dots_front (hd : DateShaped date) (hx : date ++ bytes ".md" = u ++ bytes ".." ++ v)
    (hu : u = [] ∨ ∃ u', u = u' ++ [slash]) (hv : v = [] ∨ ∃ v', v = slash :: v') :
    u.length ≤ 1 := by
  obtain ⟨hlen, h4, h7⟩ := hd
  have hsize := congrArg List.length hx
  simp only [List.length_append, hlen] at hsize
  have hmd : (bytes ".md").length = 3 := by decide
  have hdots : (bytes "..").length = 2 := by decide
  have hfirst : (date ++ bytes ".md")[u.length]? = some 0x2E := by
    rw [hx, List.append_assoc, List.getElem?_append_right (Nat.le_refl _), Nat.sub_self]
    rfl
  have hsecond : (date ++ bytes ".md")[u.length + 1]? = some 0x2E := by
    rw [hx, List.append_assoc, List.getElem?_append_right (Nat.le_add_right _ _),
      Nat.add_sub_cancel_left]
    rfl
  have hbefore : u ≠ [] → (date ++ bytes ".md")[u.length - 1]? = some slash := by
    intro hne
    obtain ⟨u', rfl⟩ := hu.resolve_left hne
    rw [hx]
    simp
  have hbehind : v ≠ [] → (date ++ bytes ".md")[u.length + 2]? = some slash := by
    intro hne
    obtain ⟨v', rfl⟩ := hv.resolve_left hne
    rw [hx, List.getElem?_append_right (by simp [hdots]), List.length_append, hdots, Nat.sub_self]
    rfl
  have hat4 : (date ++ bytes ".md")[4]? = some dash := by
    rw [List.getElem?_append_left (by omega), h4]
  have hat7 : (date ++ bytes ".md")[7]? = some dash := by
    rw [List.getElem?_append_left (by omega), h7]
  have hat11 : (date ++ bytes ".md")[11]? = some 0x6D := by
    rw [List.getElem?_append_right (by omega), hlen]
    rfl
  by_contra hk
  have hne : u ≠ [] := by
    rintro rfl
    exact hk (Nat.zero_le 1)
  have hb := hbefore hne
  by_cases hvnil : v = []
  · subst hvnil
    have hu11 : u.length = 11 := by
      simp only [List.length_nil] at hsize
      omega
    rw [hu11, hat11] at hfirst
    exact absurd hfirst (by decide)
  · have he := hbehind hvnil
    have hbound : u.length ≤ 10 := by
      have := List.length_pos_iff.mpr hvnil
      omega
    generalize u.length = k at hk hfirst hsecond hb he hbound
    have hrange : k = 2 ∨ k = 3 ∨ k = 4 ∨ k = 5 ∨ k = 6 ∨ k = 7 ∨ k = 8 ∨ k = 9 ∨ k = 10 := by omega
    rcases hrange with rfl | rfl | rfl | rfl | rfl | rfl | rfl | rfl | rfl
    · exact absurd (hat4.symm.trans he) (by decide)
    · exact absurd (hat4.symm.trans hsecond) (by decide)
    · exact absurd (hat4.symm.trans hfirst) (by decide)
    · exact absurd (hat4.symm.trans hb) (by decide)
    · exact absurd (hat7.symm.trans hsecond) (by decide)
    · exact absurd (hat7.symm.trans hfirst) (by decide)
    · exact absurd (hat7.symm.trans hb) (by decide)
    · exact absurd (hat11.symm.trans he) (by decide)
    · exact absurd (hat11.symm.trans hsecond) (by decide)

theorem mem_components_parent {s : Bytes} (h0 : 0 ∉ s) (h : .parent ∈ components s) :
    ∃ u v, s = u ++ bytes ".." ++ v ∧ (u = [] ∨ ∃ u', u = u' ++ [slash]) ∧
      (v = [] ∨ ∃ v', v = slash :: v') := by
  obtain ⟨piece, hpiece, hc⟩ := List.mem_map.mp h
  rw [component_parent] at hc
  rw [hc, untilNul_of_nul_free h0] at hpiece
  exact mem_splitOn hpiece

theorem nul_free_md (h0 : 0 ∉ date) : 0 ∉ date ++ bytes ".md" := by
  rw [List.mem_append]
  exact not_or.mpr ⟨h0, by decide⟩

theorem parent_not_mem_log (h0 : 0 ∉ date) (hd : DateShaped date) (hb : stepsBack date = false) :
    .parent ∉ components (date ++ bytes ".md") := by
  intro hm
  obtain ⟨u, v, hx, hu, hv⟩ := mem_components_parent (nul_free_md h0) hm
  have hlen := dots_front hd hx hu hv
  have hlong : (bytes "/../").length ≤ date.length := by
    rw [hd.1]
    decide
  have hshort : (bytes "../").length ≤ date.length := by
    rw [hd.1]
    decide
  have hvne : v ≠ [] := by
    rintro rfl
    have hsize := congrArg List.length hx
    have hmd : (bytes ".md").length = 3 := by decide
    have hdots : (bytes "..").length = 2 := by decide
    simp only [List.length_append, hd.1, hmd, hdots, List.length_nil] at hsize
    omega
  obtain ⟨v', rfl⟩ := hv.resolve_left hvne
  simp only [stepsBack, Bool.or_eq_false_iff] at hb
  rcases hu with rfl | ⟨u', rfl⟩
  · have hpre : bytes "../" <+: date ++ bytes ".md" := ⟨v', by rw [hx]; rfl⟩
    have := List.prefix_of_prefix_length_le hpre (List.prefix_append date _) hshort
    rw [List.isPrefixOf_iff_prefix.mpr this] at hb
    exact absurd hb.1 (by decide)
  · have hnil : u' = [] := by
      apply List.eq_nil_of_length_eq_zero
      rw [List.length_append, List.length_singleton] at hlen
      omega
    subst hnil
    have hpre : bytes "/../" <+: date ++ bytes ".md" := ⟨v', by rw [hx]; rfl⟩
    have := List.prefix_of_prefix_length_le hpre (List.prefix_append date _) hlong
    rw [List.isPrefixOf_iff_prefix.mpr this] at hb
    exact absurd hb.2 (by decide)

/-- Such a date steps back once, at its start. -/
theorem stepsBack_split (h : stepsBack date = true) :
    ∃ back rest, (back = bytes ".." ∨ back = bytes "/..") ∧ date = back ++ slash :: rest := by
  rw [stepsBack, Bool.or_eq_true, List.isPrefixOf_iff_prefix, List.isPrefixOf_iff_prefix] at h
  rcases h with ⟨rest, rfl⟩ | ⟨rest, rfl⟩
  · exact ⟨_, rest, Or.inl rfl, rfl⟩
  · exact ⟨_, rest, Or.inr rfl, rfl⟩

theorem parent_not_mem_rest {back rest : Bytes} (hback : back = bytes ".." ∨ back = bytes "/..")
    (h0 : 0 ∉ back ++ slash :: rest) (hd : DateShaped (back ++ slash :: rest)) :
    .parent ∉ components (rest ++ bytes ".md") := by
  have hrest : 0 ∉ rest := fun hm => h0 (by simp [hm])
  intro hm
  obtain ⟨u, v, hx, hu, hv⟩ := mem_components_parent (nul_free_md hrest) hm
  have hlen : (back ++ slash :: u).length ≤ 1 := by
    refine dots_front (v := v) hd ?_ (Or.inr ?_) hv
    · rw [List.append_assoc, List.cons_append, hx]
      simp
    · rcases hu with rfl | ⟨u', rfl⟩
      · exact ⟨back, rfl⟩
      · exact ⟨back ++ slash :: u', by simp⟩
  have hb : 2 ≤ back.length := by
    rcases hback with rfl | rfl <;> decide
  simp only [List.length_append, List.length_cons] at hlen
  omega

def audit : FileName := ⟨bytes "audit", by decide⟩

theorem logPath_back (back rest : Bytes) :
    logPath (back ++ slash :: rest) =
      appDataDir ++ slash :: (bytes "audit" ++ slash :: (back ++ slash :: (rest ++ bytes ".md"))) := by
  have haudit : auditDir = appDataDir ++ slash :: bytes "audit" := rfl
  rw [logPath, haudit]
  simp

variable {t t' : FileTree} {cwd root : Place}

/-- Into the directory of the logs, if there is one, out of it again, and on. -/
theorem resolve_back {back rest : Bytes} (hback : back = bytes ".." ∨ back = bytes "/..")
    (h0 : 0 ∉ back ++ slash :: rest) (hd : DateShaped (back ++ slash :: rest))
    (hcwd : t.node cwd = some .dir) (hr : LeadsTo t cwd appDataDir root) (hl : Linkless t root) :
    resolve t cwd (pathOf (logPath (back ++ slash :: rest))) =
      if t.node (root ++ [audit]) = some .dir then lookup t root (components (rest ++ bytes ".md"))
      else .failed := by
  have hb0 : 0 ∉ back := fun hm => h0 (List.mem_append_left _ hm)
  have haudit : components (bytes "audit") = [.name audit] := by decide
  rw [logPath_back]
  obtain ⟨hdir, k, hk⟩ := resolve_under
    (bytes "audit" ++ slash :: (back ++ slash :: (rest ++ bytes ".md"))) (by decide) (Or.inr hcwd) hr
  have hplain := walk_lookup (k := k) hl (parent_not_mem_rest hback h0 hd) (List.prefix_refl root) hdir
  rw [hk, components_append (by decide), components_append hb0, haudit, List.singleton_append]
  have hne : (components back ++ components (rest ++ bytes ".md")).isEmpty = false := by
    rcases hback with rfl | rfl <;> rfl
  match hn : t.node (root ++ [audit]) with
  | none => rw [walk_none hn, hne]; rfl
  | some (.file data) => rw [walk_file hn, hne]; rfl
  | some (.link target) => exact absurd hn (hl _ (List.prefix_append root _) target)
  | some .dir =>
    rw [walk_dir hn, if_pos rfl, ← hplain]
    rcases hback with rfl | rfl
    · have hc : components (bytes "..") = [.parent] := by decide
      rw [hc, List.singleton_append, walk_parent, List.dropLast_concat]
    · have hc : components (bytes "/..") = [.here, .parent] := by decide
      rw [hc, List.cons_append, List.singleton_append, walk_here, walk_parent, List.dropLast_concat]

theorem dependsOn_back {back rest : Bytes} (hback : back = bytes ".." ∨ back = bytes "/..")
    (h0 : 0 ∉ back ++ slash :: rest) (hd : DateShaped (back ++ slash :: rest)) :
    DependsOn appDataDir (logPath (back ++ slash :: rest)) := by
  intro t t' cwd root hc hc' hr hr' hl h
  unfold openRead
  rw [resolve_back hback h0 hd hc hr hl, resolve_back hback h0 hd hc' hr' (h.linkless hl),
    h _ (List.prefix_append root [audit])]
  split_ifs
  · exact opened_congr h _
  · rfl

/-- The first name of such a rest has a dash. -/
theorem names_dash {l : Bytes} (hl : slash ∉ l) (h0 : 0 ∉ l) (r : Bytes) :
    ∃ n ns, names (components (l ++ dash :: r)) = n :: ns ∧ dash ∈ n.1 := by
  have hds : slash ≠ dash := by decide
  have hdz : 0 ≠ dash := by decide
  have hfree : ∀ w : Bytes, slash ∉ w → 0 ∉ w → ∃ n : FileName, n.1 = l ++ dash :: w ∧
      component (l ++ dash :: w) = .name n := by
    intro w hw hw0
    have hmem : dash ∈ l ++ dash :: w := List.mem_append_right _ List.mem_cons_self
    have hname : IsName (l ++ dash :: w) := by
      refine ⟨List.ne_nil_of_mem hmem, ?_, ?_, ?_, ?_⟩
      · simp [hl, hw, hds]
      · simp [h0, hw0, hdz]
      · intro he
        rw [he] at hmem
        exact absurd hmem (by decide)
      · intro he
        rw [he] at hmem
        exact absurd hmem (by decide)
    exact ⟨⟨_, hname⟩, rfl, component_name.mpr rfl⟩
  have hcut : untilNul (l ++ dash :: r) = l ++ dash :: untilNul r := by
    rw [untilNul_append h0]
    exact congrArg (l ++ ·) (List.takeWhile_cons_of_pos (by decide))
  have hz : 0 ∉ untilNul r := by
    intro hm
    have := List.mem_takeWhile_imp hm
    simp at this
  unfold components
  rw [hcut]
  by_cases hs : slash ∈ untilNul r
  · obtain ⟨w, v, hw, hws⟩ := List.eq_append_cons_of_mem hs
    rw [hw] at hz ⊢
    obtain ⟨n, hn, hc⟩ := hfree w hws (fun hm => hz (List.mem_append_left _ hm))
    have hsplit : slash ∉ l ++ dash :: w := by simp [hl, hws, hds]
    rw [← List.cons_append, ← List.append_assoc, List.splitOn_append_cons_self,
      List.splitOn_eq_singleton hsplit, List.singleton_append, List.map_cons, hc]
    exact ⟨n, _, rfl, by simp [hn]⟩
  · obtain ⟨n, hn, hc⟩ := hfree _ hs hz
    have hsplit : slash ∉ l ++ dash :: untilNul r := by simp [hl, hs, hds]
    rw [List.splitOn_eq_singleton hsplit, List.map_singleton, hc]
    exact ⟨n, [], rfl, by simp [hn]⟩

/-- The rest of a date that steps back leads to another entry than the logs. -/
theorem rest_not_audit {back rest : Bytes} (hback : back = bytes ".." ∨ back = bytes "/..")
    (h0 : 0 ∉ back ++ slash :: rest) (hd : DateShaped (back ++ slash :: rest)) :
    ¬ Beneath (root ++ [audit]) (root ++ names (components (rest ++ bytes ".md"))) := by
  have hdash : ∃ n ns, names (components (rest ++ bytes ".md")) = n :: ns ∧ dash ∈ n.1 := by
    rcases hback with rfl | rfl
    · have h4 : rest[1]? = some dash := hd.2.1
      match rest, h4 with
      | b :: c :: rest, h4 =>
        obtain rfl : c = dash := Option.some.inj h4
        have hb0 : b ≠ 0 := by
          rintro rfl
          exact h0 (by simp)
        by_cases hb : b = slash
        · subst hb
          obtain ⟨n, ns, hn, hm⟩ := names_dash (l := []) (by simp) (by simp) (rest ++ bytes ".md")
          have hc : components (slash :: (dash :: (rest ++ bytes ".md"))) =
              .here :: components (dash :: (rest ++ bytes ".md")) :=
            components_append (a := []) (by simp) _
          refine ⟨n, ns, ?_, hm⟩
          rw [List.cons_append, List.cons_append, hc]
          exact hn
        · exact names_dash (l := [b]) (by simpa using Ne.symm hb) (by simpa using hb0.symm) _
    · have h4 : rest[0]? = some dash := hd.2.1
      match rest, h4 with
      | c :: rest, h4 =>
        obtain rfl : c = dash := Option.some.inj h4
        exact names_dash (l := []) (by simp) (by simp) _
  obtain ⟨n, ns, hn, hm⟩ := hdash
  rw [hn, Beneath, List.prefix_append_right_inj, List.cons_prefix_cons]
  rintro ⟨rfl, -⟩
  exact absurd hm (by decide)

end Logs

section Requests

/-- The directory that a request for a file is served from. -/
def areaOf (webRoot today : Bytes) : Endpoint → Option Bytes
  | .staticFile _ => some webRoot
  | .appFile _ => some appsDir
  | .sessionDetail _ => some sessionsDir
  | .taskDetail _ => some tasksDir
  | .logs date =>
    some (if stepsBack (if date = [] then today else date) then appDataDir else auditDir)
  | _ => none

/-- What an endpoint has of the request's path and date. -/
def Endpoint.Of (path date : Bytes) : Endpoint → Prop
  | .staticFile p => p = path
  | .logs d => d = date
  | _ => True

theorem route_of (method : Method) (path date : Bytes) : (route method path date).Of path date := by
  unfold route handleApi
  repeat' refine iteInduction (motive := fun e : Endpoint => e.Of path date) ?_ ?_ <;> intro _
  all_goals trivial

variable {webRoot today path date file dir : Bytes}

theorem static_dependsOn (hpath : path.head? = some slash)
    (hfile : (serveStaticFile webRoot path).file = .ok file) : DependsOn webRoot file := by
  simp only [serveStaticFile] at hfile
  split_ifs at hfile with hindex hp
  · obtain rfl := Except.ok.inj hfile
    have hindex : .parent ∉ components (bytes "index.html") := by decide
    exact dependsOn_plain hindex
  · obtain rfl := Except.ok.inj hfile
    obtain ⟨rel, rfl⟩ := List.head?_eq_some_iff.mp hpath
    have hall := parent_not_mem_of_hasParent (Bool.eq_false_iff.mpr hp)
    apply dependsOn_plain
    intro hm
    exact hall ((components_append (a := []) (by simp) rel) ▸ List.mem_append_right _ hm)

theorem log_dependsOn (hdate : 0 ∉ date) (htoday : 0 ∉ today)
    (hfile : (apiLogs today date).file = .ok file) :
    DependsOn (if stepsBack (if date = [] then today else date) then appDataDir else auditDir)
      file := by
  have h0 : 0 ∉ if date = [] then today else date := by
    split_ifs
    · exact htoday
    · exact hdate
  simp only [apiLogs] at hfile
  generalize (if date = [] then today else date) = d at h0 hfile ⊢
  split_ifs at hfile with hd
  obtain rfl := Except.ok.inj hfile
  by_cases hb : stepsBack d = true
  · obtain ⟨back, rest, hback, rfl⟩ := stepsBack_split hb
    rw [if_pos hb]
    exact dependsOn_back hback h0 hd
  · rw [if_neg hb]
    exact dependsOn_plain (parent_not_mem_log h0 hd (Bool.eq_false_iff.mpr hb))

theorem file_dependsOn {e : Endpoint} {h : FileHandler} (he : e.Of path date)
    (hpath : path.head? = some slash) (hdate : 0 ∉ date) (htoday : 0 ∉ today)
    (hh : fileHandler webRoot today e = some h) (hfile : h.file = .ok file)
    (ha : areaOf webRoot today e = some dir) : DependsOn dir file := by
  cases e <;> simp only [fileHandler, reduceCtorEq, Option.some.injEq] at hh <;>
    simp only [areaOf, Option.some.injEq] at ha <;> subst hh ha
  case sessionDetail id =>
    simp only [apiSessionDetail] at hfile
    split_ifs at hfile with hbad
    obtain rfl := Except.ok.inj hfile
    exact dependsOn_plain (parent_not_mem_of_badName (Bool.eq_false_iff.mpr hbad)).1
  case taskDetail name =>
    simp only [apiTaskDetail] at hfile
    split_ifs at hfile with hbad
    obtain rfl := Except.ok.inj hfile
    exact dependsOn_plain (parent_not_mem_taskName (Bool.eq_false_iff.mpr hbad))
  case logs d =>
    obtain rfl : d = date := he
    exact log_dependsOn hdate htoday hfile
  case appFile p =>
    simp only [serveAppFile] at hfile
    split_ifs at hfile with hp
    obtain rfl := Except.ok.inj hfile
    exact dependsOn_plain (parent_not_mem_index (Bool.eq_false_iff.mpr hp))
  case staticFile p =>
    obtain rfl : p = path := he
    exact static_dependsOn hpath hfile

end Requests

end WebFiles
