import TizenClaw.MemoryStore
import TizenClaw.TransitionSystem

/-! The memory files over any sequence of writes: their sizes, and the titles that are read back. -/
namespace MemoryBounds

open ByteString ByteLines MemoryStore PipelineExecutor TransitionSystem

section Specification

/-- The fields of the frontmatter. -/
def front (e : MemoryEntry) : Bytes :=
  bytes "type: " ++ typeToString e.type ++ bytes "\ncreated: " ++ e.created ++
    bytes "\nupdated: " ++ e.updated ++ bytes "\n" ++
    (if e.tags = [] then [] else
      bytes "tags: [" ++ (bytes ", ").intercalate e.tags ++ bytes "]\n") ++
    (if e.importance = [] then [] else
      bytes "importance: " ++ e.importance ++ bytes "\n")

/-- What stands around the content in the file of an entry with a title. -/
def headerSize (e : MemoryEntry) : ℕ := (front e).length + e.title.length + 14

/-- The file of an entry keeps to the limit and is read back with its title and type. -/
def MemoryFile (config : MemoryConfig) (e : MemoryEntry) (text : Bytes) : Prop :=
  (∀ m, maxBytes config e.type = some m → text.length ≤ m) ∧
    ∃ r, markdownToEntry text e.type = some r ∧ r.title = e.title ∧ r.type = e.type

/-- The lines of the fields from the first that looks like the end of the frontmatter. -/
def leftOver (e : MemoryEntry) : List Bytes := (lines (front e)).dropWhile (· ≠ ruler)

def firstHeading (ls : List Bytes) : Option Bytes :=
  ls.findSome? fun l => (find (bytes "# ") l).map fun k => l.drop (k + 2)

/-- An entry that fits, or whose content can be cut so that it does, and whose title is the first
heading behind the frontmatter. -/
structure Sound (config : MemoryConfig) (e : MemoryEntry) : Prop where
  size : ∀ m, maxBytes config e.type = some m → headerSize e + e.content.length ≤ m ∨
    headerSize e < m ∧ m < wrap32 (headerSize e + e.content.length)
  line : newline ∉ e.title
  heading : ∀ h, firstHeading (leftOver e) = some h → h = e.title

end Specification

section Sizes

variable {e : MemoryEntry} {config : MemoryConfig}

theorem entryToMarkdown_front (e : MemoryEntry) :
    entryToMarkdown e = bytes "---\n" ++ (front e ++ (ruler ++ newline :: bodyText e [])) := by
  have hopen : bytes "---\ntype: " = bytes "---\n" ++ bytes "type: " := by decide
  have hrule : bytes "---\n\n" = ruler ++ [newline, newline] := by decide
  have hline : bytes "\n" = [newline] := by decide
  have hheading : heading e =
      if e.title = [] then [] else bytes "# " ++ e.title ++ bytes "\n\n" := rfl
  rw [entryToMarkdown, ← hheading, bodyText, front, hopen, hrule, hline]
  simp

theorem length_entryToMarkdown (ht : e.title ≠ []) :
    (entryToMarkdown e).length = headerSize e + e.content.length := by
  have hopen : (bytes "---\n").length = 4 := by decide
  have hruler : ruler.length = 3 := by decide
  have hhash : (bytes "# ").length = 2 := by decide
  have hgap : (bytes "\n\n").length = 2 := by decide
  rw [entryToMarkdown_front, bodyText, heading, if_neg ht, unlines_nil, List.nil_append, headerSize]
  simp only [List.length_append, List.length_cons, List.length_nil, hopen, hruler, hhash, hgap]
  omega

/-- The header does not depend on the content. -/
theorem headerSize_content (e : MemoryEntry) (content : Bytes) :
    headerSize { e with content := content } = headerSize e := rfl

/-- The file that is written keeps to the limit just when the rendering does, or when the header
leaves room and the size is seen to be too large. -/
theorem fileText_le_iff (ht : e.title ≠ []) {m : ℤ} (hm : maxBytes config e.type = some m) :
    (fileText config e).length ≤ m ↔ headerSize e + e.content.length ≤ m ∨
      headerSize e < m ∧ m < wrap32 (headerSize e + e.content.length) := by
  have hlength := length_entryToMarkdown ht
  have hcut : ∀ n, (entryToMarkdown { e with content := e.content.take n }).length =
      headerSize e + min n e.content.length := by
    intro n
    have hlen := length_entryToMarkdown (e := { e with content := e.content.take n }) ht
    rwa [headerSize_content, List.length_take] at hlen
  have hsize : ((entryToMarkdown e).length : ℤ) = headerSize e + e.content.length := by
    rw [hlength, Nat.cast_add]
  have hoverhead : (headerSize e + e.content.length : ℤ) - e.content.length = headerSize e := by
    omega
  rw [fileText, hm]
  dsimp only
  rw [hsize, hoverhead]
  by_cases hlarge : m < wrap32 (headerSize e + e.content.length)
  · have hbound := wrap32_lt (headerSize e + e.content.length)
    rw [if_pos hlarge]
    by_cases hroom : (headerSize e : ℤ) < m
    · have hwrap : wrap32 (headerSize e) = headerSize e := wrap32_of_range (by omega) (by omega)
      have hbody : wrap32 (m - headerSize e) = m - headerSize e :=
        wrap32_of_range (by omega) (by omega)
      rw [hwrap, hbody, if_pos (by omega), hcut]
      refine iff_of_true ?_ (.inr ⟨hroom, hlarge⟩)
      rw [Nat.cast_add]
      omega
    · split_ifs with hbody
      · rw [hcut, Nat.cast_add]
        omega
      · rw [hsize]
        omega
  · rw [if_neg hlarge, hsize]
    omega

end Sizes

section Titles

variable {e : MemoryEntry} {rest : List Bytes}

/-- The line of the title ends at its first newline, or else at the one behind it. -/
theorem exists_title_line (e : MemoryEntry) : ∃ line after,
    e.title ++ (bytes "\n\n" ++ (e.content ++ [newline])) = line ++ newline :: after ∧
      newline ∉ line ∧ (line = e.title ↔ newline ∉ e.title) := by
  by_cases hmem : newline ∈ e.title
  · obtain ⟨line, after, htitle, hline⟩ := List.eq_append_cons_of_mem hmem
    refine ⟨line, after ++ (bytes "\n\n" ++ (e.content ++ [newline])), ?_, hline, ?_⟩
    · rw [htitle]
      simp
    · exact iff_of_false (fun h => hline (h ▸ hmem)) fun h => h hmem
  · exact ⟨e.title, newline :: (e.content ++ [newline]), rfl, hmem, iff_of_true rfl hmem⟩

/-- Without a heading among the lines that are left over the own one is read, up to its newline. -/
theorem readHeading_own_iff (ht : e.title ≠ []) (hfirst : firstHeading rest = none) :
    (readHeading (bodyText e rest)).1 = e.title ↔ newline ∉ e.title := by
  have hfree : ∀ l ∈ rest, find (bytes "# ") l = none := by
    intro l hl
    have hnone := List.findSome?_eq_none_iff.mp hfirst l hl
    exact Option.map_eq_none_iff.mp hnone
  obtain ⟨line, after, htext, hline, hiff⟩ := exists_title_line e
  have hbody : bodyText e rest = (unlines rest ++ [newline]) ++
      (bytes "# " ++ (line ++ newline :: after)) := by
    rw [bodyText, heading, if_neg ht, ← htext]
    simp
  have hfind := find_heading_rest hfree (bytes "# " ++ (line ++ newline :: after))
  rw [find_self (by decide), Option.map_some] at hfind
  have hread : readHeading (bodyText e rest) = (line, after) := by
    rw [hbody]
    refine readHeading_line hline ?_
    rw [List.append_assoc, List.singleton_append, hfind, List.length_append,
      List.length_singleton, Nat.zero_add]
  rw [hread, hiff]

/-- A heading among the lines that are left over is read in place of the own one. -/
theorem readHeading_other {t : Bytes} (hn : ∀ l ∈ rest, newline ∉ l)
    (hfirst : firstHeading rest = some t) :
    (readHeading (bodyText e rest)).1 = t ∧ newline ∉ t := by
  obtain ⟨ls, l, ms, hsplit, hl, hls⟩ := List.findSome?_eq_some_iff.mp hfirst
  obtain ⟨k, hk, rfl⟩ := Option.map_eq_some_iff.mp hl
  have hfree : ∀ m ∈ ls, find (bytes "# ") m = none :=
    fun m hm => Option.map_eq_none_iff.mp (hls m hm)
  obtain ⟨t, hlt⟩ := find_eq_some hk
  have hdrop : l.drop (k + 2) = t := by
    have hpat : (bytes "# ").length = 2 := by decide
    have hlen := length_take_found hk
    conv_lhs => rw [hlt]
    rw [← List.drop_drop, List.drop_left' hlen, List.drop_left' hpat]
  have hline : newline ∉ t := by
    intro hmem
    refine hn l (by simp [hsplit]) ?_
    rw [hlt]
    simp [hmem]
  rw [hsplit, readHeading_left hline hfree hk hlt, hdrop]
  exact ⟨rfl, hline⟩

/-- The title that is read is the first heading of the lines that are left over, or the own one. -/
theorem readHeading_title_iff (ht : e.title ≠ []) (hn : ∀ l ∈ rest, newline ∉ l) :
    (readHeading (bodyText e rest)).1 = e.title ↔
      newline ∉ e.title ∧ ∀ h, firstHeading rest = some h → h = e.title := by
  cases hfirst : firstHeading rest with
  | none =>
    rw [readHeading_own_iff ht hfirst]
    refine ⟨fun h => ⟨h, fun h' hno => ?_⟩, And.left⟩
    cases hno
  | some t =>
    obtain ⟨hread, hline⟩ := @readHeading_other e rest t hn hfirst
    rw [hread]
    constructor
    · rintro rfl
      exact ⟨hline, fun h hh => (Option.some.inj hh).symm⟩
    · rintro ⟨-, h⟩
      exact h t rfl

theorem front_lines (e : MemoryEntry) :
    ∃ s, front e = typeLine e ++ newline :: (s ++ [newline]) := by
  have hcreated : bytes "\ncreated: " = newline :: bytes "created: " := by decide
  have hline : bytes "\n" = [newline] := by decide
  have hclose : bytes "]\n" = bytes "]" ++ [newline] := by decide
  let stamps := bytes "created: " ++ e.created ++ bytes "\nupdated: " ++ e.updated
  have hstamps : front e = typeLine e ++ newline :: (stamps ++ [newline] ++
      ((if e.tags = [] then [] else
        bytes "tags: [" ++ (bytes ", ").intercalate e.tags ++ bytes "]\n") ++
      (if e.importance = [] then [] else
        bytes "importance: " ++ e.importance ++ bytes "\n"))) := by
    rw [front, hcreated, hline]
    simp [typeLine, stamps]
  rw [hstamps, hline, hclose]
  by_cases hi : e.importance = []
  · by_cases ht : e.tags = []
    · exact ⟨stamps, by simp [hi, ht]⟩
    · refine ⟨stamps ++ [newline] ++
        (bytes "tags: [" ++ (bytes ", ").intercalate e.tags ++ bytes "]"), ?_⟩
      simp [hi, ht]
  · refine ⟨stamps ++ [newline] ++ ((if e.tags = [] then [] else bytes "tags: [" ++
      (bytes ", ").intercalate e.tags ++ (bytes "]" ++ [newline])) ++
      (bytes "importance: " ++ e.importance)), ?_⟩
    simp [hi]

theorem newline_typeLine (e : MemoryEntry) : newline ∉ typeLine e := by
  rw [typeLine, List.mem_append, not_or]
  exact ⟨by decide, by cases e.type <;> decide⟩

theorem typeLine_ne_ruler (e : MemoryEntry) : typeLine e ≠ ruler := by
  rw [typeLine]
  cases e.type <;> decide

/-- The lines in front of the body: the type, other fields, and what is left over of them. -/
theorem split_front (e : MemoryEntry) : ∃ fields rest,
    entryToMarkdown e = bytes "---\n" ++
      (unlines (typeLine e :: fields) ++ (ruler ++ newline :: bodyText e rest)) ∧
    (∀ l ∈ typeLine e :: fields, newline ∉ l) ∧ ruler ∉ fields ∧ (∀ l ∈ rest, newline ∉ l) ∧
    firstHeading rest = firstHeading (leftOver e) := by
  obtain ⟨s, hs⟩ := front_lines e
  have hlines : lines (front e) = typeLine e :: lines (s ++ [newline]) := by
    rw [hs, lines_line (newline_typeLine e)]
  have hfront : front e = unlines (typeLine e :: lines (s ++ [newline])) := by
    rw [unlines_cons, unlines_lines, hs]
  have hfree := newline_not_mem_lines (s ++ [newline])
  have htype : (typeLine e :: lines (s ++ [newline])).dropWhile (· ≠ ruler) =
      (lines (s ++ [newline])).dropWhile (· ≠ ruler) :=
    List.dropWhile_cons_of_pos (decide_eq_true (typeLine_ne_ruler e))
  rw [entryToMarkdown_front, hfront, leftOver, hlines, htype]
  by_cases hruler : ruler ∈ lines (s ++ [newline])
  · obtain ⟨fields, rest, hsplit, hno⟩ := List.eq_append_cons_of_mem hruler
    rw [hsplit] at hfree ⊢
    refine ⟨fields, rest ++ [ruler], ?_, ?_, hno, ?_, ?_⟩
    · simp [bodyText]
    · rw [List.forall_mem_cons]
      exact ⟨newline_typeLine e, fun l hl => hfree l (List.mem_append_left _ hl)⟩
    · intro l hl
      apply hfree l
      simp only [List.mem_append, List.mem_cons, List.not_mem_nil, or_false] at hl ⊢
      exact .inr hl.symm
    · have hfields : ∀ l ∈ fields, decide (l ≠ ruler) = true := by
        intro l hl
        have hne : l ≠ ruler := fun h => hno (h ▸ hl)
        exact decide_eq_true hne
      have hnone : (find (bytes "# ") ruler).map (fun k => ruler.drop (k + 2)) = none := by decide
      rw [List.dropWhile_append_of_pos hfields,
        List.dropWhile_cons_of_neg (by simp), firstHeading, firstHeading,
        List.findSome?_append, List.findSome?_cons, List.findSome?_cons, hnone,
        List.findSome?_nil, Option.or_none]
  · refine ⟨lines (s ++ [newline]), [], rfl, ?_, hruler, by simp, ?_⟩
    · rw [List.forall_mem_cons]
      exact ⟨newline_typeLine e, hfree⟩
    · have hnone : (lines (s ++ [newline])).dropWhile (· ≠ ruler) = [] := by
        rw [List.dropWhile_eq_nil_iff]
        intro l hl
        have hne : l ≠ ruler := fun h => hruler (h ▸ hl)
        exact decide_eq_true hne
      rw [hnone]

/-- The title of a rendering is read back just when it is the first heading, on one line. -/
theorem title_read_iff (ht : e.title ≠ []) :
    (∃ r, markdownToEntry (entryToMarkdown e) e.type = some r ∧ r.title = e.title ∧
      r.type = e.type) ↔
      newline ∉ e.title ∧ ∀ h, firstHeading (leftOver e) = some h → h = e.title := by
  obtain ⟨fields, rest, htext, hfields, hno, hrest, hfirst⟩ := split_front e
  obtain ⟨htype, -, -⟩ := readFields { type := e.type } (typeLine e :: fields)
  rw [htext, markdownToEntry_front hfields hno, ← hfirst, ← readHeading_title_iff ht hrest]
  constructor
  · rintro ⟨r, hr, htitle, -⟩
    obtain rfl := Option.some.inj hr
    exact htitle
  · intro htitle
    exact ⟨_, rfl, htitle, htype⟩

end Titles

section Runs

structure Call where
  clock : Clock
  writing : Writing
  entry : MemoryEntry

/-- The store, and for each file the entry that was written to it last. -/
structure Watched where
  store : Store
  author : Bytes → Option MemoryEntry

/-- The entry has a title, and its file is written and takes the place of the one before. -/
def Call.Written (c : Call) : Prop :=
  c.entry.title ≠ [] ∧ c.writing.opened = true ∧ c.writing.written = true ∧
    c.writing.renamed = true

def filePath (s : Store) (c : Call) : Bytes :=
  fileName (typeDir s c.entry.type ++ bytes "/" ++ memoryName c.clock c.entry)

def watch (x : Watched) (c : Call) : Watched :=
  let done := writeMemory c.clock c.writing c.entry x.store
  { store := done.2
    author := if done.1 then Function.update x.author (filePath x.store c) (some c.entry)
      else x.author }

/-- Sequences of writes to a store without files. -/
def writes : System Watched Call where
  Init x := ∀ path, x.store.files path = none
  Step x c y := y = watch x c

/-- Each file is the memory file of the entry that it was written for. -/
def Bounded (x : Watched) : Prop :=
  ∀ path text, x.store.files path = some text →
    ∃ e, x.author path = some e ∧ MemoryFile x.store.config e text

/-- An entry that is written is sound, with the stamps that it gets. -/
def Careful (x : Watched) (c : Call) : Prop :=
  c.Written → Sound x.store.config (stamped c.clock c.entry)

variable {x : Watched} {c : Call}

theorem memoryFile_stamped {config : MemoryConfig} {clock : Clock} {e : MemoryEntry}
    {text : Bytes} : MemoryFile config (stamped clock e) text ↔ MemoryFile config e text := Iff.rfl

/-- Cutting the content leaves the frontmatter and the title as they are. -/
theorem title_read_fileText_iff {config : MemoryConfig} {e : MemoryEntry} (ht : e.title ≠ []) :
    (∃ r, markdownToEntry (fileText config e) e.type = some r ∧ r.title = e.title ∧
      r.type = e.type) ↔
      newline ∉ e.title ∧ ∀ h, firstHeading (leftOver e) = some h → h = e.title := by
  obtain ⟨content, htext⟩ : ∃ content,
      fileText config e = entryToMarkdown { e with content := content } := by
    unfold fileText
    cases maxBytes config e.type with
    | none => exact ⟨e.content, rfl⟩
    | some m =>
      dsimp only
      split_ifs
      · exact ⟨_, rfl⟩
      · exact ⟨e.content, rfl⟩
      · exact ⟨e.content, rfl⟩
  rw [htext]
  exact title_read_iff (e := { e with content := content }) ht

theorem memoryFile_iff {config : MemoryConfig} {e : MemoryEntry} (ht : e.title ≠ []) :
    MemoryFile config e (fileText config e) ↔ Sound config e := by
  rw [MemoryFile, title_read_fileText_iff ht]
  constructor
  · rintro ⟨hsize, hline, hheading⟩
    exact ⟨fun m hm => (fileText_le_iff ht hm).mp (hsize m hm), hline, hheading⟩
  · rintro ⟨hsize, hline, hheading⟩
    exact ⟨fun m hm => (fileText_le_iff ht hm).mpr (hsize m hm), hline, hheading⟩

/-- A write gives its own file the text. Another file is as before, or is gone. -/
theorem atomicWrite_spec (w : Writing) (path content : Bytes) (s : Store) :
    (atomicWrite w path content s).2.config = s.config ∧
    ((atomicWrite w path content s).1 = true →
      (atomicWrite w path content s).2.files (fileName path) = some content) ∧
    ∀ q text, (atomicWrite w path content s).2.files q = some text →
      ((atomicWrite w path content s).1 = true → q ≠ fileName path) → s.files q = some text := by
  have hremoved : ∀ tmp q text, Function.update s.files tmp none q = some text →
      s.files q = some text := by
    intro tmp q text h
    by_cases hq : q = tmp
    · rw [hq, Function.update_self] at h
      cases h
    · rwa [Function.update_of_ne hq] at h
  unfold atomicWrite
  dsimp only
  split_ifs
  · exact ⟨rfl, nofun, fun q text h _ => h⟩
  · exact ⟨rfl, nofun, fun q text h _ => hremoved _ q text h⟩
  · refine ⟨rfl, fun _ => Function.update_self _ _ _, fun q text h hne => ?_⟩
    dsimp only at h
    rw [Function.update_of_ne (hne rfl)] at h
    exact hremoved _ q text h

theorem atomicWrite_succeeds_iff (w : Writing) (path content : Bytes) (s : Store) :
    (atomicWrite w path content s).1 = true ↔
      w.opened = true ∧ w.written = true ∧ w.renamed = true := by
  obtain ⟨opened, written, renamed⟩ := w
  cases opened <;> cases written <;> cases renamed <;> simp [atomicWrite]

theorem writeMemory_succeeds_iff (c : Call) (s : Store) :
    (writeMemory c.clock c.writing c.entry s).1 = true ↔ c.Written := by
  by_cases ht : c.entry.title = []
  · rw [writeMemory, if_pos ht]
    exact iff_of_false Bool.false_ne_true fun h => h.1 ht
  have hdone : (writeMemory c.clock c.writing c.entry s).1 = (atomicWrite c.writing
      (typeDir s c.entry.type ++ bytes "/" ++ memoryName c.clock c.entry)
      (fileText s.config (stamped c.clock c.entry)) s).1 := by
    rw [writeMemory, if_neg ht]
    dsimp only
    split_ifs with hfailed
    · rfl
    · rw [Bool.not_eq_false] at hfailed
      exact hfailed.symm
  rw [hdone, Call.Written, atomicWrite_succeeds_iff, and_iff_right ht]

theorem writeMemory_spec (c : Call) (s : Store) :
    (writeMemory c.clock c.writing c.entry s).2.config = s.config ∧
    ((writeMemory c.clock c.writing c.entry s).1 = true → c.entry.title ≠ [] ∧
      (writeMemory c.clock c.writing c.entry s).2.files (filePath s c) =
        some (fileText s.config (stamped c.clock c.entry))) ∧
    ∀ path text, (writeMemory c.clock c.writing c.entry s).2.files path = some text →
      ((writeMemory c.clock c.writing c.entry s).1 = true → path ≠ filePath s c) →
        s.files path = some text := by
  by_cases ht : c.entry.title = []
  · rw [writeMemory, if_pos ht]
    exact ⟨rfl, fun h => absurd h Bool.false_ne_true, fun path text h _ => h⟩
  let done := atomicWrite c.writing (typeDir s c.entry.type ++ bytes "/" ++
    memoryName c.clock c.entry) (fileText s.config (stamped c.clock c.entry)) s
  obtain ⟨hconfig, hwritten, hothers⟩ := atomicWrite_spec c.writing (typeDir s c.entry.type ++
    bytes "/" ++ memoryName c.clock c.entry) (fileText s.config (stamped c.clock c.entry)) s
  have hwrite : writeMemory c.clock c.writing c.entry s =
      if done.1 = false then done
      else (true, { done.2 with
        summaryDirty := done.2.summaryDirty || (stamped c.clock c.entry).type ≠ .shortTerm }) := by
    rw [writeMemory, if_neg ht]
  rw [hwrite]
  split_ifs with hdone
  · exact ⟨hconfig, fun h => absurd (hdone.symm.trans h) (by decide), hothers⟩
  · have hdone : done.1 = true := Bool.not_eq_false _ ▸ hdone
    exact ⟨hconfig, fun _ => ⟨ht, hwritten hdone⟩,
      fun path text h hne => hothers path text h fun _ => hne rfl⟩

/-- After a write the files are bounded just when the write was one of a sound entry. -/
theorem bounded_watch_iff (h : Bounded x) : Bounded (watch x c) ↔ Careful x c := by
  obtain ⟨hconfig, hwritten, hothers⟩ := writeMemory_spec c x.store
  constructor
  · intro hb hdone
    rw [← writeMemory_succeeds_iff c x.store] at hdone
    obtain ⟨ht, hfile⟩ := hwritten hdone
    obtain ⟨e, he, hmemory⟩ := hb (filePath x.store c) _ hfile
    have hauthor : (watch x c).author (filePath x.store c) = some c.entry := by
      simp only [watch]
      rw [if_pos hdone, Function.update_self]
    obtain rfl := Option.some.inj (he.symm.trans hauthor)
    have hsame : (watch x c).store.config = x.store.config := hconfig
    rw [hsame] at hmemory
    have hstamped : (stamped c.clock c.entry).title ≠ [] := ht
    exact (memoryFile_iff hstamped).mp (memoryFile_stamped.mpr hmemory)
  · intro hc path text hfile
    have hsame : (watch x c).store.config = x.store.config := hconfig
    rw [hsame]
    by_cases hown : (writeMemory c.clock c.writing c.entry x.store).1 = true ∧
        path = filePath x.store c
    · obtain ⟨hdone, rfl⟩ := hown
      obtain ⟨ht, hnew⟩ := hwritten hdone
      obtain rfl := Option.some.inj (hnew.symm.trans hfile)
      have hstamped : (stamped c.clock c.entry).title ≠ [] := ht
      have hsound := hc ((writeMemory_succeeds_iff c x.store).mp hdone)
      refine ⟨c.entry, ?_, memoryFile_stamped.mp ((memoryFile_iff hstamped).mpr hsound)⟩
      simp only [watch]
      rw [if_pos hdone, Function.update_self]
    · obtain ⟨e, he, hmemory⟩ := h path text
        (hothers path text hfile fun hdone hpath => hown ⟨hdone, hpath⟩)
      refine ⟨e, ?_, hmemory⟩
      simp only [watch]
      split_ifs with hdone
      · rw [Function.update_of_ne fun hpath => hown ⟨hdone, hpath⟩, he]
      · exact he

/-- All files of a run are bounded and read back exactly while all entries that are written are
sound. -/
theorem memory_files_iff {tr : List (Watched × Call)} (h : Run writes tr x) :
    ((∀ y ∈ tr, Bounded y.1) ∧ Bounded x) ↔ ∀ y ∈ tr, Careful y.1 y.2 := by
  refine h.invariant_iff ?_ ?_
  · intro x hx path text hfile
    rw [hx path] at hfile
    cases hfile
  · rintro x c y hb rfl
    exact bounded_watch_iff hb

end Runs

namespace Counterexample

def clock : Clock := ⟨⟨bytes "10:30", by decide⟩, bytes "2026"⟩

def empty : Watched := ⟨⟨bytes "/memory", {}, fun _ => none, false⟩, fun _ => none⟩

def writing (e : MemoryEntry) : Call := ⟨clock, ⟨true, true, true⟩, e⟩

theorem run_writing (e : MemoryEntry) :
    Run writes [(empty, writing e)] (watch empty (writing e)) :=
  (Run.init fun _ => rfl).step (e := writing e) rfl

def short : MemoryEntry := { type := .longTerm, title := bytes "t", content := bytes "text" }

/-- A short note is kept as it is. -/
theorem short_bounded : Bounded (watch empty (writing short)) := by
  refine ((memory_files_iff (run_writing short)).mpr ?_).2
  rw [List.forall_mem_singleton]
  refine fun _ => ⟨fun m hm => .inl ?_, by decide, ?_⟩
  · obtain rfl := Option.some.inj hm
    decide
  · have hnone : firstHeading (leftOver (stamped clock short)) = none := by decide
    exact fun h hh => absurd (hnone.symm.trans hh) nofun

/-- A note with a tag of the size of the limit. -/
def tagged : MemoryEntry :=
  { type := .longTerm, title := bytes "t", tags := [List.replicate 2048 0x61],
    content := bytes "text" }

theorem tagged_too_large :
    Run writes [(empty, writing tagged)] (watch empty (writing tagged)) ∧
      ¬ Bounded (watch empty (writing tagged)) := by
  refine ⟨run_writing tagged, fun h => ?_⟩
  have hempty : Bounded empty := by
    intro path text hfile
    cases hfile
  have hwritten : (writing tagged).Written := ⟨by decide, rfl, rfl, rfl⟩
  have hsound : Sound {} (stamped clock tagged) := (bounded_watch_iff hempty).mp h hwritten
  have hheader : 2048 ≤ headerSize (stamped clock tagged) := by decide +kernel
  have hcontent : (stamped clock tagged).content.length = 4 := rfl
  rcases hsound.size 2048 rfl with hsize | ⟨hsize, -⟩
  · omega
  · omega

end Counterexample

end MemoryBounds
