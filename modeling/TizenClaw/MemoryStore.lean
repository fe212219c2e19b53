import TizenClaw.ByteLines
import TizenClaw.PipelineExecutor

/-! The memory files: entries written as Markdown with a frontmatter, and read back line by line. -/
namespace MemoryStore

open ByteString ByteLines PipelineExecutor

inductive MemoryType where
  | shortTerm
  | longTerm
  | episodic
  deriving DecidableEq, Repr

def typeToString : MemoryType → Bytes
  | .shortTerm => bytes "short-term"
  | .longTerm => bytes "long-term"
  | .episodic => bytes "episodic"

structure MemoryEntry where
  type : MemoryType
  title : Bytes := []
  content : Bytes := []
  tags : List Bytes := []
  importance : Bytes := []
  created : Bytes := []
  updated : Bytes := []
  deriving DecidableEq, Repr

section Markdown

def entryToMarkdown (entry : MemoryEntry) : Bytes :=
  bytes "---\ntype: " ++ typeToString entry.type ++ bytes "\ncreated: " ++ entry.created ++
    bytes "\nupdated: " ++ entry.updated ++ bytes "\n" ++
    (if entry.tags = [] then [] else
      bytes "tags: [" ++ (bytes ", ").intercalate entry.tags ++ bytes "]\n") ++
    (if entry.importance = [] then [] else
      bytes "importance: " ++ entry.importance ++ bytes "\n") ++
    bytes "---\n\n" ++
    (if entry.title = [] then [] else bytes "# " ++ entry.title ++ bytes "\n\n") ++
    entry.content ++ bytes "\n"

/-- Trimming that leaves a text as it is when nothing else is in it. -/
def trimUnlessBlank (ws s : Bytes) : Bytes :=
  if ∀ b ∈ s, ws.contains b = true then s else trim ws s

/-- The tags of a line, up to its first closing bracket. -/
def tagsOf (line : Bytes) : List Bytes :=
  match find [0x5B] line, find [0x5D] line with
  | some start, some stop =>
    ((pieces 0x2C ((line.drop (start + 1)).take (stop - start - 1))).map
      (trimUnlessBlank [space])).filter (· ≠ [])
  | _, _ => []

def readField (entry : MemoryEntry) (line : Bytes) : MemoryEntry :=
  if bytes "created: " <+: line then { entry with created := line.drop 9 }
  else if bytes "updated: " <+: line then { entry with updated := line.drop 9 }
  else if bytes "importance: " <+: line then { entry with importance := line.drop 12 }
  else if bytes "tags: [" <+: line then { entry with tags := entry.tags ++ tagsOf line }
  else entry

/-- Title and content. Without a line end behind the heading the body stays as it is. -/
def readHeading (body : Bytes) : Bytes × Bytes :=
  match find (bytes "# ") body with
  | none => ([], body)
  | some titleStart =>
    match find [newline] (body.drop titleStart) with
    | none => (body.drop (titleStart + 2), body)
    | some length =>
      ((body.drop (titleStart + 2)).take (length - 2), body.drop (titleStart + length + 1))

def white : Bytes := bytes " \n\r\t"

def readBody (entry : MemoryEntry) (body : Bytes) : MemoryEntry :=
  { entry with
    title := (readHeading body).1
    content := trimUnlessBlank white (readHeading body).2 }

def markdownToEntry (content : Bytes) (type : MemoryType) : Option MemoryEntry :=
  if content.take 4 = bytes "---\n" then
    (find (bytes "\n---\n") (content.drop 4)).map fun length =>
      readBody ((lines ((content.drop 4).take length)).foldl readField { type := type })
        (content.drop (4 + length + 5))
  else none

end Markdown

section Store

structure MemoryConfig where
  longTermMaxFileBytes : ℤ := 2048
  episodicMaxFileBytes : ℤ := 2048
  deriving DecidableEq, Repr

structure Store where
  baseDir : Bytes
  config : MemoryConfig
  files : Bytes → Option Bytes
  summaryDirty : Bool

/-- Whether the file could be opened, written and renamed. -/
structure Writing where
  opened : Bool
  written : Bool
  renamed : Bool
  deriving DecidableEq, Repr

/-- The file under a path, which ends at the first zero byte of the text. -/
def fileName (path : Bytes) : Bytes := path.takeWhile (· ≠ 0)

def atomicWrite (w : Writing) (path content : Bytes) (s : Store) : Bool × Store :=
  let tmpPath := path ++ bytes ".tmp"
  let removed := Function.update s.files (fileName tmpPath) none
  if w.opened = false then (false, s)
  else if w.written = false ∨ w.renamed = false then (false, { s with files := removed })
  else (true, { s with files := Function.update removed (fileName path) (some content) })

def typeDir (s : Store) (type : MemoryType) : Bytes := s.baseDir ++ bytes "/" ++ typeToString type

/-- `GetTimestamp` and `GetDatePrefix` at the write. -/
structure Clock where
  timestamp : { t : Bytes // newline ∉ t }
  datePrefix : Bytes

/-- The size that the files of a type are kept under. -/
def maxBytes (config : MemoryConfig) : MemoryType → Option ℤ
  | .shortTerm => none
  | .longTerm => some config.longTermMaxFileBytes
  | .episodic => some config.episodicMaxFileBytes

def stamped (clock : Clock) (entry : MemoryEntry) : MemoryEntry :=
  { entry with
    created := if entry.created = [] then clock.timestamp.1 else entry.created
    updated := clock.timestamp.1 }

def fileText (config : MemoryConfig) (e : MemoryEntry) : Bytes :=
  let content := entryToMarkdown e
  match maxBytes config e.type with
  | none => content
  | some maxBytes =>
    if maxBytes < wrap32 content.length then
      let overhead := wrap32 (content.length - e.content.length)
      let maxBody := wrap32 (maxBytes - overhead)
      if 0 < maxBody then entryToMarkdown { e with content := e.content.take maxBody.toNat }
      else content
    else content

def memoryName (clock : Clock) (entry : MemoryEntry) : Bytes :=
  clock.datePrefix ++ bytes "-" ++ entry.title ++ bytes ".md"

def writeMemory (clock : Clock) (w : Writing) (entry : MemoryEntry) (s : Store) : Bool × Store :=
  if entry.title = [] then (false, s)
  else
    let e := stamped clock entry
    let path := typeDir s entry.type ++ bytes "/" ++ memoryName clock entry
    let done := atomicWrite w path (fileText s.config e) s
    if done.1 = false then done
    else (true, { done.2 with summaryDirty := done.2.summaryDirty || e.type ≠ .shortTerm })

def readMemory (s : Store) (type : MemoryType) (filename : Bytes) : Option MemoryEntry :=
  (s.files (fileName (typeDir s type ++ bytes "/" ++ filename))).bind fun content =>
    markdownToEntry content type

end Store

section Agreement

/-- Same title, tags, importance and type, and the same content up to white space around it. -/
structure Same (read e : MemoryEntry) : Prop where
  type : read.type = e.type
  title : read.title = e.title
  tags : read.tags = e.tags
  importance : read.importance = e.importance
  content : trim white read.content = trim white e.content

def RoundTrips (read : Option MemoryEntry) (e : MemoryEntry) : Prop := ∃ r, read = some r ∧ Same r e

/-- A tag without the delimiters of the list, and without spaces around it. -/
structure CleanTag (tag : Bytes) : Prop where
  comma : 0x2C ∉ tag
  bracket : 0x5D ∉ tag
  ends : trim [space] tag = tag

instance (tag : Bytes) : Decidable (CleanTag tag) :=
  decidable_of_iff (0x2C ∉ tag ∧ 0x5D ∉ tag ∧ trim [space] tag = tag)
    ⟨fun h => ⟨h.1, h.2.1, h.2.2⟩, fun h => ⟨h.1, h.2, h.3⟩⟩

def ruler : Bytes := bytes "---"

/-- The tags that some lines of a frontmatter give. -/
def tagsIn (ls : List Bytes) : List Bytes :=
  ls.flatMap fun l => if bytes "tags: [" <+: l then tagsOf l else []

/-- The importance after some lines of a frontmatter. -/
def importanceAfter (importance : Bytes) (ls : List Bytes) : Bytes :=
  ls.foldl (fun i l => if bytes "importance: " <+: l then l.drop 12 else i) importance

/-- The lines of the two stamps, which are one for each when the stamps have no newline. -/
def stampLines (e : MemoryEntry) : List Bytes :=
  lines (bytes "created: " ++ e.created ++ [newline]) ++
    lines (bytes "updated: " ++ e.updated ++ [newline])

def tagLine (e : MemoryEntry) : List Bytes :=
  if e.tags = [] then [] else
    [bytes "tags: [" ++ ((bytes ", ").intercalate e.tags ++ bytes "]")]

def importanceLine (e : MemoryEntry) : List Bytes :=
  if e.importance = [] then [] else [bytes "importance: " ++ e.importance]

/-- Stamps that change nothing of the other fields. A ruler in them ends the frontmatter, so that
tags and importance can come from the stamps alone, and no heading may stand behind the ruler. -/
def HarmlessStamps (e : MemoryEntry) : Prop :=
  if ruler ∈ stampLines e then
    tagsIn ((stampLines e).takeWhile (· ≠ ruler)) = e.tags ∧
      importanceAfter [] ((stampLines e).takeWhile (· ≠ ruler)) = e.importance ∧ e.title ≠ [] ∧
      ∀ l ∈ (stampLines e).dropWhile (· ≠ ruler) ++ (tagLine e ++ importanceLine e),
        find (bytes "# ") l = none
  else tagsIn (stampLines e) = [] ∧
    (e.importance = [] → importanceAfter [] (stampLines e) = [])

/-- An entry that its file keeps. -/
structure Kept (e : MemoryEntry) : Prop where
  tags : ∀ tag ∈ e.tags, CleanTag tag
  title : e.title = [] → find (bytes "# ") e.content = none
  stamps : HarmlessStamps e

end Agreement

section Frontmatter

variable {e : MemoryEntry} {ls : List Bytes}

@[simp] theorem tagsIn_nil : tagsIn [] = [] := rfl

@[simp] theorem tagsIn_append (ls ms : List Bytes) :
    tagsIn (ls ++ ms) = tagsIn ls ++ tagsIn ms := by
  simp [tagsIn]

@[simp] theorem importanceAfter_append (i : Bytes) (ls ms : List Bytes) :
    importanceAfter i (ls ++ ms) = importanceAfter (importanceAfter i ls) ms := by
  simp [importanceAfter]

/-- No two of the keys start the same line. -/
theorem key_disjoint {p q line : Bytes} (hp : p <+: line) (hpq : ¬ p <+: q) (hqp : ¬ q <+: p) :
    ¬ q <+: line := fun hq => (List.prefix_or_prefix_of_prefix hp hq).elim hpq hqp

theorem readField_cases (e : MemoryEntry) (line : Bytes) :
    (readField e line).type = e.type ∧
      (readField e line).tags = e.tags ++ tagsIn [line] ∧
      (readField e line).importance = importanceAfter e.importance [line] := by
  have htags : tagsIn [line] = if bytes "tags: [" <+: line then tagsOf line else [] := by
    simp [tagsIn]
  have himp : importanceAfter e.importance [line] =
      if bytes "importance: " <+: line then line.drop 12 else e.importance := rfl
  rw [htags, himp, readField]
  have hnot : ∀ {p q : Bytes}, p <+: line → ¬ p <+: q → ¬ q <+: p → ¬ q <+: line :=
    fun hp hpq hqp => key_disjoint hp hpq hqp
  by_cases hc : bytes "created: " <+: line
  · rw [if_pos hc, if_neg (hnot hc (by decide) (by decide)),
      if_neg (hnot hc (by decide) (by decide)), List.append_nil]
    exact ⟨rfl, rfl, rfl⟩
  rw [if_neg hc]
  by_cases hu : bytes "updated: " <+: line
  · rw [if_pos hu, if_neg (hnot hu (by decide) (by decide)),
      if_neg (hnot hu (by decide) (by decide)), List.append_nil]
    exact ⟨rfl, rfl, rfl⟩
  rw [if_neg hu]
  by_cases hi : bytes "importance: " <+: line
  · rw [if_pos hi, if_pos hi, if_neg (hnot hi (by decide) (by decide)), List.append_nil]
    exact ⟨rfl, rfl, rfl⟩
  rw [if_neg hi, if_neg hi]
  by_cases ht : bytes "tags: [" <+: line
  · rw [if_pos ht, if_pos ht]
    exact ⟨rfl, rfl, rfl⟩
  · rw [if_neg ht, if_neg ht, List.append_nil]
    exact ⟨rfl, rfl, rfl⟩

/-- What some lines of a frontmatter leave of the fields. -/
theorem readFields (e : MemoryEntry) (ls : List Bytes) :
    (ls.foldl readField e).type = e.type ∧
      (ls.foldl readField e).tags = e.tags ++ tagsIn ls ∧
      (ls.foldl readField e).importance = importanceAfter e.importance ls := by
  induction ls generalizing e with
  | nil => exact ⟨rfl, (List.append_nil _).symm, rfl⟩
  | cons l ls ih =>
    obtain ⟨htype, htags, himp⟩ := readField_cases e l
    obtain ⟨ihtype, ihtags, ihimp⟩ := ih (readField e l)
    rw [List.foldl_cons, ihtype, ihtags, ihimp, htype, htags, himp, List.append_assoc,
      ← tagsIn_append, ← importanceAfter_append]
    exact ⟨rfl, rfl, rfl⟩

theorem readField_nil (e : MemoryEntry) : readField e [] = e := rfl

/-- A text with a frontmatter of these lines. -/
theorem markdownToEntry_front {l : Bytes} {front : List Bytes} (h : ∀ m ∈ l :: front, newline ∉ m)
    (hno : ruler ∉ front) (body : Bytes) (type : MemoryType) :
    markdownToEntry (bytes "---\n" ++ (unlines (l :: front) ++ (ruler ++ newline :: body))) type =
      some (readBody ((l :: front).foldl readField { type := type }) body) := by
  have htext : unlines (l :: front) ++ (ruler ++ newline :: body) =
      joined l front ++ newline :: (ruler ++ newline :: body) := by
    rw [← joined_newline, List.append_assoc, List.singleton_append]
  have hpat : bytes "\n---\n" = newline :: (ruler ++ [newline]) := by decide
  have hopen : (bytes "---\n").length = 4 := by decide
  have hfind := find_rule (s := body) (by decide : newline ∉ ruler) h hno
  have htake : (bytes "---\n" ++ (joined l front ++ newline :: (ruler ++ newline :: body))).take 4 =
      bytes "---\n" := List.take_left' hopen
  have hdrop : (bytes "---\n" ++ (joined l front ++ newline :: (ruler ++ newline :: body))).drop 4 =
      joined l front ++ newline :: (ruler ++ newline :: body) := List.drop_left' hopen
  have hbody : (joined l front ++ newline :: (ruler ++ newline :: body)).drop
      ((joined l front).length + 5) = body := by
    rw [List.drop_length_add_append]
    rfl
  have hfields : (lines (joined l front)).foldl readField { type := type } =
      (l :: front).foldl readField { type := type } := by
    rcases lines_joined h with hl | hl
    · rw [hl]
    · rw [hl, List.foldl_append, List.foldl_cons, List.foldl_nil, readField_nil]
  rw [htext, markdownToEntry, if_pos htake, hdrop, hpat, hfind, Option.map_some, Nat.add_assoc,
    ← List.drop_drop, hdrop, hbody, List.take_left, hfields]

end Frontmatter

section Tags

variable {tags : List Bytes} {line tag : Bytes}

theorem trimUnlessBlank_trimmed (ws s : Bytes) :
    trim ws (trimUnlessBlank ws s) = trim ws s := by
  unfold trimUnlessBlank
  split_ifs
  · rfl
  · exact trim_trim s

/-- A tag is read back from its place in the list, with or without a space before it. -/
theorem trimUnlessBlank_tag (h : trim [space] tag = tag) (hb : ∃ b ∈ tag, b ≠ space) {w : Bytes}
    (hw : ∀ b ∈ w, b = space) : trimUnlessBlank [space] (w ++ tag) = tag := by
  obtain ⟨b, hb, hne⟩ := hb
  have hvisible : ¬ ∀ b ∈ w ++ tag, [space].contains b = true := by
    intro hall
    exact hne (by simpa using hall b (List.mem_append_right w hb))
  have hwhite : ∀ b ∈ w, [space].contains b = true := fun b hm => by simp [hw b hm]
  rw [trimUnlessBlank, if_neg hvisible, trim_white_append hwhite, h]

theorem pieces_tags (hne : tags ≠ []) (h : ∀ tag ∈ tags, CleanTag tag ∧ ∃ b ∈ tag, b ≠ space)
    {w : Bytes} (hw : ∀ b ∈ w, b = space) :
    ((pieces 0x2C (w ++ (bytes ", ").intercalate tags)).map (trimUnlessBlank [space])).filter
      (· ≠ []) = tags := by
  induction tags generalizing w with
  | nil => exact absurd rfl hne
  | cons tag tags ih =>
    rw [List.forall_mem_cons] at h
    obtain ⟨⟨hclean, hb⟩, h⟩ := h
    have htrim := trimUnlessBlank_tag hclean.ends hb hw
    have hcomma : 0x2C ∉ w ++ tag := by
      rw [List.mem_append, not_or]
      exact ⟨fun hm => absurd (hw 0x2C hm) (by decide), hclean.comma⟩
    have htag : tag ≠ [] := by
      rintro rfl
      obtain ⟨b, hb, -⟩ := hb
      exact absurd hb List.not_mem_nil
    cases tags with
    | nil =>
      have hlast : (bytes ", ").intercalate [tag] = tag := by simp [List.intercalate]
      rw [hlast, pieces_last hcomma (by simp [htag]), List.map_singleton, htrim]
      simp [htag]
    | cons next tags =>
      have hsep : bytes ", " = 0x2C :: [space] := by decide
      have hrest := ih (by simp) h (w := [space]) (by simp)
      rw [intercalate_cons, ← List.append_assoc, hsep, List.cons_append, pieces_piece hcomma,
        List.map_cons, htrim, List.filter_cons, if_pos (by simpa using htag), ← hsep, hrest]

theorem intercalate_not_mem {b : UInt8} (hsep : b ∉ bytes ", ") (h : ∀ tag ∈ tags, b ∉ tag) :
    b ∉ (bytes ", ").intercalate tags := by
  induction tags with
  | nil => exact List.not_mem_nil
  | cons tag tags ih =>
    rw [List.forall_mem_cons] at h
    cases tags with
    | nil => simpa [List.intercalate] using h.1
    | cons next tags =>
      rw [intercalate_cons, List.mem_append, List.mem_append, not_or, not_or]
      exact ⟨h.1, hsep, ih h.2⟩

/-- The line of clean tags gives them back. -/
theorem tagsOf_line (hne : tags ≠ []) (h : ∀ tag ∈ tags, CleanTag tag ∧ ∃ b ∈ tag, b ≠ space) :
    tagsOf (bytes "tags: [" ++ ((bytes ", ").intercalate tags ++ bytes "]")) = tags := by
  have hopen : find [0x5B] (bytes "tags: [" ++ ((bytes ", ").intercalate tags ++ bytes "]")) =
      some 6 := find_byte (l := bytes "tags: ") (by decide) _
  have hbracket : 0x5D ∉ bytes "tags: [" ++ (bytes ", ").intercalate tags := by
    rw [List.mem_append, not_or]
    exact ⟨by decide, intercalate_not_mem (by decide) fun tag hm => (h tag hm).1.bracket⟩
  have hclose : find [0x5D] (bytes "tags: [" ++ ((bytes ", ").intercalate tags ++ bytes "]")) =
      some (7 + ((bytes ", ").intercalate tags).length) := by
    have hfind := find_byte hbracket []
    rw [List.length_append, show (bytes "tags: [").length = 7 from rfl] at hfind
    rwa [← List.append_assoc]
  have hinner : ((bytes "tags: [" ++
      ((bytes ", ").intercalate tags ++ bytes "]")).drop (6 + 1)).take
        (7 + ((bytes ", ").intercalate tags).length - 6 - 1) = (bytes ", ").intercalate tags := by
    rw [List.drop_left' (by decide), List.take_left' (by omega)]
  have hpieces := pieces_tags hne h (w := []) (by simp)
  rw [tagsOf, hopen, hclose]
  dsimp only
  rwa [hinner]

/-- A tag that is read has no delimiters of the list, and no spaces around it unless it is blank. -/
theorem mem_tagsOf (h : tag ∈ tagsOf line) (hb : ∃ b ∈ tag, b ≠ space) : CleanTag tag := by
  unfold tagsOf at h
  split at h
  · rename_i start stop hstart hstop
    obtain ⟨piece, hp, rfl⟩ := List.mem_map.mp (List.mem_filter.mp h).1
    obtain ⟨hcomma, hsub⟩ := mem_pieces hp
    have hcut : (line.drop (start + 1)).take (stop - start - 1) =
        (line.take stop).drop (start + 1) := by
      rw [List.drop_take, Nat.sub_sub]
    have hbracket : 0x5D ∉ line.take stop := by
      intro hm
      obtain ⟨l, t, -, -, hfound⟩ := find_byte_some hm
      rw [find_take_none (by simp) hstop] at hfound
      cases hfound
    have hpiece : 0x5D ∉ piece := by
      intro hm
      have hin := hsub hm
      rw [hcut] at hin
      exact hbracket (List.mem_of_mem_drop hin)
    unfold trimUnlessBlank at hb ⊢
    split_ifs at hb ⊢ with hblank
    · obtain ⟨b, hb, hne⟩ := hb
      exact absurd (by simpa using hblank b hb) hne
    · exact ⟨fun hm => hcomma (trim_subset piece hm), fun hm => hpiece (trim_subset piece hm),
        trim_trim piece⟩
  · exact absurd h List.not_mem_nil

theorem mem_tagsIn {ls : List Bytes} (h : tag ∈ tagsIn ls) (hb : ∃ b ∈ tag, b ≠ space) :
    CleanTag tag := by
  obtain ⟨l, -, hl⟩ := List.mem_flatMap.mp h
  split_ifs at hl
  · exact mem_tagsOf hl hb
  · exact absurd hl List.not_mem_nil

end Tags

section Body

variable {e : MemoryEntry} {rest : List Bytes}

def heading (e : MemoryEntry) : Bytes :=
  if e.title = [] then [] else bytes "# " ++ e.title ++ bytes "\n\n"

/-- The text behind the frontmatter, when these lines of the frontmatter are left over. -/
def bodyText (e : MemoryEntry) (rest : List Bytes) : Bytes :=
  unlines rest ++ newline :: (heading e ++ (e.content ++ [newline]))

/-- The title and the content are found. -/
def HeadingKept (e : MemoryEntry) (body : Bytes) : Prop :=
  (readHeading body).1 = e.title ∧ trim white (readHeading body).2 = trim white e.content

theorem readHeading_line {before line after : Bytes} (hn : newline ∉ line)
    (h : find (bytes "# ") (before ++ (bytes "# " ++ (line ++ newline :: after))) =
      some before.length) :
    readHeading (before ++ (bytes "# " ++ (line ++ newline :: after))) = (line, after) := by
  have hhead : (bytes "# ").length = 2 := by decide
  have hline : newline ∉ bytes "# " ++ line := by
    rw [List.mem_append, not_or]
    exact ⟨by decide, hn⟩
  have hend : find [newline] (bytes "# " ++ (line ++ newline :: after)) =
      some (2 + line.length) := by
    have := find_byte hline after
    rwa [List.length_append, hhead, List.append_assoc] at this
  have hdrop : (before ++ (bytes "# " ++ (line ++ newline :: after))).drop (before.length + 2) =
      line ++ newline :: after := by
    rw [← List.drop_drop, List.drop_left, List.drop_left' hhead]
  have hafter : (before ++ (bytes "# " ++ (line ++ newline :: after))).drop
      (before.length + (2 + line.length) + 1) = after := by
    rw [Nat.add_assoc, Nat.add_assoc, ← Nat.add_assoc before.length, ← List.drop_drop, hdrop,
      List.drop_length_add_append]
    rfl
  rw [readHeading, h]
  dsimp only
  rw [List.drop_left, hend]
  dsimp only
  rw [hdrop, hafter, Nat.add_sub_cancel_left, List.take_left]

theorem length_take_found {s : Bytes} {i : ℕ} (h : find (bytes "# ") s = some i) :
    (s.take i).length = i := by
  have hlen := find_length_le h
  rw [List.length_take]
  omega

/-- The first heading of a text that ends its last line. -/
theorem find_heading {body : Bytes} {i : ℕ} (h : find (bytes "# ") (body ++ [newline]) = some i) :
    ∃ before line after, newline ∉ line ∧ i = before.length ∧
      body ++ [newline] = before ++ (bytes "# " ++ (line ++ newline :: after)) := by
  obtain ⟨t, ht⟩ := find_eq_some h
  have hnew : newline ∈ t := by
    rcases List.eq_nil_or_concat t with rfl | ⟨t, b, rfl⟩
    · have hhead : bytes "# " = [0x23] ++ [space] := by decide
      rw [List.append_nil, hhead, ← List.append_assoc] at ht
      exact absurd (List.append_inj' ht rfl).2 (by decide)
    · rw [List.concat_eq_append, ← List.append_assoc, ← List.append_assoc] at ht
      have hlast := List.singleton_inj.mp (List.append_inj' ht rfl).2
      simp [hlast]
  obtain ⟨line, after, rfl, hn, -⟩ := find_byte_some hnew
  exact ⟨(body ++ [newline]).take i, line, after, hn, (length_take_found h).symm, ht⟩

theorem visible_heading (before line after : Bytes) :
    visible white after < visible white (before ++ (bytes "# " ++ (line ++ newline :: after))) := by
  have hhead : visible white (bytes "# ") = 1 := by decide
  have hcons : newline :: after = [newline] ++ after := rfl
  rw [hcons, visible_append, visible_append, visible_append, visible_append, hhead]
  omega

theorem visible_ruler {ls : List Bytes} (h : ruler ∈ ls) (s : Bytes) :
    visible white s < visible white (unlines ls ++ s) := by
  obtain ⟨l₁, l₂, rfl⟩ := List.append_of_mem h
  have hruler : visible white ruler = 3 := by decide
  have hcons : ∀ t : Bytes, newline :: t = [newline] ++ t := fun _ => rfl
  rw [unlines_append, unlines_cons, visible_append, visible_append, visible_append, hruler]
  omega

theorem trim_newlines (s : Bytes) : trim white (newline :: (s ++ [newline])) = trim white s := by
  have hcons : newline :: (s ++ [newline]) = [newline] ++ (s ++ [newline]) := rfl
  have hwhite : ∀ b ∈ [newline], white.contains b = true := List.all_eq_true.mp (by decide)
  rw [hcons, trim_white_append hwhite, trim_append_white s hwhite]

theorem visible_newlines (s : Bytes) :
    visible white (newline :: (s ++ [newline])) = visible white s := by
  rw [← visible_trim, trim_newlines, visible_trim]

theorem find_heading_rest (h : ∀ l ∈ rest, find (bytes "# ") l = none) (s : Bytes) :
    find (bytes "# ") (unlines rest ++ newline :: s) =
      (find (bytes "# ") s).map (· + ((unlines rest).length + 1)) := by
  have hskip : find (bytes "# ") (newline :: s) = (find (bytes "# ") s).map (· + 1) :=
    find_cons_of_ne (by decide) (by decide) s
  rw [find_lines_none (by decide) (by decide) h, hskip, Option.map_map]
  congr 1
  funext i
  simp only [Function.comp_apply]
  omega

/-- The first heading in the lines that are left over is the one that is read. -/
theorem readHeading_left {ls : List Bytes} {l t : Bytes} {k : ℕ} (hn : newline ∉ t)
    (hfree : ∀ m ∈ ls, find (bytes "# ") m = none) (hk : find (bytes "# ") l = some k)
    (ht : l = l.take k ++ (bytes "# " ++ t)) (ms : List Bytes) :
    readHeading (bodyText e (ls ++ l :: ms)) =
      (t, unlines ms ++ newline :: (heading e ++ (e.content ++ [newline]))) := by
  let tail := newline :: (heading e ++ (e.content ++ [newline]))
  have hwhole : bodyText e (ls ++ l :: ms) = (unlines ls ++ l.take k) ++
      (bytes "# " ++ (t ++ newline :: (unlines ms ++ tail))) := by
    conv_lhs => rw [bodyText, unlines_append, unlines_cons, ht]
    simp [tail]
  rw [hwhole]
  refine readHeading_line hn ?_
  have hfind := find_append_left hk (newline :: (unlines ms ++ tail))
  rw [ht, List.append_assoc, List.append_assoc] at hfind
  rw [List.append_assoc, find_lines_none (by decide) (by decide) hfree, hfind, Option.map_some,
    List.length_append, length_take_found hk, Nat.add_comm]

/-- A heading in a line that is left over hides the rest. -/
theorem not_headingKept (hlast : ∀ l, rest.getLast? = some l → l = ruler)
    (hn : ∀ l ∈ rest, newline ∉ l) (h : ¬ ∀ l ∈ rest, find (bytes "# ") l = none) :
    ¬ HeadingKept e (bodyText e rest) := by
  obtain ⟨l, hl⟩ : ∃ l, rest.find? (fun l => (find (bytes "# ") l).isSome) = some l := by
    rw [← Option.isSome_iff_exists, List.find?_isSome]
    by_contra hno
    refine h fun l hl => Option.not_isSome_iff_eq_none.mp fun hs => hno ⟨l, hl, hs⟩
  obtain ⟨hs, ls, ms, rfl, hls⟩ := List.find?_eq_some_iff_append.mp hl
  obtain ⟨k, hk⟩ := Option.isSome_iff_exists.mp hs
  obtain ⟨t, ht⟩ := find_eq_some hk
  have hmem : ruler ∈ ms := by
    cases hms : ms.getLast? with
    | none =>
      obtain rfl := List.getLast?_eq_none_iff.mp hms
      have hruler : l = ruler := hlast l (by simp)
      rw [hruler] at hk
      cases hk
    | some m =>
      have hm := hlast m (by simp [List.getLast?_append, List.getLast?_cons, hms])
      exact hm ▸ List.mem_of_getLast? hms
  let tail := newline :: (heading e ++ (e.content ++ [newline]))
  have hline : newline ∉ t := by
    have := hn l (by simp)
    rw [ht, List.mem_append, List.mem_append, not_or, not_or] at this
    exact this.2.2
  have hfree : ∀ m ∈ ls, find (bytes "# ") m = none := fun m hm => by simpa using hls m hm
  have hread : readHeading (bodyText e (ls ++ l :: ms)) = (t, unlines ms ++ tail) :=
    readHeading_left hline hfree hk ht ms
  rintro ⟨-, hc⟩
  rw [hread] at hc
  refine trim_ne_of_visible_lt ?_ hc.symm
  have hcontent : visible white e.content ≤ visible white tail := by
    have hcons : tail = [newline] ++ (heading e ++ (e.content ++ [newline])) := rfl
    rw [hcons, visible_append, visible_append, visible_append]
    omega
  exact Nat.lt_of_le_of_lt hcontent (visible_ruler hmem tail)

theorem headingKept_iff (htitle : newline ∉ e.title)
    (hlast : ∀ l, rest.getLast? = some l → l = ruler) (hn : ∀ l ∈ rest, newline ∉ l) :
    HeadingKept e (bodyText e rest) ↔ (∀ l ∈ rest, find (bytes "# ") l = none) ∧
      (e.title = [] → rest = [] ∧ find (bytes "# ") e.content = none) := by
  by_cases hrest : ∀ l ∈ rest, find (bytes "# ") l = none
  swap
  · exact iff_of_false (not_headingKept hlast hn hrest) fun h => hrest h.1
  by_cases ht : e.title = []
  · have hbody : bodyText e rest = unlines rest ++ newline :: (e.content ++ [newline]) := by
      rw [bodyText, heading, if_pos ht, List.nil_append]
    have hline : find (bytes "# ") (e.content ++ [newline]) = find (bytes "# ") e.content := by
      cases hf : find (bytes "# ") e.content with
      | none =>
        rw [find_line (by decide) (by decide) hf]
        rfl
      | some k => exact find_append_left hf [newline]
    have hfind := find_heading_rest hrest (e.content ++ [newline])
    rw [hline] at hfind
    cases hf : find (bytes "# ") e.content with
    | none =>
      rw [hf, Option.map_none] at hfind
      have hread : readHeading (bodyText e rest) = ([], bodyText e rest) := by
        rw [hbody, readHeading, hfind]
      rw [HeadingKept, hread]
      constructor
      · rintro ⟨-, hc⟩
        refine ⟨hrest, fun _ => ⟨?_, rfl⟩⟩
        by_contra hne
        obtain ⟨l, hl⟩ := Option.ne_none_iff_exists'.mp (mt List.getLast?_eq_none_iff.mp hne)
        have hmem : ruler ∈ rest := hlast l hl ▸ List.mem_of_getLast? hl
        refine trim_ne_of_visible_lt ?_ hc.symm
        rw [hbody, ← visible_newlines e.content]
        exact visible_ruler hmem _
      · rintro ⟨-, hk⟩
        obtain ⟨rfl, -⟩ := hk ht
        refine ⟨ht.symm, ?_⟩
        rw [hbody]
        exact trim_newlines e.content
    | some k =>
      rw [hf, Option.map_some] at hfind
      refine iff_of_false ?_ fun h => nomatch (h.2 ht).2
      obtain ⟨before, line, after, hnl, hlen, htext⟩ := find_heading (hline.trans hf)
      rintro ⟨-, hc⟩
      have hwhole : bodyText e rest = (unlines rest ++ newline :: before) ++
          (bytes "# " ++ (line ++ newline :: after)) := by
        rw [hbody, htext, List.append_assoc, List.cons_append]
      have hread : readHeading (bodyText e rest) = (line, after) := by
        rw [hwhole]
        refine readHeading_line hnl ?_
        rw [← hwhole, hbody, hfind, hlen, List.length_append, List.length_cons]
        congr 1
        omega
      rw [hread] at hc
      refine trim_ne_of_visible_lt ?_ hc
      rw [← visible_newlines e.content, htext]
      exact visible_heading (newline :: before) line after
  · have hread : readHeading (bodyText e rest) =
        (e.title, newline :: (e.content ++ [newline])) := by
      have hwhole : bodyText e rest = (unlines rest ++ [newline]) ++
          (bytes "# " ++ (e.title ++ newline :: (newline :: (e.content ++ [newline])))) := by
        have hsep : bytes "\n\n" = [newline, newline] := by decide
        rw [bodyText, heading, if_neg ht, hsep]
        simp
      have hfind := find_heading_rest hrest
        (bytes "# " ++ (e.title ++ newline :: (newline :: (e.content ++ [newline]))))
      rw [find_self (by decide), Option.map_some] at hfind
      rw [hwhole]
      refine readHeading_line htitle ?_
      rw [List.append_assoc, List.singleton_append, hfind, List.length_append,
        List.length_singleton, Nat.zero_add]
    rw [HeadingKept, hread]
    exact iff_of_true ⟨rfl, trim_newlines e.content⟩ ⟨hrest, fun h => absurd h ht⟩

end Body

section RoundTrip

variable {e : MemoryEntry}

def typeLine (e : MemoryEntry) : Bytes := bytes "type: " ++ typeToString e.type

/-- The lines of the frontmatter behind the first. -/
def fieldLines (e : MemoryEntry) : List Bytes := stampLines e ++ (tagLine e ++ importanceLine e)

theorem entryToMarkdown_eq (e : MemoryEntry) :
    entryToMarkdown e = bytes "---\n" ++
      (unlines (typeLine e :: fieldLines e) ++ (ruler ++ newline :: bodyText e [])) := by
  have hopen : bytes "---\ntype: " = bytes "---\n" ++ bytes "type: " := by decide
  have hcreated : bytes "\ncreated: " = newline :: bytes "created: " := by decide
  have hupdated : bytes "\nupdated: " = newline :: bytes "updated: " := by decide
  have hline : bytes "\n" = [newline] := by decide
  have hclose : bytes "]\n" = bytes "]" ++ [newline] := by decide
  have hrule : bytes "---\n\n" = ruler ++ [newline, newline] := by decide
  have htags : unlines (tagLine e) = if e.tags = [] then [] else
      bytes "tags: [" ++ (bytes ", ").intercalate e.tags ++ bytes "]\n" := by
    rw [tagLine, hclose]
    split_ifs <;> simp
  have himp : unlines (importanceLine e) = if e.importance = [] then [] else
      bytes "importance: " ++ e.importance ++ bytes "\n" := by
    rw [importanceLine, hline]
    split_ifs <;> simp
  have hhead : heading e = if e.title = [] then [] else bytes "# " ++ e.title ++ bytes "\n\n" := rfl
  rw [entryToMarkdown, ← htags, ← himp, ← hhead, fieldLines, stampLines, unlines_cons,
    unlines_append, unlines_append, unlines_append, unlines_lines, unlines_lines, typeLine,
    bodyText, hopen, hcreated, hupdated, hline, hrule]
  simp

theorem newline_fieldLines (ht : ∀ tag ∈ e.tags, newline ∉ tag) (hi : newline ∉ e.importance) :
    ∀ l ∈ fieldLines e, newline ∉ l := by
  intro l hl
  rw [fieldLines, stampLines] at hl
  rcases List.mem_append.mp hl with hl | hl
  · rcases List.mem_append.mp hl with hl | hl
    · exact newline_not_mem_lines _ l hl
    · exact newline_not_mem_lines _ l hl
  rcases List.mem_append.mp hl with hl | hl
  · unfold tagLine at hl
    split_ifs at hl
    · exact absurd hl List.not_mem_nil
    · rw [List.mem_singleton.mp hl, List.mem_append, List.mem_append, not_or, not_or]
      exact ⟨by decide, intercalate_not_mem (by decide) ht, by decide⟩
  · unfold importanceLine at hl
    split_ifs at hl
    · exact absurd hl List.not_mem_nil
    · rw [List.mem_singleton.mp hl, List.mem_append, not_or]
      exact ⟨by decide, hi⟩

theorem ruler_not_mem (e : MemoryEntry) : ruler ∉ tagLine e ++ importanceLine e := by
  have hkey : ∀ {p t : Bytes}, ruler = p ++ t → p <+: ruler := fun h => h ▸ List.prefix_append _ _
  intro hm
  rcases List.mem_append.mp hm with hm | hm
  · unfold tagLine at hm
    split_ifs at hm
    · exact absurd hm List.not_mem_nil
    · exact absurd (hkey (List.mem_singleton.mp hm)) (by decide)
  · unfold importanceLine at hm
    split_ifs at hm
    · exact absurd hm List.not_mem_nil
    · exact absurd (hkey (List.mem_singleton.mp hm)) (by decide)

/-- What is left of the fields, and of the title and content, by a frontmatter of these lines. -/
theorem roundTrips_front {front rest : List Bytes} (hn : ∀ l ∈ front, newline ∉ l)
    (hno : ruler ∉ front)
    (htext : entryToMarkdown e = bytes "---\n" ++
      (unlines (typeLine e :: front) ++ (ruler ++ newline :: bodyText e rest))) :
    RoundTrips (markdownToEntry (entryToMarkdown e) e.type) e ↔ tagsIn front = e.tags ∧
      importanceAfter [] front = e.importance ∧ HeadingKept e (bodyText e rest) := by
  have htype : bytes "type: " <+: typeLine e := List.prefix_append _ _
  have hline : newline ∉ typeLine e := by
    rw [typeLine, List.mem_append, not_or]
    exact ⟨by decide, by cases e.type <;> decide⟩
  have hall : ∀ l ∈ typeLine e :: front, newline ∉ l := List.forall_mem_cons.mpr ⟨hline, hn⟩
  have htags : tagsIn [typeLine e] = [] := by
    have hno : ¬ bytes "tags: [" <+: typeLine e := key_disjoint htype (by decide) (by decide)
    simp [tagsIn, hno]
  have himp : importanceAfter [] [typeLine e] = [] := by
    have hno : ¬ bytes "importance: " <+: typeLine e :=
      key_disjoint htype (by decide) (by decide)
    simp [importanceAfter, hno]
  obtain ⟨ht, hg, hi⟩ := readFields { type := e.type } (typeLine e :: front)
  rw [← List.singleton_append, tagsIn_append, htags, List.nil_append] at hg
  rw [← List.singleton_append, importanceAfter_append, himp] at hi
  rw [htext, markdownToEntry_front hall hno]
  constructor
  · rintro ⟨r, hr, h⟩
    obtain rfl := Option.some.inj hr
    refine ⟨hg.symm.trans h.tags, hi.symm.trans h.importance, h.title, ?_⟩
    exact (trimUnlessBlank_trimmed white _).symm.trans h.content
  · rintro ⟨hts, him, htl, hc⟩
    exact ⟨_, rfl, ht, htl, hg.trans hts, hi.trans him, (trimUnlessBlank_trimmed white _).trans hc⟩

theorem tagsIn_tagLine (h : ∀ tag ∈ e.tags, CleanTag tag ∧ ∃ b ∈ tag, b ≠ space) :
    tagsIn (tagLine e) = e.tags := by
  unfold tagLine
  split_ifs with hne
  · exact hne.symm
  · rw [tagsIn, List.flatMap_singleton, if_pos (List.prefix_append _ _), tagsOf_line hne h]

theorem tagsIn_importanceLine (e : MemoryEntry) : tagsIn (importanceLine e) = [] := by
  unfold importanceLine
  split_ifs
  · rfl
  · have hno : ¬ bytes "tags: [" <+: bytes "importance: " ++ e.importance :=
      key_disjoint (List.prefix_append _ _) (by decide) (by decide)
    rw [tagsIn, List.flatMap_singleton, if_neg hno]

theorem importanceAfter_own (i : Bytes) (e : MemoryEntry) :
    importanceAfter i (tagLine e ++ importanceLine e) =
      if e.importance = [] then i else e.importance := by
  have htag : importanceAfter i (tagLine e) = i := by
    unfold tagLine
    split_ifs
    · rfl
    · have hno : ¬ bytes "importance: " <+:
          bytes "tags: [" ++ ((bytes ", ").intercalate e.tags ++ bytes "]") :=
        key_disjoint (List.prefix_append _ _) (by decide) (by decide)
      rw [importanceAfter, List.foldl_cons, if_neg hno, List.foldl_nil]
  rw [importanceAfter_append, htag, importanceLine]
  split_ifs
  · rfl
  · rw [importanceAfter, List.foldl_cons, if_pos (List.prefix_append _ _), List.foldl_nil,
      List.drop_left' (by decide)]

/-- A file is read back as the entry exactly when the entry is kept. -/
theorem file_roundTrips_iff (htitle : newline ∉ e.title)
    (htags : ∀ tag ∈ e.tags, newline ∉ tag ∧ ∃ b ∈ tag, b ≠ space)
    (himp : newline ∉ e.importance) :
    RoundTrips (markdownToEntry (entryToMarkdown e) e.type) e ↔ Kept e := by
  have hlines := newline_fieldLines (fun tag h => (htags tag h).1) himp
  by_cases hruler : ruler ∈ stampLines e
  · obtain ⟨front, stamps, hsplit, hno⟩ := List.eq_append_cons_of_mem hruler
    have hfront : ∀ l ∈ front, decide (l ≠ ruler) = true := by
      intro l hl
      have hne : l ≠ ruler := fun h => hno (h ▸ hl)
      exact decide_eq_true hne
    have htake : (stampLines e).takeWhile (· ≠ ruler) = front := by
      rw [hsplit, List.takeWhile_append_of_pos hfront]
      simp
    have hdrop : (stampLines e).dropWhile (· ≠ ruler) = ruler :: stamps := by
      rw [hsplit, List.dropWhile_append_of_pos hfront]
      simp
    let left := stamps ++ (tagLine e ++ importanceLine e)
    have hfields : fieldLines e = front ++ ruler :: left := by
      rw [fieldLines, hsplit, List.append_assoc, List.cons_append]
    have hrest : ∀ l ∈ left ++ [ruler], newline ∉ l := by
      intro l hl
      rcases List.mem_append.mp hl with hl | hl
      · exact hlines l (by simp [hfields, hl])
      · rw [List.mem_singleton.mp hl]
        decide
    have htext : entryToMarkdown e = bytes "---\n" ++ (unlines (typeLine e :: front) ++
        (ruler ++ newline :: bodyText e (left ++ [ruler]))) := by
      rw [entryToMarkdown_eq, hfields]
      simp [bodyText]
    rw [roundTrips_front (fun l hl => hlines l (by simp [hfields, hl])) hno htext,
      headingKept_iff htitle (by simp) hrest]
    constructor
    · rintro ⟨htg, him, hheads, hempty⟩
      have hne : e.title ≠ [] := fun ht => absurd (hempty ht).1 (by simp)
      refine ⟨fun tag hm => mem_tagsIn (htg ▸ hm) (htags tag hm).2, fun ht => absurd ht hne, ?_⟩
      rw [HarmlessStamps, if_pos hruler, htake, hdrop]
      refine ⟨htg, him, hne, fun l hl => hheads l ?_⟩
      simp only [List.cons_append, List.mem_cons, List.mem_append, left] at hl ⊢
      simpa [or_comm, or_assoc] using hl
    · rintro ⟨-, -, h⟩
      rw [HarmlessStamps, if_pos hruler, htake, hdrop] at h
      obtain ⟨htg, him, hne, hheads⟩ := h
      refine ⟨htg, him, fun l hl => hheads l ?_, fun ht => absurd ht hne⟩
      simp only [List.cons_append, List.mem_cons, List.mem_append, left] at hl ⊢
      simpa [or_comm, or_assoc] using hl
  · have hno : ruler ∉ fieldLines e := by
      rw [fieldLines, List.mem_append, not_or]
      exact ⟨hruler, ruler_not_mem e⟩
    have hi : importanceAfter [] (fieldLines e) = e.importance ↔
        (e.importance = [] → importanceAfter [] (stampLines e) = []) := by
      rw [fieldLines, importanceAfter_append, importanceAfter_own]
      split_ifs with hnil
      · simp [hnil]
      · simp [hnil]
    rw [roundTrips_front hlines hno (entryToMarkdown_eq e),
      headingKept_iff htitle (by simp) (by simp), hi]
    constructor
    · rintro ⟨htg, him, -, hempty⟩
      have hclean : ∀ tag ∈ e.tags, CleanTag tag := fun tag hm =>
        mem_tagsIn (htg ▸ hm) (htags tag hm).2
      refine ⟨hclean, fun ht => (hempty ht).2, ?_⟩
      rw [fieldLines, tagsIn_append, tagsIn_append, tagsIn_importanceLine,
        tagsIn_tagLine fun tag hm => ⟨hclean tag hm, (htags tag hm).2⟩, List.append_nil,
        List.append_left_eq_self] at htg
      rw [HarmlessStamps, if_neg hruler]
      exact ⟨htg, him⟩
    · rintro ⟨hclean, hempty, h⟩
      rw [HarmlessStamps, if_neg hruler] at h
      refine ⟨?_, h.2, by simp, fun ht => ⟨rfl, hempty ht⟩⟩
      rw [fieldLines, tagsIn_append, tagsIn_append, tagsIn_importanceLine,
        tagsIn_tagLine fun tag hm => ⟨hclean tag hm, (htags tag hm).2⟩, h.1]
      simp

end RoundTrip

section Files

variable {e : MemoryEntry} {s : Store} {clock : Clock} {w : Writing}

/-- A rendering that fits is written as it is. -/
theorem fileText_fits {config : MemoryConfig}
    (h : ∀ m, maxBytes config e.type = some m → (entryToMarkdown e).length ≤ m) :
    fileText config e = entryToMarkdown e := by
  unfold fileText
  cases hm : maxBytes config e.type with
  | none => rfl
  | some m =>
    have hle := wrap32_le (i := (entryToMarkdown e).length) (by omega)
    have hfit := h m hm
    dsimp only
    rw [if_neg (by omega)]

theorem atomicWrite_true {path content : Bytes} (h : (atomicWrite w path content s).1 = true) :
    (atomicWrite w path content s).2.baseDir = s.baseDir ∧
      (atomicWrite w path content s).2.files (fileName path) = some content := by
  unfold atomicWrite at h ⊢
  dsimp only at h ⊢
  split_ifs at h ⊢
  exact ⟨rfl, Function.update_self _ _ _⟩

/-- What is read under the name of an entry that was written. -/
theorem readMemory_writeMemory (h : (writeMemory clock w e s).1 = true) :
    readMemory (writeMemory clock w e s).2 e.type (memoryName clock e) =
      markdownToEntry (fileText s.config (stamped clock e)) e.type := by
  by_cases ht : e.title = []
  · rw [writeMemory, if_pos ht] at h
    cases h
  let done := atomicWrite w (typeDir s e.type ++ bytes "/" ++ memoryName clock e)
    (fileText s.config (stamped clock e)) s
  have hdone : done.1 = true := by
    by_contra hd
    rw [Bool.not_eq_true] at hd
    rw [writeMemory, if_neg ht] at h
    dsimp only at h
    rw [if_pos hd] at h
    exact absurd (hd.symm.trans h) (by decide)
  have hwrite : (writeMemory clock w e s).2 =
      { done.2 with
        summaryDirty := done.2.summaryDirty || (stamped clock e).type ≠ .shortTerm } := by
    rw [writeMemory, if_neg ht]
    dsimp only
    rw [if_neg (by rw [hdone]; decide)]
  obtain ⟨hdir, hfile⟩ := atomicWrite_true hdone
  have htype : ∀ dirty, typeDir { done.2 with summaryDirty := dirty } e.type = typeDir s e.type :=
    fun dirty => congrArg (fun d => d ++ bytes "/" ++ typeToString e.type) hdir
  have hread : done.2.files (fileName (typeDir s e.type ++ bytes "/" ++ memoryName clock e)) =
      some (fileText s.config (stamped clock e)) := hfile
  rw [hwrite, readMemory, htype, hread, Option.bind_some]

theorem roundTrips_stamped {read : Option MemoryEntry} :
    RoundTrips read (stamped clock e) ↔ RoundTrips read e :=
  exists_congr fun _ => and_congr_right fun _ =>
    ⟨fun h => ⟨h.1, h.2, h.3, h.4, h.5⟩, fun h => ⟨h.1, h.2, h.3, h.4, h.5⟩⟩

/-- Rendered and parsed, or written and read, an entry comes back exactly when it is kept. -/
theorem memory_round_trip (htitle : newline ∉ e.title)
    (htags : ∀ tag ∈ e.tags, newline ∉ tag ∧ ∃ b ∈ tag, b ≠ space)
    (himp : newline ∉ e.importance) :
    (RoundTrips (markdownToEntry (entryToMarkdown e) e.type) e ↔ Kept e) ∧
      ∀ (s : Store) (clock : Clock) (w : Writing), (writeMemory clock w e s).1 = true →
        (∀ m, maxBytes s.config e.type = some m →
          (entryToMarkdown (stamped clock e)).length ≤ m) →
        (RoundTrips (readMemory (writeMemory clock w e s).2 e.type (memoryName clock e)) e ↔
          Kept (stamped clock e)) := by
  refine ⟨file_roundTrips_iff htitle htags himp, fun s clock w hw hfits => ?_⟩
  have hstamped := file_roundTrips_iff (e := stamped clock e) htitle htags himp
  have hfile : fileText s.config (stamped clock e) = entryToMarkdown (stamped clock e) :=
    fileText_fits hfits
  rw [readMemory_writeMemory hw, hfile, ← hstamped, roundTrips_stamped]
  rfl

/-- Stamps without a newline are harmless. -/
theorem harmless_of_line (hc : newline ∉ e.created) (hu : newline ∉ e.updated) :
    HarmlessStamps e := by
  have hcreated : newline ∉ bytes "created: " ++ e.created := by
    rw [List.mem_append, not_or]
    exact ⟨by decide, hc⟩
  have hupdated : newline ∉ bytes "updated: " ++ e.updated := by
    rw [List.mem_append, not_or]
    exact ⟨by decide, hu⟩
  have hstamps : stampLines e =
      [bytes "created: " ++ e.created, bytes "updated: " ++ e.updated] := by
    rw [stampLines, lines_line hcreated, lines_line hupdated]
    rfl
  have hkey : ∀ {p q t : Bytes}, ¬ q <+: p → ¬ p <+: q → ¬ p <+: q ++ t := fun hqp hpq =>
    key_disjoint (List.prefix_append _ _) hqp hpq
  have hruler : ruler ∉ stampLines e := by
    rw [hstamps]
    intro hm
    rcases List.mem_cons.mp hm with h | hm
    · have hp : bytes "created: " <+: ruler := h ▸ List.prefix_append _ _
      exact absurd hp (by decide)
    · have hp : bytes "updated: " <+: ruler := List.mem_singleton.mp hm ▸ List.prefix_append _ _
      exact absurd hp (by decide)
  rw [HarmlessStamps, if_neg hruler, hstamps]
  constructor
  · rw [tagsIn, List.flatMap_cons, List.flatMap_singleton, if_neg (hkey (by decide) (by decide)),
      if_neg (hkey (by decide) (by decide)), List.append_nil]
  · intro _
    rw [importanceAfter, List.foldl_cons, List.foldl_cons, if_neg (hkey (by decide) (by decide)),
      if_neg (hkey (by decide) (by decide)), List.foldl_nil]

end Files

namespace Counterexample

def clock : Clock := ⟨⟨bytes "12:00", by decide⟩, bytes "2026"⟩
def store : Store := ⟨[], {}, fun _ => none, false⟩

def note : MemoryEntry :=
  { type := .shortTerm, title := bytes "t", content := bytes "---\n# a: b", tags := [bytes "x"] }

/-- A note whose content has the delimiters of the file. -/
theorem note_comes_back :
    RoundTrips (markdownToEntry (entryToMarkdown note) .shortTerm) note ∧
      RoundTrips (readMemory (writeMemory clock ⟨true, true, true⟩ note store).2 .shortTerm
        (memoryName clock note)) note := by
  have hstamps : ∀ c, HarmlessStamps (stamped c note) := fun c =>
    harmless_of_line c.timestamp.2 c.timestamp.2
  obtain ⟨hparse, hfile⟩ := memory_round_trip (e := note) (by decide) (by decide) (by decide)
  refine ⟨hparse.mpr ⟨by decide, by decide, harmless_of_line (by decide) (by decide)⟩, ?_⟩
  exact (hfile store clock ⟨true, true, true⟩ rfl nofun).mpr
    ⟨by decide, by decide, hstamps clock⟩

def listed : MemoryEntry := { type := .shortTerm, title := bytes "t", tags := [bytes "x,y"] }

/-- A tag with a comma comes back as two. -/
theorem comma_splits :
    ¬ RoundTrips (markdownToEntry (entryToMarkdown listed) .shortTerm) listed ∧
      (writeMemory clock ⟨true, true, true⟩ listed store).1 = true ∧
      ¬ RoundTrips (readMemory (writeMemory clock ⟨true, true, true⟩ listed store).2 .shortTerm
        (memoryName clock listed)) listed := by
  have hnot : ∀ e : MemoryEntry, e.tags = listed.tags → ¬ Kept e := by
    intro e he h
    have hclean := h.tags (bytes "x,y") (he ▸ List.mem_cons_self)
    exact absurd hclean.comma (by decide)
  have hwritten : (writeMemory clock ⟨true, true, true⟩ listed store).1 = true := rfl
  have hfile : fileText store.config (stamped clock listed) =
      entryToMarkdown (stamped clock listed) := fileText_fits nofun
  have hread : readMemory (writeMemory clock ⟨true, true, true⟩ listed store).2 .shortTerm
      (memoryName clock listed) =
      markdownToEntry (entryToMarkdown (stamped clock listed)) .shortTerm :=
    (readMemory_writeMemory hwritten).trans (congrArg (markdownToEntry · .shortTerm) hfile)
  have hstamped : ∀ read, RoundTrips read listed → RoundTrips read (stamped clock listed) :=
    fun _ => roundTrips_stamped.mpr
  refine ⟨fun h => ?_, hwritten, fun h => ?_⟩
  · exact hnot listed rfl ((file_roundTrips_iff (by decide) (by decide) (by decide)).mp h)
  · rw [hread] at h
    exact hnot (stamped clock listed) rfl
      ((file_roundTrips_iff (by decide) (by decide) (by decide)).mp (hstamped _ h))

end Counterexample

end MemoryStore
