import TizenClaw.Utf8Cuts
import TizenClaw.WebAppStore
import TizenClaw.WebFilesConfinement

/-! The tool that looks up the installed documents on the web API: it lists their index, reads one of
them, or searches all of them for a keyword. -/
namespace WebApiLookup

open ByteString ByteLines JsonValue JsonDump JsonParse JsonRoundTrip JsonStorable PathResolution
  PosixPath FileSystem WebFiles

section Model

inductive Thrown where
  | json (e : JsonException)
  | stream (what : Bytes)

def ragBase : Bytes := appDataDir ++ bytes "/rag/web"

/-- `MAX_CONTENT` -/
def maxContent : ℕ := 32000

def maxResults : ℕ := 20

def maxSnippet : ℕ := 200

/-- A document that the search can open, under its path from the base. -/
structure Document where
  path : Bytes
  content : Bytes

/-- The search meets the documents in the order of the system. -/
structure Installation where
  tree : FileTree
  cwd : Place
  documents : List Document

def dumped (members : List (Bytes × Json)) : Except Thrown Bytes :=
  (dump (.object members)).mapError .json

def hasKeyword (query line : Bytes) : Bool :=
  (find (query.map toLower) (line.map toLower)).isSome

/-- The first line with the keyword, be it in capitals or not. -/
def foundLine (query content : Bytes) : Option Bytes := (lines content).find? (hasKeyword query)

def result (path line : Bytes) : Json :=
  .object [(bytes "path", .str path), (bytes "snippet", .str (line.take maxSnippet))]

/-- The loop over the documents; it is left when there are enough results. -/
def searchFrom (query : Bytes) : List Document → List Json → List Json
  | [], found => found
  | d :: ds, found =>
    if maxResults ≤ found.length then found
    else match foundLine query d.content with
      | some line => searchFrom query ds (found ++ [result d.path line])
      | none => searchFrom query ds found

def listReply : Opened → Except Thrown Bytes
  | .closed => .ok (bytes
    "\x7b\"error\": \"Web API index not found. RAG data may not be installed.\"\x7d")
  | .directory => .error (.stream readFailure)
  | .file content => dumped [(bytes "status", .str (bytes "ok")),
    (bytes "operation", .str (bytes "list")), (bytes "content", .str content)]

/-- A long document is cut. -/
def readReply (path : Bytes) : Opened → Except Thrown Bytes
  | .closed => dumped [(bytes "error", .str (bytes "File not found: " ++ path))]
  | .directory => .error (.stream readFailure)
  | .file content => dumped [(bytes "status", .str (bytes "ok")),
    (bytes "operation", .str (bytes "read")), (bytes "path", .str path),
    (bytes "content", .str (content.take maxContent)),
    (bytes "truncated", .bool (decide (maxContent < content.length)))]

def searchReply (query : Bytes) (results : List Json) : Except Thrown Bytes :=
  dumped [(bytes "status", .str (bytes "ok")), (bytes "operation", .str (bytes "search")),
    (bytes "query", .str query), (bytes "results", .arr results),
    (bytes "total", .int results.length)]

def readDocument (i : Installation) (path : Bytes) : Except Thrown Bytes :=
  if path = [] then .ok (bytes "\x7b\"error\": \"path is required for read operation\"\x7d")
  else if hasParent path then .ok (bytes "\x7b\"error\": \"Invalid path\"\x7d")
  else readReply path (openRead i.tree i.cwd (ragBase ++ slash :: path))

def searchDocuments (i : Installation) (query : Bytes) : Except Thrown Bytes :=
  if query = [] then .ok (bytes "\x7b\"error\": \"query is required for search operation\"\x7d")
  else searchReply query (searchFrom query i.documents [])

def executeWebApiLookup (i : Installation) (operation : Bytes) (args : Json) :
    Except Thrown Bytes :=
  if operation = bytes "list" then
    listReply (openRead i.tree i.cwd (ragBase ++ slash :: bytes "index.md"))
  else if operation = bytes "read" then
    ((args.valueString (bytes "path") []).mapError .json).bind (readDocument i)
  else if operation = bytes "search" then
    ((args.valueString (bytes "query") []).mapError .json).bind (searchDocuments i)
  else .ok (bytes "\x7b\"error\": \"Unknown operation. Use: list, read, or search\"\x7d")

end Model

section Reading

variable {readFloat : Bytes → Option NumberText} {i j : Installation} {root : Place}
  {args : Json} {path content : Bytes}

theorem dumped_eq {members : List (Bytes × Json)} (hs : StorableMembers readFloat members) :
    ∃ reply, dumped members = .ok reply ∧ parse readFloat reply = .ok (.object members) := by
  have hstorable := storable_object hs
  obtain ⟨reply, hreply⟩ := (succeeds_dump (.object members)).mpr hstorable.utf8
  refine ⟨reply, ?_, WebApps.parse_dump hstorable hreply⟩
  rw [dumped, hreply]
  rfl

theorem dumped_error {members : List (Bytes × Json)} (h : (Json.object members).utf8 = false) :
    dumped members = .error (.json (.typeError 316)) := by
  rw [dumped, dump, dumpWith, h]
  rfl

/-- What the three operations open lies below the base. -/
theorem opens_dependsOn (hp : hasParent path = false) :
    DependsOn ragBase (ragBase ++ slash :: path) :=
  dependsOn_plain (parent_not_mem_of_hasParent hp)

theorem readDocument_congr
    (h : ∀ path, hasParent path = false → openRead i.tree i.cwd (ragBase ++ slash :: path) =
      openRead j.tree j.cwd (ragBase ++ slash :: path)) (path : Bytes) :
    readDocument i path = readDocument j path := by
  unfold readDocument
  split_ifs with hempty hparent
  · rfl
  · rfl
  · rw [h path (Bool.not_eq_true _ ▸ hparent)]

theorem searchDocuments_congr (h : i.documents = j.documents) (query : Bytes) :
    searchDocuments i query = searchDocuments j query := by
  unfold searchDocuments
  rw [h]

/-- What a document that was read is answered with. -/
def documentMembers (path content : Bytes) : List (Bytes × Json) :=
  [(bytes "status", .str (bytes "ok")), (bytes "operation", .str (bytes "read")),
    (bytes "path", .str path), (bytes "content", .str (content.take maxContent)),
    (bytes "truncated", .bool (decide (maxContent < content.length)))]

def documentKeys : List Bytes :=
  [bytes "status", bytes "operation", bytes "path", bytes "content", bytes "truncated"]

theorem readReply_iff (hpath : Utf8.valid path = true) (hcontent : Utf8.valid content = true) :
    (∃ reply, readReply path (.file content) = .ok reply ∧
        parse readFloat reply = .ok (.object (documentMembers path content))) ↔
      Utf8.Boundary content maxContent := by
  rw [← Utf8.valid_take_iff hcontent]
  constructor
  · rintro ⟨reply, hreply, -⟩
    by_contra hcut
    have hbad : (Json.object (documentMembers path content)).utf8 = false := by
      apply Bool.eq_false_iff.mpr
      intro hutf8
      rw [utf8_object documentKeys rfl (by decide)] at hutf8
      exact hcut (utf8_of_mem hutf8 (bytes "content", .str (content.take maxContent))
        (by simp [documentMembers]))
    have hthrown : readReply path (.file content) = .error (.json (.typeError 316)) :=
      dumped_error hbad
    rw [hthrown] at hreply
    cases hreply
  · intro hcut
    have hkeys : ∀ s ∈ [bytes "status", bytes "ok", bytes "operation", bytes "read", bytes "path",
        bytes "content", bytes "truncated"], Utf8.valid s = true := by decide
    exact dumped_eq ⟨hkeys _ (by simp), hkeys _ (by simp), hkeys _ (by simp), hkeys _ (by simp),
      hkeys _ (by simp), hpath, hkeys _ (by simp), hcut, hkeys _ (by simp), trivial, trivial⟩

def ragPlace : Place := names (components ragBase)

/-- One document is installed, and a file somewhere else. -/
def sampleTree : FileTree :=
  (Tree.along ragPlace).put (ragPlace ++ [⟨bytes "a.md", by decide⟩]) (bytes "# Alarm")

def sampleOther : FileTree := sampleTree.put [⟨bytes "etc", by decide⟩] (bytes "secret")

def sampleArgs : Json := .object [(bytes "path", .str (bytes "a.md"))]

end Reading

section Searching

variable {readFloat : Bytes → Option NumberText} {i : Installation} {args : Json} {query : Bytes}

/-- The documents with the keyword, in the order in which they are met, up to twenty. -/
def hits (query : Bytes) (documents : List Document) : List (Bytes × Bytes) :=
  (documents.filterMap fun d => (foundLine query d.content).map fun line => (d.path, line)).take
    maxResults

theorem searchFrom_eq (query : Bytes) (ds : List Document) (found : List Json)
    (h : found.length ≤ maxResults) :
    searchFrom query ds found = found ++
      ((ds.filterMap fun d => (foundLine query d.content).map fun line =>
        result d.path line).take (maxResults - found.length)) := by
  induction ds generalizing found with
  | nil => rw [searchFrom, List.filterMap_nil, List.take_nil, List.append_nil]
  | cons d ds ih =>
    rw [searchFrom]
    split_ifs with hfull
    · rw [Nat.sub_eq_zero_of_le hfull, List.take_zero, List.append_nil]
    · cases hline : foundLine query d.content with
      | none => rw [List.filterMap_cons_none (by rw [hline]; rfl), ih found h]
      | some line =>
        have hroom : maxResults - found.length = maxResults - (found.length + 1) + 1 := by omega
        have hlen : (found ++ [result d.path line]).length = found.length + 1 := by
          rw [List.length_append, List.length_singleton]
        dsimp only
        rw [List.filterMap_cons_some (by rw [hline]; rfl), ih _ (by omega), hlen, hroom,
          List.take_succ_cons, List.append_assoc, List.singleton_append]

theorem searchFrom_nil (query : Bytes) (ds : List Document) :
    searchFrom query ds [] = (hits query ds).map fun x => result x.1 x.2 := by
  rw [searchFrom_eq query ds [] (Nat.zero_le _), List.nil_append, hits, List.map_take,
    List.map_filterMap]
  congr 1
  apply List.filterMap_congr
  intro d _
  rw [Option.map_map]
  rfl

theorem valid_lines {s : Bytes} (h : Utf8.valid s = true) : ∀ l ∈ lines s, Utf8.valid l = true := by
  have hall : ∀ ls : List Bytes, Utf8.valid (unlines ls) = true →
      ∀ l ∈ ls, Utf8.valid l = true := by
    intro ls
    induction ls with
    | nil => exact fun _ l hm => absurd hm List.not_mem_nil
    | cons l ls ih =>
      intro hv
      rw [unlines_cons] at hv
      obtain ⟨hl, hls⟩ := Utf8.valid_apart (by decide) hv
      rw [List.forall_mem_cons]
      exact ⟨hl, ih hls⟩
  apply hall
  rcases unlines_lines_cases s with hs | hs
  · rwa [hs]
  · rw [hs, Utf8.valid_append h]
    rfl

theorem valid_hits {ds : List Document}
    (h : ∀ d ∈ ds, Utf8.valid d.path = true ∧ Utf8.valid d.content = true) :
    ∀ x ∈ hits query ds, Utf8.valid x.1 = true ∧ Utf8.valid x.2 = true := by
  intro x hx
  obtain ⟨d, hd, hmap⟩ := List.mem_filterMap.mp (List.mem_of_mem_take hx)
  obtain ⟨line, hline, rfl⟩ := Option.map_eq_some_iff.mp hmap
  exact ⟨(h d hd).1, valid_lines (h d hd).2 line (List.mem_of_find?_eq_some hline)⟩

/-- What a search is answered with. -/
def searchMembers (query : Bytes) (found : List (Bytes × Bytes)) : List (Bytes × Json) :=
  [(bytes "status", .str (bytes "ok")), (bytes "operation", .str (bytes "search")),
    (bytes "query", .str query), (bytes "results", .arr (found.map fun x => result x.1 x.2)),
    (bytes "total", .int found.length)]

def searchKeys : List Bytes :=
  [bytes "status", bytes "operation", bytes "query", bytes "results", bytes "total"]

theorem storable_result {path line : Bytes} (hpath : Utf8.valid path = true)
    (hline : Utf8.valid line = true) (hcut : Utf8.Boundary line maxSnippet) :
    Storable readFloat (result path line) := by
  have hkeys : ∀ s ∈ [bytes "path", bytes "snippet"], Utf8.valid s = true := by decide
  exact storable_object ⟨hkeys _ (by simp), hpath, hkeys _ (by simp),
    (Utf8.valid_take_iff hline _).mpr hcut, trivial⟩

end Searching

end WebApiLookup
