import TizenClaw.ToolDispatch

/-! Answers without a model: the first rule with a keyword of the prompt names a tool, which is
called straight from the dispatch table. -/
namespace OfflineFallback

open ByteString JsonValue ToolDispatch

structure FallbackRule where
  name : Bytes
  keywords : List Bytes
  toolName : Bytes
  defaultArgs : Json
  responseTemplate : Bytes
  priority : ℤ := 0

def normalize (text : Bytes) : Bytes := text.map toLower

def containsKeyword (prompt keyword : Bytes) : Bool := (find keyword prompt).isSome

/-- `Match` on the rules in the order of their priorities. -/
def matchRule (rules : List FallbackRule) (prompt : Bytes) : Option FallbackRule :=
  rules.find? fun rule => rule.keywords.any (containsKeyword (normalize prompt))

/-- The call of a tool without a model. -/
structure HandlerCall where
  name : Bytes
  args : Json
  session : Bytes
  deriving DecidableEq

/-- The offline branch of `ProcessPrompt`: the handler it calls and what it answers, `none` when
no rule matches. The tool is called whether or not its result is shown. -/
def fallback (codeGenerator : Bool) (handler : HandlerCall → Except ToolException Bytes)
    (rules : List FallbackRule) (session prompt : Bytes) :
    Option (Option HandlerCall × Except ToolException Bytes) :=
  (matchRule rules prompt).map fun rule =>
    let call : HandlerCall := ⟨rule.toolName, rule.defaultArgs, session⟩
    let known := rule.toolName ∈ toolDispatch codeGenerator
    let result :=
      if rule.toolName = [] then .ok []
      else if known then handler call
      else .ok (errorOutput (bytes "Tool not found: " ++ rule.toolName))
    (if rule.toolName ≠ [] ∧ known then some call else none,
      result.map fun result =>
        if rule.responseTemplate ≠ [] then rule.responseTemplate
        else bytes "[Offline mode] " ++ result)

/-- A rule that names a handler. -/
def RunsHandler (codeGenerator : Bool) (rules : List FallbackRule) (prompt name : Bytes) : Prop :=
  ∃ rule, matchRule rules prompt = some rule ∧ rule.toolName = name ∧
    name ∈ toolDispatch codeGenerator

theorem nil_not_mem_toolDispatch (codeGenerator : Bool) : [] ∉ toolDispatch codeGenerator := by
  cases codeGenerator <;> decide

theorem fallback_call_iff {codeGenerator : Bool}
    (handler : HandlerCall → Except ToolException Bytes)
    {rules : List FallbackRule} (session : Bytes) {prompt name : Bytes} :
    (∃ x ∈ fallback codeGenerator handler rules session prompt, ∃ call ∈ x.1,
      call.name = name) ↔ RunsHandler codeGenerator rules prompt name := by
  unfold fallback RunsHandler
  cases hm : matchRule rules prompt with
  | none => simp
  | some rule =>
    simp only [Option.map_some, Option.mem_def, Option.some.injEq, exists_eq_left']
    constructor
    · rintro ⟨call, hc, rfl⟩
      split_ifs at hc with h
      obtain rfl := Option.some.inj hc
      exact ⟨rfl, h.2⟩
    · rintro ⟨rfl, hk⟩
      have hne : rule.toolName ≠ [] := by
        intro he
        exact nil_not_mem_toolDispatch codeGenerator (he ▸ hk)
      exact ⟨_, if_pos ⟨hne, hk⟩, rfl⟩

end OfflineFallback
