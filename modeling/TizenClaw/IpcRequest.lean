import TizenClaw.OrderedMap
import TizenClaw.PipelineExecutor

/-! Requests of the clients of the daemon: the method that a request names, and the fields that the
method reads. A field of another type is an exception, a missing one has a default. -/
namespace IpcRequest

open ByteString JsonValue PipelineExecutor

structure SystemCliToolConfig where
  binaryPath : Bytes
  blockedArgs : List Bytes
  timeoutSeconds : ℤ
  sideEffect : Bytes
  description : Bytes
  deriving DecidableEq, Repr

/-- A method with the fields it has read. -/
inductive Order where
  | sessionUsage (sessionId : Bytes)
  | monthlyUsage (month : Bytes)
  | dailyUsage (date : Bytes)
  | prompt (sessionId text : Bytes) (stream a2ui : Bool)
  | sendTo (channel text : Bytes)
  | listAgents (params : Json)
  | perceptionStatus
  | registerSystemCli (name : Bytes) (cfg : SystemCliToolConfig) (toolDoc helpOutput : Bytes)
  | unregisterSystemCli (name : Bytes)
  | listMcpTools
  | connectMcpServers (configPath : Bytes)
  | listSystemCli
  | unknown
  deriving DecidableEq, Repr

/-- A request with its `id`. -/
inductive Request where
  | invalid (id : Json)
  | call (id : Json) (order : Order)
  deriving DecidableEq, Repr

section Read

variable (truncate : NumberText → ℤ)

def readUsage (params : Json) : Except JsonException Order :=
  (params.valueString (bytes "type") (bytes "daily")).bind fun usageType =>
  if usageType = bytes "session" then
    (params.valueString (bytes "session_id") (bytes "default")).map .sessionUsage
  else if usageType = bytes "monthly" then
    (params.valueString (bytes "month") []).map .monthlyUsage
  else (params.valueString (bytes "date") []).map .dailyUsage

def readPrompt (params : Json) : Except JsonException Order :=
  (params.valueString (bytes "session_id") (bytes "default")).bind fun sessionId =>
  (params.valueString (bytes "text") []).bind fun text =>
  (params.value getBool (bytes "stream") false).bind fun stream =>
  (params.value getBool (bytes "is_a2ui") false).map fun a2ui => .prompt sessionId text stream a2ui

def readSendTo (params : Json) : Except JsonException Order :=
  (params.valueString (bytes "channel") []).bind fun channel =>
  (params.valueString (bytes "text") []).map fun text => .sendTo channel text

def getStrings : List Json → Except JsonException (List Bytes)
  | [] => .ok []
  | j :: l => j.getString.bind fun s => (getStrings l).map fun r => s :: r

/-- Only an array of arguments is read. -/
def readBlockedArgs (params : Json) : Except JsonException (List Bytes) :=
  match params.member? (bytes "blocked_args") with
  | some (.arr l) => getStrings l
  | _ => .ok []

def readSystemCli (params : Json) : Except JsonException Order :=
  (params.valueString (bytes "name") []).bind fun name =>
  (params.valueString (bytes "path") []).bind fun binaryPath =>
  (params.valueString (bytes "description") []).bind fun description =>
  (params.valueString (bytes "side_effect") (bytes "reversible")).bind fun sideEffect =>
  (params.value (getInt truncate) (bytes "timeout_seconds") 10).bind fun timeoutSeconds =>
  (params.valueString (bytes "tool_doc") []).bind fun toolDoc =>
  (params.valueString (bytes "help_output") []).bind fun helpOutput =>
  (readBlockedArgs params).map fun blockedArgs =>
    .registerSystemCli name { binaryPath, blockedArgs, timeoutSeconds, sideEffect, description }
      toolDoc helpOutput

def readOrder (method : Bytes) (params : Json) : Except JsonException Order :=
  if method = bytes "get_usage" then readUsage params
  else if method = bytes "prompt" then readPrompt params
  else if method = bytes "send_to" then readSendTo params
  else if method = bytes "list_agents" then .ok (.listAgents params)
  else if method = bytes "get_perception_status" then .ok .perceptionStatus
  else if method = bytes "register_system_cli" then readSystemCli truncate params
  else if method = bytes "unregister_system_cli" then
    (params.valueString (bytes "name") []).map .unregisterSystemCli
  else if method = bytes "list_mcp_tools" then .ok .listMcpTools
  else if method = bytes "connect_mcp_servers" then
    (params.valueString (bytes "config_path") []).map .connectMcpServers
  else if method = bytes "list_system_cli" then .ok .listSystemCli
  else .ok .unknown

def readRequest (req : Json) : Except JsonException Request :=
  (req.valueString (bytes "jsonrpc") []).bind fun version =>
  if version ≠ bytes "2.0" ∨ req.contains (bytes "method") = false then
    (req.value .ok (bytes "id") .null).map .invalid
  else
    (req.valueString (bytes "method") []).bind fun method =>
    (req.value .ok (bytes "params") (.obj [])).bind fun params =>
    (req.value .ok (bytes "id") .null).bind fun id =>
    (readOrder truncate method params).map fun order => .call id order

end Read

section Kinds

/-- The types a field is read with. -/
inductive Kind where
  | text
  | truth
  | number
  | texts
  deriving DecidableEq, Repr

def isString : Json → Bool
  | .str _ => true
  | _ => false

/-- A number may also be a truth value; what is no array holds no texts to read. -/
def Kind.fits : Kind → Json → Bool
  | .text, .str _ => true
  | .truth, .bool _ => true
  | .number, .int _ | .number, .float _ | .number, .bool _ => true
  | .texts, .arr l => l.all isString
  | .texts, _ => true
  | _, _ => false

abbrev Field := Bytes × Kind

/-- The field can be read: it is missing, or of its kind. Only objects have fields. -/
def Readable : Json → Field → Prop
  | .obj m, f => ∀ v ∈ m.lookup f.1, f.2.fits v = true
  | _, _ => False

instance (params : Json) (f : Field) : Decidable (Readable params f) :=
  match params with
  | .obj _ => inferInstanceAs (Decidable (∀ v ∈ _, _ = true))
  | .null | .bool _ | .int _ | .float _ | .str _ | .arr _ => isFalse id

/-- What `get_usage` reads next depends on the type. -/
def usageField (params : Json) : Field :=
  match params.valueString (bytes "type") (bytes "daily") with
  | .ok usageType =>
    if usageType = bytes "session" then (bytes "session_id", .text)
    else if usageType = bytes "monthly" then (bytes "month", .text)
    else (bytes "date", .text)
  | .error _ => (bytes "date", .text)

def fieldsOf (method : Bytes) (params : Json) : List Field :=
  if method = bytes "get_usage" then [(bytes "type", .text), usageField params]
  else if method = bytes "prompt" then
    [(bytes "session_id", .text), (bytes "text", .text), (bytes "stream", .truth),
      (bytes "is_a2ui", .truth)]
  else if method = bytes "send_to" then [(bytes "channel", .text), (bytes "text", .text)]
  else if method = bytes "list_agents" then []
  else if method = bytes "get_perception_status" then []
  else if method = bytes "register_system_cli" then
    [(bytes "name", .text), (bytes "path", .text), (bytes "description", .text),
      (bytes "side_effect", .text), (bytes "timeout_seconds", .number), (bytes "tool_doc", .text),
      (bytes "help_output", .text), (bytes "blocked_args", .texts)]
  else if method = bytes "unregister_system_cli" then [(bytes "name", .text)]
  else if method = bytes "list_mcp_tools" then []
  else if method = bytes "connect_mcp_servers" then [(bytes "config_path", .text)]
  else []

/-- A request all of whose fields can be read. Without a version and a method there is nothing
else to read. -/
def WellTyped (req : Json) : Prop :=
  Readable req (bytes "jsonrpc", .text) ∧
    (req.member? (bytes "jsonrpc") = some (.str (bytes "2.0")) →
      ∀ method ∈ req.member? (bytes "method"), ∃ name, method = .str name ∧
        ∀ f ∈ fieldsOf name ((req.member? (bytes "params")).getD (.obj [])),
          Readable ((req.member? (bytes "params")).getD (.obj [])) f)

end Kinds

section Reading

variable {truncate : NumberText → ℤ} {params : Json}

theorem succeeds_value {α : Type} {get : Json → Except JsonException α} {kind : Kind}
    (hget : ∀ v, Succeeds (get v) ↔ kind.fits v = true) (key : Bytes) (default : α) :
    Succeeds (params.value get key default) ↔ Readable params (key, kind) := by
  cases params with
  | obj m =>
    simp only [Json.value, Readable]
    cases m.lookup key with
    | none => simp
    | some v => simp [hget]
  | _ => simp [Json.value, Readable]

theorem succeeds_valueString (key default : Bytes) :
    Succeeds (params.valueString key default) ↔ Readable params (key, .text) := by
  apply succeeds_value
  intro v
  cases v <;> simp [Json.getString, Kind.fits]

theorem succeeds_getBool (key : Bytes) (default : Bool) :
    Succeeds (params.value getBool key default) ↔ Readable params (key, .truth) := by
  apply succeeds_value
  intro v
  cases v <;> simp [getBool, Kind.fits]

theorem succeeds_getInt (key : Bytes) (default : ℤ) :
    Succeeds (params.value (getInt truncate) key default) ↔ Readable params (key, .number) := by
  apply succeeds_value
  intro v
  cases v <;> simp [getInt, Kind.fits]

theorem succeeds_getStrings (l : List Json) :
    Succeeds (getStrings l) ↔ l.all isString = true := by
  induction l with
  | nil => simp [getStrings]
  | cons j l ih => cases j <;> simp [getStrings, Json.getString, isString, Except.bind, ih]

theorem succeeds_blockedArgs {m : List (Bytes × Json)} :
    Succeeds (readBlockedArgs (.obj m)) ↔ Readable (.obj m) (bytes "blocked_args", .texts) := by
  simp only [readBlockedArgs, Json.member?, Readable]
  cases m.lookup (bytes "blocked_args") with
  | none => simp
  | some v =>
    cases v with
    | arr l => simp [succeeds_getStrings, Kind.fits]
    | _ => simp [Kind.fits]

/-- A read that goes on whatever it has read. -/
theorem succeeds_both {α β : Type} {x : Except JsonException α} {f : α → Except JsonException β}
    {P : Prop} (h : ∀ a, Succeeds (f a) ↔ P) : Succeeds (x.bind f) ↔ Succeeds x ∧ P := by
  simp only [succeeds_bind, h, exists_and_right]
  rfl

theorem succeeds_readUsage :
    Succeeds (readUsage params) ↔
      ∀ f ∈ [(bytes "type", Kind.text), usageField params], Readable params f := by
  have htype : Succeeds (params.valueString (bytes "type") (bytes "daily")) ↔
      Readable params (bytes "type", .text) := succeeds_valueString _ _
  rw [List.forall_mem_cons, List.forall_mem_singleton, ← htype, readUsage, usageField]
  cases params.valueString (bytes "type") (bytes "daily") with
  | error e => simp [Except.bind]
  | ok usageType =>
    simp only [Except.bind, succeeds_ok, true_and]
    split_ifs <;> rw [succeeds_map, succeeds_valueString]

theorem succeeds_readPrompt :
    Succeeds (readPrompt params) ↔
      ∀ f ∈ [(bytes "session_id", Kind.text), (bytes "text", .text), (bytes "stream", .truth),
        (bytes "is_a2ui", .truth)], Readable params f := by
  rw [readPrompt, succeeds_both fun sessionId => succeeds_both fun text =>
    succeeds_both fun stream =>
    (succeeds_map _ _).trans (succeeds_getBool (bytes "is_a2ui") false)]
  simp only [succeeds_valueString, succeeds_getBool, List.forall_mem_cons, List.not_mem_nil,
    false_imp_iff, implies_true, and_true]

theorem succeeds_readSendTo :
    Succeeds (readSendTo params) ↔
      ∀ f ∈ [(bytes "channel", Kind.text), (bytes "text", .text)], Readable params f := by
  rw [readSendTo, succeeds_both fun channel => (succeeds_map _ _).trans (succeeds_valueString _ _)]
  simp only [succeeds_valueString, List.forall_mem_cons, List.not_mem_nil, false_imp_iff,
    implies_true, and_true]

theorem succeeds_readSystemCli :
    Succeeds (readSystemCli truncate params) ↔
      ∀ f ∈ [(bytes "name", Kind.text), (bytes "path", .text), (bytes "description", .text),
        (bytes "side_effect", .text), (bytes "timeout_seconds", .number), (bytes "tool_doc", .text),
        (bytes "help_output", .text), (bytes "blocked_args", .texts)], Readable params f := by
  rw [readSystemCli, succeeds_both fun name => succeeds_both fun path =>
    succeeds_both fun description =>
    succeeds_both fun sideEffect => succeeds_both fun timeout => succeeds_both fun toolDoc =>
    succeeds_both fun helpOutput => succeeds_map _ (readBlockedArgs params)]
  simp only [succeeds_valueString, succeeds_getInt, List.forall_mem_cons, List.not_mem_nil,
    false_imp_iff, implies_true, and_true]
  cases params with
  | obj m => rw [succeeds_blockedArgs]
  | _ => simp [Readable]

theorem succeeds_ite {c : Prop} [Decidable c] {x y : Except JsonException Order} {l m : List Field}
    (hx : Succeeds x ↔ ∀ f ∈ l, Readable params f) (hy : Succeeds y ↔ ∀ f ∈ m, Readable params f) :
    Succeeds (if c then x else y) ↔ ∀ f ∈ if c then l else m, Readable params f := by
  by_cases hc : c
  · rw [if_pos hc, if_pos hc, hx]
  · rw [if_neg hc, if_neg hc, hy]

/-- A method can be read when each of its fields can. -/
theorem succeeds_readOrder (method : Bytes) :
    Succeeds (readOrder truncate method params) ↔
      ∀ f ∈ fieldsOf method params, Readable params f := by
  have hnone : ∀ order, Succeeds (.ok order : Except JsonException Order) ↔
      ∀ f ∈ ([] : List Field), Readable params f := by simp
  have hone : ∀ key make, Succeeds ((params.valueString key []).map make : Except _ Order) ↔
      ∀ f ∈ [(key, Kind.text)], Readable params f := by
    intro key make
    rw [succeeds_map, succeeds_valueString, List.forall_mem_singleton]
  unfold readOrder fieldsOf
  refine succeeds_ite succeeds_readUsage ?_
  refine succeeds_ite succeeds_readPrompt ?_
  refine succeeds_ite succeeds_readSendTo ?_
  refine succeeds_ite (hnone _) ?_
  refine succeeds_ite (hnone _) ?_
  refine succeeds_ite succeeds_readSystemCli ?_
  refine succeeds_ite (hone _ _) ?_
  refine succeeds_ite (hnone _) ?_
  refine succeeds_ite (hone _ _) ?_
  by_cases hlist : method = bytes "list_system_cli"
  · rw [if_pos hlist]
    exact hnone _
  · rw [if_neg hlist]
    exact hnone _

/-- A member as it is, or the default. -/
theorem value_ok (m : List (Bytes × Json)) (key : Bytes) (default : Json) :
    (Json.obj m).value .ok key default = .ok (((Json.obj m).member? key).getD default) := by
  rw [Json.value, Json.member?]
  cases m.lookup key with
  | none => rfl
  | some v => rfl

/-- Only a member of this value is read as it. -/
theorem valueString_eq {j : Json} {key s : Bytes} (h : j.valueString key [] = .ok s) (hs : s ≠ []) :
    j.member? key = some (.str s) := (valueString_cases h).resolve_left hs

/-- A request can be read when it is well typed. -/
theorem succeeds_readRequest (req : Json) :
    Succeeds (readRequest truncate req) ↔ WellTyped req := by
  cases req with
  | obj m =>
    rw [readRequest, WellTyped, ← succeeds_valueString _ []]
    by_cases hj : (Json.obj m).member? (bytes "jsonrpc") = some (.str (bytes "2.0"))
    · rw [valueString_of_member hj, hj]
      simp only [Except.bind, succeeds_ok, true_and, forall_const]
      cases hm : (Json.obj m).member? (bytes "method") with
      | none =>
        have hc : (Json.obj m).contains (bytes "method") = false := by rw [Json.contains, hm]; rfl
        rw [if_pos (Or.inr hc), value_ok]
        simp
      | some method =>
        have hc : (Json.obj m).contains (bytes "method") = true := by rw [Json.contains, hm]; rfl
        rw [if_neg (by simp [hc])]
        cases method with
        | str name =>
          rw [valueString_of_member hm, value_ok, value_ok]
          simp [succeeds_readOrder]
        | _ =>
          have hv : (Json.obj m).valueString (bytes "method") [] = .error (.typeError 302) := by
            rw [Json.member?] at hm
            rw [Json.valueString, Json.value, hm]
            rfl
          rw [hv]
          simp
    · rw [succeeds_bind]
      constructor
      · rintro ⟨version, hv, -⟩
        exact ⟨⟨version, hv⟩, fun h => absurd h hj⟩
      · rintro ⟨⟨version, hv⟩, -⟩
        refine ⟨version, hv, ?_⟩
        rw [if_pos, value_ok]
        · exact succeeds_ok _
        · left
          rintro rfl
          exact hj (valueString_eq hv (by decide))
  | _ => simp [readRequest, WellTyped, Readable, Json.valueString, Json.value, Except.bind]

end Reading

section Repeated

/-- The texts of a request that its response repeats. -/
def Order.repeated : Order → List Bytes
  | .sessionUsage sessionId => [sessionId]
  | .monthlyUsage month => [month]
  | .dailyUsage date => [date]
  | .sendTo channel _ => [channel]
  | .registerSystemCli name _ _ _ => [name]
  | .unregisterSystemCli name => [name]
  | _ => []

def Request.Utf8 : Request → Prop
  | .invalid id => id.utf8 = true
  | .call id order => id.utf8 = true ∧ ∀ t ∈ order.repeated, Utf8.valid t = true

variable {truncate : NumberText → ℤ} {params : Json}

theorem member_utf8 {j v : Json} {key : Bytes} (hj : j.utf8 = true) (h : j.member? key = some v) :
    v.utf8 = true := by
  cases j with
  | obj m => exact utf8_of_mem hj _ (OrderedMap.mem_of_lookup h)
  | _ => cases h

theorem getD_utf8 {j d : Json} {key : Bytes} (hj : j.utf8 = true) (hd : d.utf8 = true) :
    ((j.member? key).getD d).utf8 = true := by
  cases h : j.member? key with
  | none => exact hd
  | some v => exact member_utf8 hj h

theorem valueString_utf8 {j : Json} {key d s : Bytes} (hj : j.utf8 = true)
    (hd : Utf8.valid d = true) (h : j.valueString key d = .ok s) : Utf8.valid s = true := by
  rcases valueString_cases h with rfl | hm
  · exact hd
  · exact member_utf8 hj hm

/-- What the texts and flags of an order have been read from. -/
def Traced (params : Json) : Order → Prop
  | .sessionUsage sessionId =>
    params.valueString (bytes "session_id") (bytes "default") = .ok sessionId
  | .monthlyUsage month => params.valueString (bytes "month") [] = .ok month
  | .dailyUsage date => params.valueString (bytes "date") [] = .ok date
  | .prompt sessionId text stream a2ui =>
    params.valueString (bytes "session_id") (bytes "default") = .ok sessionId ∧
      params.valueString (bytes "text") [] = .ok text ∧
      params.value getBool (bytes "stream") false = .ok stream ∧
      params.value getBool (bytes "is_a2ui") false = .ok a2ui
  | .sendTo channel text =>
    params.valueString (bytes "channel") [] = .ok channel ∧
      params.valueString (bytes "text") [] = .ok text
  | .registerSystemCli name _ _ _ => params.valueString (bytes "name") [] = .ok name
  | .unregisterSystemCli name => params.valueString (bytes "name") [] = .ok name
  | _ => True

/-- An order, if one is read, is made of these fields. -/
def Traces (params : Json) (x : Except JsonException Order) : Prop :=
  ∀ order, x = .ok order → Traced params order

theorem traces_ite {c : Prop} [Decidable c] {x y : Except JsonException Order}
    (hx : Traces params x) (hy : Traces params y) : Traces params (if c then x else y) := by
  by_cases hc : c
  · rw [if_pos hc]
    exact hx
  · rw [if_neg hc]
    exact hy

theorem traces_ok {order : Order} (h : Traced params order) : Traces params (.ok order) := by
  intro o ho
  rw [← Except.ok.inj ho]
  exact h

theorem traces_bind {α : Type} {x : Except JsonException α} {f : α → Except JsonException Order}
    (h : ∀ a, x = .ok a → Traces params (f a)) : Traces params (x.bind f) := by
  intro order ho
  obtain ⟨a, ha, ho⟩ := bind_eq_ok.mp ho
  exact h a ha order ho

theorem traces_map {α : Type} {x : Except JsonException α} {f : α → Order}
    (h : ∀ a, x = .ok a → Traced params (f a)) : Traces params (x.map f) := by
  intro order ho
  obtain ⟨a, ha, rfl⟩ := map_eq_ok.mp ho
  exact h a ha

theorem readOrder_traced (method : Bytes) : Traces params (readOrder truncate method params) := by
  have husage : Traces params (readUsage params) := by
    refine traces_bind fun usageType _ => traces_ite ?_ (traces_ite ?_ ?_)
    · exact traces_map fun s hs => hs
    · exact traces_map fun s hs => hs
    · exact traces_map fun s hs => hs
  have hprompt : Traces params (readPrompt params) :=
    traces_bind fun sessionId hs => traces_bind fun text ht => traces_bind fun stream hst =>
      traces_map fun a2ui ha => ⟨hs, ht, hst, ha⟩
  have hsend : Traces params (readSendTo params) :=
    traces_bind fun channel hc => traces_map fun text ht => ⟨hc, ht⟩
  have hcli : Traces params (readSystemCli truncate params) :=
    traces_bind fun name hn => traces_bind fun path _ => traces_bind fun description _ =>
      traces_bind fun sideEffect _ => traces_bind fun timeout _ => traces_bind fun toolDoc _ =>
      traces_bind fun helpOutput _ => traces_map fun blockedArgs _ => hn
  unfold readOrder
  refine traces_ite husage ?_
  refine traces_ite hprompt ?_
  refine traces_ite hsend ?_
  refine traces_ite (traces_ok trivial) ?_
  refine traces_ite (traces_ok trivial) ?_
  refine traces_ite hcli ?_
  refine traces_ite (traces_map fun name hn => hn) ?_
  refine traces_ite (traces_ok trivial) ?_
  refine traces_ite (traces_map fun path _ => trivial) ?_
  exact traces_ite (traces_ok trivial) (traces_ok trivial)

/-- The parameters that the order of a request is read from. -/
theorem readRequest_call {req id : Json} {order : Order}
    (h : readRequest truncate req = .ok (.call id order)) :
    id = (req.member? (bytes "id")).getD .null ∧
      Traced ((req.member? (bytes "params")).getD (.obj [])) order := by
  cases req with
  | obj m =>
    obtain ⟨version, -, h⟩ := bind_eq_ok.mp h
    split_ifs at h
    · rw [value_ok] at h
      cases h
    · obtain ⟨method, -, h⟩ := bind_eq_ok.mp h
      rw [value_ok, value_ok] at h
      obtain ⟨order', ho, he⟩ := map_eq_ok.mp h
      obtain ⟨rfl, rfl⟩ := Request.call.inj he
      exact ⟨rfl, readOrder_traced method order' ho⟩
  | _ => cases h

/-- What a method repeats is one of its texts, or the default of that. -/
theorem Traced.utf8 {order : Order} (hp : params.utf8 = true) (h : Traced params order) :
    ∀ t ∈ order.repeated, Utf8.valid t = true := by
  have htext : ∀ {key d s}, Utf8.valid d = true → params.valueString key d = .ok s →
      ∀ t ∈ [s], Utf8.valid t = true := by
    intro key d s hd hs t ht
    rw [List.mem_singleton.mp ht]
    exact valueString_utf8 hp hd hs
  cases order with
  | sessionUsage sessionId => exact htext (by decide) h
  | monthlyUsage month => exact htext rfl h
  | dailyUsage date => exact htext rfl h
  | sendTo channel text => exact htext rfl h.1
  | registerSystemCli name cfg toolDoc helpOutput => exact htext rfl h
  | unregisterSystemCli name => exact htext rfl h
  | _ => exact fun t ht => absurd ht List.not_mem_nil

theorem readRequest_utf8 {req : Json} {request : Request} (hreq : req.utf8 = true)
    (h : readRequest truncate req = .ok request) : request.Utf8 := by
  cases request with
  | call id order =>
    obtain ⟨rfl, ht⟩ := readRequest_call h
    exact ⟨getD_utf8 hreq rfl, ht.utf8 (getD_utf8 hreq rfl)⟩
  | invalid id =>
    cases req with
    | obj m =>
      obtain ⟨version, -, h⟩ := bind_eq_ok.mp h
      split_ifs at h
      · rw [value_ok] at h
        cases h
        exact getD_utf8 hreq rfl
      · obtain ⟨method, -, h⟩ := bind_eq_ok.mp h
        rw [value_ok, value_ok] at h
        obtain ⟨order, -, he⟩ := map_eq_ok.mp h
        cases he
    | _ => cases h

end Repeated

end IpcRequest
