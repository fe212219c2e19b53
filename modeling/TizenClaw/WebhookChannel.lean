import TizenClaw.JsonStorable
import TizenClaw.PipelineExecutor
import TizenClaw.WebFiles
import TizenClaw.WorkerDrain

/-! The webhook channel: signed requests on the configured routes are handed to the agent, each on a
worker of its own, and the channel is stopped and started again. -/
namespace WebhookChannel

open ByteString JsonValue JsonParse JsonStorable TransitionSystem WebFiles WorkerDrain
open PipelineExecutor (getInt)

structure WebhookRoute where
  path : Bytes
  sessionId : Bytes
  deriving DecidableEq, Repr

structure Config where
  port : ℤ := 8080
  hmacSecret : Bytes := []
  routes : List WebhookRoute := []
  deriving DecidableEq, Repr

/-- The hexadecimal text of a SHA-256 digest. -/
abbrev Digest := { t : Bytes // t.length = 64 ∧ ∀ b ∈ t, b ∈ bytes "0123456789abcdef" }

/-- What the signature of a payload and the numbers in texts are is left open. -/
structure Host where
  hmac : Bytes → Bytes → Digest
  readFloat : Bytes → Option NumberText
  truncate : NumberText → ℤ

variable (h : Host)

section Loading

def readRoute (r : Json) : Except JsonException WebhookRoute := do
  let path ← r.valueString (bytes "path") []
  let sessionId ← r.valueString (bytes "session_id") (bytes "webhook_default")
  pure { path, sessionId }

/-- A route without a path is passed over, and what throws ends the reading. -/
def addRoutes (c : Config) : List Json → Config × Bool
  | [] => (c, true)
  | r :: rs => match readRoute r with
    | .error _ => (c, false)
    | .ok route =>
      addRoutes (if route.path = [] then c else { c with routes := c.routes ++ [route] }) rs

def listedRoutes (j : Json) : List Json :=
  match j.member? (bytes "routes") with
  | some (.arr rs) => rs
  | _ => []

/-- The routes of a file come behind those that the channel has. -/
def loadConfig (file : Option Bytes) (c : Config) : Config × Bool :=
  match file with
  | none => (c, false)
  | some text => match readStream h.readFloat text with
    | .error _ => (c, false)
    | .ok j => match j.value (getInt h.truncate) (bytes "port") 8080 with
      | .error _ => (c, false)
      | .ok port => match j.valueString (bytes "hmac_secret") [] with
        | .error _ => ({ c with port }, false)
        | .ok hmacSecret => match addRoutes { c with port, hmacSecret } (listedRoutes j) with
          | (c', false) => (c', false)
          | (c', true) => (c', c'.routes ≠ [])

/-- The server may fail to listen on the port of the file. -/
def start (file : Option Bytes) (listens : Bool) (c : Config) : Config × Bool :=
  ((loadConfig h file c).1, (loadConfig h file c).2 && listens)

end Loading

section Requests

def scheme : Bytes := bytes "sha256="

def verifyHmac (secret payload signature : Bytes) : Bool :=
  if secret = [] then true
  else if signature = [] then false
  else
    (if signature.take 7 = scheme then signature.drop 7 else signature) = (h.hmac secret payload).1

structure Request where
  method : Method
  path : Bytes
  signature : Option Bytes := none
  payload : Bytes
  deriving DecidableEq, Repr

/-- A prompt for the agent and the session that it belongs to. -/
structure Job where
  sessionId : Bytes
  prompt : Bytes
  deriving DecidableEq, Repr

/-- The session of the first route with this path. -/
def routeOf (routes : List WebhookRoute) (path : Bytes) : Option Bytes :=
  (routes.find? fun route => path = route.path).map WebhookRoute.sessionId

/-- The text of a payload, or the payload itself. -/
def promptOf (payload : Bytes) : Bytes :=
  match (parse h.readFloat payload).bind fun j => j.valueString (bytes "text") [] with
  | .ok text => if text = [] then payload else text
  | .error _ => payload

/-- What is looked at before the flag. -/
def accept (c : Config) (r : Request) : Except Response Job :=
  if r.method ≠ .post then .error (jsonLiteral 405 "\x7b\"error\":\"Method not allowed\"\x7d" 30)
  else if c.hmacSecret ≠ [] ∧ verifyHmac h c.hmacSecret r.payload (r.signature.getD []) = false then
    .error (jsonLiteral 403 "\x7b\"error\":\"Invalid signature\"\x7d" 27)
  else match routeOf c.routes r.path with
    | none => .error (jsonLiteral 404 "\x7b\"error\":\"No matching route\"\x7d" 30)
    | some sessionId =>
      if promptOf h r.payload = [] then
        .error (jsonLiteral 400 "\x7b\"error\":\"Empty payload\"\x7d" 25)
      else .ok ⟨sessionId, promptOf h r.payload⟩

/-- An answer at once, or a job for a worker. -/
def handleRequest (c : Config) (running : Bool) (r : Request) : Except Response Job :=
  (accept h c r).bind fun job =>
    if running then .ok job
    else .error (jsonLiteral 503 "\x7b\"error\":\"Shutting down\"\x7d" 24)

def gate (c : Config) (r : Request) : Option Job := (accept h c r).toOption

abbrev Channel := Front Config Job

abbrev ChannelEvent := FrontEvent Config Request Job

/-- The channel between its starts and stops; what it loads at a start is some file. -/
def webhook (config : Config) : System Channel ChannelEvent where
  Init := (front (fun _ => true) (gate h) config).Init
  Step s e t := (front (fun _ => true) (gate h) config).Step s e t ∧
    ∀ load, e = .start load → ∃ file listens, load = start h file listens

end Requests

variable {h : Host} {c config : Config} {tr : List (Channel × ChannelEvent)} {f g : Channel}

theorem front_of_webhook (hr : Run (webhook h config) tr f) :
    Run (front (fun _ => true) (gate h) config) tr f := by
  refine Run.mono ?_ ?_ hr
  · intro s hi
    exact hi
  · intro s e t hs
    exact hs.1

section Authenticity

theorem scheme_not_hex (d : Digest) : d.1.take 7 ≠ scheme := by
  intro he
  have hs : (0x73 : UInt8) ∈ d.1.take 7 := he ▸ by decide
  have hhex := d.2.2 _ (List.mem_of_mem_take hs)
  revert hhex
  decide

theorem digest_ne_nil (d : Digest) : d.1 ≠ [] := by
  intro he
  have := d.2.1
  rw [he] at this
  cases this

theorem scheme_append_ne_nil (t : Bytes) : scheme ++ t ≠ [] :=
  List.append_ne_nil_of_left_ne_nil (by decide) t

/-- A signature is the digest of the payload, with or without the name of the scheme. -/
theorem verifyHmac_iff {secret payload signature : Bytes} :
    verifyHmac h secret payload signature = true ↔
    secret = [] ∨ signature = (h.hmac secret payload).1 ∨
      signature = scheme ++ (h.hmac secret payload).1 := by
  have hlen : scheme.length = 7 := by decide
  have hdigest := scheme_not_hex (h.hmac secret payload)
  unfold verifyHmac
  split_ifs with hsecret hempty hscheme
  · exact iff_of_true rfl (Or.inl hsecret)
  · refine iff_of_false (by simp) ?_
    rintro (hs | hs | hs)
    · exact hsecret hs
    · exact digest_ne_nil _ (hs.symm.trans hempty)
    · exact scheme_append_ne_nil _ (hs.symm.trans hempty)
  · rw [decide_eq_true_iff]
    constructor
    · intro he
      refine Or.inr (Or.inr ?_)
      rw [← he, ← hscheme, List.take_append_drop]
    · rintro (hs | hs | hs)
      · exact absurd hs hsecret
      · exact absurd (hs ▸ hscheme) hdigest
      · rw [hs, ← hlen, List.drop_left]
  · rw [decide_eq_true_iff]
    constructor
    · exact fun he => Or.inr (Or.inl he)
    · rintro (hs | hs | hs)
      · exact absurd hs hsecret
      · exact hs
      · refine absurd ?_ hscheme
        rw [hs, ← hlen, List.take_left]

/-- The sender knew the secret, if there is one. -/
def Signed (h : Host) (c : Config) (r : Request) : Prop :=
  c.hmacSecret = [] ∨ r.signature = some (h.hmac c.hmacSecret r.payload).1 ∨
    r.signature = some (scheme ++ (h.hmac c.hmacSecret r.payload).1)

theorem signed_iff {r : Request} : Signed h c r ↔
    ¬ (c.hmacSecret ≠ [] ∧ verifyHmac h c.hmacSecret r.payload (r.signature.getD []) = false) := by
  rw [not_and, Bool.not_eq_false, verifyHmac_iff, Signed]
  cases hs : r.signature with
  | none =>
    simp only [Option.getD_none, reduceCtorEq, or_false]
    constructor
    · exact fun he hno => absurd he hno
    · intro hall
      by_contra hno
      rcases hall hno with he | he | he
      · exact hno he
      · exact digest_ne_nil _ he.symm
      · exact scheme_append_ne_nil _ he.symm
  | some signature =>
    simp only [Option.getD_some, Option.some.injEq]
    constructor
    · exact fun he _ => he
    · intro hall
      by_cases he : c.hmacSecret = []
      · exact Or.inl he
      · exact hall he

/-- What a request has to be for a job of the agent. -/
theorem gate_eq_some {r : Request} {job : Job} : gate h c r = some job ↔
    r.method = .post ∧ Signed h c r ∧ routeOf c.routes r.path = some job.sessionId ∧
      job.prompt = promptOf h r.payload ∧ job.prompt ≠ [] := by
  unfold gate accept
  split_ifs with hmethod hsigned hprompt
  · refine iff_of_false (by simp [Except.toOption]) fun hall => hmethod hall.1
  · refine iff_of_false (by simp [Except.toOption]) fun hall => signed_iff.mp hall.2.1 hsigned
  · refine iff_of_false ?_ fun hall => hall.2.2.2.2 (hall.2.2.2.1.trans hprompt)
    cases routeOf c.routes r.path <;> simp [Except.toOption]
  · rw [not_not] at hmethod
    cases hroute : routeOf c.routes r.path with
    | none => simp [Except.toOption]
    | some sessionId =>
      obtain ⟨jobSession, jobPrompt⟩ := job
      simp only [Except.toOption, Option.some.injEq, Job.mk.injEq, hmethod, signed_iff.mpr hsigned,
        true_and]
      constructor
      · rintro ⟨rfl, rfl⟩
        exact ⟨rfl, rfl, hprompt⟩
      · rintro ⟨rfl, rfl, -⟩
        exact ⟨rfl, rfl⟩

/-- A host with one digest for all payloads. -/
def sampleHost : Host where
  hmac _ _ := ⟨List.replicate 64 0x30, by decide⟩
  readFloat _ := none
  truncate _ := 0

def sampleConfig : Config := { hmacSecret := bytes "k", routes := [⟨bytes "/a", bytes "home"⟩] }

def sampleRequest : Request :=
  { method := .post, path := bytes "/a", signature := some (List.replicate 64 0x30)
    payload := bytes "hi" }

/-- A request is served, and then the channel is stopped and started with another file. -/
def sampleEvents : List ChannelEvent :=
  [.request sampleRequest] ++
    [.count, .finish 0, .callback, .announce, .stop, .stop, .stop, .stop, .leave, .stop].map
      .inside ++
    [.start (start sampleHost
      (some (bytes "\x7b\"routes\":[\x7b\"path\":\"/a\",\"session_id\":\"work\"\x7d]\x7d")) true)]

theorem sample_run (n : ℕ) (p : List (Channel × ChannelEvent) → Channel → Bool)
    (h : ((execute (frontStep (fun _ => true) (gate sampleHost)) { config := sampleConfig }
        (sampleEvents.take n)).any
      fun x => p x.1 x.2) = true) :
    ∃ tr f, Run (webhook sampleHost sampleConfig) tr f ∧ p tr f = true := by
  refine Run.of_execute_mem (M := webhook sampleHost sampleConfig) ?_ rfl p h
  intro s t e he hs
  refine ⟨hs, fun load hload => ?_⟩
  have hm := List.mem_of_mem_take he
  rw [hload, sampleEvents, List.mem_append, List.mem_append] at hm
  rcases hm with (hm | hm) | hm
  · cases List.mem_singleton.mp hm
  · obtain ⟨e, -, he⟩ := List.mem_map.mp hm
    cases he
  · exact ⟨_, true, FrontEvent.start.inj (List.mem_singleton.mp hm)⟩

end Authenticity

section Routes

theorem addRoutes_routes (c : Config) (rs : List Json) :
    ∃ more, (addRoutes c rs).1.routes = c.routes ++ more := by
  induction rs generalizing c with
  | nil => exact ⟨[], (List.append_nil _).symm⟩
  | cons r rs ih =>
    rw [addRoutes]
    cases readRoute r with
    | error _ => exact ⟨[], (List.append_nil _).symm⟩
    | ok route =>
      dsimp only
      split_ifs
      · exact ih c
      · obtain ⟨more, he⟩ := ih { c with routes := c.routes ++ [route] }
        exact ⟨[route] ++ more, by rw [he, List.append_assoc]⟩

theorem loadConfig_routes (file : Option Bytes) (c : Config) :
    ∃ more, (loadConfig h file c).1.routes = c.routes ++ more := by
  have hsame : ∃ more, c.routes = c.routes ++ more := ⟨[], (List.append_nil _).symm⟩
  unfold loadConfig
  split
  · exact hsame
  · split
    · exact hsame
    · split
      · exact hsame
      next port _ =>
        split
        · exact hsame
        next hmacSecret _ =>
          obtain ⟨more, he⟩ := addRoutes_routes { c with port, hmacSecret } (listedRoutes _)
          split
          next c' hc =>
            rw [hc] at he
            exact ⟨more, he⟩
          next c' hc =>
            rw [hc] at he
            exact ⟨more, he⟩

theorem routeOf_append {routes : List WebhookRoute} {path sessionId : Bytes}
    (hroute : routeOf routes path = some sessionId) (more : List WebhookRoute) :
    routeOf (routes ++ more) path = some sessionId := by
  obtain ⟨route, hfind, hs⟩ := Option.map_eq_some_iff.mp hroute
  rw [routeOf, List.find?_append, hfind]
  exact congrArg some hs

theorem route_step {e : ChannelEvent} {path sessionId : Bytes}
    (hroute : routeOf f.config.routes path = some sessionId)
    (hs : (webhook h config).Step f e g) : routeOf g.config.routes path = some sessionId := by
  obtain ⟨hs, hload⟩ := hs
  have hloaded : ∀ load, e = .start load →
      routeOf (load f.config).1.routes path = some sessionId := by
    intro load he
    obtain ⟨file, listens, rfl⟩ := hload load he
    obtain ⟨more, hmore⟩ := loadConfig_routes (h := h) file f.config
    rw [start, hmore]
    exact routeOf_append hroute more
  cases front_moves hs with
  | refuse => exact hroute
  | request => exact hroute
  | inside => exact hroute
  | start load => exact hloaded load rfl
  | fail load => exact hloaded load rfl

/-- The session of a route stays for the life of the process: no file that is loaded at a later start
takes the route away or gives its path to another session. -/
theorem route_stays (hr : Run (webhook h config) tr f) {x : Channel × ChannelEvent} (hx : x ∈ tr)
    {path sessionId : Bytes} (hroute : routeOf x.1.config.routes path = some sessionId) :
    routeOf f.config.routes path = some sessionId := by
  obtain ⟨tr₁, tr₂, -, rfl, -, -⟩ := hr.split hx
  refine (hr.since (I := fun s => routeOf s.config.routes path = some sessionId)
    (P := fun _ _ => True) ?_ ?_ (fun _ _ => trivial)).1
  · intro t _ hs
    exact route_step hroute hs
  · intro s e t hi _ hs
    exact route_step hi hs

theorem route_stays_sample : ∃ tr f, Run (webhook sampleHost sampleConfig) tr f ∧
    f.config.routes.length = 2 ∧ routeOf f.config.routes (bytes "/a") = some (bytes "home") := by
  obtain ⟨tr, f, hr, hp⟩ := sample_run 12 (fun tr f => f.config.routes.length == 2 &&
    tr.any fun x => routeOf x.1.config.routes (bytes "/a") == some (bytes "home")) (by decide +kernel)
  rw [Bool.and_eq_true, beq_iff_eq, List.any_eq_true] at hp
  obtain ⟨hlen, x, hx, hroute⟩ := hp
  exact ⟨tr, f, hr, hlen, route_stays hr hx (beq_iff_eq.mp hroute)⟩

end Routes

section Drained

end Drained

end WebhookChannel
