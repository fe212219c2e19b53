import TizenClaw.DashboardAuth
import TizenClaw.IpcRequest

/-! Runs of the administrator's requests: whom the dashboard obeys, what the configuration files
hold, and that the password outlives a restart. -/
namespace DashboardAuth

open ByteString JsonValue JsonDump JsonParse JsonRoundTrip JsonStorable TransitionSystem WebFiles WebApps

variable {h : Host} {s : Dashboard} {tr : List (Dashboard × Request)} {dir : ConfigDir}

section Steps

/-- A login with the password in force. -/
def LogsIn (h : Host) (s : Dashboard) (method : Method) (payload : Bytes) : Prop :=
  method = .post ∧ (h.hashPassword (loginPassword h payload)).1 = s.adminPasswordHash

theorem apiAuthLogin_cases (method : Method) (payload : Bytes) (token : HexText) :
    (LogsIn h s method payload ∧ (apiAuthLogin h s method payload token).1 =
      { s with activeTokens := s.activeTokens ++ [token.1] }) ∨
    (¬ LogsIn h s method payload ∧ (apiAuthLogin h s method payload token).1 = s) := by
  unfold apiAuthLogin
  split_ifs with hm hp
  · exact Or.inr ⟨fun hl => hm hl.1, rfl⟩
  · exact Or.inl ⟨⟨not_not.mp hm, hp⟩, rfl⟩
  · exact Or.inr ⟨fun hl => hp hl.2, rfl⟩

/-- A change of the password that passes all checks. -/
def Changes (h : Host) (s : Dashboard) (method : Method) (auth : Option Bytes)
    (payload nw : Bytes) : Prop :=
  method = .post ∧ validateToken s auth = true ∧ nw ≠ [] ∧
    ∃ cur, readChange h payload = .ok (cur, nw) ∧ (h.hashPassword cur).1 = s.adminPasswordHash

theorem apiAuthChangePassword_cases (method : Method) (auth : Option Bytes) (payload : Bytes)
    (saved : Bool) :
    (∃ nw, Changes h s method auth payload nw ∧
      (apiAuthChangePassword h s method auth payload saved).1 =
        { s with
          adminPasswordHash := (h.hashPassword nw).1
          configDir := if saved then saveAdminPassword s.configDir (h.hashPassword nw).1
            else s.configDir }) ∨
    ((∀ nw, ¬ Changes h s method auth payload nw) ∧
      (apiAuthChangePassword h s method auth payload saved).1 = s) := by
  unfold apiAuthChangePassword
  by_cases hm : method = .post
  · by_cases ht : validateToken s auth = false
    · refine Or.inr ⟨fun nw hc => ?_, by simp [hm, ht]⟩
      exact absurd (ht.symm.trans hc.2.1) (by decide)
    · rw [if_neg (not_not.mpr hm), if_neg ht]
      rw [Bool.not_eq_false] at ht
      cases hread : readChange h payload with
      | error e =>
        refine Or.inr ⟨fun nw hc => ?_, rfl⟩
        obtain ⟨cur, hcur, -⟩ := hc.2.2.2
        rw [hread] at hcur
        cases hcur
      | ok x =>
        obtain ⟨cur, nw⟩ := x
        have huniq : ∀ nw', Changes h s method auth payload nw' → nw' = nw ∧
            (h.hashPassword cur).1 = s.adminPasswordHash := by
          rintro nw' ⟨-, -, -, cur', hcur, hh⟩
          rw [hread] at hcur
          obtain ⟨rfl, rfl⟩ := Prod.mk.inj (Except.ok.inj hcur)
          exact ⟨rfl, hh⟩
        dsimp only
        by_cases hcur : (h.hashPassword cur).1 = s.adminPasswordHash
        · rw [if_neg (not_not.mpr hcur)]
          by_cases hnil : nw = []
          · rw [if_pos hnil]
            exact Or.inr ⟨fun nw' hc => hc.2.2.1 ((huniq nw' hc).1.trans hnil), rfl⟩
          · rw [if_neg hnil]
            exact Or.inl ⟨nw, ⟨hm, ht, hnil, cur, hread, hcur⟩, rfl⟩
        · rw [if_pos hcur]
          exact Or.inr ⟨fun nw' hc => hcur (huniq nw' hc).2, rfl⟩
  · exact Or.inr ⟨fun nw hc => hm hc.1, by simp [hm]⟩

/-- A new content for a listed file. -/
def Sets (h : Host) (s : Dashboard) (auth : Option Bytes) (name payload content : Bytes) : Prop :=
  validateToken s auth = true ∧ name ∈ allowedConfigs ∧ readContent h payload = .ok content

theorem apiConfigSet_cases (auth : Option Bytes) (name payload : Bytes) (opens : Bool) :
    (∃ content, Sets h s auth name payload content ∧
      (apiConfigSet h s auth name payload opens).1 =
        { s with configDir := if opens then
            Function.update (backedUp s.configDir name) name (some content)
          else backedUp s.configDir name }) ∨
    ((∀ content, ¬ Sets h s auth name payload content) ∧
      (apiConfigSet h s auth name payload opens).1 = s) := by
  unfold apiConfigSet
  by_cases ht : validateToken s auth = false
  · refine Or.inr ⟨fun content hc => ?_, by simp [ht]⟩
    exact absurd (ht.symm.trans hc.1) (by decide)
  · rw [if_neg ht]
    rw [Bool.not_eq_false] at ht
    by_cases hn : name ∈ allowedConfigs
    · rw [if_neg (not_not.mpr hn)]
      cases hread : readContent h payload with
      | error e =>
        refine Or.inr ⟨fun content hc => ?_, rfl⟩
        have hok := hc.2.2
        rw [hread] at hok
        cases hok
      | ok content =>
        refine Or.inl ⟨content, ⟨ht, hn, hread⟩, ?_⟩
        cases opens <;> rfl
    · exact Or.inr ⟨fun content hc => hn hc.2.1, by simp [hn]⟩

end Steps

section Authority

/-- The header that a request is judged by, where one is asked for. -/
def Request.auth? : Request → Option (Option Bytes)
  | .changePassword .post auth _ _ => some auth
  | .configList auth => some auth
  | .configGet auth _ => some auth
  | .configSet auth _ _ _ => some auth
  | _ => none

/-- The request is a login with the password in force. -/
def Grants (h : Host) (d : Dashboard) (r : Request) (token : Bytes) : Prop :=
  ∃ payload fresh, r = .login .post payload fresh ∧ fresh.1 = token ∧
    (h.hashPassword (loginPassword h payload)).1 = d.adminPasswordHash

/-- A login has been answered with the token since the last restart. -/
def Issued (h : Host) (tr : List (Dashboard × Request)) (token : Bytes) : Prop :=
  ∃ tr₁ x tr₂, tr = tr₁ ++ x :: tr₂ ∧ Grants h x.1 x.2 token ∧ ∀ y ∈ tr₂, y.2 ≠ .restart

theorem issued_snoc {x : Dashboard × Request} {token : Bytes} :
    Issued h (tr ++ [x]) token ↔
      x.2 ≠ .restart ∧ (Issued h tr token ∨ Grants h x.1 x.2 token) := by
  constructor
  · rintro ⟨tr₁, y, tr₂, he, hg, hr⟩
    cases tr₂ using List.reverseRecOn with
    | nil =>
      obtain ⟨-, hy⟩ := List.append_inj' he rfl
      obtain rfl := List.singleton_inj.mp hy
      obtain ⟨payload, fresh, hreq, -⟩ := id hg
      exact ⟨by rw [hreq]; nofun, Or.inr hg⟩
    | append_singleton tr₂ z =>
      rw [← List.cons_append, ← List.append_assoc] at he
      obtain ⟨rfl, hz⟩ := List.append_inj' he rfl
      obtain rfl := List.singleton_inj.mp hz
      exact ⟨hr x (by simp), Or.inl ⟨tr₁, y, tr₂, rfl, hg, fun w hw => hr w (by simp [hw])⟩⟩
  · rintro ⟨hne, ⟨tr₁, y, tr₂, rfl, hg, hr⟩ | hg⟩
    · refine ⟨tr₁, y, tr₂ ++ [x], by simp, hg, fun w hw => ?_⟩
      rcases List.mem_append.mp hw with hw | hw
      · exact hr w hw
      · exact List.mem_singleton.mp hw ▸ hne
    · exact ⟨tr, x, [], rfl, hg, by simp⟩

/-- Tokens come by logins and go by restarts. -/
theorem mem_tokens_step {r : Request} {token : Bytes} :
    token ∈ (perform h s r).1.activeTokens ↔
      r ≠ .restart ∧ (token ∈ s.activeTokens ∨ Grants h s r token) := by
  have hother : ∀ (hl : ∀ method payload fresh, r ≠ .login method payload fresh),
      ¬ Grants h s r token := by
    rintro hl ⟨payload, fresh, he, -⟩
    exact hl _ _ _ he
  cases r with
  | login method payload fresh =>
    rw [perform]
    rcases apiAuthLogin_cases (h := h) (s := s) method payload fresh with ⟨hl, he⟩ | ⟨hl, he⟩
    · rw [he]
      simp only [List.mem_append, List.mem_singleton, ne_eq, reduceCtorEq, not_false_eq_true, true_and]
      refine or_congr_right ⟨fun ht => ⟨payload, fresh, by rw [hl.1], ht.symm, hl.2⟩, ?_⟩
      rintro ⟨p, f, hreq, hf, -⟩
      obtain ⟨-, -, rfl⟩ := Request.login.inj hreq
      exact hf.symm
    · have hno : ¬ Grants h s (.login method payload fresh) token := by
        rintro ⟨p, f, hreq, -, hp⟩
        obtain ⟨rfl, rfl, -⟩ := Request.login.inj hreq
        exact hl ⟨rfl, hp⟩
      simp [he, hno]
  | changePassword method auth payload saved =>
    rw [perform]
    rcases apiAuthChangePassword_cases (h := h) (s := s) method auth payload saved with
      ⟨nw, -, he⟩ | ⟨-, he⟩ <;> simp [he, hother]
  | configList auth => simp [perform, hother]
  | configGet auth name => simp [perform, hother]
  | configSet auth name payload opens =>
    rw [perform]
    rcases apiConfigSet_cases (h := h) (s := s) auth name payload opens with
      ⟨content, -, he⟩ | ⟨-, he⟩ <;> simp [he, hother]
  | restart => simp [perform, start]

theorem mem_tokens (hr : Run (dashboard h dir) tr s) (token : Bytes) :
    token ∈ s.activeTokens ↔ Issued h tr token := by
  induction hr with
  | init hi =>
    obtain rfl := hi
    refine iff_of_false (by simp [start]) ?_
    rintro ⟨tr₁, x, tr₂, he, -⟩
    simp at he
  | @step tr d r t _ hs ih =>
    obtain rfl := hs
    rw [issued_snoc, mem_tokens_step, ih]

theorem answerJson_status (j : Json) (e : Json → Bytes) :
    (handled (answerJson e j)).status ≠ 401 := by
  rcases @handled_answerJson e j with hs | hs <;> rw [hs] <;> decide

theorem statusError_status {status : ℕ} (hs : status ≠ 401) (error : Bytes) :
    (handled (statusError h status error)).status ≠ 401 := by
  unfold statusError answerJson
  split
  · exact hs
  · exact (by decide : (500 : ℕ) ≠ 401)

/-- A request that is asked for a token is refused with 401 exactly where it has none. -/
theorem perform_status {r : Request} {auth : Option Bytes} (ha : r.auth? = some auth) :
    (handled (perform h s r).2).status ≠ 401 ↔ validateToken s auth = true := by
  have hrefused : validateToken s auth = false →
      handled (.ok unauthorized) = (handled (perform h s r).2) := by
    intro ht
    cases r with
    | changePassword method a payload saved =>
      cases method <;> simp only [Request.auth?, reduceCtorEq, Option.some.injEq] at ha
      subst ha
      simp [perform, apiAuthChangePassword, ht]
    | configList a =>
      obtain rfl := Option.some.inj ha
      simp [perform, apiConfigList, ht]
    | configGet a name =>
      obtain rfl := Option.some.inj ha
      simp [perform, apiConfigGet, ht]
    | configSet a name payload opens =>
      obtain rfl := Option.some.inj ha
      simp [perform, apiConfigSet, ht]
    | _ => cases ha
  cases ht : validateToken s auth with
  | false =>
    rw [← hrefused ht]
    exact iff_of_false (fun hne => hne rfl) (by decide)
  | true =>
    refine iff_of_true ?_ rfl
    cases r with
    | changePassword method a payload saved =>
      cases method <;> simp only [Request.auth?, reduceCtorEq, Option.some.injEq] at ha
      subst ha
      simp only [perform, apiAuthChangePassword, ht, ne_eq, not_true_eq_false, if_false,
        Bool.true_eq_false]
      cases readChange h payload with
      | error e => exact (by decide : (400 : ℕ) ≠ 401)
      | ok x =>
        dsimp only
        by_cases hcur : (h.hashPassword x.1).1 = s.adminPasswordHash
        · rw [if_neg (not_not.mpr hcur)]
          by_cases hnil : x.2 = []
          · simp only [if_pos hnil]
            exact statusError_status (by decide) _
          · simp only [if_neg hnil]
            exact answerJson_status _ _
        · simp only [hcur, not_false_eq_true, if_true]
          exact statusError_status (by decide) _
    | configList a =>
      obtain rfl := Option.some.inj ha
      simp only [perform, apiConfigList, ht, Bool.true_eq_false, if_false]
      exact answerJson_status _ _
    | configGet a name =>
      obtain rfl := Option.some.inj ha
      simp only [perform, apiConfigGet, ht, Bool.true_eq_false, if_false]
      by_cases hn : name ∈ allowedConfigs
      · rw [if_neg (not_not.mpr hn)]
        cases s.configDir name with
        | some content => exact answerJson_status _ _
        | none => exact answerJson_status _ _
      · rw [if_pos hn]
        exact (by decide : (403 : ℕ) ≠ 401)
    | configSet a name payload opens =>
      obtain rfl := Option.some.inj ha
      simp only [perform, apiConfigSet, ht, Bool.true_eq_false, if_false]
      by_cases hn : name ∈ allowedConfigs
      · rw [if_neg (not_not.mpr hn)]
        cases readContent h payload with
        | error e => exact (by decide : (400 : ℕ) ≠ 401)
        | ok content =>
          cases opens
          · simp only [Bool.false_eq_true, if_false]
            exact statusError_status (by decide) _
          · exact answerJson_status _ _
      · rw [if_pos hn]
        exact (by decide : (403 : ℕ) ≠ 401)
    | _ => cases ha

theorem validateToken_iff {auth : Option Bytes} :
    validateToken s auth = true ↔ ∃ token, auth = some (bearer ++ token) ∧ token ∈ s.activeTokens := by
  cases auth with
  | none => simp [validateToken]
  | some hdr =>
    have hlen : bearer.length = 7 := by decide
    rw [validateToken, decide_eq_true_iff]
    constructor
    · rintro ⟨htake, hdrop⟩
      refine ⟨hdr.drop 7, ?_, hdrop⟩
      rw [← htake, List.take_append_drop]
    · rintro ⟨token, he, ht⟩
      obtain rfl := Option.some.inj he
      rw [← hlen, List.take_left, List.drop_left]
      exact ⟨rfl, ht⟩

/-- Over any run, a request is let through exactly if its header has a token that a login with the
password of its time has been given since the last restart. -/
theorem authorized_iff (hr : Run (dashboard h dir) tr s) {r : Request} {auth : Option Bytes}
    (ha : r.auth? = some auth) :
    (handled (perform h s r).2).status ≠ 401 ↔
      ∃ token, auth = some (bearer ++ token) ∧ Issued h tr token := by
  rw [perform_status ha, validateToken_iff]
  simp only [mem_tokens hr]

/-- A host whose passwords are told apart by their lengths. -/
def sampleHost : Host where
  hashPassword pw := ⟨List.replicate pw.length 0x61, by
    intro b hb
    rw [List.eq_of_mem_replicate hb]
    decide⟩
  readFloat _ := none
  dumpError _ := []

def sampleToken : HexText := ⟨bytes "0a", by decide⟩

def sampleLogin : Request := .login .post (bytes "admin") sampleToken

theorem sample_run (r : Request) : Run (dashboard sampleHost fun _ => none)
    ([(start sampleHost fun _ => none, sampleLogin)] ++
      [((perform sampleHost (start sampleHost fun _ => none) sampleLogin).1, r)])
    (perform sampleHost (perform sampleHost (start sampleHost fun _ => none) sampleLogin).1 r).1 :=
  .step (@Run.step _ _ _ [] _ _ _ (.init rfl) rfl) rfl

theorem authorized_iff_sample :
    (handled (perform sampleHost
      (perform sampleHost (start sampleHost fun _ => none) sampleLogin).1
      (.configList (some (bearer ++ sampleToken.1)))).2).status ≠ 401 := by
  have hr : Run (dashboard sampleHost fun _ => none)
      [(start sampleHost fun _ => none, sampleLogin)] _ := @Run.step _ _ _ [] _ _ _ (.init rfl) rfl
  refine (authorized_iff hr rfl).mpr ⟨sampleToken.1, rfl, [], _, [], rfl, ?_, by simp⟩
  exact ⟨bytes "admin", sampleToken, rfl, rfl, by decide⟩

end Authority

section Password

theorem hex_valid (hash : HexText) : Utf8.valid hash.1 = true := by
  have hascii : ∀ b ∈ bytes "0123456789abcdef", b ≤ 0x7F := by decide
  exact Utf8.valid_ascii fun b hb => hascii b (hash.2 b hb)

/-- A saved hash is what is loaded again. -/
theorem load_save (dir : ConfigDir) (hash : HexText) :
    loadAdminPassword h (saveAdminPassword dir hash.1) = hash.1 := by
  have hkey : Utf8.valid (bytes "password_hash") = true := by decide
  have hstorable : Storable h.readFloat (.obj [(bytes "password_hash", .str hash.1)]) :=
    ⟨List.pairwise_singleton _ _, hkey, hex_valid hash, trivial⟩
  have hread := readStream_render (whiteLayout_indented 2) hstorable white_nil
  rw [List.append_nil] at hread
  have hobj : Json.object [(bytes "password_hash", .str hash.1)] =
      .obj [(bytes "password_hash", .str hash.1)] := rfl
  have hdump := dumpWith_utf8 (indented 2) hstorable.utf8
  simp only [saveAdminPassword, dumpIndent, hobj, hdump, loadAdminPassword, Function.update_self,
    hread, Except.bind, Json.valueString, Json.value, List.lookup_cons, beq_self_eq_true,
    Json.getString]

/-- A restart in this state brings the same password back. -/
def RestartKeeps (h : Host) (s : Dashboard) : Prop :=
  (start h s.configDir).adminPasswordHash = s.adminPasswordHash

/-- A change of the password is saved, or changes nothing. -/
def SavesChange (h : Host) (s : Dashboard) (r : Request) : Prop :=
  ∀ method auth payload saved nw, r = .changePassword method auth payload saved →
    Changes h s method auth payload nw → saved = true ∨ (h.hashPassword nw).1 = s.adminPasswordHash

theorem allowed_names : ∀ name ∈ allowedConfigs,
    name ≠ adminPwFile ∧ backupName name ≠ adminPwFile ∧ backupName name ∉ allowedConfigs := by
  decide

theorem backedUp_of_ne {name p : Bytes} (hp : p ≠ backupName name) :
    backedUp dir name p = dir p := by
  cases hd : dir name with
  | some old =>
    simp only [backedUp, hd]
    exact Function.update_of_ne hp _ _
  | none => simp only [backedUp, hd]

theorem load_congr {dir dir' : ConfigDir} (hd : dir' adminPwFile = dir adminPwFile) :
    loadAdminPassword h dir' = loadAdminPassword h dir := by
  unfold loadAdminPassword
  rw [hd]

theorem restartKeeps_step (hs : RestartKeeps h s) (r : Request) :
    RestartKeeps h (perform h s r).1 ↔ SavesChange h s r := by
  have hnone : (∀ method auth payload saved, r ≠ .changePassword method auth payload saved) →
      SavesChange h s r := by
    intro hne method auth payload saved nw he
    exact absurd he (hne method auth payload saved)
  cases r with
  | login method payload fresh =>
    refine iff_of_true ?_ (hnone (by simp))
    rw [perform]
    rcases apiAuthLogin_cases (h := h) (s := s) method payload fresh with ⟨-, he⟩ | ⟨-, he⟩
    · rw [he]
      exact hs
    · rw [he]
      exact hs
  | changePassword method auth payload saved =>
    rw [perform]
    rcases apiAuthChangePassword_cases (h := h) (s := s) method auth payload saved with
      ⟨nw, hc, he⟩ | ⟨hno, he⟩
    · have hiff : SavesChange h s (.changePassword method auth payload saved) ↔
          saved = true ∨ (h.hashPassword nw).1 = s.adminPasswordHash := by
        constructor
        · exact fun hp => hp method auth payload saved nw rfl hc
        · rintro hp m a p sv nw' hreq hc'
          obtain ⟨rfl, rfl, rfl, rfl⟩ := Request.changePassword.inj hreq
          obtain ⟨-, -, -, cur, hread, -⟩ := hc
          obtain ⟨-, -, -, cur', hread', -⟩ := hc'
          rw [hread] at hread'
          obtain ⟨-, rfl⟩ := Prod.mk.inj (Except.ok.inj hread')
          exact hp
      rw [hiff, he, RestartKeeps]
      cases saved with
      | true =>
        rw [if_pos rfl]
        exact iff_of_true (load_save _ _) (Or.inl rfl)
      | false =>
        have hload : (start h s.configDir).adminPasswordHash = s.adminPasswordHash := hs
        simp only [Bool.false_eq_true, if_false, false_or, hload]
        exact eq_comm
    · rw [he]
      refine iff_of_true hs ?_
      rintro m a p sv nw hreq hc
      obtain ⟨rfl, rfl, rfl, rfl⟩ := Request.changePassword.inj hreq
      exact absurd hc (hno nw)
  | configList auth => exact iff_of_true hs (hnone (by simp))
  | configGet auth name => exact iff_of_true hs (hnone (by simp))
  | configSet auth name payload opens =>
    refine iff_of_true ?_ (hnone (by simp))
    rw [perform]
    rcases apiConfigSet_cases (h := h) (s := s) auth name payload opens with
      ⟨content, hc, he⟩ | ⟨-, he⟩
    · obtain ⟨hne, hbak, -⟩ := allowed_names name hc.2.1
      have hback : backedUp s.configDir name adminPwFile = s.configDir adminPwFile :=
        backedUp_of_ne hbak.symm
      rw [he, RestartKeeps]
      refine Eq.trans (load_congr ?_) hs
      dsimp only
      split_ifs
      · rw [Function.update_of_ne hne.symm, hback]
      · exact hback
    · rw [he]
      exact hs
  | restart => exact iff_of_true rfl (hnone (by simp))

/-- A restart never brings an old password back exactly if every change could be saved. -/
theorem restart_keeps_password_iff (hr : Run (dashboard h dir) tr s) :
    ((∀ x ∈ tr, RestartKeeps h x.1) ∧ RestartKeeps h s) ↔ ∀ x ∈ tr, SavesChange h x.1 x.2 := by
  apply hr.invariant_iff
  · rintro d rfl
    rfl
  · rintro d r t hd rfl
    exact restartKeeps_step hd r

theorem restart_keeps_password_sample :
    RestartKeeps sampleHost (perform sampleHost
      (perform sampleHost (start sampleHost fun _ => none) sampleLogin).1
      (.changePassword .post (some (bearer ++ sampleToken.1))
        (bytes "\x7b\"current_password\":\"admin\",\"new_password\":\"secret\"\x7d") true)).1 := by
  refine ((restart_keeps_password_iff (sample_run _)).mpr ?_).2
  rintro x hx method auth payload saved p he -
  simp only [List.cons_append, List.nil_append, List.mem_cons, List.not_mem_nil, or_false] at hx
  rcases hx with rfl | rfl
  · cases he
  · exact Or.inl (Request.changePassword.inj he).2.2.2.symm

end Password

section Versions

variable {name : Bytes}

/-- The content that a request writes to a file. -/
def writes (h : Host) (name : Bytes) (x : Dashboard × Request) : Option Bytes :=
  match x.2 with
  | .configSet auth n payload opens =>
    if validateToken x.1 auth = true ∧ n = name ∧ opens = true then (readContent h payload).toOption
    else none
  | _ => none

/-- What a file has held, from the start of the run on. -/
def versions (h : Host) (dir : ConfigDir) (name : Bytes) (tr : List (Dashboard × Request)) :
    List Bytes :=
  (dir name).toList ++ tr.filterMap (writes h name)

/-- The disk lets the request open the file that it writes. -/
def Opens (r : Request) : Prop :=
  ∀ auth name payload opens, r = .configSet auth name payload opens → opens = true

/-- The file has the last version, its backup the one before. -/
structure Current (h : Host) (dir : ConfigDir) (name : Bytes) (tr : List (Dashboard × Request))
    (s : Dashboard) : Prop where
  file : s.configDir name = (versions h dir name tr).getLast?
  backup : s.configDir (backupName name) =
    (versions h dir name tr).dropLast.getLast?.or (dir (backupName name))

theorem allowed_files : ∀ name ∈ allowedConfigs, ∀ other ∈ allowedConfigs,
    name ≠ backupName other ∧ (backupName name = backupName other → name = other) := by
  decide

theorem saveAdminPassword_of_ne {p hash : Bytes} (hp : p ≠ adminPwFile) :
    saveAdminPassword dir hash p = dir p := by
  unfold saveAdminPassword
  cases dumpIndent 2 (.object [(bytes "password_hash", .str hash)]) with
  | ok text => exact Function.update_of_ne hp _ _
  | error e => rfl

/-- Where a file is not written, it and its backup stay. -/
theorem config_frame (hname : name ∈ allowedConfigs) {r : Request}
    (hw : ∀ auth payload opens, r ≠ .configSet auth name payload opens) :
    (perform h s r).1.configDir name = s.configDir name ∧
      (perform h s r).1.configDir (backupName name) = s.configDir (backupName name) := by
  obtain ⟨hadmin, hbak, -⟩ := allowed_names name hname
  cases r with
  | login method payload fresh =>
    rw [perform]
    rcases apiAuthLogin_cases (h := h) (s := s) method payload fresh with ⟨-, he⟩ | ⟨-, he⟩ <;>
      rw [he] <;> exact ⟨rfl, rfl⟩
  | changePassword method auth payload saved =>
    rw [perform]
    rcases apiAuthChangePassword_cases (h := h) (s := s) method auth payload saved with
      ⟨nw, -, he⟩ | ⟨-, he⟩
    · rw [he]
      cases saved with
      | true => exact ⟨saveAdminPassword_of_ne hadmin, saveAdminPassword_of_ne hbak⟩
      | false => exact ⟨rfl, rfl⟩
    · rw [he]
      exact ⟨rfl, rfl⟩
  | configList auth => exact ⟨rfl, rfl⟩
  | configGet auth name => exact ⟨rfl, rfl⟩
  | configSet auth other payload opens =>
    rw [perform]
    have hne : name ≠ other := by
      rintro rfl
      exact hw _ _ _ rfl
    rcases apiConfigSet_cases (h := h) (s := s) auth other payload opens with
      ⟨content, hc, he⟩ | ⟨-, he⟩
    · obtain ⟨hfile, hback⟩ := allowed_files name hname other hc.2.1
      obtain ⟨hfile', -⟩ := allowed_files other hc.2.1 name hname
      have hbackne : backupName name ≠ backupName other := fun hb => hne (hback hb)
      rw [he]
      cases opens
      · exact ⟨backedUp_of_ne hfile, backedUp_of_ne hbackne⟩
      · exact ⟨(Function.update_of_ne hne _ _).trans (backedUp_of_ne hfile),
          (Function.update_of_ne hfile'.symm _ _).trans (backedUp_of_ne hbackne)⟩
    · rw [he]
      exact ⟨rfl, rfl⟩
  | restart => exact ⟨rfl, rfl⟩

theorem current_step (hname : name ∈ allowedConfigs) (hc : Current h dir name tr s) {r : Request}
    (ho : Opens r) : Current h dir name (tr ++ [(s, r)]) (perform h s r).1 := by
  have hver : versions h dir name (tr ++ [(s, r)]) =
      versions h dir name tr ++ (writes h name (s, r)).toList := by
    rw [versions, List.filterMap_append, ← List.append_assoc]
    cases hw : writes h name (s, r) <;> simp [versions, hw]
  have hquiet : writes h name (s, r) = none →
      (perform h s r).1.configDir name = s.configDir name →
      (perform h s r).1.configDir (backupName name) = s.configDir (backupName name) →
      Current h dir name (tr ++ [(s, r)]) (perform h s r).1 := by
    intro hn hf hb
    rw [hn, Option.toList_none, List.append_nil] at hver
    exact ⟨by rw [hver, hf, hc.file], by rw [hver, hb, hc.backup]⟩
  by_cases hset : ∃ auth payload opens, r = .configSet auth name payload opens
  · obtain ⟨auth, payload, opens, rfl⟩ := hset
    obtain rfl := ho _ _ _ _ rfl
    rcases apiConfigSet_cases (h := h) (s := s) auth name payload true with
      ⟨content, hsets, he⟩ | ⟨hno, he⟩
    · have hw : writes h name (s, .configSet auth name payload true) = some content := by
        simp [writes, hsets.1, hsets.2.2, Except.toOption]
      obtain ⟨hfile, -⟩ := allowed_files name hname name hname
      rw [hw, Option.toList_some] at hver
      have hdir : (perform h s (.configSet auth name payload true)).1.configDir =
          Function.update (backedUp s.configDir name) name (some content) := by
        rw [perform, he]
        rfl
      refine ⟨?_, ?_⟩
      · rw [hdir, Function.update_self, hver, List.getLast?_concat]
      · rw [hdir, Function.update_of_ne hfile.symm, hver, List.dropLast_concat, ← hc.file]
        cases hold : s.configDir name with
        | some old =>
          simp only [backedUp, hold, Function.update_self]
          rfl
        | none =>
          have hnil : versions h dir name tr = [] := by
            rw [← List.getLast?_eq_none_iff, ← hc.file, hold]
          simp only [backedUp, hold]
          rw [hc.backup, hnil]
          rfl
    · have hw : writes h name (s, .configSet auth name payload true) = none := by
        unfold writes
        dsimp only
        split_ifs with hcond
        · cases hread : readContent h payload with
          | ok content => exact absurd ⟨hcond.1, hname, hread⟩ (hno content)
          | error e => rfl
        · rfl
      have hsame : (perform h s (.configSet auth name payload true)).1 = s := he
      exact hquiet hw (by rw [hsame]) (by rw [hsame])
  · have hother : ∀ auth payload opens, r ≠ .configSet auth name payload opens :=
      fun auth payload opens he => hset ⟨auth, payload, opens, he⟩
    obtain ⟨hf, hb⟩ := config_frame (h := h) (s := s) hname hother
    refine hquiet ?_ hf hb
    unfold writes
    cases r with
    | configSet auth other payload opens =>
      apply if_neg
      rintro ⟨-, rfl, -⟩
      exact hother _ _ _ rfl
    | _ => rfl

/-- Over any run whose files open, a listed file holds what was last set with a token, or what it
held at the start, and its backup what it held before. -/
theorem config_versions (hr : Run (dashboard h dir) tr s) (hname : name ∈ allowedConfigs)
    (ho : ∀ x ∈ tr, Opens x.2) : Current h dir name tr s := by
  induction hr with
  | init hi =>
    obtain rfl := hi
    refine ⟨?_, ?_⟩
    · cases hd : dir name <;> simp [versions, start, hd]
    · cases hd : dir name <;> simp [versions, start, hd]
  | @step tr d r t _ hs ih =>
    obtain rfl := hs
    exact current_step hname (ih fun x hx => ho x (List.mem_append_left _ hx))
      (ho (d, r) (List.mem_append_right _ List.mem_cons_self))

theorem config_versions_sample :
    Current sampleHost (fun _ => none) (bytes "llm_config.json")
      ([(start sampleHost fun _ => none, sampleLogin)] ++
        [((perform sampleHost (start sampleHost fun _ => none) sampleLogin).1,
          .configSet (some (bearer ++ sampleToken.1)) (bytes "llm_config.json")
            (bytes "\x7b\"content\":\"1\"\x7d") true)])
      (perform sampleHost (perform sampleHost (start sampleHost fun _ => none) sampleLogin).1
        (.configSet (some (bearer ++ sampleToken.1)) (bytes "llm_config.json")
          (bytes "\x7b\"content\":\"1\"\x7d") true)).1 := by
  refine config_versions (sample_run _) (by decide) ?_
  rintro x hx auth name p opens he
  simp only [List.cons_append, List.nil_append, List.mem_cons, List.not_mem_nil, or_false] at hx
  rcases hx with rfl | rfl
  · cases he
  · exact (Request.configSet.inj he).2.2.2.symm

end Versions

end DashboardAuth
