import TizenClaw.KeyStore

/-! What becomes of a configuration when its keys are encrypted: which keys are replaced, that
nothing else is, and what happens to the file. -/
namespace KeyProtection

open ByteString JsonValue JsonDump JsonRoundTrip JsonStorable JsonUpdate KeyStore

section Keys

/-- The keys of some backends. -/
def keysOf (backends : List Json) : List Json := backends.filterMap (Json.member? (bytes "api_key"))

/-- The keys of the backends of a configuration. -/
def apiKeys (config : Json) : List Json :=
  keysOf ((config.member? (bytes "backends")).elim [] Json.elements)

/-- The configurations differ at most in the keys of backends, where a relation holds. -/
def AtApiKeys (R : Json → Json → Prop) : Json → Json → Prop :=
  AtMember (bytes "backends") (AtElements (AtMember (bytes "api_key") R))

variable {R R' : Json → Json → Prop} {config config' backends backend v : Json}

theorem mem_apiKeys : v ∈ apiKeys config ↔ ∃ backends, config.member? (bytes "backends") =
    some backends ∧ ∃ backend ∈ backends.elements, backend.member? (bytes "api_key") = some v := by
  unfold apiKeys keysOf
  rw [List.mem_filterMap]
  cases config.member? (bytes "backends") with
  | none => simp
  | some backends => simp

theorem AtApiKeys.mono (h : AtApiKeys R config config')
    (hsub : ∀ v ∈ apiKeys config, ∀ v', R v v' → R' v v') : AtApiKeys R' config config' := by
  refine AtMember.mono h fun backends hbackends _ helements => ?_
  refine helements.mono fun backend hbackend _ hmember => ?_
  exact hmember.mono fun v hv => hsub v (mem_apiKeys.mpr ⟨_, hbackends, _, hbackend, hv⟩)

theorem AtApiKeys.and (h : AtApiKeys R config config') (h' : AtApiKeys R' config config') :
    AtApiKeys (fun a b => R a b ∧ R' a b) config config' := by
  refine (AtMember.and h h').mono fun _ _ _ helements => ?_
  refine (helements.1.and helements.2).mono fun _ _ _ hmember => ?_
  exact hmember.1.and hmember.2

theorem AtApiKeys.left (h : AtApiKeys R config config') (hv : v ∈ apiKeys config) :
    ∃ v' ∈ apiKeys config', R v v' := by
  obtain ⟨backends, hbackends, backend, hbackend, hv⟩ := mem_apiKeys.mp hv
  obtain ⟨backends', hbackends', helements⟩ := AtMember.left h hbackends
  obtain ⟨backend', hbackend', hmember⟩ := helements.left hbackend
  obtain ⟨v', hv', hr⟩ := hmember.left hv
  exact ⟨v', mem_apiKeys.mpr ⟨_, hbackends', _, hbackend', hv'⟩, hr⟩

theorem AtApiKeys.right (h : AtApiKeys R config config') (hv : v ∈ apiKeys config') :
    ∃ u ∈ apiKeys config, R u v := by
  obtain ⟨backends', hbackends', backend', hbackend', hv⟩ := mem_apiKeys.mp hv
  obtain ⟨backends, hbackends, helements⟩ := AtMember.right h hbackends'
  obtain ⟨backend, hbackend, hmember⟩ := helements.right hbackend'
  obtain ⟨u, hu, hr⟩ := hmember.right hv
  exact ⟨u, mem_apiKeys.mpr ⟨_, hbackends, _, hbackend, hu⟩, hr⟩

theorem AtApiKeys.refl (h : ∀ v ∈ apiKeys config, R v v) : AtApiKeys R config config := by
  refine AtMember.refl fun backends hbackends => ?_
  refine AtElements.refl fun backend hbackend => ?_
  exact AtMember.refl fun v hv => h v (mem_apiKeys.mpr ⟨_, hbackends, _, hbackend, hv⟩)

end Keys

section Step

variable (sha256 : Bytes → Digest) (base64 : Base64Library) (keyFile : Option Bytes)

/-- What the code does to a key. -/
def Encrypted (v v' : Json) : Prop :=
  ∃ s, v = .str s ∧ if plain s then
    ∃ nonce, v' = .str (encrypt sha256 base64 keyFile nonce s) else v' = v

def plainKey : Json → Bool
  | .str s => plain s
  | _ => false

variable {sha256 base64 keyFile} {readFloat : Bytes → Option NumberText} {nonce : Nonce}
  {nonces : ℕ → Nonce} {backend config : Json} {l : List Json}

theorem encrypted_of_not_plain {v : Json} (hv : ∃ s, v = .str s) (h : plainKey v = false) :
    Encrypted sha256 base64 keyFile v v := by
  obtain ⟨s, rfl⟩ := hv
  refine ⟨s, rfl, ?_⟩
  have hp : plain s = false := h
  rw [hp, if_neg Bool.false_ne_true]

theorem getString_ok {v : Json} {s : Bytes} (h : v.getString = .ok s) : v = .str s := by
  cases v with
  | str t => rw [Except.ok.inj h]
  | _ => cases h

/-- The keys that are strings are what the loop can go through. -/
theorem encryptBackend_total :
    Succeeds (encryptBackend sha256 base64 keyFile nonce backend) ↔
      ∀ v ∈ backend.member? (bytes "api_key"), ∃ s, v = .str s := by
  unfold encryptBackend
  cases hv : backend.member? (bytes "api_key") with
  | none => simp
  | some v =>
    cases v with
    | str s =>
      refine iff_of_true ?_ fun v hv => ⟨s, (Option.some.inj hv).symm⟩
      simp only [Json.getString, Except.bind]
      split_ifs
      · cases backend with
        | obj m => exact ⟨_, rfl⟩
        | _ => cases hv
      · exact ⟨_, rfl⟩
    | _ =>
      refine iff_of_false (succeeds_error _) fun h => ?_
      obtain ⟨s, hs⟩ := h _ rfl
      cases hs

/-- What becomes of a backend. -/
theorem encryptBackend_ok (hs : Storable readFloat backend) {r : Json × Bool}
    (h : encryptBackend sha256 base64 keyFile nonce backend = .ok r) :
    AtMember (bytes "api_key") (Encrypted sha256 base64 keyFile) backend r.1 ∧
      Storable readFloat r.1 ∧ r.2 = (keysOf [backend]).any plainKey := by
  unfold encryptBackend at h
  cases hv : backend.member? (bytes "api_key") with
  | none =>
    rw [hv] at h
    obtain rfl := Except.ok.inj h
    refine ⟨.refl fun v h => ?_, hs, ?_⟩
    · rw [hv] at h
      cases h
    · simp [keysOf, hv]
  | some v =>
    rw [hv] at h
    obtain ⟨s, hstr, hresult⟩ := bind_eq_ok.mp h
    obtain rfl := getString_ok hstr
    have hchanged : plain s = (keysOf [backend]).any plainKey := by simp [keysOf, hv, plainKey]
    by_cases hp : plain s = true
    · rw [if_pos hp] at hresult
      obtain ⟨backend', hassign, rfl⟩ := map_eq_ok.mp hresult
      cases backend with
      | obj m =>
        obtain rfl := Except.ok.inj hassign
        have hkey := OrderedMap.mem_of_lookup hv
        have hentry := storableMembers_iff.mp hs.2 _ hkey
        refine ⟨atMember_insert hs.1 hv ⟨s, rfl, ?_⟩, ?_, hp.symm.trans hchanged⟩
        · rw [if_pos hp]
          exact ⟨nonce, rfl⟩
        · exact storable_insert hentry.1 (encrypt_valid nonce hentry.2) hs
      | _ => cases hv
    · rw [Bool.not_eq_true] at hp
      rw [hp, if_neg Bool.false_ne_true] at hresult
      obtain rfl := Except.ok.inj hresult
      refine ⟨.refl fun v h => ?_, hs, hp.symm.trans hchanged⟩
      obtain rfl := Option.some.inj (hv.symm.trans h)
      exact encrypted_of_not_plain ⟨s, rfl⟩ hp

theorem keysOf_cons (b : Json) (l : List Json) : keysOf (b :: l) = keysOf [b] ++ keysOf l := by
  rw [keysOf, keysOf, keysOf, ← List.filterMap_append, List.singleton_append]

theorem mem_keysOf_singleton {v : Json} :
    v ∈ keysOf [backend] ↔ v ∈ backend.member? (bytes "api_key") := by
  simp [keysOf]

theorem encryptBackends_total : Succeeds (encryptBackends sha256 base64 keyFile nonces l) ↔
    ∀ v ∈ keysOf l, ∃ s, v = .str s := by
  induction l generalizing nonces with
  | nil => exact iff_of_true ⟨_, rfl⟩ fun v hv => absurd hv List.not_mem_nil
  | cons b l ih =>
    rw [encryptBackends, succeeds_bind, keysOf_cons, List.forall_mem_append]
    simp only [succeeds_map, ih, mem_keysOf_singleton]
    rw [← encryptBackend_total, exists_and_right]
    rfl

/-- What becomes of the backends, by induction along the loop. -/
theorem encryptBackends_ok (hs : ∀ b ∈ l, Storable readFloat b) {r : List Json × Bool}
    (h : encryptBackends sha256 base64 keyFile nonces l = .ok r) :
    List.Forall₂ (AtMember (bytes "api_key") (Encrypted sha256 base64 keyFile)) l r.1 ∧
      (∀ b ∈ r.1, Storable readFloat b) ∧ r.2 = (keysOf l).any plainKey := by
  induction l generalizing nonces r with
  | nil =>
    obtain rfl := Except.ok.inj h
    exact ⟨.nil, hs, rfl⟩
  | cons b l ih =>
    rw [List.forall_mem_cons] at hs
    obtain ⟨first, hfirst, hmap⟩ := bind_eq_ok.mp h
    obtain ⟨others, hothers, rfl⟩ := map_eq_ok.mp hmap
    obtain ⟨hmember, hstorable, hchanged⟩ := encryptBackend_ok hs.1 hfirst
    obtain ⟨hmembers, hall, hany⟩ := ih hs.2 hothers
    refine ⟨.cons hmember hmembers, List.forall_mem_cons.mpr ⟨hstorable, hall⟩, ?_⟩
    rw [keysOf_cons, List.any_append, ← hchanged, ← hany]

theorem encryptKeys_total : Succeeds (encryptKeys sha256 base64 keyFile nonces config) ↔
    ∀ v ∈ apiKeys config, ∃ s, v = .str s := by
  unfold encryptKeys apiKeys
  cases hb : config.member? (bytes "backends") with
  | none => exact iff_of_true ⟨_, rfl⟩ fun v hv => absurd hv List.not_mem_nil
  | some backends =>
    cases config with
    | obj m =>
      have hbackends : Succeeds (encryptBackends sha256 base64 keyFile nonces backends.elements) ↔
          ∀ v ∈ keysOf backends.elements, ∃ s, v = .str s := encryptBackends_total
      dsimp only
      rw [succeeds_bind, Option.elim_some, ← hbackends]
      simp only [succeeds_map, Json.assign, succeeds_ok, and_true]
      rfl
    | _ => cases hb

/-- What becomes of a configuration. -/
theorem encryptKeys_ok (hs : Storable readFloat config) {r : Json × Bool}
    (h : encryptKeys sha256 base64 keyFile nonces config = .ok r) :
    AtApiKeys (Encrypted sha256 base64 keyFile) config r.1 ∧ Storable readFloat r.1 ∧
      r.2 = (apiKeys config).any plainKey := by
  unfold encryptKeys at h
  unfold apiKeys
  cases hb : config.member? (bytes "backends") with
  | none =>
    rw [hb] at h
    obtain rfl := Except.ok.inj h
    refine ⟨AtMember.refl fun v hv => ?_, hs, rfl⟩
    rw [hb] at hv
    cases hv
  | some backends =>
    rw [hb] at h
    obtain ⟨changed, hchanged, hresult⟩ := bind_eq_ok.mp h
    obtain ⟨config', hassign, rfl⟩ := map_eq_ok.mp hresult
    have hbackends := Storable.member hs hb
    obtain ⟨hmembers, hall, hany⟩ := encryptBackends_ok (storable_elements hbackends) hchanged
    cases config with
    | obj m =>
      obtain rfl := Except.ok.inj hassign
      have hkey := storableMembers_iff.mp hs.2 _ (OrderedMap.mem_of_lookup hb)
      have hset := storable_setElements hbackends hmembers.length_eq.symm hall
      have helements := atElements_set hmembers fun x y hxy => hxy.eq_of_not_obj
      exact ⟨atMember_insert hs.1 hb helements, storable_insert hkey.1 hset hs, hany⟩
    | _ => cases hb

end Step

section File

variable (sha256 : Bytes → Digest) (base64 : Base64Library) (keyFile : Option Bytes)
  (readFloat : Bytes → Option NumberText)

/-- A file with a configuration. -/
def Holds (file : Option Bytes) (config : Json) : Prop :=
  ∃ content ∈ file, readStream readFloat content = .ok config

/-- What `EncryptConfig` leaves and reports. -/
inductive Outcome (writable : Bool) (file : Option Bytes) :
    Option Bytes × Except JsonException Bool → Prop where
  | unread : (∀ config, ¬ Holds readFloat file config) → Outcome writable file (file, .ok false)
  | thrown {config v e} : Holds readFloat file config → v ∈ apiKeys config → (∀ s, v ≠ .str s) →
      Outcome writable file (file, .error e)
  | unchanged {config} : Holds readFloat file config → (∀ v ∈ apiKeys config, ∃ s, v = .str s) →
      (apiKeys config).any plainKey = false → Outcome writable file (file, .ok true)
  | refused {config} : Holds readFloat file config → (∀ v ∈ apiKeys config, ∃ s, v = .str s) →
      writable = false → Outcome writable file (file, .ok false)
  | written {config file' config'} : Holds readFloat file config →
      (∀ v ∈ apiKeys config, ∃ s, v = .str s) → writable = true →
      (apiKeys config).any plainKey = true → Holds readFloat file' config' →
      AtApiKeys (Encrypted sha256 base64 keyFile) config config' →
      Outcome writable file (file', .ok true)

variable {sha256 base64 keyFile readFloat} {nonces : ℕ → Nonce} {writable : Bool}
  {file : Option Bytes} {config config' : Json}

theorem Holds.unique (h : Holds readFloat file config) (h' : Holds readFloat file config') :
    config = config' := by
  obtain ⟨content, hcontent, hread⟩ := h
  obtain ⟨content', hcontent', hread'⟩ := h'
  obtain rfl := Option.some.inj (hcontent.symm.trans hcontent')
  exact Except.ok.inj (hread.symm.trans hread')

/-- A configuration is read back as it was written. -/
theorem holds_written {m : List (Bytes × Json)} (hs : Storable readFloat (.obj m)) :
    ∃ text, dumpIndent 2 (.obj m) = .ok text ∧
      Holds readFloat (some (text ++ [newline])) (.obj m) := by
  refine ⟨_, dumpWith_utf8 (indented 2) hs.utf8, _, rfl, ?_⟩
  exact readStream_render (whiteLayout_indented 2) hs (white_singleton (by decide))

/-- Where a key is to be encrypted, there are members to write. -/
theorem members_of_plain {R : Json → Json → Prop} (h : AtApiKeys R config config')
    (hany : (apiKeys config).any plainKey = true) : ∃ m, config' = .obj m := by
  obtain ⟨v, hv, -⟩ := List.any_eq_true.mp hany
  obtain ⟨v', hv', -⟩ := h.left hv
  obtain ⟨backends, hbackends, -⟩ := mem_apiKeys.mp hv'
  cases config' with
  | obj m => exact ⟨m, rfl⟩
  | _ => cases hbackends

theorem outcome (hf : ReadsBack readFloat) :
    Outcome sha256 base64 keyFile readFloat writable file
      (encryptConfig sha256 base64 keyFile readFloat nonces writable file) := by
  cases file with
  | none =>
    refine .unread ?_
    rintro config ⟨content, hcontent, -⟩
    cases hcontent
  | some content =>
    rw [encryptConfig]
    cases hread : readStream readFloat content with
    | error e =>
      refine .unread ?_
      rintro config ⟨content', hcontent, hread'⟩
      obtain rfl := Option.some.inj hcontent
      cases hread.symm.trans hread'
    | ok config =>
      have hholds : Holds readFloat (some content) config := ⟨content, rfl, hread⟩
      have htotal : Succeeds (encryptKeys sha256 base64 keyFile nonces config) ↔
          ∀ v ∈ apiKeys config, ∃ s, v = .str s := encryptKeys_total
      dsimp only
      cases hkeys : encryptKeys sha256 base64 keyFile nonces config with
      | error e =>
        rw [hkeys] at htotal
        have hno : ¬ ∀ v ∈ apiKeys config, ∃ s, v = .str s :=
          fun h => succeeds_error e (htotal.mpr h)
        simp only [not_forall, not_exists] at hno
        obtain ⟨v, hv, hstr⟩ := hno
        exact .thrown hholds hv hstr
      | ok r =>
        have hstrings := htotal.mp ⟨r, hkeys⟩
        have hs := storable_readStream hf hread
        obtain ⟨config', changed⟩ := r
        obtain ⟨hupdate, hs', hchanged⟩ := encryptKeys_ok hs hkeys
        dsimp only at hupdate hs' hchanged ⊢
        by_cases hc : changed = false
        · rw [if_pos hc]
          exact .unchanged hholds hstrings (hchanged.symm.trans hc)
        rw [if_neg hc]
        by_cases hw : writable = false
        · rw [if_pos hw]
          exact .refused hholds hstrings hw
        rw [if_neg hw]
        rw [hchanged, Bool.not_eq_false] at hc
        rw [Bool.not_eq_false] at hw
        obtain ⟨m, rfl⟩ := members_of_plain hupdate hc
        obtain ⟨text, hdump, hback⟩ := holds_written hs'
        simp only [hdump]
        exact .written hholds hstrings hw hc hback hupdate

/-- A file stays as it is if it cannot be written, or none of its keys is to be encrypted. -/
theorem kept (hf : ReadsBack readFloat) (h : writable = true → ∀ config,
    Holds readFloat file config → (apiKeys config).any plainKey = false) :
    (encryptConfig sha256 base64 keyFile readFloat nonces writable file).1 = file := by
  have ho : Outcome sha256 base64 keyFile readFloat writable file
    (encryptConfig sha256 base64 keyFile readFloat nonces writable file) := outcome hf
  generalize encryptConfig sha256 base64 keyFile readFloat nonces writable file = r at ho
  cases ho with
  | written hholds _ hw hany _ _ =>
    rw [h hw _ hholds] at hany
    cases hany
  | _ => rfl

/-- Where no key is to be encrypted, what the code does is nothing. -/
theorem unchanged_encrypted (hstrings : ∀ v ∈ apiKeys config, ∃ s, v = .str s)
    (hany : (apiKeys config).any plainKey = false) :
    AtApiKeys (Encrypted sha256 base64 keyFile) config config := by
  refine AtApiKeys.refl fun v hv => encrypted_of_not_plain (hstrings v hv) ?_
  exact Bool.eq_false_of_not_eq_true (List.any_eq_false.mp hany v hv)

/-- After the keys were encrypted there is none that is to be encrypted. -/
theorem Encrypted.not_plain {v v' : Json} (h : Encrypted sha256 base64 keyFile v v') :
    plainKey v' = false := by
  obtain ⟨s, rfl, h⟩ := h
  split_ifs at h with hp
  · obtain ⟨nonce, rfl⟩ := h
    have hs : s ≠ [] := by
      rw [plain, decide_eq_true_eq] at hp
      exact hp.1
    simp [plainKey, plain, isEncrypted_encrypt nonce hs]
  · rw [h]
    exact Bool.eq_false_of_not_eq_true hp

theorem none_plain (h : AtApiKeys (Encrypted sha256 base64 keyFile) config config') :
    (apiKeys config').any plainKey = false := by
  rw [List.any_eq_false]
  intro v hv
  obtain ⟨u, -, hu⟩ := h.right hv
  rw [hu.not_plain]
  exact Bool.false_ne_true

end File

section Protection

variable (sha256 : Bytes → Digest) (base64 : Base64Library) (keyFile : Option Bytes)
  (readFloat : Bytes → Option NumberText)

/-- A string that is no ciphertext is replaced by a ciphertext that decrypts to it, and everything
else is left. -/
def Replaced : Json → Json → Prop
  | .str s, v' => (Ciphertext sha256 base64 keyFile s → v' = .str s) ∧
      (¬ Ciphertext sha256 base64 keyFile s → ∃ t, v' = .str t ∧
        Ciphertext sha256 base64 keyFile t ∧ decrypt sha256 base64 keyFile t = s)
  | v, v' => v' = v

/-- What is asked of a run of `EncryptConfig`, given what it leaves and reports. -/
structure Protected (writable : Bool) (file : Option Bytes)
    (r : Option Bytes × Except JsonException Bool) : Prop where
  total : Succeeds r.2
  unaltered : r.2 = .ok false → r.1 = file
  replaced : r.2 = .ok true → ∀ config, Holds readFloat file config →
    ∃ config', Holds readFloat r.1 config' ∧
      AtApiKeys (Replaced sha256 base64 keyFile) config config'
  idempotent : ∀ nonces : ℕ → Nonce,
    (encryptConfig sha256 base64 keyFile readFloat nonces writable r.1).1 = r.1

/-- A string, which is a ciphertext if it is taken for one. -/
def Recognised (v : Json) : Prop :=
  ∃ s, v = .str s ∧ (isEncrypted s = true → Ciphertext sha256 base64 keyFile s)

variable {sha256 base64 keyFile readFloat} {writable : Bool} {file : Option Bytes}
  {r : Option Bytes × Except JsonException Bool} {v v' : Json}

theorem ciphertext_not_plain {s : Bytes} (h : Ciphertext sha256 base64 keyFile s) :
    plain s = false := by
  obtain ⟨nonce, plaintext, rfl⟩ := h
  by_cases hp : plaintext = []
  · rw [hp]
    rfl
  · simp [plain, isEncrypted_encrypt nonce hp]

theorem ciphertext_nil : Ciphertext sha256 base64 keyFile [] :=
  (ciphertext_iff sha256 base64 keyFile).mpr (Or.inl rfl)

theorem Encrypted.replaced (h : Encrypted sha256 base64 keyFile v v')
    (hv : Recognised sha256 base64 keyFile v) : Replaced sha256 base64 keyFile v v' := by
  obtain ⟨s, rfl, hs⟩ := hv
  obtain ⟨t, ht, h⟩ := h
  obtain rfl := Json.str.inj ht
  split_ifs at h with hp
  · obtain ⟨nonce, rfl⟩ := h
    refine ⟨fun hc => ?_, fun _ => ⟨_, rfl, ⟨nonce, s, rfl⟩, decrypt_encrypt nonce s⟩⟩
    rw [ciphertext_not_plain hc] at hp
    cases hp
  · refine ⟨fun _ => h, fun hc => absurd ?_ hp⟩
    rw [plain, decide_eq_true_eq]
    refine ⟨?_, ?_⟩
    · rintro rfl
      exact hc ciphertext_nil
    · exact Bool.eq_false_of_not_eq_true fun hs' => hc (hs hs')

/-- If what the code does to a key is right, the key is what the code takes it for. -/
theorem Encrypted.recognised (h : Encrypted sha256 base64 keyFile v v')
    (h' : Replaced sha256 base64 keyFile v v') : Recognised sha256 base64 keyFile v := by
  obtain ⟨s, rfl, h⟩ := h
  refine ⟨s, rfl, fun hs => ?_⟩
  have hp : plain s = false := by simp [plain, hs]
  rw [hp, if_neg Bool.false_ne_true] at h
  by_contra hc
  obtain ⟨t, ht, hcipher, -⟩ := h'.2 hc
  obtain rfl := Json.str.inj (h.symm.trans ht)
  exact hc hcipher

theorem ok_false_ne_ok_true : (Except.ok false : Except JsonException Bool) ≠ .ok true :=
  fun h => Bool.noConfusion (Except.ok.inj h)

/-- A key with the prefix of the ciphertexts is one only if the rest is base64 that is long
enough; the code does not look at the rest. -/
theorem recognised_prefixed {x : Bytes} (hx : x ≠ []) :
    Recognised sha256 base64 keyFile (.str (kEncPrefix ++ x)) ↔
      ∃ data : Bytes, 17 ≤ data.length ∧ x = base64.encode data := by
  constructor
  · rintro ⟨s, hs, h⟩
    obtain rfl := Json.str.inj hs
    have hcipher := h (isEncrypted_append hx)
    rcases (ciphertext_iff sha256 base64 keyFile).mp hcipher with hnil | ⟨data, hdata, heq⟩
    · cases hnil
    · exact ⟨data, hdata, List.append_cancel_left heq⟩
  · rintro ⟨data, hdata, rfl⟩
    refine ⟨_, rfl, fun _ => ?_⟩
    exact (ciphertext_iff sha256 base64 keyFile).mpr (Or.inr ⟨data, hdata, rfl⟩)

theorem protected_of_recognised (hf : ReadsBack readFloat)
    (ho : Outcome sha256 base64 keyFile readFloat writable file r)
    (h : ∀ config, Holds readFloat file config →
      ∀ v ∈ apiKeys config, Recognised sha256 base64 keyFile v) :
    Protected sha256 base64 keyFile readFloat writable file r := by
  cases ho with
  | unread hno =>
    refine ⟨⟨_, rfl⟩, fun _ => rfl, fun h => absurd h ok_false_ne_ok_true, fun nonces => kept hf ?_⟩
    exact fun _ config hholds => absurd hholds (hno config)
  | thrown hholds hv hstr =>
    obtain ⟨s, hs, -⟩ := h _ hholds _ hv
    exact absurd hs (hstr s)
  | @unchanged config hholds hstrings hany =>
    refine ⟨⟨_, rfl⟩, fun h => absurd h.symm ok_false_ne_ok_true, fun _ config' hholds' => ?_,
      fun nonces => kept hf ?_⟩
    · obtain rfl := hholds.unique hholds'
      have hsame : AtApiKeys (Encrypted sha256 base64 keyFile) config config :=
        unchanged_encrypted hstrings hany
      exact ⟨config, hholds, hsame.mono fun v hv v' hr => hr.replaced (h _ hholds v hv)⟩
    · intro _ config' hholds'
      obtain rfl := hholds.unique hholds'
      exact hany
  | refused hholds hstrings hw =>
    refine ⟨⟨_, rfl⟩, fun _ => rfl, fun h => absurd h ok_false_ne_ok_true, fun nonces => kept hf ?_⟩
    intro hw'
    rw [hw] at hw'
    cases hw'
  | @written config file' config' hholds _ _ _ hback hupdate =>
    refine ⟨⟨_, rfl⟩, fun h => absurd h.symm ok_false_ne_ok_true, fun _ config'' hholds' => ?_,
      fun nonces => kept hf ?_⟩
    · obtain rfl := hholds.unique hholds'
      exact ⟨config', hback, hupdate.mono fun v hv v' hr => hr.replaced (h _ hholds v hv)⟩
    · intro _ config'' hback'
      obtain rfl := hback.unique hback'
      exact none_plain hupdate

theorem recognised_of_protected (ho : Outcome sha256 base64 keyFile readFloat true file r)
    (h : Protected sha256 base64 keyFile readFloat true file r) {config : Json}
    (hholds : Holds readFloat file config) (hv : v ∈ apiKeys config) :
    Recognised sha256 base64 keyFile v := by
  cases ho with
  | unread hno => exact absurd hholds (hno config)
  | thrown => exact absurd h.total (succeeds_error _)
  | unchanged hholds' hstrings hany =>
    obtain rfl := hholds'.unique hholds
    obtain ⟨config', hback, hreplaced⟩ := h.replaced rfl _ hholds
    obtain rfl := hholds.unique hback
    obtain ⟨v', -, hboth⟩ := ((unchanged_encrypted hstrings hany).and hreplaced).left hv
    exact hboth.1.recognised hboth.2
  | refused _ _ hw => cases hw
  | written hholds' _ _ _ hback hupdate =>
    obtain rfl := hholds'.unique hholds
    obtain ⟨config', hback', hreplaced⟩ := h.replaced rfl _ hholds
    obtain rfl := hback.unique hback'
    obtain ⟨v', -, hboth⟩ := (hupdate.and hreplaced).left hv
    exact hboth.1.recognised hboth.2

/-- Keys survive, and configurations are protected whether or not their file can be written,
exactly if all keys in the file are strings and those with the prefix are ciphertexts. -/
theorem keyStore_iff (sha256 : Bytes → Digest) (base64 : Base64Library) (keyFile : Option Bytes)
    (hf : ReadsBack readFloat) (nonces : ℕ → Nonce) (file : Option Bytes) :
    ((∀ nonce plaintext, decrypt sha256 base64 keyFile
        (encrypt sha256 base64 keyFile nonce plaintext) = plaintext) ∧
      ∀ writable, Protected sha256 base64 keyFile readFloat writable file
        (encryptConfig sha256 base64 keyFile readFloat nonces writable file)) ↔
      ∀ config, Holds readFloat file config →
        ∀ v ∈ apiKeys config, Recognised sha256 base64 keyFile v := by
  constructor
  · rintro ⟨-, h⟩ config hholds v hv
    exact recognised_of_protected (outcome hf) (h true) hholds hv
  · intro h
    exact ⟨decrypt_encrypt, fun writable => protected_of_recognised hf (outcome hf) h⟩

end Protection

namespace Counterexample

def base64 : Base64Library :=
  ⟨Base64.encode, Base64.decode, Base64.decode_encode, Base64.encode_nil, Base64.encode_ascii⟩

def noFloats : Bytes → Option NumberText := fun _ => none

theorem noFloats_readsBack : ReadsBack noFloats := by
  intro t x h
  cases h

theorem length_zeros (n : ℕ) : (List.replicate n (0 : UInt8)).length = n := List.length_replicate

def digest : Bytes → Digest := fun _ => ⟨List.replicate 32 0, length_zeros 32⟩

def nonces : ℕ → Nonce := fun _ => ⟨List.replicate 16 0, length_zeros 16⟩

/-- The file with one backend, which has a key. -/
def file (key : Bytes) : Option Bytes :=
  some (bytes "\x7b\"backends\": \x7b\"openai\": \x7b\"api_key\": " ++ key ++ bytes "\x7d\x7d\x7d")

def config (v : Json) : Json :=
  .obj [(bytes "backends", .obj [(bytes "openai", .obj [(bytes "api_key", v)])])]

theorem mem_apiKeys_config {v w : Json} : v ∈ apiKeys (config w) ↔ v = w := by
  have hkeys : apiKeys (config w) = [w] := rfl
  rw [hkeys, List.mem_singleton]

theorem holds_null : Holds noFloats (file (bytes "null")) (config .null) :=
  ⟨_, rfl, by decide +kernel⟩

theorem holds_key : Holds noFloats (file (bytes "\"sk-1\"")) (config (.str (bytes "sk-1"))) :=
  ⟨_, rfl, by decide +kernel⟩

/-- The file with a key in plain text is protected. -/
theorem key_protected : (∀ nonce plaintext, decrypt digest base64 none
      (encrypt digest base64 none nonce plaintext) = plaintext) ∧
    ∀ writable, Protected digest base64 none noFloats writable (file (bytes "\"sk-1\""))
      (encryptConfig digest base64 none noFloats nonces writable (file (bytes "\"sk-1\""))) := by
  refine (keyStore_iff digest base64 none noFloats_readsBack nonces _).mpr ?_
  intro c hc v hv
  obtain rfl := holds_key.unique hc
  obtain rfl := mem_apiKeys_config.mp hv
  exact ⟨_, rfl, fun h => absurd h (by decide)⟩

/-- A key that is null. -/
theorem null_key_throws : ¬ ∀ (sha256 : Bytes → Digest) (base64 : Base64Library)
    (keyFile : Option Bytes) (readFloat : Bytes → Option NumberText), ReadsBack readFloat →
    ∀ (nonces : ℕ → Nonce) (file : Option Bytes), (∀ nonce plaintext,
      decrypt sha256 base64 keyFile (encrypt sha256 base64 keyFile nonce plaintext) = plaintext) ∧
        ∀ writable, Protected sha256 base64 keyFile readFloat writable file
          (encryptConfig sha256 base64 keyFile readFloat nonces writable file) := by
  intro h
  have hprotected := (h digest base64 none noFloats noFloats_readsBack nonces
    (file (bytes "null"))).2 true
  obtain ⟨s, hs, -⟩ := recognised_of_protected (outcome noFloats_readsBack) hprotected holds_null
    (mem_apiKeys_config.mpr rfl)
  cases hs

end Counterexample

end KeyProtection
