import TizenClaw.Base64
import TizenClaw.JsonUpdate

/-! The keys of the backends in the configuration, which are kept encrypted with a key of the
device. -/
namespace KeyStore

open ByteString JsonValue JsonDump JsonStorable JsonUpdate

section Cipher

/-- A digest of SHA-256. -/
abbrev Digest := { d : Bytes // d.length = 32 }

abbrev Nonce := { n : Bytes // n.length = 16 }

/-- The base64 of the system. -/
structure Base64Library where
  encode : Bytes → Bytes
  decode : Bytes → Bytes
  decode_encode : ∀ s, decode (encode s) = s
  encode_nil : encode [] = []
  encode_ascii : ∀ s, ∀ b ∈ encode s, b ≤ 0x7F

def kEncPrefix : Bytes := bytes "ENC:"
def kSalt : Bytes := bytes "TizenClaw_KeyStore_v1"

variable (sha256 : Bytes → Digest)

/-- The key of the device, from the first line of its file. -/
def deriveKey (keyFile : Option Bytes) : Bytes :=
  let firstLine := (keyFile.getD []).takeWhile (· ≠ newline)
  let machineId := if firstLine = [] then bytes "tizenclaw-default-key" else firstLine
  (sha256 (machineId ++ kSalt)).1

/-- The loop that extends the keystream to a length. -/
def extend (key : Bytes) (length : ℕ) : ℕ → Bytes → Bytes
  | 0, keystream => keystream
  | fuel + 1, keystream =>
    if keystream.length < length then
      extend key length fuel (keystream ++ (sha256 (key ++ decimal keystream.length)).1)
    else keystream

def keystream (key : Bytes) (length : ℕ) : Bytes := extend sha256 key length length key

def xorCipher (data key : Bytes) : Bytes :=
  List.zipWith (· ^^^ ·) data (keystream sha256 key data.length)

def isEncrypted (value : Bytes) : Bool :=
  kEncPrefix.length < value.length ∧ kEncPrefix.isPrefixOf value

variable (base64 : Base64Library) (keyFile : Option Bytes)

def encrypt (nonce : Nonce) (plaintext : Bytes) : Bytes :=
  if plaintext = [] then plaintext
  else
    let subkey := (sha256 (deriveKey sha256 keyFile ++ nonce)).1
    kEncPrefix ++ base64.encode (nonce ++ xorCipher sha256 plaintext subkey)

/-- A text without the prefix is returned as it is. -/
def decrypt (ciphertext : Bytes) : Bytes :=
  if isEncrypted ciphertext = false then ciphertext
  else
    let decoded := base64.decode (ciphertext.drop kEncPrefix.length)
    if decoded.length < 17 then []
    else
      let subkey := (sha256 (deriveKey sha256 keyFile ++ decoded.take 16)).1
      xorCipher sha256 (decoded.drop 16) subkey

end Cipher

section RoundTrip

variable {sha256 : Bytes → Digest} {base64 : Base64Library} {keyFile : Option Bytes}

/-- A block is added in each round, so that the keystream gets long enough. -/
theorem length_extend (key : Bytes) {length fuel : ℕ} {ks : Bytes}
    (h : length ≤ ks.length + fuel) : length ≤ (extend sha256 key length fuel ks).length := by
  induction fuel generalizing ks with
  | zero => exact h
  | succ fuel ih =>
    rw [extend]
    by_cases hlt : ks.length < length
    · rw [if_pos hlt]
      apply ih
      rw [List.length_append, (sha256 _).2]
      omega
    · rw [if_neg hlt]
      exact Nat.le_of_not_lt hlt

theorem length_keystream (key : Bytes) (length : ℕ) :
    length ≤ (keystream sha256 key length).length := length_extend key (Nat.le_add_left _ _)

theorem zipWith_xor_cancel {data ks : Bytes} (h : data.length ≤ ks.length) :
    List.zipWith (· ^^^ ·) (List.zipWith (· ^^^ ·) data ks) ks = data := by
  induction data generalizing ks with
  | nil => rfl
  | cons b data ih =>
    cases ks with
    | nil => cases h
    | cons k ks =>
      have hb : b ^^^ k ^^^ k = b := by rw [UInt8.xor_assoc, UInt8.xor_self, UInt8.xor_zero]
      simp only [List.zipWith_cons_cons, hb, ih (Nat.le_of_succ_le_succ h)]

theorem length_xorCipher (data key : Bytes) : (xorCipher sha256 data key).length = data.length := by
  rw [xorCipher, List.length_zipWith]
  exact Nat.min_eq_left (length_keystream key data.length)

theorem xorCipher_ne_nil {data : Bytes} (h : data ≠ []) (key : Bytes) :
    xorCipher sha256 data key ≠ [] := by
  apply List.ne_nil_of_length_pos
  rw [length_xorCipher]
  exact List.length_pos_of_ne_nil h

/-- The cipher is its own inverse. -/
theorem xorCipher_xorCipher (data key : Bytes) :
    xorCipher sha256 (xorCipher sha256 data key) key = data := by
  have hlength : (xorCipher sha256 data key).length = data.length := length_xorCipher data key
  unfold xorCipher at hlength ⊢
  rw [hlength]
  exact zipWith_xor_cancel (length_keystream key data.length)

theorem encode_ne_nil {s : Bytes} (h : s ≠ []) : base64.encode s ≠ [] := by
  intro hnil
  apply h
  have hdecode := base64.decode_encode s
  rw [hnil, ← base64.encode_nil, base64.decode_encode] at hdecode
  exact hdecode.symm

theorem isEncrypted_append {s : Bytes} (h : s ≠ []) : isEncrypted (kEncPrefix ++ s) = true := by
  have hpos := List.length_pos_of_ne_nil h
  rw [isEncrypted, decide_eq_true_eq, List.length_append]
  exact ⟨by omega, by simp⟩

theorem decrypt_encoded {nonce : Nonce} {data : Bytes} (h : data ≠ []) :
    decrypt sha256 base64 keyFile (kEncPrefix ++ base64.encode (nonce ++ data)) =
      xorCipher sha256 data (sha256 (deriveKey sha256 keyFile ++ nonce)).1 := by
  have hne : nonce.1 ++ data ≠ [] := List.append_ne_nil_of_right_ne_nil _ h
  have hpos := List.length_pos_of_ne_nil h
  have hlength : ¬ (nonce.1 ++ data).length < 17 := by
    rw [List.length_append, nonce.2]
    omega
  rw [decrypt, isEncrypted_append (encode_ne_nil hne), if_neg (by decide), List.drop_left,
    base64.decode_encode, if_neg hlength, List.take_left' nonce.2, List.drop_left' nonce.2]

/-- What was encrypted is decrypted, with the same key of the device. -/
theorem decrypt_encrypt (nonce : Nonce) (plaintext : Bytes) :
    decrypt sha256 base64 keyFile (encrypt sha256 base64 keyFile nonce plaintext) = plaintext := by
  rw [encrypt]
  by_cases hp : plaintext = []
  · rw [if_pos hp, hp]
    rfl
  · rw [if_neg hp, decrypt_encoded (xorCipher_ne_nil hp _), xorCipher_xorCipher]

theorem isEncrypted_encrypt (nonce : Nonce) {plaintext : Bytes} (h : plaintext ≠ []) :
    isEncrypted (encrypt sha256 base64 keyFile nonce plaintext) = true := by
  rw [encrypt, if_neg h]
  apply isEncrypted_append
  apply encode_ne_nil
  apply List.ne_nil_of_length_pos
  rw [List.length_append, nonce.2]
  omega

theorem encrypt_valid (nonce : Nonce) {plaintext : Bytes} (h : Utf8.valid plaintext = true) :
    Utf8.valid (encrypt sha256 base64 keyFile nonce plaintext) = true := by
  rw [encrypt]
  split_ifs
  · exact h
  · rw [Utf8.valid_append (by decide)]
    exact Utf8.valid_ascii (base64.encode_ascii _)

end RoundTrip

section Ciphertexts

variable (sha256 : Bytes → Digest) (base64 : Base64Library) (keyFile : Option Bytes)

/-- What the device makes of some text. -/
def Ciphertext (value : Bytes) : Prop :=
  ∃ nonce plaintext, value = encrypt sha256 base64 keyFile nonce plaintext

/-- The ciphertexts are the same for each key: the empty text, and at least 17 bytes in base64
behind the prefix. -/
theorem ciphertext_iff {value : Bytes} : Ciphertext sha256 base64 keyFile value ↔
    value = [] ∨ ∃ data : Bytes, 17 ≤ data.length ∧ value = kEncPrefix ++ base64.encode data := by
  constructor
  · rintro ⟨nonce, plaintext, rfl⟩
    by_cases hp : plaintext = []
    · left
      rw [encrypt, if_pos hp, hp]
    · right
      refine ⟨_, ?_, by rw [encrypt, if_neg hp]⟩
      have hpos := List.length_pos_of_ne_nil hp
      rw [List.length_append, length_xorCipher, nonce.2]
      omega
  · rintro (rfl | ⟨data, hdata, rfl⟩)
    · exact ⟨⟨List.replicate 16 0, rfl⟩, [], rfl⟩
    · let nonce : Nonce := ⟨data.take 16, by rw [List.length_take]; omega⟩
      have hrest : data.drop 16 ≠ [] := by
        apply List.ne_nil_of_length_pos
        rw [List.length_drop]
        omega
      let subkey := (sha256 (deriveKey sha256 keyFile ++ nonce)).1
      refine ⟨nonce, xorCipher sha256 (data.drop 16) subkey, ?_⟩
      rw [encrypt, if_neg (xorCipher_ne_nil hrest _)]
      dsimp only
      rw [xorCipher_xorCipher, List.take_append_drop]

end Ciphertexts

section Config

variable (sha256 : Bytes → Digest) (base64 : Base64Library) (keyFile : Option Bytes)

/-- A key that is to be encrypted. -/
def plain (apiKey : Bytes) : Bool := apiKey ≠ [] ∧ isEncrypted apiKey = false

/-- The key of one backend, and whether it was encrypted. -/
def encryptBackend (nonce : Nonce) (backend : Json) : Except JsonException (Json × Bool) :=
  match backend.member? (bytes "api_key") with
  | none => .ok (backend, false)
  | some v => v.getString.bind fun apiKey =>
    if plain apiKey then
      (Json.assign (bytes "api_key") (.str (encrypt sha256 base64 keyFile nonce apiKey))
        backend).map (·, true)
    else .ok (backend, false)

/-- The loop over the backends, with the nonces that are drawn in it. -/
def encryptBackends (nonces : ℕ → Nonce) : List Json → Except JsonException (List Json × Bool)
  | [] => .ok ([], false)
  | backend :: l => (encryptBackend sha256 base64 keyFile (nonces 0) backend).bind fun first =>
      (encryptBackends (fun i => nonces (i + 1)) l).map fun others =>
        (first.1 :: others.1, first.2 || others.2)

def encryptKeys (nonces : ℕ → Nonce) (config : Json) : Except JsonException (Json × Bool) :=
  match config.member? (bytes "backends") with
  | none => .ok (config, false)
  | some backends =>
    (encryptBackends sha256 base64 keyFile nonces backends.elements).bind fun changed =>
      (Json.assign (bytes "backends") (setElements backends changed.1) config).map (·, changed.2)

/-- `EncryptConfig` of a file, which can be written to or not. The text is made when the file is
open, and empty, already. -/
def encryptConfig (readFloat : Bytes → Option NumberText) (nonces : ℕ → Nonce) (writable : Bool)
    (file : Option Bytes) : Option Bytes × Except JsonException Bool :=
  match file with
  | none => (none, .ok false)
  | some content => match readStream readFloat content with
    | .error _ => (some content, .ok false)
    | .ok config => match encryptKeys sha256 base64 keyFile nonces config with
      | .error e => (some content, .error e)
      | .ok (config', changed) =>
        if changed = false then (some content, .ok true)
        else if writable = false then (some content, .ok false)
        else match dumpIndent 2 config' with
          | .error e => (some [], .error e)
          | .ok text => (some (text ++ [newline]), .ok true)

end Config

end KeyStore
