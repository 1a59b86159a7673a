import Helix.Domain.Binding
import Helix.Library.Value

/-!
# What the chain stores of a value

The chain holds a fingerprint in place of the value: the hash of the canonical text, or with a shared key its
HMAC. Two values have one fingerprint if and only if they have one text (`Confidentiality.commitValue_iff`).
-/

namespace Helix

variable {F : Type} [PyFloat F]

/-- `canonical_bytes(v)`. -/
def Value.canonicalBytes (v : Value F) : Except PyError Bytes := encode v.dumps

variable [Crypto]

/-! ### HMAC -/

/-- The key at the block size of SHA-256, under a pad. -/
def padKey (pad : UInt8) (key : Bytes) : Bytes :=
  let key := if key.length > 64 then Crypto.sha256 key else key
  (key ++ List.replicate (64 - key.length) 0).map (· ^^^ pad)

/-- `hmac.new(key, data, hashlib.sha256).digest()`. -/
def hmacSha256 (key data : Bytes) : Bytes :=
  Crypto.sha256 (padKey 0x5C key ++ Crypto.sha256 (padKey 0x36 key ++ data))

/-- `Confidentiality`. -/
structure Confidentiality where
  key : Option Bytes := none
  pseudonymize : Bool := false

namespace Confidentiality

omit [Crypto] in
/-- `__init__`: an empty key is no key. -/
def init (key : Option Bytes) (pseudonymizeEntities : Bool) : Confidentiality :=
  ⟨key.filter (· ≠ []), pseudonymizeEntities⟩

/-- The digest that stands for the data. -/
def fingerprint (conf : Confidentiality) (data : Bytes) : Bytes :=
  match conf.key with
  | some key => hmacSha256 key data
  | none => Crypto.sha256 data

/-- `commit_value`. -/
def commitValue (conf : Confidentiality) (v : Value F) : Except PyError PyStr :=
  v.canonicalBytes.map fun data => toHex (conf.fingerprint data)

/-- `entity_ref`. -/
def entityRef (conf : Confidentiality) (entityId : PyStr) : Except PyError PyStr :=
  match conf.key with
  | some key =>
    if conf.pseudonymize then
      (encode entityId).map fun data => str "pid:" ++ toHex (hmacSha256 key data)
    else .ok entityId
  | none => .ok entityId

/-- Entities are stored under a pseudonym. -/
def pseudonymizes (conf : Confidentiality) : Bool := conf.key.isSome && conf.pseudonymize

lemma exists_entityRef_iff {conf : Confidentiality} {entityId : PyStr} :
    (∃ ref, conf.entityRef entityId = .ok ref) ↔
      (conf.pseudonymizes = true → ∃ b, encode entityId = .ok b) := by
  unfold entityRef pseudonymizes
  cases conf.key with
  | none => simp
  | some key =>
    cases conf.pseudonymize with
    | false => simp
    | true => cases encode entityId <;> simp [Except.map]

/-- The strings hashed for a fingerprint. -/
def fingerprintInputs (conf : Confidentiality) (data : Bytes) : List Bytes :=
  match conf.key with
  | some key =>
    [padKey 0x36 key ++ data, padKey 0x5C key ++ Crypto.sha256 (padKey 0x36 key ++ data)]
  | none => [data]

/-- The strings hashed for a value. -/
def hashInputs (conf : Confidentiality) (v : Value F) : List Bytes :=
  v.canonicalBytes.toOption.toList.flatMap conf.fingerprintInputs

lemma fingerprint_injective {conf : Confidentiality} {data data' : Bytes}
    (hno : NoCollision (conf.fingerprintInputs data ++ conf.fingerprintInputs data'))
    (h : conf.fingerprint data = conf.fingerprint data') : data = data' := by
  unfold fingerprint at h
  unfold fingerprintInputs at hno
  cases hkey : conf.key with
  | none =>
    rw [hkey] at h hno
    exact hno _ (by simp) _ (by simp) h
  | some key =>
    rw [hkey] at h hno
    have houter := hno _ (by simp) _ (by simp) h
    have hinner := hno _ (by simp) _ (by simp) (List.append_cancel_left houter)
    exact List.append_cancel_left hinner

/-- Another value has the fingerprint of this one if and only if it has its text. -/
lemma commitValue_iff {conf : Confidentiality} {v w : Value F} {hash : PyStr}
    (hno : NoCollision (conf.hashInputs v ++ conf.hashInputs w)) (hw : conf.commitValue w = .ok hash) :
    conf.commitValue v = .ok hash ↔ v.dumps = w.dumps := by
  have hdata : ∀ v : Value F, ∀ hash, conf.commitValue v = .ok hash →
      ∃ data, v.canonicalBytes = .ok data ∧ toHex (conf.fingerprint data) = hash := by
    intro v hash hv
    unfold commitValue at hv
    cases hbytes : v.canonicalBytes with
    | error e =>
      rw [hbytes] at hv
      cases hv
    | ok data =>
      rw [hbytes] at hv
      exact ⟨data, rfl, Except.ok.inj hv⟩
  constructor
  · intro hv
    obtain ⟨data, hdata₁, hhash⟩ := hdata v hash hv
    obtain ⟨data', hdata', hhash'⟩ := hdata w hash hw
    unfold hashInputs at hno
    rw [hdata₁, hdata'] at hno
    have heq := fingerprint_injective (by simpa [Except.toOption] using hno)
      (toHex_injective (hhash.trans hhash'.symm))
    rw [← heq] at hdata'
    exact encode_injective hdata₁ hdata'
  · intro h
    rw [← hw, commitValue, commitValue, Value.canonicalBytes, Value.canonicalBytes, h]

lemma exists_commitValue_iff {conf : Confidentiality} {v : Value F} :
    (∃ hash, conf.commitValue v = .ok hash) ↔ ∀ s, v.Mentions s → ∃ b, encode s = .ok b := by
  rw [← Value.exists_encode_dumps_iff, commitValue, Value.canonicalBytes]
  cases encode v.dumps <;> simp [Except.map]

end Confidentiality

end Helix
