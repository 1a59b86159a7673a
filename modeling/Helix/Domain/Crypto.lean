import Helix.Library.Text

/-!
# Hashing and signatures

Ed25519 keys are raw 32-byte values, written as hexadecimal text for configuration and transport.
The primitives themselves (SHA-256, Ed25519) are a parameter: a class whose laws say that digests
have 32 bytes and that a signature verifies under the signer's public key.
-/

namespace Helix

/-- An Ed25519 public key: a validator identity. -/
structure PublicKey where
  raw : Bytes
  length_raw : raw.length = 32
  deriving DecidableEq

/-- An Ed25519 private key. -/
structure PrivateKey where
  seed : Bytes
  length_seed : seed.length = 32
  deriving DecidableEq

/-- SHA-256 and Ed25519. -/
class Crypto where
  sha256 : Bytes → Bytes
  length_sha256 : ∀ data, (sha256 data).length = 32
  publicOf : PrivateKey → PublicKey
  sign : PrivateKey → Bytes → Bytes
  verify : PublicKey → (signature message : Bytes) → Bool
  verify_sign : ∀ key message, verify (publicOf key) (sign key message) message = true

namespace PublicKey

/-- `PublicKey.from_hex`. -/
def fromHex (s : PyStr) : Except PyError PublicKey :=
  match Helix.fromHex s with
  | .error e => .error e
  | .ok raw =>
    if h : raw.length = 32 then .ok ⟨raw, h⟩
    else .error (.valueError "An Ed25519 public key is 32 bytes long")

/-- `PublicKey.to_hex`: the canonical spelling of a key. -/
def toHex (k : PublicKey) : PyStr := Helix.toHex k.raw

@[simp] lemma fromHex_toHex (k : PublicKey) : fromHex k.toHex = .ok k := by
  simp only [fromHex, toHex, Helix.fromHex_toHex]
  rw [dif_pos k.length_raw]

/-- Keys compare by their hexadecimal text, which is to compare the keys. -/
lemma toHex_injective : Function.Injective toHex := by
  intro a b h
  have := congrArg fromHex h
  rw [fromHex_toHex, fromHex_toHex] at this
  exact Except.ok.inj this

end PublicKey

variable [Crypto]

/-- `sha256_hex`. -/
def sha256Hex (data : Bytes) : PyStr := toHex (Crypto.sha256 data)

namespace PublicKey

/-- `PublicKey.verify`. -/
def verify (k : PublicKey) (signature message : Bytes) : Bool := Crypto.verify k signature message

end PublicKey

namespace PrivateKey

/-- `PrivateKey.public`. -/
def publicKey (k : PrivateKey) : PublicKey := Crypto.publicOf k

/-- `PrivateKey.sign`. -/
def sign (k : PrivateKey) (message : Bytes) : Bytes := Crypto.sign k message

@[simp] lemma verify_sign (k : PrivateKey) (message : Bytes) :
    k.publicKey.verify (k.sign message) message = true :=
  Crypto.verify_sign k message

end PrivateKey

omit [Crypto]

/-! ### A stand-in for the primitives

Checksums for digests, and signatures that show the signer and the digest: enough to run the model
on concrete messages. -/

/-- A polynomial checksum modulo `2 ^ 256`. -/
def checksum (data : Bytes) : ℕ := data.foldl (fun a x => (a * 257 + x.toNat + 1) % 2 ^ 256) 1

/-- The 32 bytes of a checksum. -/
def digest (n : ℕ) : Bytes := (List.range 32).map fun i => UInt8.ofNat (n / 256 ^ i % 256)

/-- Checksums in place of SHA-256 and Ed25519. -/
@[reducible] def Crypto.checksums : Crypto where
  sha256 data := digest (checksum data)
  length_sha256 data := by simp [digest]
  publicOf k := ⟨k.seed, k.length_seed⟩
  sign k message := k.seed ++ digest (checksum message)
  verify k signature message := signature == k.raw ++ digest (checksum message)
  verify_sign k message := by simp

/-- A private key for concrete runs. -/
def seedKey (n : UInt8) : PrivateKey := ⟨List.replicate 32 n, by simp⟩

/-- The public key of `seedKey n` under `Crypto.checksums`. -/
def seedPublic (n : UInt8) : PublicKey := ⟨List.replicate 32 n, by simp⟩

end Helix
