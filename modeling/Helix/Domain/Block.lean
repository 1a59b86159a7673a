import Helix.Library.Dict
import Helix.Library.Json
import Helix.Domain.Merkle

/-!
# Records, membership changes and blocks

A block commits to an ordered batch of integrity records and validator-set changes through the
Merkle root in its header; its hash is the SHA-256 of the canonical header. The commit signatures
collected by consensus travel with the block but are not part of the hash.
-/

namespace Helix

/-- `canonical_bytes` of a flat object. -/
def canonicalBytes (d : List (PyStr × Json)) : Except PyError Bytes := encode (Json.dumpsDict d)

/-! ### Integrity records -/

/-- Outcome of comparing a broker's value against its federated source. -/
inductive Verdict where
  | OK
  | TAMPERED
  | UNVERIFIED
  deriving DecidableEq, Repr

def Verdict.value : Verdict → PyStr
  | OK => str "OK"
  | TAMPERED => str "TAMPERED"
  | UNVERIFIED => str "UNVERIFIED"

/-- A single integrity observation about one entity attribute. -/
structure IntegrityRecord where
  entityId : PyStr
  attributeName : PyStr
  valueHash : PyStr
  sourceBroker : PyStr
  verdict : Verdict
  observedAt : ℤ
  observer : PyStr := []
  signature : PyStr := []
  deriving DecidableEq

namespace IntegrityRecord

/-- The observation itself, without observer and signature. -/
def core (r : IntegrityRecord) : List (PyStr × Json) :=
  [(str "entity_id", .str r.entityId), (str "attribute", .str r.attributeName),
    (str "value_hash", .str r.valueHash), (str "source_broker", .str r.sourceBroker),
    (str "verdict", .str r.verdict.value), (str "observed_at", .int r.observedAt)]

def toDict (r : IntegrityRecord) : List (PyStr × Json) :=
  r.core ++ [(str "observer", .str r.observer), (str "signature", .str r.signature)]

/-- The bytes that the observer signs. -/
def signingBytes (r : IntegrityRecord) : Except PyError Bytes := canonicalBytes r.core

/-- The Merkle leaf of the record. -/
def canonical (r : IntegrityRecord) : Except PyError Bytes := canonicalBytes r.toDict

/-- `content_key`: the hash of the observation alone. -/
def contentKey [Crypto] (r : IntegrityRecord) : Except PyError PyStr :=
  r.signingBytes.map sha256Hex

end IntegrityRecord

/-! ### Membership changes -/

inductive ChangeAction where
  | ADD
  | REMOVE
  deriving DecidableEq, Repr

def ChangeAction.value : ChangeAction → PyStr
  | ADD => str "ADD"
  | REMOVE => str "REMOVE"

/-- Add or remove one validator, identified by the hexadecimal text of its key. -/
structure ValidatorChange where
  action : ChangeAction
  validator : PyStr
  deriving DecidableEq

namespace ValidatorChange

def toDict (c : ValidatorChange) : List (PyStr × Json) :=
  [(str "action", .str c.action.value), (str "validator", .str c.validator)]

/-- The Merkle leaf of the change. -/
def canonical (c : ValidatorChange) : Except PyError Bytes := canonicalBytes c.toDict

end ValidatorChange

/-! ### Blocks -/

/-- Hash of the genesis block's predecessor. -/
def ZERO_HASH : PyStr := List.replicate 64 (.ofNat 48)

/-- The signed, hashed part of a block. -/
structure BlockHeader where
  index : ℤ
  previousHash : PyStr
  timestamp : ℤ
  merkleRoot : PyStr
  proposer : PyStr
  deriving DecidableEq

namespace BlockHeader

def toDict (h : BlockHeader) : List (PyStr × Json) :=
  [(str "index", .int h.index), (str "previous_hash", .str h.previousHash),
    (str "timestamp", .int h.timestamp), (str "merkle_root", .str h.merkleRoot),
    (str "proposer", .str h.proposer)]

/-- SHA-256 of the canonical header. -/
def hash [Crypto] (h : BlockHeader) : Except PyError PyStr :=
  (canonicalBytes h.toDict).map sha256Hex

end BlockHeader

/-- A block: a header, its records and changes, and commit signatures keyed by validator text. -/
structure Block where
  header : BlockHeader
  records : List IntegrityRecord := []
  commitSignatures : Dict PyStr PyStr := Dict.empty
  validatorChanges : List ValidatorChange := []

namespace Block

/-- `_leaves`: records first, then membership changes. -/
def leaves (records : List IntegrityRecord) (changes : List ValidatorChange) :
    Except PyError (List Bytes) := do
  let rs ← records.mapM IntegrityRecord.canonical
  let cs ← changes.mapM ValidatorChange.canonical
  return rs ++ cs

variable [Crypto]

/-- `Block.create`. -/
def create (index : ℤ) (previousHash : PyStr) (timestamp : ℤ) (proposer : PyStr)
    (records : List IntegrityRecord) (validatorChanges : List ValidatorChange) :
    Except PyError Block := do
  let ls ← leaves records validatorChanges
  return { header := ⟨index, previousHash, timestamp, toHex (merkleRoot ls), proposer⟩
           records := records
           validatorChanges := validatorChanges }

def hash (b : Block) : Except PyError PyStr := b.header.hash

def index (b : Block) : ℤ := b.header.index

def computedMerkleRoot (b : Block) : Except PyError PyStr :=
  (leaves b.records b.validatorChanges).map fun ls => toHex (merkleRoot ls)

/-- True iff the header's Merkle root matches the records and changes it carries. -/
def hasConsistentMerkleRoot (b : Block) : Except PyError Bool :=
  b.computedMerkleRoot.map fun root => b.header.merkleRoot == root

/-- Merkle inclusion proof for `records[index]` against the block root. -/
def proofForRecord (b : Block) (index : ℤ) : Except PyError (List ProofStep) := do
  let ls ← leaves b.records b.validatorChanges
  merkleProof ls index

/-- Attach a commit signature from `validator`. -/
def addCommitSignature (b : Block) (validator : PublicKey) (signature : Bytes) : Block :=
  { b with commitSignatures := b.commitSignatures.set validator.toHex (toHex signature) }

/-! ### Facts -/

/-- The hash of a block is the hexadecimal text of a digest. -/
lemma exists_of_hash {b : Block} {h : PyStr} (hb : b.hash = .ok h) :
    ∃ d : Bytes, h = toHex d := by
  simp only [hash, BlockHeader.hash, Except.map] at hb
  split at hb
  · cases hb
  · cases hb
    exact ⟨_, rfl⟩

/-- A created block carries its own Merkle root. -/
lemma create_consistent {index timestamp : ℤ} {previousHash proposer : PyStr}
    {records : List IntegrityRecord} {changes : List ValidatorChange} {b : Block}
    (h : create index previousHash timestamp proposer records changes = .ok b) :
    b.hasConsistentMerkleRoot = .ok true ∧ b.index = index ∧
      b.header.previousHash = previousHash := by
  simp only [create, bind, Except.bind, pure, Except.pure] at h
  split at h
  · cases h
  · rename_i ls hls
    cases h
    refine ⟨?_, rfl, rfl⟩
    simp [hasConsistentMerkleRoot, computedMerkleRoot, hls, Except.map]

/-- A created block holds the items that it was created of. -/
lemma create_items {index timestamp : ℤ} {previousHash proposer : PyStr}
    {records : List IntegrityRecord} {changes : List ValidatorChange} {b : Block}
    (h : create index previousHash timestamp proposer records changes = .ok b) :
    b.records = records ∧ b.validatorChanges = changes := by
  simp only [create, bind, Except.bind, pure, Except.pure] at h
  split at h
  · cases h
  · cases h
    exact ⟨rfl, rfl⟩

omit [Crypto] in
lemma leaves_getElem? {records : List IntegrityRecord} {changes : List ValidatorChange}
    {ls : List Bytes} (h : leaves records changes = .ok ls) {i : ℕ} {r : IntegrityRecord}
    (hr : records[i]? = some r) : ∃ leaf, r.canonical = .ok leaf ∧ ls[i]? = some leaf := by
  have hmap : ∀ {l : List IntegrityRecord} {bs : List Bytes} {j : ℕ},
      l.mapM IntegrityRecord.canonical = .ok bs → l[j]? = some r →
      ∃ leaf, r.canonical = .ok leaf ∧ bs[j]? = some leaf := by
    intro l
    induction l with
    | nil => intro bs j _ hj; simp at hj
    | cons x l ih =>
      intro bs j hl hj
      simp only [List.mapM_cons, bind, Except.bind, pure, Except.pure] at hl
      split at hl
      · cases hl
      · rename_i leaf hleaf
        split at hl
        · cases hl
        · rename_i rest hrest
          cases hl
          cases j with
          | zero =>
            obtain rfl : x = r := by simpa using hj
            exact ⟨leaf, hleaf, rfl⟩
          | succ j => simpa using ih hrest (by simpa using hj)
  simp only [leaves, bind, Except.bind, pure, Except.pure] at h
  split at h
  · cases h
  · rename_i rs hrs
    split at h
    · cases h
    · rename_i cs hcs
      cases h
      obtain ⟨leaf, hleaf, hget⟩ := hmap hrs hr
      refine ⟨leaf, hleaf, ?_⟩
      rw [List.getElem?_append_left (List.getElem?_eq_some_iff.mp hget).1]
      exact hget

/-- The block of the first height with the given timestamp and nothing in it, for concrete runs. -/
def ofTimestamp (timestamp : ℤ) : Block :=
  { header := ⟨1, ZERO_HASH, timestamp, toHex (merkleRoot []), []⟩ }

end Block

end Helix
