import Helix.Domain.Block
import Helix.Library.Effect

/-!
# What can be encoded

Records, changes and headers are hashed over their canonical bytes. These exist just when the strings
in them hold no surrogates, so a block can be built, hashed and checked against its Merkle root exactly
then.
-/

namespace Helix

/-- The string holds no surrogate. -/
def IsScalar (s : PyStr) : Prop := ∀ c ∈ s, CodePoint.isSurrogate c = false

instance (s : PyStr) : Decidable (IsScalar s) :=
  inferInstanceAs (Decidable (∀ c ∈ s, CodePoint.isSurrogate c = false))

lemma IsScalar.zeroHash : IsScalar ZERO_HASH := by
  intro c hc
  rw [List.eq_of_mem_replicate hc]
  decide

lemma IsScalar.toHex (b : Bytes) : IsScalar (toHex b) := fun _ => toHex_not_surrogate

/-! ### The strings of a value -/

def BlockHeader.texts (h : BlockHeader) : List PyStr := [h.previousHash, h.merkleRoot, h.proposer]

def IntegrityRecord.texts (r : IntegrityRecord) : List PyStr :=
  [r.entityId, r.attributeName, r.valueHash, r.sourceBroker, r.observer, r.signature]

/-- The strings of a block. -/
def Block.texts (b : Block) : List PyStr :=
  b.header.texts ++ b.records.flatMap IntegrityRecord.texts ++
    b.commitSignatures.items.flatMap (fun p => [p.1, p.2]) ++
    b.validatorChanges.map ValidatorChange.validator

/-! ### Leaves -/

/-- The keys of the observation are literals. -/
lemma IntegrityRecord.exists_encode_of_mem_core {r : IntegrityRecord} {p : PyStr × Json}
    (hp : p ∈ r.core) : ∃ b, encode p.1 = .ok b := by
  rw [encode_ok_iff]
  simp only [core, List.mem_cons, List.not_mem_nil, or_false] at hp
  rcases hp with rfl | rfl | rfl | rfl | rfl | rfl <;> exact fun c => str_not_surrogate

/-- The strings of the observation can be encoded, and so can observer and signature. -/
lemma IntegrityRecord.exists_canonical_iff {r : IntegrityRecord} : (∃ b, r.canonical = .ok b) ↔
    (∃ b, r.signingBytes = .ok b) ∧ (∃ b, encode r.observer = .ok b) ∧
      ∃ b, encode r.signature = .ok b := by
  have hkeys : ∀ p ∈ r.toDict, ∃ b, encode p.1 = .ok b := by
    intro p hp
    rcases List.mem_append.mp hp with hp | hp
    · exact exists_encode_of_mem_core hp
    · rw [encode_ok_iff]
      rcases List.mem_pair.mp hp with rfl | rfl <;> exact fun c => str_not_surrogate
  rw [canonical, canonicalBytes, Json.exists_encode_dumpsDict_iff hkeys, signingBytes,
    canonicalBytes, Json.exists_encode_dumpsDict_iff fun p hp => exists_encode_of_mem_core hp]
  constructor
  · refine fun h => ⟨fun key s hs => h key s (List.mem_append_left _ hs), ?_, ?_⟩
    · exact h (str "observer") _ (by simp [toDict])
    · exact h (str "signature") _ (by simp [toDict])
  · rintro ⟨hcore, hobserver, hsignature⟩ key s hs
    rcases List.mem_append.mp hs with hs | hs
    · exact hcore key s hs
    · simp only [List.mem_cons, Prod.mk.injEq, Json.str.injEq, List.not_mem_nil, or_false] at hs
      rcases hs with ⟨-, rfl⟩ | ⟨-, rfl⟩
      · exact hobserver
      · exact hsignature

lemma ValidatorChange.exists_canonical_iff {c : ValidatorChange} :
    (∃ b, c.canonical = .ok b) ↔ ∃ b, encode c.validator = .ok b := by
  have hkeys : ∀ p ∈ c.toDict, ∃ b, encode p.1 = .ok b := by
    intro p hp
    rw [encode_ok_iff]
    simp only [toDict, List.mem_cons, List.not_mem_nil, or_false] at hp
    rcases hp with rfl | rfl <;> exact fun c => str_not_surrogate
  rw [canonical, canonicalBytes, Json.exists_encode_dumpsDict_iff hkeys]
  refine ⟨fun h => h (str "validator") _ (by simp [toDict]), fun h key s hs => ?_⟩
  simp only [toDict, List.mem_cons, Prod.mk.injEq, Json.str.injEq, List.not_mem_nil, or_false] at hs
  rcases hs with ⟨-, rfl⟩ | ⟨-, rfl⟩
  · rw [encode_ok_iff]
    cases c.action <;> exact fun x => str_not_surrogate
  · exact h

lemma PublicKey.exists_encode_of_fromHex {s : PyStr} {key : PublicKey} (h : fromHex s = .ok key) :
    ∃ b, encode s = .ok b := by
  unfold fromHex at h
  split at h
  · cases h
  · rename_i hraw
    exact Helix.exists_encode_of_fromHex hraw

variable [Crypto]

/-- A block is built of possible leaves. -/
lemma Block.exists_create {records : List IntegrityRecord} {changes : List ValidatorChange}
    (hrecords : ∀ r ∈ records, ∃ b, r.canonical = .ok b)
    (hchanges : ∀ c ∈ changes, ∃ b, c.canonical = .ok b) (index : ℤ) (previousHash : PyStr)
    (timestamp : ℤ) (proposer : PyStr) :
    ∃ b, Block.create index previousHash timestamp proposer records changes = .ok b := by
  obtain ⟨rs, hrs⟩ := exists_mapM hrecords
  obtain ⟨cs, hcs⟩ := exists_mapM hchanges
  simp only [create, leaves, hrs, hcs, bind, Except.bind, pure, Except.pure]
  exact ⟨_, rfl⟩

/-! ### Headers -/

/-- A block can be hashed just when its header can be encoded. -/
lemma Block.exists_hash_iff {b : Block} : (∃ h, b.hash = .ok h) ↔
    ∀ s ∈ b.header.texts, IsScalar s := by
  have hkeys : ∀ p ∈ b.header.toDict, ∃ bytes, encode p.1 = .ok bytes := by
    intro p hp
    rw [encode_ok_iff]
    simp only [BlockHeader.toDict, List.mem_cons, List.not_mem_nil, or_false] at hp
    rcases hp with rfl | rfl | rfl | rfl | rfl <;> exact fun c => str_not_surrogate
  have hbytes : (∃ h, b.hash = .ok h) ↔ ∃ bytes, canonicalBytes b.header.toDict = .ok bytes := by
    rw [hash, BlockHeader.hash]
    cases canonicalBytes b.header.toDict with
    | error e =>
      constructor <;>
      · rintro ⟨x, hx⟩
        cases hx
    | ok bytes => exact iff_of_true ⟨_, rfl⟩ ⟨_, rfl⟩
  rw [hbytes, canonicalBytes, Json.exists_encode_dumpsDict_iff hkeys]
  constructor
  · intro h s hs
    simp only [BlockHeader.texts, List.mem_cons, List.not_mem_nil, or_false] at hs
    rcases hs with rfl | rfl | rfl
    · exact encode_ok_iff.mp (h (str "previous_hash") _ (by simp [BlockHeader.toDict]))
    · exact encode_ok_iff.mp (h (str "merkle_root") _ (by simp [BlockHeader.toDict]))
    · exact encode_ok_iff.mp (h (str "proposer") _ (by simp [BlockHeader.toDict]))
  · intro h key s hs
    rw [encode_ok_iff]
    simp only [BlockHeader.toDict, List.mem_cons, Prod.mk.injEq, Json.str.injEq, reduceCtorEq, and_false,
      List.not_mem_nil, or_false, false_or] at hs
    rcases hs with ⟨-, rfl⟩ | ⟨-, rfl⟩ | ⟨-, rfl⟩ <;> exact h _ (by simp [BlockHeader.texts])

/-- A built block can be hashed, its Merkle root being hexadecimal. -/
lemma Block.exists_hash_of_create {index timestamp : ℤ} {previousHash proposer : PyStr}
    {records : List IntegrityRecord} {changes : List ValidatorChange} {b : Block}
    (h : create index previousHash timestamp proposer records changes = .ok b)
    (hprevious : IsScalar previousHash) (hproposer : IsScalar proposer) : ∃ x, b.hash = .ok x := by
  obtain ⟨ls, -, hb⟩ := exists_of_bind_eq_ok h
  cases hb
  rw [exists_hash_iff]
  intro s hs
  simp only [BlockHeader.texts, List.mem_cons, List.not_mem_nil, or_false] at hs
  rcases hs with rfl | rfl | rfl
  · exact hprevious
  · exact .toHex _
  · exact hproposer

end Helix
