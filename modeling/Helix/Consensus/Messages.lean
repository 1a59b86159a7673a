import Helix.Consensus.ValidatorSet

/-!
# Consensus messages

Every message is signed over a canonical payload: type, height, round and block hash, and for a
ROUND_CHANGE the claimed prepared round. The block, the commit seal, the certificates and the text
that names the sender are not part of the payload. `signingPayload_injective` says that the payload
determines the fields it is made of.
-/

namespace Helix

inductive MessageType where
  | PRE_PREPARE
  | PREPARE
  | COMMIT
  | ROUND_CHANGE
  deriving DecidableEq, Repr

def MessageType.value : MessageType → PyStr
  | PRE_PREPARE => str "PRE_PREPARE"
  | PREPARE => str "PREPARE"
  | COMMIT => str "COMMIT"
  | ROUND_CHANGE => str "ROUND_CHANGE"

lemma MessageType.value_injective : Function.Injective MessageType.value := by
  intro a b h
  cases a <;> cases b <;> first | rfl | exact absurd h (by decide)

/-- A signed consensus message; certificates are lists of independently signed messages. -/
structure ConsensusMessage where
  type : MessageType
  height : ℤ
  round : ℤ
  blockHash : PyStr
  sender : PyStr
  signature : PyStr
  block : Option Block := none
  commitSeal : Option PyStr := none
  preparedRound : Option ℤ := none
  preparedCert : List ConsensusMessage := []
  roundChangeCert : List ConsensusMessage := []

namespace ConsensusMessage

/-- The signed fields, as an object. -/
def payload (type : MessageType) (height round : ℤ) (blockHash : PyStr)
    (preparedRound : Option ℤ) : List (PyStr × Json) :=
  [(str "type", .str type.value), (str "height", .int height), (str "round", .int round),
    (str "block_hash", .str blockHash)] ++
  if type = .ROUND_CHANGE then [(str "prepared_round", preparedRound.elim .null .int)] else []

/-- The bytes that the sender signs and receivers verify. -/
def signingPayload (m : ConsensusMessage) : Except PyError Bytes :=
  canonicalBytes (payload m.type m.height m.round m.blockHash m.preparedRound)

variable [Crypto]

/-- A COMMIT carries a round-independent seal over the block hash. -/
def sealFor (type : MessageType) (blockHash : PyStr) (signer : PrivateKey) :
    Except PyError (Option PyStr) :=
  if type = .COMMIT then (encode blockHash).map fun b => some (toHex (signer.sign b))
  else .ok none

/-- `ConsensusMessage.create`. -/
def create (type : MessageType) (height round : ℤ) (blockHash : PyStr) (signer : PrivateKey)
    (block : Option Block := none) (preparedRound : Option ℤ := none)
    (preparedCert roundChangeCert : List ConsensusMessage := []) :
    Except PyError ConsensusMessage := do
  let bytes ← canonicalBytes (payload type height round blockHash preparedRound)
  let sealHex ← sealFor type blockHash signer
  return { type, height, round, blockHash
           sender := signer.publicKey.toHex
           signature := toHex (signer.sign bytes)
           block
           commitSeal := sealHex
           preparedRound, preparedCert, roundChangeCert }

/-- `verify_signature`: malformed hexadecimal is no signature. -/
def verifySignature (m : ConsensusMessage) : Except PyError Bool :=
  match PublicKey.fromHex m.sender, fromHex m.signature with
  | .ok senderKey, .ok sig => m.signingPayload.map fun bytes => senderKey.verify sig bytes
  | _, _ => .ok false

/-! ### The payload determines its fields -/

omit [Crypto] in
/-- The items of a payload in the order of their keys. -/
lemma payload_sorted (type : MessageType) (height round : ℤ) (blockHash : PyStr)
    (preparedRound : Option ℤ) :
    (payload type height round blockHash preparedRound).insertionSort (fun p q => p.1 ≤ q.1) =
      [(str "block_hash", Json.str blockHash), (str "height", .int height)] ++
      (if type = .ROUND_CHANGE then [(str "prepared_round", preparedRound.elim .null .int)]
        else []) ++
      [(str "round", .int round), (str "type", .str type.value)] := by
  cases type <;> rfl

omit [Crypto] in
/-- Equal signing payloads have equal fields. -/
theorem signingPayload_injective {m m' : ConsensusMessage} {b : Bytes}
    (h : m.signingPayload = .ok b) (h' : m'.signingPayload = .ok b) :
    m.type = m'.type ∧ m.height = m'.height ∧ m.round = m'.round ∧ m.blockHash = m'.blockHash ∧
      (m.type = .ROUND_CHANGE → m.preparedRound = m'.preparedRound) := by
  have hsort := Json.dumpsDict_injective (encode_injective h h')
  rw [payload_sorted, payload_sorted] at hsort
  have hkeys : str "prepared_round" ≠ str "round" := by decide
  by_cases hm : m.type = .ROUND_CHANGE
  · by_cases hm' : m'.type = .ROUND_CHANGE
    · simp only [hm, hm', if_true, List.cons_append, List.nil_append, List.cons.injEq,
        Prod.mk.injEq, true_and, and_true, Json.str.injEq, Json.int.injEq] at hsort
      obtain ⟨hbh, hh, hp, hr⟩ := hsort
      refine ⟨hm.trans hm'.symm, hh, hr, hbh, fun _ => ?_⟩
      cases h1 : m.preparedRound <;> cases h2 : m'.preparedRound <;> simp_all
    · simp [hm, hm', hkeys] at hsort
  · by_cases hm' : m'.type = .ROUND_CHANGE
    · simp [hm, hm', hkeys.symm] at hsort
    · simp only [hm, hm', if_false, List.cons_append, List.nil_append, List.cons.injEq,
        Prod.mk.injEq, true_and, and_true, Json.str.injEq, Json.int.injEq] at hsort
      obtain ⟨hbh, hh, hr, ht⟩ := hsort
      exact ⟨MessageType.value_injective ht, hh, hr, hbh, fun hrc => absurd hrc hm⟩

/-! ### Created messages -/

omit [Crypto] in
/-- A payload can be encoded when its block hash can. -/
lemma exists_payload_iff (type : MessageType) (height round : ℤ) {blockHash : PyStr}
    (preparedRound : Option ℤ) :
    (∃ b, canonicalBytes (payload type height round blockHash preparedRound) = .ok b) ↔
      ∀ c ∈ blockHash, CodePoint.isSurrogate c = false := by
  constructor
  · rintro ⟨b, hb⟩
    exact Json.not_isSurrogate_of_encode_dumpsDict hb (str "block_hash")
      (List.mem_append_left _ (by simp))
  · intro hb
    refine Json.encode_dumpsDict fun p hp s hs c hc => ?_
    have htexts : s = blockHash ∨ ∃ t : String, s = str t := by
      simp only [payload, List.mem_append, List.mem_cons, List.not_mem_nil, or_false] at hp
      rcases hp with (rfl | rfl | rfl | rfl) | hp
      · simp only [Json.texts, List.mem_cons, List.not_mem_nil, or_false] at hs
        rcases hs with rfl | rfl
        · exact Or.inr ⟨_, rfl⟩
        · exact Or.inr (by cases type <;> exact ⟨_, rfl⟩)
      · simp only [Json.texts, List.mem_singleton] at hs
        exact Or.inr ⟨_, hs⟩
      · simp only [Json.texts, List.mem_singleton] at hs
        exact Or.inr ⟨_, hs⟩
      · simp only [Json.texts, List.mem_cons, List.not_mem_nil, or_false] at hs
        rcases hs with rfl | rfl
        · exact Or.inr ⟨_, rfl⟩
        · exact Or.inl rfl
      · split_ifs at hp
        · rw [List.mem_singleton] at hp
          subst hp
          cases preparedRound with
          | none =>
            simp only [Json.texts, Option.elim, List.mem_singleton] at hs
            exact Or.inr ⟨_, hs⟩
          | some r =>
            simp only [Json.texts, Option.elim, List.mem_singleton] at hs
            exact Or.inr ⟨_, hs⟩
        · cases hp
    rcases htexts with rfl | ⟨t, rfl⟩
    · exact hb c hc
    · exact str_not_surrogate hc

/-- Creating a message about an encodable hash does not raise. -/
lemma exists_create (type : MessageType) (height round : ℤ) {blockHash : PyStr}
    (signer : PrivateKey) (block : Option Block) (preparedRound : Option ℤ)
    (preparedCert roundChangeCert : List ConsensusMessage)
    (hb : ∀ c ∈ blockHash, CodePoint.isSurrogate c = false) :
    ∃ m, create type height round blockHash signer block preparedRound preparedCert
      roundChangeCert = .ok m := by
  obtain ⟨bytes, hbytes⟩ := (exists_payload_iff type height round preparedRound).mpr hb
  obtain ⟨e, he⟩ := encode_ok_iff.mpr hb
  have hseal : ∃ s, sealFor type blockHash signer = .ok s := by
    simp only [sealFor, he, Except.map]
    split_ifs
    · exact ⟨_, rfl⟩
    · exact ⟨_, rfl⟩
  obtain ⟨s, hs⟩ := hseal
  simp only [create, hbytes, hs, bind, Except.bind, pure, Except.pure]
  exact ⟨_, rfl⟩

/-- What a successfully created message looks like. -/
lemma create_eq {type : MessageType} {height round : ℤ} {blockHash : PyStr} {signer : PrivateKey}
    {block : Option Block} {preparedRound : Option ℤ}
    {preparedCert roundChangeCert : List ConsensusMessage} {m : ConsensusMessage}
    (h : create type height round blockHash signer block preparedRound preparedCert
      roundChangeCert = .ok m) :
    m.type = type ∧ m.height = height ∧ m.round = round ∧ m.blockHash = blockHash ∧
      m.sender = signer.publicKey.toHex ∧ m.block = block ∧ m.preparedRound = preparedRound ∧
      m.preparedCert = preparedCert ∧ m.roundChangeCert = roundChangeCert := by
  simp only [create, bind, Except.bind, pure, Except.pure] at h
  split at h
  · cases h
  · split at h
    · cases h
    · cases h
      exact ⟨rfl, rfl, rfl, rfl, rfl, rfl, rfl, rfl, rfl⟩

/-- A created message carries a valid signature. -/
lemma create_verifySignature {type : MessageType} {height round : ℤ} {blockHash : PyStr}
    {signer : PrivateKey} {block : Option Block} {preparedRound : Option ℤ}
    {preparedCert roundChangeCert : List ConsensusMessage} {m : ConsensusMessage}
    (h : create type height round blockHash signer block preparedRound preparedCert
      roundChangeCert = .ok m) : m.verifySignature = .ok true := by
  simp only [create, bind, Except.bind, pure, Except.pure] at h
  split at h
  · cases h
  · rename_i bytes hbytes
    split at h
    · cases h
    · cases h
      simp [verifySignature, signingPayload, hbytes, Except.map]

/-- A verified message has a payload. -/
lemma exists_signingPayload {m : ConsensusMessage} (h : m.verifySignature = .ok true) :
    ∃ b, m.signingPayload = .ok b := by
  unfold verifySignature at h
  split at h
  · cases hb : m.signingPayload with
    | error e => simp [hb, Except.map] at h
    | ok b => exact ⟨b, rfl⟩
  · cases h

/-- A created COMMIT carries the signer's seal over the block hash. -/
lemma create_commitSeal {height round : ℤ} {blockHash : PyStr} {signer : PrivateKey}
    {block : Option Block} {preparedRound : Option ℤ}
    {preparedCert roundChangeCert : List ConsensusMessage} {m : ConsensusMessage}
    (h : create .COMMIT height round blockHash signer block preparedRound preparedCert
      roundChangeCert = .ok m) :
    ∃ b, encode blockHash = .ok b ∧ m.commitSeal = some (toHex (signer.sign b)) := by
  simp only [create, bind, Except.bind, pure, Except.pure] at h
  split at h
  · cases h
  · rename_i bytes hbytes
    split at h
    · cases h
    · rename_i sealHex hseal
      cases h
      simp only [sealFor, if_true] at hseal
      cases hb : encode blockHash with
      | error e => simp [hb, Except.map] at hseal
      | ok b =>
        simp only [hb, Except.map, Except.ok.injEq] at hseal
        exact ⟨b, rfl, hseal.symm⟩

/-- A message of the first height, signed with `seedKey n`, for concrete runs. -/
def ofSeed (n : UInt8) (type : MessageType) (round : ℤ) (block : Block) : ConsensusMessage :=
  let blockHash := block.hash.toOption.getD []
  match create type 1 round blockHash (seedKey n) (some block) with
  | .ok m => m
  | .error _ => { type, height := 1, round, blockHash, sender := [], signature := [] }

end ConsensusMessage

end Helix
