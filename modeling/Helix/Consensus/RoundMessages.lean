import Helix.Consensus.Tallies
import Helix.Domain.Encoding

/-!
# The messages of a round

The messages of one round are told apart by what a fresh engine makes of them: the votes it counts, the
ROUND_CHANGEs it stores, a proposal it accepts. What it ends with is a function of these sets
(`voters`, `changers`, `Proposed`).
-/

namespace Helix

variable [Crypto]

/-! ### Checking a message -/

/-- If the message is signed in the name of a validator, in hexadecimal, its block hash can be
encoded. -/
def ConsensusMessage.Checkable (m : ConsensusMessage) (V : ValidatorSet) : Prop :=
  ∀ key ∈ V.validators, PublicKey.fromHex m.sender = .ok key →
    (∃ sig, fromHex m.signature = .ok sig) → IsScalar m.blockHash

/-- `_authentic` returns just for such messages. -/
lemma ConsensusMessage.exists_authentic_iff {m : ConsensusMessage} {V : ValidatorSet} :
    (∃ ok, authentic V m = .ok ok) ↔ m.Checkable V := by
  unfold authentic Checkable
  cases hkey : PublicKey.fromHex m.sender with
  | error err =>
    refine iff_of_true ⟨false, rfl⟩ fun key _ h => ?_
    cases h
  | ok key =>
    by_cases hmem : V.contains key = true
    swap
    · simp only [hmem]
      refine iff_of_true ⟨false, rfl⟩ fun key' hmem' h => ?_
      cases h
      exact absurd ((V.contains_iff key).mpr hmem') hmem
    simp only [hmem, if_true, verifySignature, hkey]
    cases hsig : fromHex m.signature with
    | error err =>
      refine iff_of_true ⟨false, rfl⟩ fun _ _ _ h => ?_
      obtain ⟨sig, h⟩ := h
      cases h
    | ok sig =>
      have hpayload : (∃ b, canonicalBytes (payload m.type m.height m.round m.blockHash
          m.preparedRound) = .ok b) ↔ IsScalar m.blockHash :=
        exists_payload_iff m.type m.height m.round m.preparedRound
      simp only [signingPayload]
      constructor
      · rintro ⟨ok, hok⟩ - - - -
        obtain ⟨bytes, hbytes, -⟩ := exists_of_map_eq_ok hok
        exact hpayload.mp ⟨bytes, hbytes⟩
      · intro h
        obtain ⟨bytes, hbytes⟩ := hpayload.mpr (h key ((V.contains_iff key).mp hmem) rfl ⟨sig, rfl⟩)
        rw [hbytes]
        exact ⟨_, rfl⟩

/-- The block hash of a signed message can be encoded. -/
lemma isScalar_of_verifySignature {m : ConsensusMessage} (h : m.verifySignature = .ok true) :
    IsScalar m.blockHash :=
  (ConsensusMessage.exists_payload_iff m.type m.height m.round m.preparedRound).mp
    (ConsensusMessage.exists_signingPayload h)

lemma isScalar_of_authentic {V : ValidatorSet} {m : ConsensusMessage} (h : authentic V m = .ok true) :
    IsScalar m.blockHash := by
  obtain ⟨-, -, -, hsig⟩ := authentic_eq_true.mp h
  exact isScalar_of_verifySignature hsig

omit [Crypto] in
lemma IsScalar.checkable {m : ConsensusMessage} (h : IsScalar m.blockHash) (V : ValidatorSet) :
    m.Checkable V := fun _ _ _ _ => h

/-! ### The messages of a round -/

/-- A proposal of the proposer of round `r` that the engine accepts once it is in the round. -/
structure AcceptableProposal (e : ConsensusEngine) (r : ℤ) (block : Block) (m : ConsensusMessage) :
    Prop where
  sender : PublicKey.fromHex m.sender = .ok (e.validators.proposer e.height r)
  carries : m.block = some block
  hash : block.hash = .ok m.blockHash
  valid : e.structurallyValid block = .ok true
  cert : 0 < r → ∃ justified, verifyRoundChangeCert e.validators e.height m.roundChangeCert r =
    .ok (true, justified) ∧ ∀ j ∈ justified, j = m.blockHash

/-- An authentic message for round `r`, under the canonical name of another validator: a COMMIT with a
valid seal, a proposal of `block` that is acceptable, or any PREPARE or ROUND_CHANGE. -/
structure MessageOfRound (e : ConsensusEngine) (r : ℤ) (block : Block) (m : ConsensusMessage) :
    Prop where
  accepted : Accepted e m
  round : m.round = r
  sender : ∃ k : PublicKey, m.sender = k.toHex ∧ k ≠ e.me
  sealed : m.type = .COMMIT → validCommitSeal m = .ok true
  proposal : m.type = .PRE_PREPARE → AcceptableProposal e r block m

/-- What is checked of a message of a certificate before it is stored. -/
def storable (V : ValidatorSet) (height : ℤ) (m : ConsensusMessage) : Except PyError Bool := do
  if ← authentic V m then validRoundChange V height m else return false

/-- The messages of the certificate can be checked. -/
def ConsensusMessage.CertChecks (e : ConsensusEngine) (m : ConsensusMessage) : Prop :=
  ∀ q ∈ m.roundChangeCert, ∃ ok, authentic e.validators q = .ok ok

/-- The senders of the messages of a type for a block hash. -/
def voters (D : List ConsensusMessage) (type : MessageType) (x : PyStr) : Finset PyStr :=
  ((D.filter fun m => m.type = type ∧ m.blockHash = x).map (·.sender)).toFinset

/-- The senders of the valid ROUND_CHANGEs. -/
def changers (e : ConsensusEngine) (D : List ConsensusMessage) : Finset PyStr :=
  ((D.filter fun m => m.type = .ROUND_CHANGE ∧
    validRoundChange e.validators e.height m = .ok true).map (·.sender)).toFinset

/-- A proposal is among the messages. -/
def Proposed (D : List ConsensusMessage) : Prop := ∃ m ∈ D, m.type = .PRE_PREPARE

omit [Crypto] in
@[simp] lemma mem_voters {D : List ConsensusMessage} {type : MessageType} {x i : PyStr} :
    i ∈ voters D type x ↔ ∃ m ∈ D, m.type = type ∧ m.blockHash = x ∧ m.sender = i := by
  simp [voters, and_assoc]

@[simp] lemma mem_changers {e : ConsensusEngine} {D : List ConsensusMessage} {i : PyStr} :
    i ∈ changers e D ↔ ∃ m ∈ D, m.type = .ROUND_CHANGE ∧
      validRoundChange e.validators e.height m = .ok true ∧ m.sender = i := by
  simp [changers, and_assoc]

section Concat

variable {D : List ConsensusMessage} {m : ConsensusMessage} {type : MessageType} {x i : PyStr}

omit [Crypto] in
lemma mem_voters_concat : i ∈ voters (D ++ [m]) type x ↔
    i ∈ voters D type x ∨ m.type = type ∧ m.blockHash = x ∧ m.sender = i := by
  simp [or_and_right, exists_or]

omit [Crypto] in
lemma voters_concat_of_ne (h : m.type ≠ type) : voters (D ++ [m]) type x = voters D type x := by
  ext i
  simp [h]

omit [Crypto] in
/-- A vote under its sender's name, next to the other votes. -/
lemma mem_voters_concat_or (h : m.type = type) {P : Prop} :
    (x = m.blockHash ∧ i = m.sender) ∨ i ∈ voters D type x ∨ P ↔
      i ∈ voters (D ++ [m]) type x ∨ P := by
  rw [mem_voters_concat]
  constructor
  · rintro (⟨rfl, rfl⟩ | hvote | hP)
    · exact Or.inl (Or.inr ⟨h, rfl, rfl⟩)
    · exact Or.inl (Or.inl hvote)
    · exact Or.inr hP
  · rintro ((hvote | ⟨-, rfl, rfl⟩) | hP)
    · exact Or.inr (Or.inl hvote)
    · exact Or.inl ⟨rfl, rfl⟩
    · exact Or.inr (Or.inr hP)

omit [Crypto] in
lemma voters_subset_concat : voters D type x ⊆ voters (D ++ [m]) type x := fun _ hi =>
  mem_voters_concat.mpr (Or.inl hi)

omit [Crypto] in
lemma proposed_concat : Proposed (D ++ [m]) ↔ Proposed D ∨ m.type = .PRE_PREPARE := by
  simp [Proposed, or_and_right, exists_or]

omit [Crypto] in
lemma proposed_concat_of_ne (h : m.type ≠ .PRE_PREPARE) : Proposed (D ++ [m]) ↔ Proposed D := by
  simp [proposed_concat, h]

lemma changers_concat_of_ne {e : ConsensusEngine} (h : m.type = .ROUND_CHANGE →
    validRoundChange e.validators e.height m ≠ .ok true) : changers e (D ++ [m]) = changers e D := by
  ext i
  simp only [mem_changers, List.mem_append, List.mem_singleton]
  constructor
  · rintro ⟨m', hm' | rfl, ht, hvalid, hsender⟩
    · exact ⟨m', hm', ht, hvalid, hsender⟩
    · exact absurd hvalid (h ht)
  · rintro ⟨m', hm', hrest⟩
    exact ⟨m', Or.inl hm', hrest⟩

lemma changers_concat {e : ConsensusEngine} (ht : m.type = .ROUND_CHANGE)
    (h : validRoundChange e.validators e.height m = .ok true) :
    changers e (D ++ [m]) = insert m.sender (changers e D) := by
  ext i
  simp only [mem_changers, List.mem_append, List.mem_singleton, Finset.mem_insert]
  constructor
  · rintro ⟨m', hm' | rfl, hrest⟩
    · exact Or.inr ⟨m', hm', hrest⟩
    · exact Or.inl hrest.2.2.symm
  · rintro (rfl | ⟨m', hm', hrest⟩)
    · exact ⟨m, Or.inr rfl, ht, h, rfl⟩
    · exact ⟨m', Or.inl hm', hrest⟩

lemma changers_subset_concat {e : ConsensusEngine} : changers e D ⊆ changers e (D ++ [m]) := by
  intro i hi
  obtain ⟨m', hm', hrest⟩ := mem_changers.mp hi
  exact mem_changers.mpr ⟨m', List.mem_append_left _ hm', hrest⟩

end Concat

/-! ### Messages that are made -/

section Create

variable {type : MessageType} {x : PyStr} {key : PrivateKey} {b : Option Block}
  {preparedRound : Option ℤ} {preparedCert roundChangeCert : List ConsensusMessage}
  {m : ConsensusMessage}

/-- What a validator makes is authentic. -/
lemma authentic_of_create {validators : ValidatorSet} {height round : ℤ}
    (hm : ConsensusMessage.create type height round x key b preparedRound preparedCert
      roundChangeCert = .ok m) (hkey : key.publicKey ∈ validators.validators) :
    authentic validators m = .ok true := by
  obtain ⟨-, -, -, -, hsender, -⟩ := ConsensusMessage.create_eq hm
  refine authentic_eq_true.mpr ⟨key.publicKey, ?_, hkey, ConsensusMessage.create_verifySignature hm⟩
  rw [hsender, PublicKey.fromHex_toHex]

/-- What another validator makes for the round. -/
lemma MessageOfRound.of_create {e : ConsensusEngine} {r : ℤ} {block : Block}
    (hm : ConsensusMessage.create type e.height r x key b preparedRound preparedCert roundChangeCert =
      .ok m) (hkey : key.publicKey ∈ e.validators.validators) (hne : key.publicKey ≠ e.me)
    (hseal : type = .COMMIT → validCommitSeal m = .ok true)
    (hprop : type = .PRE_PREPARE → AcceptableProposal e r block m) : MessageOfRound e r block m := by
  obtain ⟨ht, hheight, hround, -, hsender, -⟩ := ConsensusMessage.create_eq hm
  exact {
    accepted := ⟨hheight, authentic_of_create hm hkey⟩
    round := hround
    sender := ⟨_, hsender, hne⟩
    sealed := fun h => hseal (ht ▸ h)
    proposal := fun h => hprop (ht ▸ h) }

end Create

/-- What the proposer makes for the round, with a certificate that shows no lock. -/
lemma AcceptableProposal.of_create {e : ConsensusEngine} {r : ℤ} {block : Block} {x : PyStr}
    {key : PrivateKey} {cert : List ConsensusMessage} {m : ConsensusMessage}
    (hm : ConsensusMessage.create .PRE_PREPARE e.height r x key (some block) none [] cert = .ok m)
    (hkey : key.publicKey = e.validators.proposer e.height r) (hx : block.hash = .ok x)
    (hvalid : e.structurallyValid block = .ok true)
    (hcert : verifyRoundChangeCert e.validators e.height cert r = .ok (true, none)) :
    AcceptableProposal e r block m := by
  obtain ⟨-, -, -, hhash, hsender, hblock, -, -, hrcert⟩ := ConsensusMessage.create_eq hm
  refine ⟨?_, hblock, hhash.symm ▸ hx, hvalid, fun _ => ⟨none, hrcert.symm ▸ hcert, ?_⟩⟩
  · rw [hsender, PublicKey.fromHex_toHex, hkey]
  · intro j hj
    cases hj

end Helix
