import Helix.Consensus.Tallies

/-!
# Validators on an open network

The validators of one height, some of them faulty, and an adversary that delivers what it likes: old
messages again, none at all, messages with another block or other certificates. It cannot sign for a
correct validator (`Deliverable`). Faulty validators have no state here; what they send is whatever is
delivered in their name. Tallies and certificates are keyed by the text that names the sender, so what
they stand for is said of messages that name their senders as `to_hex` writes them (`Named`).

`Vouches` says what a message of the network is evidence of; from it, every tally and every
certificate that passes the engine's checks stands for a quorum of validators.
-/

namespace Helix

open Voting (PreparedQuorum)

/-- A message, or a message of its certificates. -/
inductive ConsensusMessage.Part (p : ConsensusMessage) : ConsensusMessage → Prop
  | self : Part p p
  | preparedCert {q m : ConsensusMessage} (hq : q ∈ m.preparedCert) (hp : Part p q) : Part p m
  | roundChangeCert {q m : ConsensusMessage} (hq : q ∈ m.roundChangeCert) (hp : Part p q) : Part p m

/-- Every part that its sender has signed names it as `to_hex` writes it. -/
def ConsensusMessage.Named [Crypto] (m : ConsensusMessage) : Prop :=
  ∀ p : ConsensusMessage, p.Part m → Spelling.canonical.Spells p

/-- What the call is handed names its senders as `to_hex` writes them. -/
def Call.Named [Crypto] (c : Call) : Prop := ∀ m ∈ c.messages, m.Named

/-- The validators of one height, at most `f` of them faulty. -/
structure Network where
  validators : ValidatorSet
  height : ℤ
  faulty : Finset PublicKey
  few : faulty.card ≤ validators.maxFaulty

/-- The state of every validator; that of a faulty one has no meaning. -/
abbrev World := PublicKey → Validator

section Lists

variable {α : Type*} {T : PublicKey → List α} {k : PublicKey} {t t' : List α}

lemma subset_update (h : T k ⊆ t) (k' : PublicKey) : T k' ⊆ Function.update T k t k' := by
  by_cases hk : k' = k
  · subst hk
    rwa [Function.update_self]
  · rw [Function.update_of_ne hk]
    exact List.Subset.refl _

lemma update_subset_update (h : t ⊆ t') (k' : PublicKey) :
    Function.update T k t k' ⊆ Function.update T k t' k' := by
  by_cases hk : k' = k
  · subst hk
    rwa [Function.update_self, Function.update_self]
  · rw [Function.update_of_ne hk, Function.update_of_ne hk]
    exact List.Subset.refl _

end Lists

namespace Network

variable (net : Network)

/-- A validator that runs the engine. -/
def Correct (k : PublicKey) : Prop := k ∈ net.validators.validators ∧ k ∉ net.faulty

instance : DecidablePred net.Correct := fun _ => inferInstanceAs (Decidable (_ ∧ _))

lemma card_faulty_le :
    (net.validators.members.filter fun k => ¬net.Correct k).card ≤ net.validators.maxFaulty := by
  refine (Finset.card_le_card fun k hk => ?_).trans net.few
  obtain ⟨hmem, hnot⟩ := Finset.mem_filter.mp hk
  by_contra hk
  exact hnot ⟨(net.validators.mem_members k).mp hmem, hk⟩

variable [Crypto]

/-- What the network can deliver: no part bears the signature of a correct validator that has not
signed the same payload. -/
def Deliverable (w : World) (m : ConsensusMessage) : Prop :=
  ∀ p : ConsensusMessage, p.Part m → ∀ k, PublicKey.fromHex p.sender = .ok k → net.Correct k →
    p.height = net.height → p.verifySignature = .ok true →
      ∃ m' ∈ (w k).sent ++ (w k).lost, m'.signingPayload = p.signingPayload

/-- The network delivers what the call is handed. -/
def Delivers (w : World) (c : Call) : Prop := ∀ m ∈ c.messages, net.Deliverable w m

end Network

variable [Crypto]

namespace Network

variable {net : Network} {G : ConsensusMessage → Prop} {rec : Voting.Record PublicKey ℤ PyStr}
  {r : ℤ} {h : PyStr}

/-! ### Quorums of messages -/

variable (net G rec) in
/-- Messages that satisfy `G` name their senders as `to_hex` writes them, and the PREPAREs of correct
validators among them are on record. -/
structure Vouches : Prop where
  spells : ∀ m, G m → Spelling.canonical.Spells m
  prepared : ∀ k r m, net.Correct k → G m → Attests net.validators .PREPARE net.height r k m →
    rec.prepared k r m.blockHash

variable (net rec) in
/-- The correct members of a quorum have prepared `h` in round `r`. -/
def Prepared (r : ℤ) (h : PyStr) : Prop :=
  PreparedQuorum net.validators.members net.validators.maxFaulty net.Correct rec r h

namespace Prepared

lemma of_signers (hG : net.Vouches G rec) {Q : Finset PublicKey}
    (hcard : net.validators.quorum ≤ Q.card)
    (hQ : ∀ k ∈ Q, ∃ m, G m ∧ Attests net.validators .PREPARE net.height r k m ∧
      m.blockHash = h) : net.Prepared rec r h := by
  refine ⟨Q, ValidatorSet.isQuorum (fun k hk => ?_) hcard, fun k hk hc => ?_⟩
  · obtain ⟨m, -, hatt, -⟩ := hQ k hk
    exact hatt.member
  · obtain ⟨m, hm, hatt, rfl⟩ := hQ k hk
    exact hG.prepared k r m hc hm hatt

/-- A certificate that passes `_verify_prepares` stands for a quorum. -/
lemma of_verifyPrepares (hG : net.Vouches G rec) {cert : List ConsensusMessage}
    (hcert : ∀ m ∈ cert, G m)
    (hv : verifyPrepares net.validators net.height cert r h = .ok true) :
    net.Prepared rec r h := by
  obtain ⟨Q, hcard, hQ⟩ := exists_signers_of_verifyPrepares .canonical
    (fun m hm => hG.spells m (hcert m hm)) hv
  refine of_signers hG hcard fun k hk => ?_
  obtain ⟨m, hm, hrest⟩ := hQ k hk
  exact ⟨m, hcert m hm, hrest⟩

/-- A PREPARE tally with a quorum of entries stands for a quorum. -/
lemma of_tallied (hG : net.Vouches G rec) {e : ConsensusEngine} (he : Tallied G e)
    (hvals : e.validators = net.validators) (hheight : e.height = net.height)
    (hq : e.validators.quorum ≤ (e.prepares.getD h).len) : net.Prepared rec e.round h := by
  obtain ⟨Q, hcard, -, hQ⟩ := he.exists_signers .canonical hG.spells hq
  rw [hvals] at hcard hQ
  rw [hheight] at hQ
  exact of_signers hG hcard hQ

end Prepared

end Network

end Helix
