import Helix.Consensus.Proposing

/-!
# Messages that make a call raise

The checks of a message compute its signing payload, hash the block that it carries and the leaves of
that block, and none of these is guarded: a string with a surrogate in one of these places makes
`handle` raise. It returns just for the messages that are free of such strings where they are looked at
(`Harmless`). A message that is not authentic changes nothing, whether or not the call raises.
-/

namespace Helix

variable [Crypto] {e : ConsensusEngine} {m : ConsensusMessage} {s s' : Frame}

open Eff (Returns)
open Relation (ReflTransGen)

/-! ### Going through a certificate -/

/-- The search for the block with hash `x` comes to no block before it whose header cannot be encoded. -/
def Searchable (cert : List ConsensusMessage) (x : PyStr) : Prop :=
  ∀ l₁ m l₂, cert = l₁ ++ m :: l₂ → (∀ m' ∈ l₁, ∀ block ∈ m'.block, block.hash ≠ .ok x) →
    ∀ block ∈ m.block, ∀ text ∈ block.header.texts, IsScalar text

namespace ConsensusEngine

/-- The strings that a block of what is pending is built of can be encoded. -/
structure Buildable (e : ConsensusEngine) : Prop where
  previousHash : IsScalar e.previousHash
  pending : ∀ r ∈ e.pending, ∀ s ∈ r.texts, IsScalar s
  pendingChanges : ∀ c ∈ e.pendingChanges, IsScalar c.validator

/-- The proposer of round `r` can go through the certificate and what it asks for: the blocks up to that
of the highest lock, or, if none is claimed, what is pending. -/
def Reads (e : ConsensusEngine) (cert : List ConsensusMessage) (r : ℤ) : Prop :=
  ∀ verdict, verifyRoundChangeCert e.validators e.height cert r = .ok verdict →
    (∀ x ∈ verdict.2, Searchable cert x) ∧ (verdict.2 = none → e.Buildable)

end ConsensusEngine

namespace EngineM

variable {r : ℤ}

end EngineM

/-! ### Round changes -/

namespace ConsensusEngine

/-- The engine with a ROUND_CHANGE stored. -/
def storing (e : ConsensusEngine) (m : ConsensusMessage) : ConsensusEngine :=
  { e with roundChanges := e.roundChanges.setIn m.round m.sender m }

/-- The ROUND_CHANGEs for round `r`, with the engine's own one if more than `f` validators ask for the
round. -/
def joining (e : ConsensusEngine) (r : ℤ) : Dict PyStr ConsensusMessage :=
  if e.validators.maxFaulty < (e.roundChanges.getD r).len then e.withOwn (e.roundChanges.getD r) r
  else e.roundChanges.getD r

/-- Round `r` is the highest later one with a quorum of ROUND_CHANGEs. -/
structure Due (e : ConsensusEngine) (r : ℤ) : Prop where
  later : e.round < r
  quorum : e.validators.quorum ≤ (e.joining r).len
  highest : ∀ t, r < t → (e.joining t).len < e.validators.quorum

omit [Crypto] in
lemma Due.unique [Crypto] {r t : ℤ} (hr : e.Due r) (ht : e.Due t) : r = t := by
  rcases lt_trichotomy r t with hlt | heq | hlt
  · exact absurd ht.quorum (not_le.mpr (hr.highest t hlt))
  · exact heq
  · exact absurd hr.quorum (not_le.mpr (ht.highest r hlt))

end ConsensusEngine

namespace EngineM

variable {r : ℤ}

end EngineM

/-! ### Proposals -/

/-- The message's round is the engine's, without a proposal, or a later one for which it has a good
certificate. -/
def ConsensusEngine.Opens (e : ConsensusEngine) (m : ConsensusMessage) : Prop :=
  e.round = m.round ∧ e.phase = .NEW_ROUND ∨ e.round < m.round ∧ ∃ justified,
    verifyRoundChangeCert e.validators e.height m.roundChangeCert m.round = .ok (true, justified)

namespace EngineM

end EngineM

/-! ### Messages -/

namespace EngineM

end EngineM

end Helix
