import Helix.Consensus.Agreement
import Helix.Consensus.Seals

/-!
# Certificates and agreement

A seal does not say in which round it was given. A certificate whose seals come from one round settles
the height: no correct validator COMMITs to another block in that round or a later one, and every other
certificate of one round is for the same block (`certificate_settles`). Seals of different rounds make
a certificate as well, and such certificates can be for different blocks, with one faulty validator of
four and the round-change discipline kept (`certificates_fork`).
-/

namespace Helix

variable [Crypto]

open Relation (ReflTransGen)

namespace Block

/-- No key is named by two entries of the commit signatures. -/
def SealedOnce (b : Block) : Prop :=
  ∀ entry ∈ b.commitSignatures.items, ∀ entry' ∈ b.commitSignatures.items, ∀ k,
    PublicKey.fromHex entry.1 = .ok k → PublicKey.fromHex entry'.1 = .ok k → entry.1 = entry'.1

lemma SealedOnce.finalizedBy {b : Block} (h : b.SealedOnce) {V : ValidatorSet}
    (hfinal : verifyFinality b V = .ok true) : b.FinalizedBy V := by
  refine finalizedBy_of_not_sealedTwice (fun key _ => ?_) hfinal
  rintro ⟨x, hx, y, hy, hne, ⟨-, -, -, hkey, -⟩, ⟨-, -, -, hkey', -⟩⟩
  exact hne (h x hx y hy key hkey hkey')

/-- Two blocks with certificates of one validator set have more than `max_faulty` sealers in common. -/
lemma FinalizedBy.exists_common {b b' : Block} {V : ValidatorSet} (h : b.FinalizedBy V)
    (h' : b'.FinalizedBy V) : ∃ D : Finset PublicKey, V.maxFaulty < D.card ∧
      ∀ k ∈ D, k ∈ V.validators ∧ b.SealedBy k ∧ b'.SealedBy k := by
  obtain ⟨Q, hcard, hQ⟩ := h
  obtain ⟨Q', hcard', hQ'⟩ := h'
  have hquorum := ValidatorSet.isQuorum (fun k hk => (hQ k hk).1) hcard
  have hquorum' := ValidatorSet.isQuorum (fun k hk => (hQ' k hk).1) hcard'
  refine ⟨Q ∩ Q', hquorum.lt_card_inter V.three_mul_maxFaulty_lt hquorum', fun k hk => ?_⟩
  obtain ⟨hk, hk'⟩ := Finset.mem_inter.mp hk
  exact ⟨(hQ k hk).1, (hQ k hk).2, (hQ' k hk').2⟩

end Block

namespace Network

variable {net : Network} {w₀ w : World} {block : Block} {r : ℤ} {h : PyStr}

/-! ### Certificates of one round -/

variable (net w) in
/-- The seals of correct validators on the block are those of their COMMITs of round `r`. -/
def SealedIn (block : Block) (r : ℤ) : Prop :=
  ∀ k, net.Correct k → block.SealedBy k →
    ∃ m ∈ (w k).sent, m.type = .COMMIT ∧ m.round = r ∧ block.hash = .ok m.blockHash

/-- A certificate of one round is a quorum of COMMITs of the round. -/
lemma SealedIn.exists_committed (hsealed : net.SealedIn w block r)
    (hfinal : block.FinalizedBy net.validators) : ∃ h, block.hash = .ok h ∧ net.Committed w r h := by
  obtain ⟨Q, hcard, hQ⟩ := hfinal
  have hquorum := ValidatorSet.isQuorum (fun k hk => (hQ k hk).1) hcard
  obtain ⟨k, hk, -, hc⟩ := hquorum.exists_correct_inter net.validators.three_mul_maxFaulty_lt
    net.card_faulty_le hquorum
  obtain ⟨m, -, -, -, hh⟩ := hsealed k hc (hQ k hk).2
  refine ⟨m.blockHash, hh, Q, hquorum, fun k' hk' hc' => ?_⟩
  obtain ⟨m', hm', ht', hr', hh'⟩ := hsealed k' hc' (hQ k' hk').2
  exact ⟨m', hm', ht', hr', (Except.ok.inj (hh.symm.trans hh')).symm⟩

/-- What a quorum has COMMITted to in a round, correct validators COMMIT to from then on. -/
lemma Disciplined.eq_of_committed (hw : net.Disciplined w) (hc : net.Committed w r h) {k : PublicKey}
    (hk : net.Correct k) {m : ConsensusMessage} (hm : m ∈ (w k).sent) (ht : m.type = .COMMIT)
    (hround : r ≤ m.round) : h = m.blockHash := by
  have hf := net.validators.three_mul_maxFaulty_lt
  have hprepared := (hw k hk).commits m hm ht
  rcases hround.lt_or_eq with hlt | rfl
  · exact (hw.safe_of_prepared hprepared).eq_of_commitQuorum hf net.card_faulty_le hlt hc
  · obtain ⟨Q, hQ, hcommitted⟩ := hc
    obtain ⟨k', hk', -, hc'⟩ := hQ.exists_correct_inter hf net.card_faulty_le hQ
    exact (hw.prepared_of_committed k' m.round h hc' (hcommitted k' hk' hc')).unique hf
      net.card_faulty_le hw.prepares_once hprepared

/-- In a run whose calls prepare ahead of every announced round, and are handed messages that name their
senders as `to_hex` writes them, a certificate whose seals come from one round settles the height:
correct validators COMMIT to its block in that round and all later ones, other certificates of one
round are for the same block, and so are the blocks that correct validators decide. -/
theorem certificate_settles (hstart : net.Begins w₀)
    (hrun : ReflTransGen (net.CallStep fun w e c => net.Admits w e c ∧ PreparesAhead e c) w₀ w)
    (hfinal : verifyFinality block net.validators = .ok true) (honce : block.SealedOnce)
    (hsealed : net.SealedIn w block r) :
    (∀ k, net.Correct k → ∀ m ∈ (w k).sent, m.type = .COMMIT → r ≤ m.round →
      block.hash = .ok m.blockHash) ∧
    (∀ block' r', verifyFinality block' net.validators = .ok true → block'.SealedOnce →
      net.SealedIn w block' r' → block'.hash = block.hash) ∧
    ∀ k, net.Correct k → ∀ b ∈ (w k).decided, b.hash = block.hash := by
  have hw : net.Disciplined w := .run hstart hrun
  obtain ⟨h, hh, hc⟩ := hsealed.exists_committed (honce.finalizedBy hfinal)
  have hagree : ∀ {r' h'}, net.Committed w r' h' → h' = h := fun hc' =>
    Voting.agreement net.validators.three_mul_maxFaulty_lt net.card_faulty_le hw.prepares_once
      hw.prepared_of_committed (fun r h hp => hw.safe_of_prepared hp) hc' hc
  refine ⟨fun k hk m hm ht hround => ?_, fun block' r' hfinal' honce' hsealed' => ?_, fun k hk b hb => ?_⟩
  · rw [hh, hw.eq_of_committed hc hk hm ht hround]
  · obtain ⟨h', hh', hc'⟩ := hsealed'.exists_committed (honce'.finalizedBy hfinal')
    rw [hh, hh', hagree hc']
  · obtain ⟨r', h', hh', hc'⟩ := (hw k hk).decided b hb
    rw [hh, hh', hagree hc']

omit [Crypto] in
/-- The certificate of round 0, with the seals of two correct validators and of the faulty one, settles the
height for a third one, which COMMITs in round 1. -/
theorem certificate_settles_of_quartet :
    letI := Crypto.checksums
    let a := seedPublic 0xaa
    let c := seedPublic 0xcc
    ∃ block ∈ (lockedWorld a).decided,
      (∃ m ∈ (lockedWorld c).sent, m.type = .COMMIT ∧ m.round = 1 ∧ block.hash = .ok m.blockHash) ∧
      ∀ b ∈ (lockedWorld c).decided, b.hash = block.hash := by
  let := Crypto.checksums
  intro a c
  have hc : oneFaulty.Correct c := by decide +kernel
  have hblock : ∃ block ∈ (lockedWorld a).decided, verifyFinality block oneFaulty.validators = .ok true ∧
      (∀ entry ∈ block.commitSignatures.items, ∀ entry' ∈ block.commitSignatures.items,
        PublicKey.fromHex entry.1 = PublicKey.fromHex entry'.1 → entry.1 = entry'.1) ∧
      ∀ k ∈ block.sealKeys oneFaulty.validators, oneFaulty.Correct k →
        ∃ m ∈ (lockedWorld k).sent, m.type = .COMMIT ∧ m.round = 0 ∧ block.hash = .ok m.blockHash := by
    decide +kernel
  have hcommit : ∃ m ∈ (lockedWorld c).sent, m.type = .COMMIT ∧ m.round = 1 := by decide +kernel
  obtain ⟨block, hmem, hfinal, honce, hsealed⟩ := hblock
  obtain ⟨m, hm, ht, hr⟩ := hcommit
  have hsettles := certificate_settles (r := 0) begins_quartet reaches_lockedWorld hfinal
    (fun x hx y hy k hk hk' => honce x hx y hy (hk.trans hk'.symm))
    fun k hk hseal => hsealed k (Block.mem_sealKeys.mpr ⟨hk.1, hseal⟩) hk
  refine ⟨block, hmem, ⟨m, hm, ht, hr, ?_⟩, hsettles.2.2 c hc⟩
  exact hsettles.1 c hc m hm ht (hr ▸ zero_le_one)

/-! ### Certificates of several rounds -/

section Fork

omit [Crypto]

/-- The others COMMIT to one block in the rounds 0 and 3, and to another one in the rounds 1 and 4, after
round changes that justify each of the proposals. -/
def forkActs : List Act :=
  let a := seedPublic 0xaa
  let b := seedPublic 0xbb
  let c := seedPublic 0xcc
  let d (type : MessageType) := Act.echo (seedKey 0xdd) type
  [ -- round 0: `b` proposes, `a` COMMITs
    .turn (.pending b [] [⟨.ADD, []⟩]), .turn (.relay b a 0), .turn (.relay b a 1), d .PREPARE b 1 a,
    -- round 1: `c` proposes, `b` COMMITs
    .turn (.pending c [] [⟨.REMOVE, []⟩]), .turn (.timeout b), .turn (.timeout c), .turn (.relay b c 2),
    d .ROUND_CHANGE b 2 c, .turn (.relay c b 1), .turn (.relay c b 2), d .PREPARE c 2 b,
    -- round 3: `a` proposes its lock again, `c` COMMITs
    .turn (.timeout a), .turn (.timeout a), .turn (.timeout a), .turn (.timeout c), .turn (.timeout c),
    .turn (.relay c a 4), d .ROUND_CHANGE c 4 a, .turn (.relay a c 5), .turn (.relay a c 6),
    d .PREPARE a 6 c,
    -- round 4: `b` proposes its lock, which is a higher one, and `a` COMMITs
    .turn (.timeout b), .turn (.timeout b), .turn (.timeout b), .turn (.timeout a), .turn (.relay a b 7),
    d .ROUND_CHANGE b 7 b, .turn (.relay b a 8), .turn (.relay b a 9), d .PREPARE b 9 a]

/-- The world after these acts. -/
def forkWorld : World :=
  letI := Crypto.checksums
  forkActs.foldl Act.play (worldOfSeed .quartet quartetSeed)

/-- The block of a message with the seals of two COMMITs and one of the faulty validator. -/
def forkBlocks (m : Option ConsensusMessage) (k k' : PublicKey) (i i' : ℕ) : List Block :=
  letI := Crypto.checksums
  (m.bind (·.block)).toList.map fun block =>
    let sealOf (k : PublicKey) (i : ℕ) : PyStr := ((forkWorld k).sent[i]?.bind (·.commitSeal)).getD []
    let data := (block.hash.bind encode).toOption.getD []
    { block with commitSignatures := Dict.ofList [(k.toHex, sealOf k i), (k'.toHex, sealOf k' i'),
      ((seedPublic 0xdd).toHex, toHex ((seedKey 0xdd).sign data))] }

/-- That the seals come from one round cannot be left out of `certificate_settles`. One of four validators
is faulty, and the others prepare ahead of every announced round: either of two blocks has a certificate
with seals of COMMITs that correct validators have sent. -/
theorem certificates_fork :
    letI := Crypto.checksums
    oneFaulty.Begins (worldOfSeed .quartet quartetSeed) ∧
      ReflTransGen (oneFaulty.CallStep fun w e c => oneFaulty.Admits w e c ∧ PreparesAhead e c)
        (worldOfSeed .quartet quartetSeed) forkWorld ∧
      ∃ x y : Block, (∀ block ∈ [x, y], verifyFinality block oneFaulty.validators = .ok true ∧
        ∀ k, oneFaulty.Correct k → block.SealedBy k →
          ∃ m ∈ (forkWorld k).sent, m.type = .COMMIT ∧ block.hash = .ok m.blockHash) ∧
        x.hash ≠ y.hash := by
  let := Crypto.checksums
  have hchecked : goes oneFaulty keepsAhead (worldOfSeed .quartet quartetSeed) forkActs = true ∧
      ∃ x ∈ forkBlocks (forkWorld (seedPublic 0xbb)).sent[0]? (seedPublic 0xaa) (seedPublic 0xcc) 1 6,
      ∃ y ∈ forkBlocks (forkWorld (seedPublic 0xcc)).sent[1]? (seedPublic 0xaa) (seedPublic 0xbb) 9 4,
        (∀ block ∈ [x, y], verifyFinality block oneFaulty.validators = .ok true ∧
          ∀ k ∈ block.sealKeys oneFaulty.validators, oneFaulty.Correct k →
            ∃ m ∈ (forkWorld k).sent, m.type = .COMMIT ∧ block.hash = .ok m.blockHash) ∧
        x.hash ≠ y.hash := by
    decide +kernel
  obtain ⟨hgoes, x, -, y, -, hcertified, hne⟩ := hchecked
  have hfair : ∀ act ∈ forkActs, act.fair oneFaulty = true := by decide +kernel
  refine ⟨begins_quartet, reaches_ahead (by decide) (.of_begins begins_quartet) hfair hgoes, x, y,
    fun block hblock => ?_, hne⟩
  obtain ⟨hfinal, hseals⟩ := hcertified block hblock
  exact ⟨hfinal, fun k hk hsealed => hseals k (Block.mem_sealKeys.mpr ⟨hk.1, hsealed⟩) hk⟩

end Fork

end Network

end Helix
