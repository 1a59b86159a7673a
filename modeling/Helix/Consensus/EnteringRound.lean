import Helix.Consensus.InRound

/-!
# Entering a round

An engine that waits for its round keeps the votes that come early (`Validator.Waiting`). When it enters,
by a proposal or by a quorum of ROUND_CHANGEs, the votes are replayed, in whatever order they came.
-/

namespace Helix

variable [Crypto]

open Eff (Returns)

section Round

variable {e₀ : ConsensusEngine} {r : ℤ} {h : PyStr} {block : Block} {D D' : List ConsensusMessage}
  {v : Validator} {c : Call} {s : Frame} {m : ConsensusMessage}

/-! ### Entering the round -/

/-- The lock of an authentic ROUND_CHANGE can be checked. -/
lemma exists_validRoundChange {validators : ValidatorSet} (height : ℤ)
    (hm : authentic validators m = .ok true) :
    ∃ ok, validRoundChange validators height m = .ok ok := by
  have hhash := isScalar_of_authentic hm
  unfold validRoundChange
  split
  · exact ⟨_, rfl⟩
  · rename_i p _
    obtain ⟨senders, hsenders⟩ : ∃ senders,
        prepareSenders validators height m.preparedCert p m.blockHash = .ok senders := by
      refine exists_foldlM (fun q _ acc => ?_) []
      split_ifs with hcond
      · have hscalar : IsScalar q.blockHash := hcond.2.2.2 ▸ hhash
        obtain ⟨ok, hok⟩ := ConsensusMessage.exists_authentic_iff.mpr (hscalar.checkable validators)
        rw [hok]
        exact ⟨_, rfl⟩
      · exact ⟨_, rfl⟩
    rw [verifyPrepares, hsenders]
    exact ⟨_, rfl⟩

/-- The validator has yet to enter round `r`: it keeps the votes of `D`. -/
structure Validator.Waiting (e₀ : ConsensusEngine) (r : ℤ) (D : List ConsensusMessage)
    (v : Validator) : Prop where
  alike : e₀.Alike v.engine
  round : v.engine.round = 0
  phase : v.engine.phase = .NEW_ROUND
  proposal : v.engine.proposal = none
  unproposed : ¬Proposed D
  decided : v.decided = []
  buffer : ∀ m, m ∈ v.engine.buffer ↔ m ∈ D ∧ m.IsVote
  votes : ∀ p, v.engine.journal.votedHash r p = none
  lock : v.engine.preparedBlock = none

namespace EngineM

lemma replayVote_returns (hv : (v.during c s).InRound e₀ r h D) (hD : ¬Proposed D)
    (hvote : m.IsVote) (hseal : m.type = .COMMIT → validCommitSeal m = .ok true) :
    Returns (replayVote m) s fun _ s' => (v.during c s').InRound e₀ r h (D ++ [m]) ∧
      s'.engine.roundChanges = s.engine.roundChanges := by
  have hnone : s.engine.proposal = none := by
    refine hv.vacant ?_
    by_contra hphase
    exact hD (hv.proposed.mp hphase)
  rcases hvote with ht | ht
  · have hrun : replayVote m s = (.ok (), s.mapEngine fun e => { e with
        prepares := e.prepares.setIn m.blockHash m.sender m }) := by
      rw [replayVote, ht]
      exact maybeAdvance_of_none hnone
    exact .of_eq hrun ⟨hv.tallyPrepare ht, rfl⟩
  · have hrun : replayVote m s = (.ok (), s.mapEngine fun e => { e with
        commits := e.commits.setIn m.blockHash m.sender (m.commitSeal.getD []) }) := by
      rw [replayVote, ht]
      exact (Eff.lift_bind_ok (hseal ht) _ s).trans (maybeAdvance_of_none hnone)
    exact .of_eq hrun ⟨hv.tallyCommit ht (hseal ht), rfl⟩

/-- The round is entered with the votes that were kept for it. -/
lemma adoptRound_returns (hv : (v.during c s).Waiting e₀ r D) (hr : 0 < r)
    (hD : ∀ m ∈ D, MessageOfRound e₀ r block m) :
    Returns (adoptRound r) s fun _ s' => (v.during c s').InRound e₀ r h D ∧
      s'.engine.roundChanges = s.engine.roundChanges := by
  have hround : s.engine.round = 0 := hv.round
  unfold adoptRound
  refine returns_self ?_
  rw [if_neg (by omega)]
  refine returns_update ?_
  have hdecided : (v.during c s).decided = [] := hv.decided
  have hstart : (v.during c (s.mapEngine fun e => { e.startRound r with
      buffer := e.buffer.filter fun m => r < m.round })).InRound e₀ r h [] :=
    .empty ⟨hv.alike.validators, hv.alike.privateKey, hv.alike.height, hv.alike.previousHash⟩ rfl
      rfl rfl rfl rfl hdecided hv.votes
  have hmem : ∀ m, m ∈ s.engine.buffer ↔ m ∈ D ∧ m.IsVote := hv.buffer
  have hreplay := Returns.forM (f := replayVote)
    (l := s.engine.buffer.filter fun m => m.round = r)
    (I := fun l s' => ((v.during c s').InRound e₀ r h l ∧ ¬Proposed l) ∧
      s'.engine.roundChanges = s.engine.roundChanges) ⟨⟨hstart, nofun⟩, rfl⟩
    (fun l m hm s' hI => by
      obtain ⟨hmD, hvote⟩ := (hmem m).mp (List.mem_of_mem_filter hm)
      obtain ⟨⟨hI, hno⟩, hrc⟩ := hI
      refine (replayVote_returns hI hno hvote (hD m hmD).sealed).mono fun _ s'' h => ?_
      refine ⟨⟨h.1, fun hprop => ?_⟩, h.2.trans hrc⟩
      rcases proposed_concat.mp hprop with hprop | ht
      · exact hno hprop
      · rcases hvote with hv | hv <;> rw [ht] at hv <;> cases hv)
  refine hreplay.mono fun _ s' h => ⟨h.1.1.congr (fun m hvote => ?_) ?_, h.2⟩
  · rw [List.mem_filter, hmem]
    constructor
    · exact fun hm => hm.1.1
    · exact fun hm => ⟨⟨hm, hvote⟩, decide_eq_true (hD m hm).round⟩
  · exact iff_of_false h.1.2 hv.unproposed

/-! ### Proposals -/

/-- A message of a certificate changes the stored ROUND_CHANGEs only. -/
lemma ingestRoundChange_eq (m : ConsensusMessage) (s : Frame) :
    ingestRoundChange m s = match storable s.engine.validators s.engine.height m with
      | .error err => (.error err, s)
      | .ok false => (.ok (), s)
      | .ok true => (.ok (), s.mapEngine fun e => { e with
          roundChanges := e.roundChanges.setIn m.round m.sender m }) := by
  rw [ingestRoundChange, self_bind, storable]
  cases hauth : authentic s.engine.validators m with
  | error err => rfl
  | ok ok =>
    cases ok with
    | false => rfl
    | true =>
      rw [Eff.lift_bind_ok rfl, if_pos rfl]
      cases hvalid : validRoundChange s.engine.validators s.engine.height m with
      | error err => simp only [bind, Except.bind, if_true]; rfl
      | ok ok =>
        simp only [bind, Except.bind, if_true]
        cases ok <;> rfl

/-- The certificate is ingested: it changes the stored ROUND_CHANGEs only. -/
lemma ingest_returns (hvals : s.engine.validators = e₀.validators) (hm : m.CertChecks e₀) :
    Returns (m.roundChangeCert.forM ingestRoundChange) s fun _ s' =>
      ∃ d, s' = s.mapEngine fun e => { e with roundChanges := d } := by
  refine Returns.forM (I := fun _ s' => ∃ d, s' = s.mapEngine fun e => { e with
    roundChanges := d }) ⟨s.engine.roundChanges, rfl⟩ ?_
  rintro _ q hq _ ⟨d, rfl⟩
  obtain ⟨ok, hok⟩ := hm q hq
  rw [← hvals] at hok
  refine Returns.lift_bind hok ?_
  cases ok with
  | false => exact Returns.pure ⟨d, rfl⟩
  | true =>
    obtain ⟨ok', hok'⟩ := exists_validRoundChange s.engine.height hok
    refine Returns.lift_bind hok' ?_
    cases ok' with
    | false => exact Returns.pure ⟨d, rfl⟩
    | true => exact Returns.of_eq rfl ⟨_, rfl⟩

/-- A proposal takes a waiting engine to its round. -/
lemma enterRound_returns (hv : (v.during c s).Waiting e₀ r D) (hr : 0 < r)
    (hD : ∀ m ∈ D, MessageOfRound e₀ r block m) (hm : AcceptableProposal e₀ r block m)
    (hround : m.round = r) (hcert : m.CertChecks e₀) :
    Returns (enterRound m) s fun ok s' => ok = true ∧ (v.during c s').InRound e₀ r h D := by
  obtain ⟨justified, hverdict, -⟩ := hm.cert hr
  have hvals : s.engine.validators = e₀.validators := hv.alike.validators
  have hheight : s.engine.height = e₀.height := hv.alike.height
  have hzero : s.engine.round = 0 := hv.round
  rw [← hvals, ← hheight, ← hround] at hverdict
  unfold enterRound
  refine returns_self ?_
  rw [if_pos (by omega)]
  refine Returns.lift_bind hverdict (Returns.bind (ingest_returns hvals hcert) ?_)
  rintro _ s' ⟨d, rfl⟩
  have hv' : (v.during c (s.mapEngine fun e => { e with roundChanges := d })).Waiting e₀ r D :=
    ⟨⟨hv.alike.validators, hv.alike.privateKey, hv.alike.height, hv.alike.previousHash⟩, hv.round,
      hv.phase, hv.proposal, hv.unproposed, hv.decided, hv.buffer, hv.votes, hv.lock⟩
  rw [hround]
  exact Returns.bind (adoptRound_returns hv' hr hD) fun _ s'' h => Returns.pure ⟨rfl, h.1⟩

lemma proposalJustified_returns (he : e₀.Alike s.engine) (hr : 0 < r)
    (hm : AcceptableProposal e₀ r block m) (hround : m.round = r) :
    proposalJustified m s = (.ok true, s) := by
  obtain ⟨justified, hverdict, hj⟩ := hm.cert hr
  rw [← he.validators, ← he.height, ← hround] at hverdict
  rw [proposalJustified, self_bind, Eff.lift_bind_ok hverdict]
  cases justified with
  | none => rfl
  | some j =>
    obtain rfl : j = m.blockHash := hj j rfl
    simp only [hm.carries]
    exact (Eff.lift_bind_ok hm.hash _ s).trans (by simp)

/-- In an open round, an acceptable proposal of that round is accepted. -/
lemma handlePrePrepare_eq {s' : Frame} (hentered : enterRound m s = (.ok true, s'))
    (he : e₀.Alike s'.engine) (hround : s'.engine.round = r) (hphase : s'.engine.phase = .NEW_ROUND)
    (hm : AcceptableProposal e₀ r block m) (hr : m.round = r) :
    handlePrePrepare m s = acceptProposal block s' := by
  have hcur : ¬(m.round ≠ s'.engine.round ∨ s'.engine.phase ≠ .NEW_ROUND) := by
    simp [hr, hround, hphase]
  have hproposer : PublicKey.fromHex m.sender =
      .ok (s'.engine.validators.proposer s'.engine.height s'.engine.round) := by
    rw [he.validators, he.height, hround]
    exact hm.sender
  have hvalid : s'.engine.structurallyValid block = .ok true := by
    rw [← hm.valid, ConsensusEngine.structurallyValid, ConsensusEngine.structurallyValid, he.height,
      he.previousHash]
  rw [handlePrePrepare, Eff.bind_apply_ok hentered, if_neg (not_not.mpr rfl), self_bind,
    if_neg hcur, Eff.lift_bind_ok hproposer, if_neg (not_not.mpr rfl), hm.carries]
  simp only
  rw [Eff.lift_bind_ok hm.hash, if_neg (not_not.mpr rfl), Eff.lift_bind_ok hvalid,
    if_neg (not_not.mpr rfl)]
  split_ifs with hpos
  · rw [Eff.bind_apply_ok (proposalJustified_returns he (hround ▸ hpos) hm hr),
      if_neg (not_not.mpr rfl)]
  · rfl

/-- In its round, a proposal is accepted if it is the first one. -/
lemma handlePrePrepare_returns {s' : Frame} (hentered : enterRound m s = (.ok true, s'))
    (hv : (v.during c s').InRound e₀ r h D) (hstill : (v.during c s').Still e₀ h D)
    (hm : MessageOfRound e₀ r block m) (ht : m.type = .PRE_PREPARE) (hh : m.blockHash = h) :
    Returns (handlePrePrepare m) s fun _ s'' =>
      (v.during c s'').InRound e₀ r h (D ++ [m]) ∧ (v.during c s'').Still e₀ h (D ++ [m]) := by
  have hprop := hm.proposal ht
  have hround : s'.engine.round = r := hv.round
  by_cases hphase : s'.engine.phase = .NEW_ROUND
  · exact Returns.congr (handlePrePrepare_eq hentered hv.alike hround hphase hprop hm.round)
      (acceptProposal_returns hv (hh ▸ hprop.hash) hphase ht)
  · -- the round has a proposal, so there was one before
    have hstale : handlePrePrepare m s = (.ok (), s') := by
      rw [handlePrePrepare, Eff.bind_apply_ok hentered, if_neg (not_not.mpr rfl), self_bind,
        if_pos (Or.inr hphase)]
      rfl
    have hnovote : ¬m.IsVote := by
      rintro (h | h) <;> rw [ht] at h <;> cases h
    exact .of_eq hstale ⟨hv.skip hnovote fun _ => hv.proposed.mp hphase, hstill.skip hnovote⟩

end EngineM

end Round

end Helix
