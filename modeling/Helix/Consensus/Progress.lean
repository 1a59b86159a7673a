import Helix.Consensus.Schedule
import Helix.Consensus.Settling

/-!
# Progress within a round

After every call, also after one that raises, an engine has counted the votes that it was handed for its
round, keeps those for later rounds, and has gone as far as its tallies allow (`CaughtUp`). So a quorum of
validators that have accepted one proposal and have been handed each other's votes have all decided it,
whatever else the network has delivered to them before (`round_decides`).
-/

namespace Helix

variable [Crypto] {M : List ConsensusMessage} {e : ConsensusEngine} {s s' : Frame} {m : ConsensusMessage}
  {b : Block} {h : PyStr}

open Relation (ReflTransGen)
open Eff (Leads Returns)

/-! ### Votes at hand -/

/-- A vote that is counted in the round that it is for. -/
structure ConsensusMessage.Countable (V : ValidatorSet) (height : ℤ) (m : ConsensusMessage) : Prop where
  height : m.height = height
  authentic : authentic V m = .ok true
  vote : m.type = .PREPARE ∨ m.type = .COMMIT ∧ validCommitSeal m = .ok true

namespace ConsensusEngine

omit [Crypto] in
/-- The vote stands in its tally. -/
def Counts (e : ConsensusEngine) (m : ConsensusMessage) : Prop :=
  (m.type = .PREPARE → m.sender ∈ (e.prepares.getD m.blockHash).keys) ∧
    (m.type = .COMMIT → m.sender ∈ (e.commits.getD m.blockHash).keys)

/-- The votes of `M` are counted, or kept for their round; a COMMIT is journaled in a round in which the
engine was PREPARED. -/
structure HoldsVotes (M : List ConsensusMessage) (e : ConsensusEngine) : Prop where
  sound : e.Sound
  counted : ∀ m ∈ M, m.Countable e.validators e.height → m.round = e.round → e.Counts m
  kept : ∀ m ∈ M, m.Countable e.validators e.height → e.round < m.round → m ∈ e.buffer
  unvoted : ∀ r h, e.journal.votedHash r .COMMIT = some h →
    r < e.round ∨ r = e.round ∧ e.phase.IsPrepared

/-- In addition, the tallies allow no further step. -/
structure CaughtUp (M : List ConsensusMessage) (e : ConsensusEngine) : Prop extends e.HoldsVotes M where
  prepares : e.phase = .PRE_PREPARED → ∀ b ∈ e.proposal, ∀ h, b.hash = .ok h →
    (e.prepares.getD h).len < e.validators.quorum
  commits : e.phase = .PREPARED → ∀ b ∈ e.proposal, ∀ h, b.hash = .ok h →
    (e.commits.getD h).len < e.validators.quorum

namespace HoldsVotes

/-- Votes that are not for the round or a later one need not be at hand. -/
lemma mono {M' : List ConsensusMessage} (hM : e.HoldsVotes M)
    (hsub : ∀ m ∈ M', m.Countable e.validators e.height → e.round ≤ m.round → m ∈ M) : e.HoldsVotes M' where
  sound := hM.sound
  counted m hm hc hr := hM.counted m (hsub m hm hc hr.ge) hc hr
  kept m hm hc hr := hM.kept m (hsub m hm hc hr.le) hc hr
  unvoted := hM.unvoted

/-- The journal is free for the COMMIT. -/
lemma unvoted_of_prePrepared (hM : e.HoldsVotes M) (hphase : e.phase = .PRE_PREPARED) :
    ∀ h' ∈ e.journal.votedHash e.round .COMMIT, h' = h := by
  intro h' hh'
  rcases hM.unvoted e.round h' hh' with hlt | ⟨-, hp⟩
  · exact absurd hlt (lt_irrefl _)
  · rw [hphase] at hp
    rcases hp with hp | hp <;> cases hp

/-- The own COMMIT is counted. -/
lemma prepare (hM : s.engine.HoldsVotes M) (hh : b.hash = .ok h)
    (hm : ConsensusMessage.create .COMMIT s.engine.height s.engine.round h s.engine.privateKey = .ok m) :
    (s.prepare b h m).engine.HoldsVotes M where
  sound := hM.sound.prepare hh hm
  counted m' hm' hc hr := by
    obtain ⟨hprepare, hcommit⟩ := hM.counted m' hm' hc hr
    exact ⟨hprepare, fun ht => Dict.mem_keys_getD_setIn.mpr (Or.inr (hcommit ht))⟩
  kept := hM.kept
  unvoted r h' hv := by
    by_cases hr : r = s.engine.round
    · exact Or.inr ⟨hr, Or.inl rfl⟩
    · have hold : s.engine.journal.votedHash r .COMMIT = some h' := by
        rw [← VoteJournal.votedHash_recordPrepared s.engine.journal
          ⟨s.engine.round, b, (s.engine.prepares.getD h).values⟩,
          ← VoteJournal.votedHash_recordVote_of_ne _ (r := s.engine.round) (p := .COMMIT) h
            fun heq => hr (Prod.mk.inj heq).1]
        exact hv
      exact (hM.unvoted r h' hold).imp_right fun hold => absurd hold.1 hr

/-- The proposal is decided. -/
lemma finalize {sealed : Block} (hM : s.engine.HoldsVotes M) (hh : b.hash = .ok h)
    (hseal : attachSeals (s.engine.commits.getD h) b = .ok sealed) :
    (s.finalize sealed).engine.HoldsVotes M where
  sound := hM.sound.finalize hh hseal
  counted := hM.counted
  kept := hM.kept
  unvoted r h' hv := (hM.unvoted r h' hv).imp_right fun hold => ⟨hold.1, Or.inr rfl⟩

/-- A proposal is accepted and the own PREPARE is counted. -/
lemma accept (hM : s.engine.HoldsVotes M) (hphase : s.engine.phase = .NEW_ROUND) (hh : b.hash = .ok h) :
    (s.accept b h m).engine.HoldsVotes M where
  sound := hM.sound.accept hh
  counted m' hm' hc hr := by
    obtain ⟨hprepare, hcommit⟩ := hM.counted m' hm' hc hr
    exact ⟨fun ht => Dict.mem_keys_getD_setIn.mpr (Or.inr (hprepare ht)), hcommit⟩
  kept := hM.kept
  unvoted r h' hv := by
    have hold : s.engine.journal.votedHash r .COMMIT = some h' := by
      rw [← VoteJournal.votedHash_recordVote_of_ne s.engine.journal (r := s.engine.round) (p := .PREPARE) h
        fun heq => by cases (Prod.mk.inj heq).2]
      exact hv
    refine (hM.unvoted r h' hold).imp_right fun ⟨_, hp⟩ => ?_
    rw [hphase] at hp
    rcases hp with hp | hp <;> cases hp

/-- A PREPARE is counted. -/
lemma tallyPrepare (hM : e.HoldsVotes M) (ht : m.type = .PREPARE) (hr : m.round = e.round) :
    HoldsVotes (M ++ [m]) { e with prepares := e.prepares.setIn m.blockHash m.sender m } where
  sound := { hM.sound with }
  counted m' hm' hc hr' := by
    rcases List.mem_append.mp hm' with hm' | hm'
    · obtain ⟨hprepare, hcommit⟩ := hM.counted m' hm' hc hr'
      exact ⟨fun ht => Dict.mem_keys_getD_setIn.mpr (Or.inr (hprepare ht)), hcommit⟩
    · obtain rfl := List.mem_singleton.mp hm'
      refine ⟨fun _ => Dict.mem_keys_getD_setIn.mpr (Or.inl ⟨rfl, rfl⟩), fun ht' => ?_⟩
      rw [ht] at ht'
      cases ht'
  kept m' hm' hc hr' := by
    rcases List.mem_append.mp hm' with hm' | hm'
    · exact hM.kept m' hm' hc hr'
    · rw [List.mem_singleton.mp hm'] at hr'
      exact absurd hr hr'.ne'
  unvoted := hM.unvoted

/-- A COMMIT is counted. -/
lemma tallyCommit (hM : e.HoldsVotes M) (ht : m.type = .COMMIT) (hr : m.round = e.round)
    (hseal : validCommitSeal m = .ok true) : HoldsVotes (M ++ [m]) { e with
      commits := e.commits.setIn m.blockHash m.sender (m.commitSeal.getD []) } where
  sound := by
    obtain ⟨key, bytes, -, hkey, hbytes, -⟩ := validCommitSeal_eq_true hseal
    exact hM.sound.tally key hkey hbytes _
  counted m' hm' hc hr' := by
    rcases List.mem_append.mp hm' with hm' | hm'
    · obtain ⟨hprepare, hcommit⟩ := hM.counted m' hm' hc hr'
      exact ⟨hprepare, fun ht => Dict.mem_keys_getD_setIn.mpr (Or.inr (hcommit ht))⟩
    · obtain rfl := List.mem_singleton.mp hm'
      refine ⟨fun ht' => ?_, fun _ => Dict.mem_keys_getD_setIn.mpr (Or.inl ⟨rfl, rfl⟩)⟩
      rw [ht] at ht'
      cases ht'
  kept m' hm' hc hr' := by
    rcases List.mem_append.mp hm' with hm' | hm'
    · exact hM.kept m' hm' hc hr'
    · rw [List.mem_singleton.mp hm'] at hr'
      exact absurd hr hr'.ne'
  unvoted := hM.unvoted

end HoldsVotes

end ConsensusEngine

namespace EngineM

open ConsensusEngine (HoldsVotes CaughtUp)

/-! ### Votes -/

/-- Nothing is left to do in the round, which is the same. -/
structure Catches (M : List ConsensusMessage) (s s' : Frame) : Prop where
  caughtUp : s'.engine.CaughtUp M
  round : s'.engine.round = s.engine.round

lemma tryFinalize_catches (hM : s.engine.HoldsVotes M) (hb : s.engine.proposal = some b)
    (hh : b.hash = .ok h)
    (hrest : s.engine.phase = .PRE_PREPARED → (s.engine.prepares.getD h).len < s.engine.validators.quorum) :
    Returns (tryFinalize h) s fun _ s' => Catches M s s' := by
  by_cases hcond : s.engine.phase = .PREPARED ∧
      s.engine.validators.quorum ≤ (s.engine.commits.getD h).len
  · obtain ⟨hphase, hquorum⟩ := hcond
    obtain ⟨sealed, hseal⟩ := exists_attachSeals (hM.sound.seals h) b
    refine .of_eq (tryFinalize_of_quorum hphase hb hquorum hseal) ⟨⟨hM.finalize hh hseal, ?_, ?_⟩, rfl⟩
    · exact fun hphase => by cases hphase
    · exact fun hphase => by cases hphase
  · have hrun : tryFinalize h s = (.ok (), s) := by
      rw [tryFinalize, self_bind, if_neg hcond]
      rfl
    have hsame : ∀ b' ∈ s.engine.proposal, ∀ h', b'.hash = .ok h' → h' = h := by
      intro b' hb' h' hh'
      rw [hb] at hb'
      cases hb'
      exact Except.ok.inj (hh'.symm.trans hh)
    refine .of_eq hrun ⟨⟨hM, fun hphase b' hb' h' hh' => ?_, fun hphase b' hb' h' hh' => ?_⟩, rfl⟩
    · rw [hsame b' hb' h' hh']
      exact hrest hphase
    · rw [hsame b' hb' h' hh']
      exact not_le.mp fun hquorum => hcond ⟨hphase, hquorum⟩

/-- Whatever was counted, the engine goes on as far as it can. -/
lemma maybeAdvance_catches (hM : s.engine.HoldsVotes M) :
    Returns maybeAdvance s fun _ s' => Catches M s s' := by
  cases hb : s.engine.proposal with
  | none =>
    refine .of_eq (maybeAdvance_of_none hb) ⟨⟨hM, fun _ b hb' => ?_, fun _ b hb' => ?_⟩, rfl⟩
    · rw [hb] at hb'
      cases hb'
    · rw [hb] at hb'
      cases hb'
  | some b =>
    obtain ⟨h, hh⟩ := hM.sound.proposal b hb
    have hadvance : maybeAdvance s =
        (do if ← tryPrepare b h then tryFinalize h : EngineM Unit) s := by
      rw [maybeAdvance, self_bind, hb]
      exact Eff.lift_bind_ok hh _ s
    refine Returns.congr hadvance ?_
    by_cases hcond : s.engine.phase = .PRE_PREPARED ∧
        s.engine.validators.quorum ≤ (s.engine.prepares.getD h).len
    · obtain ⟨hphase, hquorum⟩ := hcond
      obtain ⟨m, hm⟩ := exists_create_of_hash hh .COMMIT s.engine.height s.engine.round
        s.engine.privateKey none none [] []
      have hprepare : tryPrepare b h s = (.ok true, s.prepare b h m) :=
        tryPrepare_of_free hphase hquorum (hM.unvoted_of_prePrepared hphase) hm
      have hfinalize := tryFinalize_catches (s := s.prepare b h m) (hM.prepare hh hm) hb hh
        fun hphase => by cases hphase
      exact Returns.congr (Eff.bind_apply_ok hprepare) (hfinalize.mono fun _ _ h => ⟨h.caughtUp, h.round⟩)
    · have hprepare : tryPrepare b h s = (.ok true, s) := by
        rw [tryPrepare, self_bind, if_neg hcond]
        rfl
      refine Returns.congr (Eff.bind_apply_ok hprepare) (tryFinalize_catches hM hb hh fun hphase => ?_)
      exact not_le.mp fun hquorum => hcond ⟨hphase, hquorum⟩

/-- What is not counted changes nothing. -/
lemma CaughtUp.skip (hM : e.CaughtUp M) (hm : m.Countable e.validators e.height → m.round < e.round) :
    e.CaughtUp (M ++ [m]) := by
  refine { hM with toHoldsVotes := hM.toHoldsVotes.mono fun m' hm' hc hr => ?_ }
  refine (List.mem_append.mp hm').resolve_right fun heq => ?_
  obtain rfl := List.mem_singleton.mp heq
  exact absurd (hm hc) (not_lt.mpr hr)

lemma handlePrepare_catches (hM : s.engine.CaughtUp M) (ht : m.type = .PREPARE)
    (hr : m.round = s.engine.round) :
    Returns (handlePrepare m) s fun _ s' => Catches (M ++ [m]) s s' :=
  returns_update ((maybeAdvance_catches (hM.toHoldsVotes.tallyPrepare ht hr)).mono fun _ _ h =>
    ⟨h.caughtUp, h.round⟩)

lemma handleCommit_catches (hM : s.engine.CaughtUp M) (ht : m.type = .COMMIT)
    (hr : m.round = s.engine.round) (hscalar : IsScalar m.blockHash) :
    Returns (handleCommit m) s fun _ s' => Catches (M ++ [m]) s s' := by
  obtain ⟨ok, hok⟩ := exists_validCommitSeal hscalar
  refine Returns.lift_bind hok (Returns.ite (fun htrue => ?_) fun hfalse => Returns.pure ⟨?_, rfl⟩)
  · rw [htrue] at hok
    exact returns_update ((maybeAdvance_catches (hM.toHoldsVotes.tallyCommit ht hr hok)).mono fun _ _ h =>
      ⟨h.caughtUp, h.round⟩)
  · refine CaughtUp.skip hM fun hc => ?_
    rcases hc.vote with ht' | ⟨-, hseal⟩
    · rw [ht] at ht'
      cases ht'
    · rw [hok] at hseal
      exact absurd (Except.ok.inj hseal) hfalse

/-! ### Proposals and rounds -/

lemma acceptProposal_catches (hM : s.engine.CaughtUp M) (hphase : s.engine.phase = .NEW_ROUND)
    (hh : b.hash = .ok h) : Returns (acceptProposal b) s fun _ s' => Catches M s s' := by
  by_cases hprior : ∀ h' ∈ s.engine.journal.votedHash s.engine.round .PREPARE, h' = h
  · obtain ⟨m, hm⟩ := exists_create_of_hash hh .PREPARE s.engine.height s.engine.round
      s.engine.privateKey none none [] []
    refine Returns.congr (acceptProposal_of_free hh hprior hm) ?_
    exact (maybeAdvance_catches (s := s.accept b h m) (hM.toHoldsVotes.accept hphase hh)).mono
      fun _ _ h => ⟨h.caughtUp, h.round⟩
  · push Not at hprior
    obtain ⟨h', hh', hne⟩ := hprior
    exact .of_eq (acceptProposal_of_prior hh hh' hne) ⟨hM, rfl⟩

lemma replayVote_catches (hM : s.engine.CaughtUp M) (hr : m.round = s.engine.round)
    (hscalar : IsScalar m.blockHash) : Returns (replayVote m) s fun _ s' => Catches (M ++ [m]) s s' ∧
      s'.engine.validators = s.engine.validators ∧ s'.engine.height = s.engine.height := by
  unfold replayVote
  split
  · rename_i ht
    obtain ⟨_, s', hrun, hkeeps⟩ := handlePrepare_keeps (m := m) hM.sound
    obtain ⟨_, _, hrun', hcatches⟩ := handlePrepare_catches hM ht hr
    cases hrun.symm.trans hrun'
    exact .of_eq hrun ⟨hcatches, hkeeps.validators, hkeeps.height⟩
  · rename_i ht
    obtain ⟨_, s', hrun, hkeeps⟩ := handleCommit_keeps (m := m) hM.sound hscalar
    obtain ⟨_, _, hrun', hcatches⟩ := handleCommit_catches hM ht hr hscalar
    cases hrun.symm.trans hrun'
    exact .of_eq hrun ⟨hcatches, hkeeps.validators, hkeeps.height⟩
  · rename_i hprepare hcommit
    refine Returns.pure ⟨⟨CaughtUp.skip hM fun hc => ?_, rfl⟩, rfl, rfl⟩
    rcases hc.vote with ht | ⟨ht, -⟩
    · exact absurd ht hprepare
    · exact absurd ht hcommit

/-- The votes that were kept for a round are counted when it is adopted. -/
lemma adoptRound_catches (hM : s.engine.CaughtUp M) (target : ℤ) :
    Returns (adoptRound target) s fun _ s' => s'.engine.CaughtUp M := by
  unfold adoptRound
  refine returns_self (Returns.ite (fun _ => Returns.pure hM) fun hlt => ?_)
  have hlt : s.engine.round < target := not_le.mp hlt
  -- only the votes for later rounds are at hand when the round starts
  have hstart : CaughtUp (M.filter fun m => target < m.round) { s.engine.startRound target with
      buffer := s.engine.buffer.filter fun m => target < m.round } := by
    refine ⟨⟨hM.sound.start target, fun m hm _ hr => ?_, fun m hm hc hr => ?_, fun r h hv => ?_⟩, ?_, ?_⟩
    · exact absurd (of_decide_eq_true (List.mem_filter.mp hm).2) hr.not_gt
    · have hkept := hM.kept m (List.mem_of_mem_filter hm) hc (hlt.trans hr)
      exact List.mem_filter.mpr ⟨hkept, decide_eq_true hr⟩
    · rcases hM.unvoted r h hv with hold | ⟨hold, -⟩
      · exact Or.inl (hold.trans hlt)
      · exact Or.inl (hold.trans_lt hlt)
    · exact fun hphase => by cases hphase
    · exact fun hphase => by cases hphase
  have hloop : Returns ((s.engine.buffer.filter fun m => m.round = target).forM replayVote)
      (s.mapEngine fun e => { e.startRound target with
        buffer := e.buffer.filter fun m => target < m.round }) fun _ s' =>
      s'.engine.CaughtUp ((M.filter fun m => target < m.round) ++
        s.engine.buffer.filter fun m => m.round = target) ∧ s'.engine.round = target ∧
      s'.engine.validators = s.engine.validators ∧ s'.engine.height = s.engine.height := by
    refine Returns.forM (I := fun l (s' : Frame) =>
      s'.engine.CaughtUp ((M.filter fun m => target < m.round) ++ l) ∧ s'.engine.round = target ∧
        s'.engine.validators = s.engine.validators ∧ s'.engine.height = s.engine.height)
      ⟨?_, rfl, rfl, rfl⟩ ?_
    · rw [List.append_nil]
      exact hstart
    rintro l m hm s' ⟨hcaught, hround, hvals, hheight⟩
    obtain ⟨hbuffer, hr⟩ := List.mem_filter.mp hm
    have hr : m.round = s'.engine.round := (of_decide_eq_true hr).trans hround.symm
    rw [← List.append_assoc]
    exact (replayVote_catches hcaught hr (hM.sound.buffer m hbuffer)).mono fun _ s'' h =>
      ⟨h.1.caughtUp, h.1.round.trans hround, h.2.1.trans hvals, h.2.2.trans hheight⟩
  refine returns_update (hloop.mono fun _ s' h => ?_)
  obtain ⟨hcaught, hround, hvals, hheight⟩ := h
  refine { hcaught with toHoldsVotes := hcaught.toHoldsVotes.mono fun m hm hc hr => ?_ }
  rw [hvals, hheight] at hc
  rw [hround] at hr
  rcases hr.lt_or_eq with hr | hr
  · exact List.mem_append_left _ (List.mem_filter.mpr ⟨hm, decide_eq_true hr⟩)
  · refine List.mem_append_right _ (List.mem_filter.mpr ⟨?_, decide_eq_true hr.symm⟩)
    exact hM.kept m hm hc (hr ▸ hlt)

/-! ### Calls -/

/-- An engine that has caught up is so again. -/
def Follows (M : List ConsensusMessage) (s s' : Frame) : Prop :=
  s.engine.CaughtUp M → s'.engine.CaughtUp M

lemma Follows.of_path (h : ReflTransGen (Follows M) s s') (hs : s.engine.CaughtUp M) :
    s'.engine.CaughtUp M := by
  induction h with
  | refl => exact hs
  | tail _ hstep ih => exact hstep ih

lemma follows_of_returns {x : EngineM Unit}
    (h : s.engine.CaughtUp M → Returns x s fun _ s' => s'.engine.CaughtUp M) :
    Leads (Follows M) x s fun _ _ => True := by
  refine ⟨.single fun hs => ?_, fun _ _ => trivial⟩
  obtain ⟨_, s', hrun, hs'⟩ := h hs
  rw [hrun]
  exact hs'

lemma follows_acceptProposal (hphase : s.engine.phase = .NEW_ROUND) (hh : b.hash = .ok h) :
    Leads (Follows M) (acceptProposal b) s fun _ _ => True :=
  follows_of_returns fun hs => (acceptProposal_catches hs hphase hh).mono fun _ _ h => h.caughtUp

lemma follows_adoptRound (target : ℤ) (s : Frame) :
    Leads (Follows M) (adoptRound target) s fun _ _ => True :=
  follows_of_returns fun hs => adoptRound_catches hs target

lemma follows_emitPrePrepare (hphase : s.engine.phase = .NEW_ROUND) (cert : List ConsensusMessage) :
    Leads (Follows M) (emitPrePrepare b cert) s fun _ _ => True := by
  unfold emitPrePrepare
  refine leads_self (Leads.lift_bind fun h hh => Leads.lift_bind fun pre _ => ?_)
  exact Leads.modify_bind (fun hs => hs) (follows_acceptProposal (s := s.send [pre]) hphase hh)

/-- A reading of the clock changes nothing else. -/
lemma follows_buildBlock (hphase : s.engine.phase = .NEW_ROUND) (records : List IntegrityRecord) :
    Leads (Follows M) (buildBlock records) s fun _ s' => s'.engine.phase = .NEW_ROUND := by
  refine ⟨.single fun hs => ?_, fun _ _ => hphase⟩
  exact { hs with sound := { hs.sound with } }

lemma follows_sendRoundChange (target : ℤ) (s : Frame) :
    Leads (Follows M) (sendRoundChange target) s fun _ _ => True := by
  unfold sendRoundChange
  refine leads_self (Leads.ite (fun _ => Leads.pure trivial) fun _ => Leads.lift_bind fun m hm => ?_)
  obtain ⟨-, -, -, -, -, -, -, -, hsig⟩ := ConsensusEngine.roundChange_eq hm
  refine leads_update (fun hs => ?_) (Leads.modify (fun hs => hs) trivial)
  exact { hs with sound := { hs.sound.store (isScalar_of_verifySignature hsig) _ _ with } }

lemma follows_accelerate (targets : List ℤ) (s : Frame) :
    Leads (Follows M) (accelerate targets) s fun _ _ => True := by
  induction targets generalizing s with
  | nil => exact Leads.pure trivial
  | cons target targets ih =>
    unfold accelerate
    refine leads_self (Leads.ite (fun _ => ?_) fun _ => ih s)
    refine Leads.bind (follows_sendRoundChange target s) fun _ s' _ _ => ?_
    exact Leads.bind (ih s') fun _ _ _ _ => Leads.pure trivial

lemma follows_proposeForRoundChange (target : ℤ) (s : Frame) :
    Leads (Follows M) (proposeForRoundChange target) s fun _ _ => True := by
  unfold proposeForRoundChange
  refine leads_self (Leads.ite (fun _ => Leads.pure trivial) fun hopen => ?_)
  have hphase : s.engine.phase = .NEW_ROUND := not_not.mp (not_or.mp hopen).2
  refine Leads.ite (fun _ => Leads.pure trivial) fun _ => Leads.lift_bind fun verdict _ => ?_
  cases verdict.2 with
  | some justified =>
    refine Leads.lift_bind fun block _ => ?_
    cases block with
    | none => exact Leads.pure trivial
    | some block => exact follows_emitPrePrepare hphase _
  | none =>
    refine Leads.bind (Leads.bind (follows_buildBlock hphase _)
      (P := fun _ s' => s'.engine.phase = .NEW_ROUND) fun _ _ _ h => Leads.pure h) ?_
    intro block s' _ hphase'
    cases block with
    | none => exact Leads.pure trivial
    | some block => exact follows_emitPrePrepare hphase' _

lemma follows_roundChangeLoop (n : ℕ) (s : Frame) :
    Leads (Follows M) (roundChangeLoop n) s fun _ _ => True := by
  induction n generalizing s with
  | zero => exact Leads.pure trivial
  | succ n ih =>
    unfold roundChangeLoop
    refine leads_self (Leads.bind (follows_accelerate _ s) fun sent s' _ _ => leads_self ?_)
    cases s'.engine.bestRound with
    | some best =>
      refine Leads.bind (follows_adoptRound best s') fun _ s'' _ _ => ?_
      exact Leads.bind (follows_proposeForRoundChange best s'') fun _ t _ _ => ih t
    | none => exact Leads.ite (fun _ => ih s') fun _ => Leads.pure trivial

lemma follows_processRoundChanges (s : Frame) :
    Leads (Follows M) processRoundChanges s fun _ _ => True := leads_self (follows_roundChangeLoop _ s)

lemma follows_store (hm : IsScalar m.blockHash) (s : Frame) : Follows M s (s.mapEngine fun e => { e with
    roundChanges := e.roundChanges.setIn m.round m.sender m }) :=
  fun hs => { hs with sound := hs.sound.store hm _ _ }

lemma follows_handleRoundChange (hm : IsScalar m.blockHash) (s : Frame) :
    Leads (Follows M) (handleRoundChange m) s fun _ _ => True := by
  unfold handleRoundChange
  refine leads_self (Leads.ite (fun _ => Leads.pure trivial) fun _ => Leads.lift_bind fun ok _ => ?_)
  refine Leads.ite (fun _ => ?_) fun _ => Leads.pure trivial
  exact leads_update (follows_store hm s) (follows_processRoundChanges _)

lemma follows_ingestRoundChange (s : Frame) :
    Leads (Follows M) (ingestRoundChange m) s fun _ _ => True := by
  unfold ingestRoundChange
  refine leads_self (Leads.lift_bind fun ok hok => Leads.ite (fun htrue => ?_) fun _ => Leads.pure trivial)
  have hscalar : IsScalar m.blockHash := isScalar_of_authentic (htrue ▸ hok)
  refine Leads.lift_bind fun ok' _ => Leads.ite (fun _ => ?_) fun _ => Leads.pure trivial
  exact Leads.modify (follows_store hscalar s) trivial

lemma follows_enterRound (m : ConsensusMessage) (s : Frame) :
    Leads (Follows M) (enterRound m) s fun _ _ => True := by
  unfold enterRound
  refine leads_self (Leads.ite (fun _ => Leads.lift_bind fun verdict _ => ?_) fun _ => Leads.pure trivial)
  refine Leads.ite (fun _ => Leads.pure trivial) fun _ => ?_
  refine Leads.bind (Leads.forM (I := fun _ => True) trivial fun q _ s' _ _ =>
    follows_ingestRoundChange s') fun _ s' _ _ => ?_
  exact Leads.bind (follows_adoptRound m.round s') fun _ _ _ _ => Leads.pure trivial

lemma follows_proposalJustified (s : Frame) :
    Leads (Follows M) (proposalJustified m) s fun _ s' => s' = s := by
  unfold proposalJustified
  refine leads_self (Leads.lift_bind fun verdict _ => Leads.ite (fun _ => Leads.pure rfl) fun _ => ?_)
  split
  · exact Leads.pure rfl
  · split
    · exact Leads.pure rfl
    · exact Leads.lift_bind fun _ _ => Leads.pure rfl

lemma follows_handlePrePrepare (m : ConsensusMessage) (s : Frame) :
    Leads (Follows M) (handlePrePrepare m) s fun _ _ => True := by
  unfold handlePrePrepare
  refine Leads.bind (follows_enterRound m s) fun ok s' _ _ =>
    Leads.ite (fun _ => Leads.pure trivial) fun _ => leads_self ?_
  refine Leads.ite (fun _ => Leads.pure trivial) fun hopen => ?_
  have hphase : s'.engine.phase = .NEW_ROUND := not_not.mp (not_or.mp hopen).2
  refine Leads.lift_bind fun sender _ => Leads.ite (fun _ => Leads.pure trivial) fun _ => ?_
  cases m.block with
  | none => exact Leads.pure trivial
  | some block =>
    refine Leads.lift_bind fun h hh => Leads.ite (fun _ => Leads.pure trivial) fun _ => ?_
    refine Leads.lift_bind fun valid _ => Leads.ite (fun _ => Leads.pure trivial) fun _ => ?_
    refine Leads.ite (fun _ => ?_) fun _ => follows_acceptProposal hphase hh
    refine Leads.bind (follows_proposalJustified s') fun ok s'' _ hsame => ?_
    refine Leads.ite (fun _ => Leads.pure trivial) fun _ => ?_
    rw [hsame]
    exact follows_acceptProposal hphase hh

lemma follows_setPending (records : List IntegrityRecord) (changes : List ValidatorChange) (s : Frame) :
    Leads (Follows M) (setPending records changes) s fun _ _ => True := by
  unfold setPending maybeProposeRound0
  refine leads_update (fun hs => { hs with sound := { hs.sound with } }) (leads_self ?_)
  refine Leads.ite (fun hdue => ?_) fun _ => Leads.pure trivial
  refine Leads.bind (follows_buildBlock hdue.2.1 _) fun block s' _ hphase => ?_
  exact follows_emitPrePrepare hphase _

lemma follows_onTimeout (s : Frame) : Leads (Follows M) onTimeout s fun _ _ => True := by
  unfold onTimeout
  refine leads_self (Leads.ite (fun _ => Leads.pure trivial) fun _ => ?_)
  exact Leads.bind (follows_sendRoundChange _ s) fun _ s' _ _ => follows_processRoundChanges s'

/-- A vote is counted if it is for the round, and kept if it is for a later one. -/
lemma handleVote_catches (hM : s.engine.CaughtUp M) (hscalar : IsScalar m.blockHash)
    {handler : ConsensusMessage → EngineM Unit}
    (hhandler : m.round = s.engine.round →
      Returns (handler m) s fun _ s' => Catches (M ++ [m]) s s') :
    (handleVote m handler s).2.engine.CaughtUp (M ++ [m]) := by
  rcases lt_trichotomy m.round s.engine.round with hlt | heq | hgt
  · have hrun : handleVote m handler s = (.ok (), s) := by
      rw [handleVote, self_bind, if_neg hlt.ne, if_neg hlt.not_gt]
      rfl
    rw [hrun]
    exact CaughtUp.skip hM fun _ => hlt
  · obtain ⟨_, s', hrun, hcatches⟩ := hhandler heq
    rw [handleVote_of_eq heq, hrun]
    exact hcatches.caughtUp
  · have hrun : handleVote m handler s =
        (.ok (), s.mapEngine fun e => { e with buffer := e.buffer ++ [m] }) := by
      rw [handleVote, self_bind, if_neg hgt.ne', if_pos hgt]
      rfl
    rw [hrun]
    refine { hM with
      sound := { hM.sound with buffer := fun m' hm' => ?_ }
      counted := fun m' hm' hc hr => ?_
      kept := fun m' hm' hc hr => ?_ }
    · rcases List.mem_append.mp hm' with hm' | hm'
      · exact hM.sound.buffer m' hm'
      · rw [List.mem_singleton.mp hm']
        exact hscalar
    · rcases List.mem_append.mp hm' with hm' | hm'
      · exact hM.counted m' hm' hc hr
      · rw [List.mem_singleton.mp hm'] at hr
        exact absurd hr hgt.ne'
    · rcases List.mem_append.mp hm' with hm' | hm'
      · exact List.mem_append_left _ (hM.kept m' hm' hc hr)
      · exact List.mem_append_right _ hm'

lemma handle_catches (hM : s.engine.CaughtUp M) (m : ConsensusMessage) :
    (handle m s).2.engine.CaughtUp (M ++ [m]) := by
  by_cases hheight : m.height = s.engine.height
  swap
  · have hrun : handle m s = (.ok (), s) := by
      rw [handle, self_bind, if_pos hheight]
      rfl
    rw [hrun]
    exact CaughtUp.skip hM fun hc => absurd hc.height hheight
  by_cases hauth : authentic s.engine.validators m = .ok true
  swap
  · have hrun : (handle m s).2 = s := by
      rw [handle, self_bind, if_neg (not_not.mpr hheight)]
      cases hok : authentic s.engine.validators m with
      | error err => rfl
      | ok ok =>
        rw [Eff.lift_bind_ok rfl]
        cases ok with
        | false => rfl
        | true => exact absurd hok hauth
    rw [hrun]
    exact CaughtUp.skip hM fun hc => absurd hc.authentic hauth
  have hscalar : IsScalar m.blockHash := isScalar_of_authentic hauth
  -- what is no vote is not counted
  have hskip : ∀ {x : EngineM Unit}, Leads (Follows M) x s (fun _ _ => True) → ¬m.IsVote →
      (x s).2.engine.CaughtUp (M ++ [m]) := by
    intro x hx hno
    refine CaughtUp.skip (Follows.of_path hx.path hM) fun hc => absurd ?_ hno
    exact hc.vote.imp_right And.left
  rw [handle_eq (show s.engine.Alike s.engine from ⟨rfl, rfl, rfl, rfl⟩) ⟨hheight, hauth⟩]
  cases ht : m.type with
  | ROUND_CHANGE =>
    refine hskip (follows_handleRoundChange hscalar s) ?_
    rintro (h | h) <;> rw [ht] at h <;> cases h
  | PRE_PREPARE =>
    refine hskip (follows_handlePrePrepare m s) ?_
    rintro (h | h) <;> rw [ht] at h <;> cases h
  | PREPARE => exact handleVote_catches hM hscalar fun hr => handlePrepare_catches hM ht hr
  | COMMIT => exact handleVote_catches hM hscalar fun hr => handleCommit_catches hM ht hr hscalar

end EngineM

/-- After a call, the engine has caught up with what it has been handed. -/
lemma ConsensusEngine.CaughtUp.call {c : Call} (he : e.CaughtUp M) :
    (c.run e).2.engine.CaughtUp (M ++ c.messages) := by
  cases c with
  | setPending records changes =>
    rw [show (Call.setPending records changes).messages = [] from rfl, List.append_nil]
    exact EngineM.Follows.of_path (EngineM.follows_setPending records changes ⟨e, {}⟩).path he
  | handle m => exact EngineM.handle_catches (s := ⟨e, {}⟩) he m
  | onTimeout =>
    rw [show Call.onTimeout.messages = [] from rfl, List.append_nil]
    exact EngineM.Follows.of_path (EngineM.follows_onTimeout ⟨e, {}⟩).path he

/-- A new engine has nothing to catch up with. -/
lemma ConsensusEngine.CaughtUp.initial {journal : VoteJournal} (hj : journal.Hashable)
    (hblank : journal.Blank) (V : ValidatorSet) (key : PrivateKey) (height : ℤ) (previousHash : PyStr)
    (nowMs : ℕ → ℤ) : (ConsensusEngine.initial V key height previousHash nowMs journal).CaughtUp [] where
  sound := .initial hj V key height previousHash nowMs
  counted m hm := by cases hm
  kept m hm := by cases hm
  unvoted r h hv := by
    have hnone := hblank.votes r .COMMIT
    cases hnone.symm.trans hv
  prepares hphase := by cases hphase
  commits hphase := by cases hphase

/-! ### The own votes -/

/-- In a round with a proposal, the engine has counted and sent its own votes; a round that is COMMITTED
was decided. -/
structure Validator.Voting (v : Validator) : Prop where
  prepare : v.engine.phase ≠ .NEW_ROUND → ∀ b ∈ v.engine.proposal, ∀ h, b.hash = .ok h →
    v.engine.me.toHex ∈ (v.engine.prepares.getD h).keys ∧ ∃ m ∈ v.sent, ConsensusMessage.create .PREPARE
      v.engine.height v.engine.round h v.engine.privateKey = .ok m
  commit : v.engine.phase.IsPrepared → ∀ b ∈ v.engine.proposal, ∀ h, b.hash = .ok h →
    v.engine.me.toHex ∈ (v.engine.commits.getD h).keys ∧ ∃ m ∈ v.sent, ConsensusMessage.create .COMMIT
      v.engine.height v.engine.round h v.engine.privateKey = .ok m
  decided : v.engine.phase = .COMMITTED → ∀ b ∈ v.engine.proposal, b ∈ v.decided

namespace Validator.Voting

variable {v : Validator} {c : Call}

/-- The engine has not entered a proposal yet. -/
lemma of_newRound (hphase : v.engine.phase = .NEW_ROUND) : v.Voting := by
  refine ⟨fun hne => absurd hphase hne, fun hp => ?_, fun hc => ?_⟩
  · rw [hphase] at hp
    rcases hp with hp | hp <;> cases hp
  · rw [hphase] at hc
    cases hc

lemma move (hv : (v.during c s).Voting) (hs : s.engine.Sound) (hmove : Move v.engine c s s') :
    (v.during c s').Voting := by
  have hsub : (v.during c s).sent ⊆ (v.during c s').sent := by
    intro m hm
    rcases List.mem_append.mp hm with hm | hm
    · exact List.mem_append_left _ hm
    · exact List.mem_append_right _ (hmove.broadcast_subset hm)
  cases hmove with
  | adopt => exact of_newRound rfl
  | tallyPrepare =>
    refine ⟨fun hphase b hb h hh => ?_, hv.commit, hv.decided⟩
    obtain ⟨hown, hsent⟩ := hv.prepare hphase b hb h hh
    exact ⟨Dict.mem_keys_getD_setIn.mpr (Or.inr hown), hsent⟩
  | tallyCommit =>
    refine ⟨hv.prepare, fun hphase b hb h hh => ?_, hv.decided⟩
    obtain ⟨hown, hsent⟩ := hv.commit hphase b hb h hh
    exact ⟨Dict.mem_keys_getD_setIn.mpr (Or.inr hown), hsent⟩
  | @accept block x m pre _ hphase hx _ hm =>
    obtain ⟨-, -, -, hhash, hsender, -⟩ := ConsensusMessage.create_eq hm
    refine ⟨fun _ b hb h hh => ?_, fun hp => ?_, fun hc => by cases hc⟩
    · cases hb
      obtain rfl : x = h := Except.ok.inj (hx.symm.trans hh)
      refine ⟨Dict.mem_keys_getD_setIn.mpr (Or.inl ⟨hhash.symm, hsender.symm⟩), m, ?_, hm⟩
      exact Validator.mem_sent_accept.mpr (Or.inr (Or.inr rfl))
    · rcases hp with hp | hp <;> cases hp
  | @prepare block x m _ hphase hb hx _ _ hm =>
    have hnew : s.engine.phase ≠ .NEW_ROUND := by
      rw [hphase]
      decide
    refine ⟨fun _ b hb' h hh => ?_, fun _ b hb' h hh => ?_, fun hc => by cases hc⟩
    · obtain ⟨hown, m', hm', hcreate⟩ := hv.prepare hnew b hb' h hh
      exact ⟨hown, m', hsub hm', hcreate⟩
    · have hb' : s.engine.proposal = some b := hb'
      rw [hb] at hb'
      cases hb'
      obtain rfl : x = h := Except.ok.inj (hx.symm.trans hh)
      refine ⟨Dict.mem_keys_getD_setIn.mpr (Or.inl ⟨rfl, rfl⟩), m, ?_, hm⟩
      exact Validator.mem_sent_prepare.mpr (Or.inr rfl)
  | @finalize block sealed x _ hphase hb hx _ hseal =>
    have hnew : s.engine.phase ≠ .NEW_ROUND := by
      rw [hphase]
      decide
    have hsame : ∀ b h, some sealed = some b → b.hash = .ok h → block.hash = .ok h := by
      intro b h hb' hh
      cases hb'
      rw [Block.hash, (attachSeals_spec hseal).1] at hh
      exact hh
    refine ⟨fun _ b hb' h hh => ?_, fun _ b hb' h hh => ?_, fun _ b hb' => ?_⟩
    · exact hv.prepare hnew block hb h (hsame b h hb' hh)
    · exact hv.commit (Or.inl hphase) block hb h (hsame b h hb' hh)
    · cases hb'
      exact List.mem_append_right _ (List.mem_singleton.mpr rfl)
  | @finalizeRaises block x err hphase hb hx hseal =>
    obtain ⟨sealed, hok⟩ := exists_attachSeals (hs.seals x) block
    cases hseal.symm.trans hok
  | refuse _ hphase => exact of_newRound hphase
  | leave =>
    refine ⟨fun hphase b hb h hh => ?_, fun hphase b hb h hh => ?_, hv.decided⟩
    · obtain ⟨hown, m', hm', hcreate⟩ := hv.prepare hphase b hb h hh
      exact ⟨hown, m', hsub hm', hcreate⟩
    · obtain ⟨hown, m', hm', hcreate⟩ := hv.commit hphase b hb h hh
      exact ⟨hown, m', hsub hm', hcreate⟩
  | _ => exact ⟨hv.prepare, hv.commit, hv.decided⟩

lemma call (hv : v.Voting) (hs : v.engine.Sound) (c : Call) : (v.call c).Voting := by
  refine v.call_induction c ?_ fun s s' hreached hv hmove => hv.move (hreached.sound hs) hmove
  refine ⟨fun hphase b hb h hh => ?_, fun hphase b hb h hh => ?_, fun hphase b hb => ?_⟩
  · obtain ⟨hown, m, hm, hcreate⟩ := hv.prepare hphase b hb h hh
    exact ⟨hown, m, List.mem_append_left _ hm, hcreate⟩
  · obtain ⟨hown, m, hm, hcreate⟩ := hv.commit hphase b hb h hh
    exact ⟨hown, m, List.mem_append_left _ hm, hcreate⟩
  · exact List.mem_append_left _ (hv.decided hphase b hb)

end Validator.Voting

/-! ### Quorums -/

/-- The seal of an own COMMIT is valid. -/
lemma validCommitSeal_of_create (hsign : ∀ (k : PrivateKey) message, Crypto.sign k message ≠ [])
    {height round : ℤ} {signer : PrivateKey} {block : Option Block} {preparedRound : Option ℤ}
    {cert cert' : List ConsensusMessage} (hm : ConsensusMessage.create .COMMIT height round h signer block
      preparedRound cert cert' = .ok m) : validCommitSeal m = .ok true := by
  obtain ⟨bytes, hbytes, hseal⟩ := ConsensusMessage.create_commitSeal hm
  obtain ⟨-, -, -, hhash, hsender, -⟩ := ConsensusMessage.create_eq hm
  have hne : toHex (signer.sign bytes) ≠ [] := fun hnil => hsign signer bytes (toHex_injective hnil)
  rw [validCommitSeal, hseal]
  simp only [if_neg hne, hsender, PublicKey.fromHex_toHex, fromHex_toHex, hhash, hbytes, Except.map]
  exact congrArg Except.ok (PrivateKey.verify_sign _ _)

omit [Crypto] in
/-- A tally with an entry for every member of a quorum. -/
lemma quorum_le_len {α : Type} {quorum : ℕ} {L : Finset PublicKey} (hquorum : quorum ≤ L.card)
    {d : Dict PyStr α} (hd : ∀ k ∈ L, k.toHex ∈ d.keys) : quorum ≤ d.len := by
  have hsub : L.image PublicKey.toHex ⊆ d.keys.toFinset := by
    intro x hx
    obtain ⟨k, hk, rfl⟩ := Finset.mem_image.mp hx
    exact List.mem_toFinset.mpr (hd k hk)
  have hcard := Finset.card_le_card hsub
  rw [Finset.card_image_of_injective _ PublicKey.toHex_injective] at hcard
  rw [Dict.len_eq_card]
  exact hquorum.trans hcard

namespace Network

variable {net : Network} {w w' w₀ : World} {k : PublicKey}

variable (net) in
/-- Every correct validator has a new engine over a journal that knows of no vote. -/
structure BeginsBlank (w : World) : Prop where
  engine : ∀ k, net.Correct k → ∃ privateKey previousHash nowMs journal e,
    privateKey.publicKey = k ∧ journal.Blank ∧ journal.Hashable ∧ ConsensusEngine.new net.validators
      privateKey net.height previousHash nowMs journal = .ok e ∧ w k = { engine := e }

variable (net) in
/-- A validator has caught up with what it has been handed. -/
structure Progressing (k : PublicKey) (v : Validator) : Prop where
  me : v.engine.me = k
  validators : v.engine.validators = net.validators
  height : v.engine.height = net.height
  caughtUp : v.engine.CaughtUp v.received
  voting : v.Voting

lemma Progressing.call {v : Validator} (hv : net.Progressing k v) (c : Call) :
    net.Progressing k (v.call c) where
  me := (Since.me (v.since_call c)).trans hv.me
  validators := (v.since_call c).validators.trans hv.validators
  height := (v.since_call c).height.trans hv.height
  caughtUp := hv.caughtUp.call
  voting := hv.voting.call hv.caughtUp.sound c

lemma BeginsBlank.progressing (hbegins : net.BeginsBlank w₀) (hk : net.Correct k) :
    net.Progressing k (w₀ k) := by
  obtain ⟨privateKey, previousHash, nowMs, journal, e, hkey, hblank, hhash, hnew, hw⟩ := hbegins.engine k hk
  obtain ⟨-, rfl⟩ := ConsensusEngine.new_eq_ok.mp hnew
  rw [hw]
  exact ⟨hkey, rfl, rfl, .initial hhash hblank _ _ _ _ _, .of_newRound rfl⟩

lemma BeginsBlank.run {ok : World → ConsensusEngine → Call → Prop} (hbegins : net.BeginsBlank w₀)
    (hrun : ReflTransGen (net.CallStep ok) w₀ w) (hk : net.Correct k) : net.Progressing k (w k) := by
  induction hrun with
  | refl => exact hbegins.progressing hk
  | @tail w _ _ hstep ih =>
    cases hstep with
    | @call k' c =>
      by_cases heq : k = k'
      · subst heq
        rw [Function.update_self]
        exact ih.call c
      · rw [Function.update_of_ne heq]
        exact ih

section Round

variable (net) in
/-- A validator is in round `r` with a proposal whose hash is `h`. -/
structure Accepts (r : ℤ) (h : PyStr) (v : Validator) : Prop where
  round : v.engine.round = r
  phase : v.engine.phase ≠ .NEW_ROUND
  proposal : ∃ b ∈ v.engine.proposal, b.hash = .ok h

variable (w) in
/-- The members of `L` have been handed each other's votes of round `r`. -/
def Exchanged (L : Finset PublicKey) (r : ℤ) : Prop :=
  ∀ k ∈ L, ∀ k' ∈ L, k' ≠ k → ∀ m ∈ (w k').sent, m.IsVote → m.round = r → m ∈ (w k).received

variable {L : Finset PublicKey} {r : ℤ}

/-- If all members of `L` have voted for `h`, each of them has counted all their votes. -/
lemma Exchanged.mem_tally (hw : Exchanged w L r) (type : MessageType)
    (tally : ConsensusEngine → List PyStr) (hprog : ∀ k ∈ L, net.Progressing k (w k))
    (hL : ∀ k ∈ L, net.Correct k) (haccepts : ∀ k ∈ L, Accepts r h (w k))
    (hcounts : ∀ e m, ConsensusEngine.Counts e m → m.type = type → m.blockHash = h → m.sender ∈ tally e)
    (hvoted : ∀ k ∈ L, (w k).engine.me.toHex ∈ tally (w k).engine ∧ ∃ m ∈ (w k).sent,
      ConsensusMessage.create type (w k).engine.height (w k).engine.round h (w k).engine.privateKey = .ok m ∧
      (type = .PREPARE ∨ type = .COMMIT ∧ validCommitSeal m = .ok true)) :
    ∀ k ∈ L, ∀ k' ∈ L, k'.toHex ∈ tally (w k).engine := by
  intro k hk k' hk'
  obtain ⟨hown, m, hm, hcreate, hvote⟩ := hvoted k' hk'
  have hme : (w k').engine.privateKey.publicKey = k' := (hprog k' hk').me
  by_cases heq : k' = k
  · subst heq
    rwa [ConsensusEngine.me, hme] at hown
  obtain ⟨htype, hheight, hround, hhash, hsender, -⟩ := ConsensusMessage.create_eq hcreate
  have hhanded : m ∈ (w k).received := by
    refine hw k hk k' hk' heq m hm ?_ (hround.trans (haccepts k' hk').round)
    rw [ConsensusMessage.IsVote, htype]
    exact hvote.imp_right And.left
  have hcountable : m.Countable (w k).engine.validators (w k).engine.height := by
    refine ⟨?_, ?_, htype.symm ▸ hvote⟩
    · rw [hheight, (hprog k' hk').height, (hprog k hk).height]
    · rw [(hprog k hk).validators]
      refine authentic_of_create hcreate ?_
      rw [hme]
      exact (hL k' hk').1
  have hcounted := (hprog k hk).caughtUp.counted m hhanded hcountable
    (hround.trans ((haccepts k' hk').round.trans (haccepts k hk).round.symm))
  have hmem := hcounts _ m hcounted htype hhash
  rwa [hsender, hme] at hmem

/-- With a quorum of PREPAREs each member sends its COMMIT, and with a quorum of COMMITs it decides. -/
lemma Exchanged.decided (hexchanged : Exchanged w L r)
    (hsign : ∀ (k : PrivateKey) message, Crypto.sign k message ≠ [])
    (hprog : ∀ k ∈ L, net.Progressing k (w k)) (hL : ∀ k ∈ L, net.Correct k)
    (hquorum : net.validators.quorum ≤ L.card) (haccepts : ∀ k ∈ L, Accepts r h (w k)) :
    ∀ k ∈ L, (w k).engine.phase = .COMMITTED ∧ ∃ b ∈ (w k).decided, b.hash = .ok h := by
  -- everyone has a quorum of PREPAREs
  have hprepares : ∀ k ∈ L, ∀ k' ∈ L, k'.toHex ∈ ((w k).engine.prepares.getD h).keys := by
    refine hexchanged.mem_tally .PREPARE (fun e => (e.prepares.getD h).keys) hprog hL haccepts ?_
      fun k hk => ?_
    · rintro e m hm ht rfl
      exact hm.1 ht
    · obtain ⟨b, hb, hh⟩ := (haccepts k hk).proposal
      obtain ⟨hown, m, hm, hcreate⟩ := (hprog k hk).voting.prepare (haccepts k hk).phase b hb h hh
      exact ⟨hown, m, hm, hcreate, Or.inl rfl⟩
  have hprepared : ∀ k ∈ L, (w k).engine.phase.IsPrepared := by
    intro k hk
    obtain ⟨b, hb, hh⟩ := (haccepts k hk).proposal
    cases hphase : (w k).engine.phase with
    | NEW_ROUND => exact absurd hphase (haccepts k hk).phase
    | PRE_PREPARED =>
      have hlt := (hprog k hk).caughtUp.prepares hphase b hb h hh
      rw [(hprog k hk).validators] at hlt
      exact absurd (quorum_le_len hquorum (hprepares k hk)) hlt.not_ge
    | PREPARED => exact Or.inl rfl
    | COMMITTED => exact Or.inr rfl
  -- so everyone has a quorum of COMMITs
  have hcommits : ∀ k ∈ L, ∀ k' ∈ L, k'.toHex ∈ ((w k).engine.commits.getD h).keys := by
    refine hexchanged.mem_tally .COMMIT (fun e => (e.commits.getD h).keys) hprog hL haccepts ?_
      fun k hk => ?_
    · rintro e m hm ht rfl
      exact hm.2 ht
    · obtain ⟨b, hb, hh⟩ := (haccepts k hk).proposal
      obtain ⟨hown, m, hm, hcreate⟩ := (hprog k hk).voting.commit (hprepared k hk) b hb h hh
      exact ⟨hown, m, hm, hcreate, Or.inr ⟨rfl, validCommitSeal_of_create hsign hcreate⟩⟩
  intro k hk
  obtain ⟨b, hb, hh⟩ := (haccepts k hk).proposal
  have hcommitted : (w k).engine.phase = .COMMITTED := by
    refine (hprepared k hk).resolve_left fun hphase => ?_
    have hlt := (hprog k hk).caughtUp.commits hphase b hb h hh
    rw [(hprog k hk).validators] at hlt
    exact absurd (quorum_le_len hquorum (hcommits k hk)) hlt.not_ge
  exact ⟨hcommitted, b, (hprog k hk).voting.decided hcommitted b hb, hh⟩

/-- A quorum of validators that have accepted the same proposal in a round and have been handed each
other's votes for the round have all decided the proposal, whatever else the network has delivered and in
whatever order, and whatever the other validators do. -/
theorem round_decides (hsign : ∀ (k : PrivateKey) message, Crypto.sign k message ≠ [])
    (hbegins : net.BeginsBlank w₀) (hrun : ReflTransGen (net.CallStep fun _ _ _ => True) w₀ w)
    (hL : ∀ k ∈ L, net.Correct k) (hquorum : net.validators.quorum ≤ L.card)
    (haccepts : ∀ k ∈ L, Accepts r h (w k)) (hexchanged : Exchanged w L r) :
    ∀ k ∈ L, (w k).engine.phase = .COMMITTED ∧ ∃ b ∈ (w k).decided, b.hash = .ok h :=
  hexchanged.decided hsign (fun k hk => hbegins.run hrun (hL k hk)) hL hquorum haccepts

end Round

/-! ### Schedules -/

/-- Nothing that was sent or received is taken back. -/
lemma Turn.subset_play (w : World) (t : Turn) (k : PublicKey) :
    (w k).sent <+: (t.play w k).sent ∧ (w k).received <+: (t.play w k).received := by
  have hcall : ∀ (k' : PublicKey) (c : Call),
      (w k).sent <+: (Function.update w k' ((w k').call c) k).sent ∧
        (w k).received <+: (Function.update w k' ((w k').call c) k).received := by
    intro k' c
    by_cases heq : k = k'
    · subst heq
      rw [Function.update_self]
      exact ⟨List.prefix_append _ _, List.prefix_append _ _⟩
    · rw [Function.update_of_ne heq]
      exact ⟨List.prefix_refl _, List.prefix_refl _⟩
  cases t with
  | pending k' records changes => exact hcall k' _
  | timeout k' => exact hcall k' _
  | relay k' k'' i =>
    simp only [Turn.play]
    cases (w k').sent[i]? with
    | some m => exact hcall k'' _
    | none => exact ⟨List.prefix_refl _, List.prefix_refl _⟩

lemma subset_foldl_play (turns : List Turn) (w : World) (k : PublicKey) :
    (w k).sent <+: (turns.foldl Turn.play w k).sent ∧
      (w k).received <+: (turns.foldl Turn.play w k).received := by
  induction turns generalizing w with
  | nil => exact ⟨List.prefix_refl _, List.prefix_refl _⟩
  | cons t turns ih =>
    obtain ⟨hsent, hreceived⟩ := t.subset_play w k
    obtain ⟨hsent', hreceived'⟩ := ih (t.play w)
    exact ⟨hsent.trans hsent', hreceived.trans hreceived'⟩

/-- A message that is relayed in a schedule has been received at its end. -/
lemma mem_received_of_relay {turns : List Turn} {w : World} {k k' : PublicKey} {i j : ℕ}
    (hturn : turns[j]? = some (.relay k k' i)) (hi : i < ((turns.take j).foldl Turn.play w k).sent.length)
    {m : ConsensusMessage} (hm : (turns.foldl Turn.play w k).sent[i]? = some m) :
    m ∈ (turns.foldl Turn.play w k').received := by
  obtain ⟨hj, hget⟩ := List.getElem?_eq_some_iff.mp hturn
  have hsplit : turns = turns.take j ++ .relay k k' i :: turns.drop (j + 1) := by
    rw [← hget, List.cons_getElem_drop_succ, List.take_append_drop]
  have hfold : turns.foldl Turn.play w =
      (turns.drop (j + 1)).foldl Turn.play ((Turn.relay k k' i).play ((turns.take j).foldl Turn.play w)) := by
    conv_lhs => rw [hsplit]
    rw [List.foldl_append, List.foldl_cons]
  -- the message is the one that was there when it was relayed
  have hthen : ((turns.take j).foldl Turn.play w k).sent[i]? = some m := by
    have hprefix := ((Turn.relay k k' i).subset_play ((turns.take j).foldl Turn.play w) k).1.trans
      (subset_foldl_play (turns.drop (j + 1)) _ k).1
    rw [hfold] at hm
    obtain ⟨l, hl⟩ := hprefix
    rw [← hl, List.getElem?_append_left hi] at hm
    exact hm
  rw [hfold]
  refine (subset_foldl_play (turns.drop (j + 1)) _ k').2.subset ?_
  rw [Turn.play]
  simp only [hthen, Function.update_self]
  exact List.mem_append_right _ (List.mem_singleton.mpr rfl)

/-- Every message was relayed. -/
lemma received_of_relays {turns : List Turn} {w : World} {k k' : PublicKey}
    (h : ∀ i < (turns.foldl Turn.play w k).sent.length, ∃ j : ℕ, turns[j]? = some (.relay k k' i) ∧
      i < ((turns.take j).foldl Turn.play w k).sent.length) :
    ∀ m ∈ (turns.foldl Turn.play w k).sent, m ∈ (turns.foldl Turn.play w k').received := by
  intro m hm
  obtain ⟨i, hi, hget⟩ := List.mem_iff_getElem.mp hm
  obtain ⟨j, hturn, hthen⟩ := h i hi
  exact mem_received_of_relay hturn hthen (List.getElem?_eq_some_iff.mpr ⟨hi, hget⟩)

omit [Crypto] in
/-- Two validators have been handed everything that the other one has sent. -/
lemma exchanged_of_pair {a b : PublicKey} {r : ℤ} (hab : ∀ m ∈ (w a).sent, m ∈ (w b).received)
    (hba : ∀ m ∈ (w b).sent, m ∈ (w a).received) : Exchanged w {a, b} r := by
  intro k hk k' hk' hne m hm _ _
  rw [Finset.mem_insert, Finset.mem_singleton] at hk hk'
  rcases hk with rfl | rfl <;> rcases hk' with rfl | rfl
  · exact absurd rfl hne
  · exact hba m hm
  · exact hab m hm
  · exact absurd rfl hne

omit [Crypto] in
/-- No checksum signature is empty. -/
lemma checksums_sign_ne_nil : letI := Crypto.checksums
    ∀ (k : PrivateKey) message, Crypto.sign k message ≠ [] := by
  let := Crypto.checksums
  intro k message hnil
  have hlength := k.length_seed
  rw [(List.append_eq_nil_iff.mp hnil).1] at hlength
  cases hlength

omit [Crypto] in
/-- Two validators exchange the votes of round 0 and decide the block of the second. -/
theorem round_decides_of_pair :
    letI := Crypto.checksums
    let a := seedPublic 0xaa
    let b := seedPublic 0xbb
    let turns : List Turn := [.pending b [] [⟨.ADD, []⟩], .relay b a 0, .relay b a 1, .relay a b 0,
      .relay a b 1, .relay b a 2]
    let w := turns.foldl Turn.play (worldOfSeed .pair fun k => if k = a then 0xaa else 0xbb)
    ∃ h, ∀ k ∈ ({a, b} : Finset PublicKey),
      (w k).engine.phase = .COMMITTED ∧ ∃ block ∈ (w k).decided, block.hash = .ok h := by
  let := Crypto.checksums
  intro a b turns w
  let net : Network := ⟨.pair, 1, ∅, Nat.zero_le _⟩
  let w₀ := worldOfSeed .pair fun k => if k = a then 0xaa else 0xbb
  have ha : net.Correct a := by decide +kernel
  have hb : net.Correct b := by decide +kernel
  have hbegins : net.BeginsBlank w₀ := by
    refine ⟨fun k hk => ?_⟩
    have hkey : (seedKey (if k = a then 0xaa else 0xbb)).publicKey = k := by
      have hall : ∀ k ∈ ValidatorSet.pair.validators,
          (seedKey (if k = a then 0xaa else 0xbb)).publicKey = k := by decide +kernel
      exact hall k hk.1
    refine ⟨seedKey (if k = a then 0xaa else 0xbb), ZERO_HASH, fun i => i, .null, _, hkey,
      ⟨fun _ _ => rfl, rfl⟩, ⟨fun _ h => (by cases h), fun _ h => (by cases h)⟩,
      ConsensusEngine.new_eq_ok.mpr ⟨?_, rfl⟩, rfl⟩
    rw [hkey]
    exact hk.1
  have hplay : ReflTransGen (net.CallStep net.Admits) w₀ w :=
    reaches_play (.of_begins (begins_worldOfSeed rfl (by decide +kernel))) (by decide +kernel)
  have hrun : ReflTransGen (net.CallStep fun _ _ _ => True) w₀ w :=
    ReflTransGen.mono (fun _ _ hstep => hstep.mono fun _ _ _ => trivial) _ _ hplay
  let h := ((w a).engine.proposal.bind fun block => block.hash.toOption).getD []
  have hstate : (∀ k ∈ [a, b], (w k).engine.round = 0 ∧ (w k).engine.phase ≠ .NEW_ROUND ∧
      (w k).engine.proposal.map (fun block => block.hash.toOption) = some (some h)) ∧
      (w a).sent.length = 2 ∧ (w b).sent.length = 3 := by
    decide +kernel
  obtain ⟨hstate, hlength, hlength'⟩ := hstate
  have haccepts : ∀ k ∈ ({a, b} : Finset PublicKey), Accepts 0 h (w k) := by
    intro k hk
    obtain ⟨hround, hphase, hproposal⟩ := hstate k (by simpa using hk)
    obtain ⟨block, hblock, hhash⟩ := Option.map_eq_some_iff.mp hproposal
    refine ⟨hround, hphase, block, hblock, ?_⟩
    cases hx : block.hash with
    | error err => rw [hx] at hhash; cases hhash
    | ok x => rw [hx] at hhash; exact congrArg Except.ok (Option.some.inj hhash)
  -- every message of one was relayed to the other
  have hexchanged : Exchanged w {a, b} 0 := by
    refine exchanged_of_pair (received_of_relays fun i hi => ?_) (received_of_relays fun i hi => ?_)
    · change i < (w a).sent.length at hi
      rw [hlength] at hi
      interval_cases i
      · exact ⟨3, rfl, by decide +kernel⟩
      · exact ⟨4, rfl, by decide +kernel⟩
    · change i < (w b).sent.length at hi
      rw [hlength'] at hi
      interval_cases i
      · exact ⟨1, rfl, by decide +kernel⟩
      · exact ⟨2, rfl, by decide +kernel⟩
      · exact ⟨5, rfl, by decide +kernel⟩
  refine ⟨h, round_decides checksums_sign_ne_nil hbegins hrun (fun k hk => ?_) (by decide +kernel)
    haccepts hexchanged⟩
  rcases Finset.mem_insert.mp hk with rfl | hk
  · exact ha
  · rw [Finset.mem_singleton.mp hk]
    exact hb

end Network

end Helix
