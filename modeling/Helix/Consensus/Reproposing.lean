import Helix.Consensus.Proposing
import Helix.Consensus.Recovery

/-!
# Proposals over restarts

An engine queues its PRE_PREPARE before it asks the journal whether it may vote for the block. After a
restart it can so send a second proposal for a round. It does not in runs in which the journal has no other
block than the one that a call would propose (`ProposesFreely`).
-/

namespace Helix

open Relation (ReflTransGen)
open EngineM

variable [Crypto] {e : ConsensusEngine} {c : Call} {s s' : Frame} {m : ConsensusMessage}

/-! ### What a call proposes -/

namespace EngineM

variable {r : ℤ}

/-- A proposal that is emitted is the only one that is added. -/
lemma eq_of_emitPrePrepare {block : Block} {h : PyStr} {cert : List ConsensusMessage}
    (hsilent : ∀ m ∈ s.result.broadcast, m.type ≠ .PRE_PREPARE) (hh : block.hash = .ok h)
    (hm : m ∈ (emitPrePrepare block cert s).2.result.broadcast) (ht : m.type = .PRE_PREPARE) :
    m.round = s.engine.round ∧ m.block = some block ∧ m.blockHash = h := by
  obtain ⟨pre, hpre⟩ := exists_create_of_hash hh .PRE_PREPARE s.engine.height s.engine.round
    s.engine.privateKey (some block) none [] cert
  rw [emitPrePrepare_eq hh hpre] at hm
  have hquiet : Quiet (s.send [pre]) (acceptProposal block (s.send [pre])).2 :=
    .of_path (quiet_acceptProposal _).path
  have hold := hquiet.proposals m hm ht
  obtain ⟨-, -, hround, hhash, -, hblock, -⟩ := ConsensusMessage.create_eq hpre
  rcases List.mem_append.mp hold with hold | hold
  · exact absurd ht (hsilent m hold)
  · rw [List.mem_singleton.mp hold]
    exact ⟨hround, hblock, hhash⟩

/-- The proposer of a round that was just entered proposes nothing but what its certificate asks for. -/
lemma TakesOver.proposes_asked (hs : TakesOver r s)
    (hm : m ∈ (proposeForRoundChange r s).2.result.broadcast) (ht : m.type = .PRE_PREPARE) :
    Proposal s.engine (s.engine.roundChanges.getD r).values r m := by
  obtain ⟨verdict, hverdict⟩ := hs.exists_verdict
  have hends := hs.ends hverdict
  generalize proposeForRoundChange r s = out at hends hm
  cases hends with
  | unreadable => exact absurd ht (hs.silent m hm)
  | missing => exact absurd ht (hs.silent m hm)
  | @locked x block hlock hlocked =>
    have hh := hash_of_lockedBlockFromCert hlocked
    obtain ⟨hround, hblock, hhash⟩ := eq_of_emitPrePrepare hs.silent hh hm ht
    exact ⟨ht, hround.trans hs.round, block, hblock, hhash ▸ hh, verdict, hverdict, Or.inl ⟨x, hlock, hh⟩⟩
  | unbuildable => exact absurd ht (hs.silent m hm)
  | @fresh block hlock hfresh =>
    cases hh : block.hash with
    | error err =>
      rw [emitPrePrepare_of_error hh] at hm
      exact absurd ht (hs.silent m hm)
    | ok h =>
      obtain ⟨hround, hblock, hhash⟩ := eq_of_emitPrePrepare (s := s.tick) hs.silent hh hm ht
      exact ⟨ht, hround.trans hs.round, block, hblock, hhash ▸ hh, verdict, hverdict,
        Or.inr ⟨hlock, hfresh⟩⟩

end EngineM

/-- A move does not take a round back. -/
lemma Move.round_le {e₀ : ConsensusEngine} (h : Move e₀ c s s') : s.engine.round ≤ s'.engine.round := by
  cases h with
  | adopt hlt => exact hlt.le
  | _ => exact le_rfl

lemma Reached.proposal_round_le (hs : Reached e c s) (hm : m ∈ s.result.broadcast)
    (ht : m.type = .PRE_PREPARE) : m.round ≤ s.engine.round := by
  induction hs with
  | refl => cases hm
  | tail hs hmove ih =>
    rcases hmove.sends hm with hm | hsends
    · exact (ih hm).trans hmove.round_le
    · obtain ⟨_, _, _, -, -, hcreate⟩ := hsends.proposes ht
      obtain ⟨-, -, hround, -⟩ := ConsensusMessage.create_eq hcreate
      exact hround ▸ hmove.round_le

/-- A call that processes round changes proposes in rounds of its own only, and nothing but what the
ROUND_CHANGEs at hand ask for. -/
lemma Call.Changing.proposes_asked (hc : c.Changing e) (he : e.Sound)
    (hm : m ∈ (c.run e).2.result.broadcast) (ht : m.type = .PRE_PREPARE) :
    e.round < m.round ∧ e.me = e.validators.proposer e.height m.round ∧
      e.validators.quorum ≤ (insert e.me.toHex (changeSenders e c m.round)).card ∧
      Proposal e (e.changesWith c m.round).values m.round m := by
  have hreached : Reached e c (c.run e).2 := c.run_moves e
  obtain ⟨s₁, hs₁, hsends⟩ := hreached.sends hm
  obtain ⟨_, _, _, hproposes, -, hcreate⟩ := hsends.proposes ht
  obtain ⟨-, -, hround, -⟩ := ConsensusMessage.create_eq hcreate
  cases hproposes with
  | fresh hset =>
    rcases hc with ⟨heq, -⟩ | ⟨m', hm', -⟩
    · rw [hset] at heq
      cases heq
    · have heq := hm'.eq
      rw [hset] at heq
      cases heq
  | change _ hr hme hquorum =>
    rw [← hround] at hr hme hquorum
    rw [Dict.len_eq_card] at hquorum
    refine ⟨hr, hme, hquorum.trans (Finset.card_le_card (hs₁.roundChanges_subset hc _).1), ?_⟩
    have hlater : e.round < (c.run e).2.engine.round := hr.trans_le (hreached.proposal_round_le hm ht)
    obtain ⟨t, hrun, hadopts⟩ := hc.exists_adopts he hlater rfl
    rw [hrun] at hm
    by_cases hmine : e.me = e.validators.proposer e.height (c.run e).2.engine.round
    swap
    · have hother : ¬t.engine.isProposer = true := by
        rw [ConsensusEngine.isProposer, decide_eq_true_iff, hadopts.me, hadopts.validators,
          hadopts.height, hadopts.round]
        exact hmine
      have hquiet : proposeForRoundChange (c.run e).2.engine.round t = (.ok (), t) := by
        rw [proposeForRoundChange, self_bind]
        split_ifs <;> rfl
      rw [hquiet] at hm
      exact absurd ht (hadopts.silent m hm)
    have hasked := (hadopts.takesOver hmine).proposes_asked hm ht
    rw [hadopts.changes, hadopts.proposal_iff] at hasked
    rw [hasked.round]
    exact hasked

/-! ### What the journal allows -/

/-- The journal has no PREPARE vote for another block than the one that the call would propose: at round 0
the block that it would build, and in a round that it can adopt as proposer the block that the ROUND_CHANGEs
at hand ask for. -/
structure ProposesFreely (e : ConsensusEngine) (c : Call) : Prop where
  fresh : ∀ records changes block h, c = .setPending records changes → e.round = 0 →
    e.phase = .NEW_ROUND → e.me = e.validators.proposer e.height e.round →
    (records ≠ [] ∨ changes ≠ []) →
    Block.create e.height e.previousHash (e.nowMs 0) e.me.toHex records changes = .ok block →
    block.hash = .ok h → ∀ h' ∈ e.journal.votedHash e.round .PREPARE, h' = h
  change : c.Changing e → ∀ r, e.round < r → e.me = e.validators.proposer e.height r →
    e.validators.quorum ≤ (insert e.me.toHex (changeSenders e c r)).card →
    ∀ block h, e.Asks (e.changesWith c r).values r block → block.hash = .ok h →
    ∀ h' ∈ e.journal.votedHash r .PREPARE, h' = h

/-- A proposal that a call sends is journaled as a vote, unless another block was before. -/
lemma Validator.journals_proposals (v : Validator) (hdur : v.engine.journal.Durable v.engine.height)
    (c : Call) : (∀ row ∈ v.engine.journal.table, row ∈ (v.call c).engine.journal.table) ∧
      ∀ m ∈ (c.run v.engine).2.result.broadcast, m.type = .PRE_PREPARE →
        v.engine.voteRow m.round .PREPARE m.blockHash ∈ (v.call c).engine.journal.table ∨
          ∃ h' ∈ v.engine.journal.votedHash m.round .PREPARE, h' ≠ m.blockHash := by
  have hall : ∀ s, Reached v.engine c s → s.engine.journal.Durable s.engine.height ∧
      (∀ row ∈ v.engine.journal.table, row ∈ s.engine.journal.table) ∧
      ∀ m ∈ s.result.broadcast, m.type = .PRE_PREPARE →
        s.engine.voteRow m.round .PREPARE m.blockHash ∈ s.engine.journal.table ∨
          ∃ h' ∈ v.engine.journal.votedHash m.round .PREPARE, h' ≠ m.blockHash := by
    intro s hs
    induction hs with
    | refl => exact ⟨hdur, fun _ h => h, fun m hm => by cases hm⟩
    | @tail s _ hs hmove ih =>
      obtain ⟨hdur, hgrows, ih⟩ := ih
      cases hmove with
      | leave hch ht hr hwhy hm =>
        refine ⟨hdur, hgrows, fun a ha hat => ?_⟩
        rcases List.mem_append.mp ha with ha | ha
        · exact ih a ha hat
        · rw [List.mem_singleton.mp ha, (ConsensusEngine.roundChange_eq hm).1] at hat
          cases hat
      | accept horigin hphase hh hprior hm =>
        rename_i block h m pre
        have htable := Frame.table_accept (s := s.send pre) hdur block h m
        refine ⟨hdur.recordVote _ _ _, fun row hrow => ?_, fun a ha hat => ?_⟩
        · exact htable ▸ List.mem_append_left _ (hgrows row hrow)
        · simp only [Frame.accept, Frame.mapEngine, Frame.send, List.mem_append, List.mem_singleton] at ha
          rcases ha with (ha | ha) | ha
          · exact (ih a ha hat).imp_left fun h => htable ▸ List.mem_append_left _ h
          · cases horigin with
            | own hp hh' hpre =>
              obtain rfl := Except.ok.inj (hh.symm.trans hh')
              obtain ⟨-, -, hround, hhash, -⟩ := ConsensusMessage.create_eq hpre
              rw [List.mem_singleton.mp ha, hround, hhash]
              exact Or.inl (htable ▸ List.mem_append_right _ List.mem_cons_self)
            | peer => cases ha
          · rw [ha, (ConsensusMessage.create_eq hm).1] at hat
            cases hat
      | refuse horigin hphase hh hprior hne =>
        rename_i block h h' pre
        refine ⟨hdur, hgrows, fun a ha hat => ?_⟩
        rcases List.mem_append.mp ha with ha | ha
        · exact ih a ha hat
        · cases horigin with
          | own hp hh' hpre =>
            obtain rfl := Except.ok.inj (hh.symm.trans hh')
            obtain ⟨-, -, hround, hhash, -⟩ := ConsensusMessage.create_eq hpre
            rw [List.mem_singleton.mp ha, hround, hhash]
            refine Or.inr ⟨h', ?_, hne⟩
            rcases Reached.votedHash_since hs hprior with h | h | ⟨-, h⟩
            · exact h
            · exact absurd h (lt_irrefl _)
            · exact absurd hphase h
          | peer => cases ha
      | prepare hopen hphase hblock hh hquorum hprior hm =>
        rename_i block h m
        have htable := Frame.table_prepare hdur block h m
        refine ⟨(hdur.recordPrepared _).recordVote _ _ _, fun row hrow => ?_, fun a ha hat => ?_⟩
        · exact htable ▸ List.mem_append_left _ (hgrows row hrow)
        · rcases List.mem_append.mp ha with ha | ha
          · exact (ih a ha hat).imp_left fun h => htable ▸ List.mem_append_left _ h
          · rw [List.mem_singleton.mp ha, (ConsensusMessage.create_eq hm).1] at hat
            cases hat
      | _ => exact ⟨hdur, hgrows, ih⟩
  obtain ⟨-, hgrows, hproposals⟩ := hall _ (c.run_moves v.engine)
  refine ⟨hgrows, fun m hm ht => (hproposals m hm ht).imp_left fun h => ?_⟩
  have hheight : (c.run v.engine).2.engine.height = v.engine.height := (v.since_call c).height
  rwa [ConsensusEngine.voteRow, hheight] at h

/-- Every PRE_PREPARE sent comes with the PREPARE vote for its block in the journal. -/
structure ProposalsJournaled (v : Validator) : Prop extends VotesJournaled v where
  proposals : ∀ m ∈ v.sent, m.type = .PRE_PREPARE →
    v.engine.voteRow m.round .PREPARE m.blockHash ∈ v.engine.journal.table

lemma ProposalsJournaled.call {v : Validator} (hv : ProposalsJournaled v) (he : v.engine.Sound)
    (hc : ProposesFreely v.engine c) : ProposalsJournaled (v.call c) := by
  obtain ⟨hgrows, hproposals⟩ := v.journals_proposals hv.durable c
  have hrow : ∀ r h, v.engine.voteRow r .PREPARE h ∈ (v.call c).engine.journal.table →
      (v.call c).engine.voteRow r .PREPARE h ∈ (v.call c).engine.journal.table := by
    intro r h hmem
    rwa [ConsensusEngine.voteRow, (v.since_call c).height]
  refine { hv.toVotesJournaled.call c with proposals := fun m hm ht => hrow _ _ ?_ }
  rcases List.mem_append.mp hm with hm | hm
  · exact hgrows _ (hv.proposals m hm ht)
  refine (hproposals m hm ht).resolve_right ?_
  rintro ⟨h', hvoted, hne⟩
  refine hne ?_
  -- the journal has no other block than the one that is proposed
  obtain ⟨s₁, -, hsends⟩ := (c.run_moves v.engine).sends hm
  obtain ⟨block, _, x, hproposes, hh, hcreate⟩ := hsends.proposes ht
  obtain ⟨-, -, hround, hhash, -⟩ := ConsensusMessage.create_eq hcreate
  cases hproposes with
  | fresh hset hzero hr hnew hme hne hblock =>
    rw [hround, hr] at hvoted
    rw [hhash]
    exact hc.fresh _ _ block x hset hzero hnew hme hne hblock hh h' hvoted
  | change hch =>
    obtain ⟨hlater, hme, hquorum, -, -, block, -, hh, hasks⟩ := hch.proposes_asked he hm ht
    exact hc.change hch m.round hlater hme hquorum block m.blockHash hasks hh h' hvoted

lemma ProposalsJournaled.step {v v' : Validator} (hv : ProposalsJournaled v) (he : v.engine.Sound)
    (hstep : Validator.Step ProposesFreely v v') : ProposalsJournaled v' := by
  cases hstep with
  | call c hc => exact hv.call he hc
  | crash c hc hbefore hafter =>
    exact { hv.toVotesJournaled.crash hbefore hafter with
      proposals := fun m hm ht => hbefore.subset (hv.proposals m hm ht) }

/-- At the start of a height, no lock of it is in the journal. -/
lemma Validator.Starts.sound {v : Validator} (hv : v.Starts) : v.engine.Sound := by
  obtain ⟨validators, privateKey, height, previousHash, nowMs, table, hrows, hnew⟩ := hv.journal
  obtain ⟨-, he⟩ := ConsensusEngine.new_eq_ok.mp hnew
  rw [he]
  exact .of_openView (fun row hrow hheight => absurd hheight (hrows row hrow)) _ _ _ _

/-- In a run in which the journal has no other block than the one that a call would propose, all PRE_PREPAREs
of one round carry one block hash, over any number of crashes. -/
theorem proposals_once {v₀ v : Validator} (hstart : v₀.Starts)
    (hrun : ReflTransGen (Validator.Step ProposesFreely) v₀ v) :
    ∀ m ∈ v.sent, ∀ m' ∈ v.sent, m.type = .PRE_PREPARE → m'.type = .PRE_PREPARE →
      m.round = m'.round → m.blockHash = m'.blockHash := by
  have hv : ProposalsJournaled v := by
    induction hrun with
    | refl =>
      refine { VotesJournaled.of_starts hstart with proposals := fun m hm => ?_ }
      rw [hstart.sent] at hm
      cases hm
    | tail hpast hstep ih => exact ih.step (.run hpast hstart.sound) hstep
  intro m hm m' hm' ht ht' hr
  have h := hv.proposals m hm ht
  rw [hr] at h
  exact hv.unique _ _ _ _ h (hv.proposals m' hm' ht')

/-- The hash of the block that a certificate for round `r` asks for. -/
def ConsensusEngine.askedHash (e : ConsensusEngine) (cert : List ConsensusMessage) (r : ℤ) :
    Except PyError PyStr := do
  match (← verifyRoundChangeCert e.validators e.height cert r).2 with
  | some x => return x
  | none => (← e.freshBlock).hash

lemma ConsensusEngine.Asks.askedHash_eq {cert : List ConsensusMessage} {r : ℤ} {block : Block} {h : PyStr}
    (hasks : e.Asks cert r block) (hh : block.hash = .ok h) : e.askedHash cert r = .ok h := by
  obtain ⟨verdict, hverdict, ⟨x, hx, hhash⟩ | ⟨hnone, hfresh⟩⟩ := hasks
  · obtain rfl := Except.ok.inj (hh.symm.trans hhash)
    simp only [askedHash, hverdict, hx, bind, Except.bind, pure, Except.pure]
  · simp only [askedHash, hverdict, hnone, hfresh, bind, Except.bind]
    exact hh

/-- A check for `ProposesFreely`. -/
def proposesFreely (e : ConsensusEngine) (c : Call) : Bool :=
  (match c with
    | .setPending records changes => (e.journal.votedHash e.round .PREPARE).all fun h' =>
      decide (((Block.create e.height e.previousHash (e.nowMs 0) e.me.toHex records changes).bind
        Block.hash).toOption = some h')
    | _ => true) &&
  (e.roundChanges.keys ++ c.messages.map (·.round)).all fun r => decide (r ≤ e.round) ||
    (e.journal.votedHash r .PREPARE).all fun h' =>
      decide ((e.askedHash (e.changesWith c r).values r).toOption = some h')

lemma proposesFreely_of_check (hquorum : 2 ≤ e.validators.quorum) (h : proposesFreely e c = true) :
    ProposesFreely e c := by
  obtain ⟨hset, hchange⟩ := Bool.and_eq_true_iff.mp h
  constructor
  · intro records changes block x hc _ _ _ _ hblock hh h' hvoted
    subst hc
    simp only [Option.mem_def.mp hvoted, Option.all_some, decide_eq_true_eq, hblock, Except.bind, hh,
      Except.toOption, Option.some.injEq] at hset
    exact hset.symm
  · intro hc r hlater _ hcard block x hasks hh h' hvoted
    have hr : r ∈ e.roundChanges.keys ++ c.messages.map (·.round) := by
      rcases mem_of_changeSenders (exists_changer hquorum hcard) with hr | ⟨m, hm, -, rfl⟩
      · exact List.mem_append_left _ hr
      · exact List.mem_append_right _ (List.mem_map_of_mem hm)
    have hasked := List.all_eq_true.mp hchange r hr
    simp only [not_le.mpr hlater, decide_false, Bool.false_or, Option.mem_def.mp hvoted,
      Option.all_some, decide_eq_true_eq, hasks.askedHash_eq hh, Except.toOption,
      Option.some.injEq] at hasked
    exact hasked.symm

omit [Crypto] in
/-- The proposer of rounds 0 and 2 proposes in both, restarts with the same clock, and proposes the two
blocks once more. -/
theorem proposals_once_over_restart :
    letI := Crypto.checksums
    let change : Call := .handle (.ofSeed 0xaa .ROUND_CHANGE 2 (.ofTimestamp 0))
    let calls : List Call := [.setPending [] [⟨.ADD, []⟩], change]
    let v := calls.foldl Validator.call (Validator.ofSeed .pair 0xbb)
    let v' := calls.foldl Validator.call (v.restart fun i => i)
    (v'.sent.filter (·.type = .PRE_PREPARE)).map (·.round) = [0, 2, 0, 2] ∧
    ∀ m ∈ v'.sent, ∀ m' ∈ v'.sent, m.type = .PRE_PREPARE → m'.type = .PRE_PREPARE →
      m.round = m'.round → m.blockHash = m'.blockHash := by
  let := Crypto.checksums
  intro change calls v v'
  have hstart : (Validator.ofSeed .pair 0xbb).Starts :=
    Validator.starts_ofSeed (by decide +kernel)
  let check := fun (e : ConsensusEngine) (c : Call) =>
    decide (2 ≤ e.validators.quorum) && proposesFreely e c
  have hok : ∀ e c, check e c = true → ProposesFreely e c := by
    intro e c h
    obtain ⟨hquorum, h⟩ := Bool.and_eq_true_iff.mp h
    exact proposesFreely_of_check (of_decide_eq_true hquorum) h
  have hbefore : (Validator.ofSeed .pair 0xbb).passes check calls = true := by decide +kernel
  have hafter : (v.restart fun i => i).passes check calls = true := by decide +kernel
  have hcalls : Validator.Calls ProposesFreely (Validator.ofSeed .pair 0xbb) v := .of_passes hok hbefore
  have hcalls' : Validator.Calls ProposesFreely (v.restart fun i => i) v' := .of_passes hok hafter
  have hdurable : v.engine.journal.Durable v.engine.height :=
    (VotesJournaled.of_run hstart hcalls.steps).durable
  have hmem : v.engine.me ∈ v.engine.validators.validators := by decide +kernel
  have hrestart : Validator.Step ProposesFreely v (v.restart fun i => i) :=
    .restart hdurable hmem (hok _ _ (by decide +kernel)) _
  have hrun : ReflTransGen (Validator.Step ProposesFreely) (Validator.ofSeed .pair 0xbb) v' :=
    (hcalls.steps.tail hrestart).trans hcalls'.steps
  exact ⟨by decide +kernel, proposals_once hstart hrun⟩

omit [Crypto] in
/-- The proposer of the first round proposes, restarts, and with a later clock proposes another
block for the same round. -/
theorem proposals_differ_after_restart :
    letI := Crypto.checksums
    let c : Call := .setPending [] [⟨.ADD, []⟩]
    let v₀ := Validator.ofSeed .pair 0xbb
    let v := ((v₀.call c).restart fun i => i + 9).call c
    v₀.Starts ∧ ReflTransGen (Validator.Step fun _ _ => True) v₀ v ∧
    ¬∀ m ∈ v.sent, ∀ m' ∈ v.sent, m.type = .PRE_PREPARE → m'.type = .PRE_PREPARE →
      m.round = m'.round → m.blockHash = m'.blockHash := by
  let := Crypto.checksums
  intro c v₀ v
  have hstart : v₀.Starts := Validator.starts_ofSeed (by decide +kernel)
  refine ⟨hstart, ?_, by decide +kernel⟩
  refine ((ReflTransGen.single (.call c trivial)).tail ?_).tail (.call c trivial)
  exact .restart ((VotesJournaled.of_starts hstart).call c).durable
    (Validator.me_mem_call hstart.me_mem c) trivial _

end Helix
