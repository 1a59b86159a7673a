import Helix.Consensus.Delivered

/-!
# Delivery order within a round

The messages of one round are handed to a fresh engine that does not propose in it. What the engine
ends with is read off the set of messages alone: whether they take it to the round, whether a
proposal is among them, and how many votes it has. Votes that come early are kept and replayed, and
each step leaves the engine as far as its votes allow (`Validator.InRound`), so the order of delivery
does not matter. The exception is a proposal whose certificate holds a message that cannot be checked:
it raises if the round is still to be entered, and is accepted if it has been.
-/

namespace Helix

variable [Crypto]

open Eff (Returns)

section Round

variable {e₀ : ConsensusEngine} {r : ℤ} {h : PyStr} {block : Block} {D D' : List ConsensusMessage}
  {v : Validator} {c : Call} {s : Frame} {m : ConsensusMessage}

/-! ### The outcome -/

/-- The round, the phase, and the hashes of the proposal and of what was decided. -/
def Validator.outcome (v : Validator) :
    ℤ × Phase × Option (Except PyError PyStr) × List (Except PyError PyStr) :=
  (v.engine.round, v.engine.phase, v.engine.proposal.map Block.hash, v.decided.map Block.hash)

/-- The phase that the messages of a round lead to, once the engine is in the round. -/
def LeadsTo (e₀ : ConsensusEngine) (h : PyStr) (D : List ConsensusMessage) : Phase → Prop
  | .NEW_ROUND => ¬Proposed D
  | .PRE_PREPARED => Proposed D ∧
      (insert e₀.me.toHex (voters D .PREPARE h)).card < e₀.validators.quorum
  | .PREPARED => Proposed D ∧
      e₀.validators.quorum ≤ (insert e₀.me.toHex (voters D .PREPARE h)).card ∧
      (insert e₀.me.toHex (voters D .COMMIT h)).card < e₀.validators.quorum
  | .COMMITTED => Proposed D ∧
      e₀.validators.quorum ≤ (insert e₀.me.toHex (voters D .PREPARE h)).card ∧
      e₀.validators.quorum ≤ (insert e₀.me.toHex (voters D .COMMIT h)).card

lemma LeadsTo.unique {p q : Phase} (hp : LeadsTo e₀ h D p) (hq : LeadsTo e₀ h D q) : p = q := by
  cases p <;> cases q <;> simp only [LeadsTo] at hp hq <;>
    first
    | rfl
    | exact absurd hq.1 hp
    | exact absurd hp.1 hq
    | omega

namespace Validator.InRound

lemma leadsTo (hv : v.InRound e₀ r h D) (hstill : v.Still e₀ h D) :
    LeadsTo e₀ h D v.engine.phase := by
  cases hphase : v.engine.phase with
  | NEW_ROUND => exact hv.proposed.not.mp (not_not.mpr hphase)
  | PRE_PREPARED =>
    refine ⟨hv.proposed.mp ?_, hstill.prepares hphase⟩
    rw [hphase]
    decide
  | PREPARED =>
    refine ⟨hv.proposed.mp ?_, hv.prepared (Or.inl hphase), hstill.commits hphase⟩
    rw [hphase]
    decide
  | COMMITTED =>
    refine ⟨hv.proposed.mp ?_, hv.prepared (Or.inr hphase), hv.committed hphase⟩
    rw [hphase]
    decide

/-- The phase decides the rest of the outcome. -/
lemma outcome_eq (hv : v.InRound e₀ r h D) : v.outcome = (r, v.engine.phase,
    if v.engine.phase = .NEW_ROUND then none else some (.ok h),
    if v.engine.phase = .COMMITTED then [.ok h] else []) := by
  have hproposal : v.engine.proposal.map Block.hash =
      if v.engine.phase = .NEW_ROUND then none else some (.ok h) := by
    split_ifs with hphase
    · rw [hv.vacant hphase, Option.map_none]
    · obtain ⟨b, hb, hh⟩ := hv.proposal hphase
      rw [hb, Option.map_some, hh]
  rw [Validator.outcome, hv.round, hproposal, hv.decided]

end Validator.InRound

section Same

variable (hsame : ∀ m, m ∈ D ↔ m ∈ D')
include hsame

omit [Crypto] in
lemma voters_congr (type : MessageType) (x : PyStr) : voters D type x = voters D' type x := by
  ext i
  simp only [mem_voters, hsame]

lemma takesTo_congr : TakesTo e₀ D ↔ TakesTo e₀ D' := by
  have hchangers : changers e₀ D = changers e₀ D' := by
    ext i
    simp only [mem_changers, hsame]
  simp only [TakesTo, Proposed, hsame, hchangers]

lemma leadsTo_congr (p : Phase) : LeadsTo e₀ h D p ↔ LeadsTo e₀ h D' p := by
  cases p <;> simp only [LeadsTo, Proposed, voters_congr hsame, hsame]

/-- The set of messages decides the outcome. -/
lemma Validator.Delivered.outcome_eq {v' : Validator} (hv : v.Delivered e₀ r h D)
    (hv' : v'.Delivered e₀ r h D') : v.outcome = v'.outcome := by
  cases hv with
  | entered hr hv hstill =>
    cases hv' with
    | entered _ hv' hstill' =>
      have hphase : v.engine.phase = v'.engine.phase :=
        ((leadsTo_congr hsame _).mp (hv.leadsTo hstill)).unique (hv'.leadsTo hstill')
      rw [hv.outcome_eq, hv'.outcome_eq, hphase]
    | waiting hr' hno' =>
      rcases hr with rfl | ⟨-, htakes⟩
      · exact absurd hr' (lt_irrefl 0)
      · exact absurd ((takesTo_congr hsame).mp htakes) hno'
    | stale hr' => omega
  | waiting hr hno hv =>
    cases hv' with
    | entered hr' =>
      rcases hr' with rfl | ⟨-, htakes⟩
      · exact absurd hr (lt_irrefl 0)
      · exact absurd ((takesTo_congr hsame).mpr htakes) hno
    | waiting _ _ hv' =>
      simp only [Validator.outcome, hv.round, hv.phase, hv.proposal, hv.decided, hv'.round,
        hv'.phase, hv'.proposal, hv'.decided]
    | stale hr' => omega
  | stale hr hengine hdecided =>
    cases hv' with
    | entered hr' => omega
    | waiting hr' => omega
    | stale _ hengine' hdecided' =>
      simp only [Validator.outcome, hengine, hdecided, hengine', hdecided']

end Same

/-! ### Certificates that cannot be checked -/

namespace EngineM

lemma ingestRoundChange_state (q : ConsensusMessage) (s : Frame) :
    ∃ d, (ingestRoundChange q s).2 = s.mapEngine fun e => { e with roundChanges := d } := by
  rw [ingestRoundChange_eq]
  rcases storable s.engine.validators s.engine.height q with err | _ | _
  · exact ⟨s.engine.roundChanges, rfl⟩
  · exact ⟨s.engine.roundChanges, rfl⟩
  · exact ⟨_, rfl⟩

/-- The certificate is ingested up to a message that raises. -/
lemma ingest_raises (hvals : s.engine.validators = e₀.validators) (hm : ¬m.CertChecks e₀) :
    ∃ err s', m.roundChangeCert.forM ingestRoundChange s = (.error err, s') ∧
      ∃ d, s' = s.mapEngine fun e => { e with roundChanges := d } := by
  simp only [ConsensusMessage.CertChecks, not_forall] at hm
  obtain ⟨q, hq, hraise⟩ := hm
  refine Eff.forM_raises hq ⟨s.engine.roundChanges, rfl⟩ ?_ ?_
  · rintro q' - _ ⟨d, rfl⟩
    obtain ⟨d', hd'⟩ := ingestRoundChange_state q' (s.mapEngine fun e => { e with roundChanges := d })
    exact ⟨d', hd'⟩
  · rintro _ ⟨d, rfl⟩
    cases hauth : authentic e₀.validators q with
    | ok ok => exact absurd ⟨ok, hauth⟩ hraise
    | error err =>
      rw [← hvals] at hauth
      refine ⟨err, s.mapEngine fun e => { e with roundChanges := d }, ?_⟩
      have hlift : (Eff.lift (authentic s.engine.validators q) : EngineM Bool)
          (s.mapEngine fun e => { e with roundChanges := d }) =
          (.error err, s.mapEngine fun e => { e with roundChanges := d }) := by
        rw [hauth]
        rfl
      rw [ingestRoundChange, self_bind]
      exact Eff.bind_apply_error hlift

/-- Its proposal raises if the round is still to be entered. -/
lemma handle_raises (hv : (v.during c s).Waiting e₀ r D) (hr : 0 < r)
    (hm : MessageOfRound e₀ r block m) (ht : m.type = .PRE_PREPARE) (hcert : ¬m.CertChecks e₀) :
    ∃ err d, handle m s = (.error err, s.mapEngine fun e => { e with roundChanges := d }) := by
  obtain ⟨justified, hverdict, -⟩ := (hm.proposal ht).cert hr
  have hvals : s.engine.validators = e₀.validators := hv.alike.validators
  have hheight : s.engine.height = e₀.height := hv.alike.height
  have hzero : s.engine.round = 0 := hv.round
  rw [← hvals, ← hheight, ← hm.round] at hverdict
  obtain ⟨err, _, hingest, d, rfl⟩ := ingest_raises hvals hcert
  have henter : enterRound m s = (.error err, s.mapEngine fun e => { e with roundChanges := d }) := by
    have hlater : s.engine.round < m.round := by
      have := hm.round
      omega
    rw [enterRound, self_bind, if_pos hlater, Eff.lift_bind_ok hverdict, if_neg (not_not.mpr rfl)]
    exact Eff.bind_apply_error hingest
  refine ⟨err, d, ?_⟩
  rw [handle_eq hv.alike hm.accepted, ht]
  exact Eff.bind_apply_error henter

end EngineM

/-- An engine that does not propose in round `r` stays in its first phase while it handles
ROUND_CHANGEs. -/
lemma Move.newRound {e : ConsensusEngine} {s' : Frame} (hmove : Move e (.handle m) s s')
    (ht : m.type = .ROUND_CHANGE) (hproposer : e.me ≠ e.validators.proposer e.height r)
    (hs : s.engine.round = r → s.engine.phase = .NEW_ROUND) :
    s'.engine.round = r → s'.engine.phase = .NEW_ROUND := by
  have hlate : s.engine.phase ≠ .NEW_ROUND → s.engine.round ≠ r := fun hphase hround =>
    hphase (hs hround)
  cases hmove with
  | pending | clock | keep | store | leave | tallyPrepare | tallyCommit | refuse => exact hs
  | adopt => exact fun _ => rfl
  | accept horigin =>
    intro hround
    cases horigin with
    | own hp =>
      cases hp with
      | fresh hc => cases hc
      | change _ _ hme =>
        rw [show s.engine.round = r from hround] at hme
        exact absurd hme hproposer
    | peer hm =>
      have htype := hm.handles.type
      cases hm.handles.eq
      rw [ht] at htype
      cases htype
  | prepare _ hphase =>
    exact fun hround => absurd hround (hlate (by rw [hphase]; decide))
  | finalize _ hphase =>
    exact fun hround => absurd hround (hlate (by rw [hphase]; decide))
  | finalizeRaises hphase =>
    exact fun hround => absurd hround (hlate (by rw [hphase]; decide))

lemma Validator.newRound_run {l : List ConsensusMessage} (he : e₀.Alike v.engine)
    (ht : ∀ m ∈ l, m.type = .ROUND_CHANGE)
    (hproposer : e₀.me ≠ e₀.validators.proposer e₀.height r)
    (hv : v.engine.round = r → v.engine.phase = .NEW_ROUND) :
    let v' := (l.map Call.handle).foldl Validator.call v
    v'.engine.round = r → v'.engine.phase = .NEW_ROUND := by
  induction l generalizing v with
  | nil => exact hv
  | cons m l ih =>
    have hsince := v.since_call (.handle m)
    have hproposer' : v.engine.me ≠ v.engine.validators.proposer v.engine.height r := by
      rw [he.me, he.validators, he.height]
      exact hproposer
    refine ih ⟨hsince.validators.trans he.validators, hsince.privateKey.trans he.privateKey,
      hsince.height.trans he.height, hsince.previousHash.trans he.previousHash⟩
      (fun m' hm' => ht m' (List.mem_cons_of_mem _ hm')) ?_
    refine Validator.call_induction (P := fun v => v.engine.round = r → v.engine.phase = .NEW_ROUND)
      v (.handle m) hv fun s s' _ hs hmove => ?_
    exact hmove.newRound (ht m List.mem_cons_self) hproposer' hs

end Round

section Fresh

variable {validators : ValidatorSet} {privateKey : PrivateKey} {height : ℤ} {previousHash : PyStr}
  {nowMs : ℕ → ℤ} {journal : VoteJournal} {e : ConsensusEngine} {r : ℤ} {block : Block}
  {l : List ConsensusMessage}

/-- The proposals of a round are of one hash. -/
lemma exists_proposal_hash (hl : ∀ m ∈ l, MessageOfRound e r block m) :
    ∃ h, ∀ m ∈ l, m.type = .PRE_PREPARE → m.blockHash = h := by
  cases hb : block.hash with
  | error err =>
    refine ⟨[], fun m hm ht => ?_⟩
    have hhash := ((hl m hm).proposal ht).hash
    rw [hb] at hhash
    cases hhash
  | ok h =>
    refine ⟨h, fun m hm ht => ?_⟩
    have hhash := ((hl m hm).proposal ht).hash
    exact (Except.ok.inj (hb.symm.trans hhash)).symm

/-- A proposal whose certificate cannot be checked is accepted after the ROUND_CHANGEs that take the
engine to its round, and lost before them. -/
lemma outcome_ne_of_not_certChecks (hjournal : journal.Blank)
    (he : e = .initial validators privateKey height previousHash nowMs journal)
    (hproposer : e.me ≠ e.validators.proposer e.height r) (hr : 0 < r)
    (hl : ∀ m ∈ l, MessageOfRound e r block m) (hchanges : ∀ m ∈ l, m.type = .ROUND_CHANGE)
    (htakes : TakesTo e l) {m : ConsensusMessage} (hm : MessageOfRound e r block m)
    (ht : m.type = .PRE_PREPARE) (hcert : ¬m.CertChecks e) :
    (((l ++ [m]).map Call.handle).foldl Validator.call { engine := e }).outcome ≠
      (((m :: l).map Call.handle).foldl Validator.call { engine := e }).outcome := by
  have hzero : e.round = 0 := by rw [he]; rfl
  have hnone : ∀ m ∈ l, m.type ≠ .PRE_PREPARE := fun m' hm' => by
    rw [hchanges m' hm']
    decide
  -- after the ROUND_CHANGEs, the engine is in the round and accepts
  have hafter : ((l.map Call.handle).foldl Validator.call { engine := e }).Delivered e r
      m.blockHash l :=
    (Validator.Delivered.fresh hjournal he).run hzero hl
      (fun m' hm' ht' => absurd ht' (hnone m' hm'))
      (fun m' hm' ht' => absurd ht' (hnone m' hm')) hproposer
  have hkept : let v := ((l ++ [m]).map Call.handle).foldl Validator.call { engine := e }
      v.engine.round = r ∧ v.engine.phase ≠ .NEW_ROUND := by
    rw [List.map_append, List.foldl_append]
    generalize (l.map Call.handle).foldl Validator.call { engine := e } = v at hafter
    cases hafter with
    | entered _ hv hstill =>
      have hstill' : (v.during (.handle m) ⟨v.engine, {}⟩).Still e m.blockHash l :=
        ⟨hstill.prepares, hstill.commits⟩
      obtain ⟨_, s', hrun, hin, -⟩ :=
        EngineM.handle_returns_of_inRound (hv.start (.handle m)) hstill' hm fun _ => rfl
      have hcall : v.call (.handle m) = v.during (.handle m) s' := by
        rw [Validator.call, show Call.run (.handle m) v.engine = (.ok _, s') from hrun]
      show (v.call (.handle m)).engine.round = r ∧ (v.call (.handle m)).engine.phase ≠ .NEW_ROUND
      rw [hcall]
      exact ⟨hin.round, hin.proposed.mpr (proposed_concat.mpr (Or.inr ht))⟩
    | waiting _ hno => exact absurd htakes hno
    | stale hneg => omega
  -- before them, it raises, and there is no other proposal
  have hlost : let v := ((m :: l).map Call.handle).foldl Validator.call { engine := e }
      v.engine.round = r → v.engine.phase = .NEW_ROUND := by
    have hv : ({ engine := e } : Validator).Waiting e r [] := .fresh hjournal he
    obtain ⟨err, d, hrun⟩ := EngineM.handle_raises (hv.start (.handle m)) hr hm ht hcert
    have hcall : ({ engine := e } : Validator).call (.handle m) =
        ({ engine := e } : Validator).during (.handle m) ⟨{ e with roundChanges := d }, {}⟩ := by
      rw [Validator.call, show Call.run (.handle m) e = (.error err, _) from hrun]
      rfl
    have halike : e.Alike { e with roundChanges := d } := ⟨rfl, rfl, rfl, rfl⟩
    rw [List.map_cons, List.foldl_cons, hcall]
    exact Validator.newRound_run halike hchanges hproposer fun _ => hv.phase
  intro heq
  have hround := congrArg (fun o => o.1) heq
  have hphase := congrArg (fun o => o.2.1) heq
  exact hkept.2 (hphase.trans (hlost (hround.symm.trans hkept.1)))

/-- Delivery order within a round: a fresh engine that does not propose in round `r` ends with the
same round, phase, proposal and decision for any two orders of the same messages of the round,
provided that the certificates of the proposals can be checked. Each proposal whose certificate
cannot be checked, with ROUND_CHANGEs that take the engine to the round, has two orders that end
differently. -/
theorem delivery_order_irrelevant
    (hnew : ConsensusEngine.new validators privateKey height previousHash nowMs journal = .ok e)
    (hjournal : journal.Blank) (hproposer : e.me ≠ e.validators.proposer e.height r)
    (hl : ∀ m ∈ l, MessageOfRound e r block m) :
    ((∀ m ∈ l, m.type = .PRE_PREPARE → 0 < r → m.CertChecks e) →
      ∀ l' : List ConsensusMessage, (∀ m, m ∈ l ↔ m ∈ l') →
        ((l.map Call.handle).foldl Validator.call { engine := e }).outcome =
          ((l'.map Call.handle).foldl Validator.call { engine := e }).outcome) ∧
    ((∀ m ∈ l, m.type = .ROUND_CHANGE) → TakesTo e l → 0 < r →
      ∀ m, MessageOfRound e r block m → m.type = .PRE_PREPARE → ¬m.CertChecks e →
        (((l ++ [m]).map Call.handle).foldl Validator.call { engine := e }).outcome ≠
          (((m :: l).map Call.handle).foldl Validator.call { engine := e }).outcome) := by
  obtain ⟨-, he⟩ := ConsensusEngine.new_eq_ok.mp hnew
  have hzero : e.round = 0 := by rw [he]; rfl
  refine ⟨fun hcert l' hsame => ?_, fun hchanges htakes hr m hm ht hcert =>
    outcome_ne_of_not_certChecks hjournal he hproposer hr hl hchanges htakes hm ht hcert⟩
  obtain ⟨h, hh⟩ := exists_proposal_hash hl
  have hrun : ∀ l₁ : List ConsensusMessage, (∀ m ∈ l₁, m ∈ l) →
      ((l₁.map Call.handle).foldl Validator.call { engine := e }).Delivered e r h l₁ := by
    intro l₁ hl₁
    exact (Validator.Delivered.fresh hjournal he).run hzero (fun m hm => hl m (hl₁ m hm))
      (fun m hm => hh m (hl₁ m hm)) (fun m hm => hcert m (hl₁ m hm)) hproposer
  exact (hrun l fun _ hm => hm).outcome_eq hsame (hrun l' fun m hm => (hsame m).mpr hm)

end Fresh

omit [Crypto] in
/-- One of two validators takes part in round 1 in the order of the protocol and in reverse. -/
theorem delivery_order_irrelevant_of_pair :
    letI := Crypto.checksums
    let block := Block.ofTimestamp 0
    let h := block.hash.toOption.getD []
    ∃ own change proposal prepare commit,
      ConsensusMessage.create .ROUND_CHANGE 1 1 ZERO_HASH (seedKey 0xbb) = .ok own ∧
      ConsensusMessage.create .ROUND_CHANGE 1 1 ZERO_HASH (seedKey 0xaa) = .ok change ∧
      ConsensusMessage.create .PRE_PREPARE 1 1 h (seedKey 0xaa) (some block) none [] [own, change] =
        .ok proposal ∧
      ConsensusMessage.create .PREPARE 1 1 h (seedKey 0xaa) = .ok prepare ∧
      ConsensusMessage.create .COMMIT 1 1 h (seedKey 0xaa) = .ok commit ∧
      let run := fun l => ((l : List ConsensusMessage).map Call.handle).foldl Validator.call
        { engine := .ofSeed .pair 0xbb .null }
      (run [change, proposal, prepare, commit]).engine.phase = .COMMITTED ∧
      (run [change, proposal, prepare, commit]).outcome =
        (run [commit, prepare, proposal, change]).outcome := by
  let := Crypto.checksums
  intro block h
  have hrun : (ConsensusMessage.create .ROUND_CHANGE 1 1 ZERO_HASH (seedKey 0xbb)).map
      (fun own => (ConsensusMessage.create .ROUND_CHANGE 1 1 ZERO_HASH (seedKey 0xaa)).map
      fun change => (ConsensusMessage.create .PRE_PREPARE 1 1 h (seedKey 0xaa) (some block) none []
        [own, change]).map
      fun proposal => (ConsensusMessage.create .PREPARE 1 1 h (seedKey 0xaa)).map
      fun prepare => (ConsensusMessage.create .COMMIT 1 1 h (seedKey 0xaa)).map
      fun commit =>
        let v := ([change, proposal, prepare, commit].map Call.handle).foldl Validator.call
          { engine := .ofSeed .pair 0xbb .null }
        decide (v.engine.phase = .COMMITTED ∧ validCommitSeal commit = .ok true ∧
          verifyRoundChangeCert .pair 1 [own, change] 1 = .ok (true, none))) =
      .ok (.ok (.ok (.ok (.ok true)))) := by
    decide +kernel
  obtain ⟨own, hown, hrun⟩ := exists_of_map_eq_ok hrun
  obtain ⟨change, hchange, hrun⟩ := exists_of_map_eq_ok hrun
  obtain ⟨proposal, hproposal, hrun⟩ := exists_of_map_eq_ok hrun
  obtain ⟨prepare, hprepare, hrun⟩ := exists_of_map_eq_ok hrun
  obtain ⟨commit, hcommit, hrun⟩ := exists_of_map_eq_ok hrun
  obtain ⟨hphase, hseal, hcert⟩ := of_decide_eq_true hrun
  refine ⟨own, change, proposal, prepare, commit, hown, hchange, hproposal, hprepare, hcommit, ?_⟩
  intro run
  refine ⟨hphase, ?_⟩
  have hmem' : (seedKey 0xbb).publicKey ∈ ValidatorSet.pair.validators :=
    List.mem_cons_of_mem _ List.mem_cons_self
  have hnew : ConsensusEngine.new .pair (seedKey 0xbb) 1 ZERO_HASH (fun i => i) .null =
      .ok (.ofSeed .pair 0xbb .null) :=
    ConsensusEngine.new_eq_ok.mpr ⟨hmem', rfl⟩
  have hmem : (seedKey 0xaa).publicKey ∈ ValidatorSet.pair.validators := List.mem_cons_self
  have hne : (seedKey 0xaa).publicKey ≠ (ConsensusEngine.ofSeed .pair 0xbb .null).me := by
    decide +kernel
  have hacceptable : AcceptableProposal (.ofSeed .pair 0xbb .null) 1 block proposal :=
    .of_create hproposal rfl (by decide +kernel) (by decide +kernel) hcert
  have hmessages : ∀ m ∈ [change, proposal, prepare, commit],
      MessageOfRound (.ofSeed .pair 0xbb .null) 1 block m := by
    simp only [List.forall_mem_cons]
    exact ⟨.of_create hchange hmem hne nofun nofun,
      .of_create hproposal hmem hne nofun fun _ => hacceptable,
      .of_create hprepare hmem hne nofun nofun, .of_create hcommit hmem hne (fun _ => hseal) nofun,
      nofun⟩
  refine (delivery_order_irrelevant hnew ⟨fun _ _ => rfl, rfl⟩ (by decide +kernel) hmessages).1 ?_ _
    fun m => ?_
  · have hother : ∀ {m : ConsensusMessage} {type : MessageType}, m.type = type →
        type ≠ .PRE_PREPARE → m.type = .PRE_PREPARE → (0 : ℤ) < 1 →
          m.CertChecks (.ofSeed .pair 0xbb .null) :=
      fun ht hne hpre => absurd (ht.symm.trans hpre) hne
    simp only [List.forall_mem_cons]
    refine ⟨hother (ConsensusMessage.create_eq hchange).1 (by decide), fun _ _ => ?_,
      hother (ConsensusMessage.create_eq hprepare).1 (by decide),
      hother (ConsensusMessage.create_eq hcommit).1 (by decide), nofun⟩
    obtain ⟨-, -, -, -, -, -, -, -, hrcert⟩ := ConsensusMessage.create_eq hproposal
    rw [ConsensusMessage.CertChecks, hrcert]
    simp only [List.forall_mem_cons]
    exact ⟨⟨_, authentic_of_create hown hmem'⟩, ⟨_, authentic_of_create hchange hmem⟩, nofun⟩
  · show m ∈ [change, proposal, prepare, commit] ↔ m ∈ [change, proposal, prepare, commit].reverse
    exact List.mem_reverse.symm

omit [Crypto] in
/-- A proposal for round 1 has a message with a lone surrogate in its certificate. After the
ROUND_CHANGEs of two other validators it is accepted; before them it raises and is lost. -/
theorem proposal_lost_before_round :
    letI := Crypto.checksums
    let block := Block.ofTimestamp 0
    let e := ConsensusEngine.ofSeed .quartet 0xbb .null
    let vote : ConsensusMessage :=
      { type := .PREPARE, height := 1, round := 1, blockHash := [CodePoint.ofNat 0xd800],
        sender := (seedPublic 0xaa).toHex, signature := [] }
    ∃ a c d proposal,
      ConsensusMessage.create .ROUND_CHANGE 1 1 ZERO_HASH (seedKey 0xaa) = .ok a ∧
      ConsensusMessage.create .ROUND_CHANGE 1 1 ZERO_HASH (seedKey 0xcc) = .ok c ∧
      ConsensusMessage.create .ROUND_CHANGE 1 1 ZERO_HASH (seedKey 0xdd) = .ok d ∧
      ConsensusMessage.create .PRE_PREPARE 1 1 (block.hash.toOption.getD []) (seedKey 0xcc)
        (some block) none [] [vote, a, c, d] = .ok proposal ∧
      ConsensusEngine.new .quartet (seedKey 0xbb) 1 ZERO_HASH (fun i => i) .null = .ok e ∧
      VoteJournal.null.Blank ∧ e.me ≠ e.validators.proposer e.height 1 ∧
      (∀ m ∈ [proposal, a, c], MessageOfRound e 1 block m) ∧
      (([proposal, a, c].map Call.handle).foldl Validator.call { engine := e }).outcome ≠
        (([a, c, proposal].map Call.handle).foldl Validator.call { engine := e }).outcome := by
  let := Crypto.checksums
  intro block e vote
  have hrun : (ConsensusMessage.create .ROUND_CHANGE 1 1 ZERO_HASH (seedKey 0xaa)).map
      (fun a => (ConsensusMessage.create .ROUND_CHANGE 1 1 ZERO_HASH (seedKey 0xcc)).map
      fun c => (ConsensusMessage.create .ROUND_CHANGE 1 1 ZERO_HASH (seedKey 0xdd)).map
      fun d => (ConsensusMessage.create .PRE_PREPARE 1 1 (block.hash.toOption.getD [])
        (seedKey 0xcc) (some block) none [] [vote, a, c, d]).map
      fun proposal =>
        let run := fun l => ((l : List ConsensusMessage).map Call.handle).foldl Validator.call
          { engine := e }
        decide ((run [proposal, a, c]).engine.phase = .NEW_ROUND ∧
          (run [a, c, proposal]).engine.phase = .PRE_PREPARED ∧
          verifyRoundChangeCert .quartet 1 [vote, a, c, d] 1 = .ok (true, none))) =
      .ok (.ok (.ok (.ok true))) := by
    decide +kernel
  obtain ⟨a, ha, hrun⟩ := exists_of_map_eq_ok hrun
  obtain ⟨c, hc, hrun⟩ := exists_of_map_eq_ok hrun
  obtain ⟨d, hd, hrun⟩ := exists_of_map_eq_ok hrun
  obtain ⟨proposal, hproposal, hrun⟩ := exists_of_map_eq_ok hrun
  obtain ⟨hlost, hkept, hcert⟩ := of_decide_eq_true hrun
  have hnew : ConsensusEngine.new .quartet (seedKey 0xbb) 1 ZERO_HASH (fun i => i) .null = .ok e :=
    ConsensusEngine.new_eq_ok.mpr ⟨List.mem_cons_of_mem _ List.mem_cons_self, rfl⟩
  have hmem : ∀ n ∈ [0xaa, 0xcc], (seedKey n).publicKey ∈ e.validators.validators ∧
      (seedKey n).publicKey ≠ e.me := by
    decide +kernel
  obtain ⟨hmemA, hneA⟩ := hmem 0xaa List.mem_cons_self
  obtain ⟨hmemC, hneC⟩ := hmem 0xcc (List.mem_cons_of_mem _ List.mem_cons_self)
  have hacceptable : AcceptableProposal e 1 block proposal :=
    .of_create hproposal (by decide +kernel) (by decide +kernel) (by decide +kernel) hcert
  refine ⟨a, c, d, proposal, ha, hc, hd, hproposal, hnew, ⟨fun _ _ => rfl, rfl⟩,
    by decide +kernel, ?_, fun heq => ?_⟩
  · simp only [List.forall_mem_cons]
    exact ⟨.of_create hproposal hmemC hneC nofun fun _ => hacceptable,
      .of_create ha hmemA hneA nofun nofun, .of_create hc hmemC hneC nofun nofun, nofun⟩
  · have hphase := congrArg (fun o => o.2.1) heq
    simp only [Validator.outcome] at hphase
    rw [hlost, hkept] at hphase
    cases hphase

end Helix
