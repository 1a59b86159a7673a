import Helix.Consensus.Moves

/-!
# Calls are sequences of moves

Each method of the engine is followed once, against the moves it makes; `Call.run_moves` puts them
together. The one property of the loop over round changes that the moves need is that it stops after
its first adoption: then no later round has a quorum of ROUND_CHANGEs left, and none that the engine
has yet to join.
-/

namespace Helix

variable [Crypto] {e₀ : ConsensusEngine} {c : Call} {s : Frame}

open Relation (ReflTransGen)
open Eff (Leads)

/-! ### What stays during a call -/

/-- The parts of the engine that no move changes, the round that only grows and the buffer that
only gets what the call offers. -/
structure Since (e₀ : ConsensusEngine) (c : Call) (e : ConsensusEngine) : Prop where
  validators : e.validators = e₀.validators
  privateKey : e.privateKey = e₀.privateKey
  height : e.height = e₀.height
  previousHash : e.previousHash = e₀.previousHash
  round : e₀.round ≤ e.round
  buffer : ∀ m ∈ e.buffer, c.Offers e₀ m

lemma Since.me {e : ConsensusEngine} (h : Since e₀ c e) : e.me = e₀.me := by
  rw [ConsensusEngine.me, h.privateKey, ConsensusEngine.me]

lemma Move.since {s' : Frame} (h : Move e₀ c s s') (hs : Since e₀ c s.engine) :
    Since e₀ c s'.engine := by
  obtain ⟨hv, hk, hh, hp, hr, hb⟩ := hs
  cases h with
  | keep hc hm hvote hround he =>
    refine ⟨hv, hk, hh, hp, hr, fun m hmem => ?_⟩
    rcases List.mem_append.mp hmem with hmem | hmem
    · exact hb m hmem
    · rw [List.mem_singleton.mp hmem]
      exact Or.inl ⟨hc, hm⟩
  | adopt hlt =>
    exact ⟨hv, hk, hh, hp, hr.trans hlt.le, fun m hmem => hb m (List.mem_of_mem_filter hmem)⟩
  | _ => exact ⟨hv, hk, hh, hp, hr, hb⟩

lemma Reached.since (h : Reached e₀ c s) : Since e₀ c s.engine := by
  induction h with
  | refl => exact ⟨rfl, rfl, rfl, rfl, le_rfl, fun m hm => Or.inr hm⟩
  | tail _ hmove ih => exact hmove.since ih

/-! ### Rules for the primitives -/

namespace EngineM

variable {α : Type} {P : α → Frame → Prop} {R : Frame → Frame → Prop}

omit [Crypto] in
lemma self_bind (f : ConsensusEngine → EngineM α) (s : Frame) : (self >>= f) s = f s.engine s := rfl

omit [Crypto] in
lemma update_bind (g : ConsensusEngine → ConsensusEngine) (f : Unit → EngineM α) (s : Frame) :
    (update g >>= f) s = f () (s.mapEngine g) := rfl

omit [Crypto] in
lemma leads_self {f : ConsensusEngine → EngineM α} (h : Leads R (f s.engine) s P) :
    Leads R (self >>= f) s P := h

omit [Crypto] in
lemma leads_update {g : ConsensusEngine → ConsensusEngine} {f : Unit → EngineM α}
    (hR : R s (s.mapEngine g)) (h : Leads R (f ()) (s.mapEngine g) P) :
    Leads R (update g >>= f) s P := Leads.modify_bind hR h

/-! ### Votes -/

/-- The call leaves the round and the round changes alone. -/
structure Steady (e e' : ConsensusEngine) : Prop where
  round : e'.round = e.round
  rcSent : e'.rcSent = e.rcSent
  roundChanges : e'.roundChanges = e.roundChanges

omit [Crypto] in
lemma Steady.refl (e : ConsensusEngine) : Steady e e := ⟨rfl, rfl, rfl⟩

omit [Crypto] in
lemma Steady.trans {e e' e'' : ConsensusEngine} (h : Steady e e') (h' : Steady e' e'') :
    Steady e e'' :=
  ⟨h'.round.trans h.round, h'.rcSent.trans h.rcSent, h'.roundChanges.trans h.roundChanges⟩

/-- Creating a message about a block's hash does not raise. -/
lemma exists_create_of_hash {block : Block} {h : PyStr} (hh : block.hash = .ok h)
    (type : MessageType) (height round : ℤ) (signer : PrivateKey) (b : Option Block)
    (p : Option ℤ) (cert cert' : List ConsensusMessage) :
    ∃ m, ConsensusMessage.create type height round h signer b p cert cert' = .ok m := by
  obtain ⟨d, rfl⟩ := Block.exists_of_hash hh
  exact ConsensusMessage.exists_create type height round signer b p cert cert'
    fun _ => toHex_not_surrogate

omit [Crypto] in
/-- A COMMIT quorum finalizes the proposal, if its seals can be attached. -/
lemma tryFinalize_of_quorum {block sealed : Block} {h : PyStr} (hphase : s.engine.phase = .PREPARED)
    (hblock : s.engine.proposal = some block)
    (hquorum : s.engine.validators.quorum ≤ (s.engine.commits.getD h).len)
    (hseal : attachSeals (s.engine.commits.getD h) block = .ok sealed) :
    tryFinalize h s = (.ok (), s.finalize sealed) := by
  rw [tryFinalize, self_bind, if_pos ⟨hphase, hquorum⟩]
  simp only [update, finalize, self, bind, Eff.modify, Eff.get, pure, hblock, Eff.lift, hseal,
    Frame.finalize]

lemma tryFinalize_leads {block : Block} {h : PyStr} (hblock : s.engine.proposal = some block)
    (hh : block.hash = .ok h)
    (hclose : s.engine.phase = .PREPARED → c.Opens e₀ s.engine.round ∨ c.Closes e₀ s.engine.round) :
    Leads (Move e₀ c) (tryFinalize h) s fun _ s' => Steady s.engine s'.engine := by
  by_cases hcond : s.engine.phase = .PREPARED ∧
      s.engine.validators.quorum ≤ (s.engine.commits.getD h).len
  · obtain ⟨hphase, hquorum⟩ := hcond
    cases hseal : attachSeals (s.engine.commits.getD h) block with
    | error err =>
      refine Leads.of_error err (s.mapEngine fun e => { e with phase := .COMMITTED }) ?_
        (.single (.finalizeRaises hphase hblock hh hseal))
      rw [tryFinalize, self_bind, if_pos ⟨hphase, hquorum⟩]
      simp only [update, finalize, self, bind, Eff.modify, Eff.get, pure, hblock, Eff.lift, hseal,
        Frame.mapEngine]
    | ok sealed =>
      exact Leads.of_eq () (s.finalize sealed) (tryFinalize_of_quorum hphase hblock hquorum hseal)
        (.single (.finalize (hclose hphase) hphase hblock hh hquorum hseal)) ⟨rfl, rfl, rfl⟩
  · rw [tryFinalize]
    refine leads_self ?_
    rw [if_neg hcond]
    exact Leads.pure (Steady.refl _)

/-- The journal holds another COMMIT for the round. -/
lemma tryPrepare_of_prior {block : Block} {h h' : PyStr} (hphase : s.engine.phase = .PRE_PREPARED)
    (hquorum : s.engine.validators.quorum ≤ (s.engine.prepares.getD h).len)
    (hprior : s.engine.journal.votedHash s.engine.round .COMMIT = some h') (hne : h' ≠ h) :
    tryPrepare block h s = (.ok false, s) := by
  have hif : (s.engine.journal.votedHash s.engine.round .COMMIT).isSome ∧
      s.engine.journal.votedHash s.engine.round .COMMIT ≠ some h := by simp [hprior, hne]
  rw [tryPrepare, self_bind, if_pos ⟨hphase, hquorum⟩]
  simp only [hif, and_self, ne_eq, not_false_eq_true, if_true]
  rfl

/-- A PREPARE quorum locks the proposal. -/
lemma tryPrepare_of_free {block : Block} {h : PyStr} {m : ConsensusMessage}
    (hphase : s.engine.phase = .PRE_PREPARED)
    (hquorum : s.engine.validators.quorum ≤ (s.engine.prepares.getD h).len)
    (hprior : ∀ h' ∈ s.engine.journal.votedHash s.engine.round .COMMIT, h' = h)
    (hm : ConsensusMessage.create .COMMIT s.engine.height s.engine.round h s.engine.privateKey =
      .ok m) : tryPrepare block h s = (.ok true, s.prepare block h m) := by
  have hif : ¬((s.engine.journal.votedHash s.engine.round .COMMIT).isSome ∧
      s.engine.journal.votedHash s.engine.round .COMMIT ≠ some h) := by
    rintro ⟨hsome, hne⟩
    obtain ⟨h', hh'⟩ := Option.isSome_iff_exists.mp hsome
    exact hne (hprior h' hh' ▸ hh')
  rw [tryPrepare, self_bind, if_pos ⟨hphase, hquorum⟩]
  simp only [hif, if_false]
  simp only [update, bind, Eff.modify, pure, Eff.lift, hm, broadcast, Frame.prepare, Frame.mapEngine,
    Frame.send, ConsensusEngine.me]

lemma tryPrepare_leads {block : Block} {h : PyStr} (hblock : s.engine.proposal = some block)
    (hh : block.hash = .ok h)
    (hopen : s.engine.phase = .PRE_PREPARED → c.Opens e₀ s.engine.round) :
    Leads (Move e₀ c) (tryPrepare block h) s fun _ s' =>
      Steady s.engine s'.engine ∧ s'.engine.proposal = some block ∧
      (s' = s ∨ s.engine.phase = .PRE_PREPARED) := by
  by_cases hcond : s.engine.phase = .PRE_PREPARED ∧
      s.engine.validators.quorum ≤ (s.engine.prepares.getD h).len
  · obtain ⟨hphase, hquorum⟩ := hcond
    by_cases hprior : ∀ h' ∈ s.engine.journal.votedHash s.engine.round .COMMIT, h' = h
    · obtain ⟨m, hm⟩ := exists_create_of_hash hh .COMMIT s.engine.height s.engine.round
        s.engine.privateKey none none [] []
      exact Leads.of_eq true (s.prepare block h m) (tryPrepare_of_free hphase hquorum hprior hm)
        (.single (.prepare (hopen hphase) hphase hblock hh hquorum hprior hm))
        ⟨⟨rfl, rfl, rfl⟩, hblock, Or.inr hphase⟩
    · push Not at hprior
      obtain ⟨h', hh', hne⟩ := hprior
      exact Leads.of_eq false s (tryPrepare_of_prior hphase hquorum hh' hne) .refl
        ⟨Steady.refl _, hblock, Or.inl rfl⟩
  · rw [tryPrepare]
    refine leads_self ?_
    rw [if_neg hcond]
    exact Leads.pure ⟨Steady.refl _, hblock, Or.inl rfl⟩

lemma maybeAdvance_leads
    (hopen : s.engine.phase = .PRE_PREPARED → c.Opens e₀ s.engine.round)
    (hclose : s.engine.phase = .PREPARED → c.Opens e₀ s.engine.round ∨ c.Closes e₀ s.engine.round) :
    Leads (Move e₀ c) maybeAdvance s fun _ s' => Steady s.engine s'.engine := by
  unfold maybeAdvance
  refine leads_self ?_
  cases hblock : s.engine.proposal with
  | none => exact Leads.pure (Steady.refl _)
  | some block =>
    refine Leads.lift_bind fun h hh => ?_
    refine Leads.bind (tryPrepare_leads hblock hh hopen) ?_
    rintro ok s' - ⟨hsteady, hblock', hwas⟩
    refine Leads.ite (fun _ => ?_) fun _ => Leads.pure hsteady
    refine (tryFinalize_leads hblock' hh fun hphase => ?_).mono fun _ _ h => hsteady.trans h
    rw [hsteady.round]
    rcases hwas with rfl | hwas
    · exact hclose hphase
    · exact Or.inl (hopen hwas)

/-- Without a proposal there is nothing to advance. -/
lemma maybeAdvance_of_none (h : s.engine.proposal = none) : maybeAdvance s = (.ok (), s) := by
  simp only [maybeAdvance, self, bind, Eff.get, pure, h]

/-- What a handler does after it counted a vote. -/
lemma maybeAdvance_leads_of_tally {t : Frame} (hsteady : Steady s.engine t.engine)
    (hproposal : t.engine.proposal = s.engine.proposal) (hphase : t.engine.phase = s.engine.phase)
    (hresult : t.result = s.result)
    (hopen : s.engine.phase = .PRE_PREPARED → c.Opens e₀ s.engine.round)
    (hclose : s.engine.phase = .PREPARED → c.Opens e₀ s.engine.round ∨ c.Closes e₀ s.engine.round) :
    Leads (Move e₀ c) maybeAdvance t fun _ s' =>
      Steady s.engine s'.engine ∧ (s.engine.proposal = none → s'.engine.proposal = none ∧
        s'.engine.phase = s.engine.phase ∧ s'.result = s.result) := by
  by_cases hnone : s.engine.proposal = none
  · exact Leads.of_eq _ _ (maybeAdvance_of_none (hproposal.trans hnone)) .refl
      ⟨hsteady, fun _ => ⟨hproposal.trans hnone, hphase, hresult⟩⟩
  · rw [← hsteady.round, ← hphase] at hopen hclose
    exact (maybeAdvance_leads hopen hclose).mono fun _ _ h =>
      ⟨hsteady.trans h, fun h => absurd h hnone⟩

lemma handlePrepare_leads {m : ConsensusMessage} (hm : c.Offers e₀ m) (ht : m.type = .PREPARE)
    (hr : m.round = s.engine.round)
    (hopen : s.engine.phase = .PRE_PREPARED → c.Opens e₀ s.engine.round)
    (hclose : s.engine.phase = .PREPARED → c.Opens e₀ s.engine.round ∨ c.Closes e₀ s.engine.round) :
    Leads (Move e₀ c) (handlePrepare m) s fun _ s' =>
      Steady s.engine s'.engine ∧ (s.engine.proposal = none → s'.engine.proposal = none ∧
        s'.engine.phase = s.engine.phase ∧ s'.result = s.result) :=
  leads_update (.tallyPrepare hm ht hr)
    (maybeAdvance_leads_of_tally ⟨rfl, rfl, rfl⟩ rfl rfl rfl hopen hclose)

lemma handleCommit_leads {m : ConsensusMessage} (hm : c.Offers e₀ m) (ht : m.type = .COMMIT)
    (hr : m.round = s.engine.round)
    (hopen : s.engine.phase = .PRE_PREPARED → c.Opens e₀ s.engine.round)
    (hclose : s.engine.phase = .PREPARED → c.Opens e₀ s.engine.round ∨ c.Closes e₀ s.engine.round) :
    Leads (Move e₀ c) (handleCommit m) s fun _ s' =>
      Steady s.engine s'.engine ∧ (s.engine.proposal = none → s'.engine.proposal = none ∧
        s'.engine.phase = s.engine.phase ∧ s'.result = s.result) := by
  unfold handleCommit
  refine Leads.lift_bind fun ok hok => Leads.ite (fun hseal => ?_) fun _ =>
    Leads.pure ⟨Steady.refl _, fun h => ⟨h, rfl, rfl⟩⟩
  rw [hseal] at hok
  exact leads_update (.tallyCommit hm ht hr hok)
    (maybeAdvance_leads_of_tally ⟨rfl, rfl, rfl⟩ rfl rfl rfl hopen hclose)

/-! ### Proposals -/

/-- The journal holds another PREPARE for the round. -/
lemma acceptProposal_of_prior {block : Block} {h h' : PyStr} (hh : block.hash = .ok h)
    (hprior : s.engine.journal.votedHash s.engine.round .PREPARE = some h') (hne : h' ≠ h) :
    acceptProposal block s = (.ok (), s) := by
  have hif : (s.engine.journal.votedHash s.engine.round .PREPARE).isSome ∧
      s.engine.journal.votedHash s.engine.round .PREPARE ≠ some h := by simp [hprior, hne]
  rw [acceptProposal, self_bind, Eff.lift_bind_ok hh, if_pos hif]
  rfl

lemma emitPrePrepare_eq {block : Block} {h : PyStr} {cert : List ConsensusMessage}
    {m : ConsensusMessage} (hh : block.hash = .ok h)
    (hm : ConsensusMessage.create .PRE_PREPARE s.engine.height s.engine.round h s.engine.privateKey
      (some block) none [] cert = .ok m) :
    emitPrePrepare block cert s = acceptProposal block (s.send [m]) := by
  rw [emitPrePrepare, self_bind, Eff.lift_bind_ok hh, Eff.lift_bind_ok hm]
  rfl

lemma emitPrePrepare_of_error {block : Block} {cert : List ConsensusMessage} {err : PyError}
    (hh : block.hash = .error err) : emitPrePrepare block cert s = (.error err, s) := by
  rw [emitPrePrepare, self_bind, hh]
  rfl

lemma acceptProposal_of_free {block : Block} {h : PyStr} {m : ConsensusMessage}
    (hh : block.hash = .ok h)
    (hprior : ∀ h' ∈ s.engine.journal.votedHash s.engine.round .PREPARE, h' = h)
    (hm : ConsensusMessage.create .PREPARE s.engine.height s.engine.round h
      s.engine.privateKey = .ok m) :
    acceptProposal block s = maybeAdvance (s.accept block h m) := by
  have hif : ¬((s.engine.journal.votedHash s.engine.round .PREPARE).isSome ∧
      s.engine.journal.votedHash s.engine.round .PREPARE ≠ some h) := by
    rintro ⟨hsome, hne⟩
    obtain ⟨h', hh'⟩ := Option.isSome_iff_exists.mp hsome
    exact hne (hprior h' hh' ▸ hh')
  rw [acceptProposal, self_bind, Eff.lift_bind_ok hh, if_neg hif, update_bind, update_bind,
    Eff.lift_bind_ok hm]
  rfl

/-- A proposal is accepted or refused, together with the PRE_PREPARE that goes out with it. -/
lemma acceptProposal_leads {block : Block} {h : PyStr} {pre : List ConsensusMessage}
    (horigin : c.Origin e₀ s.engine block pre) (hphase : s.engine.phase = .NEW_ROUND)
    (hh : block.hash = .ok h) (hopen : c.Opens e₀ s.engine.round) :
    Leads (Move e₀ c) (fun s => acceptProposal block (s.send pre)) s fun _ s' =>
      Steady s.engine s'.engine := by
  by_cases hprior : ∀ h' ∈ s.engine.journal.votedHash s.engine.round .PREPARE, h' = h
  · obtain ⟨m, hm⟩ := exists_create_of_hash hh .PREPARE s.engine.height s.engine.round
      s.engine.privateKey none none [] []
    have hopen' : c.Opens e₀ ((s.send pre).accept block h m).engine.round := hopen
    obtain ⟨hpath, hpost⟩ := maybeAdvance_leads (s := (s.send pre).accept block h m)
      (fun _ => hopen') (fun hp => by cases hp)
    rw [← acceptProposal_of_free (s := s.send pre) hh hprior hm] at hpath hpost
    have hsteady : Steady s.engine ((s.send pre).accept block h m).engine := ⟨rfl, rfl, rfl⟩
    exact ⟨.head (.accept horigin hphase hh hprior hm) hpath, fun a ha =>
      hsteady.trans (hpost a ha)⟩
  · push Not at hprior
    obtain ⟨h', hh', hne⟩ := hprior
    exact Leads.of_eq _ _ (acceptProposal_of_prior (s := s.send pre) hh hh' hne)
      (.single (.refuse horigin hphase hh hh' hne)) ⟨rfl, rfl, rfl⟩

lemma emitPrePrepare_leads {block : Block} {cert : List ConsensusMessage}
    (hp : c.Proposes e₀ s.engine block cert) (hphase : s.engine.phase = .NEW_ROUND)
    (hopen : c.Opens e₀ s.engine.round) :
    Leads (Move e₀ c) (emitPrePrepare block cert) s fun _ s' => Steady s.engine s'.engine := by
  unfold emitPrePrepare
  refine leads_self (Leads.lift_bind fun h hh => Leads.lift_bind fun m hm => ?_)
  exact acceptProposal_leads (.own hp hh hm) hphase hh hopen

lemma buildBlock_leads (hs : Reached e₀ c s) (records : List IntegrityRecord) :
    Leads (Move e₀ c) (buildBlock records) s fun block s' =>
      s' = s.mapEngine (fun e => { e with nowMs := fun i => e.nowMs (i + 1) }) ∧
      Block.create e₀.height e₀.previousHash (s.engine.nowMs 0) e₀.me.toHex records
        s.engine.pendingChanges = .ok block := by
  have hsince := hs.since
  have hrun : buildBlock records s =
      (Block.create s.engine.height s.engine.previousHash (s.engine.nowMs 0) s.engine.me.toHex
        records s.engine.pendingChanges,
        s.mapEngine fun e => { e with nowMs := fun i => e.nowMs (i + 1) }) := rfl
  refine ⟨?_, fun block hblock => ?_⟩
  · rw [hrun]
    exact .single .clock
  · rw [hrun] at hblock ⊢
    rw [← hsince.height, ← hsince.previousHash, ← hsince.me]
    exact ⟨rfl, hblock⟩

lemma setPending_leads {records : List IntegrityRecord} {changes : List ValidatorChange}
    (hc : c = .setPending records changes) :
    Leads (Move e₀ c) (setPending records changes) ⟨e₀, {}⟩ fun _ _ => True := by
  unfold setPending maybeProposeRound0
  refine leads_update (.pending hc) (leads_self (Leads.ite (fun hcond => ?_) fun _ =>
    Leads.pure trivial))
  obtain ⟨hround, hphase, hproposer, hne⟩ := hcond
  refine Leads.bind (buildBlock_leads (.single (.pending hc)) records) ?_
  rintro block s' - ⟨rfl, hblock⟩
  refine Leads.mono (emitPrePrepare_leads ?_ ?_ ?_) fun _ _ _ => trivial
  · exact .fresh hc hround rfl hphase (decide_eq_true_iff.mp hproposer) hne hblock
  · exact hphase
  · exact .propose records changes hc rfl hphase

/-! ### Round changes -/

/-- A ROUND_CHANGE that was not sent yet is sent. -/
lemma sendRoundChange_eq {target : ℤ} {m : ConsensusMessage} (ht : target ∉ s.engine.rcSent)
    (hm : s.engine.roundChange target = .ok m) : sendRoundChange target s = (.ok (), s.leave target m) := by
  rw [sendRoundChange, self_bind, if_neg ht]
  exact Eff.lift_bind_ok hm _ s

lemma sendRoundChange_of_sent {target : ℤ} (ht : target ∈ s.engine.rcSent) :
    sendRoundChange target s = (.ok (), s) := by
  rw [sendRoundChange, self_bind, if_pos ht]
  rfl

lemma sendRoundChange_leads {target : ℤ} (hc : c.Changing e₀) (ht : target ∉ s.engine.rcSent)
    (hr : s.engine.round < target)
    (hwhy : (c = .onTimeout ∧ target = e₀.nextTarget) ∨
      e₀.validators.maxFaulty + 1 ≤ (s.engine.roundChanges.getD target).len) :
    Leads (Move e₀ c) (sendRoundChange target) s fun _ s' => ∃ m, s' = s.leave target m := by
  unfold sendRoundChange
  refine leads_self ?_
  rw [if_neg ht]
  refine Leads.lift_bind fun m hm => ?_
  exact Leads.of_eq () (s.leave target m) rfl (.single (.leave hc ht hr hwhy hm))
    ⟨m, rfl⟩

/-- The engine has joined the round change to `t`, or need not. -/
def Joined (e : ConsensusEngine) (t : ℤ) : Prop :=
  t ∈ e.rcSent ∨ (e.roundChanges.getD t).len ≤ e.validators.maxFaulty

omit [Crypto] in
lemma Joined.leave {t : ℤ} (h : Joined s.engine t) (target : ℤ) (m : ConsensusMessage) [Crypto] :
    Joined (s.leave target m).engine t := by
  rcases h with h | h
  · exact Or.inl (List.mem_cons_of_mem _ h)
  · by_cases heq : t = target
    · exact Or.inl (heq ▸ List.mem_cons_self)
    · refine Or.inr ?_
      simpa [Frame.leave, Frame.mapEngine, Frame.send, Dict.getD_setIn, heq] using h

lemma accelerate_leads (hc : c.Changing e₀) {targets : List ℤ} (hs : Reached e₀ c s) :
    Leads (Move e₀ c) (accelerate targets) s fun _ s' =>
      s'.engine.round = s.engine.round ∧ s'.result.committed = s.result.committed ∧
      (∀ t, Joined s.engine t → Joined s'.engine t) ∧
      ∀ t ∈ targets, s.engine.round < t → Joined s'.engine t := by
  induction targets generalizing s with
  | nil => exact Leads.pure ⟨rfl, rfl, fun _ h => h, fun t ht => by cases ht⟩
  | cons target targets ih =>
    unfold accelerate
    refine leads_self (Leads.ite (fun hcond => ?_) fun hcond => ?_)
    · obtain ⟨hr, ht, hlen⟩ := hcond
      rw [hs.since.validators] at hlen
      refine Leads.bind (sendRoundChange_leads hc ht hr (Or.inr hlen)) ?_
      rintro _ _ hpath ⟨m, rfl⟩
      refine Leads.bind (ih (hs.trans hpath)) ?_
      rintro _ s' - ⟨hround, hcommitted, hkeep, hall⟩
      refine Leads.pure ⟨hround, hcommitted, fun t h => hkeep t (h.leave target m), ?_⟩
      intro t hmem hlt
      rcases List.mem_cons.mp hmem with rfl | hmem
      · exact hkeep t (Or.inl List.mem_cons_self)
      · exact hall t hmem hlt
    · refine (ih hs).mono ?_
      rintro _ s' ⟨hround, hcommitted, hkeep, hall⟩
      refine ⟨hround, hcommitted, hkeep, fun t hmem hlt => ?_⟩
      rcases List.mem_cons.mp hmem with rfl | hmem
      · refine hkeep t ?_
        by_contra hno
        simp only [Joined, not_or, not_le] at hno
        exact hcond ⟨hlt, hno.1, hno.2⟩
      · exact hall t hmem hlt

/-- A round was started and the votes kept for it were replayed. -/
structure Started (target : ℤ) (s s' : Frame) : Prop where
  round : s'.engine.round = target
  phase : s'.engine.phase = .NEW_ROUND
  proposal : s'.engine.proposal = none
  rcSent : s'.engine.rcSent = s.engine.rcSent
  roundChanges : s'.engine.roundChanges = s.engine.roundChanges
  result : s'.result = s.result

omit [Crypto] in
lemma Started.keep {target : ℤ} {s' t : Frame} (h : Started target s s')
    (ht : Steady s'.engine t.engine ∧ (s'.engine.proposal = none → t.engine.proposal = none ∧
      t.engine.phase = s'.engine.phase ∧ t.result = s'.result)) : Started target s t := by
  obtain ⟨hsteady, hkeep⟩ := ht
  obtain ⟨hproposal, hphase, hresult⟩ := hkeep h.proposal
  exact ⟨hsteady.round.trans h.round, hphase.trans h.phase, hproposal,
    hsteady.rcSent.trans h.rcSent, hsteady.roundChanges.trans h.roundChanges,
    hresult.trans h.result⟩

lemma adoptRound_leads {target : ℤ} (hs : Reached e₀ c s) (hr : s.engine.round < target)
    (hnone : s.result.committed = none)
    (hwhy : (c.Changing e₀ ∧ e₀.validators.quorum ≤ (s.engine.roundChanges.getD target).len) ∨
      ∃ m, c.Enters e₀ m ∧ m.round = target) :
    Leads (Move e₀ c) (adoptRound target) s fun _ s' => Started target s s' := by
  unfold adoptRound
  refine leads_self ?_
  rw [if_neg (not_le.mpr hr)]
  refine leads_update (.adopt hr hnone hwhy) ?_
  refine Leads.forM (I := Started target s) ⟨rfl, rfl, rfl, rfl, rfl, rfl⟩ ?_
  intro m hm s' _ hI
  obtain ⟨hmem, hmr⟩ := List.mem_filter.mp hm
  have hoffer := hs.since.buffer m hmem
  have hmr' : m.round = s'.engine.round := (decide_eq_true_iff.mp hmr).trans hI.round.symm
  -- the round has no proposal yet, so a replayed vote is only counted
  have hno : ∀ {p : Phase} {q : Prop}, p ≠ .NEW_ROUND → s'.engine.phase = p → q := by
    rintro p q hp rfl
    exact absurd hI.phase hp
  unfold replayVote
  split
  · rename_i ht
    exact (handlePrepare_leads hoffer ht hmr' (hno (by decide)) (hno (by decide))).mono
      fun _ _ h => hI.keep h
  · rename_i ht
    exact (handleCommit_leads hoffer ht hmr' (hno (by decide)) (hno (by decide))).mono
      fun _ _ h => hI.keep h
  · exact Leads.pure hI

lemma proposeForRoundChange_leads {target : ℤ} (hs : Reached e₀ c s) (hc : c.Changing e₀)
    (hround : s.engine.round = target) (hr : e₀.round < target)
    (hquorum : e₀.validators.quorum ≤ (s.engine.roundChanges.getD target).len) :
    Leads (Move e₀ c) (proposeForRoundChange target) s fun _ s' => Steady s.engine s'.engine := by
  have hsince := hs.since
  subst hround
  unfold proposeForRoundChange
  refine leads_self (Leads.ite (fun _ => Leads.pure (Steady.refl _)) fun hphase => ?_)
  refine Leads.ite (fun _ => Leads.pure (Steady.refl _)) fun hproposer => ?_
  have hphase : s.engine.phase = .NEW_ROUND := by simpa using hphase
  have hme : e₀.me = e₀.validators.proposer e₀.height s.engine.round := by
    have hme := decide_eq_true_iff.mp (not_not.mp hproposer)
    rwa [hsince.me, hsince.validators, hsince.height] at hme
  have hopen : c.Opens e₀ s.engine.round := .change hc hr hme
  refine Leads.lift_bind fun verdict hverdict => ?_
  rw [hsince.validators, hsince.height] at hverdict
  cases hjust : verdict.2 with
  | some justified =>
    refine Leads.lift_bind fun block hblock => ?_
    cases block with
    | none => exact Leads.pure (Steady.refl _)
    | some block =>
      exact emitPrePrepare_leads
        (.change hc hr hme hquorum hverdict (Or.inl ⟨justified, hjust, hblock⟩)) hphase hopen
  | none =>
    refine Leads.bind (Leads.bind (buildBlock_leads hs s.engine.pending)
      (P := fun block s' => ∃ b, block = some b ∧
        s' = s.mapEngine (fun e => { e with nowMs := fun i => e.nowMs (i + 1) }) ∧
        Block.create e₀.height e₀.previousHash (s.engine.nowMs 0) e₀.me.toHex s.engine.pending
          s.engine.pendingChanges = .ok b)
      fun b s' _ h => Leads.pure ⟨b, rfl, h⟩) ?_
    rintro _ _ - ⟨block, rfl, rfl, hblock⟩
    refine Leads.mono (emitPrePrepare_leads ?_ ?_ ?_) fun _ _ h => ?_
    · exact .change hc hr hme hquorum hverdict (Or.inr ⟨hjust, _, hblock⟩)
    · exact hphase
    · exact hopen
    · exact ⟨h.1, h.2, h.3⟩

/-- No later round is to be joined or adopted. -/
def Settled (e : ConsensusEngine) : Prop :=
  ∀ t, e.round < t → Joined e t ∧ (e.roundChanges.getD t).len < e.validators.quorum

lemma accelerate_of_joined {targets : List ℤ} (h : ∀ t, s.engine.round < t → Joined s.engine t) :
    accelerate targets s = (.ok false, s) := by
  induction targets with
  | nil => rfl
  | cons target targets ih =>
    have hno : ¬(s.engine.round < target ∧ target ∉ s.engine.rcSent ∧
        s.engine.validators.maxFaulty + 1 ≤ (s.engine.roundChanges.getD target).len) := by
      rintro ⟨hr, ht, hlen⟩
      rcases h target hr with hj | hj
      · exact ht hj
      · omega
    rw [accelerate, self_bind, if_neg hno]
    exact ih

omit [Crypto] in
lemma mem_keys_of_quorum {e : ConsensusEngine} {t : ℤ}
    (h : e.validators.quorum ≤ (e.roundChanges.getD t).len) : t ∈ e.roundChanges.keys := by
  have hpos := e.validators.quorum_pos
  by_contra hno
  have hnone := Dict.get?_eq_none.mpr hno
  rw [Dict.getD, hnone, Option.getD_none, Dict.len_empty] at h
  omega

omit [Crypto] in
lemma bestRound_eq_some {e : ConsensusEngine} {best : ℤ} (h : e.bestRound = some best) :
    e.round < best ∧ e.validators.quorum ≤ (e.roundChanges.getD best).len ∧
      ∀ t, e.round < t → e.validators.quorum ≤ (e.roundChanges.getD t).len → t ≤ best := by
  obtain ⟨hmem, hmax⟩ := List.max?_eq_some_iff.mp h
  obtain ⟨-, hbest⟩ := List.mem_filter.mp hmem
  obtain ⟨hr, hq⟩ := decide_eq_true_iff.mp hbest
  refine ⟨hr, hq, fun t ht hqt => hmax t ?_⟩
  exact List.mem_filter.mpr ⟨mem_keys_of_quorum hqt, decide_eq_true_iff.mpr ⟨ht, hqt⟩⟩

omit [Crypto] in
lemma bestRound_of_settled {e : ConsensusEngine} (h : Settled e) : e.bestRound = none := by
  cases hb : e.bestRound with
  | none => rfl
  | some best =>
    obtain ⟨hr, hq, -⟩ := bestRound_eq_some hb
    have := (h best hr).2
    omega

/-- A settled engine has nothing to do about round changes. -/
lemma roundChangeLoop_of_settled (h : Settled s.engine) (n : ℕ) :
    roundChangeLoop n s = (.ok (), s) := by
  cases n with
  | zero => rfl
  | succ n =>
    rw [roundChangeLoop, self_bind,
      Eff.bind_apply_ok (accelerate_of_joined fun t ht => (h t ht).1), self_bind,
      bestRound_of_settled h]
    rfl

omit [Crypto] in
/-- Every later round with entries is among the sorted keys. -/
lemma joined_of_sorted {e e' : ConsensusEngine} (hkeep : ∀ t, Joined e t → Joined e' t)
    (hall : ∀ t ∈ e.roundChanges.keys.insertionSort (· ≤ ·), e.round < t → Joined e' t) (t : ℤ)
    (ht : e.round < t) : Joined e' t := by
  by_cases hkey : t ∈ e.roundChanges.keys
  · exact hall t ((List.perm_insertionSort _ _).mem_iff.mpr hkey) ht
  · refine hkeep t (Or.inr ?_)
    rw [Dict.getD, Dict.get?_eq_none.mpr hkey, Option.getD_none, Dict.len_empty]
    exact Nat.zero_le _

lemma roundChangeLoop_leads (hc : c.Changing e₀) (n : ℕ) (hs : Reached e₀ c s)
    (hfresh : s.result.committed = none) :
    Leads (Move e₀ c) (roundChangeLoop n) s fun _ _ => True := by
  induction n generalizing s with
  | zero => exact Leads.pure trivial
  | succ n ih =>
    unfold roundChangeLoop
    refine leads_self (Leads.bind (accelerate_leads hc hs) ?_)
    rintro sent s₁ hpath₁ ⟨hround₁, hcommitted₁, hkeep, hall⟩
    have hs₁ : Reached e₀ c s₁ := hs.trans hpath₁
    have hnone₁ : s₁.result.committed = none := hcommitted₁.trans hfresh
    have hjoined := joined_of_sorted hkeep hall
    refine leads_self ?_
    cases hbest : s₁.engine.bestRound with
    | none => exact Leads.ite (fun _ => ih hs₁ hnone₁) fun _ => Leads.pure trivial
    | some best =>
      obtain ⟨hr, hq, hmax⟩ := bestRound_eq_some hbest
      have hq' : e₀.validators.quorum ≤ (s₁.engine.roundChanges.getD best).len := by
        rwa [hs₁.since.validators] at hq
      refine Leads.bind (adoptRound_leads hs₁ hr hnone₁ (Or.inl ⟨hc, hq'⟩)) ?_
      intro _ s₂ hpath₂ hstart
      have hs₂ : Reached e₀ c s₂ := hs₁.trans hpath₂
      refine Leads.bind (proposeForRoundChange_leads hs₂ hc hstart.round
        (lt_of_le_of_lt hs₁.since.round hr) (by rwa [hstart.roundChanges])) ?_
      intro _ s₃ hpath₃ hsteady
      have hs₃ : Reached e₀ c s₃ := hs₂.trans hpath₃
      have hvals : s₃.engine.validators = s₁.engine.validators :=
        hs₃.since.validators.trans hs₁.since.validators.symm
      -- `best` was the highest round with a quorum, and all later ones have been joined
      have hsettled : Settled s₃.engine := by
        intro t ht
        rw [hsteady.round, hstart.round] at ht
        have hlt : s₁.engine.round < t := hr.trans ht
        rw [Joined, hvals, hsteady.rcSent, hsteady.roundChanges, hstart.rcSent,
          hstart.roundChanges]
        refine ⟨hjoined t (hround₁ ▸ hlt), ?_⟩
        by_contra hno
        exact absurd (hmax t hlt (not_lt.mp hno)) (not_le.mpr ht)
      exact Leads.of_eq _ _ (roundChangeLoop_of_settled hsettled n) .refl trivial

lemma handleRoundChange_leads {m : ConsensusMessage} (hm : c.Handles e₀ .ROUND_CHANGE m) :
    Leads (Move e₀ c) (handleRoundChange m) ⟨e₀, {}⟩ fun _ _ => True := by
  unfold handleRoundChange
  refine leads_self (Leads.ite (fun _ => Leads.pure trivial) fun hr => ?_)
  have hr : e₀.round < m.round := not_le.mp hr
  refine Leads.lift_bind fun ok hok => Leads.ite (fun hvalid => ?_) fun _ => Leads.pure trivial
  rw [hvalid] at hok
  have hmove := Move.store (s := ⟨e₀, {}⟩) (Or.inl ⟨hm, hr⟩) hm.accepted.authentic hok
  exact leads_update hmove (leads_self
    (roundChangeLoop_leads (Or.inr ⟨m, hm, hr⟩) _ (.single hmove) rfl))

/-! ### Pre-prepares -/

lemma ingest_leads {m : ConsensusMessage} (hm : c.Enters e₀ m) :
    Leads (Move e₀ c) (m.roundChangeCert.forM ingestRoundChange) ⟨e₀, {}⟩ fun _ s =>
      s.engine.round = e₀.round ∧ s.result.committed = none := by
  refine Leads.forM (I := fun s : Frame => s.engine.round = e₀.round ∧ s.result.committed = none)
    ⟨rfl, rfl⟩ ?_
  intro p hp s hs hI
  have hsince := Reached.since (c := c) hs
  unfold ingestRoundChange
  refine leads_self (Leads.lift_bind fun auth hauth => Leads.ite (fun hok => ?_) fun _ =>
    Leads.pure hI)
  refine Leads.lift_bind fun valid hvalid => Leads.ite (fun hok' => ?_) fun _ => Leads.pure hI
  rw [hok, hsince.validators] at hauth
  rw [hok', hsince.validators, hsince.height] at hvalid
  exact Leads.modify (.store (Or.inr ⟨m, hm, hp⟩) hauth hvalid) hI

lemma enterRound_leads {m : ConsensusMessage} (hm : c.Handles e₀ .PRE_PREPARE m) :
    Leads (Move e₀ c) (enterRound m) ⟨e₀, {}⟩ fun ok s => ok = true → m.round = s.engine.round →
      s.engine.phase = .NEW_ROUND →
      e₀.round < s.engine.round ∨ e₀.round = s.engine.round ∧ e₀.phase = .NEW_ROUND := by
  unfold enterRound
  refine leads_self (Leads.ite (fun hr => ?_) fun hr => ?_)
  · refine Leads.lift_bind fun verdict hverdict => ?_
    refine Leads.ite (fun _ => Leads.pure fun h => by cases h) fun hok => ?_
    have henters : c.Enters e₀ m := ⟨hm, hr, verdict.2, by
      rw [hverdict, ← not_not.mp hok]⟩
    refine Leads.bind (ingest_leads henters) fun _ s hs hI => ?_
    refine Leads.bind (adoptRound_leads hs (hI.1.symm ▸ hr) hI.2 (Or.inr ⟨m, henters, rfl⟩)) ?_
    intro _ s' _ hstart
    exact Leads.pure fun _ _ _ => Or.inl (hstart.round.symm ▸ hr)
  · exact Leads.pure fun _ _ hphase => Or.inr ⟨rfl, hphase⟩

/-- `_proposal_justified` changes nothing. -/
lemma proposalJustified_leads {m : ConsensusMessage} {block : Block} (hs : Reached e₀ c s)
    (hblock : m.block = some block) (hh : block.hash = .ok m.blockHash) :
    Leads (Move e₀ c) (proposalJustified m) s fun ok s' => s' = s ∧ (ok = true →
      ∃ justified, verifyRoundChangeCert e₀.validators e₀.height m.roundChangeCert m.round =
        .ok (true, justified) ∧ ∀ j ∈ justified, j = m.blockHash) := by
  have hsince := hs.since
  unfold proposalJustified
  refine leads_self (Leads.lift_bind fun verdict hverdict => ?_)
  rw [hsince.validators, hsince.height] at hverdict
  refine Leads.ite (fun _ => Leads.pure ⟨rfl, fun h => by cases h⟩) fun hok => ?_
  have hv : verdict = (true, verdict.2) := by rw [← not_not.mp hok]
  cases hjust : verdict.2 with
  | none =>
    exact Leads.pure ⟨rfl, fun _ => ⟨none, by rw [hverdict, hv, hjust], fun j hj => by cases hj⟩⟩
  | some justified =>
    rw [hblock]
    refine Leads.lift_bind fun h hh' => Leads.pure ⟨rfl, fun hjok => ?_⟩
    obtain rfl : m.blockHash = h := Except.ok.inj (hh.symm.trans hh')
    refine ⟨some justified, by rw [hverdict, hv, hjust], fun j hj => ?_⟩
    cases hj
    exact (decide_eq_true_iff.mp hjok).symm

lemma handlePrePrepare_leads {m : ConsensusMessage} (hm : c.Handles e₀ .PRE_PREPARE m) :
    Leads (Move e₀ c) (handlePrePrepare m) ⟨e₀, {}⟩ fun _ _ => True := by
  unfold handlePrePrepare
  refine Leads.bind (enterRound_leads hm) fun ok s hs hentered => ?_
  refine Leads.ite (fun _ => Leads.pure trivial) fun hok => leads_self ?_
  refine Leads.ite (fun _ => Leads.pure trivial) fun hcur => ?_
  obtain ⟨hround, hphase⟩ : m.round = s.engine.round ∧ s.engine.phase = .NEW_ROUND := by
    simpa using hcur
  have hsince := Reached.since (c := c) hs
  have hwhen := hentered (not_not.mp hok) hround hphase
  refine Leads.lift_bind fun sender hsender => ?_
  refine Leads.ite (fun _ => Leads.pure trivial) fun hprop => ?_
  rw [not_not.mp hprop, hsince.validators, hsince.height] at hsender
  cases hblock : m.block with
  | none => exact Leads.pure trivial
  | some block =>
    refine Leads.lift_bind fun h hh => ?_
    refine Leads.ite (fun _ => Leads.pure trivial) fun hhash => ?_
    rw [not_not.mp hhash] at hh
    refine Leads.lift_bind fun valid hvalid => ?_
    refine Leads.ite (fun _ => Leads.pure trivial) fun hval => ?_
    rw [not_not.mp hval] at hvalid
    have hopen : c.Opens e₀ s.engine.round := .prePrepare m hm hround.symm hwhen
    have haccept : ∀ t, t = s → (0 < s.engine.round → ∃ justified,
        verifyRoundChangeCert e₀.validators e₀.height m.roundChangeCert m.round =
          .ok (true, justified) ∧ ∀ j ∈ justified, j = m.blockHash) →
        Leads (Move e₀ c) (acceptProposal block) t fun _ _ => True := by
      rintro t rfl hjust
      have horigin : c.Origin e₀ t.engine block [] :=
        .peer ⟨hm, hround, hwhen, hsender, hblock, hh, hvalid, hjust⟩
      have hleads := acceptProposal_leads horigin hphase hh hopen
      have hsend : (fun t : Frame => acceptProposal block (t.send [])) = acceptProposal block := by
        funext t
        simp [Frame.send]
      rw [hsend] at hleads
      exact hleads.mono fun _ _ _ => trivial
    refine Leads.ite (fun _ => ?_) fun hpos => haccept s rfl fun h => absurd h hpos
    refine Leads.bind (proposalJustified_leads hs hblock hh) ?_
    rintro jok t - ⟨ht, hjust⟩
    exact Leads.ite (fun _ => Leads.pure trivial) fun hj => haccept t ht fun _ =>
      hjust (not_not.mp hj)

/-! ### Calls -/

lemma handleVote_leads {m : ConsensusMessage} {handler : ConsensusMessage → EngineM Unit}
    (hc : c = .handle m) (hm : Accepted e₀ m) (hvote : m.IsVote)
    (hhandler : m.round = e₀.round → Leads (Move e₀ c) (handler m) ⟨e₀, {}⟩ fun _ _ => True) :
    Leads (Move e₀ c) (handleVote m handler) ⟨e₀, {}⟩ fun _ _ => True := by
  unfold handleVote
  refine leads_self (Leads.ite hhandler fun _ => Leads.ite (fun hr => ?_) fun _ =>
    Leads.pure trivial)
  exact Leads.modify (.keep hc hm hvote hr rfl) trivial

lemma handle_leads {m : ConsensusMessage} (hc : c = .handle m) :
    Leads (Move e₀ c) (handle m) ⟨e₀, {}⟩ fun _ _ => True := by
  unfold handle
  refine leads_self (Leads.ite (fun _ => Leads.pure trivial) fun hheight => ?_)
  refine Leads.lift_bind fun auth hauth => Leads.ite (fun _ => Leads.pure trivial) fun hok => ?_
  rw [not_not.mp hok] at hauth
  have hacc : Accepted e₀ m := ⟨not_not.mp hheight, hauth⟩
  have hopen : m.IsVote → m.round = e₀.round → e₀.phase = .PRE_PREPARED → c.Opens e₀ e₀.round :=
    fun hv hr hp => .vote m hc hv hr.symm rfl hp
  have hclose : m.IsVote → m.round = e₀.round → e₀.phase = .PREPARED →
      c.Opens e₀ e₀.round ∨ c.Closes e₀ e₀.round :=
    fun hv hr hp => Or.inr ⟨⟨m, hc, hv, hr⟩, rfl, hp⟩
  cases ht : m.type with
  | ROUND_CHANGE => exact handleRoundChange_leads ⟨hc, hacc, ht⟩
  | PRE_PREPARE => exact handlePrePrepare_leads ⟨hc, hacc, ht⟩
  | PREPARE =>
    exact handleVote_leads hc hacc (Or.inl ht) fun hr =>
      (handlePrepare_leads (Or.inl ⟨hc, hacc⟩) ht hr (hopen (Or.inl ht) hr)
        (hclose (Or.inl ht) hr)).mono fun _ _ _ => trivial
  | COMMIT =>
    exact handleVote_leads hc hacc (Or.inr ht) fun hr =>
      (handleCommit_leads (Or.inl ⟨hc, hacc⟩) ht hr (hopen (Or.inr ht) hr)
        (hclose (Or.inr ht) hr)).mono fun _ _ _ => trivial

omit [Crypto] in
lemma le_firstUnsent (sent : List ℤ) (n : ℕ) (t : ℤ) : t ≤ firstUnsent sent n t := by
  induction n generalizing t with
  | zero => exact le_rfl
  | succ n ih =>
    rw [firstUnsent]
    split_ifs
    · exact (Int.le_add_one le_rfl).trans (ih (t + 1))
    · exact le_rfl

lemma onTimeout_leads (hc : c = .onTimeout) :
    Leads (Move e₀ c) onTimeout ⟨e₀, {}⟩ fun _ _ => True := by
  unfold onTimeout
  refine leads_self (Leads.ite (fun _ => Leads.pure trivial) fun hphase => ?_)
  have hchanging : c.Changing e₀ := Or.inl ⟨hc, hphase⟩
  have hlt : e₀.round < e₀.nextTarget :=
    lt_of_lt_of_le (Int.lt_add_one_iff.mpr le_rfl) (le_firstUnsent _ _ _)
  by_cases hsent : e₀.nextTarget ∈ e₀.rcSent
  · have hrun := sendRoundChange_of_sent (s := ⟨e₀, {}⟩) hsent
    exact Leads.bind (Leads.of_eq _ _ hrun .refl (Q := fun _ s => s = ⟨e₀, {}⟩) rfl)
      fun _ s hs hI => leads_self (roundChangeLoop_leads hchanging _ hs (hI ▸ rfl))
  · refine Leads.bind (sendRoundChange_leads hchanging hsent hlt (Or.inl ⟨hc, rfl⟩)) ?_
    rintro _ s hs ⟨m, rfl⟩
    exact leads_self (roundChangeLoop_leads hchanging _ hs rfl)

end EngineM

/-- A call is a sequence of moves, also when it raises. -/
theorem Call.run_moves (c : Call) (e : ConsensusEngine) : Reached e c (c.run e).2 := by
  cases c with
  | setPending records changes => exact (EngineM.setPending_leads rfl).path
  | handle m => exact (EngineM.handle_leads rfl).path
  | onTimeout => exact (EngineM.onTimeout_leads rfl).path

end Helix
