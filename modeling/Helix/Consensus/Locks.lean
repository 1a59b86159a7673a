import Helix.Consensus.Recovery
import Helix.Consensus.Rounds

/-!
# What an engine claims about its lock

The lock is a round, a block and the PREPAREs that prove it. It is assembled from a tally, journaled,
restored after a crash, and claimed in every ROUND_CHANGE. `Validator.Convinces` says that the three
stay together and that every claim passes the check that the other validators make; it is kept by the
moves of every call, whatever the messages, and by crashes.
-/

namespace Helix

variable [Crypto] {e₀ : ConsensusEngine} {c : Call} {s s' : Frame} {v v' : Validator}

/-- A ROUND_CHANGE that passes `_valid_round_change`, with the block that it claims to be locked. -/
structure Convincing (validators : ValidatorSet) (height : ℤ) (m : ConsensusMessage) : Prop where
  valid : validRoundChange validators height m = .ok true
  block : m.preparedRound ≠ none → ∃ block ∈ m.block, block.hash = .ok m.blockHash

/-- The round and the block of the lock are set together. -/
def LockPaired (e : ConsensusEngine) : Prop := e.preparedRound = none ↔ e.preparedBlock = none

omit [Crypto] in
/-- The lock of a new engine comes from the journal as a whole. -/
lemma LockPaired.initial (validators : ValidatorSet) (privateKey : PrivateKey) (height : ℤ)
    (previousHash : PyStr) (nowMs : ℕ → ℤ) (journal : VoteJournal) :
    LockPaired (.initial validators privateKey height previousHash nowMs journal) := by
  simp only [LockPaired, ConsensusEngine.initial, Option.map_eq_none_iff]

lemma LockPaired.move (h : LockPaired s.engine) (hlock : LockVerifies s.engine)
    (hmove : Move e₀ c s s') : LockPaired s'.engine := by
  cases hmove with
  | prepare => exact iff_of_false (Option.some_ne_none _) (Option.some_ne_none _)
  | finalize hclose hphase hblock =>
    -- the sealed block replaces the locked one, which is the proposal
    refine iff_of_false (fun hnone => ?_) (Option.some_ne_none _)
    have hlocked := hlock.proposal hphase
    rw [h.mp hnone, hblock] at hlocked
    exact Option.some_ne_none _ hlocked.symm
  | _ => exact h

/-- The ROUND_CHANGE of an engine convinces the others. -/
lemma LockVerifies.convincing {e : ConsensusEngine} (h : LockVerifies e)
    (hme : e.me ∈ e.validators.validators) {target : ℤ} {m : ConsensusMessage}
    (hm : e.roundChange target = .ok m) : Convincing e.validators e.height m := by
  refine ⟨(h.roundChangeEntry hme hm).valid, fun hclaim => ?_⟩
  obtain ⟨-, -, -, hhash, -, hblock, hround, -⟩ := ConsensusEngine.roundChange_eq hm
  rw [hround] at hclaim
  obtain ⟨p, hp⟩ := Option.ne_none_iff_exists'.mp hclaim
  obtain ⟨block, x, hlocked, hx, -⟩ := h.cert p hp
  rw [ConsensusEngine.lockHash, hlocked] at hhash
  exact ⟨block, hblock.trans hlocked, hhash⟩

/-- A new ROUND_CHANGE claims the lock of the moment. -/
lemma Move.roundChange_created (h : Move e₀ c s s') {m : ConsensusMessage}
    (hm : m ∈ s'.result.broadcast) (ht : m.type = .ROUND_CHANGE) :
    m ∈ s.result.broadcast ∨ s.engine.roundChange m.round = .ok m := by
  have hother : ∀ {type height round x signer block p cert cert'},
      ConsensusMessage.create type height round x signer block p cert cert' = .ok m →
      type ≠ .ROUND_CHANGE → False := fun hcreate hne =>
    hne ((ConsensusMessage.create_eq hcreate).1 ▸ ht)
  have hpre : ∀ {block pre}, c.Origin e₀ s.engine block pre → m ∈ pre → False := by
    intro block pre horigin hmem
    rw [horigin.types m hmem] at ht
    cases ht
  cases h with
  | leave hch htarget hr hwhy hrc =>
    refine (List.mem_append.mp hm).imp_right fun hm => ?_
    obtain rfl := List.mem_singleton.mp hm
    exact (ConsensusEngine.roundChange_eq hrc).2.2.1.symm ▸ hrc
  | accept horigin hphase hh hprior hcreate =>
    rcases List.mem_append.mp hm with hm | hm
    · exact (List.mem_append.mp hm).imp_right fun hm => (hpre horigin hm).elim
    · obtain rfl := List.mem_singleton.mp hm
      exact (hother hcreate (by decide)).elim
  | refuse horigin => exact (List.mem_append.mp hm).imp_right fun hm => (hpre horigin hm).elim
  | prepare hopen hphase hblock hh hquorum hprior hcreate =>
    refine (List.mem_append.mp hm).imp_right fun hm => ?_
    obtain rfl := List.mem_singleton.mp hm
    exact (hother hcreate (by decide)).elim
  | _ => exact Or.inl hm

/-- The lock of a validator is whole and proved, in its engine and in its journal, and its
ROUND_CHANGEs convince, also those of calls that a crash cut short. -/
structure Validator.Convinces (v : Validator) : Prop where
  tallied : Tallied (fun _ => True) v.engine
  paired : LockPaired v.engine
  lock : LockVerifies v.engine
  rows : RowsVerify v.engine
  sent : ∀ m ∈ v.sent, m.type = .ROUND_CHANGE →
    Convincing v.engine.validators v.engine.height m
  lost : ∀ m ∈ v.lost, m.type = .ROUND_CHANGE →
    Convincing v.engine.validators v.engine.height m

namespace Validator.Convinces

lemma during (hv : v.Convinces) (hs : Reached v.engine c s) : (v.during c s).Convinces := by
  refine Validator.during_induction v c ?_ ?_ hs
  · refine ⟨hv.tallied, hv.paired, hv.lock, hv.rows, fun m hm => hv.sent m ?_, hv.lost⟩
    rwa [Validator.during, List.append_nil] at hm
  · intro s s' hs ih hmove
    have hsince := hs.since
    have hkept := hmove.since hsince
    have hvals : s'.engine.validators = s.engine.validators :=
      hkept.validators.trans hsince.validators.symm
    have hheight : s'.engine.height = s.engine.height := hkept.height.trans hsince.height.symm
    refine ⟨hv.tallied.move hs ih.tallied hmove (fun _ _ => trivial) (fun _ _ _ => trivial),
      ih.paired.move ih.lock hmove, ih.lock.move ih.tallied hmove, ih.rows.move ih.tallied hmove,
      fun m hm ht => ?_, fun m hm ht => ?_⟩
    · show Convincing s'.engine.validators s'.engine.height m
      rw [hvals, hheight]
      rcases List.mem_append.mp hm with hm | hm
      · exact ih.sent m (List.mem_append_left _ hm) ht
      · rcases hmove.roundChange_created hm ht with hm | hrc
        · exact ih.sent m (List.mem_append_right _ hm) ht
        · exact ih.lock.convincing ih.tallied.me hrc
    · show Convincing s'.engine.validators s'.engine.height m
      rw [hvals, hheight]
      exact ih.lost m hm ht

/-- A validator with a new engine over a journal whose locks verify. -/
lemma of_initial {validators : ValidatorSet} {privateKey : PrivateKey} {height : ℤ}
    {previousHash : PyStr} {nowMs : ℕ → ℤ} {journal : VoteJournal}
    (hv : v.engine = .initial validators privateKey height previousHash nowMs journal)
    (hme : privateKey.publicKey ∈ validators.validators) (hlock : LockVerifies v.engine)
    (hrows : RowsVerify v.engine)
    (hsent : ∀ m ∈ v.sent ++ v.lost, m.type = .ROUND_CHANGE →
      Convincing v.engine.validators v.engine.height m) : v.Convinces :=
  ⟨hv ▸ .initial hme _ _ _ _, hv ▸ .initial _ _ _ _ _ _, hlock, hrows,
    fun m hm => hsent m (List.mem_append_left _ hm), fun m hm => hsent m (List.mem_append_right _ hm)⟩

/-- A crash leaves rows of the call it falls into, and messages of that call. -/
lemma step {ok : ConsensusEngine → Call → Prop} (hv : v.Convinces) (hstep : Validator.Step ok v v') :
    v'.Convinces := by
  cases hstep with
  | call c hc => exact hv.during (c.run_moves v.engine)
  | @crash c hc table lost nowMs hbefore hafter hlost hvotes hnew =>
    have hcall : (v.call c).Convinces := hv.during (c.run_moves v.engine)
    have hsince := v.since_call c
    have hrows : RowsVerify (v.reboot c lost nowMs table).engine := hcall.rows.crash hafter lost nowMs
    refine .of_initial rfl hv.tallied.me (LockVerifies.reboot hrows) hrows fun m hm ht => ?_
    rcases List.mem_append.mp hm with hm | hm
    · exact hv.sent m hm ht
    · rcases List.mem_append.mp hm with hm | hm
      · exact hv.lost m hm ht
      · have hsent := hcall.sent m (hlost.subset (List.mem_append_right _ hm)) ht
        rwa [hsince.validators, hsince.height] at hsent

end Validator.Convinces

/-- In every run with calls and crashes that starts without a lock of its height, whatever messages are
handed in: the round and the block of the lock are set together, and every ROUND_CHANGE sent passes the
check of every engine of the height with the same validators and, when it claims a lock, carries the
block that it names. -/
theorem lock_claims_convince {validators : ValidatorSet} {privateKey : PrivateKey} {height : ℤ}
    {previousHash : PyStr} {nowMs : ℕ → ℤ} {journal : VoteJournal} {e : ConsensusEngine}
    {v : Validator}
    (hnew : ConsensusEngine.new validators privateKey height previousHash nowMs journal = .ok e)
    (hlock : journal.prepared = none) (hrows : ∀ row ∈ journal.table, row.height ≠ height)
    (hrun : Relation.ReflTransGen (Validator.Step fun _ _ => True) { engine := e } v) :
    (v.engine.preparedRound = none ↔ v.engine.preparedBlock = none) ∧
    ∀ m ∈ v.sent ++ v.lost, m.type = .ROUND_CHANGE →
      (∀ peer : ConsensusEngine, peer.validators = validators → peer.height = height →
        validRoundChange peer.validators peer.height m = .ok true) ∧
      (m.preparedRound ≠ none → ∃ block ∈ m.block, block.hash = .ok m.blockHash) := by
  obtain ⟨hme, rfl⟩ := ConsensusEngine.new_eq_ok.mp hnew
  have hv : v.Convinces ∧ v.engine.validators = validators ∧ v.engine.height = height := by
    induction hrun with
    | refl =>
      refine ⟨.of_initial rfl hme (.initial hlock _ _ _ _ _) ?_ ?_, rfl, rfl⟩
      · exact fun r block cert hmem => absurd rfl (hrows _ hmem)
      · exact fun m hm => by cases hm
    | @tail v v' _ hstep ih =>
      refine ⟨ih.1.step hstep, ?_⟩
      cases hstep with
      | call c =>
        have hsince := v.since_call c
        exact ⟨hsince.validators.trans ih.2.1, hsince.height.trans ih.2.2⟩
      | crash => exact ih.2
  obtain ⟨hv, hvals, hheight⟩ := hv
  refine ⟨hv.paired, fun m hm ht => ?_⟩
  have hm : Convincing validators height m := by
    rw [← hvals, ← hheight]
    exact (List.mem_append.mp hm).elim (fun hm => hv.sent m hm ht) fun hm => hv.lost m hm ht
  exact ⟨fun peer hpeer hpeer' => hpeer ▸ hpeer' ▸ hm.valid, hm.block⟩

omit [Crypto] in
/-- A lone validator locks a block, restarts, and claims the lock at its next timeout. -/
theorem lock_claims_convince_after_restart :
    letI := Crypto.checksums
    let v := (((Validator.ofSeed .single 0xaa).call (.setPending [] [⟨.ADD, []⟩])).restart
      fun i => i + 9).call .onTimeout
    ∃ m ∈ v.sent ++ v.lost, m.type = .ROUND_CHANGE ∧ m.preparedRound = some 0 ∧
      validRoundChange .single 1 m = .ok true ∧ ∃ block ∈ m.block, block.hash = .ok m.blockHash := by
  let := Crypto.checksums
  intro v
  let c : Call := .setPending [] [⟨.ADD, []⟩]
  have hmem : (seedKey 0xaa).publicKey ∈ ValidatorSet.single.validators := by decide +kernel
  have hstart : (Validator.ofSeed .single 0xaa).Starts := Validator.starts_ofSeed hmem
  have hrun : Relation.ReflTransGen (Validator.Step fun _ _ => True)
      (Validator.ofSeed .single 0xaa) v := by
    refine ((Relation.ReflTransGen.single (.call c trivial)).tail ?_).tail (.call .onTimeout trivial)
    exact .restart ((VotesJournaled.of_starts hstart).call c).durable
      (Validator.me_mem_call hstart.me_mem c) trivial _
  obtain ⟨-, hsent⟩ := lock_claims_convince (ConsensusEngine.new_eq_ok.mpr ⟨hmem, rfl⟩) rfl
    (fun row hrow => (by cases hrow)) hrun
  have hclaim : ((v.sent ++ v.lost).filter fun m =>
      m.type = .ROUND_CHANGE ∧ m.preparedRound = some 0) ≠ [] := by
    decide +kernel
  obtain ⟨m, hm⟩ := List.exists_mem_of_ne_nil _ hclaim
  obtain ⟨hm, hcond⟩ := List.mem_filter.mp hm
  obtain ⟨ht, hr⟩ := of_decide_eq_true hcond
  obtain ⟨hvalid, hblock⟩ := hsent m hm ht
  exact ⟨m, hm, ht, hr, hvalid (.ofSeed .single 0xaa .null) rfl rfl,
    hblock (hr ▸ Option.some_ne_none _)⟩

end Helix
