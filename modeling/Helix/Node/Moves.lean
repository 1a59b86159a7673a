import Helix.Consensus.Membership
import Helix.Consensus.Refinement
import Helix.Node.Model

/-!
# What a method of the node can do

`NodeMove o n n'` says that the method `o` can take the node `n` to `n'` in one step, with what the
code has checked by then. Every method is a sequence of such moves, also when it raises and however
many passes its loop makes (`Operation.run_moves`).
-/

namespace Helix

variable [Crypto] [Columns]

open Relation (ReflTransGen)
open Eff (Leads)

namespace Operation

/-- The engine calls that a method makes. -/
inductive Calls (o : Operation) (n : Node) (e : ConsensusEngine) : Call → Prop
  | setPending : Calls o n e (.setPending n.pending n.pendingChanges)
  | onTimeout : Calls o n e .onTimeout
  | handle {m : ConsensusMessage} {answers : List (Except PyError (Option Block))}
      (ho : o = .onMessage m answers) (hheight : m.height = e.height) : Calls o n e (.handle m)

/-- The blocks that peers hand to a method. -/
inductive Supplies : Operation → Block → Prop
  | push (b : Block) : Supplies (.ingestBlock b) b
  | fetch {m : ConsensusMessage} {answers : List (Except PyError (Option Block))} {b : Block}
      (hb : .ok (some b) ∈ answers) : Supplies (.onMessage m answers) b

end Operation

/-- What a pushed or fetched block has passed when it is appended. -/
def Node.ExtendsTip (n : Node) (block : Block) : Prop :=
  verifyFinality block n.active = .ok true ∧ ∃ latest hash,
    n.repo.getLast? = some latest ∧ latest.hash = .ok hash ∧ block.header.previousHash = hash

/-- The node with the block stored and its items out of the buffers. -/
def Node.storing (n : Node) (block : Block) (repo : List Block) (pending : List IntegrityRecord)
    (keys : List PyStr) : Node :=
  { n with
    repo, pending
    returned := none
    mempoolSeen := n.mempoolSeen ∪ keys
    pendingChanges := n.pendingChanges.filter fun c => c ∉ block.validatorChanges }

/-- The same node with the journal pruned. -/
def Node.forgetting (n : Node) (block : Block) (repo : List Block) (pending : List IntegrityRecord)
    (keys : List PyStr) : Node :=
  (n.storing block repo pending keys).pruneBelow (block.index + 1)

/-- How `_append_and_advance` ends, and the node it leaves behind: the repository refuses the block,
or the block is stored and a content key cannot be computed, or its items are forgotten as well and
its changes cannot be applied, or the node is at the next height. -/
inductive Node.Appends (n : Node) (block : Block) : Except PyError Unit → Node → Prop
  | refused {err : PyError} (hrepo : Repository.append n.repo block = .error err) :
      Appends n block (.error err) n
  | stored {repo : List Block} {err : PyError} (hrepo : Repository.append n.repo block = .ok repo)
      (hkey : ∃ r, (r ∈ block.records ∨ r ∈ n.pending) ∧ r.contentKey = .error err) :
      Appends n block (.error err) { n with repo, returned := none }
  | forgotten {repo : List Block} {keys : List PyStr} {pending : List IntegrityRecord}
      {err : PyError} (hrepo : Repository.append n.repo block = .ok repo)
      (hkeys : block.records.mapM IntegrityRecord.contentKey = .ok keys)
      (hpending : (n.pending.filterM fun r => r.contentKey.map fun key => key ∉ keys) = .ok pending)
      (hchanges : block.validatorChanges ≠ [])
      (hactive : applyChanges n.active block.validatorChanges = .error err) :
      Appends n block (.error err) (n.forgetting block repo pending keys)
  | advanced {repo : List Block} {keys : List PyStr} {pending : List IntegrityRecord}
      {active : ValidatorSet} {engine : Option ConsensusEngine}
      (hrepo : Repository.append n.repo block = .ok repo)
      (hkeys : block.records.mapM IntegrityRecord.contentKey = .ok keys)
      (hpending : (n.pending.filterM fun r => r.contentKey.map fun key => key ∉ keys) = .ok pending)
      (hactive : applyChanges n.active block.validatorChanges = .ok active)
      (hengine : { n.forgetting block repo pending keys with active }.newEngine = .ok engine) :
      Appends n block (.ok ()) { n.forgetting block repo pending keys with active, engine }

/-- One step of the method `o`. -/
inductive NodeMove (o : Operation) (n : Node) : Node → Prop
  | call {e : ConsensusEngine} {c : Call} (he : n.engine = some e) (hc : o.Calls n e c)
      {returned : Option Block}
      (hreturned : returned = n.returned ∨ returned = (c.run e).2.result.committed) :
      NodeMove o n { n.afterCall (c.run e).2 with returned, calls := n.calls ++ [⟨n.active, e, c⟩] }
  | emit (out : Outgoing) : NodeMove o n { n with outbox := n.outbox ++ [out] }
  | append {block : Block} {result : Except PyError Unit} {n' : Node}
      (happend : n.Appends block result n') (hfinal : verifyFinality block n.active = .ok true)
      (hwhy : n.returned = some block ∨ o.Supplies block ∧ n.ExtendsTip block) :
      NodeMove o n n'
  | refuse {block : Block} (hreturned : n.returned = some block)
      (hfinal : verifyFinality block n.active = .ok false) :
      NodeMove o n { n with refused := n.refused ++ [block] }
  | reset {block : Block} {engine : Option ConsensusEngine} (hreturned : n.returned = some block)
      (hfinal : verifyFinality block n.active = .ok false) (hengine : n.newEngine = .ok engine) :
      NodeMove o n { n with engine, returned := none }
  | enqueueRecords {records : List IntegrityRecord} {keys : List PyStr}
      (hverify : ∀ r ∈ records, r.verify n.active = .ok true)
      (hfresh : ∀ r ∈ records, ∃ key, r.contentKey = .ok key ∧ key ∉ n.mempoolSeen)
      (hkeys : records.mapM IntegrityRecord.contentKey = .ok keys) :
      NodeMove o n { n with
        mempoolSeen := n.mempoolSeen ∪ keys
        pending := n.pending ++ records }
  | enqueueChanges {changes : List ValidatorChange} (heffective : ∀ c ∈ changes, n.isEffective c)
      (hfresh : ∀ c ∈ changes, c ∉ n.pendingChanges) :
      NodeMove o n { n with pendingChanges := n.pendingChanges ++ changes }

/-- The records that a method takes in: those handed to it, signed if they are the node's own. -/
def Operation.Batch (o : Operation) (n : Node) (batch : List IntegrityRecord) : Prop :=
  o = .receiveRecords batch ∨ ∃ records, o = .submitRecords records ∧
    (records.mapM fun r => r.signed n.privateKey) = .ok batch

/-- The block that the commit hook is called with. -/
def Outgoing.hooked : Outgoing → Option Block
  | committed b => some b
  | _ => none

/-- The blocks that were handed to the commit hook. -/
def Node.announced (n : Node) : List Block := n.outbox.filterMap Outgoing.hooked

/-- The node after the commit hook was called with the block. -/
def Node.announcing (n : Node) (block : Block) : Node :=
  { n with outbox := n.outbox ++ [.committed block] }

/-- The node is behind, and the first block that a peer answers with extends its tip. -/
def Operation.Syncs (o : Operation) (n : Node) : Prop :=
  ∃ m answers block, o = .onMessage m answers ∧ n.height + 1 < m.height ∧
    answers.head? = some (.ok (some block)) ∧ (NodeM.extendsTip block n).1 = .ok true

/-- One step of the method `o` that was called on `n₀`, as far as the stored blocks, the mempool and
the commit hook are concerned: a move that leaves them alone, a block appended and announced, a block
appended by the catch-up sync, a block whose application raises, or a batch of records taken in. -/
inductive NodeEvent (o : Operation) (n₀ : Node) : Node → Node → Prop
  | move {n n' : Node} (hmove : NodeMove o n n') (hrepo : n'.repo = n.repo)
      (hpending : n'.pending = n.pending) (hseen : n'.mempoolSeen = n.mempoolSeen)
      (hannounced : n'.announced = n.announced) : NodeEvent o n₀ n n'
  | announce {n n' : Node} {block : Block} (happend : n.Appends block (.ok ()) n')
      (hfinal : verifyFinality block n.active = .ok true)
      (hwhy : n.returned = some block ∨ o.Supplies block ∧ n.ExtendsTip block) :
      NodeEvent o n₀ n (n'.announcing block)
  | sync {n n' : Node} {block : Block} (hsyncs : o.Syncs n₀) (hblock : o.Supplies block)
      (htip : n.ExtendsTip block) (happend : n.Appends block (.ok ()) n') : NodeEvent o n₀ n n'
  | fail {n n' : Node} {block : Block} {err : PyError} (happend : n.Appends block (.error err) n')
      (hfinal : verifyFinality block n.active = .ok true)
      (hwhy : n.returned = some block ∨ o.Supplies block ∧ n.ExtendsTip block) :
      NodeEvent o n₀ n n'
  | enqueue {batch authentic fresh : List IntegrityRecord} {keys : List PyStr}
      (hbatch : o.Batch n₀ batch)
      (hauthentic : (batch.filterM fun r => r.verify n₀.active) = .ok authentic)
      (hfresh : (authentic.filterM fun r => r.contentKey.map fun key => key ∉ n₀.mempoolSeen) =
        .ok fresh)
      (hkeys : fresh.mapM IntegrityRecord.contentKey = .ok keys) :
      NodeEvent o n₀ n₀ { n₀ with
        mempoolSeen := n₀.mempoolSeen ∪ keys
        pending := n₀.pending ++ fresh }

omit [Crypto] [Columns] in
lemma Node.announced_emit {n : Node} {out : Outgoing} (hout : out.hooked = none) :
    { n with outbox := n.outbox ++ [out] }.announced = n.announced := by
  simp [announced, hout]

omit [Crypto] [Columns] in
lemma Node.announced_announcing (n : Node) (block : Block) :
    (n.announcing block).announced = n.announced ++ [block] := by
  simp [announced, announcing, Outgoing.hooked]

/-! ### Engines and the repository -/

omit [Columns] in
/-- What `_new_engine` builds. -/
lemma Node.newEngine_eq_ok {n : Node} {engine : Option ConsensusEngine}
    (h : n.newEngine = .ok engine) : engine = none ∨ n.me ∈ n.active.validators ∧
      ∃ latest hash, n.repo.getLast? = some latest ∧ latest.hash = .ok hash ∧
        engine = some (.initial n.active n.privateKey (latest.index + 1) hash n.nowMs
          (n.journalStore.view (latest.index + 1))) := by
  unfold newEngine at h
  split at h
  · cases h
  · rename_i latest hlast
    split_ifs at h with hmem
    · cases hhash : latest.hash with
      | error err => rw [hhash] at h; cases h
      | ok hash =>
        have hmem' : n.active.contains n.privateKey.publicKey = true := hmem
        simp only [hhash, bind, Except.bind, ConsensusEngine.new, hmem', if_true] at h
        cases h
        exact Or.inr ⟨(n.active.contains_iff _).mp hmem, latest, hash, hlast, hhash, rfl⟩
    · cases h
      exact Or.inl rfl

omit [Columns] in
/-- On a tip whose hash can be computed, `_new_engine` does not raise. -/
lemma Node.exists_newEngine {n : Node} {latest : Block} {hash : PyStr}
    (hlast : n.repo.getLast? = some latest) (hhash : latest.hash = .ok hash) :
    ∃ engine, n.newEngine = .ok engine := by
  simp only [newEngine, hlast, hhash, bind, Except.bind]
  by_cases hmem : n.active.contains n.me = true
  · have hmem' : n.active.contains n.privateKey.publicKey = true := hmem
    simp only [hmem, if_true, ConsensusEngine.new, hmem']
    exact ⟨_, rfl⟩
  · simp only [hmem]
    exact ⟨none, rfl⟩

lemma Repository.append_eq_ok {blocks repo : List Block} {block : Block}
    (h : append blocks block = .ok repo) : repo = blocks ++ [block] ∧
      block.index = height blocks + 1 ∧ ∃ hash, block.hash = .ok hash := by
  simp only [append] at h
  split_ifs at h with hindex
  · cases hhash : block.hash with
    | error err => rw [hhash] at h; cases h
    | ok hash =>
      simp only [hhash, bind, Except.bind] at h
      split_ifs at h
      cases h
      exact ⟨rfl, not_not.mp hindex, hash, rfl⟩

lemma Repository.holds_of_append {blocks repo : List Block} {block : Block} {hash : PyStr}
    (h : append blocks block = .ok repo) (hhash : block.hash = .ok hash) :
    Columns.holds block.header hash = true := by
  simp only [append, hhash, bind, Except.bind] at h
  split_ifs at h with _ hholds
  simpa using hholds

/-! ### The methods -/

namespace NodeM

variable {o : Operation} {n₀ n : Node}

omit [Crypto] [Columns] in
lemma leads_get {α : Type} {R : Node → Node → Prop} {P : α → Node → Prop} {f : Node → NodeM α}
    (h : Leads R (f n) n P) : Leads R (Eff.get >>= f) n P := h

lemma callEngine_leads {c : Call} (hc : ∀ e, n.engine = some e → o.Calls n e c) :
    Leads (NodeEvent o n₀) (callEngine c) n fun result n' =>
      ∀ r, result = some r → n'.returned = r.committed := by
  unfold callEngine
  refine leads_get ?_
  cases he : n.engine with
  | none => exact Leads.pure nofun
  | some e =>
    cases hrun : (c.run e).1 with
    | error err =>
      refine Leads.of_error err { n.afterCall (c.run e).2 with
        calls := n.calls ++ [⟨n.active, e, c⟩] } ?_
        (.single (.move (.call he (hc e he) (Or.inl rfl)) rfl rfl rfl rfl))
      simp only [bind, Eff.modify, Eff.lift, hrun]
    | ok u =>
      refine Leads.of_eq (some (c.run e).2.result) { n.afterCall (c.run e).2 with
        returned := (c.run e).2.result.committed
        calls := n.calls ++ [⟨n.active, e, c⟩] } ?_
        (.single (.move (.call he (hc e he) (Or.inr rfl)) rfl rfl rfl rfl)) fun r hr => ?_
      · simp only [bind, Eff.modify, Eff.lift, hrun]
        rfl
      · cases hr
        rfl

lemma setPending_leads : Leads (NodeEvent o n₀) setPending n fun result n' =>
    ∀ r, result = some r → n'.returned = r.committed :=
  leads_get (callEngine_leads fun _ _ => .setPending)

omit [Columns] in
/-- What `_forget_committed` does after the block is stored, if it does not raise. -/
lemma forgetCommitted_eq {block : Block} {repo : List Block} {keys : List PyStr}
    {pending : List IntegrityRecord}
    (hkeys : block.records.mapM IntegrityRecord.contentKey = .ok keys)
    (hpending : (n.pending.filterM fun r => r.contentKey.map fun key => key ∉ keys) = .ok pending) :
    forgetCommitted block { n with repo, returned := none } =
      (.ok (), n.storing block repo pending keys) := by
  unfold forgetCommitted
  rw [Eff.lift_bind_ok hkeys, Eff.bind_apply_ok (Eff.get_apply _), Eff.lift_bind_ok hpending,
    Eff.bind_apply_ok (Eff.modify_apply _ _)]
  split_ifs with hchanges
  · rfl
  · rw [not_not] at hchanges
    simp [hchanges, Node.storing]

omit [Columns] in
/-- The end of `_append_and_advance` by what `apply_changes` gives. -/
lemma advance_eq_ok {block : Block} {active : ValidatorSet} {engine : Option ConsensusEngine}
    (hactive : applyChanges n.active block.validatorChanges = .ok active)
    (hengine : { n.pruneBelow (block.index + 1) with active }.newEngine = .ok engine) :
    advance block n = (.ok (), { n.pruneBelow (block.index + 1) with active, engine }) := by
  have hrebuild : rebuild { n.pruneBelow (block.index + 1) with active } =
      (.ok (), { n.pruneBelow (block.index + 1) with active, engine }) := by
    simp only [rebuild, bind, Eff.get, Eff.lift, hengine, Eff.modify]
  unfold advance
  rw [Eff.bind_apply_ok (Eff.modify_apply _ n), ← hrebuild]
  split_ifs with hchanges
  · simp only [bind, Eff.get, Eff.lift, Node.pruneBelow, hactive, Eff.modify]
  · rw [not_not.mp hchanges, applyChanges_nil] at hactive
    cases hactive
    rfl

omit [Columns] in
lemma advance_eq_error {block : Block} {err : PyError}
    (hactive : applyChanges n.active block.validatorChanges = .error err) :
    block.validatorChanges ≠ [] ∧ advance block n = (.error err, n.pruneBelow (block.index + 1)) := by
  have hchanges : block.validatorChanges ≠ [] := by
    intro hnil
    rw [hnil, applyChanges_nil] at hactive
    cases hactive
  refine ⟨hchanges, ?_⟩
  unfold advance
  rw [Eff.bind_apply_ok (Eff.modify_apply _ n), if_pos hchanges]
  simp only [bind, Eff.get, Eff.lift, Node.pruneBelow, hactive]

/-- `_append_and_advance` ends in one of its four ways. -/
lemma appendAndAdvance_appends (n : Node) (block : Block) :
    n.Appends block (appendAndAdvance block n).1 (appendAndAdvance block n).2 := by
  unfold appendAndAdvance
  rw [Eff.bind_apply_ok (Eff.get_apply n)]
  cases hrepo : Repository.append n.repo block with
  | error err => exact .refused hrepo
  | ok repo =>
    rw [Eff.lift_bind_ok rfl, Eff.bind_apply_ok (Eff.modify_apply _ n)]
    cases hkeys : block.records.mapM IntegrityRecord.contentKey with
    | error err =>
      obtain ⟨r, hr, herr⟩ := exists_of_mapM_error hkeys
      have hraise : forgetCommitted block { n with repo, returned := none } =
          (.error err, { n with repo, returned := none }) := by
        simp only [forgetCommitted, bind, Eff.lift, hkeys]
      rw [Eff.bind_apply_error hraise]
      exact .stored hrepo ⟨r, Or.inl hr, herr⟩
    | ok keys =>
      cases hpending : n.pending.filterM fun r => r.contentKey.map fun key => key ∉ keys with
      | error err =>
        obtain ⟨r, hr, herr⟩ := exists_of_filterM_error hpending
        have hraise : forgetCommitted block { n with repo, returned := none } =
            (.error err, { n with repo, returned := none }) := by
          simp only [forgetCommitted, bind, Eff.lift, hkeys, Eff.get, hpending]
        rw [Eff.bind_apply_error hraise]
        refine .stored hrepo ⟨r, Or.inr hr, ?_⟩
        cases hkey : r.contentKey with
        | error err' => rw [hkey] at herr; cases herr; rfl
        | ok key => rw [hkey] at herr; cases herr
      | ok pending =>
        rw [Eff.bind_apply_ok (forgetCommitted_eq hkeys hpending)]
        obtain ⟨rfl, -, hash, hhash⟩ := Repository.append_eq_ok hrepo
        cases hactive : applyChanges n.active block.validatorChanges with
        | error err =>
          obtain ⟨hchanges, hadvance⟩ := advance_eq_error
            (n := n.storing block (n.repo ++ [block]) pending keys) hactive
          rw [hadvance]
          exact .forgotten hrepo hkeys hpending hchanges hactive
        | ok active =>
          obtain ⟨engine, hengine⟩ := Node.exists_newEngine
            (n := { n.forgetting block (n.repo ++ [block]) pending keys with active })
            List.getLast?_concat hhash
          rw [advance_eq_ok (n := n.storing block (n.repo ++ [block]) pending keys) hactive hengine]
          exact .advanced hrepo hkeys hpending hactive hengine

/-- A block that is appended is handed to the commit hook at once. -/
lemma announce_leads {β : Type} {block : Block} {x : NodeM β} {P : β → Node → Prop}
    (hfinal : verifyFinality block n.active = .ok true)
    (hwhy : n.returned = some block ∨ o.Supplies block ∧ n.ExtendsTip block)
    (hx : ∀ n', Leads (NodeEvent o n₀) x n' P) :
    Leads (NodeEvent o n₀) (appendAndAdvance block >>= fun _ => emit (.committed block) >>= fun _ => x)
      n P := by
  have happend := appendAndAdvance_appends n block
  rcases hrun : appendAndAdvance block n with ⟨err | _, n'⟩
  · rw [hrun] at happend
    exact Leads.of_error err n' (Eff.bind_apply_error hrun) (.single (.fail happend hfinal hwhy))
  · rw [hrun] at happend
    refine Leads.congr ?_ (.single (.announce happend hfinal hwhy)) (hx (n'.announcing block))
    rw [Eff.bind_apply_ok hrun]
    rfl

lemma emit_leads (out : Outgoing) (hout : out.hooked = none) :
    Leads (NodeEvent o n₀) (emit out) n fun _ n' => n'.returned = n.returned :=
  Leads.modify (.move (.emit out) rfl rfl rfl (Node.announced_emit hout)) rfl

lemma commitLocked_leads {block : Block} (hreturned : n.returned = some block) :
    Leads (NodeEvent o n₀) (commitLocked block) n fun _ _ => True := by
  unfold commitLocked
  refine leads_get (Leads.lift_bind fun final hfinal => ?_)
  cases final with
  | true =>
    exact announce_leads hfinal (Or.inl hreturned) fun _ => Leads.pure trivial
  | false =>
    refine Leads.modify_bind (.move (.refuse hreturned hfinal) rfl rfl rfl rfl) ?_
    cases hengine : { n with refused := n.refused ++ [block] }.newEngine with
    | error err =>
      refine Leads.of_error err { n with refused := n.refused ++ [block] } ?_ .refl
      simp only [rebuild, bind, Eff.get, Eff.lift, hengine]
    | ok engine =>
      refine Leads.of_eq none { n with engine, returned := none, refused := n.refused ++ [block] } ?_
        (.single (.move (.reset hreturned hfinal hengine) rfl rfl rfl rfl)) trivial
      simp only [rebuild, bind, Eff.get, Eff.lift, hengine, Eff.modify, pure]

/-- The loop of `_apply_locked`, by the number of its passes. -/
lemma applyLocked_leads (passes : ℕ) {result : Option StepResult}
    (hresult : ∀ r, result = some r → n.returned = r.committed) :
    Leads (NodeEvent o n₀) (applyLocked passes result) n fun _ _ => True := by
  induction passes generalizing n result with
  | zero => exact Leads.pure trivial
  | succ passes ih =>
    cases result with
    | none => exact Leads.pure trivial
    | some r =>
      have hcommitted := hresult r rfl
      refine Leads.bind (Leads.forM (I := fun n' => n'.returned = r.committed) hcommitted
        fun m _ n' _ hn' => (emit_leads (.message m) rfl).mono fun _ _ h => h.trans hn') fun _ n₁ _ hn₁ => ?_
      cases hblock : r.committed with
      | none => exact Leads.pure trivial
      | some block =>
        refine Leads.bind (commitLocked_leads (hn₁.trans hblock)) fun appended n₂ _ _ => ?_
        cases appended with
        | some b =>
          refine Leads.bind (emit_leads (.block b) rfl) fun _ n₃ _ _ => ?_
          exact Leads.bind setPending_leads fun result n₄ _ hr => ih hr
        | none => exact Leads.bind setPending_leads fun result n₄ _ hr => ih hr

omit [Columns] in
lemma extendsTip_leads {R : Node → Node → Prop} {block : Block} :
    Leads R (extendsTip block) n fun ok n' => n' = n ∧ (ok = true → n.ExtendsTip block) := by
  unfold extendsTip
  refine leads_get (Leads.ite (fun _ => Leads.pure ⟨rfl, nofun⟩) fun _ => ?_)
  cases hlast : n.repo.getLast? with
  | none => exact Leads.of_error _ n rfl .refl
  | some latest =>
    refine Leads.lift_bind fun hash hhash => ?_
    refine Leads.ite (fun _ => Leads.pure ⟨rfl, nofun⟩) fun hlink => ?_
    refine Leads.lift fun final hfinal => ⟨rfl, fun hok => ⟨hok ▸ hfinal, latest, hash, hlast, hhash, ?_⟩⟩
    exact not_not.mp hlink

omit [Columns] in
lemma extendsTip_state (block : Block) (n : Node) : (extendsTip block n).2 = n := by
  have hpath : ReflTransGen (fun _ _ : Node => False) n (extendsTip block n).2 :=
    Leads.path (extendsTip_leads (n := n))
  rcases ReflTransGen.cases_head hpath with h | ⟨_, h, -⟩
  · exact h.symm
  · exact h.elim

lemma applyPushedBlockLocked_leads {passes : ℕ} {block : Block} (hblock : o.Supplies block) :
    Leads (NodeEvent o n₀) (applyPushedBlockLocked passes block) n fun _ _ => True := by
  unfold applyPushedBlockLocked
  refine Leads.bind extendsTip_leads fun ok n' _ ⟨hn', hok⟩ => ?_
  subst hn'
  refine Leads.ite (fun htrue => ?_) fun _ => Leads.pure trivial
  have htip := hok htrue
  refine announce_leads htip.1 (Or.inr ⟨hblock, htip⟩) fun _ => ?_
  exact Leads.bind setPending_leads fun _ _ _ hr => applyLocked_leads passes hr

/-- The loop of `_sync_locked`, by the answers of the peers: a step for each block appended. -/
lemma syncLocked_leads {R : Node → Node → Prop} {upTo : ℤ}
    {answers : List (Except PyError (Option Block))}
    (happend : ∀ b n, .ok (some b) ∈ answers → n.ExtendsTip b → R n (appendAndAdvance b n).2) :
    Leads R (syncLocked upTo answers) n fun _ _ => True := by
  induction answers generalizing n with
  | nil => exact Leads.pure trivial
  | cons answer answers ih =>
    refine leads_get (Leads.ite (fun _ => ?_) fun _ => Leads.pure trivial)
    refine Leads.lift_bind fun fetched hfetched => ?_
    cases fetched with
    | none => exact Leads.pure trivial
    | some block =>
      refine Leads.bind extendsTip_leads fun ok n' _ ⟨hn', hok⟩ => ?_
      subst hn'
      refine Leads.ite (fun htrue => ?_) fun _ => Leads.pure trivial
      have hstep := happend block n' (by rw [hfetched]; exact List.mem_cons_self) (hok htrue)
      refine Leads.bind (Q := fun _ _ => True) ⟨.single hstep, fun _ _ => trivial⟩ fun _ _ _ _ => ?_
      exact ih fun b n hb => happend b n (List.mem_cons_of_mem _ hb)

lemma ingestChanges_leads {passes : ℕ} {changes : List ValidatorChange} {gossip : Bool} :
    Leads (NodeEvent o n₀) (ingestChanges passes changes gossip) n fun _ _ => True := by
  unfold ingestChanges
  refine leads_get (Leads.ite (fun _ => Leads.pure trivial) fun _ => ?_)
  refine Leads.modify_bind (.move (.enqueueChanges (fun c hc => ?_) fun c hc => ?_) rfl rfl rfl rfl)
    (Leads.ite (fun _ => ?_) fun _ => ?_)
  · simp only [List.mem_filter, decide_eq_true_eq] at hc
    exact hc.2.1
  · simp only [List.mem_filter, decide_eq_true_eq] at hc
    exact hc.2.2
  · refine Leads.bind (emit_leads (.changes _) rfl) fun _ _ _ _ => ?_
    exact Leads.bind setPending_leads fun _ _ _ hr => applyLocked_leads passes hr
  · exact Leads.bind setPending_leads fun _ _ _ hr => applyLocked_leads passes hr

lemma ingestRecords_leads {passes : ℕ} {records : List IntegrityRecord} {gossip : Bool}
    (hbatch : o.Batch n records) :
    Leads (NodeEvent o n) (ingestRecords passes records gossip) n fun _ _ => True := by
  unfold ingestRecords
  refine leads_get (Leads.lift_bind fun authentic hauthentic => Leads.lift_bind fun fresh hfresh =>
    Leads.ite (fun _ => Leads.pure trivial) fun _ => Leads.lift_bind fun keys hkeys => ?_)
  refine Leads.modify_bind (.enqueue hbatch hauthentic hfresh hkeys) (Leads.ite (fun _ => ?_) fun _ => ?_)
  · refine Leads.bind (emit_leads (.records fresh) rfl) fun _ _ _ _ => ?_
    exact Leads.bind setPending_leads fun _ _ _ hr => applyLocked_leads passes hr
  · exact Leads.bind setPending_leads fun _ _ _ hr => applyLocked_leads passes hr

lemma roundTimer_leads {passes : ℕ} {startHeight : ℤ} :
    Leads (NodeEvent o n₀) (roundTimer passes startHeight) n fun _ _ => True := by
  unfold roundTimer
  refine leads_get ?_
  cases n.engine with
  | none => exact Leads.pure trivial
  | some e =>
    refine Leads.ite (fun _ => ?_) fun _ => Leads.pure trivial
    exact Leads.bind (callEngine_leads fun _ _ => .onTimeout) fun _ _ _ hr =>
      applyLocked_leads passes hr

lemma deliver_leads {passes : ℕ} {m : ConsensusMessage}
    {answers : List (Except PyError (Option Block))} :
    Leads (NodeEvent (.onMessage m answers) n₀) (deliver passes m) n fun _ _ => True := by
  unfold deliver
  refine leads_get ?_
  cases he : n.engine with
  | none => exact Leads.pure trivial
  | some e =>
    refine Leads.ite (fun hheight => ?_) fun _ => Leads.pure trivial
    refine Leads.bind (callEngine_leads fun e' he' => ?_) fun _ _ _ hr =>
      applyLocked_leads passes hr
    exact .handle rfl (Option.some.inj (he.symm.trans he') ▸ hheight)

/-- The loop of `_sync_locked` appends nothing if the first block does not extend the tip. -/
lemma syncLocked_stays {upTo : ℤ} {answers : List (Except PyError (Option Block))}
    (h : ∀ block, answers.head? = some (.ok (some block)) → (extendsTip block n).1 ≠ .ok true) :
    (syncLocked upTo answers n).2 = n := by
  cases answers with
  | nil => rfl
  | cons answer answers =>
    unfold syncLocked
    rw [Eff.bind_apply_ok (Eff.get_apply n)]
    split_ifs with hbehind
    · rcases answer with err | ⟨_ | block⟩
      · rfl
      · rfl
      · rw [Eff.lift_bind_ok rfl]
        change ((extendsTip block >>= _) n).2 = n
        have hstate := extendsTip_state block n
        have hno := h block rfl
        rcases hrun : extendsTip block n with ⟨err | ok, n'⟩
        · rw [hrun] at hstate
          rw [Eff.bind_apply_error hrun]
          exact hstate
        · rw [hrun] at hstate hno
          rw [Eff.bind_apply_ok hrun]
          cases ok with
          | true => exact absurd rfl hno
          | false => exact hstate
    · rfl

lemma onMessage_leads {passes : ℕ} {m : ConsensusMessage}
    {answers : List (Except PyError (Option Block))} :
    Leads (NodeEvent (.onMessage m answers) n) (onMessage passes m answers) n fun _ _ => True := by
  unfold onMessage
  refine leads_get (Leads.ite (fun hbehind => ?_) fun _ => deliver_leads)
  refine Leads.bind (Q := fun _ _ => True) ?_ fun _ _ _ _ => deliver_leads
  by_cases hsyncs : (Operation.onMessage m answers).Syncs n
  · refine syncLocked_leads fun b n' hb htip => ?_
    have happend := appendAndAdvance_appends n' b
    rcases hrun : appendAndAdvance b n' with ⟨err | _, n''⟩
    · rw [hrun] at happend
      exact .fail happend htip.1 (Or.inr ⟨.fetch hb, htip⟩)
    · rw [hrun] at happend
      exact .sync hsyncs (.fetch hb) htip happend
  · have hstays : (syncLocked (m.height - 1) answers n).2 = n :=
      syncLocked_stays fun b hhead hok => hsyncs ⟨m, answers, b, rfl, hbehind, hhead, hok⟩
    refine ⟨?_, fun _ _ => trivial⟩
    rw [hstays]

end NodeM

/-- Every method is a sequence of events. -/
theorem Operation.run_events (o : Operation) (passes : ℕ) (n : Node) :
    ReflTransGen (NodeEvent o n) n (o.run passes n) := by
  refine Leads.path (Q := fun _ _ => True) ?_
  cases o with
  | submitRecords records =>
    exact NodeM.leads_get (Leads.lift_bind fun signed hsigned =>
      NodeM.ingestRecords_leads (Or.inr ⟨records, rfl, hsigned⟩))
  | receiveRecords records => exact NodeM.ingestRecords_leads (Or.inl rfl)
  | submitValidatorChange change => exact NodeM.ingestChanges_leads
  | receiveValidatorChanges changes => exact NodeM.ingestChanges_leads
  | ingestBlock block => exact NodeM.applyPushedBlockLocked_leads (.push block)
  | tick =>
    exact Leads.bind NodeM.setPending_leads fun _ _ _ hr => NodeM.applyLocked_leads passes hr
  | forceTimeout =>
    exact Leads.bind (NodeM.callEngine_leads fun _ _ => .onTimeout) fun _ _ _ hr =>
      NodeM.applyLocked_leads passes hr
  | roundTimer startHeight => exact NodeM.roundTimer_leads
  | onMessage m answers => exact NodeM.onMessage_leads

/-- An event is a move, or an append followed by the call of the commit hook. -/
lemma NodeEvent.moves {o : Operation} {n₀ n n' : Node} (h : NodeEvent o n₀ n n') :
    ReflTransGen (NodeMove o) n n' := by
  cases h with
  | move hmove => exact .single hmove
  | announce happend hfinal hwhy => exact .tail (.single (.append happend hfinal hwhy)) (.emit _)
  | sync _ hblock htip happend => exact .single (.append happend htip.1 (Or.inr ⟨hblock, htip⟩))
  | fail happend hfinal hwhy => exact .single (.append happend hfinal hwhy)
  | @enqueue _ _ fresh keys _ hauthentic hfresh hkeys =>
    refine .single (.enqueueRecords (fun r hr => ?_) (fun r hr => ?_) hkeys)
    · exact (mem_filterM hauthentic (mem_filterM hfresh hr).1).2
    · obtain ⟨-, hkey⟩ := mem_filterM hfresh hr
      obtain ⟨key, hkey, hunseen⟩ := exists_of_map_eq_ok hkey
      exact ⟨key, hkey, of_decide_eq_true hunseen⟩

/-- What moves keep, events keep. -/
lemma NodeEvent.keeps {o : Operation} {P : Node → Prop} {n₀ n n' : Node}
    (hmove : ∀ n n', NodeMove o n n' → P n → P n') (h : NodeEvent o n₀ n n') (hn : P n) : P n' := by
  have hpath := h.moves
  clear h
  induction hpath with
  | refl => exact hn
  | tail _ hm ih => exact hmove _ _ hm ih

/-- Blocks are only added to the repository. -/
lemma NodeMove.repo_isPrefix {o : Operation} {n n' : Node} (h : NodeMove o n n') :
    n.repo <+: n'.repo := by
  cases h with
  | append happend =>
    cases happend with
    | refused => exact List.prefix_refl _
    | stored hrepo => exact ⟨_, (Repository.append_eq_ok hrepo).1.symm⟩
    | forgotten hrepo => exact ⟨_, (Repository.append_eq_ok hrepo).1.symm⟩
    | advanced hrepo => exact ⟨_, (Repository.append_eq_ok hrepo).1.symm⟩
  | _ => exact List.prefix_refl _

lemma NodeEvent.repo_isPrefix {o : Operation} {n₀ n n' : Node} (h : NodeEvent o n₀ n n') :
    n.repo <+: n'.repo :=
  h.keeps (P := fun n' => n.repo <+: n'.repo) (fun _ _ hmove h => h.trans hmove.repo_isPrefix)
    (List.prefix_refl _)

/-- Calls are only added to the history of a node. -/
lemma NodeMove.calls_subset {o : Operation} {n n' : Node} (h : NodeMove o n n') :
    n.calls ⊆ n'.calls := by
  cases h with
  | call => exact List.subset_append_left _ _
  | append happend => cases happend <;> exact List.Subset.refl _
  | _ => exact List.Subset.refl _

lemma NodeEvent.calls_subset {o : Operation} {n₀ n n' : Node} (h : NodeEvent o n₀ n n') :
    n.calls ⊆ n'.calls :=
  h.keeps (P := fun n' => n.calls ⊆ n'.calls) (fun _ _ hmove h => List.Subset.trans h hmove.calls_subset)
    (List.Subset.refl _)

/-- Every method is a sequence of moves. -/
theorem Operation.run_moves (o : Operation) (passes : ℕ) (n : Node) :
    ReflTransGen (NodeMove o) n (o.run passes n) := by
  have hpath := o.run_events passes n
  generalize o.run passes n = n' at hpath ⊢
  induction hpath with
  | refl => exact .refl
  | tail _ hevent ih => exact ih.trans hevent.moves

/-- What moves keep holds after a method. -/
lemma Operation.run_keeps {o : Operation} {P : Node → Prop}
    (hmove : ∀ n n', NodeMove o n n' → P n → P n') (passes : ℕ) {n : Node} (h : P n) :
    P (o.run passes n) := by
  have hpath := o.run_moves passes n
  generalize o.run passes n = n' at hpath ⊢
  induction hpath with
  | refl => exact h
  | tail _ hm ih => exact hmove _ _ hm ih

/-- What events keep holds after a method. -/
lemma Operation.run_keeps_events {o : Operation} {P : Node → Prop} {n : Node}
    (hevent : ∀ n₁ n₂, NodeEvent o n n₁ n₂ → P n₁ → P n₂) (passes : ℕ) (h : P n) :
    P (o.run passes n) := by
  have hpath := o.run_events passes n
  generalize o.run passes n = n' at hpath ⊢
  induction hpath with
  | refl => exact h
  | tail _ hstep ih => exact hevent _ _ hstep ih

/-! ### Runs -/

/-- The consensus message that a method hands to the engine. -/
def Operation.messages : Operation → List ConsensusMessage
  | onMessage m _ => [m]
  | _ => []

omit [Crypto] [Columns] in
lemma Operation.Calls.messages_subset {o : Operation} {n : Node} {e : ConsensusEngine} {c : Call}
    (hc : o.Calls n e c) : c.messages ⊆ o.messages := by
  cases hc with
  | handle ho =>
    rw [ho]
    exact fun _ hm => hm
  | _ => exact nofun

/-- One step of a run whose methods satisfy `ok`: a method, or a restart over the stored blocks and
the journal. -/
inductive Node.Step (ok : Operation → Prop) (n : Node) : Node → Prop
  | operation {o : Operation} (ho : ok o) (passes : ℕ) : Step ok n (o.run passes n)
  | restart {validators : ValidatorSet} {nowMs : ℕ → ℤ} {n' : Node}
      (h : Node.init n.privateKey validators n.repo n.journalStore nowMs = .ok n') : Step ok n n'

/-- A run of a node. -/
def Node.Runs (ok : Operation → Prop) : Node → Node → Prop := ReflTransGen (Node.Step ok)

/-- What the moves of every method keep, and a restart brings back, holds in a run. -/
lemma Node.Runs.induction {ok : Operation → Prop} {P : Node → Prop}
    (hmove : ∀ o, ok o → ∀ n n', NodeMove o n n' → P n → P n')
    (hrestart : ∀ n validators nowMs n', P n →
      Node.init n.privateKey validators n.repo n.journalStore nowMs = .ok n' → P n')
    {n n' : Node} (hrun : Node.Runs ok n n') (h : P n) : P n' := by
  induction hrun with
  | refl => exact h
  | @tail b _ _ hstep ih =>
    cases hstep with
    | operation ho passes => exact Operation.run_keeps (hmove _ ho) passes ih
    | restart hinit => exact hrestart _ _ _ _ ih hinit

/-- The node after a list of methods. -/
def Node.play (n : Node) (passes : ℕ) (os : List Operation) : Node :=
  os.foldl (fun n o => o.run passes n) n

lemma Node.Runs.play {ok : Operation → Prop} {os : List Operation} (h : ∀ o ∈ os, ok o)
    (passes : ℕ) (n : Node) : Node.Runs ok n (n.play passes os) := by
  induction os generalizing n with
  | nil => exact .refl
  | cons o os ih =>
    exact .head (.operation (h o List.mem_cons_self) passes)
      (ih (fun o' ho' => h o' (List.mem_cons_of_mem _ ho')) _)

/-- One step of a run that is followed move by move: a move of a method that `ok` allows on the node that
makes it, or a restart over the stored blocks and the journal. -/
inductive Node.Moves (ok : Node → Operation → Prop) (n : Node) : Node → Prop
  | move {o : Operation} {n' : Node} (ho : ok n o) (hmove : NodeMove o n n') : Moves ok n n'
  | restart {validators : ValidatorSet} {nowMs : ℕ → ℤ} {n' : Node}
      (h : Node.init n.privateKey validators n.repo n.journalStore nowMs = .ok n') : Moves ok n n'

/-- Methods that are allowed whatever the node go move by move. -/
lemma Node.Moves.play {ok : Node → Operation → Prop} {os : List Operation}
    (h : ∀ o ∈ os, ∀ n, ok n o) (passes : ℕ) (n : Node) :
    ReflTransGen (Node.Moves ok) n (n.play passes os) := by
  induction os generalizing n with
  | nil => exact .refl
  | cons o os ih =>
    have hfirst : ReflTransGen (Node.Moves ok) n (o.run passes n) :=
      ReflTransGen.mono (fun _ _ hmove => .move (h o List.mem_cons_self _) hmove) _ _
        (o.run_moves passes n)
    exact hfirst.trans (ih (fun o' ho' => h o' (List.mem_cons_of_mem _ ho')) _)

/-- The states of a node within one process lifetime, between two methods or within one: every step
belongs to a method that was called on a node on which `ok` allows it. -/
def Node.Lives (ok : Node → Operation → Prop) : Node → Node → Prop :=
  ReflTransGen fun n n' => ∃ n₁ o, ok n₁ o ∧ NodeEvent o n₁ n n'

lemma Node.Lives.operation {ok : Node → Operation → Prop} {n₀ n : Node} {o : Operation}
    (hlife : Node.Lives ok n₀ n) (ho : ok n o) (passes : ℕ) :
    Node.Lives ok n₀ (o.run passes n) :=
  hlife.trans (ReflTransGen.mono (fun _ _ h => ⟨n, o, ho, h⟩) _ _ (o.run_events passes n))

lemma Node.Lives.play {ok : Node → Operation → Prop} {os : List Operation}
    (h : ∀ o ∈ os, ∀ n, ok n o) (passes : ℕ) (n : Node) : Node.Lives ok n (n.play passes os) := by
  induction os generalizing n with
  | nil => exact .refl
  | cons o os ih =>
    have hfirst : Node.Lives ok n (o.run passes n) :=
      .operation .refl (h o List.mem_cons_self n) passes
    exact hfirst.trans (ih (fun o' ho' => h o' (List.mem_cons_of_mem _ ho')) _)

/-- What the events of every method keep holds throughout a lifetime. -/
lemma Node.Lives.induction {ok : Node → Operation → Prop} {P : Node → Prop}
    (hevent : ∀ n₁ o, ok n₁ o → ∀ n n', NodeEvent o n₁ n n' → P n → P n') {n n' : Node}
    (hlife : Node.Lives ok n n') (h : P n) : P n' := by
  induction hlife with
  | refl => exact h
  | tail _ hstep ih =>
    obtain ⟨n₁, o, ho, hstep⟩ := hstep
    exact hevent n₁ o ho _ _ hstep ih

/-- What a new node consists of. -/
lemma Node.init_eq_ok {privateKey : PrivateKey} {validators : ValidatorSet} {blocks : List Block}
    {journalStore : JournalStore} {nowMs : ℕ → ℤ} {n : Node}
    (h : Node.init privateKey validators blocks journalStore nowMs = .ok n) :
    ∃ repo active engine,
      (repo = blocks ∨ ∃ genesis, genesisBlock validators = .ok genesis ∧
        Repository.append blocks genesis = .ok repo) ∧
      deriveValidatorSet (repo.flatMap (·.validatorChanges)) = .ok active ∧
      { privateKey, active, repo, journalStore, nowMs : Node }.newEngine = .ok engine ∧
      n = { privateKey, active, repo, journalStore, nowMs, engine } := by
  -- the rest of the construction, once the repository has its blocks
  have hrest : ∀ repo, (do
      let active ← deriveValidatorSet (repo.flatMap (·.validatorChanges))
      let node : Node := { privateKey, active, repo, journalStore, nowMs }
      let engine ← node.newEngine
      return { node with engine }) = Except.ok n →
      ∃ active engine, deriveValidatorSet (repo.flatMap (·.validatorChanges)) = .ok active ∧
        { privateKey, active, repo, journalStore, nowMs : Node }.newEngine = .ok engine ∧
        n = { privateKey, active, repo, journalStore, nowMs, engine } := by
    intro repo hn
    cases hactive : deriveValidatorSet (repo.flatMap (·.validatorChanges)) with
    | error err => simp only [hactive, bind, Except.bind] at hn; cases hn
    | ok active =>
      cases hengine : { privateKey, active, repo, journalStore, nowMs : Node }.newEngine with
      | error err => simp only [hactive, hengine, bind, Except.bind] at hn; cases hn
      | ok engine =>
        simp only [hactive, hengine, bind, Except.bind, pure, Except.pure] at hn
        cases hn
        exact ⟨active, engine, rfl, hengine, rfl⟩
  unfold Node.init at h
  split_ifs at h with hempty
  · cases hgenesis : genesisBlock validators with
    | error err => rw [hgenesis] at h; cases h
    | ok genesis =>
      rw [hgenesis] at h
      change (Repository.append blocks genesis >>= _) = _ at h
      cases hrepo : Repository.append blocks genesis with
      | error err => rw [hrepo] at h; cases h
      | ok repo =>
        rw [hrepo] at h
        obtain ⟨active, engine, hactive, hengine, hn⟩ := hrest repo h
        exact ⟨repo, active, engine, Or.inr ⟨genesis, rfl, hrepo⟩, hactive, hengine, hn⟩
  · obtain ⟨active, engine, hactive, hengine, hn⟩ := hrest blocks h
    exact ⟨blocks, active, engine, Or.inl rfl, hactive, hengine, hn⟩

end Helix
