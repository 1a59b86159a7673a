import Helix.Consensus.Tallies
import Helix.Node.Moves

/-!
# What the engine commits is final

The engine counts seals by the text that names their sender, and the verifier recounts the block by
key. The two agree when the COMMITs handed in name every validator in one way only; then a node
never refuses a block of its own engine.
-/

namespace Helix

variable [Crypto] [Columns]

/-! ### The engine -/

omit [Columns] in
/-- What an engine decides in a run, a quorum of validators has sealed. -/
lemma Validator.Calls.finalizedBy (σ : Spelling) {v₀ v : Validator}
    (hrun : Validator.Calls (fun _ c => ∀ m ∈ c.messages, σ.SpellsCommit m) v₀ v)
    (h₀ : Tallied σ.SpellsCommit v₀.engine)
    (hme : σ.spell v₀.engine.me = v₀.engine.me.toHex) (hdecided : v₀.decided = []) :
    Tallied σ.SpellsCommit v.engine ∧ σ.spell v.engine.me = v.engine.me.toHex ∧
      ∀ b ∈ v.decided, b.FinalizedBy v.engine.validators := by
  induction hrun with
  | refl =>
    refine ⟨h₀, hme, fun b hb => ?_⟩
    rw [hdecided] at hb
    cases hb
  | @tail v _ _ hstep ih =>
    obtain ⟨c, hc, rfl⟩ := hstep
    obtain ⟨htallied, hspell, hfinal⟩ := ih
    have hsince := v.since_call c
    obtain ⟨htallied', hfinal'⟩ := (c.run_moves v.engine).tallied σ htallied hspell hc
    refine ⟨htallied', hsince.me ▸ hspell, fun b hb => ?_⟩
    rw [hsince.validators]
    rcases List.mem_append.mp hb with hb | hb
    · exact hfinal b hb
    · exact hfinal' b (Option.mem_toList.mp hb)

/-! ### The node -/

/-- The engine of a node counts for the active set, and what it returns is final. -/
structure Node.Counts (σ : Spelling) (n : Node) : Prop where
  canonical : σ.spell n.me = n.me.toHex
  engine : ∀ e, n.engine = some e →
    e.validators = n.active ∧ e.me = n.me ∧ Tallied σ.SpellsCommit e
  returned : ∀ b, n.returned = some b → b.FinalizedBy n.active
  refused : n.refused = []

variable {σ : Spelling}

omit [Columns] in
/-- A new engine counts for the active set. -/
lemma Node.counts_newEngine {n : Node} {engine : Option ConsensusEngine}
    (h : n.newEngine = .ok engine) (e : ConsensusEngine) (he : engine = some e) :
    e.validators = n.active ∧ e.me = n.me ∧ Tallied σ.SpellsCommit e := by
  subst he
  rcases Node.newEngine_eq_ok h with hnone | ⟨hme, latest, hash, -, -, he⟩
  · cases hnone
  · cases he
    exact ⟨rfl, rfl, Tallied.initial hme _ _ _ _⟩

lemma Node.Counts.move {o : Operation} {n n' : Node} (hmove : NodeMove o n n')
    (ho : ∀ m ∈ o.messages, σ.SpellsCommit m) (h : n.Counts σ) : n'.Counts σ := by
  cases hmove with
  | @call e c he hc returned hreturned =>
    obtain ⟨hvalidators, hme, htallied⟩ := h.engine e he
    have hmessages : ∀ m ∈ c.messages, σ.SpellsCommit m := fun m hm => ho m (hc.messages_subset hm)
    have hsince := (c.run_moves e).since
    obtain ⟨htallied', hfinal⟩ := (c.run_moves e).tallied σ htallied
      (by rw [hme]; exact h.canonical) hmessages
    refine ⟨h.canonical, fun e' he' => ?_, fun b hb => ?_, h.refused⟩
    · cases he'
      exact ⟨hsince.validators.trans hvalidators, hsince.me.trans hme, htallied'⟩
    · rcases hreturned with rfl | rfl
      · exact h.returned b hb
      · exact hvalidators ▸ hfinal b hb
  | append happend hfinal hwhy =>
    cases happend with
    | refused => exact h
    | stored => exact ⟨h.canonical, h.engine, nofun, h.refused⟩
    | forgotten =>
      refine ⟨h.canonical, fun e he => ?_, nofun, h.refused⟩
      obtain ⟨e', he', rfl⟩ := Option.map_eq_some_iff.mp he
      obtain ⟨hvalidators, hme, htallied⟩ := h.engine e' he'
      exact ⟨hvalidators, hme, htallied.me, htallied.buffer, htallied.prepares, htallied.commits⟩
    | advanced hrepo hkeys hpending hactive hengine =>
      exact ⟨h.canonical, Node.counts_newEngine hengine, nofun, h.refused⟩
  | refuse hreturned hfinal =>
    -- the verifier accepts what the engine has returned
    rw [(h.returned _ hreturned).verifies] at hfinal
    cases hfinal
  | reset hreturned hfinal hengine =>
    exact ⟨h.canonical, Node.counts_newEngine hengine, nofun, h.refused⟩
  | _ => exact ⟨h.canonical, h.engine, h.returned, h.refused⟩

lemma Node.Counts.init {privateKey : PrivateKey}
    (hme : σ.spell privateKey.publicKey = privateKey.publicKey.toHex) {validators : ValidatorSet}
    {blocks : List Block} {journalStore : JournalStore} {nowMs : ℕ → ℤ} {n : Node}
    (h : Node.init privateKey validators blocks journalStore nowMs = .ok n) : n.Counts σ := by
  obtain ⟨repo, active, engine, -, -, hengine, rfl⟩ := Node.init_eq_ok h
  exact ⟨hme, Node.counts_newEngine hengine, nofun, rfl⟩

/-- When the COMMITs handed in name each validator by one spelling, the own one by that of `to_hex`,
the verifier accepts every block that the engine returns as committed, and the node refuses none. -/
theorem engine_commits_verify (σ : Spelling) {privateKey : PrivateKey}
    (hme : σ.spell privateKey.publicKey = privateKey.publicKey.toHex) :
    (∀ validators height previousHash nowMs journal e,
      ConsensusEngine.new validators privateKey height previousHash nowMs journal = .ok e →
      ∀ v, Validator.Calls (fun _ c => ∀ m ∈ c.messages, σ.SpellsCommit m) { engine := e } v →
      ∀ b ∈ v.decided, verifyFinality b v.engine.validators = .ok true) ∧
    (∀ validators blocks journalStore nowMs n₀,
      Node.init privateKey validators blocks journalStore nowMs = .ok n₀ →
      ∀ n, Node.Runs (fun o => ∀ m ∈ o.messages, σ.SpellsCommit m) n₀ n → n.refused = []) := by
  constructor
  · intro validators height previousHash nowMs journal e hnew v hrun b hb
    obtain ⟨hmem, rfl⟩ := ConsensusEngine.new_eq_ok.mp hnew
    obtain ⟨-, -, hfinal⟩ := hrun.finalizedBy σ (Tallied.initial hmem _ _ _ _) hme rfl
    exact (hfinal b hb).verifies
  · intro validators blocks journalStore nowMs n₀ hinit n hrun
    have hcounts : n.Counts σ := by
      refine hrun.induction (fun o ho n n' hmove h => h.move hmove ho) ?_ (.init hme hinit)
      exact fun n validators nowMs n' h hinit => .init h.canonical hinit
    exact hcounts.refused

omit [Crypto] [Columns] in
/-- One of four validators gets a proposal with two PREPAREs and two COMMITs of others, and its node stores
the block that the engine decides. -/
theorem engine_commits_verify_of_quartet :
    letI := Crypto.checksums
    letI := Columns.sqlite
    let next := Block.afterGenesis .quartet 0
    let ms : List ConsensusMessage := [.ofSeed 0xbb .PRE_PREPARE 0 next, .ofSeed 0xbb .PREPARE 0 next,
      .ofSeed 0xcc .PREPARE 0 next, .ofSeed 0xbb .COMMIT 0 next, .ofSeed 0xcc .COMMIT 0 next]
    ∃ n₀, Node.init (seedKey 0xaa) .quartet [] .null (fun i => i) = .ok n₀ ∧
      (n₀.play 1 (ms.map fun m => .onMessage m [])).repo.map (fun block => block.commitSignatures.len) =
        [0, 3] ∧
      (n₀.play 1 (ms.map fun m => .onMessage m [])).refused = [] := by
  let := Crypto.checksums
  let := Columns.sqlite
  intro next ms
  have hrun : (Node.init (seedKey 0xaa) .quartet [] .null fun i => i).map (fun n₀ =>
      (n₀.play 1 (ms.map fun m => .onMessage m [])).repo.map fun block => block.commitSignatures.len) =
      .ok [0, 3] := by
    decide +kernel
  obtain ⟨n₀, hinit, hseals⟩ := exists_of_map_eq_ok hrun
  have hsenders : ∀ m ∈ ms, m.sender = (seedPublic 0xbb).toHex ∨ m.sender = (seedPublic 0xcc).toHex := by
    decide +kernel
  refine ⟨n₀, hinit, hseals, ?_⟩
  refine (engine_commits_verify .canonical rfl).2 _ _ _ _ n₀ hinit _ (.play (fun o ho m hm _ => ?_) 1 n₀)
  obtain ⟨m', hm', rfl⟩ := List.mem_map.mp ho
  rw [List.mem_singleton.mp hm]
  rcases hsenders m' hm' with h | h
  · exact Spelling.spells_canonical h
  · exact Spelling.spells_canonical h

omit [Crypto] [Columns] in
/-- A validator that gets its own COMMIT again under another spelling of its key decides with one
seal of two, and its node refuses the block. -/
theorem own_commit_counted_twice :
    letI := Crypto.checksums
    letI := Columns.sqlite
    let respelled (m : ConsensusMessage) :=
      { m with sender := List.replicate 64 (.ofNat 65) }
    let block := Block.ofTimestamp 0
    let v := [Call.handle (.ofSeed 0xbb .PRE_PREPARE 0 block),
      .handle (.ofSeed 0xbb .PREPARE 0 block),
      .handle (respelled (.ofSeed 0xaa .COMMIT 0 block))].foldl Validator.call
        { engine := .ofSeed .pair 0xaa .null }
    let next := Block.afterGenesis .pair 0
    let os := [Operation.onMessage (.ofSeed 0xbb .PRE_PREPARE 0 next) [],
      .onMessage (.ofSeed 0xbb .PREPARE 0 next) [],
      .onMessage (respelled (.ofSeed 0xaa .COMMIT 0 next)) []]
    v.decided.map (verifyFinality · v.engine.validators) = [.ok false] ∧
    (Node.init (seedKey 0xaa) .pair [] .null fun i => i).map
      (fun n₀ => (n₀.play 2 os).refused.length) = .ok 1 := by
  decide +kernel

end Helix
