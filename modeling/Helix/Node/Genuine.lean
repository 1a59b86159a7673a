import Helix.Consensus.Genuine
import Helix.Node.Imports
import Helix.Node.Votes

/-!
# Stored seals

Before a block is stored, its finality is verified: there is a quorum of valid seals. What else stands
among its commit signatures is not looked at, and stays. So the seals of the stored blocks are all genuine
if the blocks that a node is handed carry no others (`stored_seals_genuine`).
-/

namespace Helix

variable [Crypto] [Columns]

open Relation (ReflTransGen)

/-- What a method brings carries genuine seals only: the pushed and fetched blocks that get stored, and
what comes with the calls on the engine. -/
structure Operation.Sincere (o : Operation) (n : Node) : Prop where
  supplied : ∀ b repo, o.Supplies b → n.ExtendsTip b → Repository.append n.repo b = .ok repo →
    b.Genuine n.active
  calls : ∀ e ∈ n.engine, ∀ c, o.Calls n e c → c.Sincere e

namespace Node

/-- One step of a node: a move of one of its methods, or a restart that replays to the set that was
active. -/
inductive Goes (n : Node) : Node → Prop
  | move {o : Operation} {n' : Node} (ho : o.Sincere n) (hmove : NodeMove o n n') : Goes n n'
  | restart {validators : ValidatorSet} {nowMs : ℕ → ℤ} {n' : Node}
      (h : Node.init n.privateKey validators n.repo n.journalStore nowMs = .ok n')
      (hactive : n'.active = n.active) : Goes n n'

/-- A method goes move by move. -/
lemma Goes.operation {o : Operation} {n : Node} (ho : ∀ m, ReflTransGen (NodeMove o) n m → o.Sincere m)
    (passes : ℕ) : ReflTransGen Goes n (o.run passes n) := by
  have hpath := o.run_moves passes n
  generalize o.run passes n = n' at hpath ⊢
  induction hpath with
  | refl => exact .refl
  | tail hpath hmove ih => exact ih.tail (.move (ho _ hpath) hmove)

/-! ### What a node holds -/

/-- The engine works for the active set, and the blocks that the node can come to store by itself have
genuine seals. -/
structure Genuine (n : Node) : Prop where
  engine : ∀ e ∈ n.engine, e.validators = n.active ∧ e.Genuine n.active (n.height + 1) ∧
    Tallied (fun _ => True) e
  store : n.journalStore.Genuine n.active (n.height + 1)
  returned : ∀ b ∈ n.returned, b.Genuine n.active

omit [Columns] in
lemma genuine_newEngine {n : Node} (hn : n.journalStore.Genuine n.active (n.height + 1))
    {engine : Option ConsensusEngine} (h : n.newEngine = .ok engine) :
    ∀ e ∈ engine, e.validators = n.active ∧ e.Genuine n.active (n.height + 1) ∧
      Tallied (fun _ => True) e := by
  intro e he
  rcases newEngine_eq_ok h with rfl | ⟨hme, latest, hash, hlast, -, rfl⟩
  · cases he
  · cases he
    have hheight : n.height = latest.index := by
      rw [height, Repository.height, hlast]
      rfl
    rw [hheight] at hn ⊢
    exact ⟨rfl, .initial hn.view _ _ _ _ _, .initial hme _ _ _ _⟩

variable {n n' : Node}

omit [Columns] in
lemma genuine_of_returned_none (h : n.returned = none) : ∀ b ∈ n.returned, b.Genuine n.active := by
  intro b hb
  rw [h] at hb
  cases hb

lemma Genuine.append (h : n.Genuine) {block : Block} {result : Except PyError Unit}
    (happend : n.Appends block result n') : n'.Genuine := by
  cases happend with
  | refused => exact h
  | stored hrepo =>
    have hheight := height_eq_of_append hrepo
    refine ⟨fun e he => ?_, ?_, genuine_of_returned_none rfl⟩ <;> simp only [height, hheight]
    · obtain ⟨hvalidators, hgenuine, htallied⟩ := h.engine e he
      exact ⟨hvalidators, hgenuine.next, htallied⟩
    · exact h.store.next
  | @forgotten repo keys pending err hrepo =>
    have hheight : (n.forgetting block repo pending keys).height = n.height + 1 :=
      height_eq_of_append hrepo
    have hstore : (n.journalStore.pruneBelow (block.index + 1)).Genuine n.active (n.height + 1 + 1) :=
      (h.store.pruneBelow (block.index + 1)).next
    refine ⟨fun e he => ?_, ?_, genuine_of_returned_none rfl⟩
    · obtain ⟨e', he', rfl⟩ := Option.map_eq_some_iff.mp he
      obtain ⟨hvalidators, hgenuine, htallied⟩ := h.engine e' he'
      rw [hheight]
      exact ⟨hvalidators, ⟨hgenuine.proposal, hgenuine.lock, hgenuine.changes,
        hstore.refresh hgenuine.journal.next⟩, htallied.me, htallied.buffer, htallied.prepares,
        htallied.commits⟩
    · rw [hheight]
      exact hstore
  | @advanced repo keys pending active engine hrepo hkeys hpending hactive hengine =>
    have hheight : ({ n.forgetting block repo pending keys with active } : Node).height =
        n.height + 1 := height_eq_of_append hrepo
    have hstore : (n.journalStore.pruneBelow (block.index + 1)).Genuine active (n.height + 1 + 1) :=
      (h.store.pruneBelow (block.index + 1)).next
    rw [← hheight] at hstore
    exact ⟨genuine_newEngine (n := { n.forgetting block repo pending keys with active }) hstore hengine,
      hstore, genuine_of_returned_none rfl⟩

lemma Genuine.move {o : Operation} (ho : o.Sincere n) (hmove : NodeMove o n n') (h : n.Genuine) :
    n'.Genuine := by
  cases hmove with
  | @call e c he hc returned hreturned =>
    obtain ⟨hvalidators, hgenuine, htallied⟩ := h.engine e he
    rw [← hvalidators] at hgenuine
    obtain ⟨hframe, htallied'⟩ := (c.run_moves e).genuine (ho.calls e he c hc) htallied hgenuine
    have hsince := (c.run_moves e).since
    rw [hvalidators] at hframe
    refine ⟨fun e' he' => ?_, h.store.sync hframe.engine.journal, fun b hb => ?_⟩
    · cases he'
      exact ⟨hsince.validators.trans hvalidators, hframe.engine, htallied'⟩
    · rcases hreturned with rfl | rfl
      · exact h.returned b hb
      · exact hframe.committed b hb
  | append happend => exact h.append happend
  | reset hreturned hfinal hengine =>
    exact ⟨genuine_newEngine (n := { n with }) h.store hengine, h.store, genuine_of_returned_none rfl⟩
  | _ => exact ⟨h.engine, h.store, h.returned⟩

lemma Genuine.init {privateKey : PrivateKey} {validators : ValidatorSet} {blocks : List Block}
    {journalStore : JournalStore} {nowMs : ℕ → ℤ} (hstore : journalStore.Genuine n.active (n.height + 1))
    (h : Node.init privateKey validators blocks journalStore nowMs = .ok n) : n.Genuine := by
  obtain ⟨repo, active, engine, -, -, hengine, rfl⟩ := Node.init_eq_ok h
  exact ⟨genuine_newEngine (n := { privateKey, active, repo, journalStore, nowMs }) hstore hengine,
    hstore, genuine_of_returned_none rfl⟩

/-! ### The active set -/

/-- The repository has its genesis block, and the active set is the one that the stored blocks lead to,
if all of them could be applied. -/
structure InStep (n : Node) : Prop where
  nonempty : n.repo ≠ []
  height : 0 ≤ n.height
  keyed : n.Keyed
  active : ∀ V, (∀ b ∈ n.repo, b.Keyed) → validatorsAfter n.repo = .ok V → n.active = V

lemma InStep.append (h : n.InStep) {block : Block} {result : Except PyError Unit}
    (happend : n.Appends block result n') (hkeyed : n'.Keyed) : n'.InStep := by
  have hstored : ∀ {repo}, Repository.append n.repo block = .ok repo → repo ≠ [] ∧
      0 ≤ Repository.height repo := by
    intro repo hrepo
    have hheight := height_eq_of_append hrepo
    obtain ⟨rfl, -, -⟩ := Repository.append_eq_ok hrepo
    have hpos := h.height
    exact ⟨by simp, by omega⟩
  -- the set that the blocks lead to, by the last of them
  have hlast : ∀ {repo V}, Repository.append n.repo block = .ok repo → (∀ b ∈ repo, b.Keyed) →
      validatorsAfter repo = .ok V → block.Keyed ∧ applyChanges n.active block.validatorChanges = .ok V := by
    intro repo V hrepo hrepoKeyed hV
    obtain ⟨rfl, -, -⟩ := Repository.append_eq_ok hrepo
    obtain ⟨V₀, hV₀, happly⟩ := (validatorsAfter_concat h.nonempty).mp hV
    rw [h.active V₀ (fun b hb => hrepoKeyed b (List.mem_append_left _ hb)) hV₀]
    exact ⟨hrepoKeyed block (List.mem_append_right _ List.mem_cons_self), happly⟩
  cases happend with
  | refused => exact h
  | stored hrepo hraise =>
    refine ⟨(hstored hrepo).1, (hstored hrepo).2, hkeyed, fun V hrepoKeyed hV => ?_⟩
    obtain ⟨r, hr, herr⟩ := hraise
    have hkey : ∃ key, r.contentKey = .ok key := by
      rcases hr with hr | hr
      · exact (hlast hrepo hrepoKeyed hV).1 r hr
      · exact h.keyed r hr
    obtain ⟨key, hkey⟩ := hkey
    rw [herr] at hkey
    cases hkey
  | forgotten hrepo hkeys hpending hchanges herr =>
    refine ⟨(hstored hrepo).1, (hstored hrepo).2, hkeyed, fun V hrepoKeyed hV => ?_⟩
    have happly := (hlast hrepo hrepoKeyed hV).2
    rw [herr] at happly
    cases happly
  | advanced hrepo hkeys hpending hactive hengine =>
    refine ⟨(hstored hrepo).1, (hstored hrepo).2, hkeyed, fun V hrepoKeyed hV => ?_⟩
    have happly := (hlast hrepo hrepoKeyed hV).2
    exact Except.ok.inj (hactive.symm.trans happly)

lemma InStep.move {o : Operation} (hmove : NodeMove o n n') (h : n.InStep) : n'.InStep := by
  have hkeyed := h.keyed.move hmove
  cases hmove with
  | append happend => exact h.append happend hkeyed
  | _ => exact ⟨h.nonempty, h.height, hkeyed, h.active⟩

/-- A node on a genesis block. -/
lemma InStep.init {privateKey : PrivateKey} {validators : ValidatorSet} {blocks : List Block}
    {journalStore : JournalStore} {nowMs : ℕ → ℤ}
    (hblocks : blocks = [] ∨ ∃ genesis, blocks = [genesis] ∧ genesis.index = 0)
    (h : Node.init privateKey validators blocks journalStore nowMs = .ok n) :
    n.InStep ∧ n.repo.length = 1 := by
  have himported : n.Imported := .init hblocks h
  have hlength : n.repo.length = 1 := by
    obtain ⟨repo, active, engine, hrepo, hactive, -, rfl⟩ := Node.init_eq_ok h
    rcases hrepo with rfl | ⟨genesis, hgenesis, happend⟩
    · rcases hblocks with rfl | ⟨genesis, rfl, -⟩
      · cases hactive
      · rfl
    · obtain ⟨-, hzero, -⟩ := Block.create_consistent hgenesis
      obtain ⟨rfl, hindex, -⟩ := Repository.append_eq_ok happend
      rcases hblocks with rfl | ⟨first, rfl, hfirst⟩
      · rfl
      · rw [hzero, Repository.height] at hindex
        simp [hfirst] at hindex
  refine ⟨⟨himported.nonempty, ?_, .init h, fun V _ hV => himported.active V hV⟩, hlength⟩
  obtain ⟨genesis, hgenesis⟩ := List.length_eq_one_iff.mp hlength
  have hindex := himported.index 0 genesis (by rw [hgenesis]; rfl)
  rw [Node.height, Repository.height, hgenesis]
  exact hindex.ge

/-- A restart finds the repository as it was. -/
lemma InStep.restart_repo (h : n.InStep) {validators : ValidatorSet} {nowMs : ℕ → ℤ}
    (hinit : Node.init n.privateKey validators n.repo n.journalStore nowMs = .ok n') :
    n'.repo = n.repo ∧ n'.journalStore = n.journalStore := by
  obtain ⟨repo, active, engine, hrepo, -, -, rfl⟩ := Node.init_eq_ok hinit
  rcases hrepo with rfl | ⟨genesis, hgenesis, happend⟩
  · exact ⟨rfl, rfl⟩
  · -- a repository that holds a block gets no genesis block
    obtain ⟨-, hzero, -⟩ := Block.create_consistent hgenesis
    obtain ⟨-, hindex, -⟩ := Repository.append_eq_ok happend
    have hpos := h.height
    rw [hzero] at hindex
    rw [Node.height] at hpos
    omega

/-! ### Runs -/

/-- What holds at every point of a run. -/
structure Sound (n : Node) : Prop where
  genuine : n.Genuine
  inStep : n.InStep

lemma Sound.step (hstep : Goes n n') (h : n.Sound) : n'.Sound := by
  cases hstep with
  | move ho hmove => exact ⟨h.genuine.move ho hmove, h.inStep.move hmove⟩
  | restart hinit hactive =>
    obtain ⟨hrepo, hstore⟩ := h.inStep.restart_repo hinit
    have hheight : n'.height = n.height := by rw [height, height, hrepo]
    refine ⟨.init ?_ hinit, ⟨hrepo ▸ h.inStep.nonempty, hheight ▸ h.inStep.height, .init hinit, ?_⟩⟩
    · rw [hactive, hheight]
      exact h.genuine.store
    · rw [hrepo, hactive]
      exact h.inStep.active

lemma Sound.run {n₀ : Node} (hrun : ReflTransGen Goes n₀ n) (h : n₀.Sound) : n.Sound := by
  induction hrun with
  | refl => exact h
  | tail _ hstep ih => exact ih.step hstep

end Node

end Helix
