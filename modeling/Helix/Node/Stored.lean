import Helix.Consensus.Bodies
import Helix.Node.Moves

/-!
# What is stored is what was sealed

Seals cover the hash of a header, so the records and the membership changes of a block are bound to
it by the Merkle root only. The engine checks the root of a proposal that it receives; the blocks
that peers push, that a fetch returns and that come with ROUND_CHANGEs are not checked. When these
are consistent, every block that a node holds is.
-/

namespace Helix

variable [Crypto] [Columns]

open Relation (ReflTransGen)

/-- The records and the membership changes are those that the header commits to. -/
def Block.Consistent (b : Block) : Prop := b.hasConsistentMerkleRoot = .ok true

instance (b : Block) : Decidable b.Consistent := inferInstanceAs (Decidable (_ = _))

/-- The rule that every block is consistent. -/
def BlockRule.consistent : BlockRule where
  block := Block.Consistent
  row row := ∀ block cert, row.entry = .prepared block cert → block.Consistent
  items _ _ := True
  addCommitSignature _ _ h := h

omit [Columns] in
lemma ConsensusEngine.builds_consistent (e : ConsensusEngine) : e.Builds .consistent :=
  fun _ _ _ _ _ hcreate => (Block.create_consistent hcreate).1

/-! ### The node -/

/-- What a method brings is consistent: the pushed and fetched blocks that can be stored next, and the
blocks attached to the ROUND_CHANGEs that the engine stores. -/
structure Operation.Bodied (o : Operation) (n : Node) : Prop where
  supplied : ∀ b repo, o.Supplies b → n.ExtendsTip b → Repository.append n.repo b = .ok repo →
    b.Consistent
  attached : ∀ e ∈ n.engine, ∀ c, o.Calls n e c → ∀ m, c.Stores e m → ∀ b ∈ m.block, b.Consistent

lemma Operation.Bodied.clean {o : Operation} {n : Node} (ho : o.Bodied n) {e : ConsensusEngine}
    (he : n.engine = some e) {c : Call} (hc : o.Calls n e c) : c.Clean .consistent e where
  items _ := trivial
  proposed b hb := by
    obtain ⟨_, -, -, -, hvalid⟩ := hb.exists_mem
    exact ((e.structurallyValid_eq_ok b).mp hvalid).2.2
  attached := ho.attached e he c hc

/-- The blocks that a node stores or can come to store are consistent. -/
structure Node.Bodied (n : Node) : Prop where
  repo : ∀ b ∈ n.repo, b.Consistent
  engine : ∀ e ∈ n.engine, e.Carries .consistent
  store : n.journalStore.Carries .consistent
  returned : ∀ b ∈ n.returned, b.Consistent

omit [Columns] in
lemma Node.bodied_newEngine {n : Node} (hn : n.journalStore.Carries .consistent)
    {engine : Option ConsensusEngine} (h : n.newEngine = .ok engine) :
    ∀ e ∈ engine, e.Carries .consistent := by
  intro e he
  rcases Node.newEngine_eq_ok h with rfl | ⟨-, latest, hash, -, -, rfl⟩
  · cases he
  · cases he
    refine .initial (hn.view ?_ ?_) _ _ _ _ _
    · exact fun r block cert hrow => hrow block cert rfl
    · exact fun r entry hentry => hentry

lemma Node.Bodied.move {o : Operation} {n n' : Node} (ho : o.Bodied n) (hmove : NodeMove o n n')
    (h : n.Bodied) : n'.Bodied := by
  cases hmove with
  | @call e c he hc returned hreturned =>
    have hframe := (c.run_moves e).carries (ho.clean he hc) e.builds_consistent (h.engine e he)
    refine ⟨h.repo, fun e' he' => ?_, h.store.sync hframe.engine.journal, fun b hb => ?_⟩
    · cases he'
      exact hframe.engine
    · rcases hreturned with rfl | rfl
      · exact h.returned b hb
      · exact hframe.committed b hb
  | @append block result n' happend hfinal hwhy =>
    have hrepo : ∀ {repo}, Repository.append n.repo block = .ok repo → ∀ b ∈ repo, b.Consistent := by
      intro repo hrepo
      have hblock : block.Consistent := by
        rcases hwhy with hreturned | ⟨hsupplied, htip⟩
        · exact h.returned _ hreturned
        · exact ho.supplied _ repo hsupplied htip hrepo
      intro b hb
      obtain ⟨rfl, -, -⟩ := Repository.append_eq_ok hrepo
      rcases List.mem_append.mp hb with hb | hb
      · exact h.repo b hb
      · exact List.mem_singleton.mp hb ▸ hblock
    have hstore := h.store.pruneBelow (block.index + 1)
    cases happend with
    | refused => exact h
    | stored hstored => exact ⟨hrepo hstored, h.engine, h.store, nofun⟩
    | forgotten hstored =>
      refine ⟨hrepo hstored, fun e he => ?_, hstore, nofun⟩
      obtain ⟨e', he', rfl⟩ := Option.map_eq_some_iff.mp he
      have hbodied := h.engine e' he'
      exact ⟨hbodied.proposal, hbodied.lock, hbodied.changes, hstore.refresh hbodied.journal⟩
    | @advanced repo keys pending active engine hstored hkeys hpending hactive hengine =>
      have hnew := bodied_newEngine
        (n := { n.forgetting block repo pending keys with active }) hstore hengine
      exact ⟨hrepo hstored, hnew, hstore, nofun⟩
  | reset hreturned hfinal hengine =>
    exact ⟨h.repo, bodied_newEngine h.store hengine, h.store, nofun⟩
  | _ => exact ⟨h.repo, h.engine, h.store, h.returned⟩

lemma Node.Bodied.init {privateKey : PrivateKey} {validators : ValidatorSet} {blocks : List Block}
    {journalStore : JournalStore} {nowMs : ℕ → ℤ} {n : Node}
    (hblocks : ∀ b ∈ blocks, b.Consistent) (hstore : journalStore.Carries .consistent)
    (h : Node.init privateKey validators blocks journalStore nowMs = .ok n) : n.Bodied := by
  obtain ⟨repo, active, engine, hrepo, -, hengine, rfl⟩ := Node.init_eq_ok h
  refine ⟨fun b hb => ?_, Node.bodied_newEngine hstore hengine, hstore, nofun⟩
  rcases hrepo with rfl | ⟨genesis, hgenesis, happend⟩
  · exact hblocks b hb
  · obtain ⟨rfl, -, -⟩ := Repository.append_eq_ok happend
    rcases List.mem_append.mp hb with hb | hb
    · exact hblocks b hb
    · rw [List.mem_singleton.mp hb]
      exact (Block.create_consistent hgenesis).1

omit [Columns] in
/-- A fetched genesis block is adopted only if it is consistent. -/
lemma consistent_of_isValidGenesis {block : Block} (h : isValidGenesis block = .ok true) :
    block.Consistent := by
  unfold isValidGenesis at h
  split_ifs at h
  · cases hroot : block.hasConsistentMerkleRoot with
    | error err => rw [hroot] at h; cases h
    | ok consistent =>
      rw [hroot] at h
      simp only [Except.map, Except.ok.injEq, Bool.and_eq_true] at h
      rw [Block.Consistent, hroot, h.1.1.1]
  · cases h

end Helix
