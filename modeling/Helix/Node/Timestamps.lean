import Helix.Consensus.Timing
import Helix.Domain.Chain
import Helix.Node.Moves

/-!
# The order of timestamps

`validate_next` of the in-memory chain rejects a block that is older than the one before it. The running
nodes use other checks, of proposals and of blocks from peers, and none of them looks at timestamps. So
the stored timestamps are in order as long as every block is built by a clock that does not read less
than the timestamp of the tip, and the blocks attached to ROUND_CHANGEs, whose links are not checked
either, are structurally valid.
-/

namespace Helix

variable [Crypto] [Columns]

open Relation (ReflTransGen)

/-! ### Blocks in order -/

/-- The block can be hashed, extends a block of the list and is not older than that one. -/
def Block.Follows (b : Block) (blocks : List Block) : Prop :=
  (∃ x, b.hash = .ok x) ∧ ∃ tip ∈ blocks, tip.index + 1 = b.index ∧
    tip.hash = .ok b.header.previousHash ∧ tip.header.timestamp ≤ b.header.timestamp

omit [Columns] in
lemma Block.Follows.mono {b : Block} {blocks blocks' : List Block} (h : b.Follows blocks)
    (hsub : blocks ⊆ blocks') : b.Follows blocks' := by
  obtain ⟨hhash, tip, htip, hrest⟩ := h
  exact ⟨hhash, tip, hsub htip, hrest⟩

/-- The rule that every block follows one of the list. -/
def BlockRule.follows (blocks : List Block) : BlockRule where
  block b := b.Follows blocks
  row row := ∀ block cert, row.entry = .prepared block cert → block.Follows blocks
  items _ _ := True
  addCommitSignature _ _ h := h

/-- The blocks of a repository, in order: each stands where its index says and, but for the first one,
follows another one. -/
structure Ordered (blocks : List Block) : Prop where
  nonempty : blocks ≠ []
  index : ∀ (i : ℕ) b, blocks[i]? = some b → b.index = i
  follows : ∀ b ∈ blocks, b.index = 0 ∨ b.Follows blocks

namespace Ordered

variable {blocks : List Block}

omit [Columns] in
lemma height_eq (h : Ordered blocks) : Repository.height blocks = blocks.length - 1 := by
  have hpos := List.length_pos_of_ne_nil h.nonempty
  have hlast := List.getLast?_eq_some_getLast h.nonempty
  rw [Repository.height, hlast, Option.map_some, Option.getD_some]
  rw [List.getLast?_eq_getElem?] at hlast
  rw [h.index _ _ hlast]
  omega

lemma append (h : Ordered blocks) {block : Block} (hfollows : block.Follows blocks)
    {repo : List Block} (hrepo : Repository.append blocks block = .ok repo) : Ordered repo := by
  obtain ⟨rfl, hindex, -⟩ := Repository.append_eq_ok hrepo
  rw [h.height_eq] at hindex
  have hsub : blocks ⊆ blocks ++ [block] := List.subset_append_left _ _
  refine ⟨by simp, fun i b hb => ?_, fun b hb => ?_⟩
  · rcases lt_or_ge i blocks.length with hi | hi
    · rw [List.getElem?_append_left hi] at hb
      exact h.index i b hb
    · rw [List.getElem?_append_right hi, List.getElem?_singleton] at hb
      split_ifs at hb with hzero
      cases hb
      omega
  · rcases List.mem_append.mp hb with hb | hb
    · exact (h.follows b hb).imp_right fun hb => hb.mono hsub
    · rw [List.mem_singleton.mp hb]
      exact Or.inr (hfollows.mono hsub)

omit [Columns] in
lemma singleton {b : Block} (hb : b.index = 0) : Ordered [b] := by
  refine ⟨by simp, fun i b' hb' => ?_, fun b' hb' => Or.inl (List.mem_singleton.mp hb' ▸ hb)⟩
  rw [List.getElem?_singleton] at hb'
  split_ifs at hb' with hi
  cases hb'
  simp [hi, hb]

omit [Columns] in
/-- In order, a block is not older than the one before it. -/
lemma isChain (h : Ordered blocks) :
    blocks.IsChain fun b b' => b.header.timestamp ≤ b'.header.timestamp := by
  rw [List.isChain_iff_getElem]
  intro i hi
  have hindex := h.index (i + 1) _ (List.getElem?_eq_getElem hi)
  rcases h.follows _ (List.getElem_mem hi) with hzero | ⟨-, tip, htip, hnext, -, hle⟩
  · omega
  · obtain ⟨j, hj, rfl⟩ := List.mem_iff_getElem.mp htip
    have hindex' := h.index j _ (List.getElem?_eq_getElem hj)
    obtain rfl : j = i := by omega
    exact hle

omit [Columns] in
lemma timestamp_le (h : Ordered blocks) {b b' : Block} (hb : b ∈ blocks) (hb' : b' ∈ blocks)
    (hle : b.index ≤ b'.index) : b.header.timestamp ≤ b'.header.timestamp := by
  obtain ⟨i, hi, rfl⟩ := List.mem_iff_getElem.mp hb
  obtain ⟨j, hj, rfl⟩ := List.mem_iff_getElem.mp hb'
  rw [h.index i _ (List.getElem?_eq_getElem hi), h.index j _ (List.getElem?_eq_getElem hj),
    Nat.cast_le] at hle
  have hpairwise := List.isChain_iff_pairwise.mp h.isChain
  rcases hle.eq_or_lt with rfl | hlt
  · exact le_rfl
  · exact List.pairwise_iff_getElem.mp hpairwise i j hi hj hlt

end Ordered

/-! ### Engines and journals -/

omit [Columns] in
lemma ConsensusEngine.Carries.follows_mono {blocks blocks' : List Block} {e : ConsensusEngine}
    (h : e.Carries (.follows blocks)) (hsub : blocks ⊆ blocks') : e.Carries (.follows blocks') where
  proposal b hb := (h.proposal b hb).mono hsub
  lock b hb := (h.lock b hb).mono hsub
  changes t p hp b hb := (h.changes t p hp b hb).mono hsub
  journal := {
    prepared := fun lock hlock => (h.journal.prepared lock hlock).mono hsub
    table := fun row hrow block cert heq => (h.journal.table row hrow block cert heq).mono hsub
    writes := fun _ _ _ _ hentry => hentry }

omit [Columns] in
lemma JournalStore.Carries.follows_mono {blocks blocks' : List Block} {s : JournalStore}
    (h : s.Carries (.follows blocks)) (hsub : blocks ⊆ blocks') : s.Carries (.follows blocks') :=
  fun table htable row hrow block cert heq => (h table htable row hrow block cert heq).mono hsub

/-- An engine for the height after a block of the list, all of whose blocks follow one of the list. -/
structure ConsensusEngine.OnTop (blocks : List Block) (e : ConsensusEngine) : Prop where
  tip : ∃ tip ∈ blocks, tip.index + 1 = e.height ∧ tip.hash = .ok e.previousHash
  carries : e.Carries (.follows blocks)
  sound : e.Sound

namespace ConsensusEngine.OnTop

variable {blocks blocks' : List Block} {e : ConsensusEngine}

omit [Columns] in
lemma mono (h : e.OnTop blocks) (hsub : blocks ⊆ blocks') : e.OnTop blocks' := by
  obtain ⟨tip, htip, hrest⟩ := h.tip
  exact ⟨⟨tip, hsub htip, hrest⟩, h.carries.follows_mono hsub, h.sound⟩

omit [Columns] in
/-- The journal of the engine after rows were deleted. -/
lemma refresh (h : e.OnTop blocks) {s : JournalStore} (hs : s.Carries (.follows blocks)) :
    OnTop blocks { e with journal := s.refresh e.journal } := by
  have hjournal := hs.refresh h.carries.journal
  refine ⟨h.tip, ⟨h.carries.proposal, h.carries.lock, h.carries.changes, hjournal⟩, ?_⟩
  exact { h.sound with journal := fun row hrow _ b cert heq => (hjournal.table row hrow b cert heq).1 }

end ConsensusEngine.OnTop

omit [Columns] in
/-- A new engine is on top of the tip. -/
lemma Node.onTop_newEngine {n : Node} (hstore : n.journalStore.Carries (.follows n.repo))
    {engine : Option ConsensusEngine} (h : n.newEngine = .ok engine) :
    ∀ e ∈ engine, e.OnTop n.repo := by
  intro e he
  rcases Node.newEngine_eq_ok h with rfl | ⟨-, latest, hash, hlast, hhash, rfl⟩
  · cases he
  · cases he
    have hjournal : (n.journalStore.view (latest.index + 1)).Carries (.follows n.repo) :=
      hstore.view (fun r block cert hrow => hrow block cert rfl) fun r entry hentry => hentry
    refine ⟨⟨latest, List.mem_of_getLast? hlast, rfl, hhash⟩, .initial hjournal _ _ _ _ _,
      .initial ⟨fun lock hlock => ?_, fun row hrow b cert heq => ?_⟩ _ _ _ _ _⟩
    · exact (hjournal.prepared lock hlock).1
    · exact (hjournal.table row hrow b cert heq).1

/-! ### The node -/

/-- The messages that the engine of a node has handed out. -/
def Node.sent (n : Node) : List ConsensusMessage :=
  n.calls.flatMap fun c => (c.call.run c.engine).2.result.broadcast

/-- All blocks of a node are in order. -/
structure Node.Orderly (n : Node) : Prop where
  repo : Ordered n.repo
  engine : ∀ e ∈ n.engine, e.OnTop n.repo
  store : n.journalStore.Carries (.follows n.repo)
  returned : ∀ b ∈ n.returned, b.Follows n.repo
  sent : ∀ m ∈ n.sent, m.Carries (.follows n.repo)

/-- In every call that the node has made on its engine: a block is built only by a clock that reads no less
than the timestamp of the tip it extends, and the blocks attached to valid ROUND_CHANGEs are structurally
valid. -/
structure Node.Timely (n : Node) : Prop where
  clock : ∀ c ∈ n.calls, ∀ block, c.call.Builds c.engine block → ∀ tip ∈ n.repo,
    tip.hash = .ok c.engine.previousHash → tip.header.timestamp ≤ c.engine.nowMs 0
  attached : ∀ c ∈ n.calls, c.call.AttachesValid c.engine

/-- A method is handed only blocks of which `D` holds, or a genesis block. -/
structure Operation.Hands (o : Operation) (D : Block → Prop) : Prop where
  supplies : ∀ b, o.Supplies b → b.index = 0 ∨ D b
  messages : ∀ m ∈ o.messages, (∀ b ∈ m.block, D b) ∧ ∀ m' ∈ m.roundChangeCert, ∀ b ∈ m'.block, D b

/-- Blocks of which `D` holds can be hashed, and are not older than the block that they extend. -/
def Dates (D : Block → Prop) (blocks : List Block) : Prop :=
  ∀ b, D b → (∃ x, b.hash = .ok x) ∧ ∀ tip ∈ blocks, tip.hash = .ok b.header.previousHash →
    tip.header.timestamp ≤ b.header.timestamp

omit [Columns] in
lemma Dates.anti {D : Block → Prop} {blocks blocks' : List Block} (h : Dates D blocks')
    (hsub : blocks ⊆ blocks') : Dates D blocks :=
  fun b hb => ⟨(h b hb).1, fun tip htip => (h b hb).2 tip (hsub htip)⟩

lemma NodeMove.timely {o : Operation} {n n' : Node} (hmove : NodeMove o n n') (h : n'.Timely) :
    n.Timely where
  clock c hc block hbuilds tip htip :=
    h.clock c (hmove.calls_subset hc) block hbuilds tip (hmove.repo_isPrefix.subset htip)
  attached c hc := h.attached c (hmove.calls_subset hc)

variable {o : Operation} {n n' : Node} {D : Block → Prop}

omit [Columns] in
/-- The calls of a timely node hand its engine blocks that follow one of its repository. -/
lemma Node.Orderly.clean (h : n.Orderly) {e : ConsensusEngine} (he : n.engine = some e) {c : Call}
    (hc : o.Calls n e c) (hattached : c.AttachesValid e) (hdates : Dates D n.repo) (ho : o.Hands D) :
    c.Clean (.follows n.repo) e := by
  obtain ⟨tip, htip, hheight, hhash⟩ := (h.engine e he).tip
  have hfollows : ∀ b, D b → e.structurallyValid b = .ok true → b.Follows n.repo := by
    intro b hb hvalid
    obtain ⟨hindex, hprevious, -⟩ := (e.structurallyValid_eq_ok b).mp hvalid
    obtain ⟨hb, hle⟩ := hdates b hb
    have htiphash : tip.hash = .ok b.header.previousHash := by rw [hprevious, hhash]
    exact ⟨hb, tip, htip, hheight.trans hindex.symm, htiphash, hle tip htip htiphash⟩
  refine ⟨fun _ => trivial, fun b hb => ?_, fun m hm b hb => ?_⟩
  · obtain ⟨m, hm, -, hblock, hvalid⟩ := hb.exists_mem
    apply hfollows b _ hvalid
    exact (ho.messages m (hc.messages_subset hm)).1 b hblock
  · apply hfollows b _ (hattached m hm b hb)
    obtain ⟨p, hp, ⟨rfl, -⟩ | ⟨-, hmem⟩⟩ := hm.exists_mem
    · exact (ho.messages p (hc.messages_subset hp)).1 b hb
    · exact (ho.messages p (hc.messages_subset hp)).2 m hmem b hb

omit [Columns] in
/-- A call whose block, if it builds one, is not older than the tip. -/
lemma Node.Orderly.conveys (h : n.Orderly) {e : ConsensusEngine} (he : n.engine = some e) {c : Call}
    (hc : o.Calls n e c) (hattached : c.AttachesValid e)
    (hclock : ∀ block, c.Builds e block → ∀ tip ∈ n.repo, tip.hash = .ok e.previousHash →
      tip.header.timestamp ≤ e.nowMs 0) (hdates : Dates D n.repo) (ho : o.Hands D) :
    (c.run e).2.Conveys (.follows n.repo) := by
  have hontop := h.engine e he
  have hclean := h.clean he hc hattached hdates ho
  refine Call.conveys hontop.sound hontop.carries hclean (fun _ _ => trivial) fun block hbuilds => ?_
  obtain ⟨tip, htip, hheight, hhash⟩ := hontop.tip
  obtain ⟨hindex, hprevious, htimestamp⟩ := hbuilds.header
  have hblock : ∃ x, block.hash = .ok x := by
    obtain ⟨d, hd⟩ := Block.exists_of_hash hhash
    have hscalar : IsScalar e.previousHash := hd ▸ .toHex d
    cases hbuilds with
    | propose _ _ _ _ _ hcreate => exact Block.exists_hash_of_create hcreate hscalar (.toHex _)
    | takeOver _ _ _ _ _ hcreate => exact Block.exists_hash_of_create hcreate hscalar (.toHex _)
  refine ⟨hblock, tip, htip, hheight.trans hindex.symm, ?_, ?_⟩
  · rw [hprevious, hhash]
  · rw [htimestamp]
    exact hclock block hbuilds tip htip hhash

omit [Columns] in
lemma Node.mem_sent_concat {c : EngineCall} {m : ConsensusMessage} :
    m ∈ ({ n with calls := n.calls ++ [c] } : Node).sent ↔
      m ∈ n.sent ∨ m ∈ (c.call.run c.engine).2.result.broadcast := by
  simp [sent]

omit [Columns] in
lemma ConsensusMessage.Carries.follows_mono {blocks blocks' : List Block} {m : ConsensusMessage}
    (h : m.Carries (.follows blocks)) (hsub : blocks ⊆ blocks') : m.Carries (.follows blocks') :=
  ⟨fun b hb => (h.1 b hb).mono hsub, fun m' hm' b hb => (h.2 m' hm' b hb).mono hsub⟩

/-- A block that is stored follows the tip: the engine has returned it, or it was checked that it extends
the tip. -/
lemma Node.Orderly.follows_of_append (h : n.Orderly) {block : Block} {repo : List Block}
    (hrepo : Repository.append n.repo block = .ok repo)
    (hwhy : n.returned = some block ∨ o.Supplies block ∧ n.ExtendsTip block) (hdates : Dates D n.repo)
    (ho : o.Hands D) : block.Follows n.repo := by
  obtain ⟨-, hindex, -⟩ := Repository.append_eq_ok hrepo
  rcases hwhy with hreturned | ⟨hsupplied, -, latest, hash, hlast, hhash, hprevious⟩
  · exact h.returned block hreturned
  · have hpos := List.length_pos_of_ne_nil h.repo.nonempty
    have hheight : latest.index = Repository.height n.repo := by
      rw [Repository.height, hlast]
      rfl
    have hD : D block := by
      refine (ho.supplies block hsupplied).resolve_left fun hzero => ?_
      rw [h.repo.height_eq] at hindex
      omega
    obtain ⟨hblock, hle⟩ := hdates block hD
    have hlatest : latest.hash = .ok block.header.previousHash := by rw [hhash, hprevious]
    have hmem := List.mem_of_getLast? hlast
    exact ⟨hblock, latest, hmem, by rw [hheight, hindex], hlatest, hle latest hmem hlatest⟩

/-- A move keeps a node in order, if the node is timely afterwards. -/
lemma Node.Orderly.move (hmove : NodeMove o n n') (htimely : n'.Timely) (hdates : Dates D n.repo)
    (ho : o.Hands D) (h : n.Orderly) : n'.Orderly := by
  cases hmove with
  | @call e c he hc returned hreturned =>
    have hlast : (⟨n.active, e, c⟩ : EngineCall) ∈ n.calls ++ [⟨n.active, e, c⟩] :=
      List.mem_append_right _ List.mem_cons_self
    have hconveys := h.conveys he hc (htimely.attached _ hlast)
      (fun block hbuilds => htimely.clock _ hlast block hbuilds) hdates ho
    have hsince := (c.run_moves e).since
    refine ⟨h.repo, fun e' he' => ?_, h.store.sync hconveys.engine.journal, fun b hb => ?_,
      fun m hm => ?_⟩
    · cases he'
      obtain ⟨tip, htip, hheight, hhash⟩ := (h.engine e he).tip
      refine ⟨⟨tip, htip, hheight.trans hsince.height.symm, ?_⟩, hconveys.engine,
        (c.run_moves e).sound (h.engine e he).sound⟩
      rw [hsince.previousHash]
      exact hhash
    · rcases hreturned with rfl | rfl
      · exact h.returned b hb
      · exact hconveys.committed b hb
    · rcases Node.mem_sent_concat.mp hm with hm | hm
      · exact h.sent m hm
      · exact hconveys.messages m hm
  | @append block result n' happend hfinal hwhy =>
    have hstep : ∀ {repo}, Repository.append n.repo block = .ok repo →
        Ordered repo ∧ n.repo ⊆ repo := by
      intro repo hrepo
      refine ⟨h.repo.append (h.follows_of_append hrepo hwhy hdates ho) hrepo, ?_⟩
      rw [(Repository.append_eq_ok hrepo).1]
      exact List.subset_append_left _ _
    cases happend with
    | refused => exact h
    | stored hrepo =>
      obtain ⟨hordered, hsub⟩ := hstep hrepo
      exact ⟨hordered, fun e he => (h.engine e he).mono hsub, h.store.follows_mono hsub,
        fun b hb => (by cases hb), fun m hm => (h.sent m hm).follows_mono hsub⟩
    | forgotten hrepo =>
      obtain ⟨hordered, hsub⟩ := hstep hrepo
      have hstore := (h.store.follows_mono hsub).pruneBelow (block.index + 1)
      refine ⟨hordered, fun e he => ?_, hstore, fun b hb => (by cases hb),
        fun m hm => (h.sent m hm).follows_mono hsub⟩
      obtain ⟨e', he', rfl⟩ := Option.map_eq_some_iff.mp he
      exact ((h.engine e' he').mono hsub).refresh hstore
    | @advanced repo keys pending active engine hrepo hkeys hpending hactive hengine =>
      obtain ⟨hordered, hsub⟩ := hstep hrepo
      have hstore := (h.store.follows_mono hsub).pruneBelow (block.index + 1)
      have hnew := Node.onTop_newEngine
        (n := { n.forgetting block repo pending keys with active }) hstore hengine
      exact ⟨hordered, hnew, hstore, fun b hb => (by cases hb),
        fun m hm => (h.sent m hm).follows_mono hsub⟩
  | reset hreturned hfinal hengine =>
    exact ⟨h.repo, Node.onTop_newEngine h.store hengine, h.store, fun b hb => (by cases hb), h.sent⟩
  | _ => exact ⟨h.repo, h.engine, h.store, h.returned, h.sent⟩

/-- A method keeps a node in order, if the node is timely afterwards. -/
lemma Node.Orderly.path (hpath : ReflTransGen (NodeMove o) n n') (htimely : n'.Timely)
    (hdates : Dates D n'.repo) (ho : o.Hands D) (h : n.Orderly) : n'.Orderly := by
  induction hpath with
  | refl => exact h
  | tail _ hmove ih =>
    have hdates₁ := hdates.anti hmove.repo_isPrefix.subset
    exact (ih (hmove.timely htimely) hdates₁).move hmove htimely hdates₁ ho

/-- A new node keeps the blocks of its repository. -/
lemma Node.subset_of_init {privateKey : PrivateKey} {validators : ValidatorSet} {blocks : List Block}
    {journalStore : JournalStore} {nowMs : ℕ → ℤ}
    (h : Node.init privateKey validators blocks journalStore nowMs = .ok n) : blocks ⊆ n.repo := by
  obtain ⟨repo, active, engine, rfl | ⟨genesis, -, happend⟩, -, -, rfl⟩ := Node.init_eq_ok h
  · exact List.Subset.refl _
  · rw [(Repository.append_eq_ok happend).1]
    exact List.subset_append_left _ _

/-- A new node over blocks in order and a journal of blocks that follow them. -/
lemma Node.Orderly.init {privateKey : PrivateKey} {validators : ValidatorSet} {blocks : List Block}
    {journalStore : JournalStore} {nowMs : ℕ → ℤ}
    (hblocks : blocks = [] ∨ Ordered blocks) (hstore : journalStore.Carries (.follows blocks))
    (h : Node.init privateKey validators blocks journalStore nowMs = .ok n) : n.Orderly := by
  have hstore' := hstore.follows_mono (Node.subset_of_init h)
  obtain ⟨repo, active, engine, hrepo, hactive, hengine, rfl⟩ := Node.init_eq_ok h
  have hordered : Ordered repo := by
    rcases hrepo with rfl | ⟨genesis, hgenesis, happend⟩
    · refine hblocks.resolve_left fun hnil => ?_
      -- an empty repository gets a genesis block
      rw [hnil] at hactive
      cases hactive
    · obtain ⟨-, hzero, -⟩ := Block.create_consistent hgenesis
      obtain ⟨rfl, hindex, -⟩ := Repository.append_eq_ok happend
      rcases hblocks with rfl | hblocks
      · exact .singleton hzero
      · have hpos := List.length_pos_of_ne_nil hblocks.nonempty
        rw [hzero, hblocks.height_eq] at hindex
        omega
  exact ⟨hordered, Node.onTop_newEngine hstore' hengine, hstore', fun b hb => (by cases hb),
    fun m hm => (by cases hm)⟩

/-! ### A network of nodes -/

/-- The nodes of a network, and the messages that their engines have handed out so far. -/
structure Cluster (ι : Type) where
  node : ι → Node
  sent : List ConsensusMessage

namespace Cluster

variable {ι : Type} {w w' : Cluster ι}

/-- Every node is new, with no blocks or with a genesis block that was fetched, and with an empty
journal. -/
structure Starts (w : Cluster ι) : Prop where
  node : ∀ i, ∃ privateKey validators blocks journalStore nowMs,
    (blocks = [] ∨ ∃ genesis, blocks = [genesis] ∧ isValidGenesis genesis = .ok true) ∧
    (journalStore = .null ∨ journalStore = .sql []) ∧
    Node.init privateKey validators blocks journalStore nowMs = .ok (w.node i)
  sent : w.sent = []

/-- What the network can hand to a method: messages that were sent, whenever that was, and blocks that some
node has stored. -/
structure Delivers (w : Cluster ι) (o : Operation) : Prop where
  messages : ∀ m ∈ o.messages, m ∈ w.sent
  supplies : ∀ b, o.Supplies b → ∃ i, b ∈ (w.node i).repo

/-- The network once node `i` has become `n`. -/
def set [DecidableEq ι] (w : Cluster ι) (i : ι) (n : Node) : Cluster ι where
  node := Function.update w.node i n
  sent := w.sent ++ n.sent

/-- One step of a network whose nodes satisfy `ok` after each of their methods: a method of a node, or its
restart over the stored blocks and the journal. Both may have any clock. -/
inductive Step [DecidableEq ι] (ok : Node → Prop) (w : Cluster ι) : Cluster ι → Prop
  | operation (i : ι) {o : Operation} (ho : w.Delivers o) (passes : ℕ)
      (hok : ok (o.run passes (w.node i))) : Step ok w (w.set i (o.run passes (w.node i)))
  | restart (i : ι) {validators : ValidatorSet} {nowMs : ℕ → ℤ} {n : Node}
      (h : Node.init (w.node i).privateKey validators (w.node i).repo (w.node i).journalStore nowMs =
        .ok n) : Step ok w (w.set i n)

/-- No two stored headers with the same hash differ. -/
def Resists (w : Cluster ι) : Prop :=
  ∀ i j, NoCollision (((w.node i).repo ++ (w.node j).repo).flatMap fun b => b.header.inputs)

/-- The block follows one that some node has stored. -/
def Knows (w : Cluster ι) (b : Block) : Prop := ∃ i, b.Follows (w.node i).repo

/-- All blocks of the network are in order. -/
structure Orderly (w : Cluster ι) : Prop where
  node : ∀ i, (w.node i).Orderly
  sent : ∀ m ∈ w.sent, (∀ b ∈ m.block, w.Knows b) ∧ ∀ m' ∈ m.roundChangeCert, ∀ b ∈ m'.block, w.Knows b

omit [Columns] in
lemma Knows.mono {b : Block} (h : w.Knows b) (hsub : ∀ i, (w.node i).repo ⊆ (w'.node i).repo) :
    w'.Knows b :=
  h.imp fun i hb => hb.mono (hsub i)

omit [Columns] in
lemma Resists.anti (h : w'.Resists) (hsub : ∀ i, (w.node i).repo ⊆ (w'.node i).repo) : w.Resists := by
  intro i j
  refine (h i j).mono fun x hx => ?_
  simp only [List.mem_flatMap, List.mem_append] at hx ⊢
  obtain ⟨b, hb, hx⟩ := hx
  exact ⟨b, hb.imp (fun hb => hsub i hb) fun hb => hsub j hb, hx⟩

omit [Columns] in
/-- Where headers do not collide, a block that follows some stored block is not older than any stored block
that it extends. -/
lemma Resists.dates (h : w.Resists) (i : ι) : Dates w.Knows (w.node i).repo := by
  rintro b ⟨j, hhash, tip', htip', -, hhash', hle⟩
  refine ⟨hhash, fun tip htip htiphash => ?_⟩
  have hheader : tip.header = tip'.header := by
    refine BlockHeader.eq_of_hash htiphash hhash' ((h i j).mono fun x hx => ?_)
    rw [List.flatMap_append]
    exact (List.mem_append.mp hx).elim
      (fun hx => List.mem_append_left _ (List.mem_flatMap.mpr ⟨tip, htip, hx⟩))
      fun hx => List.mem_append_right _ (List.mem_flatMap.mpr ⟨tip', htip', hx⟩)
  rw [hheader]
  exact hle

omit [Columns] in
lemma Delivers.hands {o : Operation} (ho : w.Delivers o) (h : w.Orderly) : o.Hands w.Knows where
  supplies b hb := by
    obtain ⟨i, hi⟩ := ho.supplies b hb
    exact ((h.node i).repo.follows b hi).imp_right fun hb => ⟨i, hb⟩
  messages m hm := h.sent m (ho.messages m hm)

lemma Starts.orderly (h : w.Starts) : w.Orderly := by
  refine ⟨fun i => ?_, fun m hm => ?_⟩
  · obtain ⟨privateKey, validators, blocks, journalStore, nowMs, hblocks, hstore, hinit⟩ := h.node i
    refine .init (hblocks.imp_right ?_) (JournalStore.carries_of_empty hstore) hinit
    rintro ⟨genesis, rfl, hgenesis⟩
    unfold isValidGenesis at hgenesis
    split_ifs at hgenesis with hzero
    · exact .singleton hzero.1
    · cases hgenesis
  · rw [h.sent] at hm
    cases hm

variable [DecidableEq ι] {ok : Node → Prop}

omit [Columns] in
lemma node_set_self (w : Cluster ι) (i : ι) (n : Node) : (w.set i n).node i = n :=
  Function.update_self _ _ _

omit [Columns] in
lemma node_set_of_ne (w : Cluster ι) {i j : ι} (h : j ≠ i) (n : Node) : (w.set i n).node j = w.node j :=
  Function.update_of_ne h _ _

omit [Columns] in
lemma repo_subset_set {i : ι} {n : Node} (hsub : (w.node i).repo ⊆ n.repo) (j : ι) :
    (w.node j).repo ⊆ ((w.set i n).node j).repo := by
  by_cases hj : j = i
  · subst hj
    rw [node_set_self]
    exact hsub
  · rw [node_set_of_ne w hj]
    exact List.Subset.refl _

/-- The repositories only grow. -/
lemma Step.repo_subset (hstep : Step ok w w') (i : ι) : (w.node i).repo ⊆ (w'.node i).repo := by
  cases hstep with
  | @operation j o ho passes hok =>
    refine repo_subset_set ?_ i
    refine Operation.run_keeps (P := fun n => (w.node j).repo ⊆ n.repo) (fun _ _ hmove ih => ?_) passes
      (List.Subset.refl _)
    exact List.Subset.trans ih hmove.repo_isPrefix.subset
  | restart j h => exact repo_subset_set (Node.subset_of_init h) i

omit [Columns] in
/-- A node of the network that has become another one in order. -/
lemma Orderly.set (h : w.Orderly) {i : ι} {n : Node} (hn : n.Orderly)
    (hsub : (w.node i).repo ⊆ n.repo) : (w.set i n).Orderly := by
  have hgrow := repo_subset_set hsub
  refine ⟨fun j => ?_, fun m hm => ?_⟩
  · by_cases hj : j = i
    · subst hj
      rw [node_set_self]
      exact hn
    · rw [node_set_of_ne w hj]
      exact h.node j
  · rcases List.mem_append.mp hm with hm | hm
    · obtain ⟨hblock, hcert⟩ := h.sent m hm
      exact ⟨fun b hb => (hblock b hb).mono hgrow, fun m' hm' b hb => (hcert m' hm' b hb).mono hgrow⟩
    · obtain ⟨hblock, hcert⟩ := hn.sent m hm
      have hknows : ∀ b : Block, b.Follows n.repo → (w.set i n).Knows b := fun b hb =>
        ⟨i, by rwa [node_set_self]⟩
      exact ⟨fun b hb => hknows b (hblock b hb), fun m' hm' b hb => hknows b (hcert m' hm' b hb)⟩

lemma Orderly.step (h : w.Orderly) (hstep : Step Node.Timely w w') (hno : w'.Resists) :
    w'.Orderly := by
  have hsub := hstep.repo_subset
  cases hstep with
  | @operation i o ho passes hok =>
    have hdates : Dates w.Knows (o.run passes (w.node i)).repo := by
      intro b hb
      have hdates := hno.dates i b (hb.mono hsub)
      rwa [node_set_self] at hdates
    refine h.set ((h.node i).path (o.run_moves passes _) hok hdates (ho.hands h)) ?_
    have hgrow := hsub i
    rwa [node_set_self] at hgrow
  | restart i hinit =>
    exact h.set (.init (Or.inr (h.node i).repo) (h.node i).store hinit) (Node.subset_of_init hinit)

/-- In every run of a network of nodes, with restarts, any clocks and any order, loss and repetition of
messages: if every block that is built gets a timestamp no less than that of the tip it extends, and the
blocks attached to valid ROUND_CHANGEs are structurally valid for the engine that handles them, then the
timestamps that a node has stored do not decrease with the index, and a replay of its blocks does not fail
on a timestamp. -/
theorem stored_timestamps_ordered {w₀ w : Cluster ι} (hstart : w₀.Starts)
    (hrun : ReflTransGen (Step Node.Timely) w₀ w) (hno : w.Resists) (i : ι) :
    (∀ b ∈ (w.node i).repo, ∀ b' ∈ (w.node i).repo, b.index ≤ b'.index →
      b.header.timestamp ≤ b'.header.timestamp) ∧
    ∀ genesis blocks, (w.node i).repo = genesis :: blocks → Blockchain.replay genesis blocks ≠
      .error (Blockchain.validationError "block timestamp precedes previous block") := by
  have horderly : w.Orderly := by
    induction hrun with
    | refl => exact hstart.orderly
    | tail _ hstep ih => exact (ih (hno.anti hstep.repo_subset)).step hstep hno
  have hrepo := (horderly.node i).repo
  refine ⟨fun b hb b' hb' hle => ?_, fun genesis blocks heq => Blockchain.replay_ne (heq ▸ hrepo.isChain)⟩
  exact hrepo.timestamp_le hb hb' hle

/-! ### Two nodes -/

/-- The network once a node has run a method. -/
def run (w : Cluster ι) (i : ι) (o : Operation) : Cluster ι := w.set i (o.run 2 (w.node i))

lemma Step.run {i : ι} {o : Operation} (ho : w.Delivers o) (hok : ok ((w.run i o).node i)) :
    Step ok w (w.run i o) := by
  rw [Cluster.run, node_set_self] at hok
  exact .operation i ho 2 hok

omit [DecidableEq ι]

/-- The network of a validator and a follower. -/
def ofSingle (nowMs : ℕ → ℤ) : Except PyError (Cluster Bool) := do
  let validator ← Node.init (seedKey 0xaa) .single [] .null nowMs
  let follower ← Node.init (seedKey 0xbb) .single [] .null nowMs
  return ⟨fun i => if i then validator else follower, []⟩

/-- The validator is given a record, and finalizes it. -/
def submit (w : Cluster Bool) (observedAt : ℤ) : Cluster Bool :=
  w.run true (.submitRecords [⟨[], [], [], [], .OK, observedAt, [], []⟩])

/-- The follower is pushed a block of the validator. -/
def push (w : Cluster Bool) (i : ℕ) : Cluster Bool :=
  w.run false (.ingestBlock (((w.node true).repo[i]?).getD (.ofTimestamp 0)))

/-- The validator finalizes two records, and the follower imports the blocks. -/
def importing (w : Cluster Bool) : Cluster Bool := (((w.submit 1).submit 2).push 1).push 2

lemma starts_ofSingle {nowMs : ℕ → ℤ} {w : Cluster Bool} (h : ofSingle nowMs = .ok w) : w.Starts := by
  obtain ⟨validator, hvalidator, h⟩ := exists_of_bind_eq_ok h
  obtain ⟨follower, hfollower, h⟩ := exists_of_bind_eq_ok h
  cases h
  refine ⟨fun i => ?_, rfl⟩
  cases i with
  | true => exact ⟨_, _, [], _, _, Or.inl rfl, Or.inl rfl, hvalidator⟩
  | false => exact ⟨_, _, [], _, _, Or.inl rfl, Or.inl rfl, hfollower⟩

lemma Step.submit {w : Cluster Bool} {observedAt : ℤ} (hok : ok ((w.submit observedAt).node true)) :
    Step ok w (w.submit observedAt) :=
  .run ⟨fun m hm => (by cases hm), fun b hb => (by cases hb)⟩ hok

lemma Step.push {w : Cluster Bool} {i : ℕ} (hi : i < (w.node true).repo.length)
    (hok : ok ((w.push i).node false)) : Step ok w (w.push i) := by
  refine .run ⟨fun m hm => (by cases hm), fun b hb => ?_⟩ hok
  cases hb
  rw [List.getElem?_eq_getElem hi]
  exact ⟨true, List.getElem_mem hi⟩

/-- The run of the two nodes, if the validator has finalized both records. -/
lemma runs_importing {w : Cluster Bool} (hlength : (((w.submit 1).submit 2).node true).repo.length = 3)
    (hok : ∀ w' ∈ [w.submit 1, (w.submit 1).submit 2], ok (w'.node true))
    (hok' : ∀ w' ∈ [((w.submit 1).submit 2).push 1, w.importing], ok (w'.node false)) :
    ReflTransGen (Step ok) w w.importing := by
  refine .tail (.tail (.tail (.single (.submit (hok _ ?_))) (.submit (hok _ ?_)))
    (.push (by omega) (hok' _ ?_))) (.push ?_ (hok' _ ?_))
  any_goals simp [importing]
  change 2 < (((w.submit 1).submit 2).node true).repo.length
  omega

omit [Columns] in
/-- Calls that hand over pending items, on engines whose clock is not behind. -/
lemma timely_of_items {n : Node} (h : ∀ c ∈ n.calls, c.call.items.isSome ∧
    ∀ tip ∈ n.repo, tip.hash.toOption = some c.engine.previousHash →
      tip.header.timestamp ≤ c.engine.nowMs 0) : n.Timely where
  clock c hc _ _ tip htip hhash := (h c hc).2 tip htip (by rw [hhash]; rfl)
  attached c hc m hm := absurd hm ((Call.brings_nothing (h c hc).1).2 m)

omit [Crypto] [Columns] in
/-- A validator whose clock goes on finalizes two records, and a follower imports the blocks. -/
theorem stored_timestamps_ordered_of_imports :
    letI := Crypto.checksums
    letI := Columns.sqlite
    ∃ w, ofSingle (fun i => i) = .ok w ∧ (w.importing.node false).repo.length = 3 ∧
      ∀ b ∈ (w.importing.node false).repo, ∀ b' ∈ (w.importing.node false).repo, b.index ≤ b'.index →
        b.header.timestamp ≤ b'.header.timestamp := by
  let := Crypto.checksums
  let := Columns.sqlite
  have hrun : (ofSingle fun i => i).map (fun w =>
      decide ((((w.submit 1).submit 2).node true).repo.length = 3 ∧
        (w.importing.node false).repo.length = 3 ∧
        (∀ n ∈ [(w.submit 1).node true, ((w.submit 1).submit 2).node true,
            (((w.submit 1).submit 2).push 1).node false, w.importing.node false],
          ∀ c ∈ n.calls, c.call.items.isSome ∧
            ∀ tip ∈ n.repo, tip.hash.toOption = some c.engine.previousHash →
              tip.header.timestamp ≤ c.engine.nowMs 0) ∧
        ∀ i j, NoCollision (((w.importing.node i).repo ++ (w.importing.node j).repo).flatMap
          fun b => b.header.inputs))) = .ok true := by
    decide +kernel
  obtain ⟨w, hw, hrun⟩ := exists_of_map_eq_ok hrun
  obtain ⟨hlength, himported, htimely, hno⟩ := of_decide_eq_true hrun
  refine ⟨w, hw, himported, ?_⟩
  have hruns : ReflTransGen (Step Node.Timely) w w.importing := by
    refine runs_importing hlength (fun w' hw' => ?_) fun w' hw' => ?_
    · refine timely_of_items (htimely _ ?_)
      rcases List.mem_pair.mp hw' with rfl | rfl <;> simp
    · refine timely_of_items (htimely _ ?_)
      rcases List.mem_pair.mp hw' with rfl | rfl <;> simp
  exact (stored_timestamps_ordered (starts_ofSingle hw) hruns hno false).1

omit [Crypto] [Columns] in
/-- When the clock of the validator goes back, its second block is older than the first. It stores both, the
follower imports both, and the chain of the model does not take the second one. -/
theorem stored_timestamps_not_ordered :
    letI := Crypto.checksums
    letI := Columns.sqlite
    ∃ w, w.Starts ∧ ReflTransGen (Step fun _ => True) w w.importing ∧ w.importing.Resists ∧
      ∀ i, (w.importing.node i).repo.map (·.header.timestamp) = [0, 5, 3] ∧
        ∃ genesis blocks, (w.importing.node i).repo = genesis :: blocks ∧
          Blockchain.replay genesis blocks =
            .error (Blockchain.validationError "block timestamp precedes previous block") := by
  let := Crypto.checksums
  let := Columns.sqlite
  have hrun : (ofSingle fun i => 5 - 2 * i).map (fun w =>
      decide ((((w.submit 1).submit 2).node true).repo.length = 3 ∧
        (∀ i j, NoCollision (((w.importing.node i).repo ++ (w.importing.node j).repo).flatMap
          fun b => b.header.inputs)) ∧
        ∀ i, (w.importing.node i).repo.map (·.header.timestamp) = [0, 5, 3] ∧
          ((w.importing.node i).repo.head?.map fun genesis =>
            (Blockchain.replay genesis (w.importing.node i).repo.tail).map Blockchain.height) =
          some (.error (Blockchain.validationError "block timestamp precedes previous block")))) =
      .ok true := by
    decide +kernel
  obtain ⟨w, hw, hrun⟩ := exists_of_map_eq_ok hrun
  obtain ⟨hlength, hno, hnodes⟩ := of_decide_eq_true hrun
  refine ⟨w, starts_ofSingle hw, runs_importing hlength (fun _ _ => trivial) (fun _ _ => trivial), hno,
    fun i => ?_⟩
  obtain ⟨htimestamps, hreplay⟩ := hnodes i
  refine ⟨htimestamps, ?_⟩
  cases hrepo : (w.importing.node i).repo with
  | nil => rw [hrepo] at hreplay; cases hreplay
  | cons genesis blocks =>
    refine ⟨genesis, blocks, rfl, ?_⟩
    rw [hrepo] at hreplay
    simp only [List.head?_cons, List.tail_cons, Option.map_some, Option.some.injEq] at hreplay
    cases hchain : Blockchain.replay genesis blocks with
    | ok chain => rw [hchain] at hreplay; cases hreplay
    | error err =>
      rw [hchain] at hreplay
      cases hreplay
      rfl

end Cluster

end Helix
