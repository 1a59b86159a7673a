import Helix.Node.Application
import Helix.Node.Imports
import Helix.Node.Votes

/-!
# The mempool

A node keeps the records that wait for a block in `_pending` and the content keys of everything that
it has seen in `_mempool_seen`. A record leaves `_pending` only when a block with its content key is
stored. Batches are filtered against the keys that were seen before them, so a record that a batch
repeats is queued as often; and a new process starts with no keys at all.
-/

namespace Helix

variable [Crypto] [Columns]

open Relation (ReflTransGen)

/-! ### Nothing is lost -/

/-- A record with the content key waits in the mempool or is stored. -/
def Node.Keeps (n : Node) (key : PyStr) : Prop :=
  (∃ r ∈ n.pending, r.contentKey = .ok key) ∨
    ∃ b ∈ n.repo, ∃ r ∈ b.records, r.contentKey = .ok key

omit [Columns] in
/-- A record that the filter of `_forget_committed` drops has the key of a record of the block. -/
lemma Node.Keeps.filtered {n n' : Node} {block : Block} {keys : List PyStr}
    {pending : List IntegrityRecord} {key : PyStr}
    (hkeys : block.records.mapM IntegrityRecord.contentKey = .ok keys)
    (hpending : (n.pending.filterM fun r => r.contentKey.map fun key => key ∉ keys) = .ok pending)
    (hrepo : n'.repo = n.repo ++ [block]) (hqueue : n'.pending = pending) (h : n.Keeps key) :
    n'.Keeps key := by
  rcases h with ⟨r, hr, hkey⟩ | ⟨b, hb, h⟩
  · rcases mem_or_of_filterM hpending hr with hr | hdropped
    · exact Or.inl ⟨r, hqueue ▸ hr, hkey⟩
    · rw [hkey] at hdropped
      have hmem : key ∈ keys := by simpa [Except.map] using hdropped
      obtain ⟨r', hr', hkey'⟩ := exists_of_mem_mapM hkeys hmem
      exact Or.inr ⟨block, hrepo ▸ List.mem_append_right _ List.mem_cons_self, r', hr', hkey'⟩
  · exact Or.inr ⟨b, hrepo ▸ List.mem_append_left _ hb, h⟩

lemma Node.Keeps.append {n n' : Node} {block : Block} {result : Except PyError Unit} {key : PyStr}
    (happend : n.Appends block result n') (h : n.Keeps key) : n'.Keeps key := by
  cases happend with
  | refused => exact h
  | stored hrepo =>
    obtain ⟨rfl, -⟩ := Repository.append_eq_ok hrepo
    exact h.imp_right fun ⟨b, hb, hr⟩ => ⟨b, List.mem_append_left _ hb, hr⟩
  | forgotten hrepo hkeys hpending =>
    exact h.filtered hkeys hpending (Repository.append_eq_ok hrepo).1 rfl
  | advanced hrepo hkeys hpending =>
    exact h.filtered hkeys hpending (Repository.append_eq_ok hrepo).1 rfl

lemma Node.Keeps.event {o : Operation} {n₁ n n' : Node} {key : PyStr} (hevent : NodeEvent o n₁ n n')
    (h : n.Keeps key) : n'.Keeps key := by
  cases hevent with
  | move hmove hrepo hpending => rwa [Keeps, hrepo, hpending]
  | announce happend =>
    have hkeeps := h.append happend
    exact hkeeps
  | sync _ _ _ happend => exact h.append happend
  | fail happend => exact h.append happend
  | enqueue =>
    exact h.imp_left fun ⟨r, hr, hkey⟩ => ⟨r, List.mem_append_left _ hr, hkey⟩

/-- Within a process lifetime a record that waits in the mempool stays there until a block with its
content key is stored. -/
theorem pending_never_lost {privateKey : PrivateKey} {validators : ValidatorSet}
    {blocks : List Block} {journalStore : JournalStore} {nowMs : ℕ → ℤ} {n₀ n n' : Node}
    (hinit : Node.init privateKey validators blocks journalStore nowMs = .ok n₀)
    (hlife : Node.Lives (fun _ _ => True) n₀ n) {r : IntegrityRecord} (hr : r ∈ n.pending)
    (hlater : Node.Lives (fun _ _ => True) n n') :
    ∃ r', r'.contentKey = r.contentKey ∧ (r' ∈ n'.pending ∨ ∃ b ∈ n'.repo, r' ∈ b.records) := by
  have hkeyed : n.Keyed := by
    refine hlife.induction (fun n₁ o _ n n' hevent => ?_) (.init hinit)
    exact hevent.keeps fun n n' hmove h => h.move hmove
  obtain ⟨key, hkey⟩ := hkeyed r hr
  have hkeeps : n'.Keeps key :=
    hlater.induction (P := fun n => n.Keeps key) (fun _ _ _ _ _ hevent h => h.event hevent)
      (Or.inl ⟨r, hr, hkey⟩)
  rw [hkey]
  rcases hkeeps with ⟨r', hr', hkey'⟩ | ⟨b, hb, r', hr', hkey'⟩
  · exact ⟨r', hkey', Or.inl hr'⟩
  · exact ⟨r', hkey', Or.inr ⟨b, hb, hr'⟩⟩

omit [Crypto] [Columns] in
/-- One of two validators has a record that is still there after a failed round. -/
theorem pending_never_lost_of_timeout :
    letI := Crypto.checksums
    letI := Columns.sqlite
    ∃ n₀ r, Node.init (seedKey 0xaa) .pair [] .null (fun i => i) = .ok n₀ ∧
      let n := (Operation.submitRecords [.empty]).run 1 n₀
      let n' := Operation.forceTimeout.run 1 n
      r ∈ n.pending ∧ ∃ r', r'.contentKey = r.contentKey ∧
        (r' ∈ n'.pending ∨ ∃ b ∈ n'.repo, r' ∈ b.records) := by
  let := Crypto.checksums
  let := Columns.sqlite
  have hrun : (Node.init (seedKey 0xaa) .pair [] .null fun i => i).map (fun n₀ =>
      ((Operation.submitRecords [.empty]).run 1 n₀).pending.length) = .ok 1 := by
    decide +kernel
  obtain ⟨n₀, hinit, hlength⟩ := exists_of_map_eq_ok hrun
  obtain ⟨r, hr⟩ := List.exists_mem_of_length_pos (hlength ▸ Nat.one_pos)
  refine ⟨n₀, r, hinit, hr, ?_⟩
  have hlife : Node.Lives (fun _ _ => True) n₀ ((Operation.submitRecords [.empty]).run 1 n₀) :=
    .operation .refl trivial 1
  exact pending_never_lost hinit hlife hr (.operation .refl trivial 1)

/-! ### Nothing is queued twice -/

/-- No two of the records have the same content key. -/
def Unrepeated (records : List IntegrityRecord) : Prop :=
  records.Pairwise fun r r' => r.contentKey ≠ r'.contentKey

instance (records : List IntegrityRecord) : Decidable (Unrepeated records) :=
  inferInstanceAs (Decidable (records.Pairwise _))

/-- None of the records has the content key of a record of the blocks. -/
def Unrecorded (blocks : List Block) (records : List IntegrityRecord) : Prop :=
  ∀ b ∈ blocks, ∀ r ∈ b.records, ∀ r' ∈ records, r'.contentKey ≠ r.contentKey

instance (blocks : List Block) (records : List IntegrityRecord) : Decidable (Unrecorded blocks records) :=
  inferInstanceAs (Decidable (∀ b ∈ blocks, ∀ r ∈ b.records, ∀ r' ∈ records, _))

/-- The node queues the record when it is in a batch: it is signed by a validator, and its content
key was not seen before. -/
def Node.Queues (n : Node) (r : IntegrityRecord) : Prop :=
  r.verify n.active = .ok true ∧ ∃ key, r.contentKey = .ok key ∧ key ∉ n.mempoolSeen

/-- No two records of a batch that the node queues have the same content key. -/
def Operation.Unrepeated (o : Operation) (n : Node) : Prop :=
  ∀ batch, o.Batch n batch →
    batch.Pairwise fun r r' => n.Queues r → n.Queues r' → r.contentKey ≠ r'.contentKey

omit [Columns] in
/-- The records that are taken in are those of the batch that the node queues. -/
lemma Node.mem_fresh {n : Node} {batch authentic fresh : List IntegrityRecord}
    (hauthentic : (batch.filterM fun r => r.verify n.active) = .ok authentic)
    (hfresh : (authentic.filterM fun r => r.contentKey.map fun key => key ∉ n.mempoolSeen) =
      .ok fresh) {r : IntegrityRecord} : r ∈ fresh ↔ r ∈ batch ∧ n.Queues r := by
  constructor
  · intro hr
    obtain ⟨hr, hkey⟩ := mem_filterM hfresh hr
    obtain ⟨hr, hverify⟩ := mem_filterM hauthentic hr
    obtain ⟨key, hkey, hunseen⟩ := exists_of_map_eq_ok hkey
    exact ⟨hr, hverify, key, hkey, of_decide_eq_true hunseen⟩
  · rintro ⟨hr, hverify, key, hkey, hunseen⟩
    have hr : r ∈ authentic := by
      refine (mem_or_of_filterM hauthentic hr).resolve_right fun hfalse => ?_
      rw [hverify] at hfalse
      cases hfalse
    refine (mem_or_of_filterM hfresh hr).resolve_right fun hfalse => ?_
    rw [hkey] at hfalse
    have hseen : key ∈ n.mempoolSeen := by simpa [Except.map] using hfalse
    exact hunseen hseen

namespace Node

/-- The pending records are distinct, seen, and in no stored block; the records of the stored blocks
are seen. The engine is at the height after the stored blocks or below. -/
structure Distinct (n : Node) : Prop where
  unrepeated : Unrepeated n.pending
  unrecorded : Unrecorded n.repo n.pending
  pending : ∀ r ∈ n.pending, ∃ key ∈ n.mempoolSeen, r.contentKey = .ok key
  stored : ∀ b ∈ n.repo, ∀ r ∈ b.records, ∃ key ∈ n.mempoolSeen, r.contentKey = .ok key
  engine : ∀ e ∈ n.engine, e.height ≤ n.height + 1

omit [Columns] in
lemma height_newEngine {n : Node} {engine : Option ConsensusEngine}
    (h : n.newEngine = .ok engine) : ∀ e ∈ engine, e.height ≤ n.height + 1 := by
  intro e he
  rcases newEngine_eq_ok h with rfl | ⟨-, latest, hash, hlast, -, rfl⟩
  · cases he
  · cases he
    rw [height, Repository.height, hlast]
    rfl

omit [Columns] in
/-- What `_forget_committed` leaves in the buffers after the block is stored. -/
lemma Distinct.filtered {n n' : Node} {block : Block} {keys : List PyStr}
    {pending : List IntegrityRecord} (h : n.Distinct)
    (hkeys : block.records.mapM IntegrityRecord.contentKey = .ok keys)
    (hpending : (n.pending.filterM fun r => r.contentKey.map fun key => key ∉ keys) = .ok pending)
    (hrepo : n'.repo = n.repo ++ [block]) (hqueue : n'.pending = pending)
    (hseen : n'.mempoolSeen = n.mempoolSeen ∪ keys) (hengine : ∀ e ∈ n'.engine, e.height ≤ n'.height + 1) :
    n'.Distinct := by
  have hkeyed : ∀ r ∈ block.records, ∃ key ∈ keys, r.contentKey = .ok key := by
    intro r hr
    obtain ⟨key, hkey⟩ := exists_of_mapM_ok hkeys hr
    exact ⟨key, mem_of_mapM hkeys hr hkey, hkey⟩
  refine ⟨?_, ?_, ?_, ?_, hengine⟩
  · rw [hqueue]
    exact h.unrepeated.sublist (sublist_of_filterM hpending)
  · rw [hrepo, hqueue]
    intro b hb r hr r' hr'
    obtain ⟨hr', hkept⟩ := mem_filterM hpending hr'
    rcases List.mem_append.mp hb with hb | hb
    · exact h.unrecorded b hb r hr r' hr'
    · rw [List.mem_singleton.mp hb] at hr
      obtain ⟨key, hmem, hkey⟩ := hkeyed r hr
      rw [hkey]
      intro hkey'
      rw [hkey'] at hkept
      exact of_decide_eq_true (Except.ok.inj hkept) hmem
  · rw [hqueue, hseen]
    intro r hr
    obtain ⟨key, hmem, hkey⟩ := h.pending r (mem_filterM hpending hr).1
    exact ⟨key, List.mem_union_iff.mpr (Or.inl hmem), hkey⟩
  · rw [hrepo, hseen]
    intro b hb r hr
    rcases List.mem_append.mp hb with hb | hb
    · obtain ⟨key, hmem, hkey⟩ := h.stored b hb r hr
      exact ⟨key, List.mem_union_iff.mpr (Or.inl hmem), hkey⟩
    · rw [List.mem_singleton.mp hb] at hr
      obtain ⟨key, hmem, hkey⟩ := hkeyed r hr
      exact ⟨key, List.mem_union_iff.mpr (Or.inr hmem), hkey⟩

lemma Distinct.append {n n' : Node} {block : Block} {result : Except PyError Unit}
    (happend : n.Appends block result n') (hkeyed : ∀ b ∈ n'.repo, b.Keyed) (h : n.Distinct) :
    n'.Distinct := by
  cases happend with
  | refused => exact h
  | stored hrepo hkey =>
    obtain ⟨rfl, -, -⟩ := Repository.append_eq_ok hrepo
    obtain ⟨r, hr | hr, herr⟩ := hkey
    · obtain ⟨key, hkey⟩ := hkeyed block (List.mem_append_right _ List.mem_cons_self) r hr
      rw [herr] at hkey
      cases hkey
    · obtain ⟨key, -, hkey⟩ := h.pending r hr
      rw [herr] at hkey
      cases hkey
  | @forgotten repo keys pending err hrepo hkeys hpending =>
    refine h.filtered hkeys hpending (Repository.append_eq_ok hrepo).1 rfl rfl fun e he => ?_
    obtain ⟨e', he', rfl⟩ := Option.map_eq_some_iff.mp he
    have hnext : (n.forgetting block repo pending keys).height = n.height + 1 :=
      height_eq_of_append hrepo
    rw [hnext]
    exact (h.engine e' he').trans (lt_add_one _).le
  | advanced hrepo hkeys hpending hactive hengine =>
    exact h.filtered hkeys hpending (Repository.append_eq_ok hrepo).1 rfl rfl (height_newEngine hengine)

lemma Distinct.event {o : Operation} {n₁ n n' : Node} (ho : o.Unrepeated n₁)
    (hevent : NodeEvent o n₁ n n') (hkeyed : ∀ b ∈ n'.repo, b.Keyed) (h : n.Distinct) :
    n'.Distinct := by
  cases hevent with
  | move hmove hrepo hpending hseen =>
    have hengine : ∀ e ∈ n'.engine, e.height ≤ n'.height + 1 := by
      cases hmove with
      | @call e c he hc =>
        intro e he'
        cases he'
        exact (c.run_moves e).since.height ▸ h.engine e he
      | append happend => exact (h.append happend hkeyed).engine
      | reset hreturned hfinal hengine => exact height_newEngine hengine
      | _ => exact h.engine
    refine ⟨?_, ?_, ?_, ?_, hengine⟩
    · rw [hpending]
      exact h.unrepeated
    · rw [hpending, hrepo]
      exact h.unrecorded
    · rw [hpending, hseen]
      exact h.pending
    · rw [hrepo, hseen]
      exact h.stored
  | announce happend =>
    have hdistinct := h.append happend hkeyed
    exact ⟨hdistinct.unrepeated, hdistinct.unrecorded, hdistinct.pending, hdistinct.stored,
      hdistinct.engine⟩
  | sync _ _ _ happend => exact h.append happend hkeyed
  | fail happend => exact h.append happend hkeyed
  | @enqueue batch authentic fresh keys hbatch hauthentic hfresh hkeys =>
    have hqueues : ∀ r ∈ fresh, n₁.Queues r := fun r hr => ((mem_fresh hauthentic hfresh).mp hr).2
    -- what is taken in was not seen before, what waits or is stored was
    have hnew : ∀ r ∈ fresh, ∀ r' : IntegrityRecord, (∃ key ∈ n₁.mempoolSeen, r'.contentKey = .ok key) →
        r.contentKey ≠ r'.contentKey := by
      rintro r hr r' ⟨key, hmem, hkey⟩ heq
      obtain ⟨-, key', hkey', hunseen⟩ := hqueues r hr
      rw [hkey, hkey'] at heq
      exact hunseen (Except.ok.inj heq ▸ hmem)
    have hsub : fresh.Sublist batch := (sublist_of_filterM hfresh).trans (sublist_of_filterM hauthentic)
    have hdistinct : Unrepeated fresh :=
      ((ho batch hbatch).sublist hsub).imp_of_mem fun hr hr' hne =>
        hne (hqueues _ hr) (hqueues _ hr')
    refine ⟨?_, ?_, ?_, ?_, h.engine⟩
    · refine List.pairwise_append.mpr ⟨h.unrepeated, hdistinct, fun r hr r' hr' => ?_⟩
      exact (hnew r' hr' r (h.pending r hr)).symm
    · intro b hb r hr r' hr'
      rcases List.mem_append.mp hr' with hr' | hr'
      · exact h.unrecorded b hb r hr r' hr'
      · exact hnew r' hr' r (h.stored b hb r hr)
    · intro r hr
      rcases List.mem_append.mp hr with hr | hr
      · obtain ⟨key, hmem, hkey⟩ := h.pending r hr
        exact ⟨key, List.mem_union_iff.mpr (Or.inl hmem), hkey⟩
      · obtain ⟨-, key, hkey, -⟩ := hqueues r hr
        exact ⟨key, List.mem_union_iff.mpr (Or.inr (mem_of_mapM hkeys hr hkey)), hkey⟩
    · intro b hb r hr
      obtain ⟨key, hmem, hkey⟩ := h.stored b hb r hr
      exact ⟨key, List.mem_union_iff.mpr (Or.inl hmem), hkey⟩

/-- A repository that is empty or holds the genesis block fetched from a peer has no records. -/
lemma init_records {privateKey : PrivateKey} {validators : ValidatorSet} {blocks : List Block}
    {journalStore : JournalStore} {nowMs : ℕ → ℤ} {n : Node}
    (hblocks : blocks = [] ∨ ∃ genesis, blocks = [genesis] ∧ isValidGenesis genesis = .ok true)
    (h : Node.init privateKey validators blocks journalStore nowMs = .ok n) :
    ∀ b ∈ n.repo, b.records = [] := by
  obtain ⟨repo, active, engine, hrepo, -, -, rfl⟩ := Node.init_eq_ok h
  have hgenesis : ∀ b ∈ blocks, b.records = [] := by
    intro b hb
    rcases hblocks with rfl | ⟨genesis, rfl, hvalid⟩
    · cases hb
    · rw [List.mem_singleton.mp hb]
      unfold isValidGenesis at hvalid
      split_ifs at hvalid
      · obtain ⟨consistent, -, hall⟩ := exists_of_map_eq_ok hvalid
        simp only [Bool.and_eq_true, List.isEmpty_iff] at hall
        exact hall.1.1.2
      · cases hvalid
  intro b hb
  rcases hrepo with rfl | ⟨genesis, hcreate, happend⟩
  · exact hgenesis b hb
  · obtain ⟨rfl, -, -⟩ := Repository.append_eq_ok happend
    rcases List.mem_append.mp hb with hb | hb
    · exact hgenesis b hb
    · rw [List.mem_singleton.mp hb]
      exact (Block.create_items hcreate).1

lemma Distinct.init {privateKey : PrivateKey} {validators : ValidatorSet} {blocks : List Block}
    {journalStore : JournalStore} {nowMs : ℕ → ℤ} {n : Node}
    (hblocks : blocks = [] ∨ ∃ genesis, blocks = [genesis] ∧ isValidGenesis genesis = .ok true)
    (h : Node.init privateKey validators blocks journalStore nowMs = .ok n) : n.Distinct := by
  have hrecords := init_records hblocks h
  obtain ⟨repo, active, engine, -, -, hengine, rfl⟩ := Node.init_eq_ok h
  refine ⟨.nil, nofun, nofun, fun b hb r hr => ?_, height_newEngine hengine⟩
  rw [hrecords b hb] at hr
  cases hr

end Node

/-! ### Nothing is proposed twice -/

/-- The block repeats no record, of its own or of a block of the chain below it. -/
def Block.New (b : Block) (chain : List Block) : Prop :=
  Unrepeated b.records ∧ Unrecorded (chain.filter (·.index < b.index)) b.records

instance (b : Block) (chain : List Block) : Decidable (b.New chain) :=
  inferInstanceAs (Decidable (_ ∧ _))

/-- The blocks that come with the call, as a proposal that is accepted or with a ROUND_CHANGE that is
stored, repeat no record. -/
structure EngineCall.BringsNew (x : EngineCall) (chain : List Block) : Prop where
  proposed : ∀ b, x.call.Accepts x.engine b → b.New chain
  attached : ∀ m, x.call.Stores x.engine m → ∀ b ∈ m.block, b.New chain

/-- The locks that the journal restores repeat no record. -/
def JournalStore.LocksNew (s : JournalStore) (chain : List Block) : Prop :=
  ∀ table, s = .sql table → ∀ row ∈ table, ∀ block cert, row.entry = .prepared block cert →
    block.New chain

/-- The rule that blocks repeat no record of the chain below them, and that no pending record is in
a block below the height. -/
def BlockRule.unrepeated (chain : List Block) (height : ℤ) : BlockRule where
  block b := b.New chain
  row row := ∀ block cert, row.entry = .prepared block cert → block.New chain
  items records _ := Unrepeated records ∧ Unrecorded (chain.filter (·.index < height)) records
  addCommitSignature _ _ h := h

omit [Columns] in
lemma JournalStore.LocksNew.carries {s : JournalStore} {chain : List Block} (h : s.LocksNew chain)
    (height : ℤ) : s.Carries (.unrepeated chain height) :=
  h

omit [Columns] in
lemma ConsensusEngine.builds_unrepeated (e : ConsensusEngine) (chain : List Block) :
    e.Builds (.unrepeated chain e.height) := by
  rintro now records changes block ⟨hunrepeated, hunrecorded⟩ hcreate
  have hrecords := (Block.create_items hcreate).1
  have hindex := (Block.create_consistent hcreate).2.1
  refine ⟨?_, ?_⟩
  · rw [hrecords]
    exact hunrepeated
  · rw [hrecords, hindex]
    exact hunrecorded

/-- The blocks of the engine repeat no record, and neither do its pending ones. -/
structure ConsensusEngine.BuildsNew (chain : List Block) (e : ConsensusEngine) : Prop where
  carries : e.Carries (.unrepeated chain e.height)
  items : (BlockRule.unrepeated chain e.height).items e.pending e.pendingChanges

/-- The chain goes on from the stored blocks with blocks of greater indices. -/
def Repository.Before (repo chain : List Block) : Prop :=
  ∃ later, chain = repo ++ later ∧ ∀ b ∈ later, Repository.height repo < b.index

namespace Repository.Before

variable {repo chain : List Block}

omit [Crypto] [Columns] in
lemma refl (repo : List Block) : Before repo repo := ⟨[], (List.append_nil _).symm, nofun⟩

omit [Columns] in
/-- What the chain has below the next height is stored. -/
lemma unrecorded (h : Before repo chain) {height : ℤ} (hheight : height ≤ Repository.height repo + 1)
    {records : List IntegrityRecord} (hrecords : Unrecorded repo records) :
    Unrecorded (chain.filter (·.index < height)) records := by
  obtain ⟨later, rfl, hlater⟩ := h
  intro b hb
  obtain ⟨hmem, hbelow⟩ := List.mem_filter.mp hb
  rcases List.mem_append.mp hmem with hmem | hmem
  · exact hrecords b hmem
  · have habove := hlater b hmem
    have hbelow := of_decide_eq_true hbelow
    omega

end Repository.Before

namespace Node

/-- The blocks that the node can come to propose repeat no record, and neither do those that it has
proposed. -/
structure ProposesNew (chain : List Block) (n : Node) : Prop where
  engine : ∀ e ∈ n.engine, e.BuildsNew chain
  store : n.journalStore.LocksNew chain
  calls : ∀ x ∈ n.calls, ∀ m ∈ (x.call.run x.engine).2.result.broadcast, m.type = .PRE_PREPARE →
    ∀ b ∈ m.block, b.New chain

variable {chain : List Block}

omit [Columns] in
lemma buildsNew_newEngine {n : Node} (hstore : n.journalStore.LocksNew chain)
    {engine : Option ConsensusEngine} (h : n.newEngine = .ok engine) :
    ∀ e ∈ engine, e.BuildsNew chain := by
  intro e he
  rcases newEngine_eq_ok h with rfl | ⟨-, latest, hash, -, -, rfl⟩
  · cases he
  · cases he
    have hitems : (BlockRule.unrepeated chain (latest.index + 1)).items [] [] := ⟨.nil, nofun⟩
    refine ⟨.initial ((hstore.carries (latest.index + 1)).view ?_ ?_) _ _ _ _ _, hitems⟩
    · exact fun r block cert hrow => hrow block cert rfl
    · exact fun r entry hentry => hentry

lemma ProposesNew.append {n n' : Node} {block : Block} {result : Except PyError Unit}
    (happend : n.Appends block result n') (h : n.ProposesNew chain) : n'.ProposesNew chain := by
  have hstore : (n.journalStore.pruneBelow (block.index + 1)).LocksNew chain :=
    (h.store.carries 0).pruneBelow _
  cases happend with
  | refused => exact h
  | stored => exact ⟨h.engine, h.store, h.calls⟩
  | forgotten =>
    refine ⟨fun e he => ?_, hstore, h.calls⟩
    obtain ⟨e', he', rfl⟩ := Option.map_eq_some_iff.mp he
    obtain ⟨hcarries, hitems⟩ := h.engine e' he'
    have hjournal := (hstore.carries _).refresh hcarries.journal
    exact ⟨⟨hcarries.proposal, hcarries.lock, hcarries.changes, hjournal⟩, hitems⟩
  | advanced hrepo hkeys hpending hactive hengine =>
    exact ⟨buildsNew_newEngine hstore hengine, hstore, h.calls⟩

lemma ProposesNew.event {o : Operation} {n₁ n n' : Node} (hevent : NodeEvent o n₁ n n')
    (hn : n.Distinct) (hbefore : Repository.Before n.repo chain)
    (hbrings : ∀ x ∈ n'.calls, x.BringsNew chain) (h : n.ProposesNew chain) :
    n'.ProposesNew chain := by
  cases hevent with
  | move hmove =>
    cases hmove with
    | @call e c he hc =>
      obtain ⟨hproposed, hattached⟩ :=
        hbrings ⟨n.active, e, c⟩ (List.mem_append_right _ List.mem_cons_self)
      obtain ⟨hcarries, hitems⟩ := h.engine e he
      have hhanded : ∀ p ∈ c.items, (BlockRule.unrepeated chain e.height).items p.1 p.2 := by
        intro p hp
        rw [hc.items hp]
        exact ⟨hn.unrepeated, hbefore.unrecorded (hn.engine e he) hn.unrecorded⟩
      have hclean : c.Clean (.unrepeated chain e.height) e := by
        refine ⟨fun _ => ?_, hproposed, hattached⟩
        rcases c.itemsAt_or e with heq | hmem
        · rw [heq]
          exact hitems
        · apply hhanded
          exact hmem
      have hframe := (c.run_moves e).carries hclean (e.builds_unrepeated chain) hcarries
      refine ⟨fun e' he' => ?_, (h.store.carries _).sync hframe.engine.journal, fun x hx => ?_⟩
      · cases he'
        have hheight := (c.run_moves e).since.height
        refine ⟨hheight ▸ hframe.engine, ?_⟩
        rw [hheight]
        rcases (c.run_moves e).pending with heq | ⟨p, hp, heq⟩
        · exact heq ▸ hitems
        · exact heq ▸ hhanded p hp
      · rcases List.mem_append.mp hx with hx | hx
        · exact h.calls x hx
        · rw [List.mem_singleton.mp hx]
          exact hframe.proposed
    | append happend => exact h.append happend
    | reset hreturned hfinal hengine =>
      exact ⟨buildsNew_newEngine (n := n) h.store hengine, h.store, h.calls⟩
    | _ => exact ⟨h.engine, h.store, h.calls⟩
  | announce happend =>
    have hn' := h.append happend
    exact ⟨hn'.engine, hn'.store, hn'.calls⟩
  | sync _ _ _ happend => exact h.append happend
  | fail happend => exact h.append happend
  | enqueue => exact ⟨h.engine, h.store, h.calls⟩

lemma ProposesNew.init {privateKey : PrivateKey} {validators : ValidatorSet} {blocks : List Block}
    {journalStore : JournalStore} {nowMs : ℕ → ℤ} {n : Node} (hlocks : journalStore.LocksNew chain)
    (h : Node.init privateKey validators blocks journalStore nowMs = .ok n) :
    n.ProposesNew chain := by
  obtain ⟨repo, active, engine, -, -, hengine, rfl⟩ := Node.init_eq_ok h
  have hnew := buildsNew_newEngine (n := { privateKey, active, repo, journalStore, nowMs }) hlocks hengine
  exact ⟨hnew, hlocks, fun x hx => absurd hx List.not_mem_nil⟩

end Node

/-- No record of a batch that the node queues has the content key of a record of the blocks. -/
def Operation.Unrecorded (o : Operation) (blocks : List Block) (n : Node) : Prop :=
  ∀ batch, o.Batch n batch → ∀ r ∈ batch, n.Queues r →
    ∀ b ∈ blocks, ∀ r' ∈ b.records, r.contentKey ≠ r'.contentKey

namespace Node

variable {P : IntegrityRecord → Prop}

lemma Waiting.event {o : Operation} {n₁ n n' : Node}
    (ho : ∀ batch, o.Batch n₁ batch → ∀ r ∈ batch, n₁.Queues r → P r)
    (hevent : NodeEvent o n₁ n n') (h : n.Waiting P) : n'.Waiting P := by
  cases hevent with
  | move hmove hrepo hpending =>
    refine ⟨fun r hr => h.pending r (hpending ▸ hr), ?_⟩
    cases hmove with
    | call he hc =>
      intro e' he' r hr
      cases he'
      exact h.pending_run he hc r hr
    | append happend => exact (h.append happend).engine
    | reset hreturned hfinal hengine => exact waiting_newEngine hengine
    | _ => exact h.engine
  | announce happend => exact ⟨(h.append happend).pending, (h.append happend).engine⟩
  | sync _ _ _ happend => exact h.append happend
  | fail happend => exact h.append happend
  | enqueue hbatch hauthentic hfresh =>
    refine ⟨fun r hr => ?_, h.engine⟩
    rcases List.mem_append.mp hr with hr | hr
    · exact h.pending r hr
    · obtain ⟨hr, hqueues⟩ := (mem_fresh hauthentic hfresh).mp hr
      exact ho _ hbatch r hr hqueues

end Node

/-- A node that is built over stored blocks queues none of their records again, and builds no block
with one, as long as no batch brings such a record that is signed by a validator and whose content
key the new process has not seen. -/
theorem restarted_mempool_unrecorded {privateKey : PrivateKey} {validators : ValidatorSet}
    {blocks : List Block} {journalStore : JournalStore} {nowMs : ℕ → ℤ} {n₀ n : Node}
    (hinit : Node.init privateKey validators blocks journalStore nowMs = .ok n₀)
    (hlife : Node.Lives (fun n o => o.Unrecorded blocks n) n₀ n) :
    Unrecorded blocks n.pending ∧
      ∀ o e c, n.engine = some e → Operation.Calls o n e c →
        ∀ m ∈ (c.run e).2.result.broadcast, m.type = .PRE_PREPARE → ∀ b ∈ m.block,
          c.Reproposes e b ∨ Unrecorded blocks b.records := by
  let P : IntegrityRecord → Prop := fun r =>
    ∀ b ∈ blocks, ∀ r' ∈ b.records, r.contentKey ≠ r'.contentKey
  have hn : n.Waiting P := by
    refine hlife.induction (P := fun n => n.Waiting P)
      (fun n₁ o ho n n' hevent h => h.event ho hevent) ?_
    obtain ⟨repo, active, engine, -, -, hengine, rfl⟩ := Node.init_eq_ok hinit
    exact ⟨nofun, Node.waiting_newEngine hengine⟩
  refine ⟨fun b hb r hr r' hr' => hn.pending r' hr' b hb r hr, fun o e c he hc m hm ht b hb => ?_⟩
  refine ((c.run_moves e).proposed hm ht hb).imp_right ?_
  rintro ⟨-, hrecords | ⟨p, hp, hrecords⟩⟩
  · rw [hrecords]
    exact fun b hb r hr r' hr' => hn.engine e he r' hr' b hb r hr
  · rw [hrecords, hc.items hp]
    exact fun b hb r hr r' hr' => hn.pending r' hr' b hb r hr

omit [Crypto] [Columns] in
/-- The blocks of the single validator after it has recorded the observation of nothing, for concrete
runs. -/
@[irreducible] def Block.recorded : List Block :=
  letI := Crypto.checksums
  ((Node.init (seedKey 0xaa) .single [] .null fun i => i).map fun n₀ =>
    ((Operation.submitRecords [.empty]).run 1 n₀).repo).toOption.getD []

omit [Crypto] [Columns] in
/-- A follower that is built over them queues another observation. -/
theorem restarted_mempool_unrecorded_of_other :
    letI := Crypto.checksums
    letI := Columns.sqlite
    ∃ n₀ record, Node.init (seedKey 0xbb) .single Block.recorded .null (fun i => i) = .ok n₀ ∧
      IntegrityRecord.signed { IntegrityRecord.empty with observedAt := 1 } (seedKey 0xaa) =
        .ok record ∧
      let n := (Operation.receiveRecords [record]).run 1 n₀
      n.repo.length = 2 ∧ n.pending.length = 1 ∧ Unrecorded Block.recorded n.pending := by
  let := Crypto.checksums
  let := Columns.sqlite
  let other := IntegrityRecord.signed { IntegrityRecord.empty with observedAt := 1 } (seedKey 0xaa)
  have hrun : other.bind (fun record =>
      (Node.init (seedKey 0xbb) .single Block.recorded .null fun i => i).map fun n₀ =>
        let n := (Operation.receiveRecords [record]).run 1 n₀
        ((n.repo.length, n.pending.length), (Block.recorded.flatMap (·.records)).all fun r =>
          decide (record.contentKey ≠ r.contentKey))) = .ok ((2, 1), true) := by
    decide +kernel
  obtain ⟨record, hrecord, hrun⟩ := exists_of_bind_eq_ok hrun
  obtain ⟨n₀, hinit, hn⟩ := exists_of_map_eq_ok hrun
  obtain ⟨hlengths, hother⟩ := Prod.mk.inj hn
  obtain ⟨hrepo, hpending⟩ := Prod.mk.inj hlengths
  have hok : (Operation.receiveRecords [record]).Unrecorded Block.recorded n₀ := by
    rintro batch (hbatch | ⟨_, hbatch, -⟩)
    · cases hbatch
      intro r hr _ b hb r' hr'
      have hmem : r' ∈ Block.recorded.flatMap (·.records) := List.mem_flatMap.mpr ⟨b, hb, hr'⟩
      rw [List.mem_singleton.mp hr]
      exact of_decide_eq_true (List.all_eq_true.mp hother r' hmem)
    · cases hbatch
  have hlife : Node.Lives (fun n o => o.Unrecorded Block.recorded n) n₀
      ((Operation.receiveRecords [record]).run 1 n₀) := .operation .refl hok 1
  have hunrecorded := (restarted_mempool_unrecorded hinit hlife).1
  exact ⟨n₀, record, hinit, hrecord, hrepo, hpending, hunrecorded⟩

omit [Crypto] [Columns] in
/-- After a restart the old gossip is queued again: by a follower, and by the validator, which puts
the same observation on the chain a second time. -/
theorem replayed_after_restart :
    letI := Crypto.checksums
    letI := Columns.sqlite
    let old := Block.recorded.flatMap (·.records)
    (Node.init (seedKey 0xbb) .single Block.recorded .null fun i => i).bind (fun n₀ =>
      (Node.init (seedKey 0xaa) .single Block.recorded .null fun i => i).map fun n₁ =>
        let n := (Operation.receiveRecords old).run 1 n₀
        let n' := (Operation.receiveRecords old).run 1 n₁
        (old.length, decide (n.pending = old), n'.repo.map fun b => decide (b.records = old))) =
      .ok (1, true, [false, true, true]) := by
  decide +kernel

end Helix
