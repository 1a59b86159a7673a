import Helix.Node.Stored
import Helix.Consensus.Membership
import Helix.Domain.Binding
import Helix.Domain.Encoding

/-!
# Starting a node

`build_node` collects the validators from the node's own key and its list of peers, may adopt a genesis
block that a peer sends, and constructs the node over its repository. The collection does not depend on
the order of the list or on repetitions, so nodes that name the same validators start with the same
genesis block and the same schedule of proposers. An adopted genesis block is stored before its changes
are replayed for the first time; `boots_iff` says for which blocks that goes well.
-/

namespace Helix

variable [Crypto] [Columns]

/-! ### The validators of the configuration -/

/-- `Peer`: a remote validator. -/
structure Peer where
  nodeId : PyStr
  host : PyStr
  port : ℤ
  publicKey : PublicKey

/-- The `keys` of `build_node`: the node's own key and those of its peers, by text. -/
def collectKeys (privateKey : PrivateKey) (peers : List Peer) : Dict PyStr PublicKey :=
  peers.foldl (fun keys p => keys.set p.publicKey.toHex p.publicKey)
    (Dict.empty.set privateKey.publicKey.toHex privateKey.publicKey)

/-- The validators that `build_node` hands to the node. -/
def collectValidators (privateKey : PrivateKey) (peers : List Peer) : Except PyError ValidatorSet :=
  ValidatorSet.new (collectKeys privateKey peers).values

omit [Columns] in
lemma collectKeys_eq (privateKey : PrivateKey) (peers : List Peer) :
    collectKeys privateKey peers =
      ValidatorSet.byHex (privateKey.publicKey :: peers.map (·.publicKey)) := by
  simp [collectKeys, ValidatorSet.byHex, Dict.ofList, List.foldl_map]

omit [Columns] in
/-- The collection never fails, and holds the own key and those of the peers. -/
lemma exists_collectValidators (privateKey : PrivateKey) (peers : List Peer) :
    ∃ V, collectValidators privateKey peers = .ok V ∧
      ∀ k, k ∈ V.validators ↔ k = privateKey.publicKey ∨ ∃ p ∈ peers, p.publicKey = k := by
  have hmem : ∀ k, k ∈ (collectKeys privateKey peers).values ↔
      k = privateKey.publicKey ∨ ∃ p ∈ peers, p.publicKey = k := by
    intro k
    rw [collectKeys_eq]
    simp [Dict.mem_values, ← Dict.get?_eq_some, ValidatorSet.get?_byHex]
  have hne : (collectKeys privateKey peers).values ≠ [] :=
    List.ne_nil_of_mem ((hmem privateKey.publicKey).mpr (Or.inl rfl))
  have hnodup : (collectKeys privateKey peers).values.Nodup := by
    rw [nodup_values, collectKeys_eq]
    intro s s' k hs hs'
    rw [(ValidatorSet.get?_byHex.mp hs).1, (ValidatorSet.get?_byHex.mp hs').1]
  obtain ⟨V, hV⟩ := ValidatorSet.exists_new hne hnodup
  exact ⟨V, hV, fun k => ((ValidatorSet.new_eq_ok.mp hV).2.2 k).trans (hmem k)⟩

omit [Columns] in
/-- The genesis block of a validator set can be built and hashed. -/
lemma exists_genesisBlock (V : ValidatorSet) :
    ∃ genesis hash, genesisBlock V = .ok genesis ∧ genesis.hash = .ok hash := by
  have hchanges : ∀ c ∈ V.validators.map fun v => (⟨.ADD, v.toHex⟩ : ValidatorChange),
      ∃ b, c.canonical = .ok b := by
    intro c hc
    obtain ⟨v, -, rfl⟩ := List.mem_map.mp hc
    exact ValidatorChange.exists_canonical_iff.mpr (encode_ok_iff.mpr (IsScalar.toHex _))
  have hrecords : ∀ r ∈ ([] : List IntegrityRecord), ∃ b, r.canonical = .ok b := fun r hr => (by cases hr)
  obtain ⟨genesis, hgenesis⟩ := Block.exists_create hrecords hchanges 0 ZERO_HASH 0 ZERO_HASH
  obtain ⟨hash, hhash⟩ := Block.exists_hash_of_create hgenesis .zeroHash .zeroHash
  exact ⟨genesis, hash, hgenesis, hhash⟩

omit [Columns] in
/-- Nodes whose own key and peers make up the same set of keys, in whatever order and however often
they are listed, have the same validators in the same order, the same genesis block and the same
proposers, and each validator proposes once in as many rounds as there are validators. -/
theorem same_configuration {K : Finset PublicKey} {key key' : PrivateKey} {peers peers' : List Peer}
    (h : ∀ k, k ∈ K ↔ k = key.publicKey ∨ ∃ p ∈ peers, p.publicKey = k)
    (h' : ∀ k, k ∈ K ↔ k = key'.publicKey ∨ ∃ p ∈ peers', p.publicKey = k) :
    ∃ V V' hash, collectValidators key peers = .ok V ∧ collectValidators key' peers' = .ok V' ∧
      V.validators = V'.validators ∧ (∀ k, k ∈ V.validators ↔ k ∈ K) ∧
      (genesisBlock V).bind Block.hash = .ok hash ∧ (genesisBlock V').bind Block.hash = .ok hash ∧
      (∀ height round, V.proposer height round = V'.proposer height round) ∧
      ∀ height round, ∀ k ∈ K, ∃! i : ℕ, i < K.card ∧ V.proposer height (round + i) = k := by
  obtain ⟨V, hV, hmem⟩ := exists_collectValidators key peers
  obtain ⟨V', hV', hmem'⟩ := exists_collectValidators key' peers'
  have hK : ∀ k, k ∈ V.validators ↔ k ∈ K := fun k => (hmem k).trans (h k).symm
  obtain rfl : V = V' := ValidatorSet.ext_mem fun k => by rw [hK, h', hmem']
  obtain ⟨genesis, hash, hgenesis, hhash⟩ := exists_genesisBlock V
  have hbind : (genesisBlock V).bind Block.hash = .ok hash := by rw [hgenesis]; exact hhash
  have hcard : K.card = V.size := by
    rw [← V.card_members]
    congr 1
    ext k
    rw [V.mem_members, hK]
  refine ⟨V, V, hash, hV, hV', rfl, hK, hbind, hbind, fun _ _ => rfl, fun height round k hk => ?_⟩
  rw [hcard]
  exact V.existsUnique_turn height round ((hK k).mpr hk)

omit [Crypto] [Columns] in
/-- Two nodes, one of which lists the other one twice and itself as well. -/
theorem same_configuration_of_pair :
    letI := Crypto.checksums
    let peer (n : UInt8) : Peer := ⟨[], [], 0, seedPublic n⟩
    ∃ V V', collectValidators (seedKey 0xaa) [peer 0xbb, peer 0xaa, peer 0xbb] = .ok V ∧
      collectValidators (seedKey 0xbb) [peer 0xaa] = .ok V' ∧ V.validators = V'.validators := by
  let := Crypto.checksums
  intro peer
  have hfirst : ∀ k, k ∈ ({seedPublic 0xaa, seedPublic 0xbb} : Finset PublicKey) ↔
      k = (seedKey 0xaa).publicKey ∨ ∃ p ∈ [peer 0xbb, peer 0xaa, peer 0xbb], p.publicKey = k := by
    intro k
    change _ ↔ k = seedPublic 0xaa ∨ _
    simp only [Finset.mem_insert, Finset.mem_singleton, List.mem_cons, List.not_mem_nil, or_false,
      exists_eq_or_imp, exists_eq_left, peer]
    tauto
  have hsecond : ∀ k, k ∈ ({seedPublic 0xaa, seedPublic 0xbb} : Finset PublicKey) ↔
      k = (seedKey 0xbb).publicKey ∨ ∃ p ∈ [peer 0xaa], p.publicKey = k := by
    intro k
    change _ ↔ k = seedPublic 0xbb ∨ _
    simp only [Finset.mem_insert, Finset.mem_singleton, List.mem_cons, List.not_mem_nil, or_false,
      exists_eq_left, peer]
    tauto
  obtain ⟨V, V', -, hV, hV', heq, -⟩ := same_configuration hfirst hsecond
  exact ⟨V, V', hV, hV', heq⟩

/-! ### A genesis block from a peer -/

/-- `fetch_genesis`, with what the peer answers. -/
def fetchGenesis (answer : Option Block) : Except PyError (Option Block) :=
  match answer with
  | none => .ok none
  | some block => (isValidGenesis block).map fun valid => if valid then some block else none

/-- The first part of `build_node`: over an empty repository, a node that is told to do so adopts the
genesis block of a peer. -/
def adoptGenesis (bootstrapGenesis : Bool) (answer : Option Block) : Eff (List Block) PyError Unit := do
  let blocks ← Eff.get
  if Repository.height blocks < 0 ∧ bootstrapGenesis then
    match ← Eff.lift (fetchGenesis answer) with
    | none => return
    | some genesis =>
      let stored ← Eff.lift (Repository.append blocks genesis)
      Eff.modify fun _ => stored

/-- `build_node`, over the blocks of the repository. -/
def buildNode (privateKey : PrivateKey) (peers : List Peer) (bootstrapGenesis : Bool)
    (answer : Option Block) (journalStore : JournalStore) (nowMs : ℕ → ℤ) :
    Eff (List Block) PyError Node := do
  let validators ← Eff.lift (collectValidators privateKey peers)
  adoptGenesis bootstrapGenesis answer
  let blocks ← Eff.get
  let n ← Eff.lift (Node.init privateKey validators blocks journalStore nowMs)
  Eff.modify fun _ => n.repo
  return n

/-- The node starts on the block as its genesis, with the validators that the block names. -/
def Block.Starts (genesis : Block) (result : Except PyError Node × List Block) : Prop :=
  ∃ n, result = (.ok n, [genesis]) ∧ n.active.validators ≠ [] ∧
    ∀ k, k ∈ n.active.validators ↔
      ∃ c ∈ genesis.validatorChanges, PublicKey.fromHex c.validator = .ok k

/-- Every node that fetches the block starts on it, and so does every node that is started again on the
repository, however it is configured then. -/
def Block.Boots (genesis : Block) : Prop :=
  ∀ privateKey peers journalStore nowMs,
    genesis.Starts (buildNode privateKey peers true (some genesis) journalStore nowMs []) ∧
    ∀ bootstrapGenesis answer,
      genesis.Starts (buildNode privateKey peers bootstrapGenesis answer journalStore nowMs [genesis])

/-! ### Which genesis blocks boot -/

section Adds

omit [Crypto]

variable {changes : List ValidatorChange}

omit [Columns] in
/-- If nothing is removed, every text that is named stands. -/
lemma stands_of_adds (hadd : ∀ c ∈ changes, c.action = .ADD) {s : PyStr} :
    Stands changes s ↔ s ∈ texts changes := by
  induction changes using List.reverseRecOn with
  | nil => simp [not_stands_nil, texts]
  | append_singleton changes c ih =>
    have hc : c = ⟨.ADD, c.validator⟩ := by rw [← hadd c (by simp)]
    rw [stands_concat, ih fun c hc => hadd c (List.mem_append_left _ hc)]
    have htexts : s ∈ texts (changes ++ [c]) ↔ s ∈ texts changes ∨ s = c.validator := by
      simp [texts]
    rw [htexts]
    by_cases hs : s = c.validator
    · subst hs
      exact iff_of_true (Or.inl hc) (Or.inr rfl)
    · have hne : c ≠ ⟨.ADD, s⟩ := by
        rintro rfl
        exact hs rfl
      simp [hs, Ne.symm hs, hne]

omit [Columns] in
/-- Additions can be replayed just when every text in them is that of a key. -/
lemma exists_applyToKeys_iff (hadd : ∀ c ∈ changes, c.action = .ADD) (keys : Dict PyStr PublicKey) :
    (∃ out, applyToKeys keys changes = .ok out) ↔
      ∀ c ∈ changes, ∃ k, PublicKey.fromHex c.validator = .ok k := by
  induction changes using List.reverseRecOn with
  | nil => exact iff_of_true ⟨keys, rfl⟩ fun c hc => by cases hc
  | append_singleton changes c ih =>
    have hbefore := ih fun c hc => hadd c (List.mem_append_left _ hc)
    constructor
    · rintro ⟨out, hout⟩ c' hc'
      obtain ⟨mid, hmid, hlast⟩ := applyToKeys_concat.mp hout
      rcases List.mem_append.mp hc' with hc' | hc'
      · exact hbefore.mp ⟨mid, hmid⟩ c' hc'
      · rw [List.mem_singleton.mp hc']
        rcases hlast with ⟨-, k, hk, -⟩ | ⟨hremove, -⟩
        · exact ⟨k, hk⟩
        · rw [hadd c (by simp)] at hremove
          cases hremove
    · intro h
      obtain ⟨mid, hmid⟩ := hbefore.mpr fun c' hc' => h c' (List.mem_append_left _ hc')
      obtain ⟨k, hk⟩ := h c (by simp)
      exact ⟨_, applyToKeys_concat.mpr ⟨mid, hmid, Or.inl ⟨hadd c (by simp), k, hk, rfl⟩⟩⟩

/-- The changes name keys only, and each key by one text. -/
structure NamesKeys (changes : List ValidatorChange) : Prop where
  decodes : ∀ c ∈ changes, ∃ k, PublicKey.fromHex c.validator = .ok k
  spelling : ∀ c ∈ changes, ∀ c' ∈ changes, ∀ k, PublicKey.fromHex c.validator = .ok k →
    PublicKey.fromHex c'.validator = .ok k → c.validator = c'.validator

omit [Columns] in
/-- A set is derived of additions just when they name keys by one text each; it holds those keys. -/
lemma deriveValidatorSet_adds (hadd : ∀ c ∈ changes, c.action = .ADD) (hne : changes ≠ []) :
    (∃ V, deriveValidatorSet changes = .ok V) ↔ NamesKeys changes := by
  have hget : ∀ {keys}, applyToKeys Dict.empty changes = .ok keys → ∀ s k, keys.get? s = some k ↔
      s ∈ texts changes ∧ PublicKey.fromHex s = .ok k := by
    intro keys hkeys s k
    rw [get?_replayed hkeys, stands_of_adds hadd]
  constructor
  · rintro ⟨V, hV⟩
    obtain ⟨keys, hkeys, hholds⟩ := deriveValidatorSet_eq_ok.mp hV
    refine ⟨(exists_applyToKeys_iff hadd _).mp ⟨keys, hkeys⟩, fun c hc c' hc' k hk hk' => ?_⟩
    exact hholds.unique _ _ k ((hget hkeys _ _).mpr ⟨List.mem_map_of_mem hc, hk⟩)
      ((hget hkeys _ _).mpr ⟨List.mem_map_of_mem hc', hk'⟩)
  · rintro ⟨hdecodes, hspelling⟩
    obtain ⟨keys, hkeys⟩ := (exists_applyToKeys_iff hadd Dict.empty).mpr hdecodes
    have hnodup : keys.values.Nodup := by
      rw [nodup_values]
      intro s s' k hs hs'
      obtain ⟨hs, hk⟩ := (hget hkeys s k).mp hs
      obtain ⟨hs', hk'⟩ := (hget hkeys s' k).mp hs'
      obtain ⟨c, hc, rfl⟩ := List.mem_map.mp hs
      obtain ⟨c', hc', rfl⟩ := List.mem_map.mp hs'
      exact hspelling c hc c' hc' k hk hk'
    obtain ⟨c, hc⟩ := List.exists_mem_of_ne_nil _ hne
    obtain ⟨k, hk⟩ := hdecodes c hc
    have hmem : k ∈ keys.values :=
      Dict.mem_values.mpr ⟨_, Dict.get?_eq_some.mp ((hget hkeys _ _).mpr ⟨List.mem_map_of_mem hc, hk⟩)⟩
    have hlen : keys.len ≠ 0 := by
      rw [Dict.len, ← List.length_map (f := Prod.snd), Ne, List.length_eq_zero_iff]
      exact List.ne_nil_of_mem hmem
    obtain ⟨V, hV⟩ := ValidatorSet.exists_new (List.ne_nil_of_mem hmem) hnodup
    refine ⟨V, ?_⟩
    rw [deriveValidatorSet, hkeys]
    exact (if_neg hlen).trans hV

omit [Columns] in
lemma mem_of_deriveValidatorSet_adds (hadd : ∀ c ∈ changes, c.action = .ADD) {V : ValidatorSet}
    (hV : deriveValidatorSet changes = .ok V) (k : PublicKey) :
    k ∈ V.validators ↔ ∃ c ∈ changes, PublicKey.fromHex c.validator = .ok k := by
  obtain ⟨keys, hkeys, hholds⟩ := deriveValidatorSet_eq_ok.mp hV
  rw [hholds.mem]
  simp only [get?_replayed hkeys, stands_of_adds hadd, texts, List.mem_map]
  constructor
  · rintro ⟨s, ⟨c, hc, rfl⟩, hk⟩
    exact ⟨c, hc, hk⟩
  · rintro ⟨c, hc, hk⟩
    exact ⟨_, ⟨c, hc, rfl⟩, hk⟩

end Adds

omit [Columns] in
/-- What `is_valid_genesis` has checked. -/
lemma isValidGenesis_eq_ok {block : Block} (h : isValidGenesis block = .ok true) :
    block.index = 0 ∧ block.header.previousHash = ZERO_HASH ∧ block.Consistent ∧
      block.validatorChanges ≠ [] ∧ ∀ c ∈ block.validatorChanges, c.action = .ADD := by
  have hconsistent := consistent_of_isValidGenesis h
  unfold isValidGenesis at h
  split_ifs at h with hlink
  · rw [show block.hasConsistentMerkleRoot = .ok true from hconsistent] at h
    simp only [Except.map, Except.ok.injEq, Bool.and_eq_true, decide_eq_true_eq,
      List.all_eq_true] at h
    exact ⟨hlink.1, hlink.2, hconsistent, List.length_pos_iff.mp h.1.2, h.2⟩
  · cases h

/-- A node is constructed over stored blocks if a set can be derived from them and the tip hashed. -/
lemma Node.exists_init {blocks : List Block} {latest : Block} {hash : PyStr} {V : ValidatorSet}
    (hlast : blocks.getLast? = some latest) (hindex : 0 ≤ latest.index)
    (hhash : latest.hash = .ok hash)
    (hV : deriveValidatorSet (blocks.flatMap (·.validatorChanges)) = .ok V)
    (privateKey : PrivateKey) (validators : ValidatorSet) (journalStore : JournalStore)
    (nowMs : ℕ → ℤ) :
    ∃ n, Node.init privateKey validators blocks journalStore nowMs = .ok n ∧ n.active = V ∧
      n.repo = blocks := by
  have hheight : ¬Repository.height blocks < 0 := by
    rw [Repository.height, hlast]
    exact not_lt.mpr hindex
  obtain ⟨engine, hengine⟩ := Node.exists_newEngine
    (n := { privateKey, active := V, repo := blocks, journalStore, nowMs }) hlast hhash
  refine ⟨{ privateKey, active := V, repo := blocks, journalStore, nowMs, engine }, ?_, rfl, rfl⟩
  simp only [Node.init, if_neg hheight, hV, hengine, bind, Except.bind]
  rfl

lemma Node.active_of_init {privateKey : PrivateKey} {validators : ValidatorSet} {blocks : List Block}
    {journalStore : JournalStore} {nowMs : ℕ → ℤ} {n : Node}
    (hheight : ¬Repository.height blocks < 0)
    (h : Node.init privateKey validators blocks journalStore nowMs = .ok n) :
    deriveValidatorSet (blocks.flatMap (·.validatorChanges)) = .ok n.active := by
  simp only [Node.init, if_neg hheight] at h
  obtain ⟨repo, hrepo, h⟩ := exists_of_bind_eq_ok h
  cases hrepo
  obtain ⟨active, hactive, h⟩ := exists_of_bind_eq_ok h
  obtain ⟨engine, -, h⟩ := exists_of_bind_eq_ok h
  cases h
  exact hactive

/-- What `build_node` does once a genesis block has been adopted or not. -/
lemma buildNode_eq {blocks blocks' : List Block} {bootstrapGenesis : Bool} {answer : Option Block}
    (hadopt : adoptGenesis bootstrapGenesis answer blocks = (.ok (), blocks'))
    (privateKey : PrivateKey) (peers : List Peer) (journalStore : JournalStore) (nowMs : ℕ → ℤ) :
    ∃ validators, buildNode privateKey peers bootstrapGenesis answer journalStore nowMs blocks =
      match Node.init privateKey validators blocks' journalStore nowMs with
      | .ok n => (.ok n, n.repo)
      | .error err => (.error err, blocks') := by
  obtain ⟨V, hV, -⟩ := exists_collectValidators privateKey peers
  refine ⟨V, ?_⟩
  rw [buildNode, Eff.lift_bind_ok hV, Eff.bind_apply_ok hadopt, Eff.bind_apply_ok (Eff.get_apply _)]
  cases hinit : Node.init privateKey V blocks' journalStore nowMs with
  | error err => exact Eff.bind_apply_error rfl
  | ok n => exact Eff.lift_bind_ok rfl _ _

/-- A repository with blocks in it is left as it is. -/
lemma adoptGenesis_stored {blocks : List Block} (hheight : ¬Repository.height blocks < 0)
    (bootstrapGenesis : Bool) (answer : Option Block) :
    adoptGenesis bootstrapGenesis answer blocks = (.ok (), blocks) := by
  have hskip : ¬(Repository.height blocks < 0 ∧ bootstrapGenesis = true) := fun h => hheight h.1
  rw [adoptGenesis, Eff.bind_apply_ok (Eff.get_apply _), if_neg hskip]
  rfl

/-- A valid answer is stored in an empty repository, if it can be. -/
lemma adoptGenesis_fetched {genesis : Block} (hvalid : isValidGenesis genesis = .ok true) :
    adoptGenesis true (some genesis) [] =
      match Repository.append [] genesis with
      | .ok stored => (.ok (), stored)
      | .error err => (.error err, []) := by
  have hfetch : fetchGenesis (some genesis) = .ok (some genesis) := by
    rw [fetchGenesis, hvalid]
    rfl
  have hempty : Repository.height [] < 0 ∧ true = true := ⟨by decide, rfl⟩
  rw [adoptGenesis, Eff.bind_apply_ok (Eff.get_apply _), if_pos hempty, Eff.lift_bind_ok hfetch]
  cases happend : Repository.append [] genesis with
  | error err => exact Eff.bind_apply_error (by rw [Eff.lift, happend])
  | ok stored => exact Eff.lift_bind_ok happend _ _

/-- A fetched genesis block that was found valid boots just when its header can be hashed, its timestamp fits
its column, and its changes name keys only, each key by one text. -/
theorem boots_iff {genesis : Block} (hvalid : isValidGenesis genesis = .ok true) :
    genesis.Boots ↔ IsScalar genesis.header.proposer ∧
      Columns.integer genesis.header.timestamp = true ∧ NamesKeys genesis.validatorChanges := by
  obtain ⟨hindex, hprevious, hconsistent, hne, hadd⟩ := isValidGenesis_eq_ok hvalid
  obtain ⟨ls, -, hroot⟩ := Block.exists_leaves hconsistent
  have hchanges : [genesis].flatMap (·.validatorChanges) = genesis.validatorChanges := by simp
  have hheight : ¬Repository.height [genesis] < 0 := not_lt.mpr hindex.ge
  have hhash : (∃ h, genesis.hash = .ok h) ↔ IsScalar genesis.header.proposer := by
    rw [Block.exists_hash_iff]
    simp only [BlockHeader.texts, hprevious, hroot, List.mem_cons, List.not_mem_nil, or_false,
      forall_eq_or_imp, forall_eq]
    exact ⟨fun h => h.2.2, fun h => ⟨.zeroHash, .toHex _, h⟩⟩
  have hholds : ∀ {hash}, genesis.hash = .ok hash → (Columns.holds genesis.header hash = true ↔
      Columns.integer genesis.header.timestamp = true) := by
    intro hash hhash
    have hzero : Columns.integer genesis.header.index = true :=
      (congrArg Columns.integer hindex).trans Columns.integer_zero
    rw [Columns.holds_iff hhash (hprevious ▸ Columns.varchar_zeroHash), and_iff_right hzero]
  constructor
  · intro hboots
    let privateKey : PrivateKey := ⟨List.replicate 32 0, by simp⟩
    obtain ⟨⟨n, hn, -⟩, hagain⟩ := hboots privateKey [] .null fun i => i
    obtain ⟨stored, happend⟩ : ∃ stored, Repository.append [] genesis = .ok stored := by
      cases happend : Repository.append [] genesis with
      | error err =>
        have hadopt := adoptGenesis_fetched hvalid
        rw [happend] at hadopt
        obtain ⟨V, hV, -⟩ := exists_collectValidators privateKey []
        rw [buildNode, Eff.lift_bind_ok hV, Eff.bind_apply_error hadopt] at hn
        cases hn
      | ok stored => exact ⟨stored, rfl⟩
    obtain ⟨-, -, hash, hhash'⟩ := Repository.append_eq_ok happend
    have htimestamp := (hholds hhash').mp (Repository.holds_of_append happend hhash')
    obtain ⟨n', hn', -⟩ := hagain false none
    obtain ⟨validators, hbuild⟩ := buildNode_eq (adoptGenesis_stored hheight false none) privateKey []
      .null fun i => i
    rw [hbuild] at hn'
    refine ⟨hhash.mp ⟨hash, hhash'⟩, htimestamp, (deriveValidatorSet_adds hadd hne).mp ?_⟩
    cases hinit : Node.init privateKey validators [genesis] .null fun i => i with
    | error err =>
      rw [hinit] at hn'
      cases hn'
    | ok n'' => exact ⟨n''.active, hchanges ▸ Node.active_of_init hheight hinit⟩
  · rintro ⟨hproposer, htimestamp, hnames⟩ privateKey peers journalStore nowMs
    obtain ⟨hash, hhash⟩ := hhash.mpr hproposer
    obtain ⟨V, hV⟩ := (deriveValidatorSet_adds hadd hne).mpr hnames
    have hstarts : ∀ bootstrapGenesis answer blocks,
        adoptGenesis bootstrapGenesis answer blocks = (.ok (), [genesis]) → genesis.Starts
          (buildNode privateKey peers bootstrapGenesis answer journalStore nowMs blocks) := by
      intro bootstrapGenesis answer blocks hadopt
      obtain ⟨validators, hbuild⟩ := buildNode_eq hadopt privateKey peers journalStore nowMs
      obtain ⟨n, hn, hactive, hrepo⟩ := Node.exists_init rfl hindex.ge hhash (hchanges ▸ hV)
        privateKey validators journalStore nowMs
      rw [hn] at hbuild
      refine ⟨n, hbuild.trans (by rw [← hrepo]), n.active.nonempty, fun k => ?_⟩
      rw [hactive]
      exact mem_of_deriveValidatorSet_adds hadd hV k
    have happend : Repository.append [] genesis = .ok [genesis] := by
      have hheld := (hholds hhash).mpr htimestamp
      simp [Repository.append, Repository.height, hindex, hhash, hheld, bind, Except.bind, pure, Except.pure]
    refine ⟨hstarts true _ _ ?_, fun bootstrapGenesis answer => hstarts _ _ _ ?_⟩
    · rw [adoptGenesis_fetched hvalid, happend]
    · exact adoptGenesis_stored hheight bootstrapGenesis answer

omit [Crypto] [Columns] in
/-- A genesis block that names the given texts, for concrete runs. -/
def Block.genesisOf (validators : List PyStr) : Block :=
  letI := Crypto.checksums
  ((Block.create 0 ZERO_HASH 0 ZERO_HASH [] (validators.map fun v => ⟨.ADD, v⟩)).toOption).getD
    { header := ⟨0, ZERO_HASH, 0, [], []⟩ }

omit [Crypto] [Columns] in
/-- A genesis block that names one validator twice. -/
theorem boots_of_repeated :
    letI := Crypto.checksums
    letI := Columns.sqlite
    (Block.genesisOf [(seedPublic 0xaa).toHex, (seedPublic 0xaa).toHex]).Boots := by
  let := Crypto.checksums
  let := Columns.sqlite
  let genesis := Block.genesisOf [(seedPublic 0xaa).toHex, (seedPublic 0xaa).toHex]
  have hvalid : isValidGenesis genesis = .ok true := by decide +kernel
  have hchanges : genesis.validatorChanges = List.replicate 2 ⟨.ADD, (seedPublic 0xaa).toHex⟩ := by
    decide +kernel
  have hmem : ∀ c ∈ genesis.validatorChanges, c.validator = (seedPublic 0xaa).toHex := by
    intro c hc
    rw [hchanges] at hc
    rw [List.eq_of_mem_replicate hc]
  have hproposer : genesis.header.proposer = ZERO_HASH := by decide +kernel
  have htimestamp : Columns.integer genesis.header.timestamp = true := by decide +kernel
  refine (boots_iff hvalid).mpr ⟨?_, htimestamp, fun c hc => ?_, fun c hc c' hc' _ _ _ => ?_⟩
  · rw [hproposer]
    exact .zeroHash
  · rw [hmem c hc]
    exact ⟨_, PublicKey.fromHex_toHex _⟩
  · rw [hmem c hc, hmem c' hc']

omit [Crypto] [Columns] in
/-- A node adopts a genesis block whose only validator is no key, stores it and raises; from then on it
raises at every start. So does one that adopts a block with two spellings of one key. -/
theorem adopted_genesis_never_boots :
    letI := Crypto.checksums
    letI := Columns.sqlite
    let spelled := (seedPublic 0xaa).toHex
    let capital := str "AAAAAAAAAAAAAAAAAAAAAAAAAAAAAAAAAAAAAAAAAAAAAAAAAAAAAAAAAAAAAAAA"
    ∀ genesis ∈ [Block.genesisOf [str "zz"], Block.genesisOf [spelled, capital]],
      let first := buildNode (seedKey 0xbb) [] true (some genesis) .null (fun i => i) []
      let second := buildNode (seedKey 0xbb) [] true none .null (fun i => i) first.2
      isValidGenesis genesis = .ok true ∧
        (first.1.isOk, first.2.length, second.1.isOk) = (false, 1, false) := by
  let := Crypto.checksums
  let := Columns.sqlite
  intro spelled capital genesis hgenesis
  simp only [List.mem_cons, List.not_mem_nil, or_false] at hgenesis
  rcases hgenesis with rfl | rfl
  · exact ⟨by decide +kernel, by decide +kernel⟩
  · exact ⟨by decide +kernel, by decide +kernel⟩

end Helix
