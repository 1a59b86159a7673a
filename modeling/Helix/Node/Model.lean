import Helix.Consensus.Engine
import Helix.Consensus.Finality

/-!
# The node

A node runs one height at a time: it keeps pending records and membership changes, drives the engine
of its working height, stores finalized blocks and builds the engine of the next height. Its methods
hold one lock, so they run one after another; a method is a computation over the node, and an
exception leaves behind the changes made before it. What peers answer to `fetch_block` is an argument
of the methods that fetch.
-/

namespace Helix

variable [Crypto]

/-! ### Records and the genesis block -/

namespace IntegrityRecord

/-- `signed`. -/
def signed (r : IntegrityRecord) (privateKey : PrivateKey) : Except PyError IntegrityRecord :=
  r.signingBytes.map fun bytes =>
    { r with observer := privateKey.publicKey.toHex, signature := toHex (privateKey.sign bytes) }

/-- `verify`: the record is signed by a member of `allowed`. -/
def verify (r : IntegrityRecord) (allowed : ValidatorSet) : Except PyError Bool :=
  if r.observer = [] ∨ r.signature = [] then .ok false
  else
    match PublicKey.fromHex r.observer with
    | .error _ => .ok false
    | .ok key =>
      if allowed.contains key then do
        let bytes ← fromHex r.signature
        let message ← r.signingBytes
        return key.verify bytes message
      else .ok false

end IntegrityRecord

/-- `genesis_block`: an ADD for each initial validator. -/
def genesisBlock (validators : ValidatorSet) : Except PyError Block :=
  Block.create 0 ZERO_HASH 0 ZERO_HASH []
    (validators.validators.map fun v => ⟨.ADD, v.toHex⟩)

/-- `is_valid_genesis`: what a fetched genesis block has to pass. -/
def isValidGenesis (block : Block) : Except PyError Bool :=
  if block.index = 0 ∧ block.header.previousHash = ZERO_HASH then
    block.hasConsistentMerkleRoot.map fun consistent =>
      consistent && block.records.isEmpty && 0 < block.validatorChanges.length &&
        block.validatorChanges.all (·.action = .ADD)
  else .ok false

/-- The empty block that follows the genesis block, for concrete runs. -/
def Block.afterGenesis (validators : ValidatorSet) (timestamp : ℤ) : Block :=
  let previousHash := ((genesisBlock validators).bind Block.hash).toOption.getD []
  { header := ⟨1, previousHash, timestamp, toHex (merkleRoot []), []⟩ }

omit [Crypto] in
/-- The block with the seal of `seedKey n`. -/
def Block.sealedBy (n : UInt8) (block : Block) : Block :=
  letI := Crypto.checksums
  let blockHash := (block.hash.bind encode).toOption.getD []
  block.addCommitSignature (seedPublic n) ((seedKey n).sign blockHash)

omit [Crypto] in
/-- The empty block after the genesis block of the single validator, with its seal. -/
def Block.sealedAfterGenesis : Block :=
  letI := Crypto.checksums
  .sealedBy 0xaa (Block.afterGenesis .single 0)

omit [Crypto] in
/-- A record of `seedKey n` about an entity. -/
def IntegrityRecord.ofSeed (n : UInt8) (entityId : PyStr) : IntegrityRecord :=
  letI := Crypto.checksums
  let record : IntegrityRecord := ⟨entityId, str "temperature", [], [], .OK, 0, [], []⟩
  (record.signed (seedKey n)).toOption.getD record

omit [Crypto] in
/-- The block after that genesis block with a record and the change that makes `bb..bb` a validator. -/
def Block.joining : Block :=
  letI := Crypto.checksums
  let previousHash := ((genesisBlock .single).bind Block.hash).toOption.getD []
  let block := Block.create 1 previousHash 5 (seedPublic 0xaa).toHex [.ofSeed 0xaa (str "h1")]
    [⟨.ADD, (seedPublic 0xbb).toHex⟩]
  .sealedBy 0xaa (block.toOption.getD (Block.afterGenesis .single 0))

omit [Crypto] in
/-- The next block, which the two have sealed, with a record and the change that removes `aa..aa`. -/
def Block.leaving : Block :=
  letI := Crypto.checksums
  let previousHash := Block.joining.hash.toOption.getD []
  let block := Block.create 2 previousHash 9 (seedPublic 0xbb).toHex [.ofSeed 0xbb (str "h2")]
    [⟨.REMOVE, (seedPublic 0xaa).toHex⟩]
  .sealedBy 0xaa (.sealedBy 0xbb (block.toOption.getD (Block.afterGenesis .single 0)))

omit [Crypto] in
/-- The block with another timestamp. -/
def Block.dated (block : Block) (timestamp : ℤ) : Block :=
  { block with header := { block.header with timestamp } }

/-! ### The block repository -/

/-- What the columns of the database hold: its integers, which are also those it can look up, and its texts
of 64 characters. -/
class Columns where
  integer : ℤ → Bool
  varchar : PyStr → Bool
  integer_zero : integer 0 = true
  varchar_toHex : ∀ bytes : Bytes, bytes.length = 32 → varchar (toHex bytes) = true

/-- SQLite: integers of 64 bits, and texts of any length. -/
@[reducible] def Columns.sqlite : Columns where
  integer i := -2 ^ 63 ≤ i && i < 2 ^ 63
  varchar _ := true
  integer_zero := rfl
  varchar_toHex _ _ := rfl

variable [Columns]

namespace Columns

/-- The columns hold the row of a block. -/
def holds (header : BlockHeader) (hash : PyStr) : Bool :=
  integer header.index && integer header.timestamp && varchar hash && varchar header.previousHash

lemma varchar_hash {header : BlockHeader} {hash : PyStr} (h : header.hash = .ok hash) :
    varchar hash = true := by
  obtain ⟨bytes, -, rfl⟩ := exists_of_map_eq_ok h
  exact varchar_toHex _ (Crypto.length_sha256 bytes)

omit [Crypto] in
lemma varchar_zeroHash : varchar ZERO_HASH = true := varchar_toHex (List.replicate 32 0) (by simp)

/-- Of a block whose previous hash is one, only the integers can be too large. -/
lemma holds_iff {header : BlockHeader} {hash : PyStr} (h : header.hash = .ok hash)
    (hprevious : varchar header.previousHash = true) :
    holds header hash = true ↔ integer header.index = true ∧ integer header.timestamp = true := by
  simp [holds, varchar_hash h, hprevious]

end Columns

namespace Repository

/-- Index of the tip block, or `-1` if there is none. -/
def height (blocks : List Block) : ℤ := (blocks.getLast?.map Block.index).getD (-1)

/-- `append`: gaps and duplicate indices are rejected, the columns have to hold the row, and stored hashes
are unique. -/
def append (blocks : List Block) (block : Block) : Except PyError (List Block) := do
  let expected := height blocks + 1
  let index := block.index
  if index ≠ expected then
    .error (.appError "DuplicateBlockError" s!"expected block index {expected}, got {index}")
  else
    let hash ← block.hash
    if !Columns.holds block.header hash then .error (.appError "OverflowError" "value out of range")
    else if blocks.any fun b => b.hash.toOption = some hash then
      .error (.appError "IntegrityError" "UNIQUE constraint failed: blocks.hash")
    else return blocks ++ [block]

end Repository

/-! ### The state of a node -/

/-- What a node hands to its transport and to its commit hook. -/
inductive Outgoing where
  | message (m : ConsensusMessage)
  | records (rs : List IntegrityRecord)
  | changes (cs : List ValidatorChange)
  | block (b : Block)
  | committed (b : Block)

/-- A call on the engine, with the set that was active then. -/
structure EngineCall where
  active : ValidatorSet
  engine : ConsensusEngine
  call : Call

/-- A node. `returned` is the block that the engine has returned as committed and that the node has
not dealt with yet; `refused` are the returned blocks that it has refused, and `calls` are the calls
that it has made on its engine. -/
structure Node where
  privateKey : PrivateKey
  active : ValidatorSet
  repo : List Block
  journalStore : JournalStore
  nowMs : ℕ → ℤ
  engine : Option ConsensusEngine := none
  pending : List IntegrityRecord := []
  pendingChanges : List ValidatorChange := []
  mempoolSeen : List PyStr := []
  outbox : List Outgoing := []
  returned : Option Block := none
  refused : List Block := []
  calls : List EngineCall := []

namespace Node

def me (n : Node) : PublicKey := n.privateKey.publicKey

/-- The current chain tip index. -/
def height (n : Node) : ℤ := Repository.height n.repo

/-- `_is_effective`: the change alters the active set. -/
def isEffective (n : Node) (change : ValidatorChange) : Bool :=
  match PublicKey.fromHex change.validator with
  | .error _ => false
  | .ok key =>
    match change.action with
    | .ADD => !n.active.contains key
    | .REMOVE => n.active.contains key

/-- `_new_engine`: the engine of the next height, or none for a follower. -/
def newEngine (n : Node) : Except PyError (Option ConsensusEngine) :=
  match n.repo.getLast? with
  | none => .error .assertionError
  | some latest =>
    if n.active.contains n.me then do
      let height := latest.index + 1
      let previousHash ← latest.hash
      let engine ← ConsensusEngine.new n.active n.privateKey height previousHash n.nowMs
        (n.journalStore.view height)
      return some engine
    else .ok none

/-- The node after a call on its engine; what the engine has journaled is in the store. -/
def afterCall (n : Node) (s : Frame) : Node :=
  { n with
    engine := some s.engine
    journalStore := n.journalStore.sync s.engine.journal
    nowMs := s.engine.nowMs }

/-- `prune_below` on the store, which the engine's journal is a view of. -/
def pruneBelow (n : Node) (height : ℤ) : Node :=
  let journalStore := n.journalStore.pruneBelow height
  { n with
    journalStore
    engine := n.engine.map fun e => { e with journal := journalStore.refresh e.journal } }

end Node

abbrev NodeM := Eff Node PyError

namespace NodeM

open Eff

/-- Hand something out. -/
def emit (o : Outgoing) : NodeM Unit := modify fun n => { n with outbox := n.outbox ++ [o] }

/-- `self._engine = self._new_engine()`. -/
def rebuild : NodeM Unit := do
  let n ← get
  let engine ← lift n.newEngine
  modify fun n => { n with engine }

/-- A call on the engine, if there is one. -/
def callEngine (c : Call) : NodeM (Option StepResult) := do
  let n ← get
  match n.engine with
  | none => return none
  | some e =>
    modify fun n => { n.afterCall (c.run e).2 with calls := n.calls ++ [⟨n.active, e, c⟩] }
    lift (c.run e).1
    modify fun n => { n with returned := (c.run e).2.result.committed }
    return some (c.run e).2.result

/-- `_set_pending`. -/
def setPending : NodeM (Option StepResult) := do
  let n ← get
  callEngine (.setPending n.pending n.pendingChanges)

/-! ### Finalized blocks -/

/-- `_forget_committed`. -/
def forgetCommitted (block : Block) : NodeM Unit := do
  let committed ← lift (block.records.mapM IntegrityRecord.contentKey)
  let n ← get
  let pending ← lift (n.pending.filterM fun r => r.contentKey.map fun key => key ∉ committed)
  modify fun n => { n with pending, mempoolSeen := n.mempoolSeen ∪ committed }
  if block.validatorChanges ≠ [] then
    modify fun n => { n with
      pendingChanges := n.pendingChanges.filter fun c => c ∉ block.validatorChanges }

/-- The last part of `_append_and_advance`: the active set and the engine of the next height. -/
def advance (block : Block) : NodeM Unit := do
  modify fun n => n.pruneBelow (block.index + 1)
  if block.validatorChanges ≠ [] then
    let n ← get
    let active ← lift (applyChanges n.active block.validatorChanges)
    modify fun n => { n with active }
  rebuild

/-- `_append_and_advance`. -/
def appendAndAdvance (block : Block) : NodeM Unit := do
  let n ← get
  let repo ← lift (Repository.append n.repo block)
  modify fun n => { n with repo, returned := none }
  forgetCommitted block
  advance block

/-- `_commit_locked`. -/
def commitLocked (block : Block) : NodeM (Option Block) := do
  let n ← get
  if ← lift (verifyFinality block n.active) then
    appendAndAdvance block
    emit (.committed block)
    return some block
  else
    modify fun n => { n with refused := n.refused ++ [block] }
    rebuild
    modify fun n => { n with returned := none }
    return none

/-- `_apply_locked`, for at most the given number of passes. -/
def applyLocked : ℕ → Option StepResult → NodeM Unit
  | 0, _ => return
  | _, none => return
  | passes + 1, some result => do
    result.broadcast.forM fun m => emit (.message m)
    match result.committed with
    | none => return
    | some block =>
      match ← commitLocked block with
      | some appended => emit (.block appended)
      | none => pure ()
      applyLocked passes (← setPending)

/-- The checks that a pushed and a fetched block pass: it extends the tip and it is final. -/
def extendsTip (block : Block) : NodeM Bool := do
  let n ← get
  if block.index ≠ n.height + 1 then return false
  match n.repo.getLast? with
  | none => raise .assertionError
  | some latest =>
    if block.header.previousHash ≠ (← lift latest.hash) then return false
    lift (verifyFinality block n.active)

/-- `_apply_pushed_block_locked`. -/
def applyPushedBlockLocked (passes : ℕ) (block : Block) : NodeM Unit := do
  if ← extendsTip block then
    appendAndAdvance block
    emit (.committed block)
    applyLocked passes (← setPending)

/-- `_sync_locked`; `answers` are what `fetch_block` gives, nothing after their end. -/
def syncLocked (upTo : ℤ) : List (Except PyError (Option Block)) → NodeM Unit
  | [] => return
  | answer :: answers => do
    let n ← get
    if n.height < upTo then
      match ← lift answer with
      | none => return
      | some block =>
        if ← extendsTip block then
          appendAndAdvance block
          syncLocked upTo answers

/-! ### The public methods -/

/-- `_ingest_changes`. -/
def ingestChanges (passes : ℕ) (changes : List ValidatorChange) (gossip : Bool) :
    NodeM Unit := do
  let n ← get
  let fresh := changes.filter fun c => n.isEffective c ∧ c ∉ n.pendingChanges
  if fresh = [] then return
  modify fun n => { n with pendingChanges := n.pendingChanges ++ fresh }
  if gossip then emit (.changes fresh)
  applyLocked passes (← setPending)

/-- `_ingest_records`. -/
def ingestRecords (passes : ℕ) (records : List IntegrityRecord) (gossip : Bool) :
    NodeM Unit := do
  let n ← get
  let authentic ← lift (records.filterM fun r => r.verify n.active)
  let fresh ← lift (authentic.filterM fun r => r.contentKey.map fun key => key ∉ n.mempoolSeen)
  if fresh = [] then return
  let keys ← lift (fresh.mapM IntegrityRecord.contentKey)
  modify fun n => { n with
    mempoolSeen := n.mempoolSeen ∪ keys
    pending := n.pending ++ fresh }
  if gossip then emit (.records fresh)
  applyLocked passes (← setPending)

/-- `submit_records`. -/
def submitRecords (passes : ℕ) (records : List IntegrityRecord) : NodeM Unit := do
  let n ← get
  let signed ← lift (records.mapM fun r => r.signed n.privateKey)
  ingestRecords passes signed true

/-- `tick`. -/
def tick (passes : ℕ) : NodeM Unit := do applyLocked passes (← setPending)

/-- `force_timeout`. -/
def forceTimeout (passes : ℕ) : NodeM Unit := do applyLocked passes (← callEngine .onTimeout)

/-- One turn of `round_timer_loop`, with the height noted before the pause. -/
def roundTimer (passes : ℕ) (startHeight : ℤ) : NodeM Unit := do
  let n ← get
  match n.engine with
  | none => return
  | some e =>
    let waiting := n.pending ≠ [] ∨ n.pendingChanges ≠ [] ∨ 0 < e.round ∨ e.proposal.isSome
    if n.height = startHeight ∧ waiting ∧ e.phase ≠ .COMMITTED then
      applyLocked passes (← callEngine .onTimeout)

/-- The last part of `on_message`: a message of the working height goes to the engine. -/
def deliver (passes : ℕ) (message : ConsensusMessage) : NodeM Unit := do
  let n ← get
  match n.engine with
  | none => return
  | some e =>
    if message.height = e.height then applyLocked passes (← callEngine (.handle message))

/-- `on_message`. -/
def onMessage (passes : ℕ) (message : ConsensusMessage)
    (answers : List (Except PyError (Option Block))) : NodeM Unit := do
  let n ← get
  if n.height + 1 < message.height then syncLocked (message.height - 1) answers
  deliver passes message

end NodeM

/-- `Node(...)`: an empty repository gets the genesis block, and the active set is replayed from the
stored blocks. -/
def Node.init (privateKey : PrivateKey) (validators : ValidatorSet) (blocks : List Block)
    (journalStore : JournalStore) (nowMs : ℕ → ℤ) : Except PyError Node := do
  let repo ← if Repository.height blocks < 0 then
      do Repository.append blocks (← genesisBlock validators)
    else .ok blocks
  let active ← deriveValidatorSet (repo.flatMap (·.validatorChanges))
  let node : Node := { privateKey, active, repo, journalStore, nowMs }
  let engine ← node.newEngine
  return { node with engine }

/-- The methods of a node. -/
inductive Operation where
  | submitRecords (records : List IntegrityRecord)
  | receiveRecords (records : List IntegrityRecord)
  | submitValidatorChange (change : ValidatorChange)
  | receiveValidatorChanges (changes : List ValidatorChange)
  | ingestBlock (block : Block)
  | tick
  | forceTimeout
  | roundTimer (startHeight : ℤ)
  | onMessage (message : ConsensusMessage) (answers : List (Except PyError (Option Block)))

/-- The body of a method, its loop cut off after the given number of passes. -/
def Operation.body (passes : ℕ) : Operation → NodeM Unit
  | submitRecords records => NodeM.submitRecords passes records
  | receiveRecords records => NodeM.ingestRecords passes records false
  | submitValidatorChange change => NodeM.ingestChanges passes [change] true
  | receiveValidatorChanges changes => NodeM.ingestChanges passes changes false
  | ingestBlock block => NodeM.applyPushedBlockLocked passes block
  | tick => NodeM.tick passes
  | forceTimeout => NodeM.forceTimeout passes
  | roundTimer startHeight => NodeM.roundTimer passes startHeight
  | onMessage message answers => NodeM.onMessage passes message answers

/-- The node after a method, or after as many passes of its loop. -/
def Operation.run (o : Operation) (passes : ℕ) (n : Node) : Node := (o.body passes n).2

end Helix
