import Helix.Consensus.Journal
import Helix.Library.Effect

/-!
# The consensus engine

The IBFT-style state machine of one height: it consumes signed messages, timeouts and pending items
and returns what to broadcast and whether a block was finalized. A method of the engine is a
computation over the engine and the result of the call in progress; an exception leaves behind the
changes made before it.
-/

namespace Helix

inductive Phase where
  | NEW_ROUND
  | PRE_PREPARED
  | PREPARED
  | COMMITTED
  deriving DecidableEq, Repr

/-- What the caller should do after a step: broadcast messages, maybe commit. -/
structure StepResult where
  broadcast : List ConsensusMessage := []
  committed : Option Block := none

/-- The engine of one height. `nowMs` lists the readings that its clock will give. -/
structure ConsensusEngine where
  validators : ValidatorSet
  privateKey : PrivateKey
  height : ℤ
  previousHash : PyStr
  nowMs : ℕ → ℤ
  journal : VoteJournal
  pending : List IntegrityRecord := []
  pendingChanges : List ValidatorChange := []
  preparedRound : Option ℤ := none
  preparedBlock : Option Block := none
  preparedCert : List ConsensusMessage := []
  roundChanges : Dict ℤ (Dict PyStr ConsensusMessage) := Dict.empty
  rcSent : List ℤ := []
  buffer : List ConsensusMessage := []
  round : ℤ := 0
  phase : Phase := .NEW_ROUND
  proposal : Option Block := none
  prepares : Dict PyStr (Dict PyStr ConsensusMessage) := Dict.empty
  commits : Dict PyStr (Dict PyStr PyStr) := Dict.empty

/-- The engine and the result of the call in progress. -/
structure Frame where
  engine : ConsensusEngine
  result : StepResult := {}

abbrev EngineM := Eff Frame PyError

variable [Crypto]

/-! ### Authentication and certificates -/

/-- `_authentic`: the sender is a validator and the signature is its own. -/
def authentic (validators : ValidatorSet) (m : ConsensusMessage) : Except PyError Bool :=
  match PublicKey.fromHex m.sender with
  | .error _ => .ok false
  | .ok sender => if validators.contains sender then m.verifySignature else .ok false

/-- `_valid_commit_seal`. -/
def validCommitSeal (m : ConsensusMessage) : Except PyError Bool :=
  match m.commitSeal with
  | none => .ok false
  | some sealHex =>
    if sealHex = [] then .ok false
    else
      match PublicKey.fromHex m.sender, fromHex sealHex with
      | .ok sender, .ok bytes => (encode m.blockHash).map fun h => sender.verify bytes h
      | _, _ => .ok false

/-- The senders of the authentic PREPAREs for `(height, round, blockHash)` in a certificate. -/
def prepareSenders (validators : ValidatorSet) (height : ℤ) (cert : List ConsensusMessage)
    (round : ℤ) (blockHash : PyStr) : Except PyError (List PyStr) :=
  cert.foldlM (fun senders m =>
    if m.type = .PREPARE ∧ m.height = height ∧ m.round = round ∧ m.blockHash = blockHash then
      (authentic validators m).map fun ok => if ok then senders.insert m.sender else senders
    else .ok senders) []

/-- `_verify_prepares`. -/
def verifyPrepares (validators : ValidatorSet) (height : ℤ) (cert : List ConsensusMessage)
    (round : ℤ) (blockHash : PyStr) : Except PyError Bool :=
  (prepareSenders validators height cert round blockHash).map fun senders =>
    decide (validators.quorum ≤ senders.length)

/-- `_valid_round_change`: a lock claim must be backed by a prepared certificate. -/
def validRoundChange (validators : ValidatorSet) (height : ℤ) (m : ConsensusMessage) :
    Except PyError Bool :=
  match m.preparedRound with
  | none => .ok true
  | some round => verifyPrepares validators height m.preparedCert round m.blockHash

/-- The valid ROUND_CHANGEs of a certificate, by sender. -/
def validRoundChanges (validators : ValidatorSet) (height : ℤ) (cert : List ConsensusMessage)
    (targetRound : ℤ) : Except PyError (Dict PyStr ConsensusMessage) :=
  cert.foldlM (fun valid m =>
    if m.type = .ROUND_CHANGE ∧ m.height = height ∧ m.round = targetRound then do
      if ← authentic validators m then
        if ← validRoundChange validators height m then return valid.set m.sender m
        else return valid
      else return valid
    else .ok valid) Dict.empty

/-- The highest lock claimed by a list of ROUND_CHANGEs, with its block hash. -/
def highestLock (ms : List ConsensusMessage) : ℤ × Option PyStr :=
  ms.foldl (fun best m =>
    match m.preparedRound with
    | some round => if best.1 < round then (round, some m.blockHash) else best
    | none => best) (-1, none)

/-- `_verify_round_change_cert`: whether the certificate is a valid quorum for `targetRound`, and
the block hash it justifies. -/
def verifyRoundChangeCert (validators : ValidatorSet) (height : ℤ) (cert : List ConsensusMessage)
    (targetRound : ℤ) : Except PyError (Bool × Option PyStr) :=
  (validRoundChanges validators height cert targetRound).map fun valid =>
    if valid.len < validators.quorum then (false, none) else (true, (highestLock valid.values).2)

/-- `_locked_block_from_cert`. -/
def lockedBlockFromCert (cert : List ConsensusMessage) (justifiedHash : PyStr) :
    Except PyError (Option Block) :=
  match cert with
  | [] => .ok none
  | m :: ms =>
    match m.block with
    | none => lockedBlockFromCert ms justifiedHash
    | some block => do
      if (← block.hash) = justifiedHash then return some block
      else lockedBlockFromCert ms justifiedHash

namespace ConsensusEngine

/-! ### Construction and rounds -/

/-- The engine's own key. -/
def me (e : ConsensusEngine) : PublicKey := e.privateKey.publicKey

/-- `start_round`. -/
def startRound (e : ConsensusEngine) (round : ℤ) : ConsensusEngine :=
  { e with
    round := round
    phase := .NEW_ROUND
    proposal := none
    prepares := Dict.empty
    commits := Dict.empty }

/-- The engine that `__init__` builds: at round 0, its lock restored from the journal. -/
def initial (validators : ValidatorSet) (privateKey : PrivateKey) (height : ℤ)
    (previousHash : PyStr) (nowMs : ℕ → ℤ) (journal : VoteJournal) : ConsensusEngine where
  validators := validators
  privateKey := privateKey
  height := height
  previousHash := previousHash
  nowMs := nowMs
  journal := journal
  preparedRound := journal.prepared.map (·.round)
  preparedBlock := journal.prepared.map (·.block)
  preparedCert := (journal.prepared.map (·.cert)).getD []

/-- `ConsensusEngine(...)`. -/
def new (validators : ValidatorSet) (privateKey : PrivateKey) (height : ℤ) (previousHash : PyStr)
    (nowMs : ℕ → ℤ) (journal : VoteJournal) : Except PyError ConsensusEngine :=
  if validators.contains privateKey.publicKey then
    .ok (initial validators privateKey height previousHash nowMs journal)
  else .error (.valueError "this node is not part of the validator set")

def isProposer (e : ConsensusEngine) : Bool := e.me = e.validators.proposer e.height e.round

/-- `_structurally_valid`. -/
def structurallyValid (e : ConsensusEngine) (block : Block) : Except PyError Bool :=
  if block.index = e.height ∧ block.header.previousHash = e.previousHash then
    block.hasConsistentMerkleRoot
  else .ok false

/-- The hash that a ROUND_CHANGE claims: of the locked block, or the zero hash. -/
def lockHash (e : ConsensusEngine) : Except PyError PyStr :=
  match e.preparedBlock with
  | some block => block.hash
  | none => .ok ZERO_HASH

/-- The ROUND_CHANGE for `target`, with the lock and its proof. -/
def roundChange (e : ConsensusEngine) (target : ℤ) : Except PyError ConsensusMessage := do
  let blockHash ← e.lockHash
  ConsensusMessage.create .ROUND_CHANGE e.height target blockHash e.privateKey e.preparedBlock
    e.preparedRound (if e.preparedBlock.isSome then e.preparedCert else [])

end ConsensusEngine

/-- The loop of `_finalize`: the collected seals, attached to the block. -/
def attachSeals (seals : Dict PyStr PyStr) (block : Block) : Except PyError Block :=
  seals.items.foldlM (fun block p => do
    let sender ← PublicKey.fromHex p.1
    let bytes ← fromHex p.2
    return block.addCommitSignature sender bytes) block

/-! ### Primitives of a call -/

namespace EngineM

open Eff

/-- The engine. -/
def self : EngineM ConsensusEngine := do return (← get).engine

/-- Assign fields of the engine. -/
def update (f : ConsensusEngine → ConsensusEngine) : EngineM Unit :=
  modify fun s => { s with engine := f s.engine }

/-- `result.broadcast.append(m)`. -/
def broadcast (m : ConsensusMessage) : EngineM Unit :=
  modify fun s => { s with result := { s.result with broadcast := s.result.broadcast ++ [m] } }

/-- One reading of the clock. -/
def readClock : EngineM ℤ := do
  let e ← self
  update fun e => { e with nowMs := fun i => e.nowMs (i + 1) }
  return e.nowMs 0

/-! ### Votes -/

/-- `_record_prepare`. -/
def recordPrepare (m : ConsensusMessage) : EngineM Unit :=
  update fun e => { e with prepares := e.prepares.setIn m.blockHash m.sender m }

/-- `_finalize`: attach the collected seals to the proposal, which is also the locked block. -/
def finalize (blockHash : PyStr) : EngineM Block := do
  let e ← self
  match e.proposal with
  | none => raise .assertionError
  | some proposal =>
    let block ← lift (attachSeals (e.commits.getD blockHash) proposal)
    update fun e => { e with proposal := some block, preparedBlock := some block }
    return block

/-- The first half of `_maybe_advance`: a PREPARE quorum locks the proposal; `false` when the
journal forbids the COMMIT. -/
def tryPrepare (block : Block) (h : PyStr) : EngineM Bool := do
  let e ← self
  if e.phase = .PRE_PREPARED ∧ e.validators.quorum ≤ (e.prepares.getD h).len then
    let prior := e.journal.votedHash e.round .COMMIT
    if prior.isSome ∧ prior ≠ some h then return false
    let cert := (e.prepares.getD h).values
    update fun e => { e with
      phase := .PREPARED
      preparedRound := some e.round
      preparedBlock := some block
      preparedCert := cert }
    update fun e => { e with journal := e.journal.recordPrepared ⟨e.round, block, cert⟩ }
    update fun e => { e with journal := e.journal.recordVote e.round .COMMIT h }
    let commit ← lift (ConsensusMessage.create .COMMIT e.height e.round h e.privateKey)
    update fun e => { e with commits := e.commits.setIn h e.me.toHex (commit.commitSeal.getD []) }
    broadcast commit
  return true

/-- The second half of `_maybe_advance`: a COMMIT quorum finalizes the proposal. -/
def tryFinalize (h : PyStr) : EngineM Unit := do
  let e ← self
  if e.phase = .PREPARED ∧ e.validators.quorum ≤ (e.commits.getD h).len then
    update fun e => { e with phase := .COMMITTED }
    let block ← finalize h
    modify fun s => { s with result := { s.result with committed := some block } }

/-- `_maybe_advance`. -/
def maybeAdvance : EngineM Unit := do
  let e ← self
  match e.proposal with
  | none => return
  | some block =>
    let h ← lift block.hash
    if ← tryPrepare block h then tryFinalize h

/-- `_handle_prepare`. -/
def handlePrepare (m : ConsensusMessage) : EngineM Unit := do
  recordPrepare m
  maybeAdvance

/-- `_handle_commit`. -/
def handleCommit (m : ConsensusMessage) : EngineM Unit := do
  if ← lift (validCommitSeal m) then
    update fun e => { e with
      commits := e.commits.setIn m.blockHash m.sender (m.commitSeal.getD []) }
    maybeAdvance

/-- `_handle_vote`: votes of the current round are handled, votes of later rounds are kept. -/
def handleVote (m : ConsensusMessage) (handler : ConsensusMessage → EngineM Unit) :
    EngineM Unit := do
  let e ← self
  if m.round = e.round then handler m
  else if e.round < m.round then update fun e => { e with buffer := e.buffer ++ [m] }

/-! ### Proposals -/

/-- `_accept_proposal`: never PREPARE a block that contradicts a journaled vote. -/
def acceptProposal (block : Block) : EngineM Unit := do
  let e ← self
  -- both callers have computed the hash before, so this is no earlier exception
  let h ← lift block.hash
  let prior := e.journal.votedHash e.round .PREPARE
  if prior.isSome ∧ prior ≠ some h then return
  update fun e => { e with proposal := some block, phase := .PRE_PREPARED }
  update fun e => { e with journal := e.journal.recordVote e.round .PREPARE h }
  let prepare ← lift (ConsensusMessage.create .PREPARE e.height e.round h e.privateKey)
  recordPrepare prepare
  broadcast prepare
  maybeAdvance

/-- `_emit_pre_prepare`. -/
def emitPrePrepare (block : Block) (roundChangeCert : List ConsensusMessage) :
    EngineM Unit := do
  let e ← self
  let h ← lift block.hash
  let prePrepare ← lift (ConsensusMessage.create .PRE_PREPARE e.height e.round h e.privateKey
    (some block) none [] roundChangeCert)
  broadcast prePrepare
  acceptProposal block

/-- `_build_block`. -/
def buildBlock (records : List IntegrityRecord) : EngineM Block := do
  let now ← readClock
  let e ← self
  lift (Block.create e.height e.previousHash now e.me.toHex records e.pendingChanges)

/-- `_maybe_propose_round0`. -/
def maybeProposeRound0 : EngineM Unit := do
  let e ← self
  if e.round = 0 ∧ e.phase = .NEW_ROUND ∧ e.isProposer ∧
      (e.pending ≠ [] ∨ e.pendingChanges ≠ []) then
    let block ← buildBlock e.pending
    emitPrePrepare block []

/-! ### Round change -/

/-- `_send_round_change`. -/
def sendRoundChange (target : ℤ) : EngineM Unit := do
  let e ← self
  if target ∈ e.rcSent then return
  let m ← lift (e.roundChange target)
  update fun e => { e with
    rcSent := target :: e.rcSent
    roundChanges := e.roundChanges.setIn target e.me.toHex m }
  broadcast m

/-- The replay of one buffered vote. -/
def replayVote (m : ConsensusMessage) : EngineM Unit :=
  match m.type with
  | .PREPARE => handlePrepare m
  | .COMMIT => handleCommit m
  | _ => pure ()

/-- `_adopt_round`: start the round and replay the votes kept for it. -/
def adoptRound (target : ℤ) : EngineM Unit := do
  let e ← self
  if target ≤ e.round then return
  update fun e => { e.startRound target with buffer := e.buffer.filter fun m => target < m.round }
  (e.buffer.filter fun m => m.round = target).forM replayVote

/-- `_propose_for_round_change`: re-propose the highest certified lock, or a fresh block. -/
def proposeForRoundChange (target : ℤ) : EngineM Unit := do
  let e ← self
  if e.round ≠ target ∨ e.phase ≠ .NEW_ROUND then return
  if ¬e.isProposer then return
  let cert := (e.roundChanges.getD target).values
  let verdict ← lift (verifyRoundChangeCert e.validators e.height cert target)
  let block ← match verdict.2 with
    | some justified => lift (lockedBlockFromCert cert justified)
    | none => some <$> buildBlock e.pending
  match block with
  | none => return
  | some block => emitPrePrepare block cert

/-- The acceleration pass of `_process_round_changes`: join every later round that `f + 1`
validators ask for. -/
def accelerate : List ℤ → EngineM Bool
  | [] => return false
  | target :: targets => do
    let e ← self
    if e.round < target ∧ target ∉ e.rcSent ∧
        e.validators.maxFaulty + 1 ≤ (e.roundChanges.getD target).len then
      sendRoundChange target
      let _ ← accelerate targets
      return true
    else accelerate targets

end EngineM

/-- The highest later round with a quorum of ROUND_CHANGEs. -/
def ConsensusEngine.bestRound (e : ConsensusEngine) : Option ℤ :=
  (e.roundChanges.keys.filter fun t =>
    e.round < t ∧ e.validators.quorum ≤ (e.roundChanges.getD t).len).max?

namespace EngineM

open Eff

/-- The bounded fixpoint of `_process_round_changes`. -/
def roundChangeLoop : ℕ → EngineM Unit
  | 0 => return
  | n + 1 => do
    let e ← self
    let sent ← accelerate (e.roundChanges.keys.insertionSort (· ≤ ·))
    let e ← self
    match e.bestRound with
    | some best =>
      adoptRound best
      proposeForRoundChange best
      roundChangeLoop n
    | none => if sent then roundChangeLoop n

/-- `_process_round_changes`. -/
def processRoundChanges : EngineM Unit := do
  let e ← self
  roundChangeLoop (e.validators.size + 1)

/-- `_handle_round_change`. -/
def handleRoundChange (m : ConsensusMessage) : EngineM Unit := do
  let e ← self
  if m.round ≤ e.round then return
  if ← lift (validRoundChange e.validators e.height m) then
    update fun e => { e with roundChanges := e.roundChanges.setIn m.round m.sender m }
    processRoundChanges

/-- One message of `_ingest_round_change_cert`. -/
def ingestRoundChange (m : ConsensusMessage) : EngineM Unit := do
  let e ← self
  if ← lift (authentic e.validators m) then
    if ← lift (validRoundChange e.validators e.height m) then
      update fun e => { e with roundChanges := e.roundChanges.setIn m.round m.sender m }

/-- `_proposal_justified`. -/
def proposalJustified (m : ConsensusMessage) : EngineM Bool := do
  let e ← self
  let verdict ← lift (verifyRoundChangeCert e.validators e.height m.roundChangeCert m.round)
  if ¬verdict.1 then return false
  match verdict.2 with
  | none => return true
  | some justified =>
    match m.block with
    | none => return false
    | some block => do return (← lift block.hash) = justified

/-- The first part of `_handle_pre_prepare`: a later round is adopted on its certificate. Returns
`false` when the certificate is not good. -/
def enterRound (m : ConsensusMessage) : EngineM Bool := do
  let e ← self
  if e.round < m.round then
    let verdict ← lift (verifyRoundChangeCert e.validators e.height m.roundChangeCert m.round)
    if ¬verdict.1 then return false
    m.roundChangeCert.forM ingestRoundChange
    adoptRound m.round
  return true

/-- `_handle_pre_prepare`. -/
def handlePrePrepare (m : ConsensusMessage) : EngineM Unit := do
  if ¬(← enterRound m) then return
  let e ← self
  if m.round ≠ e.round ∨ e.phase ≠ .NEW_ROUND then return
  let sender ← lift (PublicKey.fromHex m.sender)
  if sender ≠ e.validators.proposer e.height e.round then return
  match m.block with
  | none => return
  | some block =>
    if (← lift block.hash) ≠ m.blockHash then return
    if ¬(← lift (e.structurallyValid block)) then return
    if 0 < e.round then
      if ¬(← proposalJustified m) then return
    acceptProposal block

/-! ### The public calls -/

/-- `set_pending`. -/
def setPending (records : List IntegrityRecord) (changes : List ValidatorChange) :
    EngineM Unit := do
  update fun e => { e with pending := records, pendingChanges := changes }
  maybeProposeRound0

/-- `handle`. -/
def handle (m : ConsensusMessage) : EngineM Unit := do
  let e ← self
  if m.height ≠ e.height then return
  if ¬(← lift (authentic e.validators m)) then return
  match m.type with
  | .ROUND_CHANGE => handleRoundChange m
  | .PRE_PREPARE => handlePrePrepare m
  | .PREPARE => handleVote m handlePrepare
  | .COMMIT => handleVote m handleCommit

end EngineM

/-- The `while target in self._rc_sent` loop; one pass for each round sent is enough. -/
def firstUnsent (sent : List ℤ) : ℕ → ℤ → ℤ
  | 0, target => target
  | n + 1, target => if target ∈ sent then firstUnsent sent n (target + 1) else target

/-- The target of the next timeout. -/
def ConsensusEngine.nextTarget (e : ConsensusEngine) : ℤ :=
  firstUnsent e.rcSent e.rcSent.length (e.round + 1)

/-- `on_timeout`. -/
def EngineM.onTimeout : EngineM Unit := do
  let e ← self
  if e.phase = .COMMITTED then return
  sendRoundChange e.nextTarget
  processRoundChanges

/-- The engine of `seedKey n` at the first height, for concrete runs. -/
def ConsensusEngine.ofSeed (validators : ValidatorSet) (n : UInt8) (journal : VoteJournal) :
    ConsensusEngine :=
  .initial validators (seedKey n) 1 ZERO_HASH (fun i => i) journal

/-- The calls that a node makes on its engine. -/
inductive Call where
  | setPending (records : List IntegrityRecord) (changes : List ValidatorChange)
  | handle (m : ConsensusMessage)
  | onTimeout

namespace Call

/-- The message that a call hands to the engine. -/
def messages : Call → List ConsensusMessage
  | handle m => [m]
  | _ => []

/-- The body of a call. -/
def body : Call → EngineM Unit
  | setPending records changes => EngineM.setPending records changes
  | handle m => EngineM.handle m
  | onTimeout => EngineM.onTimeout

/-- Make a call: the engine afterwards, what the call put into its result, and whether it raised. -/
def run (c : Call) (e : ConsensusEngine) : Except PyError Unit × Frame := c.body ⟨e, {}⟩

end Call

end Helix
