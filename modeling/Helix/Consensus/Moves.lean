import Helix.Consensus.Engine

/-!
# What a call can do

`Move e₀ c s s'` says that the call `c`, made on the engine `e₀`, can take the frame `s` to `s'` in
one step, with everything the code has checked by then. A call is a sequence of moves, also when it
raises (`Call.run_moves`), so a property of every state of the engine needs one case for each kind
of move and never the code of the handlers again.
-/

namespace Helix

variable [Crypto]

open Relation (ReflTransGen)

/-! ### Reasons -/

/-- The message passes the first checks of `handle`. -/
structure Accepted (e : ConsensusEngine) (m : ConsensusMessage) : Prop where
  height : m.height = e.height
  authentic : authentic e.validators m = .ok true

/-- A PREPARE or a COMMIT. -/
def ConsensusMessage.IsVote (m : ConsensusMessage) : Prop := m.type = .PREPARE ∨ m.type = .COMMIT

namespace Call

/-- The call handles the message `m` of type `type`. -/
structure Handles (c : Call) (e₀ : ConsensusEngine) (type : MessageType) (m : ConsensusMessage) :
    Prop where
  eq : c = .handle m
  accepted : Accepted e₀ m
  type : m.type = type

/-- A call that processes round changes. -/
def Changing (c : Call) (e₀ : ConsensusEngine) : Prop :=
  (c = .onTimeout ∧ e₀.phase ≠ .COMMITTED) ∨
    ∃ m, c.Handles e₀ .ROUND_CHANGE m ∧ e₀.round < m.round

/-- A PRE_PREPARE for a later round, with a valid certificate for it. -/
structure Enters (c : Call) (e₀ : ConsensusEngine) (m : ConsensusMessage) : Prop where
  handles : c.Handles e₀ .PRE_PREPARE m
  round : e₀.round < m.round
  cert : ∃ justified, verifyRoundChangeCert e₀.validators e₀.height m.roundChangeCert m.round =
    .ok (true, justified)

/-- A vote that the call can tally: the one handed in, or one kept from earlier. -/
def Offers (c : Call) (e₀ : ConsensusEngine) (m : ConsensusMessage) : Prop :=
  (c = .handle m ∧ Accepted e₀ m) ∨ m ∈ e₀.buffer

/-- A ROUND_CHANGE that the call can store: the one handed in, or one of an ingested
certificate. -/
def Brings (c : Call) (e₀ : ConsensusEngine) (m : ConsensusMessage) : Prop :=
  (c.Handles e₀ .ROUND_CHANGE m ∧ e₀.round < m.round) ∨
    ∃ p, c.Enters e₀ p ∧ m ∈ p.roundChangeCert

/-- A call that can bring the engine to PREPARED in round `r`. -/
inductive Opens (c : Call) (e₀ : ConsensusEngine) (r : ℤ) : Prop
  | propose (records : List IntegrityRecord) (changes : List ValidatorChange)
      (hc : c = .setPending records changes) (hr : r = e₀.round) (hphase : e₀.phase = .NEW_ROUND)
  | change (hc : c.Changing e₀) (hr : e₀.round < r)
      (hme : e₀.me = e₀.validators.proposer e₀.height r)
  | prePrepare (m : ConsensusMessage) (hm : c.Handles e₀ .PRE_PREPARE m) (hr : r = m.round)
      (hround : e₀.round < r ∨ e₀.round = r ∧ e₀.phase = .NEW_ROUND)
  | vote (m : ConsensusMessage) (hc : c = .handle m) (hm : m.IsVote) (hr : r = m.round)
      (hround : e₀.round = r) (hphase : e₀.phase = .PRE_PREPARED)

/-- A vote of the current round, on a PREPARED engine. -/
structure Closes (c : Call) (e₀ : ConsensusEngine) (r : ℤ) : Prop where
  vote : ∃ m, c = .handle m ∧ m.IsVote ∧ m.round = r
  round : e₀.round = r
  phase : e₀.phase = .PREPARED

/-- Where the block of an own proposal comes from, and its certificate. -/
inductive Proposes (c : Call) (e₀ e : ConsensusEngine) :
    Block → List ConsensusMessage → Prop
  | fresh {records : List IntegrityRecord} {changes : List ValidatorChange} {block : Block}
      (hc : c = .setPending records changes) (hround : e₀.round = 0) (hr : e.round = e₀.round)
      (hphase : e₀.phase = .NEW_ROUND) (hme : e₀.me = e₀.validators.proposer e₀.height e₀.round)
      (hne : records ≠ [] ∨ changes ≠ [])
      (hblock : Block.create e₀.height e₀.previousHash (e₀.nowMs 0) e₀.me.toHex records changes =
        .ok block) : Proposes c e₀ e block []
  | change {block : Block} {verdict : Bool × Option PyStr} (hc : c.Changing e₀)
      (hr : e₀.round < e.round) (hme : e₀.me = e₀.validators.proposer e₀.height e.round)
      (hquorum : e₀.validators.quorum ≤ (e.roundChanges.getD e.round).len)
      (hcert : verifyRoundChangeCert e₀.validators e₀.height (e.roundChanges.getD e.round).values
        e.round = .ok verdict)
      (hblock :
        (∃ justified, verdict.2 = some justified ∧
          lockedBlockFromCert (e.roundChanges.getD e.round).values justified =
            .ok (some block)) ∨
        (verdict.2 = none ∧ ∃ now, Block.create e₀.height e₀.previousHash now e₀.me.toHex e.pending
          e.pendingChanges = .ok block)) :
      Proposes c e₀ e block (e.roundChanges.getD e.round).values

/-- A proposal of the round's proposer, justified if the round is a later one. -/
structure Receives (c : Call) (e₀ e : ConsensusEngine) (block : Block) (m : ConsensusMessage) :
    Prop where
  handles : c.Handles e₀ .PRE_PREPARE m
  round : m.round = e.round
  since : e₀.round < e.round ∨ e₀.round = e.round ∧ e₀.phase = .NEW_ROUND
  sender : PublicKey.fromHex m.sender = .ok (e₀.validators.proposer e₀.height e.round)
  carries : m.block = some block
  hash : block.hash = .ok m.blockHash
  valid : e.structurallyValid block = .ok true
  justified : 0 < e.round → ∃ justified, verifyRoundChangeCert e₀.validators e₀.height
    m.roundChangeCert m.round = .ok (true, justified) ∧ ∀ j ∈ justified, j = m.blockHash

/-- Where an accepted block comes from, and the PRE_PREPARE that goes out with it. -/
inductive Origin (c : Call) (e₀ e : ConsensusEngine) (block : Block) :
    List ConsensusMessage → Prop
  | own {cert : List ConsensusMessage} {h : PyStr} {m : ConsensusMessage}
      (hp : c.Proposes e₀ e block cert) (hh : block.hash = .ok h)
      (hm : ConsensusMessage.create .PRE_PREPARE e.height e.round h e.privateKey (some block) none
        [] cert = .ok m) : Origin c e₀ e block [m]
  | peer {m : ConsensusMessage} (hm : c.Receives e₀ e block m) : Origin c e₀ e block []

end Call

/-! ### Effects -/

namespace Frame

/-- Change the engine only. -/
def mapEngine (s : Frame) (f : ConsensusEngine → ConsensusEngine) : Frame :=
  { s with engine := f s.engine }

/-- Add messages to the result. -/
def send (s : Frame) (ms : List ConsensusMessage) : Frame :=
  { s with result := { s.result with broadcast := s.result.broadcast ++ ms } }

/-- A proposal is accepted: the vote is journaled, counted and sent. -/
def accept (s : Frame) (block : Block) (h : PyStr) (m : ConsensusMessage) : Frame :=
  (s.mapEngine fun e => { e with
    proposal := some block
    phase := .PRE_PREPARED
    journal := e.journal.recordVote e.round .PREPARE h
    prepares := e.prepares.setIn m.blockHash m.sender m }).send [m]

/-- A PREPARE quorum: the lock and the COMMIT are journaled, the COMMIT is counted and sent. -/
def prepare (s : Frame) (block : Block) (h : PyStr) (m : ConsensusMessage) : Frame :=
  (s.mapEngine fun e => { e with
    phase := .PREPARED
    preparedRound := some e.round
    preparedBlock := some block
    preparedCert := (e.prepares.getD h).values
    journal := (e.journal.recordPrepared ⟨e.round, block, (e.prepares.getD h).values⟩).recordVote
      e.round .COMMIT h
    commits := e.commits.setIn h e.me.toHex (m.commitSeal.getD []) }).send [m]

/-- A COMMIT quorum: the sealed block is the result. -/
def finalize (s : Frame) (sealed : Block) : Frame where
  engine := { s.engine with
    phase := .COMMITTED
    proposal := some sealed
    preparedBlock := some sealed }
  result := { s.result with committed := some sealed }

/-- A ROUND_CHANGE is stored and sent. -/
def leave (s : Frame) (target : ℤ) (m : ConsensusMessage) : Frame :=
  (s.mapEngine fun e => { e with
    rcSent := target :: e.rcSent
    roundChanges := e.roundChanges.setIn target e.me.toHex m }).send [m]

end Frame

/-- One step of the call `c`, made on the engine `e₀`. -/
inductive Move (e₀ : ConsensusEngine) (c : Call) (s : Frame) : Frame → Prop
  | pending {records : List IntegrityRecord} {changes : List ValidatorChange}
      (hc : c = .setPending records changes) :
      Move e₀ c s (s.mapEngine fun e => { e with pending := records, pendingChanges := changes })
  | clock : Move e₀ c s (s.mapEngine fun e => { e with nowMs := fun i => e.nowMs (i + 1) })
  | keep {m : ConsensusMessage} (hc : c = .handle m) (hm : Accepted e₀ m) (hvote : m.IsVote)
      (hr : e₀.round < m.round) (he : s.engine = e₀) :
      Move e₀ c s (s.mapEngine fun e => { e with buffer := e.buffer ++ [m] })
  | store {m : ConsensusMessage} (hm : c.Brings e₀ m)
      (hauth : authentic e₀.validators m = .ok true)
      (hvalid : validRoundChange e₀.validators e₀.height m = .ok true) :
      Move e₀ c s (s.mapEngine fun e => { e with
        roundChanges := e.roundChanges.setIn m.round m.sender m })
  | leave {target : ℤ} {m : ConsensusMessage} (hc : c.Changing e₀) (ht : target ∉ s.engine.rcSent)
      (hr : s.engine.round < target)
      (hwhy : (c = .onTimeout ∧ target = e₀.nextTarget) ∨
        e₀.validators.maxFaulty + 1 ≤ (s.engine.roundChanges.getD target).len)
      (hm : s.engine.roundChange target = .ok m) : Move e₀ c s (s.leave target m)
  | adopt {target : ℤ} (hr : s.engine.round < target) (hnone : s.result.committed = none)
      (hwhy : (c.Changing e₀ ∧ e₀.validators.quorum ≤ (s.engine.roundChanges.getD target).len) ∨
        ∃ m, c.Enters e₀ m ∧ m.round = target) :
      Move e₀ c s (s.mapEngine fun e => { e.startRound target with
        buffer := e.buffer.filter fun m => target < m.round })
  | tallyPrepare {m : ConsensusMessage} (hm : c.Offers e₀ m) (ht : m.type = .PREPARE)
      (hr : m.round = s.engine.round) :
      Move e₀ c s (s.mapEngine fun e => { e with
        prepares := e.prepares.setIn m.blockHash m.sender m })
  | tallyCommit {m : ConsensusMessage} (hm : c.Offers e₀ m) (ht : m.type = .COMMIT)
      (hr : m.round = s.engine.round) (hseal : validCommitSeal m = .ok true) :
      Move e₀ c s (s.mapEngine fun e => { e with
        commits := e.commits.setIn m.blockHash m.sender (m.commitSeal.getD []) })
  | accept {block : Block} {h : PyStr} {m : ConsensusMessage} {pre : List ConsensusMessage}
      (horigin : c.Origin e₀ s.engine block pre) (hphase : s.engine.phase = .NEW_ROUND)
      (hh : block.hash = .ok h)
      (hprior : ∀ h' ∈ s.engine.journal.votedHash s.engine.round .PREPARE, h' = h)
      (hm : ConsensusMessage.create .PREPARE s.engine.height s.engine.round h
        s.engine.privateKey = .ok m) : Move e₀ c s ((s.send pre).accept block h m)
  | refuse {block : Block} {h h' : PyStr} {pre : List ConsensusMessage}
      (horigin : c.Origin e₀ s.engine block pre) (hphase : s.engine.phase = .NEW_ROUND)
      (hh : block.hash = .ok h)
      (hprior : s.engine.journal.votedHash s.engine.round .PREPARE = some h') (hne : h' ≠ h) :
      Move e₀ c s (s.send pre)
  | prepare {block : Block} {h : PyStr} {m : ConsensusMessage}
      (hopen : c.Opens e₀ s.engine.round) (hphase : s.engine.phase = .PRE_PREPARED)
      (hblock : s.engine.proposal = some block) (hh : block.hash = .ok h)
      (hquorum : s.engine.validators.quorum ≤ (s.engine.prepares.getD h).len)
      (hprior : ∀ h' ∈ s.engine.journal.votedHash s.engine.round .COMMIT, h' = h)
      (hm : ConsensusMessage.create .COMMIT s.engine.height s.engine.round h
        s.engine.privateKey = .ok m) : Move e₀ c s (s.prepare block h m)
  | finalize {block sealed : Block} {h : PyStr}
      (hclose : c.Opens e₀ s.engine.round ∨ c.Closes e₀ s.engine.round)
      (hphase : s.engine.phase = .PREPARED) (hblock : s.engine.proposal = some block)
      (hh : block.hash = .ok h)
      (hquorum : s.engine.validators.quorum ≤ (s.engine.commits.getD h).len)
      (hseal : attachSeals (s.engine.commits.getD h) block = .ok sealed) :
      Move e₀ c s (s.finalize sealed)
  | finalizeRaises {block : Block} {h : PyStr} {err : PyError}
      (hphase : s.engine.phase = .PREPARED) (hblock : s.engine.proposal = some block)
      (hh : block.hash = .ok h)
      (hseal : attachSeals (s.engine.commits.getD h) block = .error err) :
      Move e₀ c s (s.mapEngine fun e => { e with phase := .COMMITTED })

/-- The frames that a call passes through. -/
def Reached (e₀ : ConsensusEngine) (c : Call) : Frame → Prop := ReflTransGen (Move e₀ c) ⟨e₀, {}⟩

end Helix
