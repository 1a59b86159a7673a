import Helix.Node.BlockTable
import Helix.Node.Discovery
import Helix.Node.Moves
import Helix.Node.RateLimit

/-!
# The HTTP server

Peers reach a node over HTTP. A guard refuses POSTs that are too large or too many, the endpoints that
change something ask for a token of the cluster, and what they do comes down to four things: a message
is put into the inbox, a method of the node is called, addresses are merged into the registry, or
nothing changes. One worker takes the messages out of the inbox and hands them to the node, one after
the other. Between these steps those of other requests and of the node's own tasks can come in any
order.

The endpoints for debugging, `/ui` and `/metrics` are left out.
-/

namespace Helix

variable [Crypto] [Columns]

open Relation (ReflTransGen)
open JsonValue (elements typeError undeclared)

/-- The settings of `create_app`, without the debugging endpoints, and the size of the inbox. -/
structure ServerConfig where
  clusterToken : PyStr := []
  maxBodyBytes : ℤ := 1048576
  maxInbox : ℕ := 10000

/-! ### Requests and answers -/

/-- The endpoints; the payload of a POST is a JSON object. -/
inductive Endpoint where
  | consensus (payload : List (PyStr × JsonValue))
  | mempool (payload : List (PyStr × JsonValue))
  | membership (payload : List (PyStr × JsonValue))
  | pushBlock (payload : List (PyStr × JsonValue))
  | getPeers
  | postPeers (payload : List (PyStr × JsonValue))
  | getBlock (index : ℤ)
  | inclusionProof (height index : ℤ)
  | chain
  | health

structure Request where
  client : PyStr := str "unknown"
  contentLength : Option PyStr := none
  authorization : PyStr := []
  endpoint : Endpoint

/-- What `GET /chain` tells, but for the name of the node. -/
structure ChainStatus where
  height : ℤ
  round : ℤ
  latestHash : Option PyStr
  validators : ℕ
  quorum : ℕ
  isValidator : Bool
  validatorKeys : List PyStr

/-- What `GET /proof/{height}/{index}` tells. -/
structure RecordProof where
  height : ℤ
  index : ℤ
  merkleRoot : PyStr
  blockHash : PyStr
  record : JsonValue
  proof : List (PyStr × Bool)

inductive Content where
  | status (s : String)
  | peers (specs : List PyStr)
  | added (n : ℕ)
  | block (body : JsonValue)
  | chain (status : ChainStatus)
  | proof (p : RecordProof)

/-- Why a request is not served: an `HTTPException`, or an exception that nothing catches. The text of
an exception that the detail goes on with is left out. -/
inductive Failure where
  | http (status : ℕ) (detail : String)
  | raised (e : PyError)
  deriving DecidableEq

abbrev Answer := Except Failure Content

/-- The status code of an answer. -/
def Answer.code : Answer → ℕ
  | .ok _ => 200
  | .error (.http status _) => status
  | .error (.raised _) => 500

namespace Endpoint

def isPost : Endpoint → Bool
  | consensus _ | mempool _ | membership _ | pushBlock _ | postPeers _ => true
  | _ => false

def path : Endpoint → PyStr
  | consensus _ => str "/consensus"
  | mempool _ => str "/mempool"
  | membership _ => str "/membership"
  | pushBlock _ => str "/block"
  | getPeers | postPeers _ => str "/peers"
  | getBlock index => str "/blocks/" ++ intRepr index
  | inclusionProof height index => str "/proof/" ++ intRepr height ++ str "/" ++ intRepr index
  | chain => str "/chain"
  | health => str "/health"

/-- The endpoints that depend on `require_token`. -/
def needsToken : Endpoint → Bool
  | consensus _ | mempool _ | membership _ | pushBlock _ | getPeers | postPeers _ => true
  | _ => false

end Endpoint

/-! ### The guard and the token -/

/-- `_PROTECTED_PREFIXES`. -/
def protectedPrefixes : List PyStr :=
  [str "/consensus", str "/mempool", str "/membership", str "/block", str "/peers", str "/admin"]

/-- The POSTs that the guard looks at. -/
def Endpoint.guarded (e : Endpoint) : Bool :=
  e.isPost && protectedPrefixes.any fun p => p.isPrefixOf e.path

/-- The size that the request declares is above the limit. -/
def Request.tooLarge (cfg : ServerConfig) (r : Request) : Except PyError Bool :=
  match r.contentLength with
  | none => .ok false
  | some length => (parseInt length).map fun n => decide (cfg.maxBodyBytes < n)

/-- `guard`, up to `call_next`, at the given reading of the clock. -/
def guard (cfg : ServerConfig) (r : Request) (now : ℚ) (limiter : RateLimiter) :
    Except Failure Unit × RateLimiter :=
  if r.endpoint.guarded then
    match r.tooLarge cfg with
    | .error e => (.error (.raised e), limiter)
    | .ok true => (.error (.http 413 "payload too large"), limiter)
    | .ok false =>
      let (allowed, limiter) := limiter.allow r.client now
      (if allowed then .ok () else .error (.http 429 "rate limit exceeded"), limiter)
  else (.ok (), limiter)

/-- `hmac.compare_digest`, of texts: only ASCII is compared. -/
def compareDigest (a b : PyStr) : Except PyError Bool :=
  if (a ++ b).all fun c => c.val < 128 then .ok (decide (a = b)) else .error typeError

/-- The tokens of a setting, which are separated by commas. -/
def tokens (clusterToken : PyStr) : List PyStr :=
  ((clusterToken.splitOn (.ofNat 0x2C)).map strip).filter (· ≠ [])

/-- The tokens that are accepted. -/
def ServerConfig.accepted (cfg : ServerConfig) : List PyStr := tokens cfg.clusterToken

/-- The header that goes with a token. -/
def bearer (token : PyStr) : PyStr := str "Bearer " ++ token

/-- `any`, of the comparisons with each token. -/
def anyToken (authorization : PyStr) : List PyStr → Except PyError Bool
  | [] => .ok false
  | t :: ts => do
    if ← compareDigest authorization (bearer t) then return true
    anyToken authorization ts

/-- `require_token`. -/
def requireToken (cfg : ServerConfig) (authorization : PyStr) : Except Failure Unit :=
  if cfg.accepted = [] then .ok ()
  else
    match anyToken authorization cfg.accepted with
    | .error e => .error (.raised e)
    | .ok true => .ok ()
    | .ok false => .error (.http 401 "invalid or missing token")

/-! ### The endpoints -/

/-- What the endpoints and the tasks of a node work on. `handling` is the message that the worker has
taken out of the inbox, and `processed` are those that it has dealt with. -/
structure Service where
  node : Node
  registry : PeerRegistry
  inbox : List ConsensusMessage := []
  handling : Option ConsensusMessage := none
  processed : List ConsensusMessage := []

/-- The inbox takes no more. -/
def Service.Full (cfg : ServerConfig) (s : Service) : Prop :=
  0 < cfg.maxInbox ∧ cfg.maxInbox ≤ s.inbox.length

instance (cfg : ServerConfig) (s : Service) : Decidable (s.Full cfg) :=
  inferInstanceAs (Decidable (_ ∧ _))

abbrev ServiceM := Eff Service Failure

open Eff

/-- `except (KeyError, ValueError)`. -/
def keyOrValue : PyError → Bool
  | .keyError _ | .valueError _ | .unicodeEncodeError => true
  | _ => false

/-- `except (KeyError, ValueError, TypeError)`. -/
def keyValueOrType (e : PyError) : Bool := keyOrValue e || decide (e = typeError)

/-- The payload as a value, or status 400 for the errors that are caught. -/
def parsed {α : Type} (catches : PyError → Bool) (what : String) (x : Except PyError α) : ServiceM α :=
  lift <| match x with
    | .ok a => .ok a
    | .error e => .error (if catches e then .http 400 ("malformed " ++ what) else .raised e)

/-- `[from_dict(v) for v in payload[key]]`. -/
def listOf {α : Type} (payload : List (PyStr × JsonValue)) (key : String)
    (fromDict : JsonValue → Except PyError α) : Except PyError (List α) := do
  let values ← (JsonValue.dict payload).getItem key >>= elements
  values.mapM fromDict

/-- A method of the node. -/
def onNode (o : Operation) (passes : ℕ) : ServiceM Unit := fun s =>
  let (result, node) := o.body passes s.node
  (result.mapError .raised, { s with node })

/-- `enqueue_inbound`. -/
def enqueueInbound (cfg : ServerConfig) (m : ConsensusMessage) : ServiceM Bool := do
  let s ← get
  if s.Full cfg then return false
  else
    modify fun s => { s with inbox := s.inbox ++ [m] }
    return true

/-- `Peer.parse`, of a value. -/
def peerOf (v : JsonValue) : Except PyError Peer := JsonValue.toStr v >>= Peer.parse

/-- The body holds values of the declared types wherever it is kept as it is. -/
def Endpoint.Typed : Endpoint → Prop
  | consensus payload => ConsensusMessage.fromDict (.dict payload) ≠ .error undeclared
  | mempool payload => listOf payload "records" IntegrityRecord.fromDict ≠ .error undeclared
  | membership payload => listOf payload "changes" ValidatorChange.fromDict ≠ .error undeclared
  | pushBlock payload => Block.fromDict (.dict payload) ≠ .error undeclared
  | postPeers payload => listOf payload "peers" peerOf ≠ .error undeclared
  | _ => True

/-- The status of the chain of a node. -/
def Node.chainStatus (n : Node) : Except PyError ChainStatus := do
  let latestHash ← n.repo.getLast?.mapM Block.hash
  return {
    height := n.height
    round := n.engine.elim 0 (·.round)
    latestHash
    validators := n.active.size
    quorum := n.active.quorum
    isValidator := n.engine.isSome
    validatorKeys := n.active.validators.map PublicKey.toHex }

/-- The proof that a stored block has a record. -/
def Block.recordProof (b : Block) (height index : ℤ) (r : IntegrityRecord) :
    Except PyError RecordProof := do
  let steps ← b.proofForRecord index
  let blockHash ← b.hash
  return {
    height, index, blockHash
    merkleRoot := b.header.merkleRoot
    record := JsonValue.ofDict r.toDict
    proof := steps.map fun s => (toHex s.sibling, s.siblingOnRight) }

/-- An exception that nothing catches. -/
def uncaught {α : Type} (x : Except PyError α) : ServiceM α := lift (x.mapError .raised)

/-- The bodies of the endpoints. -/
def Endpoint.body (cfg : ServerConfig) (passes : ℕ) : Endpoint → ServiceM Content
  | consensus payload => do
    let message ← parsed keyOrValue "message" (ConsensusMessage.fromDict (.dict payload))
    if ← enqueueInbound cfg message then return .status "accepted"
    else raise (.http 503 "inbox full, retry later")
  | mempool payload => do
    let records ← parsed keyValueOrType "records" (listOf payload "records" IntegrityRecord.fromDict)
    onNode (.receiveRecords records) passes
    return .status "accepted"
  | membership payload => do
    let changes ← parsed keyValueOrType "changes" (listOf payload "changes" ValidatorChange.fromDict)
    onNode (.receiveValidatorChanges changes) passes
    return .status "accepted"
  | pushBlock payload => do
    let block ← parsed keyValueOrType "block" (Block.fromDict (.dict payload))
    onNode (.ingestBlock block) passes
    return .status "accepted"
  | getPeers => do
    let s ← get
    return .peers s.registry.specs
  | postPeers payload => do
    let peers ← parsed keyValueOrType "peers" (listOf payload "peers" peerOf)
    let s ← get
    modify fun s => { s with registry := (s.registry.merge peers).2 }
    return .added (s.registry.merge peers).1
  | getBlock index => do
    let s ← get
    match ← uncaught (Repository.get s.node.repo index) with
    | none => raise (.http 404 "block not found")
    | some block => return .block block.toDict
  | inclusionProof height index => do
    let s ← get
    match ← uncaught (Repository.get s.node.repo height) with
    | none => raise (.http 404 "block not found")
    | some block =>
      match if 0 ≤ index then block.records[index.toNat]? else none with
      | none => raise (.http 404 "record index out of range")
      | some r => return .proof (← uncaught (block.recordProof height index r))
  | chain => do
    let s ← get
    return .chain (← uncaught s.node.chainStatus)
  | health => return .status "ok"

/-- A request after the guard. -/
def Request.serve (cfg : ServerConfig) (passes : ℕ) (r : Request) : ServiceM Content := do
  if r.endpoint.needsToken then lift (requireToken cfg r.authorization)
  r.endpoint.body cfg passes

/-! ### The server -/

/-- A server. `admitted` are the requests that have passed the guard and are not answered yet. -/
structure Server where
  service : Service
  limiter : RateLimiter
  admitted : List Request := []
  answers : List (Request × Answer) := []

/-- A request reaches the guard. -/
def Server.arrive (cfg : ServerConfig) (r : Request) (now : ℚ) (s : Server) : Server :=
  match guard cfg r now s.limiter with
  | (.ok _, limiter) => { s with limiter, admitted := s.admitted ++ [r] }
  | (.error f, limiter) => { s with limiter, answers := s.answers ++ [(r, .error f)] }

/-- The methods that the tasks and the operator of a node call. -/
def Operation.Own : Operation → Prop
  | submitRecords _ | submitValidatorChange _ | tick | forceTimeout | roundTimer _ => True
  | _ => False

/-- A step of the node's own tasks: a method of the node, a round of discovery, and the two halves of
`inbound_worker`. `fetched` are the answers that `fetch_block` can give for an index. -/
inductive Service.Task (fetched : ℤ → Except PyError (Option Block) → Prop) (s : Service) : Service → Prop
  | operate {o : Operation} (ho : o.Own) (passes : ℕ) : Task fetched s { s with node := o.run passes s.node }
  | discover (peers : List Peer) : Task fetched s { s with registry := (s.registry.merge peers).2 }
  | take {m : ConsensusMessage} {rest : List ConsensusMessage} (h : s.inbox = m :: rest)
      (hidle : s.handling = none) : Task fetched s { s with inbox := rest, handling := some m }
  | work {m : ConsensusMessage} (h : s.handling = some m)
      {answers : List (Except PyError (Option Block))}
      (hanswers : ∀ (i : ℕ) a, answers[i]? = some a → fetched (s.node.height + 1 + i) a) (passes : ℕ) :
      Task fetched s { s with
        node := (Operation.onMessage m answers).run passes s.node
        handling := none
        processed := s.processed ++ [m] }

/-- A step of a server: a request that satisfies `ok` arrives, one that was admitted is served, or a task
goes on. -/
inductive Server.Step (cfg : ServerConfig) (ok : Request → Prop)
    (fetched : ℤ → Except PyError (Option Block) → Prop) (s : Server) : Server → Prop
  | arrive {r : Request} (hr : ok r) (now : ℚ) : Step cfg ok fetched s (s.arrive cfg r now)
  | serve {before after : List Request} {r : Request} (h : s.admitted = before ++ r :: after)
      (passes : ℕ) :
      Step cfg ok fetched s { s with
        service := (r.serve cfg passes s.service).2
        admitted := before ++ after
        answers := s.answers ++ [(r, (r.serve cfg passes s.service).1)] }
  | task {t : Service} (h : s.service.Task fetched t) : Step cfg ok fetched s { s with service := t }

/-- A run of a server within one lifetime of the process. -/
def Server.Runs (cfg : ServerConfig) (ok : Request → Prop)
    (fetched : ℤ → Except PyError (Option Block) → Prop) : Server → Server → Prop :=
  ReflTransGen (Server.Step cfg ok fetched)

end Helix
