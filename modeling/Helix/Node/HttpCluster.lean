import Helix.Node.Transport

/-!
# Clusters over HTTP

A cluster is seen on two levels. A `Fabric` is a number of nodes that are handed values: what one of them
has put out can be handed to any of them, late, more than once or not at all, and a node that is behind can
fetch the blocks that others have stored. A `HttpCluster` is what runs: servers with inboxes, a guard, tokens
and requests in the middle of being served, JSON texts that are posted, and clients without a token that
send whatever they like.

The cluster does nothing that the fabric does not do (`HttpCluster.refines_fabric`). So what is true of nodes
that exchange values is true of the nodes behind the servers.
-/

namespace Helix

variable [Crypto] [Columns] {ι : Type}

open Relation (ReflTransGen)

/-! ### The fabric -/

/-- The method that is called when a node is handed an item. -/
inductive Outgoing.Calls : Outgoing → Operation → Prop
  | message (m : ConsensusMessage) (answers : List (Except PyError (Option Block))) :
      Calls (.message m) (.onMessage m answers)
  | records (rs : List IntegrityRecord) : Calls (.records rs) (.receiveRecords rs)
  | changes (cs : List ValidatorChange) : Calls (.changes cs) (.receiveValidatorChanges cs)
  | block (b : Block) : Calls (.block b) (.ingestBlock b)

/-- Nodes, and the items that they have put out and that are on their way. -/
structure Fabric (ι : Type) where
  nodes : ι → Node
  flight : List Outgoing := []

namespace Fabric

/-- What a node gets when it fetches the block of an index: none, or one that a node has stored. -/
def Fetched (φ : Fabric ι) (index : ℤ) (answer : Except PyError (Option Block)) : Prop :=
  answer = .ok none ∨ ∃ i, ∃ b ∈ (φ.nodes i).repo, b.index = index ∧ answer = .ok (some b)

/-- What node `i` fetches during a method is what the others have stored. -/
def Answers (φ : Fabric ι) (i : ι) : Operation → Prop
  | .onMessage _ answers => ∀ (k : ℕ) a, answers[k]? = some a → φ.Fetched ((φ.nodes i).height + 1 + k) a
  | _ => True

variable [DecidableEq ι]

/-- A step of the fabric: something that a node has put out sets out, a node calls one of its own methods,
or it is handed an item, or it is restarted from what it has stored. -/
inductive Step (φ : Fabric ι) : Fabric ι → Prop
  | send {i : ι} {out : Outgoing} (h : out ∈ (φ.nodes i).outbox) :
      Step φ { φ with flight := φ.flight ++ [out] }
  | own (i : ι) {o : Operation} (ho : o.Own) (passes : ℕ) :
      Step φ { φ with nodes := Function.update φ.nodes i (o.run passes (φ.nodes i)) }
  | deliver {i : ι} {out : Outgoing} {o : Operation} (h : out ∈ φ.flight) (ho : out.Calls o)
      (hanswers : φ.Answers i o) (passes : ℕ) :
      Step φ { φ with nodes := Function.update φ.nodes i (o.run passes (φ.nodes i)) }
  | restart {i : ι} {validators : ValidatorSet} {nowMs : ℕ → ℤ} {n : Node}
      (hinit : Node.init (φ.nodes i).privateKey validators (φ.nodes i).repo (φ.nodes i).journalStore
        nowMs = .ok n) :
      Step φ { φ with nodes := Function.update φ.nodes i n }

variable {φ φ' : Fabric ι}

/-- What is on its way stays there. -/
lemma Step.flight_subset (h : Step φ φ') : φ.flight ⊆ φ'.flight := by
  cases h with
  | send => exact List.subset_append_left _ _
  | own => exact List.Subset.refl _
  | deliver => exact List.Subset.refl _
  | restart => exact List.Subset.refl _

/-- The methods that are called for what is on its way, and the node's own. -/
def Called (φ : Fabric ι) (o : Operation) : Prop := o.Own ∨ ∃ out ∈ φ.flight, out.Calls o

/-- Every node of the fabric makes a run of such methods. -/
lemma nodeRuns (hrun : ReflTransGen Step φ φ') (i : ι) :
    Node.Runs φ'.Called (φ.nodes i) (φ'.nodes i) := by
  induction hrun with
  | refl => exact .refl
  | @tail φ₁ φ₂ _ hstep ih =>
    have hmono : Node.Runs φ₂.Called (φ.nodes i) (φ₁.nodes i) := by
      refine ih.mono fun o ho => ho.imp_right ?_
      rintro ⟨out, hout, hcalls⟩
      exact ⟨out, hstep.flight_subset hout, hcalls⟩
    have hstay : ∀ {j : ι} {n : Node}, Node.Step φ₂.Called (φ₁.nodes j) n →
        Node.Runs φ₂.Called (φ.nodes i) (Function.update φ₁.nodes j n i) := by
      intro j n hn
      by_cases hij : i = j
      · subst hij
        rw [Function.update_self]
        exact hmono.tail hn
      · rw [Function.update_of_ne hij]
        exact hmono
    cases hstep with
    | send => exact hmono
    | own j ho passes => exact hstay (.operation (Or.inl ho) passes)
    | deliver hout ho _ passes => exact hstay (.operation (Or.inr ⟨_, hout, ho⟩) passes)
    | restart hinit => exact hstay (.restart hinit)

end Fabric

/-! ### The cluster -/

/-- The endpoint hands something to the node. -/
def Endpoint.handsOver : Endpoint → Bool
  | .consensus _ | .mempool _ | .membership _ | .pushBlock _ => true
  | _ => false

/-- How the answers of a server are written. -/
def responseStyle : JsonStyle := ⟨false, true⟩

/-- `fetch_block`, from what the peers answer in turn; a peer that cannot be reached gives no answer, and
one that cannot encode its block answers with status 500. -/
def HttpTransport.fetchBlock : List (Option Answer) → Except PyError (Option Block)
  | [] => .ok none
  | some (.ok (.block body)) :: rest =>
    match encode (body.dumps responseStyle) with
    | .ok _ => (decodeJson (body.dumps responseStyle) >>= Block.fromDict).map some
    | .error _ => fetchBlock rest
  | _ :: rest => fetchBlock rest

/-- Servers, and the POSTs that are on their way. -/
structure HttpCluster (ι : Type) where
  servers : ι → Server
  flight : List Post := []

namespace HttpCluster

/-- The node behind a server. -/
def nodes (w : HttpCluster ι) (i : ι) : Node := (w.servers i).service.node

/-- The requests that can arrive at a server: POSTs on their way, what clients without a token send, and
what hands nothing to the node. -/
inductive Arrives (w : HttpCluster ι) (cfg : ServerConfig) (r : Request) : Prop
  | post {p : Post} (hp : p ∈ w.flight) (hr : p.request r.client = some r)
  | outsider (h : requireToken cfg r.authorization ≠ .ok ())
  | other (h : r.endpoint.handsOver = false)

/-- What a node gets from its peers when it fetches the block of an index. -/
def Fetched (cfg : ι → ServerConfig) (w : HttpCluster ι) (index : ℤ)
    (answer : Except PyError (Option Block)) : Prop :=
  ∃ responses : List (Option Answer), HttpTransport.fetchBlock responses = answer ∧
    ∀ x ∈ responses, x = none ∨ ∃ (i : ι) (r : Request) (passes : ℕ), r.endpoint = .getBlock index ∧
      x = some (r.serve (cfg i) passes (w.servers i).service).1

variable [DecidableEq ι]

/-- A step of the cluster: something that a node has put out is posted, a server makes a step, or it is
restarted. -/
inductive Step (cfg : ι → ServerConfig) (σ : JsonStyle) (w : HttpCluster ι) : HttpCluster ι → Prop
  | send {i : ι} {out : Outgoing} {p : Post} (h : out ∈ (w.nodes i).outbox)
      (hkept : ∀ s ∈ out.texts, σ.Keeps s) (hp : out.post σ (cfg i).clusterToken = some p) :
      Step cfg σ w { w with flight := w.flight ++ [p] }
  | server {i : ι} {t : Server}
      (h : Server.Step (cfg i) (w.Arrives (cfg i)) (w.Fetched cfg) (w.servers i) t) :
      Step cfg σ w { w with servers := Function.update w.servers i t }
  | restart {i : ι} {validators : ValidatorSet} {nowMs : ℕ → ℤ} {n : Node} (registry : PeerRegistry)
      (limiter : RateLimiter) (hinit : Node.init (w.nodes i).privateKey validators (w.nodes i).repo
        (w.nodes i).journalStore nowMs = .ok n) :
      Step cfg σ w { w with
        servers := Function.update w.servers i ⟨⟨n, registry, [], none, []⟩, limiter, [], []⟩ }

/-- No request and no message is on its way. -/
structure Begins (w : HttpCluster ι) : Prop where
  flight : w.flight = []
  admitted : ∀ i, (w.servers i).admitted = []
  inbox : ∀ i, (w.servers i).service.inbox = []
  handling : ∀ i, (w.servers i).service.handling = none
  processed : ∀ i, (w.servers i).service.processed = []

/-! ### What the fabric does for the cluster -/

variable {cfg : ι → ServerConfig} {σ : JsonStyle} {w w' : HttpCluster ι} {φ φ' : Fabric ι}

omit [Crypto] [Columns] in
/-- A block is read from the response of a peer as the peer has stored it. -/
lemma fetchBlock_block (b : Block) (rest : List (Option Answer)) :
    HttpTransport.fetchBlock (some (.ok (.block b.toDict)) :: rest) = .ok (some b) ∨
      HttpTransport.fetchBlock (some (.ok (.block b.toDict)) :: rest) = HttpTransport.fetchBlock rest := by
  rw [HttpTransport.fetchBlock]
  cases encode (b.toDict.dumps responseStyle) with
  | error e => exact Or.inr rfl
  | ok bytes =>
    have hread : decodeJson (b.toDict.dumps responseStyle) >>= Block.fromDict = .ok b := by
      rw [decodeJson_dumps (Block.plain_toDict fun s _ h => by cases h)]
      exact b.fromDict_toDict
    left
    dsimp only
    rw [hread]
    rfl

omit [DecidableEq ι] in
/-- What a node gets from its peers, some node has stored. -/
lemma Fetched.fabric (hnodes : φ.nodes = w.nodes) {index : ℤ} {answer : Except PyError (Option Block)}
    (h : w.Fetched cfg index answer) : φ.Fetched index answer := by
  obtain ⟨responses, rfl, hall⟩ := h
  induction responses with
  | nil => exact Or.inl rfl
  | cons x rest ih =>
    rw [List.forall_mem_cons] at hall
    have hrest := ih hall.2
    rcases hall.1 with rfl | ⟨i, r, passes, hr, rfl⟩
    · exact hrest
    · have hserve : (r.serve (cfg i) passes (w.servers i).service).1 =
          ((Repository.get (w.nodes i).repo index).mapError .raised >>= fun found =>
            found.elim (.error (.http 404 "block not found")) fun b => .ok (.block b.toDict)) := by
        rw [Request.serve_of_open (by rw [hr]; rfl), hr, Endpoint.body_getBlock]
        rfl
      rw [hserve, Repository.get]
      split_ifs
      · cases hget : (w.nodes i).repo.find? (·.index = index) with
        | none => exact hrest
        | some b =>
          change φ.Fetched index (HttpTransport.fetchBlock (some (.ok (.block b.toDict)) :: rest))
          rcases fetchBlock_block b rest with hblock | hskip
          · refine Or.inr ⟨i, b, ?_, ?_, hblock⟩
            · rw [hnodes]
              exact List.mem_of_find?_eq_some hget
            · exact of_decide_eq_true (List.find?_some (p := fun b : Block => decide (b.index = index)) hget)
          · rw [hskip]
            exact hrest
      · exact hrest

/-- The fabric has the nodes of the cluster, and whatever the servers have still to deal with is on its way
in the fabric. -/
structure Shows (cfg : ι → ServerConfig) (w : HttpCluster ι) (φ : Fabric ι) : Prop where
  nodes : φ.nodes = w.nodes
  flight : ∀ p ∈ w.flight, ∀ client r, p.request client = some r →
    ∃ out ∈ φ.flight, r.endpoint.Reads out
  admitted : ∀ i, ∀ r ∈ (w.servers i).admitted, r.endpoint.handsOver = true →
    requireToken (cfg i) r.authorization = .ok () → ∃ out ∈ φ.flight, r.endpoint.Reads out
  messages : ∀ i, ∀ m ∈ (w.servers i).service.processed ++ (w.servers i).service.handling.toList ++
    (w.servers i).service.inbox, .message m ∈ φ.flight

namespace Shows

omit [Crypto] [Columns] in
/-- The fabric after more of it has been put on its way, and the cluster after one server has made a step
that shows. -/
lemma update (h : w.Shows cfg φ) (hsub : φ.flight ⊆ φ'.flight) {i : ι} {t : Server}
    (hnodes : φ'.nodes = Function.update φ.nodes i t.service.node)
    (hadmitted : ∀ r ∈ t.admitted, r.endpoint.handsOver = true →
      requireToken (cfg i) r.authorization = .ok () → ∃ out ∈ φ'.flight, r.endpoint.Reads out)
    (hmessages : ∀ m ∈ t.service.processed ++ t.service.handling.toList ++ t.service.inbox,
      .message m ∈ φ'.flight) :
    Shows cfg { w with servers := Function.update w.servers i t } φ' := by
  refine ⟨?_, fun p hp client r hr => ?_, fun j r hr => ?_, fun j m hm => ?_⟩
  · rw [hnodes, h.nodes]
    funext j
    by_cases hj : j = i
    · subst hj
      simp [HttpCluster.nodes]
    · simp [HttpCluster.nodes, hj]
  · exact (h.flight p hp client r hr).imp fun out hout => hout.imp_left (hsub ·)
  · by_cases hj : j = i
    · subst hj
      simp only [Function.update_self] at hr
      exact hadmitted r hr
    · simp only [Function.update_of_ne hj] at hr
      exact fun hover htoken => (h.admitted j r hr hover htoken).imp fun out hout => hout.imp_left (hsub ·)
  · by_cases hj : j = i
    · subst hj
      simp only [Function.update_self] at hm
      exact hmessages m hm
    · simp only [Function.update_of_ne hj] at hm
      exact hsub (h.messages j m hm)

omit [Crypto] [Columns] in
/-- What arrives and passes the guard is on its way in the fabric, if it hands something over. -/
lemma arrive (h : w.Shows cfg φ) {i : ι} {r : Request} (hr : w.Arrives (cfg i) r) (now : ℚ) :
    Shows cfg { w with servers := Function.update w.servers i ((w.servers i).arrive (cfg i) r now) } φ := by
  have hservice : ((w.servers i).arrive (cfg i) r now).service = (w.servers i).service := by
    unfold Server.arrive
    split <;> rfl
  have hadmitted : ((w.servers i).arrive (cfg i) r now).admitted ⊆ (w.servers i).admitted ++ [r] := by
    unfold Server.arrive
    split
    · exact List.Subset.refl _
    · exact List.subset_append_left _ _
  refine h.update (List.Subset.refl _) ?_ (fun q hq hover htoken => ?_) ?_
  · rw [hservice, h.nodes]
    exact (Function.update_eq_self i w.nodes).symm
  · rcases List.mem_append.mp (hadmitted hq) with hq | hq
    · exact h.admitted i q hq hover htoken
    · rw [List.mem_singleton.mp hq] at hover htoken ⊢
      cases hr with
      | post hp hr => exact h.flight _ hp _ _ hr
      | outsider hno => exact absurd htoken hno
      | other hno =>
        rw [hno] at hover
        cases hover
  · rw [hservice]
    exact h.messages i

/-- An endpoint that hands nothing over leaves the node and its messages alone. -/
lemma serve_other {c : ServerConfig} {r : Request} (hr : r.endpoint.handsOver = false) (passes : ℕ)
    (s : Service) : ∃ registry, (r.serve c passes s).2 = { s with registry } := by
  have heffect := r.serve_effect c passes s
  generalize (r.serve c passes s).1 = answer at heffect
  generalize (r.serve c passes s).2 = s' at heffect ⊢
  cases heffect with
  | nothing => exact ⟨s.registry, rfl⟩
  | enqueue _ _ hmessage =>
    obtain ⟨client, contentLength, authorization, endpoint⟩ := r
    cases endpoint with
    | consensus => cases hr
    | _ => cases hmessage
  | call _ ho =>
    obtain ⟨client, contentLength, authorization, endpoint⟩ := r
    cases ho <;> cases hr
  | merge => exact ⟨_, rfl⟩

/-- What a server that has served a request shows. -/
lemma serve (h : w.Shows cfg φ) {i : ι} {before after : List Request} {r : Request}
    (hadmitted : (w.servers i).admitted = before ++ r :: after) (passes : ℕ)
    (answers : List (Request × Answer)) :
    ∃ φ', ReflTransGen Fabric.Step φ φ' ∧ Shows cfg { w with
      servers := Function.update w.servers i { w.servers i with
        service := (r.serve (cfg i) passes (w.servers i).service).2
        admitted := before ++ after
        answers } } φ' := by
  have hrest : ∀ q ∈ before ++ after, q ∈ (w.servers i).admitted := by
    rw [hadmitted]
    exact fun q hq => List.mem_append.mpr ((List.mem_append.mp hq).imp_right (List.mem_cons_of_mem _))
  have hwaiting := fun q hq => h.admitted i q (hrest q hq)
  have hmem : r ∈ (w.servers i).admitted := by
    rw [hadmitted]
    simp
  have hsame : φ.nodes = Function.update φ.nodes i (w.servers i).service.node := by
    rw [h.nodes]
    exact (Function.update_eq_self i w.nodes).symm
  by_cases htoken : requireToken (cfg i) r.authorization = .ok ()
  swap
  · rw [Server.serve_inside htoken]
    exact ⟨φ, .refl, h.update (List.Subset.refl _) hsame hwaiting (h.messages i)⟩
  cases hover : r.endpoint.handsOver with
  | false =>
    obtain ⟨registry, hserve⟩ := serve_other (c := cfg i) hover passes (w.servers i).service
    rw [hserve]
    exact ⟨φ, .refl, h.update (List.Subset.refl _) hsame hwaiting (h.messages i)⟩
  | true =>
    obtain ⟨out, hout, hreads⟩ := h.admitted i r hmem hover htoken
    rw [hreads.serve htoken]
    have hcall : ∀ {o : Operation}, out.Calls o → φ.Answers i o →
        ∃ φ', ReflTransGen Fabric.Step φ φ' ∧ Shows cfg { w with
          servers := Function.update w.servers i { w.servers i with
            service := { (w.servers i).service with node := o.run passes (w.servers i).service.node }
            admitted := before ++ after
            answers } } φ' := by
      intro o ho hanswers
      refine ⟨_, .single (.deliver hout ho hanswers passes), h.update ?_ ?_ hwaiting (h.messages i)⟩
      · exact List.Subset.refl _
      · rw [h.nodes]
        rfl
    cases out with
    | message m =>
      refine ⟨φ, .refl, ?_⟩
      by_cases hfull : (w.servers i).service.Full (cfg i)
      · rw [Service.receive, if_pos hfull]
        exact h.update (List.Subset.refl _) hsame hwaiting (h.messages i)
      · rw [Service.receive, if_neg hfull]
        refine h.update (List.Subset.refl _) hsame hwaiting fun q hq => ?_
        rw [← List.append_assoc] at hq
        rcases List.mem_append.mp hq with hq | hq
        · exact h.messages i q hq
        · rw [List.mem_singleton.mp hq]
          exact hout
    | records rs => exact hcall (.records rs) trivial
    | changes cs => exact hcall (.changes cs) trivial
    | block b => exact hcall (.block b) trivial
    | committed b =>
      have hnone : ∀ e : Endpoint, ¬e.Reads (.committed b) := fun e he => by cases he
      exact absurd hreads (hnone _)

/-- What a server whose tasks have gone on shows. -/
lemma task (h : w.Shows cfg φ) {i : ι} {t : Service}
    (htask : (w.servers i).service.Task (w.Fetched cfg) t) :
    ∃ φ', ReflTransGen Fabric.Step φ φ' ∧ Shows cfg { w with
      servers := Function.update w.servers i { w.servers i with service := t } } φ' := by
  have hnode : φ.nodes i = (w.servers i).service.node := by rw [h.nodes]; rfl
  have hsame : φ.nodes = Function.update φ.nodes i (w.servers i).service.node := by
    rw [← hnode, Function.update_eq_self]
  cases htask with
  | @operate o ho passes =>
    refine ⟨_, .single (.own i ho passes), h.update ?_ ?_ (h.admitted i) (h.messages i)⟩
    · exact List.Subset.refl _
    · rw [hnode]
  | discover peers =>
    exact ⟨φ, .refl, h.update (List.Subset.refl _) hsame (h.admitted i) (h.messages i)⟩
  | @take m rest hinbox hidle =>
    refine ⟨φ, .refl, h.update (List.Subset.refl _) hsame (h.admitted i) fun q hq => h.messages i q ?_⟩
    rw [hinbox, hidle]
    simpa using hq
  | @work m hm answers hanswers passes =>
    have hmem : (.message m : Outgoing) ∈ φ.flight := h.messages i m (by simp [hm])
    have hfetched : φ.Answers i (.onMessage m answers) := by
      intro k a ha
      rw [hnode]
      exact (hanswers k a ha).fabric h.nodes
    refine ⟨_, .single (.deliver hmem (.message m answers) hfetched passes),
      h.update ?_ ?_ (h.admitted i) fun q hq => h.messages i q ?_⟩
    · exact List.Subset.refl _
    · rw [hnode]
    · rw [hm]
      simpa using hq

/-- A restarted server has nothing left to deal with. -/
lemma restart (h : w.Shows cfg φ) {i : ι} {validators : ValidatorSet} {nowMs : ℕ → ℤ} {n : Node}
    (registry : PeerRegistry) (limiter : RateLimiter) (hinit : Node.init (w.nodes i).privateKey validators
      (w.nodes i).repo (w.nodes i).journalStore nowMs = .ok n) :
    ∃ φ', ReflTransGen Fabric.Step φ φ' ∧ Shows cfg { w with
      servers := Function.update w.servers i ⟨⟨n, registry, [], none, []⟩, limiter, [], []⟩ } φ' := by
  rw [← h.nodes] at hinit
  refine ⟨_, .single (.restart hinit), h.update ?_ rfl (fun r hr => ?_) fun m hm => ?_⟩
  · exact List.Subset.refl _
  · exact absurd hr List.not_mem_nil
  · exact absurd hm List.not_mem_nil

/-- What a node posts sets out in the fabric. -/
lemma send (h : w.Shows cfg φ) {i : ι} {out : Outgoing} {p : Post} (hout : out ∈ (w.nodes i).outbox)
    (hkept : ∀ s ∈ out.texts, σ.Keeps s) (hp : out.post σ (cfg i).clusterToken = some p) :
    ∃ φ', ReflTransGen Fabric.Step φ φ' ∧ Shows cfg { w with flight := w.flight ++ [p] } φ' := by
  rw [← h.nodes] at hout
  have hsub : φ.flight ⊆ φ.flight ++ [out] := List.subset_append_left _ _
  refine ⟨_, .single (.send hout), h.nodes, fun q hq client r hr => ?_, fun j r hr hover htoken => ?_,
    fun j m hm => hsub (h.messages j m hm)⟩
  · rcases List.mem_append.mp hq with hq | hq
    · exact (h.flight q hq client r hr).imp fun x hx => hx.imp_left (hsub ·)
    · rw [List.mem_singleton.mp hq] at hr
      obtain ⟨e, hreads, hrequest⟩ := Outgoing.exists_request hp hkept client
      rw [hrequest] at hr
      cases hr
      exact ⟨out, List.mem_append_right _ (List.mem_singleton_self _), hreads⟩
  · exact (h.admitted j r hr hover htoken).imp fun x hx => hx.imp_left (hsub ·)

/-- The fabric answers every step of the cluster. -/
lemma simulation (cfg : ι → ServerConfig) (σ : JsonStyle) :
    Simulation (Step cfg σ) Fabric.Step (Shows cfg) := by
  intro w w' φ h hstep
  cases hstep with
  | send hout hkept hp => exact h.send hout hkept hp
  | restart registry limiter hinit => exact h.restart registry limiter hinit
  | server hserver =>
    cases hserver with
    | arrive hr now => exact ⟨φ, .refl, h.arrive hr now⟩
    | serve hadmitted passes => exact h.serve hadmitted passes _
    | task htask => exact h.task htask

end Shows

/-- What servers do that exchange JSON texts over HTTP, whatever clients without a token send to them,
nodes do that exchange values: every run of the cluster, with any interleaving of requests and tasks and
with restarts, ends with the nodes of a run of the fabric, in which every message that a worker has
processed was on its way. Each node has made a run of its own methods and of those called for items that a
node of the cluster has put out. -/
theorem refines_fabric {w₀ : HttpCluster ι} (hstart : w₀.Begins)
    (hrun : ReflTransGen (Step cfg σ) w₀ w) :
    ∃ φ, ReflTransGen Fabric.Step ⟨w₀.nodes, []⟩ φ ∧ φ.nodes = w.nodes ∧
      (∀ i, ∀ m ∈ (w.servers i).service.processed, .message m ∈ φ.flight) ∧
      ∀ i, Node.Runs φ.Called (w₀.nodes i) (w.nodes i) := by
  have hshows : w₀.Shows cfg ⟨w₀.nodes, []⟩ := by
    refine ⟨rfl, fun p hp => ?_, fun i r hr => ?_, fun i m hm => ?_⟩
    · rw [hstart.flight] at hp
      exact absurd hp List.not_mem_nil
    · rw [hstart.admitted] at hr
      exact absurd hr List.not_mem_nil
    · rw [hstart.inbox, hstart.handling, hstart.processed] at hm
      exact absurd hm List.not_mem_nil
  obtain ⟨φ, hsteps, h⟩ := (Shows.simulation cfg σ).run hshows hrun
  refine ⟨φ, hsteps, h.nodes, fun i m hm => h.messages i m ?_, fun i => ?_⟩
  · exact List.mem_append_left _ (List.mem_append_left _ hm)
  · rw [← h.nodes]
    exact Fabric.nodeRuns hsteps i

/-- What a node has put out can be delivered to any node that admits the sender, if its guard lets the POST
pass. -/
lemma exists_delivery {i j : ι} {out : Outgoing} {p : Post} (hout : out ∈ (w.nodes i).outbox)
    (hkept : ∀ s ∈ out.texts, σ.Keeps s) (hp : out.post σ (cfg i).clusterToken = some p)
    (htoken : requireToken (cfg j) (HttpTransport.authorization (cfg i).clusterToken) = .ok ())
    (hlength : (p.length : ℤ) ≤ (cfg j).maxBodyBytes) (client : PyStr) (now : ℚ)
    (hallow : ((w.servers j).limiter.allow client now).1 = true) (passes : ℕ) :
    ∃ w', ReflTransGen (Step cfg σ) w w' ∧
      (w'.servers j).service = (w.servers j).service.receive (cfg j) passes out := by
  obtain ⟨e, hreads, hrequest⟩ := Outgoing.exists_request hp hkept client
  let r : Request := ⟨client, some (intRepr p.length), HttpTransport.authorization (cfg i).clusterToken, e⟩
  let w₁ : HttpCluster ι := { w with flight := w.flight ++ [p] }
  have hpass : (guard (cfg j) r now (w.servers j).limiter).1 = .ok () :=
    (guard_eq_ok hreads.guarded rfl).mpr ⟨hlength, hallow⟩
  obtain ⟨limiter, hlimiter⟩ : ∃ limiter, guard (cfg j) r now (w.servers j).limiter = (.ok (), limiter) :=
    ⟨_, Prod.ext hpass rfl⟩
  have harrive : (w.servers j).arrive (cfg j) r now =
      { w.servers j with limiter, admitted := (w.servers j).admitted ++ [r] } := by
    rw [Server.arrive, hlimiter]
  have hon : w₁.Arrives (cfg j) r :=
    .post (List.mem_append_right _ (List.mem_singleton_self _)) hrequest
  let t : Server := { w.servers j with limiter, admitted := (w.servers j).admitted ++ [r] }
  have hstep₂ : Step cfg σ w₁ { w₁ with servers := Function.update w₁.servers j t } := by
    refine .server ?_
    rw [show t = (w₁.servers j).arrive (cfg j) r now from harrive.symm]
    exact .arrive hon now
  let w₂ : HttpCluster ι := { w₁ with servers := Function.update w₁.servers j t }
  have ht : w₂.servers j = t := Function.update_self ..
  have hserve : Server.Step (cfg j) (w₂.Arrives (cfg j)) (w₂.Fetched cfg) (w₂.servers j) { w₂.servers j with
      service := (r.serve (cfg j) passes (w₂.servers j).service).2
      admitted := (w.servers j).admitted ++ []
      answers := (w₂.servers j).answers ++ [(r, (r.serve (cfg j) passes (w₂.servers j).service).1)] } :=
    .serve (by rw [ht]) passes
  refine ⟨_, .tail (.tail (.single (.send hout hkept hp)) hstep₂) (.server hserve), ?_⟩
  simp only [Function.update_self, ht]
  exact Endpoint.Reads.serve (r := r) hreads htoken passes

/-- A validator on its own and a follower. -/
def pair (leader follower : Node) : HttpCluster Bool where
  servers i := ⟨⟨if i then leader else follower, ⟨[], none, .empty⟩, [], none, []⟩, .new 0 1, [], []⟩

omit [Crypto] [Columns] in
lemma begins_pair (leader follower : Node) : (pair leader follower).Begins :=
  ⟨rfl, fun _ => rfl, fun _ => rfl, fun _ => rfl, fun _ => rfl⟩

omit [Crypto] [Columns] in
/-- A lone validator commits a block and pushes it to a follower, which stores it. -/
theorem refines_fabric_of_push :
    letI := Crypto.checksums
    letI := Columns.sqlite
    ∃ leader follower w φ, Node.init (seedKey 0xaa) .single [] .null (fun i => i) = .ok leader ∧
      Node.init (seedKey 0xbb) .single [] .null (fun i => i) = .ok follower ∧
      ReflTransGen (Step (fun _ => {}) {}) (pair leader follower) w ∧ (w.nodes false).repo.length = 2 ∧
      ReflTransGen Fabric.Step ⟨(pair leader follower).nodes, []⟩ φ ∧ φ.nodes = w.nodes := by
  let := Crypto.checksums
  let := Columns.sqlite
  let change : ValidatorChange := ⟨.ADD, (seedPublic 0xbb).toHex⟩
  let Pushes (follower : Node) (out : Outgoing) : Bool := match out with
    | .block b => decide ((∀ s ∈ b.texts, JsonStyle.Keeps {} s) ∧
        ((Outgoing.block b).post {} []).any (fun p => p.length ≤ 1048576) ∧
        ((Operation.ingestBlock b).run 1 follower).repo.length = 2)
    | _ => false
  have hrun : ((Node.init (seedKey 0xaa) .single [] .null fun i => i).bind fun leader =>
      (Node.init (seedKey 0xbb) .single [] .null fun i => i).map fun follower =>
        ((Operation.submitValidatorChange change).run 4 leader).outbox.any (Pushes follower)) =
      .ok true := by
    decide +kernel
  obtain ⟨leader, hleader, hrest⟩ := exists_of_bind_eq_ok hrun
  obtain ⟨follower, hfollower, hany⟩ := exists_of_map_eq_ok hrest
  obtain ⟨out, hout, hpushes⟩ := List.any_eq_true.mp hany
  let w₀ := pair leader follower
  let service : Service := { (w₀.servers true).service with
    node := (Operation.submitValidatorChange change).run 4 leader }
  let w₁ : HttpCluster Bool := { w₀ with
    servers := Function.update w₀.servers true { w₀.servers true with service } }
  have hmethod : (Operation.submitValidatorChange change).Own := trivial
  have hown : Step (fun _ => {}) {} w₀ w₁ := .server (.task (.operate hmethod 4))
  cases out with
  | block b =>
    obtain ⟨hkept, hlength, hstored⟩ := of_decide_eq_true hpushes
    have hkept' : ∀ s ∈ (Outgoing.block b).texts, JsonStyle.Keeps {} s := hkept
    obtain ⟨p, hp, hp'⟩ := (Option.any_eq_true _ _).mp hlength
    have hlength' : (p.length : ℤ) ≤ 1048576 := by exact_mod_cast of_decide_eq_true hp'
    have hdelivered : ∃ w', ReflTransGen (Step (fun _ => {}) {}) w₁ w' ∧ (w'.servers false).service =
        (w₁.servers false).service.receive {} 1 (.block b) :=
      exists_delivery (i := true) hout hkept' hp rfl hlength' (str "leader") 0 rfl 1
    obtain ⟨w, hdelivery, hservice⟩ := hdelivered
    have hrun := hdelivery.head hown
    obtain ⟨φ, hsteps, hnodes, -⟩ := refines_fabric (begins_pair leader follower) hrun
    refine ⟨leader, follower, w, φ, hleader, hfollower, hrun, ?_, hsteps, hnodes⟩
    rw [HttpCluster.nodes, hservice]
    exact hstored
  | _ => cases hpushes

end HttpCluster

end Helix
