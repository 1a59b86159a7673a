import Helix.Library.Simulation
import Helix.Node.Server

/-!
# Runs of a server

What serving a request can change is summed up once (`Request.Effect`); the results are about runs, in
which the steps of any number of requests and those of the node's own tasks come in any order.

No message is lost, doubled or overtaken between the answer to its request and the worker, and the node
behind the server does nothing but what its own tasks and the authorised requests call for
(`Server.inbox_fifo`). Requests of clients without a token change nothing, and are not noticed by the
other clients (`Server.intruders_change_nothing`).
-/

namespace Helix

variable [Crypto] [Columns]

open Relation (ReflTransGen)
open JsonValue (elements)

/-! ### What a request changes -/

/-- The endpoint calls the method. -/
inductive Endpoint.Calls : Endpoint → Operation → Prop
  | mempool {payload : List (PyStr × JsonValue)} {records : List IntegrityRecord}
      (h : listOf payload "records" IntegrityRecord.fromDict = .ok records) :
      Calls (.mempool payload) (.receiveRecords records)
  | membership {payload : List (PyStr × JsonValue)} {changes : List ValidatorChange}
      (h : listOf payload "changes" ValidatorChange.fromDict = .ok changes) :
      Calls (.membership payload) (.receiveValidatorChanges changes)
  | pushBlock {payload : List (PyStr × JsonValue)} {block : Block}
      (h : Block.fromDict (.dict payload) = .ok block) :
      Calls (.pushBlock payload) (.ingestBlock block)

/-- The message that a request has put into the inbox, if that was its answer. -/
def Request.message (p : Request × Answer) : Option ConsensusMessage :=
  match p with
  | (⟨_, _, _, .consensus payload⟩, .ok _) => (ConsensusMessage.fromDict (.dict payload)).toOption
  | _ => none

/-- What serving a request does: nothing, or one of three changes after its token has been accepted. -/
inductive Request.Effect (cfg : ServerConfig) (r : Request) (s : Service) : Answer → Service → Prop
  | nothing {answer : Answer} (hmessage : Request.message (r, answer) = none)
      (htoken : r.endpoint.needsToken = true → answer.isOk = true →
        requireToken cfg r.authorization = .ok ()) : Effect cfg r s answer s
  | enqueue {m : ConsensusMessage} (htoken : requireToken cfg r.authorization = .ok ())
      (hroom : ¬s.Full cfg) (hmessage : Request.message (r, .ok (.status "accepted")) = some m) :
      Effect cfg r s (.ok (.status "accepted")) { s with inbox := s.inbox ++ [m] }
  | call {o : Operation} {answer : Answer} (htoken : requireToken cfg r.authorization = .ok ())
      (ho : r.endpoint.Calls o) (hmessage : Request.message (r, answer) = none) (passes : ℕ) :
      Effect cfg r s answer { s with node := o.run passes s.node }
  | merge {peers : List Peer} {answer : Answer} (htoken : requireToken cfg r.authorization = .ok ())
      (hmessage : Request.message (r, answer) = none) :
      Effect cfg r s answer { s with registry := (s.registry.merge peers).2 }

variable {cfg : ServerConfig} {r : Request} {s : Service} {passes : ℕ}

omit [Crypto] [Columns] in
@[simp] lemma Request.message_error (r : Request) (failure : Failure) :
    Request.message (r, .error failure) = none := by
  obtain ⟨_, _, _, _ | _⟩ := r <;> rfl

/-- Serving an endpoint that asks for no token is its body. -/
lemma Request.serve_of_open (h : r.endpoint.needsToken = false) :
    r.serve cfg passes s = r.endpoint.body cfg passes s := by
  unfold serve
  rw [h]
  rfl

lemma Request.serve_of_error {failure : Failure} (h : r.endpoint.needsToken = true)
    (htoken : requireToken cfg r.authorization = .error failure) :
    r.serve cfg passes s = (.error failure, s) := by
  unfold serve
  rw [h, if_pos rfl]
  exact Eff.bind_apply_error (by rw [htoken]; rfl)

lemma Request.serve_of_ok (h : r.endpoint.needsToken = true)
    (htoken : requireToken cfg r.authorization = .ok ()) :
    r.serve cfg passes s = r.endpoint.body cfg passes s := by
  unfold serve
  rw [h, if_pos rfl]
  exact Eff.bind_apply_ok (by rw [htoken]; rfl)

omit [Crypto] [Columns] in
/-- A payload that cannot be read leaves everything as it was. -/
lemma parsed_bind {α : Type} {catches : PyError → Bool} {what : String} {x : Except PyError α}
    {f : α → ServiceM Content} {P : Answer → Service → Prop} (herror : ∀ failure, P (.error failure) s)
    (hok : ∀ a, x = .ok a → P (f a s).1 (f a s).2) :
    P ((parsed catches what x >>= f) s).1 ((parsed catches what x >>= f) s).2 := by
  cases x with
  | error e => exact herror _
  | ok a => exact hok a rfl

/-- A method call on the node leaves the node behind that the method leaves. -/
lemma onNode_bind {o : Operation} {content : Content} :
    ((onNode o passes >>= fun _ => pure content : ServiceM Content) s).2 =
      { s with node := o.run passes s.node } := by
  have hrun : onNode o passes s =
      ((o.body passes s.node).1.mapError .raised, { s with node := o.run passes s.node }) := rfl
  cases hbody : (o.body passes s.node).1 with
  | error e =>
    rw [hbody] at hrun
    rw [Eff.bind_apply_error hrun]
  | ok u =>
    rw [hbody] at hrun
    rw [Eff.bind_apply_ok hrun]
    rfl

omit [Crypto] [Columns] in
lemma enqueueInbound_full (h : s.Full cfg) (m : ConsensusMessage) :
    enqueueInbound cfg m s = (.ok false, s) := by
  unfold enqueueInbound
  rw [Eff.bind_apply_ok (Eff.get_apply s), if_pos h]
  rfl

omit [Crypto] [Columns] in
lemma enqueueInbound_room (h : ¬s.Full cfg) (m : ConsensusMessage) :
    enqueueInbound cfg m s = (.ok true, { s with inbox := s.inbox ++ [m] }) := by
  unfold enqueueInbound
  rw [Eff.bind_apply_ok (Eff.get_apply s), if_neg h]
  rfl

/-- What the body of an endpoint that asks for a token changes, once the token has been accepted. -/
lemma Endpoint.body_effect (h : r.endpoint.needsToken = true)
    (htoken : requireToken cfg r.authorization = .ok ()) :
    r.Effect cfg s (r.endpoint.body cfg passes s).1 (r.endpoint.body cfg passes s).2 := by
  have hfailed : ∀ failure, r.Effect cfg s (.error failure) s := fun failure =>
    .nothing (Request.message_error r failure) fun _ _ => htoken
  obtain ⟨client, contentLength, authorization, endpoint⟩ := r
  cases endpoint with
  | consensus payload =>
    refine parsed_bind hfailed fun m hm => ?_
    by_cases hfull : s.Full cfg
    · rw [Eff.bind_apply_ok (enqueueInbound_full hfull m)]
      exact hfailed _
    · rw [Eff.bind_apply_ok (enqueueInbound_room hfull m)]
      refine .enqueue htoken hfull ?_
      change (ConsensusMessage.fromDict (.dict payload)).toOption = some m
      rw [hm]
      rfl
  | mempool payload =>
    refine parsed_bind hfailed fun records hrecords => ?_
    rw [onNode_bind]
    exact .call htoken (.mempool hrecords) rfl passes
  | membership payload =>
    refine parsed_bind hfailed fun changes hchanges => ?_
    rw [onNode_bind]
    exact .call htoken (.membership hchanges) rfl passes
  | pushBlock payload =>
    refine parsed_bind hfailed fun block hblock => ?_
    rw [onNode_bind]
    exact .call htoken (.pushBlock hblock) rfl passes
  | getPeers => exact .nothing rfl fun _ _ => htoken
  | postPeers payload =>
    refine parsed_bind hfailed fun peers hpeers => ?_
    exact .merge htoken rfl
  | getBlock => cases h
  | inclusionProof => cases h
  | chain => cases h
  | health => cases h

/-- What `get_block` answers. -/
lemma Endpoint.body_getBlock (index : ℤ) : (Endpoint.getBlock index).body cfg passes s =
    ((Repository.get s.node.repo index).mapError .raised >>= fun found =>
      found.elim (.error (.http 404 "block not found")) fun block => .ok (.block block.toDict), s) := by
  rw [Endpoint.body, Eff.bind_apply_ok (Eff.get_apply s)]
  rcases Repository.get s.node.repo index with error | _ | block <;> rfl

/-- The other endpoints change nothing. -/
lemma Endpoint.body_of_open (h : r.endpoint.needsToken = false) :
    (r.endpoint.body cfg passes s).2 = s := by
  obtain ⟨client, contentLength, authorization, endpoint⟩ := r
  cases endpoint with
  | getBlock index => rw [Endpoint.body_getBlock]
  | inclusionProof height index =>
    rw [Endpoint.body, Eff.bind_apply_ok (Eff.get_apply s)]
    rcases Repository.get s.node.repo height with error | _ | block
    · rfl
    · rfl
    · rw [uncaught, Except.mapError, Eff.lift_bind_ok rfl]
      dsimp only
      cases if 0 ≤ index then block.records[index.toNat]? else none with
      | none => rfl
      | some record =>
        dsimp only
        cases block.recordProof height index record <;> rfl
  | chain =>
    change ((uncaught s.node.chainStatus >>= fun c => pure (.chain c) : ServiceM Content) s).2 = s
    cases s.node.chainStatus <;> rfl
  | health => rfl
  | consensus => cases h
  | mempool => cases h
  | membership => cases h
  | pushBlock => cases h
  | getPeers => cases h
  | postPeers => cases h

/-- A message that is well formed and comes with a token is put into the inbox, if there is room. -/
lemma Request.serve_consensus {payload : List (PyStr × JsonValue)} {m : ConsensusMessage}
    (hendpoint : r.endpoint = .consensus payload)
    (htoken : requireToken cfg r.authorization = .ok ())
    (hm : ConsensusMessage.fromDict (.dict payload) = .ok m) (hroom : ¬s.Full cfg) (passes : ℕ) :
    r.serve cfg passes s = (.ok (.status "accepted"), { s with inbox := s.inbox ++ [m] }) := by
  rw [serve_of_ok (by rw [hendpoint]; rfl) htoken, hendpoint]
  change (parsed keyOrValue "message" (ConsensusMessage.fromDict (.dict payload)) >>= _ :
    ServiceM Content) s = _
  rw [hm]
  change (enqueueInbound cfg m >>= _ : ServiceM Content) s = _
  rw [Eff.bind_apply_ok (enqueueInbound_room hroom m)]
  rfl

/-- What serving a request changes. -/
lemma Request.serve_effect (cfg : ServerConfig) (passes : ℕ) (r : Request) (s : Service) :
    r.Effect cfg s (r.serve cfg passes s).1 (r.serve cfg passes s).2 := by
  cases hneeds : r.endpoint.needsToken with
  | false =>
    rw [serve_of_open hneeds, Endpoint.body_of_open hneeds]
    refine .nothing ?_ fun h => by rw [hneeds] at h; cases h
    obtain ⟨client, contentLength, authorization, endpoint⟩ := r
    cases endpoint <;> first | rfl | cases hneeds
  | true =>
    cases htoken : requireToken cfg r.authorization with
    | error failure =>
      rw [serve_of_error hneeds htoken]
      exact .nothing (message_error r failure) fun _ h => by cases h
    | ok u =>
      rw [serve_of_ok hneeds htoken]
      exact Endpoint.body_effect hneeds htoken

/-! ### The inbox -/

lemma Node.Runs.mono {ok ok' : Operation → Prop} (h : ∀ o, ok o → ok' o) {n n' : Node}
    (hrun : Node.Runs ok n n') : Node.Runs ok' n n' := by
  refine ReflTransGen.mono (fun n n' hstep => ?_) _ _ hrun
  cases hstep with
  | operation ho passes => exact .operation (h _ ho) passes
  | restart hinit => exact .restart hinit

namespace Server

/-- The messages of the requests that were told "accepted", in the order of their answers. -/
def accepted (s : Server) : List ConsensusMessage := s.answers.filterMap Request.message

/-- What the node behind the server has been called for: by its own tasks, by the worker, and by requests
with a token. -/
def Calls (cfg : ServerConfig) (s : Server) (o : Operation) : Prop :=
  o.Own ∨ (∃ m answers, o = .onMessage m answers ∧ m ∈ s.service.processed) ∨
    ∃ p ∈ s.answers, p.1.endpoint.Calls o ∧ requireToken cfg p.1.authorization = .ok ()

/-- What holds in a run that has started with the given node and an empty inbox. -/
structure Sound (cfg : ServerConfig) (n : Node) (s : Server) : Prop where
  fifo : s.accepted = s.service.processed ++ s.service.handling.toList ++ s.service.inbox
  room : 0 < cfg.maxInbox → s.service.inbox.length ≤ cfg.maxInbox
  node : Node.Runs (s.Calls cfg) n s.service.node
  token : ∀ p ∈ s.answers, p.1.endpoint.needsToken = true → p.2.isOk = true →
    requireToken cfg p.1.authorization = .ok ()

variable {cfg : ServerConfig} {fetched : ℤ → Except PyError (Option Block) → Prop} {n : Node}
  {s s' : Server}

omit [Crypto] [Columns] in
lemma accepted_concat (s : Server) (t : Service) (l : RateLimiter) (admitted : List Request)
    (p : Request × Answer) : accepted ⟨t, l, admitted, s.answers ++ [p]⟩ =
      s.accepted ++ (Request.message p).toList := by
  rw [accepted, List.filterMap_append, accepted]
  cases h : Request.message p <;> simp [h]

omit [Crypto] [Columns] in
/-- What the node was called for stays so. -/
lemma Calls.mono {o : Operation} (h : s.Calls cfg o)
    (hprocessed : s.service.processed ⊆ s'.service.processed) (hanswers : s.answers ⊆ s'.answers) :
    s'.Calls cfg o := by
  rcases h with hown | ⟨m, answers, rfl, hm⟩ | ⟨q, hq, hcalls⟩
  · exact Or.inl hown
  · exact Or.inr (Or.inl ⟨m, answers, rfl, hprocessed hm⟩)
  · exact Or.inr (Or.inr ⟨q, hanswers hq, hcalls⟩)

lemma Sound.arrive (h : s.Sound cfg n) (r : Request) (now : ℚ) : (s.arrive cfg r now).Sound cfg n := by
  unfold Server.arrive
  split
  · exact ⟨h.fifo, h.room, h.node, h.token⟩
  · rename_i failure limiter hguard
    refine ⟨?_, h.room, h.node.mono fun o ho => ho.mono (List.Subset.refl _)
      (List.subset_append_left _ _), fun p hp => ?_⟩
    · rw [accepted_concat, Request.message_error]
      simpa using h.fifo
    · rcases List.mem_append.mp hp with hp | hp
      · exact h.token p hp
      · rw [List.mem_singleton.mp hp]
        exact fun _ hok => by cases hok

/-- One request more has been answered. -/
lemma Sound.serve (h : s.Sound cfg n) {r : Request} {answer : Answer} {t : Service}
    (heffect : r.Effect cfg s.service answer t) (admitted : List Request) :
    Sound cfg n ⟨t, s.limiter, admitted, s.answers ++ [(r, answer)]⟩ := by
  have hcalls : ∀ {t : Service}, s.service.processed = t.processed → ∀ o, s.Calls cfg o →
      Server.Calls cfg ⟨t, s.limiter, admitted, s.answers ++ [(r, answer)]⟩ o := fun ht o ho =>
    ho.mono (ht ▸ List.Subset.refl _) (List.subset_append_left _ _)
  have htoken : ∀ q ∈ s.answers ++ [(r, answer)], q.1.endpoint.needsToken = true → q.2.isOk = true →
      requireToken cfg q.1.authorization = .ok () := by
    intro q hq hneeds hok
    rcases List.mem_append.mp hq with hq | hq
    · exact h.token q hq hneeds hok
    · rw [List.mem_singleton.mp hq] at hneeds hok ⊢
      cases heffect with
      | nothing hmessage htoken => exact htoken hneeds hok
      | enqueue htoken => exact htoken
      | call htoken => exact htoken
      | merge htoken => exact htoken
  cases heffect with
  | nothing hmessage =>
    refine ⟨?_, h.room, h.node.mono (hcalls rfl), htoken⟩
    rw [accepted_concat, hmessage]
    simpa using h.fifo
  | enqueue _ hroom hmessage =>
    refine ⟨?_, fun hmax => ?_, h.node.mono (hcalls rfl), htoken⟩
    · rw [accepted_concat, hmessage, h.fifo]
      simp
    · have hlt : s.service.inbox.length < cfg.maxInbox := not_le.mp fun hle => hroom ⟨hmax, hle⟩
      simpa using hlt
  | @call o _ hpass ho hmessage passes =>
    refine ⟨?_, h.room, (h.node.mono (hcalls rfl)).tail (.operation ?_ passes), htoken⟩
    · rw [accepted_concat, hmessage]
      simpa using h.fifo
    · exact Or.inr (Or.inr ⟨_, List.mem_append_right _ (List.mem_singleton_self _), ho, hpass⟩)
  | merge _ hmessage =>
    refine ⟨?_, h.room, h.node.mono (hcalls rfl), htoken⟩
    rw [accepted_concat, hmessage]
    simpa using h.fifo

lemma Sound.task (h : s.Sound cfg n) {t : Service} (htask : s.service.Task fetched t) :
    { s with service := t }.Sound cfg n := by
  cases htask with
  | operate ho passes =>
    exact ⟨h.fifo, h.room, h.node.tail (.operation (Or.inl ho) passes), h.token⟩
  | discover peers => exact ⟨h.fifo, h.room, h.node, h.token⟩
  | @take m rest hinbox hidle =>
    refine ⟨?_, fun hmax => ?_, h.node, h.token⟩
    · change s.accepted = _
      rw [h.fifo, hinbox, hidle]
      simp
    · have hle := h.room hmax
      rw [hinbox, List.length_cons] at hle
      exact Nat.le_of_succ_le hle
  | @work m hm answers _ passes =>
    have hcalls : ∀ o, s.Calls cfg o → Server.Calls cfg ⟨{ s.service with
        node := (Operation.onMessage m answers).run passes s.service.node
        handling := none
        processed := s.service.processed ++ [m] }, s.limiter, s.admitted, s.answers⟩ o := fun o ho =>
      ho.mono (List.subset_append_left _ _) (List.Subset.refl _)
    refine ⟨?_, h.room, (h.node.mono hcalls).tail (.operation ?_ passes), h.token⟩
    · change s.accepted = _
      rw [h.fifo, hm]
      simp
    · exact Or.inr (Or.inl ⟨m, answers, rfl, List.mem_append_right _ (List.mem_singleton_self _)⟩)

lemma Sound.step {ok : Request → Prop} (hstep : Server.Step cfg ok fetched s s') (h : s.Sound cfg n) :
    s'.Sound cfg n := by
  cases hstep with
  | arrive hr now => exact h.arrive _ now
  | @serve before after r hadmitted passes => exact h.serve (r.serve_effect cfg passes s.service) _
  | task htask => exact h.task htask

/-- In every run of a server, whatever requests with bodies of the declared types arrive and in whatever
order the steps of all of them and of the tasks come: the messages that were answered with "accepted" are
those that the worker has processed, then the one at hand, then those in the inbox, in the order of the
answers; the inbox keeps its bound; the node has made a run of the methods that its own tasks, the processed
messages and the requests with a token call for; and no request without a token was answered where one is
asked for. -/
theorem inbox_fifo {node : Node} {registry : PeerRegistry} {limiter : RateLimiter}
    (hrun : Server.Runs cfg (fun r => r.endpoint.Typed) fetched
      ⟨⟨node, registry, [], none, []⟩, limiter, [], []⟩ s) :
    s.accepted = s.service.processed ++ s.service.handling.toList ++ s.service.inbox ∧
      (0 < cfg.maxInbox → s.service.inbox.length ≤ cfg.maxInbox) ∧
      Node.Runs (s.Calls cfg) node s.service.node ∧
      ∀ p ∈ s.answers, p.1.endpoint.needsToken = true → p.2.isOk = true →
        requireToken cfg p.1.authorization = .ok () := by
  have h : s.Sound cfg node := by
    unfold Runs at hrun
    induction hrun with
    | refl => exact ⟨rfl, fun _ => Nat.zero_le _, .refl, fun p hp => absurd hp List.not_mem_nil⟩
    | tail _ hstep ih => exact ih.step hstep
  exact ⟨h.fifo, h.room, h.node, h.token⟩

omit [Crypto] [Columns] in
/-- While the token is being replaced, a message with the new one and with its height as a text is
accepted, and taken up by the worker. -/
theorem inbox_fifo_of_rotation :
    letI := Crypto.checksums
    letI := Columns.sqlite
    let cfg : ServerConfig := { clusterToken := str "old, new" }
    let m : ConsensusMessage := ⟨.PREPARE, 1, 0, [], [], [], none, none, none, [], []⟩
    ∃ node, Node.init (seedKey 0xbb) .single [] .null (fun i => i) = .ok node ∧
      ∃ s, Server.Runs cfg (fun r => r.endpoint.Typed) (fun _ _ => False)
          ⟨⟨node, ⟨[], none, .empty⟩, [], none, []⟩, .new 0 1, [], []⟩ s ∧ s.accepted = [m] ∧
        s.accepted = s.service.processed ++ s.service.handling.toList ++ s.service.inbox := by
  let := Crypto.checksums
  let := Columns.sqlite
  intro cfg m
  have hlength : (Node.init (seedKey 0xbb) .single [] .null fun i => i).map (·.repo.length) =
      .ok 1 := by decide +kernel
  obtain ⟨node, hinit, -⟩ := exists_of_map_eq_ok hlength
  let payload : List (PyStr × JsonValue) := [(str "type", .str (str "PREPARE")),
    (str "height", .str (str "1")), (str "round", .int 0), (str "block_hash", .str []),
    (str "sender", .str []), (str "signature", .str [])]
  let r : Request := ⟨str "peer", none, bearer (str "new"), .consensus payload⟩
  have htoken : requireToken cfg (bearer (str "new")) = .ok () := by decide +kernel
  have hm : ConsensusMessage.fromDict (.dict payload) = .ok m := by
    rw [ConsensusMessage.fromDict]
    rfl
  let s₀ : Server := ⟨⟨node, ⟨[], none, .empty⟩, [], none, []⟩, .new 0 1, [], []⟩
  have hroom : ¬s₀.service.Full cfg := fun h => absurd h.2 (show ¬10000 ≤ 0 by decide)
  have hserve := Request.serve_consensus (r := r) rfl htoken hm hroom 1
  have harrive : s₀.arrive cfg r 0 = ⟨s₀.service, .new 0 1, [r], []⟩ := rfl
  have htyped : r.endpoint.Typed := by
    change ConsensusMessage.fromDict (.dict payload) ≠ _
    rw [hm]
    intro herror
    cases herror
  have hserved : Server.Runs cfg (fun r => r.endpoint.Typed) (fun _ _ => False) s₀
      ⟨{ s₀.service with inbox := [m] }, .new 0 1, [], [(r, .ok (.status "accepted"))]⟩ := by
    refine .tail (.single (.arrive (r := r) htyped 0)) ?_
    rw [harrive]
    have hadmitted : (⟨s₀.service, .new 0 1, [r], []⟩ : Server).admitted = [] ++ r :: [] := rfl
    have hstep : Server.Step cfg (fun r => r.endpoint.Typed) (fun _ _ => False)
        ⟨s₀.service, .new 0 1, [r], []⟩ _ := .serve hadmitted 1
    rw [hserve] at hstep
    exact hstep
  have htake : Service.Task (fun _ _ => False) ⟨node, ⟨[], none, .empty⟩, [m], none, []⟩
      ⟨node, ⟨[], none, .empty⟩, [], some m, []⟩ := .take rfl rfl
  have hrun := hserved.tail (.task htake)
  refine ⟨node, hinit, _, hrun, ?_, (inbox_fifo hrun).1⟩
  change (ConsensusMessage.fromDict (.dict payload)).toOption.toList = [m]
  rw [hm]
  rfl

end Server

/-! ### Clients without a token -/

namespace Server

variable {cfg : ServerConfig} {I : PyStr → Bool} {fetched : ℤ → Except PyError (Option Block) → Prop}
  {s s' t : Server}

omit [Crypto] [Columns] in
/-- The guard changes the limiter as a call of `allow` for the client, or not at all. -/
lemma guard_inside (cfg : ServerConfig) {l l' : RateLimiter} (h : RateLimiter.Agrees I l l') {r : Request}
    (hr : I r.client = true) (now : ℚ) : RateLimiter.Agrees I (guard cfg r now l).2 l' := by
  unfold guard
  split_ifs
  · split
    · exact h
    · exact h
    · exact h.allow_inside hr now
  · exact h

omit [Crypto] [Columns] in
lemma guard_outside (cfg : ServerConfig) {l l' : RateLimiter} (h : RateLimiter.Agrees I l l') {r : Request}
    (hr : I r.client = false) (now : ℚ) : (guard cfg r now l').1 = (guard cfg r now l).1 ∧
      RateLimiter.Agrees I (guard cfg r now l).2 (guard cfg r now l').2 := by
  obtain ⟨hanswer, hagrees⟩ := h.allow_outside hr now
  unfold guard
  split_ifs
  · split
    · exact ⟨rfl, h⟩
    · exact ⟨rfl, h⟩
    · exact ⟨by simp only [hanswer], hagrees⟩
  · exact ⟨rfl, h⟩

/-- The second server is the first without the requests of the clients in `I`, none of which has a
token. -/
structure Hides (cfg : ServerConfig) (I : PyStr → Bool) (s s' : Server) : Prop where
  service : s'.service = s.service
  limiter : RateLimiter.Agrees I s.limiter s'.limiter
  admitted : s'.admitted = s.admitted.filter fun r => !I r.client
  answers : s'.answers = s.answers.filter fun p => !I p.1.client
  intruders : ∀ r ∈ s.admitted, I r.client = true → requireToken cfg r.authorization ≠ .ok ()

/-- The requests that arrive, of which those of the clients in `I` have no token. -/
def Tokenless (cfg : ServerConfig) (I : PyStr → Bool) (r : Request) : Prop :=
  I r.client = true → requireToken cfg r.authorization ≠ .ok ()

omit [Crypto] [Columns] in
/-- A request of a client in `I` changes nothing behind the guard. -/
lemma Hides.arrive_inside (h : Hides cfg I s s') {r : Request} (hr : I r.client = true)
    (htoken : Tokenless cfg I r) (now : ℚ) : Hides cfg I (s.arrive cfg r now) s' := by
  have hlimiter := guard_inside cfg h.limiter hr now
  unfold Server.arrive
  split
  · rename_i limiter hguard
    rw [hguard] at hlimiter
    refine ⟨h.service, hlimiter, ?_, h.answers, fun q hq hI => ?_⟩
    · rw [List.filter_append, h.admitted]
      simp [hr]
    · rcases List.mem_append.mp hq with hq | hq
      · exact h.intruders q hq hI
      · rw [List.mem_singleton.mp hq]
        exact htoken hr
  · rename_i failure limiter hguard
    rw [hguard] at hlimiter
    refine ⟨h.service, hlimiter, h.admitted, ?_, h.intruders⟩
    rw [List.filter_append, h.answers]
    simp [hr]

omit [Crypto] [Columns] in
/-- The guard treats a request of another client as it would without the clients in `I`. -/
lemma Hides.arrive_outside (h : Hides cfg I s s') {r : Request} (hr : I r.client = false) (now : ℚ) :
    Hides cfg I (s.arrive cfg r now) (s'.arrive cfg r now) := by
  obtain ⟨hanswer, hlimiter⟩ := guard_outside cfg h.limiter hr now
  unfold Server.arrive
  rcases hguard : guard cfg r now s.limiter with ⟨_ | _, l⟩ <;>
    rcases hguard' : guard cfg r now s'.limiter with ⟨_ | _, l'⟩ <;>
    rw [hguard, hguard'] at hanswer hlimiter <;> try cases hanswer
  · refine ⟨h.service, hlimiter, h.admitted, ?_, h.intruders⟩
    rw [List.filter_append, h.answers]
    simp [hr]
  · refine ⟨h.service, hlimiter, ?_, h.answers, fun q hq hI => ?_⟩
    · rw [List.filter_append, h.admitted]
      simp [hr]
    · rcases List.mem_append.mp hq with hq | hq
      · exact h.intruders q hq hI
      · rw [List.mem_singleton.mp hq, hr] at hI
        cases hI

/-- Serving a request without a token changes nothing. -/
lemma serve_inside {r : Request} (htoken : requireToken cfg r.authorization ≠ .ok ()) (passes : ℕ)
    (t : Service) : (r.serve cfg passes t).2 = t := by
  have heffect := r.serve_effect cfg passes t
  generalize (r.serve cfg passes t).1 = answer at heffect
  generalize (r.serve cfg passes t).2 = t' at heffect ⊢
  cases heffect with
  | nothing => rfl
  | enqueue hpass => exact absurd hpass htoken
  | call hpass => exact absurd hpass htoken
  | merge hpass => exact absurd hpass htoken

/-- A step of the first server is a step of the second, or none. -/
lemma Hides.simulation : Simulation (Server.Step cfg (Tokenless cfg I) fetched)
    (Server.Step cfg (fun r => I r.client = false) fetched) (Hides cfg I) := by
  intro s t s' h hstep
  cases hstep with
  | @arrive r hr now =>
    cases hI : I r.client with
    | true => exact ⟨s', .refl, h.arrive_inside hI hr now⟩
    | false => exact ⟨_, .single (.arrive hI now), h.arrive_outside hI now⟩
  | @serve before after r hadmitted passes =>
    have hintruders : ∀ q ∈ before ++ after, I q.client = true →
        requireToken cfg q.authorization ≠ .ok () := by
      refine fun q hq => h.intruders q ?_
      rw [hadmitted]
      exact List.mem_append.mpr ((List.mem_append.mp hq).imp_right (List.mem_cons_of_mem _))
    have hadmitted' := h.admitted
    rw [hadmitted, List.filter_append, List.filter_cons] at hadmitted'
    cases hI : I r.client with
    | true =>
      have htoken := h.intruders r (by rw [hadmitted]; simp) hI
      refine ⟨s', .refl, ?_, h.limiter, ?_, ?_, hintruders⟩
      · rw [serve_inside htoken]
        exact h.service
      · rw [List.filter_append]
        simpa [hI] using hadmitted'
      · rw [List.filter_append, h.answers]
        simp [hI]
    | false =>
      rw [hI] at hadmitted'
      refine ⟨_, .single (.serve hadmitted' passes), ?_, h.limiter, ?_, ?_, hintruders⟩
      · rw [h.service]
      · rw [List.filter_append]
      · rw [List.filter_append, h.answers, h.service]
        simp [hI]
  | @task u htask =>
    rw [← h.service] at htask
    exact ⟨_, .single (.task htask), rfl, h.limiter, h.admitted, h.answers, h.intruders⟩

/-- In every run of a server in which the clients in `I` have no token: leaving their requests out gives
a run that ends with the same node, registry and inbox, and with the same answers to all the other
clients. -/
theorem intruders_change_nothing {service : Service} {limiter : RateLimiter}
    (hrun : Server.Runs cfg (Tokenless cfg I) fetched ⟨service, limiter, [], []⟩ s) :
    ∃ s', Server.Runs cfg (fun r => I r.client = false) fetched ⟨service, limiter, [], []⟩ s' ∧
      s'.service = s.service ∧ s'.answers = s.answers.filter fun p => !I p.1.client := by
  have hstart : Hides cfg I ⟨service, limiter, [], []⟩ ⟨service, limiter, [], []⟩ :=
    ⟨rfl, ⟨rfl, rfl, fun _ _ => rfl⟩, rfl, rfl, fun r hr => absurd hr List.not_mem_nil⟩
  obtain ⟨s', hrun', h⟩ := Hides.simulation.run hstart hrun
  exact ⟨s', hrun', h.service, h.answers⟩

omit [Crypto] [Columns] in
/-- A client without the token posts records, and is answered with status 401. -/
theorem intruders_change_nothing_of_mempool :
    letI := Crypto.checksums
    letI := Columns.sqlite
    let cfg : ServerConfig := { clusterToken := str "secret" }
    let I : PyStr → Bool := fun client => decide (client = str "mallory")
    ∃ node, Node.init (seedKey 0xbb) .single [] .null (fun i => i) = .ok node ∧
      let s₀ : Server := ⟨⟨node, ⟨[], none, .empty⟩, [], none, []⟩, .new 0 1, [], []⟩
      ∃ s : Server, s.answers.map (fun p => Answer.code p.2) = [401] ∧
        ∃ s', Server.Runs cfg (fun r => I r.client = false) (fun _ _ => False) s₀ s' ∧
          s'.service = s.service ∧ s'.answers = [] := by
  let := Crypto.checksums
  let := Columns.sqlite
  intro cfg I
  have hlength : (Node.init (seedKey 0xbb) .single [] .null fun i => i).map (·.repo.length) =
      .ok 1 := by decide +kernel
  obtain ⟨node, hinit, -⟩ := exists_of_map_eq_ok hlength
  refine ⟨node, hinit, ?_⟩
  intro s₀
  let r : Request := ⟨str "mallory", none, [], .mempool []⟩
  have htoken : requireToken cfg [] = .error (.http 401 "invalid or missing token") := by
    decide +kernel
  have hserve : r.serve cfg 1 s₀.service = (.error (.http 401 "invalid or missing token"), s₀.service) :=
    Request.serve_of_error rfl htoken
  have harrive : Server.Step cfg (Tokenless cfg I) (fun _ _ => False) s₀ ⟨s₀.service, .new 0 1, [r], []⟩ := by
    refine .arrive (r := r) (fun _ hok => ?_) 0
    rw [htoken] at hok
    cases hok
  have hserved : Server.Step cfg (Tokenless cfg I) (fun _ _ => False) ⟨s₀.service, .new 0 1, [r], []⟩
      ⟨s₀.service, .new 0 1, [], [(r, .error (.http 401 "invalid or missing token"))]⟩ := by
    have hadmitted : (⟨s₀.service, .new 0 1, [r], []⟩ : Server).admitted = [] ++ r :: [] := rfl
    have hstep : Server.Step cfg (Tokenless cfg I) (fun _ _ => False) ⟨s₀.service, .new 0 1, [r], []⟩ _ :=
      .serve hadmitted 1
    rw [hserve] at hstep
    exact hstep
  obtain ⟨s', hrun, hservice, hanswers⟩ :=
    intruders_change_nothing ((ReflTransGen.single harrive).tail hserved)
  exact ⟨_, rfl, s', hrun, hservice, hanswers⟩

end Server

end Helix
