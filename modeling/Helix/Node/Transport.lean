import Helix.Node.Requests

/-!
# The HTTP transport

What a node hands out (a message, records, membership changes or a block) is written as a JSON text and
posted to every peer, with the first token of the setting. The peer reads from the text exactly what was
handed out. So a POST has the effect of handing over the value, if its text is not too long, the limiter of
the peer lets it pass and the peer accepts the token, and no effect otherwise (`Post.delivers`).

Blocks that a node misses are fetched from its peers, the first that has an answer.
-/

namespace Helix

variable [Crypto] [Columns]

open JsonValue (ofDict elements)

/-! ### What is posted -/

namespace HttpTransport

/-- `primary`: the first token. -/
def primary (clusterToken : PyStr) : PyStr := (tokens clusterToken).headD []

/-- The `Authorization` that goes with every request. -/
def authorization (clusterToken : PyStr) : PyStr :=
  if primary clusterToken = [] then [] else bearer (primary clusterToken)

end HttpTransport

/-- A POST on its way; `length` is that of the encoded text. -/
structure Post where
  path : PyStr
  authorization : PyStr
  text : PyStr
  length : ℕ

namespace Outgoing

/-- The path and the payload that an item is posted with; the commit hook is called in the process. -/
def call : Outgoing → Option (PyStr × JsonValue)
  | message m => some (str "/consensus", m.toDict)
  | records rs => some (str "/mempool", .dict [(str "records", .list (rs.map fun r => ofDict r.toDict))])
  | changes cs => some (str "/membership", .dict [(str "changes", .list (cs.map fun c => ofDict c.toDict))])
  | block b => some (str "/block", b.toDict)
  | committed _ => none

/-- The POST for an item. A text that cannot be encoded is not posted: the method raises there. -/
def post (σ : JsonStyle) (clusterToken : PyStr) (out : Outgoing) : Option Post := do
  let (path, payload) ← out.call
  let text := payload.dumps σ
  let bytes ← (encode text).toOption
  return ⟨path, HttpTransport.authorization clusterToken, text, bytes.length⟩

/-- The strings of an item. -/
def texts : Outgoing → List PyStr
  | message m => m.texts
  | records rs => rs.flatMap IntegrityRecord.texts
  | changes cs => cs.map ValidatorChange.validator
  | block b => b.texts
  | committed _ => []

end Outgoing

/-! ### What is read -/

/-- The endpoint for a path and a body. -/
def Endpoint.ofPost (path : PyStr) : JsonValue → Option Endpoint
  | .dict payload =>
    if path = str "/consensus" then some (.consensus payload)
    else if path = str "/mempool" then some (.mempool payload)
    else if path = str "/membership" then some (.membership payload)
    else if path = str "/block" then some (.pushBlock payload)
    else if path = str "/peers" then some (.postPeers payload)
    else none
  | _ => none

/-- The request that a POST of the client makes, if it is one for an endpoint. -/
def Post.request (client : PyStr) (p : Post) : Option Request := do
  let body ← (decodeJson p.text).toOption
  let endpoint ← Endpoint.ofPost p.path body
  return ⟨client, some (intRepr p.length), p.authorization, endpoint⟩

/-- The endpoint reads the item from its payload. -/
inductive Endpoint.Reads : Endpoint → Outgoing → Prop
  | message {payload : List (PyStr × JsonValue)} {m : ConsensusMessage}
      (h : ConsensusMessage.fromDict (.dict payload) = .ok m) : Reads (.consensus payload) (.message m)
  | records {payload : List (PyStr × JsonValue)} {rs : List IntegrityRecord}
      (h : listOf payload "records" IntegrityRecord.fromDict = .ok rs) :
      Reads (.mempool payload) (.records rs)
  | changes {payload : List (PyStr × JsonValue)} {cs : List ValidatorChange}
      (h : listOf payload "changes" ValidatorChange.fromDict = .ok cs) :
      Reads (.membership payload) (.changes cs)
  | block {payload : List (PyStr × JsonValue)} {b : Block} (h : Block.fromDict (.dict payload) = .ok b) :
      Reads (.pushBlock payload) (.block b)

/-- What a node that is handed an item makes of it. -/
def Service.receive (cfg : ServerConfig) (passes : ℕ) (s : Service) : Outgoing → Service
  | .message m => if s.Full cfg then s else { s with inbox := s.inbox ++ [m] }
  | .records rs => { s with node := (Operation.receiveRecords rs).run passes s.node }
  | .changes cs => { s with node := (Operation.receiveValidatorChanges cs).run passes s.node }
  | .block b => { s with node := (Operation.ingestBlock b).run passes s.node }
  | .committed _ => s

namespace Outgoing

variable {σ : JsonStyle} {out : Outgoing} {path : PyStr} {payload : JsonValue}

omit [Crypto] [Columns] in
lemma plain_list {α : Type} {f : α → JsonValue} {l : List α} (h : ∀ a ∈ l, JsonValue.Plain σ (f a))
    (key : String) : JsonValue.Plain σ (.dict [(str key, .list (l.map f))]) := by
  refine .dict (by simp) ?_ ?_
  · simp only [List.forall_mem_singleton, JsonStyle.keeps_str]
  · simp only [List.forall_mem_singleton]
    refine .list fun v hv => ?_
    obtain ⟨a, ha, rfl⟩ := List.mem_map.mp hv
    exact h a ha

omit [Crypto] [Columns] in
lemma plain_call (hcall : out.call = some (path, payload)) (hkept : ∀ s ∈ out.texts, σ.Keeps s) :
    JsonValue.Plain σ payload := by
  cases out with
  | message m =>
    cases hcall
    exact m.plain_toDict hkept
  | records rs =>
    cases hcall
    refine plain_list (fun r hr => IntegrityRecord.plain_toDict fun s hs => hkept s ?_) "records"
    exact List.mem_flatMap.mpr ⟨r, hr, hs⟩
  | changes cs =>
    cases hcall
    exact plain_list (fun c hc => ValidatorChange.plain_toDict (hkept _ (List.mem_map_of_mem hc))) "changes"
  | block b =>
    cases hcall
    exact Block.plain_toDict hkept
  | committed b => cases hcall

omit [Crypto] [Columns] in
lemma listOf_map {α : Type} {f : α → JsonValue} {g : JsonValue → Except PyError α} {key : String}
    (hinv : ∀ a, g (f a) = .ok a) (l : List α) : listOf [(str key, .list (l.map f))] key g = .ok l := by
  have hitem : (JsonValue.dict [(str key, .list (l.map f))]).getItem key = .ok (.list (l.map f)) := by
    simp [JsonValue.getItem, JsonValue.lookup]
  rw [listOf, hitem]
  exact mapM_map_of_inverse fun a _ => hinv a

omit [Crypto] [Columns] in
/-- The endpoint of the path reads the item from its own payload. -/
lemma exists_endpoint (hcall : out.call = some (path, payload)) :
    ∃ e, Endpoint.ofPost path payload = some e ∧ e.Reads out := by
  cases out with
  | message m =>
    cases hcall
    obtain ⟨items, hitems⟩ : ∃ items, m.toDict = .dict items := by
      cases m
      exact ⟨_, rfl⟩
    have hread := m.fromDict_toDict
    rw [hitems] at hread
    rw [hitems]
    exact ⟨_, rfl, .message hread⟩
  | records rs =>
    cases hcall
    exact ⟨_, rfl, .records (listOf_map IntegrityRecord.fromDict_toDict rs)⟩
  | changes cs =>
    cases hcall
    exact ⟨_, rfl, .changes (listOf_map ValidatorChange.fromDict_toDict cs)⟩
  | block b =>
    cases hcall
    exact ⟨_, rfl, .block b.fromDict_toDict⟩
  | committed b => cases hcall

omit [Crypto] [Columns] in
/-- A peer reads from a POST the item that it was made for. -/
lemma exists_request {clusterToken : PyStr} {p : Post} (hp : out.post σ clusterToken = some p)
    (hkept : ∀ s ∈ out.texts, σ.Keeps s) (client : PyStr) : ∃ e, e.Reads out ∧ p.request client =
      some ⟨client, some (intRepr p.length), HttpTransport.authorization clusterToken, e⟩ := by
  simp only [post, bind, Option.bind_eq_some_iff, Prod.exists, pure, Option.some.injEq] at hp
  obtain ⟨path, payload, hcall, bytes, -, rfl⟩ := hp
  obtain ⟨e, he, hreads⟩ := exists_endpoint hcall
  refine ⟨e, hreads, ?_⟩
  simp only [Post.request, decodeJson_dumps (plain_call hcall hkept), Except.toOption, bind,
    Option.bind_some, he]
  rfl

end Outgoing

/-! ### What it does -/

namespace Endpoint.Reads

variable {e : Endpoint} {out : Outgoing} {cfg : ServerConfig} {r : Request} {s : Service}

omit [Crypto] [Columns] in
/-- The endpoint asks for a token, and is behind the guard. -/
lemma needsToken (h : e.Reads out) : e.needsToken = true := by cases h <;> rfl

omit [Crypto] [Columns] in
lemma guarded (h : e.Reads out) : e.guarded = true := by cases h <;> rfl

/-- With a token that is accepted, the item is handed over. -/
lemma serve (h : r.endpoint.Reads out) (htoken : requireToken cfg r.authorization = .ok ())
    (passes : ℕ) : (r.serve cfg passes s).2 = s.receive cfg passes out := by
  rw [Request.serve_of_ok h.needsToken htoken]
  obtain ⟨client, contentLength, authorization, endpoint⟩ := r
  cases h with
  | @message payload m hm =>
    change ((parsed keyOrValue "message" (ConsensusMessage.fromDict (.dict payload)) >>= _ :
      ServiceM Content) s).2 = _
    rw [hm]
    change ((enqueueInbound cfg m >>= _ : ServiceM Content) s).2 = _
    by_cases hfull : s.Full cfg
    · rw [Eff.bind_apply_ok (enqueueInbound_full hfull m), Service.receive, if_pos hfull]
      rfl
    · rw [Eff.bind_apply_ok (enqueueInbound_room hfull m), Service.receive, if_neg hfull]
      rfl
  | @records payload rs hrs =>
    change ((parsed keyValueOrType "records" (listOf payload "records" IntegrityRecord.fromDict) >>= _ :
      ServiceM Content) s).2 = _
    rw [hrs]
    exact onNode_bind
  | @changes payload cs hcs =>
    change ((parsed keyValueOrType "changes" (listOf payload "changes" ValidatorChange.fromDict) >>= _ :
      ServiceM Content) s).2 = _
    rw [hcs]
    exact onNode_bind
  | @block payload b hb =>
    change ((parsed keyValueOrType "block" (Block.fromDict (.dict payload)) >>= _ :
      ServiceM Content) s).2 = _
    rw [hb]
    exact onNode_bind

end Endpoint.Reads

/-! ### Tokens -/

/-- Only such texts can be compared. -/
def Ascii (s : PyStr) : Prop := ∀ c ∈ s, c.val < 128

instance (s : PyStr) : Decidable (Ascii s) := List.decidableBAll _ s

section Tokens

variable {clusterToken t : PyStr} {cfg : ServerConfig}

omit [Crypto] [Columns] in
lemma Ascii.of_mem_tokens (h : Ascii clusterToken) (ht : t ∈ tokens clusterToken) : Ascii t := by
  intro c hc
  obtain ⟨piece, hpiece, rfl⟩ := List.mem_map.mp (List.mem_filter.mp ht).1
  have hjoin : [.ofNat 0x2C].intercalate (clusterToken.splitOn (.ofNat 0x2C)) = clusterToken :=
    List.intercalate_splitOn _
  refine h c ?_
  rw [← hjoin]
  exact Json.mem_intercalate_of_mem hpiece (mem_of_mem_stripBy hc)

omit [Crypto] [Columns] in
lemma ne_nil_of_mem_tokens (ht : t ∈ tokens clusterToken) : t ≠ [] := by
  simpa using (List.mem_filter.mp ht).2

omit [Crypto] [Columns] in
lemma Ascii.bearer (h : Ascii t) : Ascii (bearer t) := by
  intro c hc
  rcases List.mem_append.mp hc with hc | hc
  · have hscheme : Ascii (str "Bearer ") := by decide +kernel
    exact hscheme c hc
  · exact h c hc

omit [Crypto] [Columns] in
lemma compareDigest_of_ascii {a b : PyStr} (ha : Ascii a) (hb : Ascii b) :
    compareDigest a b = .ok (decide (a = b)) := by
  refine if_pos (List.all_eq_true.mpr fun c hc => decide_eq_true ?_)
  exact (List.mem_append.mp hc).elim (ha c) (hb c)

omit [Crypto] [Columns] in
/-- Comparing with each token finds out whether one of them is meant. -/
lemma anyToken_of_ascii {authorization : PyStr} (hauth : Ascii authorization) {ts : List PyStr}
    (hts : ∀ t ∈ ts, Ascii t) :
    anyToken authorization ts = .ok (decide (∃ t ∈ ts, authorization = bearer t)) := by
  induction ts with
  | nil => simp [anyToken]
  | cons t ts ih =>
    rw [List.forall_mem_cons] at hts
    rw [anyToken, compareDigest_of_ascii hauth hts.1.bearer]
    change (if decide (authorization = Helix.bearer t) = true then Except.ok true
      else anyToken authorization ts) = _
    rw [ih hts.2]
    split_ifs with h
    · simp [of_decide_eq_true h]
    · have hne : authorization ≠ Helix.bearer t := fun heq => h (decide_eq_true heq)
      simp [hne]

namespace HttpTransport

omit [Crypto] [Columns] in
lemma primary_mem (h : primary clusterToken ≠ []) : primary clusterToken ∈ tokens clusterToken := by
  unfold primary at h ⊢
  cases htokens : tokens clusterToken with
  | nil => rw [htokens] at h; exact absurd rfl h
  | cons t ts => exact List.mem_cons_self

/-- The receiver accepts what the sender authorizes itself with: it asks for no token, or the first one of
the sender is among its own. -/
def Admits (cfg : ServerConfig) (clusterToken : PyStr) : Prop :=
  cfg.accepted = [] ∨ primary clusterToken ∈ cfg.accepted

instance (cfg : ServerConfig) (clusterToken : PyStr) : Decidable (Admits cfg clusterToken) :=
  inferInstanceAs (Decidable (_ ∨ _))

omit [Crypto] [Columns] in
lemma ascii_authorization (h : Ascii clusterToken) : Ascii (authorization clusterToken) := by
  unfold authorization
  split_ifs with hprimary
  · exact fun c hc => absurd hc List.not_mem_nil
  · exact (h.of_mem_tokens (primary_mem hprimary)).bearer

omit [Crypto] [Columns] in
lemma authorization_eq_bearer (ht : t ≠ []) :
    authorization clusterToken = bearer t ↔ primary clusterToken = t := by
  unfold authorization
  split_ifs with hprimary
  · rw [hprimary]
    exact iff_of_false (by simp [bearer, str]) (Ne.symm ht)
  · exact List.append_cancel_left_eq _ _ _ |>.to_iff

omit [Crypto] [Columns] in
/-- The token check, for what the transport sends. -/
lemma requireToken_authorization (h : Ascii clusterToken) (hcfg : Ascii cfg.clusterToken) :
    requireToken cfg (authorization clusterToken) =
      if Admits cfg clusterToken then .ok () else .error (.http 401 "invalid or missing token") := by
  unfold requireToken
  by_cases hnone : cfg.accepted = []
  · have hadmits : Admits cfg clusterToken := Or.inl hnone
    rw [if_pos hnone, if_pos hadmits]
  · have hascii : ∀ t ∈ cfg.accepted, Ascii t := fun t ht => hcfg.of_mem_tokens ht
    rw [if_neg hnone, anyToken_of_ascii (ascii_authorization h) hascii]
    have hiff : (∃ t ∈ cfg.accepted, authorization clusterToken = bearer t) ↔
        Admits cfg clusterToken := by
      rw [Admits, or_iff_right hnone]
      constructor
      · rintro ⟨t, ht, heq⟩
        rwa [(authorization_eq_bearer (ne_nil_of_mem_tokens ht)).mp heq]
      · exact fun hmem => ⟨_, hmem, (authorization_eq_bearer (ne_nil_of_mem_tokens hmem)).mpr rfl⟩
    by_cases hadmits : Admits cfg clusterToken
    · rw [if_pos hadmits, decide_eq_true (hiff.mpr hadmits)]
    · rw [if_neg hadmits, decide_eq_false (hiff.not.mpr hadmits)]

end HttpTransport

end Tokens

omit [Crypto] [Columns] in
/-- The guard lets a request pass that declares its length, if it is not too long and the limiter does. -/
lemma guard_eq_ok {cfg : ServerConfig} {r : Request} {length : ℕ} (hguarded : r.endpoint.guarded = true)
    (hlength : r.contentLength = some (intRepr length)) {now : ℚ} {limiter : RateLimiter} :
    (guard cfg r now limiter).1 = .ok () ↔
      (length : ℤ) ≤ cfg.maxBodyBytes ∧ (limiter.allow r.client now).1 = true := by
  have htoo : r.tooLarge cfg = .ok (decide (cfg.maxBodyBytes < length)) := by
    rw [Request.tooLarge, hlength]
    simp only [parseInt_intRepr]
    rfl
  rw [guard, if_pos hguarded, htoo]
  by_cases hlt : cfg.maxBodyBytes < length
  · rw [decide_eq_true hlt]
    exact iff_of_false nofun fun h => absurd h.1 (not_le.mpr hlt)
  · rw [decide_eq_false hlt, ← not_lt, and_iff_right hlt]
    cases hallow : (limiter.allow r.client now).1 <;> simp [hallow]

/-! ### Delivery -/

namespace Outgoing

open HttpTransport (Admits)

/-- A POST that a node makes of what it hands out arrives as a request of the client. It passes the guard
if it is not too long and the limiter lets the client pass. Serving it has the effect of handing over the
value if the receiver accepts the first token of the sender, and otherwise it is answered with status 401
and changes nothing. -/
theorem post_delivers {σ : JsonStyle} {clusterToken : PyStr} {out : Outgoing} {p : Post}
    (hp : out.post σ clusterToken = some p) (hkept : ∀ s ∈ out.texts, σ.Keeps s) {cfg : ServerConfig}
    (htoken : Ascii clusterToken) (hcfg : Ascii cfg.clusterToken) (client : PyStr) :
    ∃ r, p.request client = some r ∧
      (∀ now limiter, (guard cfg r now limiter).1 = .ok () ↔
        (p.length : ℤ) ≤ cfg.maxBodyBytes ∧ (limiter.allow client now).1 = true) ∧
      ∀ passes s, if Admits cfg clusterToken then (r.serve cfg passes s).2 = s.receive cfg passes out
        else r.serve cfg passes s = (.error (.http 401 "invalid or missing token"), s) := by
  obtain ⟨e, hreads, hrequest⟩ := exists_request hp hkept client
  refine ⟨_, hrequest, fun now limiter => guard_eq_ok hreads.guarded rfl, fun passes s => ?_⟩
  have hcheck := HttpTransport.requireToken_authorization htoken hcfg
  split_ifs with hadmits
  · rw [if_pos hadmits] at hcheck
    exact Endpoint.Reads.serve hreads hcheck passes
  · rw [if_neg hadmits] at hcheck
    exact Request.serve_of_error hreads.needsToken hcheck

omit [Crypto] [Columns] in
/-- While the token is being replaced, a message of a node that has the new one first is taken in by a
node that has the old one first. -/
theorem post_delivers_of_rotation :
    letI := Crypto.checksums
    letI := Columns.sqlite
    let m : ConsensusMessage := ⟨.PREPARE, 1, 0, str "00", str "0a", [], none, none, none, [], []⟩
    let cfg : ServerConfig := { clusterToken := str "old, new" }
    ∃ p r, (message m).post {} (str "new,old") = some p ∧ p.request (str "peer") = some r ∧
      ∀ passes s, ¬s.Full cfg → (r.serve cfg passes s).2 = { s with inbox := s.inbox ++ [m] } := by
  let := Crypto.checksums
  let := Columns.sqlite
  intro m cfg
  have hsome : ((message m).post {} (str "new,old")).isSome = true := by decide +kernel
  obtain ⟨p, hp⟩ := Option.isSome_iff_exists.mp hsome
  have hkept : ∀ s ∈ (message m).texts, JsonStyle.Keeps {} s := by decide +kernel
  have htoken : Ascii (str "new,old") := by decide +kernel
  have hcfg : Ascii cfg.clusterToken := by decide +kernel
  have hadmits : Admits cfg (str "new,old") := by decide +kernel
  obtain ⟨r, hr, -, hserve⟩ := post_delivers hp hkept htoken hcfg (str "peer")
  refine ⟨p, r, hp, hr, fun passes s hroom => ?_⟩
  have heffect := hserve passes s
  rw [if_pos hadmits] at heffect
  rw [heffect, Service.receive, if_neg hroom]

end Outgoing

end Helix
