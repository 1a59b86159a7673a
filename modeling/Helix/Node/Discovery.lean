import Helix.Library.Cut
import Helix.Node.Bootstrap

/-!
# Peer discovery

Peers are exchanged as texts `id@host:port|key`. Parsing splits at the first `@`, the first `|` after it
and the last `:` between them, and strips the parts; so no separator is left in a part where printing it
would move a split, and what was parsed once is read back from its text (`Peer.parse_spec`).

A registry has one address for each key. Registries are exchanged as a whole, without versions, so the
address that a registry has for a key is the one that was merged into it last (`Gossip.last_merged_wins`).
-/

namespace Helix

namespace Peer

/-! ### The text of a peer -/

/-- `Peer.parse`, up to the error. -/
def parse? (spec : PyStr) : Option Peer := do
  let (ident, rest) ← splitOnce (.ofNat 0x40) spec
  let (hostport, pubkeyHex) ← splitOnce (.ofNat 0x7C) rest
  let (host, port) ← rsplitOnce (.ofNat 0x3A) hostport
  let port ← (parseInt port).toOption
  let publicKey ← (PublicKey.fromHex (strip pubkeyHex)).toOption
  return { nodeId := strip ident, host := strip host, port, publicKey }

/-- `Peer.parse`. The message of the error also shows the text. -/
def parse (spec : PyStr) : Except PyError Peer :=
  match parse? spec with
  | some p => .ok p
  | none => .error (.valueError "invalid peer spec; expected 'id@host:port|pubkey_hex'")

/-- `PeerRegistry._spec`. -/
def spec (p : Peer) : PyStr :=
  p.nodeId ++ str "@" ++ p.host ++ str ":" ++ intRepr p.port ++ str "|" ++ p.publicKey.toHex

/-- The key of a peer in a registry. -/
def key (p : Peer) : PyStr := p.publicKey.toHex

/-- What a parsed peer consists of: no part is stripped further, and none contains a separator that a
split of its text looks for. -/
structure Clean (p : Peer) : Prop where
  nodeId : strip p.nodeId = p.nodeId
  host : strip p.host = p.host
  noAt : (.ofNat 0x40 : CodePoint) ∉ p.nodeId
  noBar : (.ofNat 0x7C : CodePoint) ∉ p.host

lemma parse_eq_ok {s : PyStr} {p : Peer} : parse s = .ok p ↔ parse? s = some p := by
  unfold parse
  cases parse? s <;> simp

lemma clean_of_parse {s : PyStr} {p : Peer} (h : parse s = .ok p) : p.Clean := by
  rw [parse_eq_ok] at h
  simp only [parse?, bind, Option.bind_eq_some_iff, Prod.exists, pure, Option.some.injEq] at h
  obtain ⟨ident, rest, hat, hostport, pubkeyHex, hbar, host, port, hcolon, n, -, k, -, rfl⟩ := h
  obtain ⟨-, hnoAt⟩ := splitOnce_eq_some.mp hat
  obtain ⟨-, hnoBar⟩ := splitOnce_eq_some.mp hbar
  obtain ⟨rfl, -⟩ := rsplitOnce_eq_some.mp hcolon
  refine ⟨stripBy_stripBy _ _, stripBy_stripBy _ _, fun hmem => hnoAt (mem_of_mem_stripBy hmem), ?_⟩
  exact fun hmem => hnoBar (List.mem_append_left _ (mem_of_mem_stripBy hmem))

/-- Neither an integer nor the text of a key contains a separator or a blank. -/
lemma not_mem_intRepr {n : ℤ} {c : CodePoint} (hc : c.isNumeric = false) : c ∉ intRepr n := by
  intro hmem
  rw [intRepr_numeric hmem] at hc
  cases hc

lemma strip_toHex (k : PublicKey) : strip k.toHex = k.toHex := by
  refine stripBy_eq_self fun c hc => ?_
  have hdigit := isSome_hexVal_of_mem_toHex hc
  unfold CodePoint.hexVal at hdigit
  simp only [CodePoint.isWhitespace, Bool.or_eq_false_iff, Bool.and_eq_false_iff,
    decide_eq_false_iff_not]
  split_ifs at hdigit <;> first | omega | cases hdigit

lemma Clean.parse_text {p : Peer} (h : p.Clean) : parse p.spec = .ok p := by
  have hspec : p.spec = p.nodeId ++ .ofNat 0x40 ::
      (p.host ++ .ofNat 0x3A :: intRepr p.port ++ .ofNat 0x7C :: p.publicKey.toHex) := by
    simp [spec, str]
  have hat : splitOnce (.ofNat 0x40) p.spec = some (p.nodeId,
      p.host ++ .ofNat 0x3A :: intRepr p.port ++ .ofNat 0x7C :: p.publicKey.toHex) :=
    splitOnce_eq_some.mpr ⟨hspec, h.noAt⟩
  have hbar : splitOnce (.ofNat 0x7C)
      (p.host ++ .ofNat 0x3A :: intRepr p.port ++ .ofNat 0x7C :: p.publicKey.toHex) =
        some (p.host ++ .ofNat 0x3A :: intRepr p.port, p.publicKey.toHex) := by
    refine splitOnce_eq_some.mpr ⟨rfl, fun hmem => ?_⟩
    rcases List.mem_append.mp hmem with hmem | hmem
    · exact h.noBar hmem
    · rcases List.mem_cons.mp hmem with heq | hmem
      · exact absurd heq (by decide)
      · exact not_mem_intRepr (by decide) hmem
  have hcolon : rsplitOnce (.ofNat 0x3A) (p.host ++ .ofNat 0x3A :: intRepr p.port) =
      some (p.host, intRepr p.port) :=
    rsplitOnce_eq_some.mpr ⟨rfl, not_mem_intRepr (by decide)⟩
  rw [parse_eq_ok]
  simp only [parse?, bind, hat, hbar, hcolon, Option.bind_some, parseInt_intRepr, strip_toHex,
    PublicKey.fromHex_toHex, Except.toOption, h.nodeId, h.host]
  rfl

end Peer

/-! ### Registries -/

/-- `PeerRegistry`: the addresses of the other validators, by key, and the own one if it is
advertised. -/
structure PeerRegistry where
  self : PyStr
  selfPeer : Option Peer := none
  peers : Dict PyStr Peer := Dict.empty

namespace PeerRegistry

/-- `_add`: whether the peer is new, and the registry with its address. -/
def add (r : PeerRegistry) (peer : Peer) : Bool × PeerRegistry :=
  if peer.key = r.self then (false, r)
  else (peer.key ∉ r.peers.keys, { r with peers := r.peers.set peer.key peer })

/-- `merge`: how many peers are new, and the registry with all their addresses. -/
def merge (r : PeerRegistry) (peers : List Peer) : ℕ × PeerRegistry :=
  peers.foldl (fun acc peer =>
    let added := acc.2.add peer
    (if added.1 then acc.1 + 1 else acc.1, added.2)) (0, r)

/-- `seed`. -/
def seed (r : PeerRegistry) (peers : List Peer) : PeerRegistry :=
  peers.foldl (fun r peer => (r.add peer).2) r

/-- `specs`: what is shared, the own address at the end. -/
def specs (r : PeerRegistry) : List PyStr := r.peers.values.map Peer.spec ++ (r.selfPeer.map Peer.spec).toList

/-- The address that the registry has for a key. -/
def address (r : PeerRegistry) (k : PyStr) : Option Peer := r.peers.get? k

/-- The text that the registry hands out for the peer of a text that it merges. -/
def relay (r : PeerRegistry) (text : PyStr) : Option PyStr := do
  let peer ← (Peer.parse text).toOption
  let held ← (r.merge [peer]).2.address peer.key
  return held.spec

/-- The registry after merging lists of peers one after the other. -/
def mergeAll (r : PeerRegistry) (lists : List (List Peer)) : PeerRegistry :=
  lists.foldl (fun r peers => (r.merge peers).2) r

/-- The last peer of a list with the given key. -/
def named (k : PyStr) (peers : List Peer) : Option Peer := (peers.filter (·.key = k)).getLast?

variable {r : PeerRegistry} {k : PyStr} {peers : List Peer}

lemma merge_eq_seed (r : PeerRegistry) (peers : List Peer) : (r.merge peers).2 = r.seed peers := by
  have hfold : ∀ (l : List Peer) (n : ℕ) (r : PeerRegistry),
      (l.foldl (fun acc peer =>
        let added := acc.2.add peer
        (if added.1 then acc.1 + 1 else acc.1, added.2)) (n, r)).2 = r.seed l := by
    intro l
    induction l with
    | nil => exact fun _ _ => rfl
    | cons peer l ih => exact fun _ _ => ih _ _
  exact hfold peers 0 r

lemma add_self (r : PeerRegistry) (peer : Peer) : (r.add peer).2.self = r.self := by
  unfold add
  split_ifs <;> rfl

lemma add_selfPeer (r : PeerRegistry) (peer : Peer) : (r.add peer).2.selfPeer = r.selfPeer := by
  unfold add
  split_ifs <;> rfl

@[simp] lemma seed_self (r : PeerRegistry) (peers : List Peer) : (r.seed peers).self = r.self := by
  induction peers generalizing r with
  | nil => rfl
  | cons peer peers ih => exact (ih _).trans (add_self r peer)

lemma seed_append (r : PeerRegistry) (peers more : List Peer) :
    r.seed (peers ++ more) = (r.seed peers).seed more := List.foldl_append

/-- Adding a peer replaces the address of its key. -/
lemma address_add (hk : k ≠ r.self) (peer : Peer) :
    (r.add peer).2.address k = if peer.key = k then some peer else r.address k := by
  unfold add address
  by_cases hself : peer.key = r.self
  · rw [if_pos hself, if_neg fun h => hk (h.symm.trans hself)]
  · rw [if_neg hself, Dict.get?_set]
    simp only [eq_comm]

lemma named_append (k : PyStr) (peers more : List Peer) :
    named k (peers ++ more) = (named k more).or (named k peers) := by
  rw [named, List.filter_append, List.getLast?_append]
  rfl

/-- A registry has the address that was named last. -/
lemma address_seed (hk : k ≠ r.self) (peers : List Peer) :
    (r.seed peers).address k = (named k peers).or (r.address k) := by
  induction peers using List.reverseRecOn with
  | nil => rfl
  | append_singleton peers peer ih =>
    rw [seed_append]
    change ((r.seed peers).add peer).2.address k = _
    rw [address_add (by rwa [seed_self]), ih, named, named, List.filter_append, List.getLast?_append]
    by_cases hpeer : peer.key = k
    · simp [hpeer]
    · simp [hpeer]

end PeerRegistry

/-- A peer that was parsed from any text is parsed back from its own text, and that text is passed on as it
is by any number of registries, except that a registry keeps no address of its own. -/
theorem Peer.parse_spec {s : PyStr} {p : Peer} (h : Peer.parse s = .ok p) :
    Peer.parse p.spec = .ok p ∧ ∀ rs : List PeerRegistry, (∀ r ∈ rs, p.key ≠ r.self) →
      rs.foldlM (fun text r => r.relay text) p.spec = some p.spec := by
  have hparse := (clean_of_parse h).parse_text
  refine ⟨hparse, fun rs hrs => ?_⟩
  induction rs with
  | nil => rfl
  | cons r rs ih =>
    have hheld : (r.merge [p]).2.address p.key = some p := by
      rw [PeerRegistry.merge_eq_seed, PeerRegistry.address_seed (hrs r List.mem_cons_self)]
      simp [PeerRegistry.named]
    have hrelay : r.relay p.spec = some p.spec := by
      simp [PeerRegistry.relay, hparse, Except.toOption, hheld]
    rw [List.foldlM_cons, hrelay]
    exact ih fun r' hr' => hrs r' (List.mem_cons_of_mem _ hr')

/-- A node id with a bar and a colon, an IPv6 host and blanks around the parts; the port is written with a
sign and an underscore. -/
theorem Peer.parse_spec_of_ipv6 :
    ∃ p, Peer.parse (str " a|b:c @ [::1] : +80_00| " ++ (seedPublic 0xaa).toHex) = .ok p ∧
      (p.nodeId, p.host, p.port) = (str "a|b:c", str "[::1]", 8000) ∧ Peer.parse p.spec = .ok p := by
  have hrun : (Peer.parse (str " a|b:c @ [::1] : +80_00| " ++ (seedPublic 0xaa).toHex)).map
      (fun p => (p.nodeId, p.host, p.port)) = .ok (str "a|b:c", str "[::1]", 8000) := by
    decide +kernel
  obtain ⟨p, hp, hparts⟩ := exists_of_map_eq_ok hrun
  exact ⟨p, hp, hparts, (Peer.parse_spec hp).1⟩

/-! ### Nodes that exchange their registries -/

/-- The registries of a set of nodes, and the lists of texts that they have handed out so far. -/
structure Gossip (ι : Type) where
  registry : ι → PeerRegistry
  lists : List (List PyStr) := []

/-- What can happen. A list that was handed out, as an announcement or as an answer, may arrive any time
later, anywhere, again and again, or never. -/
inductive Exchange (ι : Type) where
  /-- A node is started anew, with another address of its own. -/
  | restart (i : ι) (selfPeer : Option Peer) (seeds : List Peer)
  /-- A node hands out its registry. -/
  | share (i : ι)
  /-- A list arrives at `POST /peers` of a node. -/
  | post (i : ι) (n : ℕ)
  /-- A node merges the answers of its peers to `GET /peers`. -/
  | pull (i : ι) (ns : List ℕ)

namespace Gossip

open PeerRegistry (named)

variable {ι : Type} [DecidableEq ι]

/-- The peers that are merged at a node: of a posted list all or, if a text is malformed, none; of answers
those that can be parsed. -/
def merges (w : Gossip ι) (i : ι) : Exchange ι → List Peer
  | .post j n => if j = i then (((w.lists[n]?).getD []).mapM Peer.parse).toOption.getD [] else []
  | .pull j ns =>
    if j = i then (ns.flatMap fun n => (w.lists[n]?).getD []).filterMap fun s => (Peer.parse s).toOption
    else []
  | _ => []

/-- The network after an event. -/
def step (w : Gossip ι) : Exchange ι → Gossip ι
  | .restart i selfPeer seeds => { w with
      registry := Function.update w.registry i
        (PeerRegistry.seed ⟨(w.registry i).self, selfPeer, Dict.empty⟩ seeds) }
  | .share i => { w with lists := w.lists ++ [(w.registry i).specs] }
  | e => { w with registry := fun i => ((w.registry i).merge (w.merges i e)).2 }

/-- The network after a sequence of events. -/
def run (w : Gossip ι) (es : List (Exchange ι)) : Gossip ι := es.foldl step w

/-- The peers that are merged at a node along a sequence of events, one list for each event. -/
def merged (w : Gossip ι) (i : ι) : List (Exchange ι) → List (List Peer)
  | [] => []
  | e :: es => w.merges i e :: (w.step e).merged i es

/-- The event starts the node anew. -/
def Restarts (i : ι) : Exchange ι → Prop
  | .restart j _ _ => j = i
  | _ => False

variable {w : Gossip ι} {i : ι} {k : PyStr} {es : List (Exchange ι)}

/-- An event changes a registry by what it merges there. -/
lemma step_registry {e : Exchange ι} (he : ¬Restarts i e) :
    ((w.step e).registry i).self = (w.registry i).self ∧ ∀ k ≠ (w.registry i).self,
      ((w.step e).registry i).address k = (named k (w.merges i e)).or ((w.registry i).address k) := by
  have hmerge : ∀ peers, ((w.registry i).merge peers).2.self = (w.registry i).self ∧
      ∀ k ≠ (w.registry i).self, ((w.registry i).merge peers).2.address k =
        (named k peers).or ((w.registry i).address k) := by
    intro peers
    rw [PeerRegistry.merge_eq_seed]
    exact ⟨PeerRegistry.seed_self _ _, fun k hk => PeerRegistry.address_seed hk peers⟩
  cases e with
  | restart j selfPeer seeds =>
    have hregistry : (w.step (.restart j selfPeer seeds)).registry i = w.registry i :=
      Function.update_of_ne (fun h => he h.symm) _ _
    rw [hregistry]
    exact ⟨rfl, fun k _ => rfl⟩
  | share j => exact ⟨rfl, fun k _ => rfl⟩
  | post j n => exact hmerge _
  | pull j ns => exact hmerge _

/-- A registry has the address that was merged into it last. -/
lemma run_registry (hes : ∀ e ∈ es, ¬Restarts i e) (hk : k ≠ (w.registry i).self) :
    ((w.run es).registry i).address k =
      (named k (w.merged i es).flatten).or ((w.registry i).address k) := by
  induction es generalizing w with
  | nil => rfl
  | cons e es ih =>
    obtain ⟨hself, hstep⟩ := step_registry (w := w) (hes e List.mem_cons_self)
    have hrest := ih (w := w.step e) (fun e' he' => hes e' (List.mem_cons_of_mem _ he'))
      (by rwa [hself])
    rw [hstep k hk] at hrest
    rw [merged, List.flatten_cons, PeerRegistry.named_append, Option.or_assoc]
    exact hrest

/-! ### Addresses without stale copies -/

/-- The text is not read as another address of `p`. -/
def TextAgrees (p : Peer) (s : PyStr) : Prop := ∀ q, Peer.parse s = .ok q → q.key = p.key → q = p

/-- The peer is not another address of `p`, and neither is what its text is read as. -/
def Agrees (p q : Peer) : Prop := (q.key = p.key → q = p) ∧ TextAgrees p q.spec

/-- No stale address of `p` is left, in a registry or on its way. -/
structure Settled (p : Peer) (w : Gossip ι) : Prop where
  registries : ∀ i, ∀ q ∈ (w.registry i).peers.values ++ (w.registry i).selfPeer.toList, Agrees p q
  lists : ∀ l ∈ w.lists, ∀ s ∈ l, TextAgrees p s

/-- If the event starts a node anew, its configuration has no stale address of `p`. -/
def Announces (p : Peer) : Exchange ι → Prop
  | .restart _ selfPeer seeds => ∀ q ∈ seeds ++ selfPeer.toList, Agrees p q
  | _ => True

/-- What is read from a text is read in the same way again. -/
lemma TextAgrees.agrees {p q : Peer} {s : PyStr} (h : TextAgrees p s) (hq : Peer.parse s = .ok q) :
    Agrees p q := by
  refine ⟨h q hq, fun q' hq' => ?_⟩
  rw [(Peer.clean_of_parse hq).parse_text] at hq'
  cases hq'
  exact h q hq

variable {p : Peer}

lemma mem_values_seed {r : PeerRegistry} {peers : List Peer} {q : Peer}
    (hq : q ∈ (r.seed peers).peers.values) : q ∈ r.peers.values ∨ q ∈ peers := by
  induction peers generalizing r with
  | nil => exact .inl hq
  | cons peer peers ih =>
    rcases ih hq with hq | hq
    · change q ∈ (r.add peer).2.peers.values at hq
      unfold PeerRegistry.add at hq
      split_ifs at hq
      · exact .inl hq
      · obtain ⟨k, hk⟩ := Dict.mem_values.mp hq
        rcases Dict.mem_items_set.mp hk with hk | ⟨hk, -⟩
        · exact .inr (List.mem_cons.mpr (.inl (Prod.mk.inj hk).2))
        · exact .inl (Dict.mem_values.mpr ⟨k, hk⟩)
    · exact .inr (List.mem_cons_of_mem _ hq)

@[simp] lemma seed_selfPeer (r : PeerRegistry) (peers : List Peer) :
    (r.seed peers).selfPeer = r.selfPeer := by
  induction peers generalizing r with
  | nil => rfl
  | cons peer peers ih => exact (ih _).trans (PeerRegistry.add_selfPeer r peer)

/-- What a node merges comes from lists that were handed out. -/
lemma agrees_of_mem_merges (h : Settled p w) {e : Exchange ι} {q : Peer} (hq : q ∈ w.merges i e) :
    Agrees p q := by
  have hlist : ∀ n : ℕ, ∀ s ∈ (w.lists[n]?).getD [], ∀ q, Peer.parse s = .ok q → Agrees p q := by
    intro n
    cases hn : w.lists[n]? with
    | none => exact fun s hs => absurd hs List.not_mem_nil
    | some l => exact fun s hs q hq => (h.lists l (List.mem_of_getElem? hn) s hs).agrees hq
  cases e with
  | restart j selfPeer seeds => cases hq
  | share j => cases hq
  | post j n =>
    simp only [merges] at hq
    split_ifs at hq
    · cases hparse : ((w.lists[n]?).getD []).mapM Peer.parse with
      | error e =>
        rw [hparse] at hq
        cases hq
      | ok peers =>
        rw [hparse] at hq
        obtain ⟨s, hs, hsq⟩ := exists_of_mem_mapM hparse hq
        exact hlist n s hs q hsq
    · cases hq
  | pull j ns =>
    simp only [merges] at hq
    split_ifs at hq
    · obtain ⟨s, hs, hsq⟩ := List.mem_filterMap.mp hq
      obtain ⟨n, -, hs⟩ := List.mem_flatMap.mp hs
      refine hlist n s hs q ?_
      cases hparse : Peer.parse s with
      | error e =>
        rw [hparse] at hsq
        cases hsq
      | ok q' =>
        rw [hparse] at hsq
        exact congrArg _ (Option.some.inj hsq)
    · cases hq

/-- No event brings a stale address back. -/
lemma Settled.step (h : Settled p w) {e : Exchange ι} (he : Announces p e) : Settled p (w.step e) := by
  have hmerge : Settled p { w with registry := fun i => ((w.registry i).merge (w.merges i e)).2 } := by
    refine ⟨fun i q hq => ?_, h.lists⟩
    simp only [PeerRegistry.merge_eq_seed, seed_selfPeer] at hq
    rcases List.mem_append.mp hq with hq | hq
    · rcases mem_values_seed hq with hq | hq
      · exact h.registries i q (List.mem_append_left _ hq)
      · exact agrees_of_mem_merges h hq
    · exact h.registries i q (List.mem_append_right _ hq)
  cases e with
  | restart j selfPeer seeds =>
    refine ⟨fun i q hq => ?_, h.lists⟩
    by_cases hij : i = j
    · subst hij
      simp only [Gossip.step, Function.update_self, seed_selfPeer] at hq
      rcases List.mem_append.mp hq with hq | hq
      · rcases mem_values_seed hq with hq | hq
        · cases hq
        · exact he q (List.mem_append_left _ hq)
      · exact he q (List.mem_append_right _ hq)
    · simp only [Gossip.step, Function.update_of_ne hij] at hq
      exact h.registries i q hq
  | share j =>
    refine ⟨h.registries, fun l hl s hs => ?_⟩
    rcases List.mem_append.mp hl with hl | hl
    · exact h.lists l hl s hs
    · obtain rfl := List.mem_singleton.mp hl
      have hspec : ∃ q' ∈ (w.registry j).peers.values ++ (w.registry j).selfPeer.toList,
          q'.spec = s := by
        rcases List.mem_append.mp hs with hs | hs
        · obtain ⟨q', hq', rfl⟩ := List.mem_map.mp hs
          exact ⟨q', List.mem_append_left _ hq', rfl⟩
        · obtain ⟨q', hq', rfl⟩ := Option.map_eq_some_iff.mp (Option.mem_toList.mp hs)
          exact ⟨q', List.mem_append_right _ (Option.mem_toList.mpr hq'), rfl⟩
      obtain ⟨q', hq', rfl⟩ := hspec
      exact (h.registries j q' hq').2
  | post j n => exact hmerge
  | pull j ns => exact hmerge

lemma Settled.run (h : Settled p w) (hes : ∀ e ∈ es, Announces p e) : Settled p (w.run es) := by
  induction es generalizing w with
  | nil => exact h
  | cons e es ih =>
    exact ih (h.step (hes e List.mem_cons_self)) fun e' he' => hes e' (List.mem_cons_of_mem _ he')

/-- Then the address is kept. -/
lemma Settled.address_run (h : Settled p w) (hes : ∀ e ∈ es, Announces p e ∧ ¬Restarts i e)
    (hp : (w.registry i).address p.key = some p) (hi : p.key ≠ (w.registry i).self) :
    ((w.run es).registry i).address p.key = some p := by
  have hsettled := h.run fun e he => (hes e he).1
  have hlast := run_registry (fun e he => (hes e he).2) hi
  cases hnamed : named p.key (w.merged i es).flatten with
  | none => rw [hlast, hnamed, hp]; rfl
  | some q =>
    rw [hnamed] at hlast
    obtain ⟨k, hk⟩ : ∃ k, (k, q) ∈ ((w.run es).registry i).peers.items :=
      ⟨_, Dict.get?_eq_some.mp hlast⟩
    have hagrees := hsettled.registries i q
      (List.mem_append_left _ (Dict.mem_values.mpr ⟨k, hk⟩))
    have hkey : q.key = p.key := by
      have hmem := List.mem_of_getLast? hnamed
      simpa using (List.mem_filter.mp hmem).2
    rw [hlast, hagrees.1 hkey]
    rfl

end Gossip

/-! ### Lists in another order -/

namespace PeerRegistry

variable {r : PeerRegistry} {k : PyStr} {lists : List (List Peer)}

lemma mergeAll_eq_seed (r : PeerRegistry) (lists : List (List Peer)) :
    r.mergeAll lists = r.seed lists.flatten := by
  induction lists generalizing r with
  | nil => rfl
  | cons peers lists ih =>
    rw [List.flatten_cons, seed_append, ← ih, ← merge_eq_seed]
    rfl

/-- All lists that name a peer with the key name the same one last. -/
def Uniform (k : PyStr) (lists : List (List Peer)) : Prop :=
  ∀ l ∈ lists, ∀ l' ∈ lists, ∀ q q', named k l = some q → named k l' = some q' → q = q'

lemma Uniform.named_flatten (h : Uniform k lists) {q : Peer} :
    named k lists.flatten = some q ↔ ∃ l ∈ lists, named k l = some q := by
  induction lists generalizing q with
  | nil => simp [named]
  | cons l lists ih =>
    have htail : Uniform k lists := fun l₁ h₁ l₂ h₂ =>
      h l₁ (List.mem_cons_of_mem _ h₁) l₂ (List.mem_cons_of_mem _ h₂)
    rw [List.flatten_cons, named_append, Option.or_eq_some_iff]
    constructor
    · rintro (hq | ⟨-, hq⟩)
      · obtain ⟨l', hl', hq⟩ := (ih htail).mp hq
        exact ⟨l', List.mem_cons_of_mem _ hl', hq⟩
      · exact ⟨l, List.mem_cons_self, hq⟩
    · rintro ⟨l', hl', hq⟩
      cases hrest : named k lists.flatten with
      | some q' =>
        obtain ⟨l'', hl'', hq'⟩ := (ih htail).mp hrest
        exact .inl (congrArg some (h l'' (List.mem_cons_of_mem _ hl'') l' hl' q' q hq' hq))
      | none =>
        rcases List.mem_cons.mp hl' with rfl | hl'
        · exact .inr ⟨rfl, hq⟩
        · exact absurd ((ih htail).mpr ⟨l', hl', hq⟩) (by simp [hrest])

/-- The order in which lists are merged does not matter exactly if they do not contradict each other. -/
lemma mergeAll_perm_iff (hk : k ≠ r.self) :
    (∀ lists', lists'.Perm lists → (r.mergeAll lists').address k = (r.mergeAll lists).address k) ↔
      Uniform k lists := by
  simp only [mergeAll_eq_seed, address_seed hk]
  constructor
  · intro h l hl l' hl' q q' hq hq'
    have hlast : ∀ l ∈ lists, ∀ q, named k l = some q →
        some q = (named k lists.flatten).or (r.address k) := by
      intro l hl q hq
      obtain ⟨a, b, rfl⟩ := List.append_of_mem hl
      rw [← h (a ++ b ++ [l]) ((List.perm_append_singleton l _).trans List.perm_middle.symm)]
      simp [named_append, hq]
    exact Option.some.inj ((hlast l hl q hq).trans (hlast l' hl' q' hq').symm)
  · intro h lists' hperm
    have h' : Uniform k lists' := fun l₁ h₁ l₂ h₂ =>
      h l₁ (hperm.mem_iff.mp h₁) l₂ (hperm.mem_iff.mp h₂)
    have hsame : named k lists'.flatten = named k lists.flatten := by
      ext q
      rw [h'.named_flatten, h.named_flatten]
      simp only [hperm.mem_iff]
    rw [hsame]

end PeerRegistry

/-- A registry has for every key but its own the address that was merged into it last. So an address is
kept as long as what is merged later names no other one, in particular for ever if no stale copy of it is left
in the network, and lists give the same addresses in every order exactly if they do not contradict each
other. -/
theorem Gossip.last_merged_wins {ι : Type} [DecidableEq ι] :
    (∀ (w : Gossip ι) (i : ι) (es : List (Exchange ι)) (k : PyStr),
      (∀ e ∈ es, ¬Gossip.Restarts i e) → k ≠ (w.registry i).self →
      ((w.run es).registry i).address k =
        (PeerRegistry.named k (w.merged i es).flatten).or ((w.registry i).address k)) ∧
    (∀ (w : Gossip ι) (i : ι) (es : List (Exchange ι)) (k : PyStr) (p : Peer),
      (∀ e ∈ es, ¬Gossip.Restarts i e) → k ≠ (w.registry i).self → (w.registry i).address k = some p →
      (((w.run es).registry i).address k = some p ↔
        ∀ q, PeerRegistry.named k (w.merged i es).flatten = some q → q = p)) ∧
    (∀ (w : Gossip ι) (i : ι) (es : List (Exchange ι)) (p : Peer), w.Settled p →
      (∀ e ∈ es, Gossip.Announces p e ∧ ¬Gossip.Restarts i e) → p.key ≠ (w.registry i).self →
      (w.registry i).address p.key = some p → ((w.run es).registry i).address p.key = some p) ∧
    ∀ (r : PeerRegistry) (lists : List (List Peer)) (k : PyStr), k ≠ r.self →
      ((∀ lists', lists'.Perm lists → (r.mergeAll lists').address k = (r.mergeAll lists).address k) ↔
        PeerRegistry.Uniform k lists) := by
  refine ⟨fun w i es k hes hk => Gossip.run_registry hes hk, fun w i es k p hes hk hp => ?_, ?_, ?_⟩
  · rw [Gossip.run_registry hes hk, hp]
    cases PeerRegistry.named k (w.merged i es).flatten with
    | none => simp
    | some q => simp
  · exact fun w i es p hw hes hi hp => hw.address_run hes hp hi
  · exact fun r lists k hk => PeerRegistry.mergeAll_perm_iff hk

/-- The node with the number `2`, at the given host. -/
def secondPeer (host : String) : Peer := ⟨str "c", str host, 8000, seedPublic 2⟩

/-- Nodes that do not know each other, of which the one with the number `2` advertises its address. -/
def strangers (host : String) : Gossip ℕ where
  registry i :=
    ⟨(seedPublic (.ofNat i)).toHex, if i = 2 then some (secondPeer host) else none, Dict.empty⟩

/-- The node announces itself to two others, and one of them merges the registry of the other. Two lists with
different addresses of the node contradict each other. -/
theorem Gossip.last_merged_wins_of_announcement :
    let w := (strangers "c1").run [.share 2, .post 0 0]
    let es : List (Exchange ℕ) := [.post 1 0, .share 1, .pull 0 [1]]
    let lists := [[secondPeer "c1"], [secondPeer "c2"]]
    ((w.run es).registry 0).address (secondPeer "c1").key = some (secondPeer "c1") ∧
    (∀ q, PeerRegistry.named (secondPeer "c1").key (w.merged 0 es).flatten = some q →
      q = secondPeer "c1") ∧
    ¬∀ lists', lists'.Perm lists → ((w.registry 0).mergeAll lists').address (secondPeer "c1").key =
      ((w.registry 0).mergeAll lists).address (secondPeer "c1").key := by
  intro w es lists
  have hclean : (secondPeer "c1").Clean := ⟨by decide, by decide, by decide, by decide⟩
  have hstart : (strangers "c1").Settled (secondPeer "c1") := by
    refine ⟨fun i q hq => ?_, fun l hl => absurd hl List.not_mem_nil⟩
    have hq' : q = secondPeer "c1" := by
      simp only [strangers, Dict.empty, Dict.values, List.map_nil, List.nil_append, Option.mem_toList] at hq
      split_ifs at hq
      cases hq
      rfl
    rw [hq']
    refine ⟨fun _ => rfl, fun q hq _ => ?_⟩
    rw [hclean.parse_text] at hq
    exact (Except.ok.inj hq).symm
  have hw : w.Settled (secondPeer "c1") := hstart.run (by simp [Gossip.Announces])
  have hself : (secondPeer "c1").key ≠ ((strangers "c1").registry 0).self := by decide
  have haddress : (w.registry 0).address (secondPeer "c1").key = some (secondPeer "c1") := by
    have hstays : ∀ e ∈ ([.share 2, .post 0 0] : List (Exchange ℕ)), ¬Gossip.Restarts 0 e := by
      simp [Gossip.Restarts]
    have hlast := Gossip.run_registry hstays hself
    have hmerged : (strangers "c1").merged 0 [.share 2, .post 0 0] = [[], [secondPeer "c1"]] := by
      simp [Gossip.merged, Gossip.merges, Gossip.step, strangers, PeerRegistry.specs, Dict.empty,
        Dict.values, hclean.parse_text, Except.toOption, List.mapM_cons]
    rw [hmerged] at hlast
    exact hlast
  have hes : ∀ e ∈ es, Gossip.Announces (secondPeer "c1") e ∧ ¬Gossip.Restarts 0 e := by
    simp [es, Gossip.Announces, Gossip.Restarts]
  have hkept := Gossip.last_merged_wins.2.2.1 w 0 es (secondPeer "c1") hw hes hself haddress
  refine ⟨hkept, (Gossip.last_merged_wins.2.1 w 0 es _ _ (fun e he => (hes e he).2) hself haddress).mp hkept,
    fun hperm => ?_⟩
  have huniform := ((@Gossip.last_merged_wins ℕ _).2.2.2 (w.registry 0) lists _ hself).mp hperm
  have hhost := congrArg Peer.host (huniform [secondPeer "c1"] (by simp [lists]) [secondPeer "c2"]
    (by simp [lists]) (secondPeer "c1") (secondPeer "c2") rfl rfl)
  exact absurd hhost (by decide)

/-- The node was at `c1` and is now at `c2`, which another one knows already when an older registry
arrives. -/
theorem Gossip.stale_copy_wins :
    let w := (strangers "c1").run
      [.share 2, .post 1 0, .restart 2 (some (secondPeer "c2")) [], .share 2, .share 1]
    let host (w : Gossip ℕ) := ((w.registry 0).address (seedPublic 2).toHex).map Peer.host
    host (w.run [.post 0 1]) = some (str "c2") ∧
    host (w.run [.post 0 1, .post 0 2]) = some (str "c1") ∧
    host (w.run [.post 0 2, .post 0 1]) = some (str "c2") := by
  decide +kernel

end Helix
