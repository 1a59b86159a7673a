import Helix.Consensus.Network
import Helix.Consensus.Recovery

/-!
# Runs of the network

The correct validators of a height take turns in making calls, in the course of which they may crash.
Over runs without crashes, whatever a correct validator holds or sends the network could deliver, and it
names its senders as `to_hex` writes them (`Supplied`); so the adversary may also forward every message
of a correct validator as it is.
-/

namespace Helix

variable [Crypto]

open Relation (ReflTransGen)

namespace Network

variable (net : Network)

/-- One correct validator makes a call that `ok` admits. -/
inductive CallStep (ok : World → ConsensusEngine → Call → Prop) (w : World) : World → Prop
  | call {k : PublicKey} {c : Call} (hk : net.Correct k) (hok : ok w (w k).engine c) :
      CallStep ok w (Function.update w k ((w k).call c))

/-- One correct validator makes a call that `ok` admits, or crashes in the course of one. -/
inductive Step (ok : World → ConsensusEngine → Call → Prop) (w : World) : World → Prop
  | step {k : PublicKey} {v : Validator} (hk : net.Correct k)
      (hv : Validator.Step (ok w) (w k) v) : Step ok w (Function.update w k v)

/-- The network delivers what the call is handed, and that names its senders as `to_hex` writes
them. -/
abbrev Admits (w : World) (_ : ConsensusEngine) (c : Call) : Prop := net.Delivers w c ∧ c.Named

/-- Every correct validator has a new engine, over a journal without a lock. -/
structure Begins (w : World) : Prop where
  engine : ∀ k, net.Correct k → ∃ privateKey previousHash nowMs journal,
    privateKey.publicKey = k ∧ journal.prepared = none ∧ ConsensusEngine.new net.validators
      privateKey net.height previousHash nowMs journal = .ok (w k).engine
  sent : ∀ k, net.Correct k → (w k).sent = []
  lost : ∀ k, net.Correct k → (w k).lost = []
  decided : ∀ k, net.Correct k → (w k).decided = []

variable {net} {w w' W W' : World} {k : PublicKey} {m p : ConsensusMessage}

lemma CallStep.mono {ok ok' : World → ConsensusEngine → Call → Prop} (hstep : net.CallStep ok w w')
    (hok : ∀ e c, ok w e c → ok' w e c) : net.CallStep ok' w w' := by
  obtain ⟨hk, hc⟩ := hstep
  exact .call hk (hok _ _ hc)

/-- A run without crashes is a run. -/
lemma steps_of_calls {ok ok' : World → ConsensusEngine → Call → Prop}
    (hok : ∀ w e c, ok w e c → ok' w e c) (hrun : ReflTransGen (net.CallStep ok) w w') :
    ReflTransGen (net.Step ok') w w' := by
  induction hrun with
  | refl => exact .refl
  | tail _ hstep ih =>
    obtain ⟨hk, hc⟩ := hstep
    exact ih.tail (.step hk (.call _ (hok _ _ _ hc)))

/-! ### What can be delivered -/

/-- Everything that was sent in `W` was sent in `W'`. -/
def Extends (W W' : World) : Prop :=
  ∀ k, ∀ m ∈ (W k).sent ++ (W k).lost, m ∈ (W' k).sent ++ (W' k).lost

lemma Deliverable.mono (hm : net.Deliverable W m) (hW : Extends W W') : net.Deliverable W' m := by
  intro p hp k hk hc hh hs
  obtain ⟨m', hm', hpay⟩ := hm p hp k hk hc hh hs
  exact ⟨m', hW k m' hm', hpay⟩

variable (net W) in
/-- A message that can be delivered and names its senders as `to_hex` writes them. -/
structure Trusted (m : ConsensusMessage) : Prop where
  deliverable : net.Deliverable W m
  named : m.Named

lemma Admits.trusted {e : ConsensusEngine} {c : Call} (hc : net.Admits W e c) :
    ∀ m ∈ c.messages, net.Trusted W m := fun m hm => ⟨hc.1 m hm, hc.2 m hm⟩

lemma Admits.of_trusted {e : ConsensusEngine} {c : Call} (hc : ∀ m ∈ c.messages, net.Trusted W m) :
    net.Admits W e c := ⟨fun m hm => (hc m hm).deliverable, fun m hm => (hc m hm).named⟩

namespace Trusted

lemma mono (hm : net.Trusted W m) (hW : Extends W W') : net.Trusted W' m :=
  ⟨hm.deliverable.mono hW, hm.named⟩

lemma preparedCert (hm : net.Trusted W m) (hp : p ∈ m.preparedCert) : net.Trusted W p :=
  ⟨fun q hq => hm.deliverable q (.preparedCert hp hq), fun q hq => hm.named q (.preparedCert hp hq)⟩

lemma roundChangeCert (hm : net.Trusted W m) (hp : p ∈ m.roundChangeCert) : net.Trusted W p :=
  ⟨fun q hq => hm.deliverable q (.roundChangeCert hp hq),
    fun q hq => hm.named q (.roundChangeCert hp hq)⟩

/-- A message is trusted if its certificates are, and it is not forged itself. -/
lemma of_parts (hsender : m.sender = k.toHex)
    (hown : net.Correct k → ∃ m' ∈ (W k).sent ++ (W k).lost, m'.signingPayload = m.signingPayload)
    (hprep : ∀ q ∈ m.preparedCert, net.Trusted W q)
    (hrc : ∀ q ∈ m.roundChangeCert, net.Trusted W q) : net.Trusted W m := by
  constructor
  · intro p hp
    cases hp with
    | self =>
      intro k' hk' hc _ _
      rw [hsender, PublicKey.fromHex_toHex] at hk'
      cases hk'
      apply hown
      exact hc
    | preparedCert hq hp => exact (hprep _ hq).deliverable p hp
    | roundChangeCert hq hp => exact (hrc _ hq).deliverable p hp
  · intro p hp
    cases hp with
    | self => exact Spelling.spells_canonical hsender
    | preparedCert hq hp => exact (hprep _ hq).named p hp
    | roundChangeCert hq hp => exact (hrc _ hq).named p hp

/-- A message of a validator is trusted if its certificates are. -/
lemma of_sent (hsender : m.sender = k.toHex) (hm : m ∈ (W k).sent ++ (W k).lost)
    (hprep : ∀ q ∈ m.preparedCert, net.Trusted W q)
    (hrc : ∀ q ∈ m.roundChangeCert, net.Trusted W q) : net.Trusted W m :=
  of_parts hsender (fun _ => ⟨m, hm, rfl⟩) hprep hrc

/-- A message in the name of a validator that is not correct is trusted if its certificates are. -/
lemma of_faulty (hsender : m.sender = k.toHex) (hk : ¬net.Correct k)
    (hprep : ∀ q ∈ m.preparedCert, net.Trusted W q)
    (hrc : ∀ q ∈ m.roundChangeCert, net.Trusted W q) : net.Trusted W m :=
  of_parts hsender (fun hc => absurd hc hk) hprep hrc

end Trusted

/-- A verified message of a correct validator was sent by it, apart from the parts that are not
signed. -/
lemma Deliverable.exists_sent (hm : net.Deliverable W m) (hk : net.Correct k)
    (hlost : (W k).lost = []) {type : MessageType} {r : ℤ}
    (hatt : Attests net.validators type net.height r k m) : ∃ m' ∈ (W k).sent, m'.type = type ∧
      m'.round = r ∧ m'.blockHash = m.blockHash ∧
      (type = .ROUND_CHANGE → m'.preparedRound = m.preparedRound) := by
  obtain ⟨m', hm', hpay⟩ := hm m .self k hatt.sender hk hatt.height hatt.signature
  obtain ⟨b, hb⟩ := m.exists_signingPayload hatt.signature
  obtain ⟨htype, -, hround, hhash, hlock⟩ := ConsensusMessage.signingPayload_injective
    (hpay.trans hb) hb
  rw [hlost, List.append_nil] at hm'
  refine ⟨m', hm', htype.trans hatt.type, hround.trans hatt.round, hhash, fun hrc => hlock ?_⟩
  rw [htype, hatt.type, hrc]

/-! ### Everything at hand is trusted -/

variable (net W) in
/-- What a correct validator holds and sends is trusted. -/
structure Supplied (k : PublicKey) (v : Validator) : Prop where
  me : v.engine.me = k
  validators : v.engine.validators = net.validators
  height : v.engine.height = net.height
  lost : v.lost = []
  tallied : Tallied (net.Trusted W) v.engine
  sent : ∀ m ∈ v.sent, net.Trusted W m
  roundChanges : ∀ t, ∀ p ∈ (v.engine.roundChanges.getD t).items, net.Trusted W p.2
  cert : ∀ m ∈ v.engine.preparedCert, net.Trusted W m

lemma Supplied.mono {v : Validator} (hv : net.Supplied W k v) (hW : Extends W W') :
    net.Supplied W' k v :=
  { hv with
    tallied := hv.tallied.mono fun _ hm => hm.mono hW
    sent := fun m hm => (hv.sent m hm).mono hW
    roundChanges := fun t p hp => (hv.roundChanges t p hp).mono hW
    cert := fun m hm => (hv.cert m hm).mono hW }

/-- The world in the course of a call of `k`. -/
def mid (w : World) (k : PublicKey) (c : Call) (s : Frame) : World :=
  Function.update w k ((w k).during c s)

variable {c : Call} {s s' : Frame}

omit [Crypto] in
@[simp] lemma mid_self : mid w k c s k = (w k).during c s := Function.update_self ..

omit [Crypto] in
lemma mid_of_ne {k' : PublicKey} (h : k' ≠ k) : mid w k c s k' = w k' := Function.update_of_ne h ..

omit [Crypto] in
lemma extends_mid : Extends w (mid w k c s) := by
  intro k' m hm
  by_cases hk : k' = k
  · subst hk
    rw [mid_self]
    rcases List.mem_append.mp hm with hm | hm
    · exact List.mem_append_left _ (List.mem_append_left _ hm)
    · exact List.mem_append_right _ hm
  · rwa [mid_of_ne hk]

lemma extends_mid_mid (hmove : Move (w k).engine c s s') :
    Extends (mid w k c s) (mid w k c s') := by
  intro k' m hm
  by_cases hk : k' = k
  · subst hk
    rw [mid_self] at hm ⊢
    rcases List.mem_append.mp hm with hm | hm
    · refine List.mem_append_left _ ?_
      rcases List.mem_append.mp hm with hm | hm
      · exact List.mem_append_left _ hm
      · exact List.mem_append_right _ (hmove.broadcast_subset hm)
    · exact List.mem_append_right _ hm
  · rw [mid_of_ne hk] at hm ⊢
    exact hm

/-- The ROUND_CHANGEs that a call can store were handed in. -/
lemma trusted_of_brings {e₀ : ConsensusEngine} (hc : ∀ m ∈ c.messages, net.Trusted W m)
    (hm : c.Brings e₀ m) : net.Trusted W m := by
  rcases hm with ⟨⟨rfl, -⟩, -⟩ | ⟨p, ⟨⟨rfl, -⟩, -⟩, hmem⟩
  · exact hc m List.mem_cons_self
  · exact (hc p List.mem_cons_self).roundChangeCert hmem

/-- The certificate of a proposal is made of stored ROUND_CHANGEs. -/
lemma Supplied.of_proposes {v : Validator} (hv : net.Supplied W k v) {e₀ : ConsensusEngine}
    {block : Block} {cert : List ConsensusMessage} (hp : c.Proposes e₀ v.engine block cert) :
    ∀ m ∈ cert, net.Trusted W m := by
  cases hp with
  | fresh => exact nofun
  | change =>
    intro m hm
    obtain ⟨x, hx⟩ := Dict.mem_values.mp hm
    exact hv.roundChanges _ _ hx

lemma Supplied.move (hw : net.Supplied w k (w k)) (hc : ∀ m ∈ c.messages, net.Trusted w m)
    (hs : Reached (w k).engine c s) (ih : net.Supplied (mid w k c s) k ((w k).during c s))
    (hmove : Move (w k).engine c s s') :
    net.Supplied (mid w k c s') k ((w k).during c s') := by
  have hs' : Reached (w k).engine c s' := hs.tail hmove
  have hsince := hs'.since
  have hext := extends_mid_mid hmove
  have hih := ih.mono hext
  -- a message of the call is trusted if its certificates are
  have hnew : ∀ m ∈ s'.result.broadcast, (∀ q ∈ m.preparedCert, net.Trusted (mid w k c s') q) →
      (∀ q ∈ m.roundChangeCert, net.Trusted (mid w k c s') q) →
      net.Trusted (mid w k c s') m := by
    intro m hm
    refine Trusted.of_sent (k := k) ?_ ?_
    · rw [(hs'.sentBy hm).sender, hw.me]
    · rw [mid_self]
      exact List.mem_append_left _ (List.mem_append_right _ hm)
  have hcreate : ∀ {type : MessageType} {height round h key m},
      ConsensusMessage.create type height round h key = .ok m → m ∈ s'.result.broadcast →
      net.Trusted (mid w k c s') m := by
    intro type height round h key m hm hmem
    obtain ⟨-, -, -, -, -, -, -, hprep, hrc⟩ := ConsensusMessage.create_eq hm
    exact hnew m hmem (hprep ▸ nofun) (hrc ▸ nofun)
  have hpre : ∀ {block pre}, c.Origin (w k).engine s.engine block pre →
      (∀ m ∈ pre, m ∈ s'.result.broadcast) → ∀ m ∈ pre, net.Trusted (mid w k c s') m := by
    intro block pre horigin hmem m hm
    refine hnew m (hmem m hm) ?_ ?_ <;> cases horigin with
    | own hp hh hcreate =>
      obtain ⟨-, -, -, -, -, -, -, hprep, hrc⟩ := ConsensusMessage.create_eq hcreate
      rw [List.mem_singleton.mp hm]
      first
      | exact hprep ▸ nofun
      | exact hrc ▸ hih.of_proposes hp
    | peer => cases hm
  have hsent : ∀ m ∈ s'.result.broadcast, net.Trusted (mid w k c s') m := by
    intro m hm
    have hold : m ∈ s.result.broadcast → net.Trusted (mid w k c s') m := fun hm =>
      hih.sent m (List.mem_append_right _ hm)
    cases hmove with
    | leave hch ht hr hwhy hrc =>
      rcases List.mem_append.mp hm with hm' | hm'
      · exact hold hm'
      · refine hnew m hm (fun q hq => ?_) (fun q hq => ?_)
        · obtain ⟨-, -, -, -, -, -, -, hcert, -⟩ := ConsensusEngine.roundChange_eq hrc
          rw [List.mem_singleton.mp hm', hcert] at hq
          split_ifs at hq
          · exact hih.cert q hq
          · cases hq
        · rw [List.mem_singleton.mp hm', ConsensusEngine.roundChangeCert_roundChange hrc] at hq
          cases hq
    | accept horigin hphase hh hprior hm' =>
      rcases List.mem_append.mp hm with hmem | hmem
      · rcases List.mem_append.mp hmem with hmem | hmem
        · exact hold hmem
        · exact hpre horigin (fun m hm => List.mem_append_left _ (List.mem_append_right _ hm)) m
            hmem
      · exact hcreate (List.mem_singleton.mp hmem ▸ hm') hm
    | refuse horigin =>
      rcases List.mem_append.mp hm with hmem | hmem
      · exact hold hmem
      · exact hpre horigin (fun m hm => List.mem_append_right _ hm) m hmem
    | prepare hopen hphase hblock hh hquorum hprior hm' =>
      rcases List.mem_append.mp hm with hmem | hmem
      · exact hold hmem
      · exact hcreate (List.mem_singleton.mp hmem ▸ hm') hm
    | _ => exact hold hm
  have htallied : Tallied (net.Trusted (mid w k c s')) s'.engine :=
    Tallied.move (hw.tallied.mono fun m hm => hm.mono extends_mid) hs hih.tallied hmove
      (fun m hm => (hc m hm).mono extends_mid) fun m hm _ => hsent m hm
  refine ⟨hsince.me.trans hw.me, hsince.validators.trans hw.validators,
    hsince.height.trans hw.height, hw.lost, htallied, fun m hm => ?_, ?_, ?_⟩
  · rcases List.mem_append.mp hm with hm | hm
    · exact (hw.sent m hm).mono extends_mid
    · exact hsent m hm
  · intro t p hp
    cases hmove with
    | store hm hauth hvalid =>
      rcases Dict.mem_items_getD_setIn hp with ⟨rfl, rfl⟩ | hp
      · exact (trusted_of_brings hc hm).mono extends_mid
      · exact hih.roundChanges t p hp
    | leave hch ht hr hwhy hrc =>
      rcases Dict.mem_items_getD_setIn hp with ⟨rfl, rfl⟩ | hp
      · exact hsent _ (List.mem_append_right _ List.mem_cons_self)
      · exact hih.roundChanges t p hp
    | _ => exact hih.roundChanges t p hp
  · intro m hm
    cases hmove with
    | prepare hopen hphase hblock hh hquorum hprior hm' =>
      obtain ⟨x, hx⟩ := Dict.mem_values.mp hm
      exact (hih.tallied.prepares _ _ hx).2
    | _ => exact hih.cert m hm

/-- In the course of a call of `k`, everything at hand is trusted. -/
lemma Supplied.during (hw : net.Supplied w k (w k)) (hc : ∀ m ∈ c.messages, net.Trusted w m)
    (hs : Reached (w k).engine c s) : net.Supplied (mid w k c s) k ((w k).during c s) := by
  induction hs with
  | refl =>
    have hsent : ((w k).during c ⟨(w k).engine, {}⟩).sent = (w k).sent := List.append_nil _
    have h := hw.mono (extends_mid (k := k) (c := c) (s := ⟨(w k).engine, {}⟩))
    exact { h with sent := fun m hm => h.sent m (hsent ▸ hm) }
  | tail hs hmove ih => exact hw.move hc hs ih hmove

variable (net) in
/-- Every correct validator is supplied. -/
def SuppliedWorld (w : World) : Prop := ∀ k, net.Correct k → net.Supplied w k (w k)

lemma SuppliedWorld.mid (hw : net.SuppliedWorld w) (hk : net.Correct k)
    (hc : ∀ m ∈ c.messages, net.Trusted w m) (hs : Reached (w k).engine c s) :
    net.SuppliedWorld (mid w k c s) := by
  intro k' hk'
  by_cases heq : k' = k
  · subst heq
    rw [mid_self]
    exact (hw k' hk').during hc hs
  · rw [mid_of_ne heq]
    exact (hw k' hk').mono extends_mid

lemma SuppliedWorld.of_begins (hw : net.Begins w) : net.SuppliedWorld w := by
  intro k hk
  obtain ⟨privateKey, previousHash, nowMs, journal, hkey, hlock, hnew⟩ := hw.engine k hk
  obtain ⟨hmem, he⟩ := ConsensusEngine.new_eq_ok.mp hnew
  refine ⟨?_, ?_, ?_, hw.lost k hk, ?_, ?_, ?_, ?_⟩
  · rw [he]
    exact hkey
  · rw [he]
    rfl
  · rw [he]
    rfl
  · rw [he]
    exact Tallied.initial hmem _ _ _ _
  · rw [hw.sent k hk]
    intro m hm
    cases hm
  · rw [he]
    intro t p hp
    cases hp
  · rw [he, ConsensusEngine.initial, hlock]
    intro m hm
    cases hm

end Network

end Helix
