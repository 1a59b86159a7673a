import Helix.Consensus.Delivery

/-!
# Schedules

Concrete runs of the network. In a turn, a correct validator makes a call, or is handed a message that
another correct one has sent; an act is a turn, or a message that a faulty validator signs. What the
validators of a schedule hold is trusted, so it can be delivered, and the schedule is a run.
-/

namespace Helix

variable [Crypto]

open Relation (ReflTransGen)

namespace Network

variable {net : Network} {w : World} {k : PublicKey} {c : Call}

/-! ### Turns -/

/-- A turn of a concrete run: a call of `k`, or the `i`-th message of `k` handed to `k'`. -/
inductive Turn where
  | pending (k : PublicKey) (records : List IntegrityRecord) (changes : List ValidatorChange)
  | timeout (k : PublicKey)
  | relay (k k' : PublicKey) (i : ℕ)

/-- The validators that take part in a turn. -/
def Turn.keys : Turn → List PublicKey
  | pending k _ _ => [k]
  | timeout k => [k]
  | relay k k' _ => [k, k']

/-- The world after a turn. -/
def Turn.play (w : World) : Turn → World
  | pending k records changes => Function.update w k ((w k).call (.setPending records changes))
  | timeout k => Function.update w k ((w k).call .onTimeout)
  | relay k k' i =>
    match (w k).sent[i]? with
    | some m => Function.update w k' ((w k').call (.handle m))
    | none => w

/-- Every schedule of turns of correct validators is a run. -/
lemma reaches_play {turns : List Turn} (hw : net.SuppliedWorld w)
    (hturns : ∀ t ∈ turns, ∀ k ∈ t.keys, net.Correct k) :
    ReflTransGen (net.CallStep net.Admits) w (turns.foldl Turn.play w) := by
  induction turns generalizing w with
  | nil => exact .refl
  | cons t turns ih =>
    have hkeys := hturns t List.mem_cons_self
    have hrest := fun t' ht' => hturns t' (List.mem_cons_of_mem t ht')
    have hgo : ∀ {k : PublicKey} {c : Call}, net.Correct k → (∀ m ∈ c.messages, net.Trusted w m) →
        ReflTransGen (net.CallStep net.Admits) w
          (turns.foldl Turn.play (Function.update w k ((w k).call c))) := fun hk hc =>
      .head (.call hk (.of_trusted hc)) (ih (hw.mid hk hc (Call.run_moves _ _)) hrest)
    cases t with
    | pending k records changes => exact hgo (hkeys k List.mem_cons_self) nofun
    | timeout k => exact hgo (hkeys k List.mem_cons_self) nofun
    | relay k k' i =>
      rw [List.foldl_cons, Turn.play]
      split
      · rename_i m hm
        refine hgo (hkeys k' (List.mem_cons_of_mem _ List.mem_cons_self)) fun m' hm' => ?_
        rw [List.mem_singleton.mp hm']
        exact (hw k (hkeys k List.mem_cons_self)).sent m (List.mem_of_getElem? hm)
      · exact ih hw hrest

/-! ### Acts -/

/-- A turn, or a message of the given type that a faulty validator signs for the round and the block of
the message at index `i` that `k` has sent, and hands to `k'`. -/
inductive Act where
  | turn (t : Turn)
  | echo (signer : PrivateKey) (type : MessageType) (k : PublicKey) (i : ℕ) (k' : PublicKey)

/-- The call of an act, and who makes it. -/
def Act.call (w : World) : Act → Option (PublicKey × Call)
  | turn (.pending k records changes) => some (k, .setPending records changes)
  | turn (.timeout k) => some (k, .onTimeout)
  | turn (.relay k k' i) => (w k).sent[i]?.map fun m => (k', .handle m)
  | echo signer type k i k' => do
    let m ← (w k).sent[i]?
    let m' ← (ConsensusMessage.create type m.height m.round m.blockHash signer).toOption
    return (k', .handle m')

def Act.play (w : World) (act : Act) : World :=
  match act.call w with
  | some (k, c) => Function.update w k ((w k).call c)
  | none => w

/-- Messages are relayed from correct validators and made by other ones. -/
def Act.fair (net : Network) : Act → Bool
  | turn (.relay k _ _) => net.Correct k
  | turn _ => true
  | echo signer _ _ _ _ => ¬net.Correct signer.publicKey

/-- Every act is a call of a correct validator that passes the check. -/
def goes (net : Network) (check : ConsensusEngine → Call → Bool) : World → List Act → Bool
  | _, [] => true
  | w, act :: acts =>
    (act.call w).all (fun p => decide (net.Correct p.1) && check (w p.1).engine p.2) &&
      goes net check (act.play w) acts

lemma Act.trusted {act : Act} (hw : net.SuppliedWorld w) (hfair : act.fair net = true)
    (hcall : act.call w = some (k, c)) : ∀ m ∈ c.messages, net.Trusted w m := by
  intro m hm
  rcases act with (⟨k₀, records, changes⟩ | k₀ | ⟨k₀, k', i⟩) | ⟨signer, type, k₀, i, k'⟩
  · cases hcall
    cases hm
  · cases hcall
    cases hm
  · obtain ⟨m', hm', heq⟩ := Option.map_eq_some_iff.mp hcall
    cases heq
    rw [List.mem_singleton.mp hm]
    exact (hw k₀ (of_decide_eq_true hfair)).sent m' (List.mem_of_getElem? hm')
  · simp only [call, Option.bind_eq_bind, Option.bind_eq_some_iff] at hcall
    obtain ⟨m₀, -, m', hm', heq⟩ := hcall
    cases heq
    rw [List.mem_singleton.mp hm]
    -- the message has no certificates, and nobody who could have signed it is correct
    cases hcreate : ConsensusMessage.create type m₀.height m₀.round m₀.blockHash signer with
    | error err =>
      rw [hcreate] at hm'
      cases hm'
    | ok m'' =>
      rw [hcreate] at hm'
      cases hm'
      obtain ⟨-, -, -, -, hsender, -, -, hprepared, hchanges⟩ := ConsensusMessage.create_eq hcreate
      refine .of_faulty hsender (of_decide_eq_true hfair) ?_ ?_
      · rw [hprepared]
        exact nofun
      · rw [hchanges]
        exact nofun

/-- A schedule of acts is a run; what the check of each call ensures holds at every call. -/
lemma reaches_acts {check : ConsensusEngine → Call → Bool} {ok : ConsensusEngine → Call → Prop}
    (hok : ∀ e c, e.validators = net.validators → check e c = true → ok e c) {acts : List Act}
    (hw : net.SuppliedWorld w) (hfair : ∀ act ∈ acts, act.fair net = true)
    (h : goes net check w acts = true) :
    ReflTransGen (net.CallStep fun w e c => net.Admits w e c ∧ ok e c) w (acts.foldl Act.play w) ∧
      net.SuppliedWorld (acts.foldl Act.play w) := by
  induction acts generalizing w with
  | nil => exact ⟨.refl, hw⟩
  | cons act acts ih =>
    rw [goes, Bool.and_eq_true] at h
    obtain ⟨hact, hrest⟩ := h
    have hfair' := fun act' hact' => hfair act' (List.mem_cons_of_mem act hact')
    rw [List.foldl_cons]
    cases hcall : act.call w with
    | none =>
      rw [Act.play, hcall] at hrest ⊢
      exact ih hw hfair' hrest
    | some p =>
      rw [Act.play, hcall] at hrest ⊢
      rw [hcall, Option.all_some, Bool.and_eq_true, decide_eq_true_eq] at hact
      obtain ⟨hk, hcheck⟩ := hact
      have hc := Act.trusted hw (hfair act List.mem_cons_self) hcall
      obtain ⟨hrun, hend⟩ := ih (hw.mid hk hc (Call.run_moves _ _)) hfair' hrest
      exact ⟨.head (.call hk ⟨.of_trusted hc, hok _ _ (hw p.1 hk).validators hcheck⟩) hrun, hend⟩

/-- A schedule of acts of correct validators is a run. -/
lemma reaches_fair {acts : List Act} (hw : net.SuppliedWorld w)
    (hfair : ∀ act ∈ acts, act.fair net = true) (h : goes net (fun _ _ => true) w acts = true) :
    ReflTransGen (net.CallStep net.Admits) w (acts.foldl Act.play w) ∧
      net.SuppliedWorld (acts.foldl Act.play w) := by
  obtain ⟨hrun, hend⟩ := reaches_acts (fun _ _ _ _ => trivial) hw hfair h
  exact ⟨ReflTransGen.mono (fun _ _ hstep => hstep.mono fun _ _ hc => hc.1) _ _ hrun, hend⟩

/-! ### Worlds -/

/-- The engines of `seedKey`s at the first height, over one journal. -/
def worldOver (journal : VoteJournal) (validators : ValidatorSet) (seed : PublicKey → UInt8) : World :=
  fun k => { engine := .ofSeed validators (seed k) journal }

/-- The validators of `seedKey`s at the first height, without a durable journal. -/
def worldOfSeed : ValidatorSet → (PublicKey → UInt8) → World := worldOver .null

/-- The same, each with an empty table for its journal. -/
def durableOfSeed : ValidatorSet → (PublicKey → UInt8) → World := worldOver (.sql (.openView [] 1))

section Seeds

variable {journal : VoteJournal} {seed : PublicKey → UInt8} (hheight : net.height = 1)
  (hseed : ∀ k ∈ net.validators.validators, net.Correct k → (seedKey (seed k)).publicKey = k)

include hseed

lemma me_worldOver (hk : net.Correct k) : (worldOver journal net.validators seed k).engine.me = k :=
  hseed k hk.1 hk

include hheight

lemma begins_worldOver (hjournal : journal.prepared = none) :
    net.Begins (worldOver journal net.validators seed) := by
  refine ⟨fun k hk => ?_, fun _ _ => rfl, fun _ _ => rfl, fun _ _ => rfl⟩
  have hkey := hseed k hk.1 hk
  refine ⟨seedKey (seed k), ZERO_HASH, fun i => i, journal, hkey, hjournal, ?_⟩
  rw [hheight]
  refine ConsensusEngine.new_eq_ok.mpr ⟨?_, rfl⟩
  rw [hkey]
  exact hk.1

lemma begins_worldOfSeed : net.Begins (worldOfSeed net.validators seed) :=
  begins_worldOver hheight hseed rfl

lemma begins_durableOfSeed : net.Begins (durableOfSeed net.validators seed) :=
  begins_worldOver hheight hseed rfl

end Seeds

/-- A validator restarts between two calls. -/
def restart (w : World) (k : PublicKey) : World :=
  Function.update w k ((w k).restart fun i => i)

lemma SuppliedWorld.restart (hw : net.SuppliedWorld w) (hk : net.Correct k)
    (hlock : ((w k).restart fun i => i).engine.preparedCert = []) :
    net.SuppliedWorld (restart w k) := by
  have hext : Extends w (Network.restart w k) := by
    intro k' m hm
    by_cases heq : k' = k
    · subst heq
      rw [Network.restart, Function.update_self]
      simpa [Validator.restart, Validator.reboot] using hm
    · rwa [Network.restart, Function.update_of_ne heq]
  intro k' hk'
  by_cases heq : k' = k
  · subst heq
    have hv := (hw k' hk').mono hext
    have hself : Network.restart w k' k' = (w k').restart fun i => i := Function.update_self ..
    rw [hself]
    refine ⟨hv.me, hv.validators, hv.height, ?_, .initial hv.tallied.me _ _ _ _, hv.sent, ?_, ?_⟩
    · simpa [Validator.restart, Validator.reboot] using hv.lost
    · intro t p hp
      cases hp
    · rw [hlock]
      exact nofun
  · have hother : Network.restart w k k' = w k' := Function.update_of_ne heq ..
    rw [hother]
    exact (hw k' hk').mono hext

/-! ### One of four is faulty -/

/-- Four validators, the last one faulty. -/
def oneFaulty : Network := ⟨.quartet, 1, {seedPublic 0xdd}, by decide⟩

/-- The seed of a correct validator of the four. -/
def quartetSeed (k : PublicKey) : UInt8 :=
  if k = seedPublic 0xaa then 0xaa else if k = seedPublic 0xbb then 0xbb else 0xcc

omit [Crypto] in
lemma publicKey_quartetSeed : letI := Crypto.checksums
    ∀ k ∈ oneFaulty.validators.validators, oneFaulty.Correct k →
      (seedKey (quartetSeed k)).publicKey = k := by
  decide +kernel

/-- In round 0, `a` decides the block of `b` with a COMMIT of the faulty validator, before `c` has any
vote. The others time out; `c` proposes the block that `b` is locked on again in round 1, and decides it
with votes of the faulty validator. -/
def lockedActs : List Act :=
  let a := seedPublic 0xaa
  let b := seedPublic 0xbb
  let c := seedPublic 0xcc
  let d (type : MessageType) := Act.echo (seedKey 0xdd) type
  [ -- round 0
    .turn (.pending b [] [⟨.ADD, []⟩]), .turn (.relay b a 0), .turn (.relay b c 0), .turn (.relay b a 1),
    .turn (.relay c a 0), .turn (.relay a b 0), .turn (.relay c b 0), .turn (.relay b a 2), d .COMMIT b 2 a,
    -- round 1
    .turn (.timeout b), .turn (.timeout c), .turn (.relay b c 3), d .ROUND_CHANGE b 3 c,
    .turn (.relay c b 2), .turn (.relay b c 4), d .PREPARE c 3 c, .turn (.relay c b 3), d .PREPARE c 3 b,
    .turn (.relay b c 5), d .COMMIT b 5 c]

/-- The world after these acts. -/
def lockedWorld : World :=
  letI := Crypto.checksums
  lockedActs.foldl Act.play (worldOfSeed .quartet quartetSeed)

end Network

end Helix
