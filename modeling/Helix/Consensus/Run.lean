import Helix.Consensus.Refinement

/-!
# Runs of one validator

A validator is an engine together with everything handed to it, sent by it and decided by it so far.
A run is a sequence of calls and of crashes; after a crash a new engine is built over the rows that
reached the durable journal. `Validator.call_induction` reduces what holds after a call to what its
moves keep.
-/

namespace Helix

variable [Crypto]

open Relation (ReflTransGen)

/-- An engine with its history. `lost` lists the messages that were created in calls cut short by a
crash. -/
structure Validator where
  engine : ConsensusEngine
  received : List ConsensusMessage := []
  sent : List ConsensusMessage := []
  decided : List Block := []
  lost : List ConsensusMessage := []

namespace Validator

/-- The validator in the course of a call. What the call has put into its result counts as sent,
even if the call then raises and the result is lost. -/
def during (v : Validator) (c : Call) (s : Frame) : Validator where
  engine := s.engine
  received := v.received ++ c.messages
  sent := v.sent ++ s.result.broadcast
  decided := v.decided ++ s.result.committed.toList
  lost := v.lost

/-- The validator after a call. -/
def call (v : Validator) (c : Call) : Validator := v.during c (c.run v.engine).2

/-- What every move of a call keeps holds in the course of the call. -/
lemma during_induction {P : Validator → Prop} (v : Validator) (c : Call)
    (hstart : P (v.during c ⟨v.engine, {}⟩))
    (hmove : ∀ s s', Reached v.engine c s → P (v.during c s) → Move v.engine c s s' →
      P (v.during c s')) {s : Frame} (hs : Reached v.engine c s) : P (v.during c s) := by
  induction hs with
  | refl => exact hstart
  | tail hs hm ih => exact hmove _ _ hs ih hm

/-- What every move of a call keeps holds after the call. -/
lemma call_induction {P : Validator → Prop} (v : Validator) (c : Call)
    (hstart : P (v.during c ⟨v.engine, {}⟩))
    (hmove : ∀ s s', Reached v.engine c s → P (v.during c s) → Move v.engine c s s' →
      P (v.during c s')) : P (v.call c) :=
  v.during_induction c hstart hmove (c.run_moves v.engine)

section Sent

variable {v : Validator} {c : Call} {s : Frame} {a : ConsensusMessage}

omit [Crypto] in
lemma sent_send (ms : List ConsensusMessage) :
    (v.during c (s.send ms)).sent = (v.during c s).sent ++ ms :=
  (List.append_assoc _ _ _).symm

omit [Crypto] in
lemma mem_sent_accept {pre : List ConsensusMessage} {block : Block} {h : PyStr}
    {m : ConsensusMessage} : a ∈ (v.during c ((s.send pre).accept block h m)).sent ↔
      a ∈ (v.during c s).sent ∨ a ∈ pre ∨ a = m := by
  simp [during, Frame.accept, Frame.send, Frame.mapEngine, or_assoc]

lemma mem_sent_prepare {block : Block} {h : PyStr} {m : ConsensusMessage} :
    a ∈ (v.during c (s.prepare block h m)).sent ↔ a ∈ (v.during c s).sent ∨ a = m := by
  simp [during, Frame.prepare, Frame.send, Frame.mapEngine, or_assoc]

lemma mem_sent_leave {target : ℤ} {m : ConsensusMessage} :
    a ∈ (v.during c (s.leave target m)).sent ↔ a ∈ (v.during c s).sent ∨ a = m := by
  simp [during, Frame.leave, Frame.send, Frame.mapEngine, or_assoc]

end Sent

/-- The validator after a crash in call `c`, with a new engine over `table`. -/
def reboot (v : Validator) (c : Call) (lost : List ConsensusMessage) (nowMs : ℕ → ℤ)
    (table : List WalRow) : Validator :=
  { v with
    engine := .initial v.engine.validators v.engine.privateKey v.engine.height
      v.engine.previousHash nowMs (.sql (.openView table v.engine.height))
    received := v.received ++ c.messages
    lost := v.lost ++ lost }

/-- One step of a run whose calls satisfy `ok`: a call, or a crash in the middle of one. The rows and
the messages that the call had made by then are first parts of what it would have made, and a vote
is created only after its row was written. -/
inductive Step (ok : ConsensusEngine → Call → Prop) (v : Validator) : Validator → Prop
  | call (c : Call) (hc : ok v.engine c) : Step ok v (v.call c)
  | crash (c : Call) (hc : ok v.engine c) {table : List WalRow} {lost : List ConsensusMessage}
      {nowMs : ℕ → ℤ} (hbefore : v.engine.journal.table <+: table)
      (hafter : table <+: (v.call c).engine.journal.table)
      (hlost : v.sent ++ lost <+: (v.call c).sent)
      (hvotes : ∀ m ∈ lost, ∀ p : VotePhase, m.type = p.toMessageType →
        ⟨v.engine.height, m.round, .vote p m.blockHash⟩ ∈ table)
      (hnew : ∃ e, ConsensusEngine.new v.engine.validators v.engine.privateKey v.engine.height
        v.engine.previousHash nowMs (.sql (.openView table v.engine.height)) = .ok e) :
      Step ok v (v.reboot c lost nowMs table)

/-- A crash between two calls: a new engine over the journal as it stands. -/
def restart (v : Validator) (nowMs : ℕ → ℤ) : Validator :=
  v.reboot .onTimeout [] nowMs v.engine.journal.table

/-- A run of calls without crashes. -/
def Calls (ok : ConsensusEngine → Call → Prop) : Validator → Validator → Prop :=
  ReflTransGen fun v v' => ∃ c, ok v.engine c ∧ v' = v.call c

/-- Calls are steps. -/
lemma Calls.steps {ok : ConsensusEngine → Call → Prop} {v v' : Validator} (h : Calls ok v v') :
    ReflTransGen (Step ok) v v' := by
  refine ReflTransGen.mono (fun w w' hstep => ?_) _ _ h
  obtain ⟨c, hc, rfl⟩ := hstep
  exact .call c hc

/-- A list of calls, each of a kind that may be made on any engine. -/
lemma Calls.of_forall {P : Call → Prop} (v : Validator) {cs : List Call} (h : ∀ c ∈ cs, P c) :
    Calls (fun _ c => P c) v (cs.foldl call v) := by
  induction cs generalizing v with
  | nil => exact .refl
  | cons c cs ih =>
    exact .head ⟨c, h c List.mem_cons_self, rfl⟩
      (ih (v.call c) fun c' hc' => h c' (List.mem_cons_of_mem _ hc'))

/-- Every call of the list passes a check on the engine that it is made on. -/
def passes (check : ConsensusEngine → Call → Bool) (v : Validator) : List Call → Bool
  | [] => true
  | c :: cs => check v.engine c && passes check (v.call c) cs

lemma Calls.of_passes {ok : ConsensusEngine → Call → Prop} {check : ConsensusEngine → Call → Bool}
    (hcheck : ∀ e c, check e c = true → ok e c) {v : Validator} {cs : List Call}
    (h : v.passes check cs = true) : Calls ok v (cs.foldl call v) := by
  induction cs generalizing v with
  | nil => exact .refl
  | cons c cs ih =>
    obtain ⟨hc, hcs⟩ := Bool.and_eq_true_iff.mp h
    exact .head ⟨c, hcheck v.engine c hc, rfl⟩ (ih hcs)

end Validator

/-- A call keeps the engine's parameters. -/
lemma Validator.since_call (v : Validator) (c : Call) : Since v.engine c (v.call c).engine :=
  (c.run_moves v.engine).since

lemma ConsensusEngine.new_eq_ok {validators : ValidatorSet} {privateKey : PrivateKey} {height : ℤ}
    {previousHash : PyStr} {nowMs : ℕ → ℤ} {journal : VoteJournal} {e : ConsensusEngine} :
    new validators privateKey height previousHash nowMs journal = .ok e ↔
      privateKey.publicKey ∈ validators.validators ∧
        e = initial validators privateKey height previousHash nowMs journal := by
  unfold new
  split_ifs with hmem
  · rw [Except.ok.injEq, eq_comm, and_iff_right ((validators.contains_iff _).mp hmem)]
  · rw [ValidatorSet.contains_iff] at hmem
    simp [hmem]

lemma ConsensusEngine.roundChange_eq {e : ConsensusEngine} {target : ℤ} {m : ConsensusMessage}
    (h : e.roundChange target = .ok m) :
    m.type = .ROUND_CHANGE ∧ m.height = e.height ∧ m.round = target ∧
      e.lockHash = .ok m.blockHash ∧ m.sender = e.me.toHex ∧ m.block = e.preparedBlock ∧
      m.preparedRound = e.preparedRound ∧
      m.preparedCert = (if e.preparedBlock.isSome then e.preparedCert else []) ∧
      m.verifySignature = .ok true := by
  simp only [roundChange, bind, Except.bind] at h
  split at h
  · cases h
  · rename_i hash hhash
    obtain ⟨h1, h2, h3, h4, h5, h6, h7, h8, -⟩ := ConsensusMessage.create_eq h
    exact ⟨h1, h2, h3, h4 ▸ hhash, h5, h6, h7, h8, ConsensusMessage.create_verifySignature h⟩

/-- A ROUND_CHANGE carries no certificate of ROUND_CHANGEs. -/
lemma ConsensusEngine.roundChangeCert_roundChange {e : ConsensusEngine} {target : ℤ}
    {m : ConsensusMessage} (h : e.roundChange target = .ok m) : m.roundChangeCert = [] := by
  simp only [roundChange, bind, Except.bind] at h
  split at h
  · cases h
  · exact (ConsensusMessage.create_eq h).2.2.2.2.2.2.2.2

lemma Call.Origin.types {c : Call} {e₀ e : ConsensusEngine} {block : Block}
    {pre : List ConsensusMessage} (h : c.Origin e₀ e block pre) :
    ∀ m ∈ pre, m.type = .PRE_PREPARE := by
  cases h with
  | own hp hh hm =>
    intro m hmem
    rw [List.mem_singleton.mp hmem]
    exact (ConsensusMessage.create_eq hm).1
  | peer => exact fun m hm => by cases hm

/-! ### What a move adds to the result -/

section Result

variable {e₀ : ConsensusEngine} {c : Call} {s s' : Frame}

/-- Messages are only added to the result, after those that are in it. -/
lemma Move.broadcast_isPrefix (h : Move e₀ c s s') :
    s.result.broadcast <+: s'.result.broadcast := by
  cases h with
  | leave => exact List.prefix_append _ _
  | accept => exact (List.prefix_append _ _).trans (List.prefix_append _ _)
  | refuse => exact List.prefix_append _ _
  | prepare => exact List.prefix_append _ _
  | _ => exact List.prefix_refl _

/-- The result only grows. -/
lemma Move.broadcast_subset (h : Move e₀ c s s') : s.result.broadcast ⊆ s'.result.broadcast :=
  h.broadcast_isPrefix.subset

/-- The call can bring the engine, which has become `e`, to PREPARED on `h`. -/
structure Call.Locks (c : Call) (e₀ e : ConsensusEngine) (h : PyStr) : Prop where
  opens : c.Opens e₀ e.round
  phase : e.phase = .PRE_PREPARED
  proposal : ∃ block, e.proposal = some block ∧ block.hash = .ok h
  quorum : e.validators.quorum ≤ (e.prepares.getD h).len

/-- What a call on `e₀` sends when its engine has become `e`: a proposal, a vote for a proposal of
the round, a vote for a block with a quorum of PREPAREs, or a ROUND_CHANGE for the target of a timeout
or for a round that `f + 1` entries ask for. -/
inductive Call.Sends (c : Call) (e₀ e : ConsensusEngine) (m : ConsensusMessage) : Prop
  | proposal {block : Block} {cert : List ConsensusMessage} {h : PyStr} (ht : m.type = .PRE_PREPARE)
      (hp : c.Proposes e₀ e block cert) (hh : block.hash = .ok h)
      (hm : ConsensusMessage.create .PRE_PREPARE e.height e.round h e.privateKey (some block) none
        [] cert = .ok m)
  | prepare {block : Block} {pre : List ConsensusMessage} (ht : m.type = .PREPARE)
      (horigin : c.Origin e₀ e block pre) (hh : block.hash = .ok m.blockHash)
      (hr : m.round = e.round)
  | commit (ht : m.type = .COMMIT) (hlocks : c.Locks e₀ e m.blockHash) (hr : m.round = e.round)
  | roundChange (ht : m.type = .ROUND_CHANGE)
      (hwhy : (c = .onTimeout ∧ m.round = e₀.nextTarget) ∨
        e₀.validators.maxFaulty + 1 ≤ (e.roundChanges.getD m.round).len)

lemma Call.Origin.sends {block : Block} {pre : List ConsensusMessage} {e : ConsensusEngine}
    (h : c.Origin e₀ e block pre) {m : ConsensusMessage} (hm : m ∈ pre) : c.Sends e₀ e m := by
  have ht := h.types m hm
  cases h with
  | own hp hh hcreate =>
    rw [List.mem_singleton.mp hm] at ht ⊢
    exact .proposal ht hp hh hcreate
  | peer => cases hm

/-- The messages that a move adds to the result. -/
lemma Move.sends (h : Move e₀ c s s') {m : ConsensusMessage} (hm : m ∈ s'.result.broadcast) :
    m ∈ s.result.broadcast ∨ c.Sends e₀ s.engine m := by
  cases h with
  | leave hch htarget hr hwhy hrc =>
    obtain ⟨ht, -, hround, -⟩ := ConsensusEngine.roundChange_eq hrc
    refine (List.mem_append.mp hm).imp_right fun hm => ?_
    rw [List.mem_singleton.mp hm]
    exact .roundChange ht (hround.symm ▸ hwhy)
  | accept horigin hphase hh hprior hcreate =>
    rcases List.mem_append.mp hm with hm | hm
    · exact (List.mem_append.mp hm).imp_right horigin.sends
    · obtain ⟨ht, -, hround, hhash, -⟩ := ConsensusMessage.create_eq hcreate
      rw [List.mem_singleton.mp hm]
      exact Or.inr (.prepare ht horigin (hhash.symm ▸ hh) hround)
  | refuse horigin => exact (List.mem_append.mp hm).imp_right horigin.sends
  | prepare hopen hphase hblock hh hquorum hprior hcreate =>
    obtain ⟨ht, -, hround, hhash, -⟩ := ConsensusMessage.create_eq hcreate
    refine (List.mem_append.mp hm).imp_right fun hm => ?_
    rw [List.mem_singleton.mp hm]
    exact .commit ht (hhash.symm ▸ ⟨hopen, hphase, ⟨_, hblock, hh⟩, hquorum⟩) hround
  | _ => exact Or.inl hm

/-- Every message of the result was sent by a frame of the call. -/
lemma Reached.sends (hs : Reached e₀ c s) {m : ConsensusMessage} (hm : m ∈ s.result.broadcast) :
    ∃ s₁, Reached e₀ c s₁ ∧ c.Sends e₀ s₁.engine m := by
  induction hs with
  | refl => cases hm
  | @tail s₁ _ hs hmove ih =>
    rcases hmove.sends hm with hm | hsends
    · exact ih hm
    · exact ⟨s₁, hs, hsends⟩

/-- A proposal is made of a block that the call proposes. -/
lemma Call.Sends.proposes {e : ConsensusEngine} {m : ConsensusMessage} (h : c.Sends e₀ e m)
    (ht : m.type = .PRE_PREPARE) : ∃ block cert x, c.Proposes e₀ e block cert ∧ block.hash = .ok x ∧
      ConsensusMessage.create .PRE_PREPARE e.height e.round x e.privateKey (some block) none [] cert =
        .ok m := by
  cases h with
  | proposal _ hp hh hm => exact ⟨_, _, _, hp, hh, hm⟩
  | prepare ht' => rw [ht'] at ht; cases ht
  | commit ht' => rw [ht'] at ht; cases ht
  | roundChange ht' => rw [ht'] at ht; cases ht

/-- A new PREPARE is for a proposal of the round. -/
lemma Move.prepare_cases (h : Move e₀ c s s') {m : ConsensusMessage}
    (hm : m ∈ s'.result.broadcast) (ht : m.type = .PREPARE) : m ∈ s.result.broadcast ∨
      ∃ block pre, c.Origin e₀ s.engine block pre ∧ block.hash = .ok m.blockHash ∧
        m.round = s.engine.round := by
  refine (h.sends hm).imp_right fun hsends => ?_
  cases hsends with
  | prepare _ horigin hh hr => exact ⟨_, _, horigin, hh, hr⟩
  | proposal ht' => rw [ht'] at ht; cases ht
  | commit ht' => rw [ht'] at ht; cases ht
  | roundChange ht' => rw [ht'] at ht; cases ht

/-- A new COMMIT is for a block with a quorum of PREPAREs. -/
lemma Move.commit_cases (h : Move e₀ c s s') {m : ConsensusMessage}
    (hm : m ∈ s'.result.broadcast) (ht : m.type = .COMMIT) : m ∈ s.result.broadcast ∨
      c.Locks e₀ s.engine m.blockHash ∧ m.round = s.engine.round := by
  refine (h.sends hm).imp_right fun hsends => ?_
  cases hsends with
  | commit _ hlocks hr => exact ⟨hlocks, hr⟩
  | proposal ht' => rw [ht'] at ht; cases ht
  | prepare ht' => rw [ht'] at ht; cases ht
  | roundChange ht' => rw [ht'] at ht; cases ht

/-- A new ROUND_CHANGE is for the target of a timeout, or for a round that `f + 1` entries ask for. -/
lemma Move.roundChange_cases (h : Move e₀ c s s') {m : ConsensusMessage}
    (hm : m ∈ s'.result.broadcast) (ht : m.type = .ROUND_CHANGE) : m ∈ s.result.broadcast ∨
      (c = .onTimeout ∧ m.round = e₀.nextTarget) ∨
        e₀.validators.maxFaulty + 1 ≤ (s.engine.roundChanges.getD m.round).len := by
  refine (h.sends hm).imp_right fun hsends => ?_
  cases hsends with
  | roundChange _ hwhy => exact hwhy
  | proposal ht' => rw [ht'] at ht; cases ht
  | prepare ht' => rw [ht'] at ht; cases ht
  | commit ht' => rw [ht'] at ht; cases ht

/-- A new decision has a quorum of seals. -/
lemma Move.committed_cases (h : Move e₀ c s s') {b : Block} (hb : s'.result.committed = some b) :
    s.result.committed = some b ∨ ∃ block x, block.hash = .ok x ∧
      s.engine.validators.quorum ≤ (s.engine.commits.getD x).len ∧
      attachSeals (s.engine.commits.getD x) block = .ok b := by
  cases h with
  | finalize hclose hphase hblock hh hquorum hseal =>
    cases hb
    exact Or.inr ⟨_, _, hh, hquorum, hseal⟩
  | _ => exact Or.inl hb

end Result

/-! ### Facts about a call in progress, relative to its start -/

section Relative

variable {e₀ : ConsensusEngine} {c : Call} {s s' : Frame}

/-- What a call sends is signed by the engine, for its height. -/
structure SentBy (e : ConsensusEngine) (m : ConsensusMessage) : Prop where
  height : m.height = e.height
  sender : m.sender = e.me.toHex
  signature : m.verifySignature = .ok true

lemma SentBy.of_create {e : ConsensusEngine} {type : MessageType} {round : ℤ} {h : PyStr}
    {block : Option Block} {preparedRound : Option ℤ} {cert cert' : List ConsensusMessage}
    {m : ConsensusMessage} (hm : ConsensusMessage.create type e.height round h e.privateKey block
      preparedRound cert cert' = .ok m) : SentBy e m := by
  obtain ⟨-, hheight, -, -, hsender, -⟩ := ConsensusMessage.create_eq hm
  exact ⟨hheight, hsender, ConsensusMessage.create_verifySignature hm⟩

lemma SentBy.since {e : ConsensusEngine} (he : Since e₀ c e) {m : ConsensusMessage}
    (hm : SentBy e m) : SentBy e₀ m :=
  ⟨hm.height.trans he.height, he.me ▸ hm.sender, hm.signature⟩

lemma Reached.sentBy (hs : Reached e₀ c s) {m : ConsensusMessage} (hm : m ∈ s.result.broadcast) :
    SentBy e₀ m := by
  induction hs with
  | refl => cases hm
  | @tail s _ hs hmove ih =>
    have hsince := Reached.since hs
    have hpre : ∀ {block pre}, c.Origin e₀ s.engine block pre → m ∈ pre → SentBy e₀ m := by
      intro block pre horigin hmem
      cases horigin with
      | own hp hh hpre =>
        rw [List.mem_singleton.mp hmem]
        exact (SentBy.of_create hpre).since hsince
      | peer => cases hmem
    cases hmove with
    | leave hch ht hr hwhy hrc =>
      rcases List.mem_append.mp hm with hm | hm
      · exact ih hm
      · obtain ⟨-, hheight, -, -, hsender, -, -, -, hsig⟩ := ConsensusEngine.roundChange_eq hrc
        rw [List.mem_singleton.mp hm]
        exact SentBy.since hsince ⟨hheight, hsender, hsig⟩
    | accept horigin hphase hh hprior hcreate =>
      rcases List.mem_append.mp hm with hm | hm
      · rcases List.mem_append.mp hm with hm | hm
        · exact ih hm
        · exact hpre horigin hm
      · rw [List.mem_singleton.mp hm]
        exact (SentBy.of_create hcreate).since hsince
    | refuse horigin hphase hh hprior hne =>
      rcases List.mem_append.mp hm with hm | hm
      · exact ih hm
      · exact hpre horigin hm
    | prepare hopen hphase hblock hh hquorum hprior hcreate =>
      rcases List.mem_append.mp hm with hm | hm
      · exact ih hm
      · rw [List.mem_singleton.mp hm]
        exact (SentBy.of_create hcreate).since hsince
    | _ => exact ih hm

/-- The senders whose PREPARE for `(r, h)` the call can count: the own one, those tallied, and those of
votes that are kept or pass the first checks. -/
def prepareHolders (e : ConsensusEngine) (c : Call) (r : ℤ) (h : PyStr) : Finset PyStr :=
  insert e.me.toHex (((e.prepares.getD h).keys.filter fun _ => r = e.round) ++
    ((e.buffer ++ c.messages.filter fun m =>
      m.height = e.height ∧ authentic e.validators m = .ok true).filter fun m =>
        m.type = .PREPARE ∧ m.round = r ∧ m.blockHash = h).map (·.sender)).toFinset

/-- The senders whose ROUND_CHANGE for `t` the engine holds, with the one handed in. -/
def changeSenders (e : ConsensusEngine) (c : Call) (t : ℤ) : Finset PyStr :=
  ((e.roundChanges.getD t).keys ++
    (c.messages.filter fun m => m.type = .ROUND_CHANGE ∧ m.round = t).map (·.sender)).toFinset

/-- A ROUND_CHANGE that the engine can count is stored or handed in. -/
lemma mem_of_changeSenders {e : ConsensusEngine} {t : ℤ} (h : (changeSenders e c t).Nonempty) :
    t ∈ e.roundChanges.keys ∨ ∃ m ∈ c.messages, m.type = .ROUND_CHANGE ∧ m.round = t := by
  obtain ⟨k, hk⟩ := h
  rcases List.mem_append.mp (List.mem_toFinset.mp hk) with hk | hk
  · exact Or.inl (Dict.mem_keys_of_mem_getD hk)
  · obtain ⟨m, hm, -⟩ := List.mem_map.mp hk
    obtain ⟨hm, hp⟩ := List.mem_filter.mp hm
    exact Or.inr ⟨m, hm, of_decide_eq_true hp⟩

/-- A quorum of two has somebody other than the engine. -/
lemma exists_changer {e : ConsensusEngine} {t : ℤ} (hquorum : 2 ≤ e.validators.quorum)
    (h : e.validators.quorum ≤ (insert e.me.toHex (changeSenders e c t)).card) :
    (changeSenders e c t).Nonempty := by
  rw [Finset.nonempty_iff_ne_empty]
  intro hempty
  rw [hempty, insert_empty_eq, Finset.card_singleton] at h
  omega

/-- The call can bring the engine to PREPARED on `h` in round `r`: `h` is the hash of the proposal that
the engine has or is handed, the votes at hand suffice, and so do the ROUND_CHANGEs if the round is to
be adopted on them. -/
structure CanPrepare (e : ConsensusEngine) (c : Call) (r : ℤ) (h : PyStr) : Prop where
  opens : c.Opens e r
  proposal : e.round = r → e.phase = .PRE_PREPARED → ∃ block, e.proposal = some block ∧ block.hash = .ok h
  proposed : ∀ m, c.Handles e .PRE_PREPARE m → m.blockHash = h
  votes : e.validators.quorum ≤ (prepareHolders e c r h).card
  changes : c.Changing e → e.validators.quorum ≤ (insert e.me.toHex (changeSenders e c r)).card

/-- The rounds for which the engine has sent a ROUND_CHANGE, or will in this call. -/
def Announces (e : ConsensusEngine) (c : Call) (t : ℤ) : Prop :=
  t ∈ e.rcSent ∨ c.Changing e ∧
    ((c = .onTimeout ∧ t = e.nextTarget) ∨ e.validators.maxFaulty + 1 ≤ (changeSenders e c t).card)

/-- Every counted PREPARE is one of those at hand. -/
lemma Reached.prepares_subset (hs : Reached e₀ c s) (h : PyStr) :
    (s.engine.prepares.getD h).keys.toFinset ⊆ prepareHolders e₀ c s.engine.round h := by
  induction hs with
  | refl =>
    intro k hk
    refine Finset.mem_insert_of_mem (List.mem_toFinset.mpr (List.mem_append_left _ ?_))
    simpa using hk
  | tail hs hmove ih =>
    have hsince := Reached.since hs
    cases hmove with
    | adopt hr => simp [ConsensusEngine.startRound, Frame.mapEngine]
    | tallyPrepare hm ht hround =>
      rename_i m
      intro k hk
      rw [List.mem_toFinset] at hk
      rcases Dict.mem_keys_getD_setIn.mp hk with ⟨rfl, rfl⟩ | hk
      · refine Finset.mem_insert_of_mem (List.mem_toFinset.mpr (List.mem_append_right _ ?_))
        refine List.mem_map.mpr ⟨m, List.mem_filter.mpr ⟨?_, by simp [ht, hround, Frame.mapEngine]⟩, rfl⟩
        rcases hm with ⟨rfl, hacc⟩ | hm
        · refine List.mem_append_right _ (List.mem_filter.mpr ⟨List.mem_cons_self, ?_⟩)
          exact decide_eq_true ⟨hacc.height, hacc.authentic⟩
        · exact List.mem_append_left _ hm
      · exact ih (List.mem_toFinset.mpr hk)
    | accept horigin hphase hh hprior hm =>
      obtain ⟨-, -, -, hhash, hsender, -⟩ := ConsensusMessage.create_eq hm
      intro k hk
      rw [List.mem_toFinset] at hk
      rcases Dict.mem_keys_getD_setIn.mp hk with ⟨-, rfl⟩ | hk
      · rw [hsender]
        refine Finset.mem_insert.mpr (Or.inl ?_)
        exact congrArg PublicKey.toHex hsince.me
      · exact ih (List.mem_toFinset.mpr hk)
    | _ => exact ih

lemma Call.Changing.type_eq (hc : c.Changing e₀) {m : ConsensusMessage} (hm : c = .handle m) :
    m.type = .ROUND_CHANGE := by
  rcases hc with ⟨h, -⟩ | ⟨m', ⟨h, -, ht⟩, -⟩
  · rw [hm] at h
    cases h
  · rw [hm] at h
    cases h
    exact ht

lemma Call.Changing.not_enters (hc : c.Changing e₀) {m : ConsensusMessage} :
    ¬c.Enters e₀ m := by
  intro hm
  have ht := hc.type_eq hm.handles.eq
  rw [hm.handles.type] at ht
  cases ht

/-- Every stored ROUND_CHANGE is one of those at hand, or the engine's own. -/
lemma Reached.roundChanges_subset (hs : Reached e₀ c s) (hc : c.Changing e₀) (t : ℤ) :
    (s.engine.roundChanges.getD t).keys.toFinset ⊆ insert e₀.me.toHex (changeSenders e₀ c t) ∧
      (t ∉ s.engine.rcSent →
        (s.engine.roundChanges.getD t).keys.toFinset ⊆ changeSenders e₀ c t) := by
  induction hs with
  | refl =>
    have hsub : (e₀.roundChanges.getD t).keys.toFinset ⊆ changeSenders e₀ c t := by
      rw [changeSenders, List.toFinset_append]
      exact Finset.subset_union_left
    exact ⟨hsub.trans (Finset.subset_insert _ _), fun _ => hsub⟩
  | tail hs hmove ih =>
    have hsince := Reached.since hs
    cases hmove with
    | store hm hauth hvalid =>
      rename_i m
      have hmem : m.sender ∈ changeSenders e₀ c m.round := by
        rcases hm with ⟨⟨rfl, -, ht⟩, -⟩ | ⟨p, hp, -⟩
        · simp [changeSenders, Call.messages, ht]
        · exact absurd hp hc.not_enters
      constructor
      · intro k hk
        rw [List.mem_toFinset] at hk
        rcases Dict.mem_keys_getD_setIn.mp hk with ⟨rfl, rfl⟩ | hk
        · exact Finset.mem_insert_of_mem hmem
        · exact ih.1 (List.mem_toFinset.mpr hk)
      · intro ht k hk
        rw [List.mem_toFinset] at hk
        rcases Dict.mem_keys_getD_setIn.mp hk with ⟨rfl, rfl⟩ | hk
        · exact hmem
        · exact ih.2 ht (List.mem_toFinset.mpr hk)
    | leave _ ht' hr hwhy hm =>
      constructor
      · intro k hk
        rw [List.mem_toFinset] at hk
        rcases Dict.mem_keys_getD_setIn.mp hk with ⟨-, rfl⟩ | hk
        · exact Finset.mem_insert.mpr (Or.inl (congrArg PublicKey.toHex hsince.me))
        · exact ih.1 (List.mem_toFinset.mpr hk)
      · intro ht k hk
        have hne := List.ne_of_not_mem_cons ht
        rw [List.mem_toFinset] at hk
        rcases Dict.mem_keys_getD_setIn.mp hk with ⟨h, -⟩ | hk
        · exact absurd h hne
        · exact ih.2 (List.not_mem_of_not_mem_cons ht) (List.mem_toFinset.mpr hk)
    | _ => exact ih

/-- Every ROUND_CHANGE sent was announced. -/
lemma Reached.announces (hs : Reached e₀ c s) {t : ℤ} (ht : t ∈ s.engine.rcSent) :
    Announces e₀ c t := by
  induction hs with
  | refl => exact Or.inl ht
  | tail hs hmove ih =>
    cases hmove with
    | leave hc hnot hr hwhy hm =>
      rcases List.mem_cons.mp ht with rfl | ht
      · refine Or.inr ⟨hc, hwhy.imp_right fun hlen => ?_⟩
        rw [Dict.len_eq_card] at hlen
        exact hlen.trans (Finset.card_le_card ((Reached.roundChanges_subset hs hc t).2 hnot))
      · exact ih ht
    | _ => exact ih ht

/-- A round adopted on ROUND_CHANGEs has a quorum of them. -/
lemma Reached.adopted_quorum (hs : Reached e₀ c s) (hc : c.Changing e₀)
    (hr : e₀.round < s.engine.round) :
    e₀.validators.quorum ≤ (s.engine.roundChanges.getD s.engine.round).len := by
  induction hs with
  | refl => exact absurd hr (lt_irrefl _)
  | tail hs hmove ih =>
    cases hmove with
    | store => exact (ih hr).trans (Dict.len_getD_le_setIn _ _ _ _ _)
    | leave => exact (ih hr).trans (Dict.len_getD_le_setIn _ _ _ _ _)
    | adopt hlt hnone hwhy =>
      rcases hwhy with ⟨-, hq⟩ | ⟨m, hm, -⟩
      · exact hq
      · exact absurd hm hc.not_enters
    | _ => exact ih hr

/-- An engine that is PRE_PREPARED keeps its proposal as long as it stays so in the round. -/
lemma Reached.proposal_eq (hs : Reached e₀ c s) (hr : e₀.round = s.engine.round)
    (hphase : e₀.phase = .PRE_PREPARED) : s.engine.phase ≠ .NEW_ROUND ∧
      (s.engine.phase = .PRE_PREPARED → s.engine.proposal = e₀.proposal) := by
  induction hs with
  | refl => exact ⟨by rw [hphase]; decide, fun _ => rfl⟩
  | tail hs hmove ih =>
    cases hmove with
    | adopt hlt => exact absurd hr ((Reached.since hs).round.trans_lt hlt).ne
    | accept _ hnew => exact absurd hnew (ih hr).1
    | prepare => exact ⟨by rintro ⟨⟩, by rintro ⟨⟩⟩
    | finalize => exact ⟨by rintro ⟨⟩, by rintro ⟨⟩⟩
    | finalizeRaises => exact ⟨by rintro ⟨⟩, by rintro ⟨⟩⟩
    | _ => exact ih hr

/-- A call that handles a PRE_PREPARE accepts no other proposal. -/
lemma Reached.hash_of_handles (hs : Reached e₀ c s) {m : ConsensusMessage}
    (hm : c.Handles e₀ .PRE_PREPARE m) (hnew : e₀.round < s.engine.round ∨ e₀.phase = .NEW_ROUND) :
    s.engine.phase = .PRE_PREPARED → ∀ block ∈ s.engine.proposal, block.hash = .ok m.blockHash := by
  induction hs with
  | refl =>
    intro hphase
    rcases hnew with hlt | hnew
    · exact absurd hlt (lt_irrefl _)
    · rw [hnew] at hphase
      cases hphase
  | tail hs hmove ih =>
    cases hmove with
    | adopt => rintro ⟨⟩
    | accept horigin =>
      rintro - block hblock
      cases hblock
      cases horigin with
      | own hp =>
        cases hp with
        | fresh hc =>
          rw [hm.eq] at hc
          cases hc
        | change hc =>
          have ht := hc.type_eq hm.eq
          rw [hm.type] at ht
          cases ht
      | peer hm' =>
        have heq := hm'.handles.eq
        rw [hm.eq] at heq
        cases heq
        exact hm'.hash
    | prepare => rintro ⟨⟩
    | finalize => rintro ⟨⟩
    | finalizeRaises => rintro ⟨⟩
    | _ => exact ih hnew

/-- The votes that a prepare step counts were at hand when the call was made. -/
lemma Reached.canPrepare (hs : Reached e₀ c s) {h : PyStr} (hlocks : c.Locks e₀ s.engine h) :
    CanPrepare e₀ c s.engine.round h where
  opens := hlocks.opens
  proposal hr hphase := (hs.proposal_eq hr hphase).2 hlocks.phase ▸ hlocks.proposal
  proposed m hm := by
    obtain ⟨block, hblock, hh⟩ := hlocks.proposal
    refine Except.ok.inj ((hs.hash_of_handles hm ?_ hlocks.phase block hblock).symm.trans hh)
    cases hlocks.opens with
    | propose records changes hc hr hnew => exact Or.inr hnew
    | change hc hlt => exact Or.inl hlt
    | prePrepare m' hm' hr hnew => exact hnew.imp_right And.right
    | vote m' hc hvote =>
      rw [hm.eq] at hc
      cases hc
      rcases hvote with ht | ht <;> rw [hm.type] at ht <;> cases ht
  votes := by
    have hquorum := hlocks.quorum
    rw [hs.since.validators, Dict.len_eq_card] at hquorum
    exact hquorum.trans (Finset.card_le_card (hs.prepares_subset h))
  changes hc := by
    have hr : e₀.round < s.engine.round := by
      cases hlocks.opens with
      | propose records changes hset =>
        rcases hc with ⟨h, -⟩ | ⟨m, ⟨h, -⟩, -⟩ <;> rw [hset] at h <;> cases h
      | change _ hr => exact hr
      | prePrepare m hm =>
        have ht := hc.type_eq hm.eq
        rw [hm.type] at ht
        cases ht
      | vote m hm hvote =>
        have ht := hc.type_eq hm
        rcases hvote with hv | hv <;> rw [hv] at ht <;> cases ht
    have hq := hs.adopted_quorum hc hr
    rw [Dict.len_eq_card] at hq
    exact hq.trans (Finset.card_le_card (hs.roundChanges_subset hc _).1)

/-- The engine has a PREPARE quorum in its round. -/
def Phase.IsPrepared (p : Phase) : Prop := p = .PREPARED ∨ p = .COMMITTED

/-- A prepared engine was so before the call, or the call could bring it there. -/
lemma Reached.isPrepared (hs : Reached e₀ c s) (hp : s.engine.phase.IsPrepared) :
    (s.engine.round = e₀.round ∧ e₀.phase.IsPrepared) ∨
      ∃ h, CanPrepare e₀ c s.engine.round h := by
  induction hs with
  | refl => exact Or.inl ⟨rfl, hp⟩
  | tail hs hmove ih =>
    cases hmove with
    | adopt => rcases hp with h | h <;> cases h
    | accept => rcases hp with h | h <;> cases h
    | prepare hopen hphase hblock hh hquorum hprior hm =>
      exact Or.inr ⟨_, Reached.canPrepare hs ⟨hopen, hphase, ⟨_, hblock, hh⟩, hquorum⟩⟩
    | finalize hclose hphase => exact ih (Or.inl hphase)
    | finalizeRaises hphase => exact ih (Or.inl hphase)
    | _ => exact ih hp

end Relative

end Helix
