import Helix.Consensus.Settling

/-!
# The proposer of a new round

An engine that enters a later round as its proposer should propose in the same call. It does where it
adopts the round on ROUND_CHANGEs and the block of the highest lock among them is at hand, or none claims a
lock and a block can be built (`new_proposer_proposes`). It is silent where it enters on the proposal of
somebody else, and where nobody sent the body of the highest lock.
-/

namespace Helix

variable [Crypto] {e₀ : ConsensusEngine} {c : Call} {s s' : Frame}

open Eff (Leads Returns)

/-! ### What is at hand -/

/-- Some message of the certificate carries the block with hash `x`, and the blocks that come before it
can be hashed. -/
def CarriesBlock (cert : List ConsensusMessage) (x : PyStr) : Prop :=
  ∃ l₁ m l₂, cert = l₁ ++ m :: l₂ ∧ (∃ block ∈ m.block, block.hash = .ok x) ∧
    ∀ m' ∈ l₁, ∀ block ∈ m'.block, ∃ h, block.hash = .ok h

/-- The locked block is found just if the certificate carries it. -/
lemma carriesBlock_iff {cert : List ConsensusMessage} {x : PyStr} : CarriesBlock cert x ↔
    ∃ block, lockedBlockFromCert cert x = .ok (some block) := by
  induction cert with
  | nil =>
    refine iff_of_false ?_ ?_
    · rintro ⟨l₁, m, l₂, heq, -⟩
      cases l₁ <;> cases heq
    · rintro ⟨_, h⟩
      cases h
  | cons m cert ih =>
    have htail : (∀ block ∈ m.block, ∃ h, block.hash = .ok h ∧ h ≠ x) →
        (CarriesBlock (m :: cert) x ↔ CarriesBlock cert x) := by
      intro hm
      constructor
      · rintro ⟨l₁, m', l₂, heq, ⟨block, hblock, hh⟩, hbefore⟩
        rw [List.cons_eq_append_iff] at heq
        rcases heq with ⟨rfl, heq⟩ | ⟨l₁', rfl, heq⟩
        · obtain ⟨rfl, rfl⟩ := List.cons.inj heq
          obtain ⟨h, hh', hne⟩ := hm block hblock
          exact absurd (Except.ok.inj (hh'.symm.trans hh)) hne
        · exact ⟨l₁', m', l₂, heq, ⟨block, hblock, hh⟩, fun m'' hm'' =>
            hbefore m'' (List.mem_cons_of_mem _ hm'')⟩
      · rintro ⟨l₁, m', l₂, rfl, hblock, hbefore⟩
        refine ⟨m :: l₁, m', l₂, rfl, hblock, fun m'' hm'' block hblock' => ?_⟩
        rcases List.mem_cons.mp hm'' with rfl | hm''
        · exact (hm block hblock').imp fun h hh => hh.1
        · exact hbefore m'' hm'' block hblock'
    cases hm : m.block with
    | none =>
      rw [htail (fun block hblock => by rw [hm] at hblock; cases hblock), ih, lockedBlockFromCert, hm]
    | some block =>
      cases hh : block.hash with
      | error err =>
        have hraise : lockedBlockFromCert (m :: cert) x = .error err := by
          rw [lockedBlockFromCert, hm]
          simp only [hh, bind, Except.bind]
        rw [hraise]
        refine iff_of_false ?_ ?_
        · rintro ⟨l₁, m', l₂, heq, ⟨block', hblock', hh'⟩, hbefore⟩
          rw [List.cons_eq_append_iff] at heq
          rcases heq with ⟨rfl, heq⟩ | ⟨l₁', rfl, heq⟩
          · obtain ⟨rfl, rfl⟩ := List.cons.inj heq
            rw [hm] at hblock'
            cases hblock'
            rw [hh] at hh'
            cases hh'
          · obtain ⟨h, hh'⟩ := hbefore m List.mem_cons_self block hm
            rw [hh] at hh'
            cases hh'
        · rintro ⟨_, h⟩
          cases h
      | ok h =>
        by_cases heq : h = x
        · subst heq
          have hfound : lockedBlockFromCert (m :: cert) h = .ok (some block) := by
            rw [lockedBlockFromCert, hm]
            simp only [hh, bind, Except.bind, if_true, pure, Except.pure]
          exact iff_of_true ⟨[], m, cert, rfl, ⟨block, hm, hh⟩, fun m' hm' => by cases hm'⟩
            ⟨block, hfound⟩
        · have hnext : lockedBlockFromCert (m :: cert) x = lockedBlockFromCert cert x := by
            rw [lockedBlockFromCert, hm]
            simp only [hh, bind, Except.bind, if_neg heq]
          rw [hnext, ← ih]
          refine htail fun block' hblock' => ?_
          rw [hm] at hblock'
          cases hblock'
          exact ⟨h, hh, heq⟩

namespace ConsensusEngine

/-- The ROUND_CHANGEs for round `r` with the engine's own one, which it sends before it adopts the
round. -/
def withOwn (e : ConsensusEngine) (changes : Dict PyStr ConsensusMessage) (r : ℤ) :
    Dict PyStr ConsensusMessage :=
  if r ∈ e.rcSent then changes
  else match e.roundChange r with
    | .ok own => changes.set e.me.toHex own
    | .error _ => changes

/-- The ROUND_CHANGEs for round `r` that a call has at hand: those stored, the one handed in, and the
engine's own. -/
def changesWith (e : ConsensusEngine) (c : Call) (r : ℤ) : Dict PyStr ConsensusMessage :=
  match c with
  | .handle m =>
    e.withOwn (if r = m.round then (e.roundChanges.getD r).set m.sender m else e.roundChanges.getD r) r
  | _ => e.withOwn (e.roundChanges.getD r) r

/-- The block of what is pending, at the present time. -/
def freshBlock (e : ConsensusEngine) : Except PyError Block :=
  Block.create e.height e.previousHash (e.nowMs 0) e.me.toHex e.pending e.pendingChanges

/-- The block is what a certificate for round `r` asks for: that of the highest lock, or a fresh one where
no lock is claimed. -/
def Asks (e : ConsensusEngine) (cert : List ConsensusMessage) (r : ℤ) (block : Block) : Prop :=
  ∃ verdict, verifyRoundChangeCert e.validators e.height cert r = .ok verdict ∧
    ((∃ x, verdict.2 = some x ∧ block.hash = .ok x) ∨
      verdict.2 = none ∧ e.freshBlock = .ok block)

/-- A certificate for round `r` lets its proposer propose: it carries the block of the highest lock, or, if
none is claimed, the block of what is pending can be built and hashed. -/
def CanPropose (e : ConsensusEngine) (cert : List ConsensusMessage) (r : ℤ) : Prop :=
  ∃ verdict, verifyRoundChangeCert e.validators e.height cert r = .ok verdict ∧
    ((∃ x, verdict.2 = some x ∧ CarriesBlock cert x) ∨
      verdict.2 = none ∧ ∃ block h, e.freshBlock = .ok block ∧ block.hash = .ok h)

end ConsensusEngine

/-- The frame once the clock was read. -/
def Frame.tick (s : Frame) : Frame := s.mapEngine fun e => { e with nowMs := fun i => e.nowMs (i + 1) }

/-- A PRE_PREPARE for round `r` with the block that the certificate asks for. -/
structure Proposal (e : ConsensusEngine) (cert : List ConsensusMessage) (r : ℤ)
    (m : ConsensusMessage) : Prop where
  type : m.type = .PRE_PREPARE
  round : m.round = r
  block : ∃ block ∈ m.block, block.hash = .ok m.blockHash ∧ e.Asks cert r block

namespace EngineM

variable {block : Block} {h : PyStr}

/-- A proposal that is emitted is in the result, and the call goes on. -/
lemma emitPrePrepare_returns (hs : s.engine.Sound) (hh : block.hash = .ok h)
    (cert : List ConsensusMessage) : Returns (emitPrePrepare block cert) s fun _ s' =>
      ∃ m ∈ s'.result.broadcast, m.type = .PRE_PREPARE ∧ m.round = s.engine.round ∧
        m.block = some block ∧ m.blockHash = h := by
  obtain ⟨m, hm⟩ := exists_create_of_hash hh .PRE_PREPARE s.engine.height s.engine.round
    s.engine.privateKey (some block) none [] cert
  obtain ⟨htype, -, hround, hhash, -, hblock, -⟩ := ConsensusMessage.create_eq hm
  have hemit := emitPrePrepare_eq hh hm
  obtain ⟨_, s', hrun, -⟩ := acceptProposal_keeps (s := s.send [m]) hs hh
  have hleads : Leads Untouched (acceptProposal block) (s.send [m]) fun _ _ => True :=
    untouched_acceptProposal (s.send [m])
  have hkeep := (Untouched.of_path hleads.path).broadcast
  rw [hrun] at hkeep
  refine ⟨_, s', hemit.trans hrun, m, hkeep ?_, htype, hround, hblock, hhash⟩
  exact List.mem_append_right _ List.mem_cons_self

/-- The engine has just entered round `r`, of which it is the proposer, and has not proposed yet. -/
structure TakesOver (r : ℤ) (s : Frame) : Prop where
  sound : s.engine.Sound
  round : s.engine.round = r
  phase : s.engine.phase = .NEW_ROUND
  proposer : s.engine.me = s.engine.validators.proposer s.engine.height r
  silent : ∀ m ∈ s.result.broadcast, m.type ≠ .PRE_PREPARE

namespace TakesOver

variable {r : ℤ} {verdict : Bool × Option PyStr} {x : PyStr}

/-- The certificate of the round can be checked. -/
lemma exists_verdict (hs : TakesOver r s) : ∃ verdict, verifyRoundChangeCert s.engine.validators
    s.engine.height (s.engine.roundChanges.getD r).values r = .ok verdict := by
  refine exists_verifyRoundChangeCert_iff.mpr fun m hm _ _ _ => ?_
  obtain ⟨key, hkey⟩ := Dict.mem_values.mp hm
  exact IsScalar.checkable (hs.sound.changes r _ hkey) _

/-- What is left to do once the certificate is checked. -/
lemma propose_eq (hs : TakesOver r s) (hverdict : verifyRoundChangeCert s.engine.validators
      s.engine.height (s.engine.roundChanges.getD r).values r = .ok verdict) :
    proposeForRoundChange r s = (match verdict.2 with
      | some x => do
        match ← Eff.lift (lockedBlockFromCert (s.engine.roundChanges.getD r).values x) with
        | none => return
        | some block => emitPrePrepare block (s.engine.roundChanges.getD r).values
      | none => do
        match ← some <$> buildBlock s.engine.pending with
        | none => return
        | some block => emitPrePrepare block (s.engine.roundChanges.getD r).values : EngineM Unit) s := by
  have hproposer : ¬¬s.engine.isProposer = true := by
    rw [not_not, ConsensusEngine.isProposer, hs.round]
    exact decide_eq_true hs.proposer
  have hopen : ¬(s.engine.round ≠ r ∨ s.engine.phase ≠ .NEW_ROUND) := by
    rw [hs.round, hs.phase]
    simp
  rw [proposeForRoundChange, self_bind, if_neg hopen, if_neg hproposer]
  exact (Eff.lift_bind_ok hverdict _ s).trans (by cases verdict.2 <;> rfl)

/-- What the proposer of a round that was just entered comes to, if its certificate claims `lock`: the
block of the lock, or, if none is claimed, a fresh one. -/
inductive Ends (r : ℤ) (s : Frame) (lock : Option PyStr) : Except PyError Unit × Frame → Prop
  | unreadable {x : PyStr} {err : PyError} (hlock : lock = some x)
      (hlocked : lockedBlockFromCert (s.engine.roundChanges.getD r).values x = .error err) :
      Ends r s lock (.error err, s)
  | missing {x : PyStr} (hlock : lock = some x)
      (hlocked : lockedBlockFromCert (s.engine.roundChanges.getD r).values x = .ok none) :
      Ends r s lock (.ok (), s)
  | locked {x : PyStr} {block : Block} (hlock : lock = some x)
      (hlocked : lockedBlockFromCert (s.engine.roundChanges.getD r).values x = .ok (some block)) :
      Ends r s lock (emitPrePrepare block (s.engine.roundChanges.getD r).values s)
  | unbuildable {err : PyError} (hlock : lock = none) (hfresh : s.engine.freshBlock = .error err) :
      Ends r s lock (.error err, s.tick)
  | fresh {block : Block} (hlock : lock = none) (hfresh : s.engine.freshBlock = .ok block) :
      Ends r s lock (emitPrePrepare block (s.engine.roundChanges.getD r).values s.tick)

lemma ends (hs : TakesOver r s) (hverdict : verifyRoundChangeCert s.engine.validators
      s.engine.height (s.engine.roundChanges.getD r).values r = .ok verdict) :
    Ends r s verdict.2 (proposeForRoundChange r s) := by
  have hstart := hs.propose_eq hverdict
  cases hlock : verdict.2 with
  | some x =>
    rw [hlock] at hstart
    cases hlocked : lockedBlockFromCert (s.engine.roundChanges.getD r).values x with
    | error err =>
      rw [hstart.trans (Eff.bind_apply_error (congrArg (·, s) hlocked))]
      exact .unreadable rfl hlocked
    | ok found =>
      rw [hstart.trans (Eff.lift_bind_ok hlocked _ s)]
      cases found with
      | none => exact .missing rfl hlocked
      | some block => exact .locked rfl hlocked
  | none =>
    rw [hlock] at hstart
    have hbuild : buildBlock s.engine.pending s = (s.engine.freshBlock, s.tick) := rfl
    cases hfresh : s.engine.freshBlock with
    | error err =>
      rw [hfresh] at hbuild
      have hsome : (some <$> buildBlock s.engine.pending) s = (.error err, s.tick) :=
        Eff.bind_apply_error hbuild
      rw [hstart.trans (Eff.bind_apply_error hsome)]
      exact .unbuildable rfl hfresh
    | ok block =>
      rw [hfresh] at hbuild
      have hsome : (some <$> buildBlock s.engine.pending) s = (.ok (some block), s.tick) :=
        Eff.bind_apply_ok hbuild
      rw [hstart.trans (Eff.bind_apply_ok hsome)]
      exact .fresh rfl hfresh

/-- A result that was not added to holds no proposal. -/
lemma not_proposes (hs : TakesOver r s) {result : Except PyError Unit} {s' : Frame}
    (hout : s'.result.broadcast = s.result.broadcast) {cert : List ConsensusMessage} :
    ¬(result = .ok () ∧ ∃ m ∈ s'.result.broadcast, Proposal s.engine cert r m) := by
  rintro ⟨-, m, hm, hp⟩
  exact hs.silent m (hout ▸ hm) hp.type

/-- The proposal of a block that the certificate asks for. -/
lemma proposes_of_asks {t : Frame} (hsound : t.engine.Sound) (hround : t.engine.round = r)
    (hh : block.hash = .ok h) {cert : List ConsensusMessage} (hasks : s.engine.Asks cert r block) :
    (emitPrePrepare block cert t).1 = .ok () ∧
      ∃ m ∈ (emitPrePrepare block cert t).2.result.broadcast, Proposal s.engine cert r m := by
  obtain ⟨_, t', hemit, m, hm, htype, hmround, hblock, hhash⟩ := emitPrePrepare_returns hsound hh cert
  rw [hemit]
  exact ⟨rfl, m, hm, htype, hmround.trans hround, block, hblock, hhash ▸ hh, hasks⟩

/-- The proposer of a round that was just entered proposes just if its certificate lets it. -/
lemma propose_iff (hs : TakesOver r s) :
    ((proposeForRoundChange r s).1 = .ok () ∧ ∃ m ∈ (proposeForRoundChange r s).2.result.broadcast,
        Proposal s.engine (s.engine.roundChanges.getD r).values r m) ↔
      s.engine.CanPropose (s.engine.roundChanges.getD r).values r := by
  obtain ⟨verdict, hverdict⟩ := hs.exists_verdict
  have hcan : s.engine.CanPropose (s.engine.roundChanges.getD r).values r ↔
      (∃ x, verdict.2 = some x ∧ CarriesBlock (s.engine.roundChanges.getD r).values x) ∨
        verdict.2 = none ∧ ∃ block h, s.engine.freshBlock = .ok block ∧ block.hash = .ok h := by
    constructor
    · rintro ⟨verdict', hverdict', h⟩
      obtain rfl := Except.ok.inj (hverdict'.symm.trans hverdict)
      exact h
    · exact fun h => ⟨verdict, hverdict, h⟩
  rw [hcan]
  simp only [carriesBlock_iff]
  have hends := hs.ends hverdict
  generalize proposeForRoundChange r s = out at hends ⊢
  cases hends with
  | unreadable hlock hlocked =>
    apply iff_of_false (hs.not_proposes rfl)
    simp [hlock, hlocked]
  | missing hlock hlocked =>
    apply iff_of_false (hs.not_proposes rfl)
    simp [hlock, hlocked]
  | @locked x block hlock hlocked =>
    have hh := hash_of_lockedBlockFromCert hlocked
    have hasks : s.engine.Asks (s.engine.roundChanges.getD r).values r block :=
      ⟨verdict, hverdict, Or.inl ⟨x, hlock, hh⟩⟩
    exact iff_of_true (proposes_of_asks hs.sound hs.round hh hasks) (Or.inl ⟨x, hlock, block, hlocked⟩)
  | unbuildable hlock hfresh =>
    apply iff_of_false (hs.not_proposes rfl)
    simp [hlock, hfresh]
  | @fresh block hlock hfresh =>
    cases hh : block.hash with
    | error err =>
      rw [emitPrePrepare_of_error hh]
      apply iff_of_false (hs.not_proposes rfl)
      simp [hlock, hfresh, hh]
    | ok h =>
      have hasks : s.engine.Asks (s.engine.roundChanges.getD r).values r block :=
        ⟨verdict, hverdict, Or.inr ⟨hlock, hfresh⟩⟩
      exact iff_of_true (proposes_of_asks (t := s.tick) { hs.sound with } hs.round hh hasks)
        (Or.inr ⟨hlock, block, h, hfresh, hh⟩)

end TakesOver

/-! ### The loop -/

/-- The frame with other round changes, and more messages sent. -/
def withChanges (s : Frame) (sent : List ℤ) (changes : Dict ℤ (Dict PyStr ConsensusMessage))
    (messages : List ConsensusMessage) : Frame where
  engine := { s.engine with rcSent := sent, roundChanges := changes }
  result := { s.result with broadcast := s.result.broadcast ++ messages }

/-- Sending the own ROUND_CHANGE does not change what is at hand with it. -/
lemma withOwn_leave {target : ℤ} {m : ConsensusMessage} (hunsent : target ∉ s.engine.rcSent)
    (hm : s.engine.roundChange target = .ok m) (t : ℤ) :
    (s.leave target m).engine.withOwn ((s.leave target m).engine.roundChanges.getD t) t =
      s.engine.withOwn (s.engine.roundChanges.getD t) t := by
  have hget : (s.leave target m).engine.roundChanges.getD t =
      if t = target then (s.engine.roundChanges.getD target).set s.engine.me.toHex m
      else s.engine.roundChanges.getD t := Dict.getD_setIn _ _ _ _ _
  have hsent : t ∈ (s.leave target m).engine.rcSent ↔ t = target ∨ t ∈ s.engine.rcSent := List.mem_cons
  have hown : (s.leave target m).engine.roundChange t = s.engine.roundChange t := rfl
  have hme : (s.leave target m).engine.me = s.engine.me := rfl
  rw [ConsensusEngine.withOwn, ConsensusEngine.withOwn, hget, hown, hme]
  by_cases ht : t = target
  · subst ht
    rw [if_pos (hsent.mpr (Or.inl rfl)), if_pos rfl, if_neg hunsent, hm]
  · simp only [hsent, ht, false_or, if_false]

/-- What the acceleration pass does: it adds own ROUND_CHANGEs only. -/
lemma accelerate_eq (hs : s.engine.Sound) (targets : List ℤ) : ∃ b sent changes messages,
    accelerate targets s = (.ok b, withChanges s sent changes messages) ∧
      (∀ m ∈ messages, m.type = .ROUND_CHANGE) ∧
      ∀ t ∈ sent, changes.getD t = s.engine.withOwn (s.engine.roundChanges.getD t) t := by
  induction targets generalizing s with
  | nil =>
    refine ⟨false, s.engine.rcSent, s.engine.roundChanges, [], ?_, fun m hm => (by cases hm), ?_⟩
    · simp [accelerate, withChanges]
    · exact fun t ht => (if_pos ht).symm
  | cons target targets ih =>
    rw [accelerate, self_bind]
    split_ifs with hcond
    · obtain ⟨-, hunsent, -⟩ := hcond
      obtain ⟨m, hm⟩ := exists_roundChange_of_sound hs target
      obtain ⟨htype, -⟩ := ConsensusEngine.roundChange_eq hm
      have hsend := sendRoundChange_eq hunsent hm
      have hsound := hs.leave hm
      obtain ⟨b, sent, changes, messages, hrun, htypes, hchanges⟩ := ih hsound
      rw [Eff.bind_apply_ok hsend, Eff.bind_apply_ok hrun]
      refine ⟨true, sent, changes, m :: messages, ?_, ?_, fun t ht => ?_⟩
      · simp [withChanges, Frame.leave, Frame.send, Frame.mapEngine]
      · exact List.forall_mem_cons.mpr ⟨htype, htypes⟩
      · exact (hchanges t ht).trans (withOwn_leave hunsent hm t)
    · exact ih hs

/-- A frame in which the loop over round changes starts, with the ROUND_CHANGEs that the call has. -/
structure Starts (e : ConsensusEngine) (c : Call) (s : Frame) : Prop where
  sound : s.engine.Sound
  silent : ∀ m ∈ s.result.broadcast, m.type ≠ .PRE_PREPARE
  round : s.engine.round = e.round
  me : s.engine.me = e.me
  validators : s.engine.validators = e.validators
  height : s.engine.height = e.height
  fresh : s.engine.freshBlock = e.freshBlock
  changes : ∀ r, s.engine.withOwn (s.engine.roundChanges.getD r) r = e.changesWith c r
  reached : Reached e c s
  undecided : s.result.committed = none

/-- A frame in which the loop has adopted round `r`, and has only sent own ROUND_CHANGEs. -/
structure Adopts (e : ConsensusEngine) (c : Call) (r : ℤ) (t : Frame) : Prop where
  sound : t.engine.Sound
  round : t.engine.round = r
  phase : t.engine.phase = .NEW_ROUND
  silent : ∀ m ∈ t.result.broadcast, m.type ≠ .PRE_PREPARE
  changes : t.engine.roundChanges.getD r = e.changesWith c r
  me : t.engine.me = e.me
  validators : t.engine.validators = e.validators
  height : t.engine.height = e.height
  fresh : t.engine.freshBlock = e.freshBlock
  reached : Reached e c t

lemma Adopts.takesOver {e : ConsensusEngine} {r : ℤ} {t : Frame} (ht : Adopts e c r t)
    (hme : e.me = e.validators.proposer e.height r) : TakesOver r t where
  sound := ht.sound
  round := ht.round
  phase := ht.phase
  proposer := by rw [ht.me, ht.validators, ht.height, hme]
  silent := ht.silent

/-- What the round asks for was asked for when the call was made. -/
lemma Adopts.proposal_iff {e : ConsensusEngine} {r : ℤ} {t : Frame} (ht : Adopts e c r t)
    {cert : List ConsensusMessage} {m : ConsensusMessage} :
    Proposal t.engine cert r m ↔ Proposal e cert r m := by
  have hasks : ∀ block, t.engine.Asks cert r block ↔ e.Asks cert r block := by
    intro block
    rw [ConsensusEngine.Asks, ConsensusEngine.Asks, ht.validators, ht.height, ht.fresh]
  refine ⟨fun h => ⟨h.type, h.round, h.block.imp fun b hb => ?_⟩,
    fun h => ⟨h.type, h.round, h.block.imp fun b hb => ?_⟩⟩
  · exact ⟨hb.1, hb.2.1, (hasks b).mp hb.2.2⟩
  · exact ⟨hb.1, hb.2.1, (hasks b).mpr hb.2.2⟩

/-- When the engine enters a later round in the loop, the loop does what is done for the new round then,
and nothing more. -/
lemma Starts.enters {e : ConsensusEngine} (hstart : Starts e c s) (hc : c.Changing e) (n : ℕ) {r : ℤ}
    (hr : e.round < r) (hround : (roundChangeLoop (n + 2) s).2.engine.round = r) :
    ∃ t, roundChangeLoop (n + 2) s = proposeForRoundChange r t ∧ Adopts e c r t := by
  have hs := hstart.sound
  obtain ⟨sent, s₁, haccelerate, ⟨-, hrun⟩ | ⟨best, s₂, hbest, hadopt, -, hrun⟩⟩ :=
    roundChangeLoop_cases hs
  · obtain ⟨_, _, hjoins, -, -, hround₁, -⟩ :=
      accelerate_joins hs (s.engine.roundChanges.keys.insertionSort (· ≤ ·))
    obtain rfl := (Prod.mk.inj (haccelerate.symm.trans hjoins)).2
    rw [hrun, hround₁, hstart.round] at hround
    exact absurd hround hr.ne
  · obtain ⟨_, sent', changes, messages, heq, htypes, hchanges⟩ :=
      accelerate_eq hs (s.engine.roundChanges.keys.insertionSort (· ≤ ·))
    obtain rfl := (Prod.mk.inj (haccelerate.symm.trans heq)).2
    obtain ⟨_, _, hjoins, hsound₁, -, -, hkeep, hall⟩ :=
      accelerate_joins hs (s.engine.roundChanges.keys.insertionSort (· ≤ ·))
    obtain rfl := (Prod.mk.inj (heq.symm.trans hjoins)).2
    obtain ⟨hlt, hquorum, -⟩ := bestRound_eq_some hbest
    obtain ⟨_, _, hkeeps, hs₂sound⟩ := adoptRound_keeps hsound₁ best
    obtain rfl := (Prod.mk.inj (hadopt.symm.trans hkeeps)).2
    have hsound₂ := hs₂sound.sound
    have hleads : Leads (Move e c) (accelerate (s.engine.roundChanges.keys.insertionSort (· ≤ ·))) s
        fun _ _ => True := (accelerate_leads hc hstart.reached).mono fun _ _ _ => trivial
    have hreached₁ := hstart.reached.trans hleads.path
    rw [haccelerate] at hreached₁
    have hquorum₁ := hquorum
    rw [(Reached.since hreached₁).validators] at hquorum₁
    have hreached₂ := hreached₁.trans (adoptRound_leads hreached₁ hlt hstart.undecided
      (Or.inl ⟨hc, hquorum₁⟩)).path
    rw [hadopt] at hreached₂
    obtain ⟨prepares, commits, hs₂⟩ := adoptRound_eq hlt
    rw [hadopt] at hs₂
    obtain rfl : s₂ = _ := hs₂
    have hbestr : best = r := by
      rw [hrun] at hround
      exact (Untouched.of_path (untouched_proposeForRoundChange best _).path).round.symm.trans hround
    subst hbestr
    -- a quorum is more than `f`, so the own ROUND_CHANGE was sent
    have hsent : best ∈ sent' := by
      refine (joined_of_sorted hkeep hall best hlt).resolve_right fun hfew => ?_
      have hmore := s.engine.validators.maxFaulty_lt_quorum
      exact absurd (hmore.trans_le hquorum) (not_lt.mpr hfew)
    refine ⟨_, hrun n, hsound₂, rfl, rfl, fun m hm => ?_, ?_, hstart.me, hstart.validators,
      hstart.height, hstart.fresh, hreached₂⟩
    · rcases List.mem_append.mp hm with hm | hm
      · exact hstart.silent m hm
      · rw [htypes m hm]
        decide
    · exact (hchanges best hsent).trans (hstart.changes best)

lemma processRoundChanges_eq (s : Frame) : ∃ n, processRoundChanges s = roundChangeLoop (n + 2) s := by
  obtain ⟨n, hn⟩ := Nat.exists_eq_add_of_lt s.engine.validators.size_pos
  refine ⟨n, ?_⟩
  rw [processRoundChanges, self_bind, hn, Nat.zero_add]

end EngineM

/-! ### Calls -/

/-- The call returns a PRE_PREPARE for round `r` with the block that the ROUND_CHANGEs at hand ask for. -/
def Call.ProposesFor (c : Call) (e : ConsensusEngine) (r : ℤ) : Prop :=
  (c.run e).1 = .ok () ∧
    ∃ m ∈ (c.run e).2.result.broadcast, Proposal e (e.changesWith c r).values r m

open EngineM

/-- A call that processes round changes and enters a round is a run of the loop. -/
lemma Call.Changing.exists_starts {e : ConsensusEngine} (hc : c.Changing e) (he : e.Sound)
    (hr : (c.run e).2.engine.round ≠ e.round) :
    ∃ n s, c.run e = roundChangeLoop (n + 2) s ∧ Starts e c s := by
  have hchanging := hc
  rcases hc with ⟨rfl, hphase⟩ | ⟨m, hm, hlater⟩
  · have hrun : Call.run .onTimeout e =
        (do sendRoundChange e.nextTarget; processRoundChanges : EngineM Unit) ⟨e, {}⟩ := by
      rw [Call.run, Call.body, EngineM.onTimeout, self_bind, if_neg hphase]
    by_cases hsent : e.nextTarget ∈ e.rcSent
    · have hskip := sendRoundChange_of_sent (s := ⟨e, {}⟩) hsent
      obtain ⟨n, hn⟩ := processRoundChanges_eq ⟨e, {}⟩
      refine ⟨n, _, hrun.trans ((Eff.bind_apply_ok hskip).trans hn), he, fun m hm => ?_, rfl, rfl, rfl,
        rfl, rfl, fun r => rfl, .refl, rfl⟩
      cases hm
    · obtain ⟨m, hm⟩ := exists_roundChange_of_sound he e.nextTarget
      obtain ⟨htype, -⟩ := ConsensusEngine.roundChange_eq hm
      have hsend := sendRoundChange_eq (s := ⟨e, {}⟩) hsent hm
      obtain ⟨n, hn⟩ := processRoundChanges_eq ((⟨e, {}⟩ : Frame).leave e.nextTarget m)
      refine ⟨n, _, hrun.trans ((Eff.bind_apply_ok hsend).trans hn),
        he.leave (s := ⟨e, {}⟩) hm, fun m' hm' => ?_, rfl, rfl, rfl, rfl, rfl,
        fun r => withOwn_leave (s := ⟨e, {}⟩) hsent hm r, .single ?_, rfl⟩
      · rw [List.mem_singleton.mp hm', htype]
        decide
      · exact .leave hchanging hsent ((lt_add_one _).trans_le (le_firstUnsent _ _ _)) (Or.inl ⟨rfl, rfl⟩) hm
  · obtain ⟨rfl, hacc, ht⟩ := hm
    have hhandle : Call.run (.handle m) e = handleRoundChange m ⟨e, {}⟩ := by
      rw [Call.run, Call.body, handle_eq ⟨rfl, rfl, rfl, rfl⟩ hacc, ht]
    obtain ⟨ok, hok⟩ := exists_validRoundChange e.height hacc.authentic
    rw [hhandle, handleRoundChange, self_bind, if_neg (not_le.mpr hlater), Eff.lift_bind_ok hok] at hr ⊢
    cases ok with
    | false => exact absurd rfl hr
    | true =>
      rw [if_pos rfl, update_bind]
      obtain ⟨n, hn⟩ := processRoundChanges_eq ((⟨e, {}⟩ : Frame).mapEngine fun e => { e with
        roundChanges := e.roundChanges.setIn m.round m.sender m })
      refine ⟨n, _, hn, he.store (isScalar_of_authentic hacc.authentic) _ _, fun m' hm' => ?_, rfl, rfl,
        rfl, rfl, rfl, fun r => ?_, .single (.store (Or.inl ⟨⟨rfl, hacc, ht⟩, hlater⟩) hacc.authentic hok),
        rfl⟩
      · cases hm'
      · have hget : (e.roundChanges.setIn m.round m.sender m).getD r =
            if r = m.round then (e.roundChanges.getD r).set m.sender m else e.roundChanges.getD r := by
          rw [Dict.getD_setIn]
          split_ifs with h
          · rw [h]
          · rfl
        rw [ConsensusEngine.changesWith, ← hget]
        rfl

/-- A call that processes round changes and enters a round does what is done for the new round once it is
adopted, and nothing more. -/
lemma Call.Changing.exists_adopts {e : ConsensusEngine} (hc : c.Changing e) (he : e.Sound) {r : ℤ}
    (hr : e.round < r) (hround : (c.run e).2.engine.round = r) :
    ∃ t, c.run e = proposeForRoundChange r t ∧ Adopts e c r t := by
  obtain ⟨n, s, hrun, hstart⟩ := hc.exists_starts he (hround ▸ hr.ne')
  rw [hrun] at hround ⊢
  exact hstart.enters hc n hr hround

/-- Where the round is adopted on ROUND_CHANGEs. -/
lemma Call.Changing.proposesFor_iff {e : ConsensusEngine} (hc : c.Changing e) (he : e.Sound) {r : ℤ}
    (hr : e.round < r) (hround : (c.run e).2.engine.round = r)
    (hme : e.me = e.validators.proposer e.height r) :
    c.ProposesFor e r ↔ e.CanPropose (e.changesWith c r).values r := by
  obtain ⟨t, hrun, ht⟩ := hc.exists_adopts he hr hround
  have hiff := (ht.takesOver hme).propose_iff
  rw [ht.changes] at hiff
  have hcan : t.engine.CanPropose (e.changesWith c r).values r ↔
      e.CanPropose (e.changesWith c r).values r := by
    rw [ConsensusEngine.CanPropose, ConsensusEngine.CanPropose, ht.validators, ht.height, ht.fresh]
  rw [← hcan, ← hiff, Call.ProposesFor, hrun]
  simp only [ht.proposal_iff]

/-- A round that is entered on the proposal of somebody gets no proposal of the engine. -/
lemma Call.Enters.not_proposesFor {e : ConsensusEngine} {p : ConsensusMessage} (hp : c.Enters e p)
    (r : ℤ) : ¬c.ProposesFor e r := by
  rintro ⟨-, m, hm, hproposal⟩
  obtain ⟨s, -, hsends⟩ := Reached.sends (c.run_moves e) hm
  have hnot : ¬c.Changing e := fun hc => hc.not_enters hp
  cases hsends with
  | proposal _ hproposes =>
    cases hproposes with
    | fresh hc =>
      have heq := hp.handles.eq
      rw [hc] at heq
      cases heq
    | change hc => exact hnot hc
  | prepare ht => rw [hproposal.type] at ht; cases ht
  | commit ht => rw [hproposal.type] at ht; cases ht
  | roundChange ht => rw [hproposal.type] at ht; cases ht

/-- In every state of every run with calls and crashes, whatever messages were handled: a call that takes
the engine to a later round of its own returns a PRE_PREPARE for the round, with the block of the highest
lock or a fresh one, just if the round is adopted on ROUND_CHANGEs, not on the proposal of somebody, and
the ROUND_CHANGEs at hand carry the block of the highest lock, or claim none and a block can be built. -/
theorem new_proposer_proposes {V : ValidatorSet} {key : PrivateKey} {height : ℤ} {previousHash : PyStr}
    {nowMs : ℕ → ℤ} {journal : VoteJournal} {e₀ : ConsensusEngine}
    (hnew : ConsensusEngine.new V key height previousHash nowMs journal = .ok e₀)
    (hjournal : journal.Hashable) {v : Validator}
    (hrun : Relation.ReflTransGen (Validator.Step fun _ _ => True) { engine := e₀ } v) (c : Call) {r : ℤ}
    (hr : v.engine.round < r) (hround : (v.call c).engine.round = r)
    (hme : v.engine.me = v.engine.validators.proposer v.engine.height r) :
    c.ProposesFor v.engine r ↔
      (∀ p, ¬c.Enters v.engine p) ∧ v.engine.CanPropose (v.engine.changesWith c r).values r := by
  have hsound : v.engine.Sound := by
    refine .run hrun ?_
    obtain ⟨-, rfl⟩ := ConsensusEngine.new_eq_ok.mp hnew
    exact .initial hjournal _ _ _ _ _
  by_cases hentering : ∃ p, c.Enters v.engine p
  · obtain ⟨p, hp⟩ := hentering
    exact iff_of_false (hp.not_proposesFor r) fun h => h.1 p hp
  · push Not at hentering
    have hchanging : c.Changing v.engine := by
      by_contra hno
      have hsame := ((c.run_moves v.engine).untouched hno hentering).round
      exact absurd (hround.symm.trans hsame) hr.ne'
    rw [hchanging.proposesFor_iff hsound hr hround hme, and_iff_right hentering]

omit [Crypto] in
/-- The first of two validators is the proposer of round 1, adopts it on the ROUND_CHANGE of the other one,
and proposes a fresh block. -/
theorem new_proposer_proposes_of_pair :
    letI := Crypto.checksums
    ∃ change, ConsensusMessage.create .ROUND_CHANGE 1 1 ZERO_HASH (seedKey 0xbb) = .ok change ∧
      (Call.handle change).ProposesFor (.ofSeed .pair 0xaa .null) 1 := by
  let := Crypto.checksums
  let e : ConsensusEngine := .ofSeed .pair 0xaa .null
  have hrun : (ConsensusMessage.create .ROUND_CHANGE 1 1 ZERO_HASH (seedKey 0xbb)).map (fun change =>
      decide ((({ engine := e } : Validator).call (.handle change)).engine.round = 1 ∧
        (verifyRoundChangeCert e.validators e.height (e.changesWith (.handle change) 1).values
          1).toOption = some (true, none) ∧
        (e.freshBlock.bind Block.hash).isOk)) = .ok true := by
    decide +kernel
  obtain ⟨change, hcreate, hrun⟩ := exists_of_map_eq_ok hrun
  obtain ⟨hround, hverdict, hfresh⟩ := of_decide_eq_true hrun
  obtain ⟨htype, -⟩ := ConsensusMessage.create_eq hcreate
  have hnew : ConsensusEngine.new .pair (seedKey 0xaa) 1 ZERO_HASH (fun i => i) .null = .ok e :=
    ConsensusEngine.new_eq_ok.mpr ⟨List.mem_cons_self, rfl⟩
  have hjournal : VoteJournal.null.Hashable := ⟨fun _ h => (by cases h), fun _ h => (by cases h)⟩
  refine ⟨change, hcreate, ?_⟩
  refine (new_proposer_proposes hnew hjournal .refl (.handle change) (by decide) hround
    (by decide +kernel)).mpr ⟨fun p hp => ?_, ?_⟩
  · have htype' := hp.handles.type
    cases hp.handles.eq
    rw [htype] at htype'
    cases htype'
  · obtain ⟨h, hh⟩ := exists_of_isOk hfresh
    obtain ⟨block, hblock, hh⟩ := exists_of_bind_eq_ok hh
    cases hverify : verifyRoundChangeCert e.validators e.height
        (e.changesWith (.handle change) 1).values 1 with
    | error err => rw [hverify] at hverdict; cases hverdict
    | ok verdict =>
      rw [hverify] at hverdict
      cases hverdict
      exact ⟨_, hverify, Or.inr ⟨rfl, block, h, hblock, hh⟩⟩

omit [Crypto] in
/-- One of four validators sends the ROUND_CHANGEs of three of them, its own among them, in a PRE_PREPARE
to the proposer of round 1: the proposer enters the round, and proposes nothing. -/
theorem proposer_enters_silently :
    letI := Crypto.checksums
    ∃ a b d proposal,
      ConsensusMessage.create .ROUND_CHANGE 1 1 ZERO_HASH (seedKey 0xaa) = .ok a ∧
      ConsensusMessage.create .ROUND_CHANGE 1 1 ZERO_HASH (seedKey 0xbb) = .ok b ∧
      ConsensusMessage.create .ROUND_CHANGE 1 1 ZERO_HASH (seedKey 0xdd) = .ok d ∧
      ConsensusMessage.create .PRE_PREPARE 1 1 ZERO_HASH (seedKey 0xdd) none none [] [a, b, d] =
        .ok proposal ∧
      let e : ConsensusEngine := .ofSeed .quartet 0xcc .null
      let out := (Call.handle proposal).run e
      e.validators.maxFaulty = 1 ∧ out.1 = .ok () ∧ e.round = 0 ∧ out.2.engine.round = 1 ∧
      e.me = e.validators.proposer e.height 1 ∧ ∀ m ∈ out.2.result.broadcast, m.type ≠ .PRE_PREPARE := by
  let := Crypto.checksums
  let e : ConsensusEngine := .ofSeed .quartet 0xcc .null
  have hrun : (ConsensusMessage.create .ROUND_CHANGE 1 1 ZERO_HASH (seedKey 0xaa)).map
      (fun a => (ConsensusMessage.create .ROUND_CHANGE 1 1 ZERO_HASH (seedKey 0xbb)).map
      fun b => (ConsensusMessage.create .ROUND_CHANGE 1 1 ZERO_HASH (seedKey 0xdd)).map
      fun d => (ConsensusMessage.create .PRE_PREPARE 1 1 ZERO_HASH (seedKey 0xdd) none none []
        [a, b, d]).map
      fun proposal => decide (((Call.handle proposal).run e).1.isOk ∧
        ((Call.handle proposal).run e).2.engine.round = 1 ∧
        ((Call.handle proposal).run e).2.result.broadcast.map (·.type) = [])) =
      .ok (.ok (.ok (.ok true))) := by
    decide +kernel
  obtain ⟨a, ha, hrun⟩ := exists_of_map_eq_ok hrun
  obtain ⟨b, hb, hrun⟩ := exists_of_map_eq_ok hrun
  obtain ⟨d, hd, hrun⟩ := exists_of_map_eq_ok hrun
  obtain ⟨proposal, hproposal, hrun⟩ := exists_of_map_eq_ok hrun
  obtain ⟨hok, hround, htypes⟩ := of_decide_eq_true hrun
  obtain ⟨_, hok⟩ := exists_of_isOk hok
  refine ⟨a, b, d, proposal, ha, hb, hd, hproposal, by decide, hok, rfl, hround, by decide +kernel, ?_⟩
  intro m hm
  rw [List.map_eq_nil_iff.mp htypes] at hm
  cases hm

end Helix
