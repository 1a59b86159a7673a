import Helix.Consensus.Delivered
import Helix.Consensus.Totality

/-!
# Settling round changes

After a call, no later round should be left that a quorum asks for, and none that `f + 1` validators ask
for and the engine has not joined: the engine is `Settled`. The loop over round changes settles it within
two passes, which the bound on its passes allows for. A proposal for a later round brings ROUND_CHANGEs
that are stored without the loop, so what is true after it depends on its certificate alone.
-/

namespace Helix

variable [Crypto] {e₀ : ConsensusEngine} {c : Call} {s s' : Frame}

open Relation (ReflTransGen)
open Eff (Leads Returns)

namespace EngineM

/-! ### What leaves the round changes alone -/

/-- The validators, the round and the round changes are the same, and nothing is taken back. -/
structure Untouched (s s' : Frame) : Prop extends Steady s.engine s'.engine where
  validators : s'.engine.validators = s.engine.validators
  broadcast : s.result.broadcast ⊆ s'.result.broadcast

omit [Crypto] in
lemma Untouched.refl (s : Frame) : Untouched s s := ⟨Steady.refl _, rfl, List.Subset.refl _⟩

omit [Crypto] in
/-- Only other fields of the engine have changed. -/
lemma Untouched.of_engine {g : ConsensusEngine → ConsensusEngine}
    (h : Steady s.engine (g s.engine)) (hvals : (g s.engine).validators = s.engine.validators) :
    Untouched s (s.mapEngine g) :=
  ⟨h, hvals, List.Subset.refl _⟩

omit [Crypto] in
lemma Untouched.trans {s'' : Frame} (h : Untouched s s') (h' : Untouched s' s'') : Untouched s s'' :=
  ⟨h.toSteady.trans h'.toSteady, h'.validators.trans h.validators,
    List.Subset.trans h.broadcast h'.broadcast⟩

omit [Crypto] in
lemma Untouched.of_path (h : ReflTransGen Untouched s s') : Untouched s s' := by
  induction h with
  | refl => exact .refl s
  | tail _ hstep ih => exact ih.trans hstep

/-- So it is, and no proposal is added to the result. -/
structure Quiet (s s' : Frame) : Prop extends Untouched s s' where
  proposals : ∀ m ∈ s'.result.broadcast, m.type = .PRE_PREPARE → m ∈ s.result.broadcast

omit [Crypto] in
lemma Quiet.of_engine {g : ConsensusEngine → ConsensusEngine} (h : Steady s.engine (g s.engine))
    (hvals : (g s.engine).validators = s.engine.validators) : Quiet s (s.mapEngine g) :=
  ⟨.of_engine h hvals, fun _ hm _ => hm⟩

omit [Crypto] in
lemma Quiet.of_path (h : ReflTransGen Quiet s s') : Quiet s s' := by
  induction h with
  | refl => exact ⟨.refl s, fun _ hm _ => hm⟩
  | tail _ hstep ih =>
    exact ⟨ih.toUntouched.trans hstep.toUntouched, fun m hm ht => ih.proposals m (hstep.proposals m hm ht) ht⟩

omit [Crypto] in
lemma Quiet.untouched {α : Type} {x : EngineM α} {Q : α → Frame → Prop} (h : Leads Quiet x s Q) :
    Leads Untouched x s Q :=
  ⟨ReflTransGen.mono (fun _ _ hstep => hstep.toUntouched) _ _ h.path, h.2⟩

omit [Crypto] in
lemma Untouched.settled (h : Untouched s s') (hs : Settled s.engine) : Settled s'.engine := by
  intro t ht
  rw [Joined, h.rcSent, h.roundChanges, h.validators]
  exact hs t (h.round ▸ ht)

variable {block : Block} {h : PyStr} {m : ConsensusMessage}

omit [Crypto] in
lemma untouched_broadcast (m : ConsensusMessage) (s : Frame) :
    Leads Untouched (broadcast m) s fun _ _ => True :=
  Leads.modify ⟨Steady.refl _, rfl, List.subset_append_left _ _⟩ trivial

omit [Crypto] in
lemma quiet_broadcast (ht : m.type ≠ .PRE_PREPARE) (s : Frame) :
    Leads Quiet (broadcast m) s fun _ _ => True := by
  refine Leads.modify ⟨⟨Steady.refl _, rfl, List.subset_append_left _ _⟩, fun m' hm hm' => ?_⟩ trivial
  refine (List.mem_append.mp hm).resolve_right fun hm => ht ?_
  rw [← List.mem_singleton.mp hm, hm']

lemma quiet_tryPrepare (s : Frame) :
    Leads Quiet (tryPrepare block h) s fun _ _ => True := by
  unfold tryPrepare
  refine leads_self (Leads.ite (fun _ => ?_) fun _ => Leads.pure trivial)
  refine Leads.ite (fun _ => Leads.pure trivial) fun _ => ?_
  refine leads_update (.of_engine ⟨rfl, rfl, rfl⟩ rfl) (leads_update (.of_engine ⟨rfl, rfl, rfl⟩ rfl)
    (leads_update (.of_engine ⟨rfl, rfl, rfl⟩ rfl) (Leads.lift_bind fun commit hcommit => ?_)))
  have htype : commit.type ≠ .PRE_PREPARE := by
    rw [(ConsensusMessage.create_eq hcommit).1]
    decide
  refine leads_update (.of_engine ⟨rfl, rfl, rfl⟩ rfl) (Leads.bind (quiet_broadcast htype _) ?_)
  exact fun _ _ _ _ => Leads.pure trivial

omit [Crypto] in
lemma quiet_tryFinalize (s : Frame) : Leads Quiet (tryFinalize h) s fun _ _ => True := by
  unfold tryFinalize finalize
  refine leads_self (Leads.ite (fun _ => ?_) fun _ => Leads.pure trivial)
  refine leads_update (.of_engine ⟨rfl, rfl, rfl⟩ rfl) (Leads.bind (Q := fun _ _ => True) (leads_self ?_) ?_)
  · split
    · exact Leads.of_error _ _ rfl .refl
    · refine Leads.lift_bind fun sealed _ => leads_update (.of_engine ⟨rfl, rfl, rfl⟩ rfl) ?_
      exact Leads.pure trivial
  · exact fun _ _ _ _ => Leads.modify ⟨⟨Steady.refl _, rfl, List.Subset.refl _⟩, fun _ hm _ => hm⟩ trivial

lemma quiet_maybeAdvance (s : Frame) : Leads Quiet maybeAdvance s fun _ _ => True := by
  unfold maybeAdvance
  refine leads_self ?_
  split
  · exact Leads.pure trivial
  · refine Leads.lift_bind fun h _ => Leads.bind (quiet_tryPrepare s) fun ok s' _ _ => ?_
    exact Leads.ite (fun _ => quiet_tryFinalize s') fun _ => Leads.pure trivial

lemma quiet_acceptProposal (s : Frame) :
    Leads Quiet (acceptProposal block) s fun _ _ => True := by
  unfold acceptProposal
  refine leads_self (Leads.lift_bind fun h _ => Leads.ite (fun _ => Leads.pure trivial) fun _ => ?_)
  refine leads_update (.of_engine ⟨rfl, rfl, rfl⟩ rfl) (leads_update (.of_engine ⟨rfl, rfl, rfl⟩ rfl)
    (Leads.lift_bind fun prepare hprepare => leads_update (.of_engine ⟨rfl, rfl, rfl⟩ rfl) ?_))
  have htype : prepare.type ≠ .PRE_PREPARE := by
    rw [(ConsensusMessage.create_eq hprepare).1]
    decide
  exact Leads.bind (quiet_broadcast htype _) fun _ s' _ _ => quiet_maybeAdvance s'

lemma untouched_maybeAdvance (s : Frame) : Leads Untouched maybeAdvance s fun _ _ => True :=
  Quiet.untouched (quiet_maybeAdvance s)

lemma untouched_acceptProposal (s : Frame) : Leads Untouched (acceptProposal block) s fun _ _ => True :=
  Quiet.untouched (quiet_acceptProposal s)

lemma untouched_emitPrePrepare (cert : List ConsensusMessage) (s : Frame) :
    Leads Untouched (emitPrePrepare block cert) s fun _ _ => True := by
  unfold emitPrePrepare
  refine leads_self (Leads.lift_bind fun h _ => Leads.lift_bind fun pre _ => ?_)
  exact Leads.bind (untouched_broadcast pre s) fun _ s' _ _ => untouched_acceptProposal s'

lemma untouched_buildBlock (records : List IntegrityRecord) (s : Frame) :
    Leads Untouched (buildBlock records) s fun _ _ => True := by
  unfold buildBlock readClock
  refine Leads.bind (Q := fun _ _ => True) ?_ fun now s' _ _ => leads_self (Leads.lift fun _ _ => trivial)
  exact leads_self (leads_update (.of_engine ⟨rfl, rfl, rfl⟩ rfl) (Leads.pure trivial))

lemma untouched_proposeForRoundChange (target : ℤ) (s : Frame) :
    Leads Untouched (proposeForRoundChange target) s fun _ _ => True := by
  unfold proposeForRoundChange
  refine leads_self (Leads.ite (fun _ => Leads.pure trivial) fun _ => ?_)
  refine Leads.ite (fun _ => Leads.pure trivial) fun _ => Leads.lift_bind fun verdict _ => ?_
  cases verdict.2 with
  | some justified =>
    refine Leads.lift_bind fun block _ => ?_
    cases block with
    | none => exact Leads.pure trivial
    | some block => exact untouched_emitPrePrepare _ s
  | none =>
    refine Leads.bind (Leads.bind (untouched_buildBlock _ s) (P := fun _ _ => True)
      fun _ _ _ _ => Leads.pure trivial) fun block s' _ _ => ?_
    cases block with
    | none => exact Leads.pure trivial
    | some block => exact untouched_emitPrePrepare _ s'

lemma untouched_proposalJustified (s : Frame) :
    Leads Untouched (proposalJustified m) s fun _ s' => s' = s := by
  unfold proposalJustified
  refine leads_self (Leads.lift_bind fun verdict _ => Leads.ite (fun _ => Leads.pure rfl) fun _ => ?_)
  split
  · exact Leads.pure rfl
  · split
    · exact Leads.pure rfl
    · exact Leads.lift_bind fun _ _ => Leads.pure rfl

/-- What is done with a proposal once its round was entered. -/
lemma untouched_of_entered (h : enterRound m s = (.ok true, s')) :
    Untouched s' (handlePrePrepare m s).2 := by
  rw [handlePrePrepare, Eff.bind_apply_ok h, if_neg (not_not.mpr rfl)]
  refine Untouched.of_path (Leads.path (Q := fun _ _ => True) ?_)
  refine leads_self (Leads.ite (fun _ => Leads.pure trivial) fun _ => ?_)
  refine Leads.lift_bind fun sender _ => Leads.ite (fun _ => Leads.pure trivial) fun _ => ?_
  cases m.block with
  | none => exact Leads.pure trivial
  | some block =>
    refine Leads.lift_bind fun h _ => Leads.ite (fun _ => Leads.pure trivial) fun _ => ?_
    refine Leads.lift_bind fun valid _ => Leads.ite (fun _ => Leads.pure trivial) fun _ => ?_
    refine Leads.ite (fun _ => ?_) fun _ => untouched_acceptProposal s'
    refine Leads.bind (untouched_proposalJustified s') fun ok s'' _ _ => ?_
    exact Leads.ite (fun _ => Leads.pure trivial) fun _ => untouched_acceptProposal s''

/-! ### The loop -/

/-- Without a proposal, a replayed vote is only counted. -/
lemma replayVote_of_none (hs : s.engine.proposal = none) (m : ConsensusMessage) :
    ∃ prepares commits, (replayVote m s).2 = s.mapEngine fun e => { e with
      prepares := prepares
      commits := commits } := by
  cases ht : m.type with
  | PREPARE =>
    have hrun : replayVote m s = handlePrepare m s := by rw [replayVote, ht]
    rw [hrun, handlePrepare, recordPrepare, update_bind, maybeAdvance_of_none]
    · exact ⟨_, _, rfl⟩
    · exact hs
  | COMMIT =>
    have hrun : replayVote m s = handleCommit m s := by rw [replayVote, ht]
    rw [hrun, handleCommit]
    cases hseal : validCommitSeal m with
    | error err => exact ⟨_, _, rfl⟩
    | ok ok =>
      rw [Eff.lift_bind_ok rfl]
      cases ok with
      | false => exact ⟨_, _, rfl⟩
      | true =>
        rw [if_pos rfl, update_bind, maybeAdvance_of_none]
        · exact ⟨_, _, rfl⟩
        · exact hs
  | _ =>
    have hrun : replayVote m s = (.ok (), s) := by rw [replayVote, ht]; rfl
    rw [hrun]
    exact ⟨_, _, rfl⟩

/-- A round is adopted; it has no proposal yet. -/
lemma adoptRound_eq {target : ℤ} (hr : s.engine.round < target) :
    ∃ prepares commits, (adoptRound target s).2 = s.mapEngine fun e => { e.startRound target with
      buffer := e.buffer.filter fun m => target < m.round
      prepares := prepares
      commits := commits } := by
  rw [adoptRound, self_bind, if_neg (not_le.mpr hr), update_bind]
  refine Eff.forM_keeps (I := fun t => ∃ prepares commits, t = s.mapEngine fun e =>
    { e.startRound target with
      buffer := e.buffer.filter fun m => target < m.round
      prepares := prepares
      commits := commits }) ⟨_, _, rfl⟩ ?_
  rintro m - _ ⟨prepares, commits, rfl⟩
  obtain ⟨prepares', commits', hreplay⟩ := replayVote_of_none (s := s.mapEngine fun e =>
    { e.startRound target with
      buffer := e.buffer.filter fun m => target < m.round
      prepares := prepares
      commits := commits }) rfl m
  exact ⟨prepares', commits', hreplay⟩

/-- All rounds that enough validators ask for are joined, without an exception. -/
lemma accelerate_joins (hs : s.engine.Sound) (targets : List ℤ) :
    Returns (accelerate targets) s fun _ s' => s'.engine.Sound ∧
      s'.engine.validators = s.engine.validators ∧ s'.engine.round = s.engine.round ∧
      (∀ t, Joined s.engine t → Joined s'.engine t) ∧
      ∀ t ∈ targets, s.engine.round < t → Joined s'.engine t := by
  induction targets generalizing s with
  | nil => exact Returns.pure ⟨hs, rfl, rfl, fun _ h => h, fun t ht => (by cases ht)⟩
  | cons target targets ih =>
    unfold accelerate
    refine returns_self (Returns.ite (fun hcond => ?_) fun hcond => ?_)
    · obtain ⟨-, hunsent, -⟩ := hcond
      obtain ⟨m, hm⟩ := exists_roundChange_of_sound hs target
      have hsend := sendRoundChange_eq hunsent hm
      have hsound := hs.leave hm
      refine Returns.bind (Q := fun _ s' => s' = s.leave target m) (.of_eq hsend rfl) ?_
      rintro _ _ rfl
      refine Returns.bind (ih hsound) ?_
      rintro _ s' ⟨hsound', hvals, hround, hkeep, hall⟩
      refine Returns.pure ⟨hsound', hvals, hround, fun t h => hkeep t (h.leave target m), ?_⟩
      intro t hmem hlt
      rcases List.mem_cons.mp hmem with rfl | hmem
      · exact hkeep t (Or.inl List.mem_cons_self)
      · exact hall t hmem hlt
    · refine (ih hs).mono ?_
      rintro _ s' ⟨hsound', hvals, hround, hkeep, hall⟩
      refine ⟨hsound', hvals, hround, hkeep, fun t hmem hlt => ?_⟩
      rcases List.mem_cons.mp hmem with rfl | hmem
      · refine hkeep t ?_
        by_contra hno
        simp only [Joined, not_or, not_le] at hno
        exact hcond ⟨hlt, hno.1, hno.2⟩
      · exact hall t hmem hlt

/-- What the loop does, whatever number of passes it has left from two on: it joins all rounds that enough
validators ask for, and then stops, or adopts the highest round with a quorum. -/
lemma roundChangeLoop_cases (hs : s.engine.Sound) : ∃ sent s₁,
    accelerate (s.engine.roundChanges.keys.insertionSort (· ≤ ·)) s = (.ok sent, s₁) ∧
      ((Settled s₁.engine ∧ ∀ n, roundChangeLoop (n + 2) s = (.ok (), s₁)) ∨
        ∃ best s₂, s₁.engine.bestRound = some best ∧ adoptRound best s₁ = (.ok (), s₂) ∧
          Settled (proposeForRoundChange best s₂).2.engine ∧
          ∀ n, roundChangeLoop (n + 2) s = proposeForRoundChange best s₂) := by
  obtain ⟨sent, s₁, hrun, hsound, hvals, hround, hkeep, hall⟩ :=
    accelerate_joins hs (s.engine.roundChanges.keys.insertionSort (· ≤ ·))
  have hjoined : ∀ t, s₁.engine.round < t → Joined s₁.engine t := fun t ht =>
    joined_of_sorted hkeep hall t (hround ▸ ht)
  have hlast : s₁.engine.bestRound = none → ∀ n, roundChangeLoop (n + 1) s =
      (if sent then roundChangeLoop n else pure () : EngineM Unit) s₁ := by
    intro hnone n
    rw [roundChangeLoop, self_bind, Eff.bind_apply_ok hrun, self_bind, hnone]
  have hpass : ∀ best, s₁.engine.bestRound = some best → ∀ n, roundChangeLoop (n + 1) s = (do
      adoptRound best
      proposeForRoundChange best
      roundChangeLoop n : EngineM Unit) s₁ := by
    intro best hsome n
    rw [roundChangeLoop, self_bind, Eff.bind_apply_ok hrun, self_bind, hsome]
  refine ⟨sent, s₁, hrun, ?_⟩
  cases hbest : s₁.engine.bestRound with
  | none =>
    -- the second pass finds nothing left to join
    have hsettled : Settled s₁.engine := fun t ht => ⟨hjoined t ht, lt_quorum_of_bestRound hbest ht⟩
    refine Or.inl ⟨hsettled, fun n => ?_⟩
    rw [hlast hbest]
    cases sent with
    | false => rfl
    | true => exact roundChangeLoop_of_settled hsettled (n + 1)
  | some best =>
    obtain ⟨hlt, -, hmax⟩ := bestRound_eq_some hbest
    obtain ⟨_, s₂, hadopt, -⟩ := adoptRound_keeps hsound best
    obtain ⟨prepares, commits, hs₂⟩ := adoptRound_eq (s := s₁) hlt
    rw [hadopt] at hs₂
    -- `best` was the highest round with a quorum, and all later ones have been joined
    have hsettled₂ : Settled s₂.engine := by
      rw [show s₂ = _ from hs₂]
      intro t hlater
      refine ⟨hjoined t (hlt.trans hlater), ?_⟩
      by_contra hno
      exact absurd (hmax t (hlt.trans hlater) (not_lt.mp hno)) (not_le.mpr hlater)
    have hsettled₃ : Settled (proposeForRoundChange best s₂).2.engine :=
      (Untouched.of_path (untouched_proposeForRoundChange best s₂).path).settled hsettled₂
    refine Or.inr ⟨best, s₂, rfl, hadopt, hsettled₃, fun n => ?_⟩
    rw [hpass best hbest, Eff.bind_apply_ok hadopt]
    rcases hpropose : proposeForRoundChange best s₂ with ⟨err | _, s₃⟩
    · exact Eff.bind_apply_error hpropose
    · rw [hpropose] at hsettled₃
      exact (Eff.bind_apply_ok hpropose).trans (roundChangeLoop_of_settled hsettled₃ (n + 1))

/-- The loop settles the engine, also when it raises, and more passes than two do nothing. -/
lemma roundChangeLoop_settles (hs : s.engine.Sound) (n : ℕ) :
    Settled (roundChangeLoop (n + 2) s).2.engine ∧
      roundChangeLoop (n + 2) s = roundChangeLoop 2 s := by
  obtain ⟨sent, s₁, -, ⟨hsettled, hrun⟩ | ⟨best, s₂, -, -, hsettled, hrun⟩⟩ := roundChangeLoop_cases hs
  · exact ⟨hrun n ▸ hsettled, (hrun n).trans (hrun 0).symm⟩
  · exact ⟨hrun n ▸ hsettled, (hrun n).trans (hrun 0).symm⟩

lemma processRoundChanges_settles (hs : s.engine.Sound) :
    Settled (processRoundChanges s).2.engine := by
  obtain ⟨n, hn⟩ := Nat.exists_eq_add_of_lt s.engine.validators.size_pos
  have hrun : processRoundChanges s = roundChangeLoop (n + 2) s := by
    rw [processRoundChanges, self_bind, hn, Nat.zero_add]
  rw [hrun]
  exact (roundChangeLoop_settles hs n).1

/-- A later ROUND_CHANGE settles the engine, or is not stored. -/
lemma handleRoundChange_settles (hs : s.engine.Sound) (hset : Settled s.engine)
    (hauth : authentic s.engine.validators m = .ok true) :
    Settled (handleRoundChange m s).2.engine := by
  rw [handleRoundChange, self_bind]
  split_ifs with hr
  · exact hset
  · obtain ⟨ok, hok⟩ := exists_validRoundChange s.engine.height hauth
    rw [Eff.lift_bind_ok hok]
    split_ifs
    · rw [update_bind]
      exact processRoundChanges_settles (s := s.mapEngine _)
        (hs.store (isScalar_of_authentic hauth) _ _)
    · exact hset

/-- A timeout settles the engine, unless it has decided. -/
lemma onTimeout_settles (hs : s.engine.Sound) (hset : Settled s.engine) :
    Settled (onTimeout s).2.engine := by
  rw [onTimeout, self_bind]
  split_ifs with hphase
  · exact hset
  · have hsend : ∃ s', sendRoundChange s.engine.nextTarget s = (.ok (), s') ∧ s'.engine.Sound := by
      by_cases hsent : s.engine.nextTarget ∈ s.engine.rcSent
      · exact ⟨s, sendRoundChange_of_sent hsent, hs⟩
      · obtain ⟨m, hm⟩ := exists_roundChange_of_sound hs s.engine.nextTarget
        exact ⟨_, sendRoundChange_eq hsent hm, hs.leave hm⟩
    obtain ⟨s', hrun, hsound⟩ := hsend
    rw [Eff.bind_apply_ok hrun]
    exact processRoundChanges_settles hsound

end EngineM

/-! ### Certificates that are stored -/

/-- The messages of a certificate before the first one that cannot be checked. -/
def checkedPart (V : ValidatorSet) (height : ℤ) (cert : List ConsensusMessage) :
    List ConsensusMessage :=
  cert.takeWhile fun m => (storable V height m).isOk

lemma checkedPart_cons_ok {V : ValidatorSet} {height : ℤ} {m : ConsensusMessage} {ok : Bool}
    (hm : storable V height m = .ok ok) (cert : List ConsensusMessage) :
    checkedPart V height (m :: cert) = m :: checkedPart V height cert := by
  have hok : (storable V height m).isOk = true := by rw [hm]; rfl
  simp only [checkedPart, List.takeWhile_cons, hok, if_true]

lemma checkedPart_cons_error {V : ValidatorSet} {height : ℤ} {m : ConsensusMessage} {err : PyError}
    (hm : storable V height m = .error err) (cert : List ConsensusMessage) :
    checkedPart V height (m :: cert) = [] := by
  have hok : (storable V height m).isOk = false := by rw [hm]; rfl
  simp only [checkedPart, List.takeWhile_cons, hok, Bool.false_eq_true, if_false]

/-- The senders who ask for round `t` once a certificate is stored, as far as it can be checked. -/
def ConsensusEngine.changersWith (e : ConsensusEngine) (cert : List ConsensusMessage) (t : ℤ) :
    Finset PyStr :=
  ((e.roundChanges.getD t).keys ++ ((checkedPart e.validators e.height cert).filter fun m =>
    (storable e.validators e.height m).toOption = some true ∧ m.round = t).map (·.sender)).toFinset

lemma ConsensusEngine.mem_changersWith {e : ConsensusEngine} {cert : List ConsensusMessage} {t : ℤ}
    {i : PyStr} : i ∈ e.changersWith cert t ↔ i ∈ (e.roundChanges.getD t).keys ∨
      ∃ m ∈ checkedPart e.validators e.height cert,
        storable e.validators e.height m = .ok true ∧ m.round = t ∧ m.sender = i := by
  have hok : ∀ m, (storable e.validators e.height m).toOption = some true ↔
      storable e.validators e.height m = .ok true := by
    intro m
    cases storable e.validators e.height m <;> simp [Except.toOption]
  simp only [changersWith, List.mem_toFinset, List.mem_append, List.mem_map, List.mem_filter,
    decide_eq_true_eq, hok, and_assoc]

/-- The round that a proposal takes the engine to: its own, if its whole certificate can be checked. -/
def ConsensusEngine.roundWith (e : ConsensusEngine) (p : ConsensusMessage) : ℤ :=
  if ∀ m ∈ p.roundChangeCert, (storable e.validators e.height m).isOk then p.round else e.round

/-- A proposal that the call enters a round with leaves no later round with a quorum, and none that
`f + 1` validators ask for and the engine has not joined. -/
def Call.Settles (c : Call) (e : ConsensusEngine) : Prop :=
  ∀ p, c.Enters e p → ∀ t, e.roundWith p < t →
    (t ∈ e.rcSent ∨ (e.changersWith p.roundChangeCert t).card ≤ e.validators.maxFaulty) ∧
      (e.changersWith p.roundChangeCert t).card < e.validators.quorum

namespace EngineM

variable {m : ConsensusMessage}

/-- What storing a certificate does, also when it raises. -/
lemma ingest_eq (cert : List ConsensusMessage) (s : Frame) :
    ∃ d, (cert.forM ingestRoundChange s).2 = s.mapEngine (fun e => { e with roundChanges := d }) ∧
      (∀ t, (d.getD t).keys.toFinset = s.engine.changersWith cert t) ∧
      ((cert.forM ingestRoundChange s).1 = .ok () ↔
        ∀ m ∈ cert, (storable s.engine.validators s.engine.height m).isOk) := by
  induction cert generalizing s with
  | nil =>
    refine ⟨s.engine.roundChanges, rfl, fun t => ?_, iff_of_true rfl fun m hm => by cases hm⟩
    ext i
    simp [ConsensusEngine.mem_changersWith, checkedPart]
  | cons m cert ih =>
    have hcons : (m :: cert).forM ingestRoundChange s =
        (ingestRoundChange m >>= fun _ => cert.forM ingestRoundChange) s := rfl
    have hrun := ingestRoundChange_eq m s
    cases hstore : storable s.engine.validators s.engine.height m with
    | error err =>
      rw [hstore] at hrun
      rw [hcons, Eff.bind_apply_error hrun]
      refine ⟨s.engine.roundChanges, rfl, fun t => ?_, iff_of_false (by rintro ⟨⟩) fun hall => ?_⟩
      · ext i
        simp [ConsensusEngine.mem_changersWith, checkedPart_cons_error hstore]
      · have hm := hall m List.mem_cons_self
        rw [hstore] at hm
        cases hm
    | ok ok =>
      have hok : (storable s.engine.validators s.engine.height m).isOk = true := by rw [hstore]; rfl
      cases ok with
      | false =>
        rw [hstore] at hrun
        rw [hcons, Eff.bind_apply_ok hrun]
        obtain ⟨d, hd, hkeys, hreturns⟩ := ih s
        refine ⟨d, hd, fun t => (hkeys t).trans ?_, ?_⟩
        · ext i
          simp [ConsensusEngine.mem_changersWith, checkedPart_cons_ok hstore, hstore]
        · rw [hreturns, List.forall_mem_cons, and_iff_right hok]
      | true =>
        rw [hstore] at hrun
        rw [hcons, Eff.bind_apply_ok hrun]
        obtain ⟨d, hd, hkeys, hreturns⟩ := ih (s.mapEngine fun e => { e with
          roundChanges := e.roundChanges.setIn m.round m.sender m })
        refine ⟨d, hd, fun t => (hkeys t).trans ?_, ?_⟩
        · ext i
          simp only [ConsensusEngine.mem_changersWith, checkedPart_cons_ok hstore, Frame.mapEngine,
            Dict.mem_keys_getD_setIn, List.exists_mem_cons_iff, hstore, true_and, or_assoc]
          rw [or_left_comm, eq_comm (a := t), eq_comm (a := i)]
        · rw [List.forall_mem_cons, and_iff_right hok]
          exact hreturns

/-- A proposal that the call enters a round with: what it leaves, also when it raises. -/
lemma handlePrePrepare_enters {p : ConsensusMessage} (he : e₀.Sound) (hp : c.Enters e₀ p) :
    ∃ e, (handlePrePrepare p ⟨e₀, {}⟩).2.engine = e ∧ e.validators = e₀.validators ∧
      e.rcSent = e₀.rcSent ∧ e.round = e₀.roundWith p ∧
      ∀ t, (e.roundChanges.getD t).keys.toFinset = e₀.changersWith p.roundChangeCert t := by
  refine ⟨_, rfl, ?_⟩
  obtain ⟨justified, hverdict⟩ := hp.cert
  obtain ⟨d, hd, hkeys, hreturns⟩ := ingest_eq p.roundChangeCert ⟨e₀, {}⟩
  have hpath := (ingest_leads hp).path
  have henter : enterRound p ⟨e₀, {}⟩ = (do
      p.roundChangeCert.forM ingestRoundChange
      adoptRound p.round
      return true : EngineM Bool) ⟨e₀, {}⟩ := by
    rw [enterRound, self_bind, if_pos hp.round, Eff.lift_bind_ok hverdict]
    rfl
  rcases hrun : p.roundChangeCert.forM ingestRoundChange ⟨e₀, {}⟩ with ⟨err | _, s₁⟩
  · rw [hrun] at hd hreturns
    have hraise : ¬∀ m ∈ p.roundChangeCert, (storable e₀.validators e₀.height m).isOk := fun hall =>
      (by cases hreturns.mpr hall)
    rw [handlePrePrepare, Eff.bind_apply_error (henter.trans (Eff.bind_apply_error hrun)),
      ConsensusEngine.roundWith, if_neg hraise]
    simp only at hd
    subst hd
    exact ⟨rfl, rfl, rfl, hkeys⟩
  · rw [hrun] at hd hreturns hpath
    simp only at hd
    have hlt : s₁.engine.round < p.round := by
      rw [hd]
      exact hp.round
    obtain ⟨prepares, commits, hs₂⟩ := adoptRound_eq hlt
    obtain ⟨_, s₂, hadopt, -⟩ := adoptRound_keeps (Reached.sound (c := c) hpath he) p.round
    rw [hadopt, hd] at hs₂
    simp only at hs₂
    have hentered : enterRound p ⟨e₀, {}⟩ = (.ok true, s₂) :=
      henter.trans ((Eff.bind_apply_ok hrun).trans ((Eff.bind_apply_ok hadopt).trans rfl))
    have hrest := untouched_of_entered hentered
    rw [ConsensusEngine.roundWith, if_pos (hreturns.mp rfl)]
    subst hs₂
    refine ⟨hrest.validators, hrest.rcSent, hrest.round, fun t => ?_⟩
    rw [← hkeys, hrest.roundChanges]
    rfl

end EngineM

/-! ### Calls -/

open EngineM (Settled Untouched)

/-- A call that neither processes ROUND_CHANGEs nor enters a round with a proposal. -/
lemma Reached.untouched (hs : Reached e₀ c s) (hchanging : ¬c.Changing e₀)
    (hentering : ∀ p, ¬c.Enters e₀ p) : Untouched ⟨e₀, {}⟩ s := by
  induction hs with
  | refl => exact .refl _
  | tail _ hmove ih =>
    refine ih.trans ?_
    have hsent := hmove.broadcast_subset
    cases hmove with
    | store hm =>
      rcases hm with ⟨hm, hr⟩ | ⟨p, hp, -⟩
      · exact absurd (Or.inr ⟨_, hm, hr⟩) hchanging
      · exact absurd hp (hentering p)
    | leave hc => exact absurd hc hchanging
    | adopt hr hnone hwhy =>
      rcases hwhy with ⟨hc, -⟩ | ⟨p, hp, -⟩
      · exact absurd hc hchanging
      · exact absurd hp (hentering p)
    | _ => exact ⟨⟨rfl, rfl, rfl⟩, rfl, hsent⟩

/-- A settled engine is settled after a call just if the call settles it. -/
lemma Call.settled_iff {e : ConsensusEngine} (he : e.Sound) (hset : Settled e) (c : Call) :
    Settled (c.run e).2.engine ↔ c.Settles e := by
  by_cases hchanging : c.Changing e
  · refine iff_of_true ?_ fun p hp => absurd hp hchanging.not_enters
    rcases hchanging with ⟨rfl, -⟩ | ⟨m, hm, -⟩
    · exact EngineM.onTimeout_settles (s := ⟨e, {}⟩) he hset
    · obtain ⟨rfl, hacc, ht⟩ := hm
      have hrun : EngineM.handle m ⟨e, {}⟩ = EngineM.handleRoundChange m ⟨e, {}⟩ := by
        rw [EngineM.handle_eq ⟨rfl, rfl, rfl, rfl⟩ hacc, ht]
      rw [Call.run, Call.body, hrun]
      exact EngineM.handleRoundChange_settles (s := ⟨e, {}⟩) he hset hacc.authentic
  · by_cases hentering : ∃ p, c.Enters e p
    · obtain ⟨p, hp⟩ := hentering
      obtain ⟨rfl, hacc, ht⟩ := hp.handles
      have hrun : EngineM.handle p ⟨e, {}⟩ = EngineM.handlePrePrepare p ⟨e, {}⟩ := by
        rw [EngineM.handle_eq ⟨rfl, rfl, rfl, rfl⟩ hacc, ht]
      obtain ⟨e', he', hvals, hsent, hround, hkeys⟩ := EngineM.handlePrePrepare_enters he hp
      rw [Call.run, Call.body, hrun, he']
      have hcard : ∀ t, (e'.roundChanges.getD t).len = (e.changersWith p.roundChangeCert t).card :=
        fun t => by rw [Dict.len_eq_card, hkeys]
      constructor
      · intro h q hq t ht
        obtain rfl : p = q := by
          have heq := hq.handles.eq
          cases heq
          rfl
        have hlater := h t (hround.symm ▸ ht)
        rwa [EngineM.Joined, hcard, hvals, hsent] at hlater
      · intro h t ht
        rw [EngineM.Joined, hcard, hvals, hsent]
        exact h p hp t (hround ▸ ht)
    · push Not at hentering
      refine iff_of_true ?_ fun p hp => absurd hp (hentering p)
      exact ((c.run_moves e).untouched hchanging hentering).settled hset

/-- In every run with calls and crashes whose proposals, where they enter a round with their
certificate, leave no later round with a quorum and none to be joined: no round change is left unused in
any state reached. A further call, also one that raises, leaves none just if its proposal does. The loop
over round changes never stops at its bound: more passes would change nothing. -/
theorem no_quorum_unused {V : ValidatorSet} {key : PrivateKey} {height : ℤ} {previousHash : PyStr}
    {nowMs : ℕ → ℤ} {journal : VoteJournal} {e₀ : ConsensusEngine}
    (hnew : ConsensusEngine.new V key height previousHash nowMs journal = .ok e₀)
    (hjournal : journal.Hashable) {v : Validator}
    (hrun : ReflTransGen (Validator.Step fun e c => c.Settles e) { engine := e₀ } v) :
    Settled v.engine ∧
    (∀ c, Settled (v.call c).engine ↔ c.Settles v.engine) ∧
    ∀ c s, Reached v.engine c s → ∀ n,
      EngineM.roundChangeLoop (s.engine.validators.size + 1 + n) s =
        EngineM.roundChangeLoop (s.engine.validators.size + 1) s := by
  have hinitial : ∀ (V : ValidatorSet) (key : PrivateKey) (height : ℤ) (previousHash : PyStr)
      (nowMs : ℕ → ℤ) (journal : VoteJournal),
      Settled (.initial V key height previousHash nowMs journal) :=
    fun V _ _ _ _ _ t _ => ⟨Or.inr (Nat.zero_le _), V.quorum_pos⟩
  obtain ⟨-, rfl⟩ := ConsensusEngine.new_eq_ok.mp hnew
  have hsound : v.engine.Sound := .run hrun (.initial hjournal _ _ _ _ _)
  have hsettled : Settled v.engine := by
    clear hsound
    induction hrun with
    | refl => exact hinitial _ _ _ _ _ _
    | @tail w _ hpast hstep ih =>
      have hw : w.engine.Sound := .run hpast (.initial hjournal _ _ _ _ _)
      cases hstep with
      | call c hc => exact (Call.settled_iff hw ih c).mpr hc
      | crash => exact hinitial _ _ _ _ _ _
  refine ⟨hsettled, fun c => Call.settled_iff hsound hsettled c, fun c s hs n => ?_⟩
  obtain ⟨k, hk⟩ := Nat.exists_eq_add_of_lt s.engine.validators.size_pos
  have hmore := (EngineM.roundChangeLoop_settles (hs.sound hsound) (k + n)).2
  have hbound := (EngineM.roundChangeLoop_settles (hs.sound hsound) k).2
  rw [show s.engine.validators.size + 1 + n = k + n + 2 by omega,
    show s.engine.validators.size + 1 = k + 2 by omega, hmore, hbound]

omit [Crypto] in
/-- The first of two validators joins the round change of the other one and adopts its round. -/
theorem no_quorum_unused_of_pair :
    letI := Crypto.checksums
    ∃ change, ConsensusMessage.create .ROUND_CHANGE 1 1 ZERO_HASH (seedKey 0xbb) = .ok change ∧
      let v := ({ engine := .ofSeed .pair 0xaa .null } : Validator).call (.handle change)
      v.engine.round = 1 ∧ Settled v.engine := by
  let := Crypto.checksums
  have hrun : (ConsensusMessage.create .ROUND_CHANGE 1 1 ZERO_HASH (seedKey 0xbb)).map
      (fun change =>
        (({ engine := .ofSeed .pair 0xaa .null } : Validator).call (.handle change)).engine.round) =
      .ok 1 := by
    decide +kernel
  obtain ⟨change, hcreate, hround⟩ := exists_of_map_eq_ok hrun
  obtain ⟨htype, -⟩ := ConsensusMessage.create_eq hcreate
  have hnew : ConsensusEngine.new .pair (seedKey 0xaa) 1 ZERO_HASH (fun i => i) .null =
      .ok (.ofSeed .pair 0xaa .null) :=
    ConsensusEngine.new_eq_ok.mpr ⟨List.mem_cons_self, rfl⟩
  have hjournal : VoteJournal.null.Hashable := ⟨fun _ h => (by cases h), fun _ h => (by cases h)⟩
  have hsettles : (Call.handle change).Settles (.ofSeed .pair 0xaa .null) := by
    intro p hp
    have htype' := hp.handles.type
    cases hp.handles.eq
    rw [htype] at htype'
    cases htype'
  exact ⟨change, hcreate, hround, (no_quorum_unused hnew hjournal (.single (.call _ hsettles))).1⟩

omit [Crypto] in
/-- The certificate of a proposal for round 1 also holds the ROUND_CHANGEs of both validators for round
2: the proposal is handled without an exception, and the engine stays in round 1. -/
theorem quorum_unused_after_proposal :
    letI := Crypto.checksums
    ∃ own own' change change' proposal,
      ConsensusMessage.create .ROUND_CHANGE 1 1 ZERO_HASH (seedKey 0xaa) = .ok own ∧
      ConsensusMessage.create .ROUND_CHANGE 1 2 ZERO_HASH (seedKey 0xaa) = .ok own' ∧
      ConsensusMessage.create .ROUND_CHANGE 1 1 ZERO_HASH (seedKey 0xbb) = .ok change ∧
      ConsensusMessage.create .ROUND_CHANGE 1 2 ZERO_HASH (seedKey 0xbb) = .ok change' ∧
      ConsensusMessage.create .PRE_PREPARE 1 1 ZERO_HASH (seedKey 0xbb) none none []
        [own, change, own', change'] = .ok proposal ∧
      let v := [.onTimeout, .onTimeout].foldl Validator.call { engine := .ofSeed .pair 0xaa .null }
      [own, own'].map (·.signature) = v.sent.map (·.signature) ∧
      ((Call.handle proposal).run v.engine).1 = .ok () ∧
      (v.call (.handle proposal)).engine.round = 1 ∧
      (v.call (.handle proposal)).engine.validators.quorum ≤
        ((v.call (.handle proposal)).engine.roundChanges.getD 2).len ∧
      ¬Settled (v.call (.handle proposal)).engine := by
  let := Crypto.checksums
  have hrun : (ConsensusMessage.create .ROUND_CHANGE 1 1 ZERO_HASH (seedKey 0xaa)).map
      (fun own => (ConsensusMessage.create .ROUND_CHANGE 1 2 ZERO_HASH (seedKey 0xaa)).map
      fun own' => (ConsensusMessage.create .ROUND_CHANGE 1 1 ZERO_HASH (seedKey 0xbb)).map
      fun change => (ConsensusMessage.create .ROUND_CHANGE 1 2 ZERO_HASH (seedKey 0xbb)).map
      fun change' => (ConsensusMessage.create .PRE_PREPARE 1 1 ZERO_HASH (seedKey 0xbb) none none []
        [own, change, own', change']).map
      fun proposal =>
        let v := [.onTimeout, .onTimeout].foldl Validator.call
          { engine := .ofSeed .pair 0xaa .null }
        decide ([own, own'].map (·.signature) = v.sent.map (·.signature) ∧
          ((Call.handle proposal).run v.engine).1.isOk ∧
          (v.call (.handle proposal)).engine.round = 1 ∧
          (v.call (.handle proposal)).engine.validators.quorum ≤
            ((v.call (.handle proposal)).engine.roundChanges.getD 2).len)) =
      .ok (.ok (.ok (.ok (.ok true)))) := by
    decide +kernel
  obtain ⟨own, hown, hrun⟩ := exists_of_map_eq_ok hrun
  obtain ⟨own', hown', hrun⟩ := exists_of_map_eq_ok hrun
  obtain ⟨change, hchange, hrun⟩ := exists_of_map_eq_ok hrun
  obtain ⟨change', hchange', hrun⟩ := exists_of_map_eq_ok hrun
  obtain ⟨proposal, hproposal, hrun⟩ := exists_of_map_eq_ok hrun
  refine ⟨own, own', change, change', proposal, hown, hown', hchange, hchange', hproposal, ?_⟩
  intro v
  obtain ⟨hsent, hok, hround, hquorum⟩ := of_decide_eq_true hrun
  obtain ⟨_, hok⟩ := exists_of_isOk hok
  refine ⟨hsent, hok, hround, hquorum, fun hsettled => ?_⟩
  exact absurd hquorum (not_le.mpr (hsettled 2 (hround ▸ by decide)).2)

end Helix
