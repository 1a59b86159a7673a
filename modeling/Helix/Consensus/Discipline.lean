import Helix.Consensus.Run

/-!
# Round-change discipline

Once an engine has sent a ROUND_CHANGE for round `t`, it should not prepare, commit or finalize in a
round below `t`: the lock that the ROUND_CHANGE reports must stay the truth about those rounds. The
engine keeps counting votes for its old round until it adopts the new one, so this fails. It holds in
every run in which no call finds a quorum for a round below one it has announced.
-/

namespace Helix

variable [Crypto] {e₀ : ConsensusEngine} {c : Call} {s : Frame}

/-- The votes at hand let the call prepare only in rounds that no announced round exceeds. -/
def PreparesAhead (e : ConsensusEngine) (c : Call) : Prop :=
  ∀ r h t, CanPrepare e c r h → Announces e c t → t ≤ r

/-- The senders whose COMMIT for `h` the call can count in the engine's round. -/
def commitHolders (e : ConsensusEngine) (c : Call) (h : PyStr) : Finset PyStr :=
  ((e.commits.getD h).keys ++ ((e.buffer ++ c.messages).filter fun m =>
    m.type = .COMMIT ∧ m.round = e.round ∧ m.blockHash = h).map (·.sender)).toFinset

/-- The call can finalize the proposal of a PREPARED engine. -/
structure CanFinalize (e : ConsensusEngine) (c : Call) (r : ℤ) : Prop where
  closes : c.Closes e r
  seals : ∃ block h, e.proposal = some block ∧ block.hash = .ok h ∧
    e.validators.quorum ≤ (commitHolders e c h).card

/-- The seals at hand let the call finalize only in rounds that no announced round exceeds. -/
def FinalizesAhead (e : ConsensusEngine) (c : Call) : Prop :=
  ∀ r t, CanFinalize e c r → Announces e c t → t ≤ r

/-! ### A check of the discipline -/

/-- The rounds and blocks for which the call has a PREPARE of somebody at hand. -/
def votesAtHand (e : ConsensusEngine) (c : Call) : List (ℤ × PyStr) :=
  e.prepares.keys.map (e.round, ·) ++
    ((e.buffer ++ c.messages).filter (·.type = .PREPARE)).map fun m => (m.round, m.blockHash)

/-- The rounds that the call can announce. -/
def targets (e : ConsensusEngine) : Call → List ℤ
  | .setPending _ _ => e.rcSent
  | .onTimeout => e.nextTarget :: e.roundChanges.keys ++ e.rcSent
  | .handle m => if m.type = .ROUND_CHANGE then m.round :: e.roundChanges.keys ++ e.rcSent else e.rcSent

/-- The call can bring the engine to PREPARED in round `r`, by the kind of call. -/
def mayOpen (e : ConsensusEngine) (r : ℤ) : Call → Bool
  | .setPending _ _ => e.phase = .NEW_ROUND
  | .onTimeout => e.round < r
  | .handle m =>
    match m.type with
    | .PRE_PREPARE => e.round < r ∨ e.phase = .NEW_ROUND
    | .ROUND_CHANGE => e.round < r
    | _ => e.phase = .PRE_PREPARED

/-- A check for `PreparesAhead`. -/
def keepsAhead (e : ConsensusEngine) (c : Call) : Bool :=
  (votesAtHand e c).all fun p => !mayOpen e p.1 c ||
    decide ((prepareHolders e c p.1 p.2).card < e.validators.quorum) || (targets e c).all (· ≤ p.1)

lemma mem_votesAtHand {e : ConsensusEngine} {c : Call} (hquorum : 2 ≤ e.validators.quorum)
    {r : ℤ} {h : PyStr} (hcan : CanPrepare e c r h) : (r, h) ∈ votesAtHand e c := by
  obtain ⟨k, hk, hne⟩ : ∃ k ∈ prepareHolders e c r h, k ≠ e.me.toHex := by
    by_contra hno
    push Not at hno
    have hcard := Finset.card_le_card (Finset.subset_singleton_iff'.mpr hno)
    rw [Finset.card_singleton] at hcard
    have hvotes := hcan.votes
    omega
  have hk' := (Finset.mem_insert.mp hk).resolve_left hne
  rw [List.mem_toFinset, List.mem_append] at hk'
  rcases hk' with hk' | hk'
  · obtain ⟨hkeys, hround⟩ := List.mem_filter.mp hk'
    obtain rfl := of_decide_eq_true hround
    exact List.mem_append_left _ (List.mem_map.mpr ⟨h, Dict.mem_keys_of_mem_getD hkeys, rfl⟩)
  · obtain ⟨m, hm, -⟩ := List.mem_map.mp hk'
    obtain ⟨hmem, hp⟩ := List.mem_filter.mp hm
    obtain ⟨ht, rfl, rfl⟩ := of_decide_eq_true hp
    have hmem : m ∈ e.buffer ++ c.messages :=
      List.mem_append.mpr ((List.mem_append.mp hmem).imp_right List.mem_of_mem_filter)
    exact List.mem_append_right _ (List.mem_map.mpr ⟨m, List.mem_filter.mpr ⟨hmem, decide_eq_true ht⟩, rfl⟩)

lemma mem_targets {e : ConsensusEngine} {c : Call} {t : ℤ} (h : Announces e c t) : t ∈ targets e c := by
  have hsent : t ∈ e.rcSent → t ∈ targets e c := by
    intro ht
    cases c with
    | setPending => exact ht
    | onTimeout => exact List.mem_append_right _ ht
    | handle m =>
      rw [targets]
      split_ifs
      · exact List.mem_append_right _ ht
      · exact ht
  rcases h with ht | ⟨hchanging, hwhy⟩
  · exact hsent ht
  · have hstored : e.validators.maxFaulty + 1 ≤ (changeSenders e c t).card →
        t ∈ e.roundChanges.keys ∨ ∃ m ∈ c.messages, m.type = .ROUND_CHANGE ∧ m.round = t := fun hcard =>
      mem_of_changeSenders (Finset.card_pos.mp (Nat.lt_of_lt_of_le (Nat.succ_pos _) hcard))
    rcases hchanging with ⟨rfl, -⟩ | ⟨m, hm, -⟩
    · refine List.mem_append_left _ ?_
      rcases hwhy with ⟨-, rfl⟩ | hcard
      · exact List.mem_cons_self
      · rcases hstored hcard with ht | ⟨m, hm, -⟩
        · exact List.mem_cons_of_mem _ ht
        · cases hm
    · obtain rfl := hm.eq
      rw [targets, if_pos hm.type]
      refine List.mem_append_left _ ?_
      rcases hwhy with ⟨hc, -⟩ | hcard
      · cases hc
      · rcases hstored hcard with ht | ⟨m', hm', -, rfl⟩
        · exact List.mem_cons_of_mem _ ht
        · rw [List.mem_singleton.mp hm']
          exact List.mem_cons_self

lemma mayOpen_of_opens {e : ConsensusEngine} {c : Call} {r : ℤ} (h : c.Opens e r) : mayOpen e r c = true := by
  cases h with
  | propose records changes hc hr hphase =>
    subst hc
    exact decide_eq_true hphase
  | change hc hr hme =>
    rcases hc with ⟨rfl, -⟩ | ⟨m, hm, -⟩
    · exact decide_eq_true hr
    · obtain rfl := hm.eq
      simp only [mayOpen, hm.type]
      exact decide_eq_true hr
  | prePrepare m hm hr hround =>
    obtain rfl := hm.eq
    simp only [mayOpen, hm.type]
    exact decide_eq_true (hround.imp_right And.right)
  | vote m hc hm hr hround hphase =>
    subst hc
    rcases hm with ht | ht <;>
    · simp only [mayOpen, ht]
      exact decide_eq_true hphase

lemma preparesAhead_of_keepsAhead {e : ConsensusEngine} {c : Call} (hquorum : 2 ≤ e.validators.quorum)
    (h : keepsAhead e c = true) : PreparesAhead e c := by
  intro r h' t hcan hannounces
  have hp := List.all_eq_true.mp h _ (mem_votesAtHand hquorum hcan)
  have hvotes := hcan.votes
  simp only [mayOpen_of_opens hcan.opens, Bool.not_true, Bool.false_or, Bool.or_eq_true,
    decide_eq_true_eq, List.all_eq_true] at hp
  rcases hp with hlt | hle
  · omega
  · exact hle t (mem_targets hannounces)

/-- A check for `FinalizesAhead`. -/
def finalizesAhead (e : ConsensusEngine) (c : Call) : Bool :=
  decide (e.phase ≠ .PREPARED) || (targets e c).all (· ≤ e.round)

lemma finalizesAhead_of_check {e : ConsensusEngine} {c : Call} (h : finalizesAhead e c = true) :
    FinalizesAhead e c := by
  intro r t hcan hannounces
  simp only [finalizesAhead, hcan.closes.phase, ne_eq, not_true_eq_false, decide_false, Bool.false_or,
    List.all_eq_true, decide_eq_true_eq] at h
  exact hcan.closes.round ▸ h t (mem_targets hannounces)

/-! ### Votes on a PREPARED engine -/

namespace Call.Closes

lemma not_handles {r : ℤ} (hc : c.Closes e₀ r) {type : MessageType} {m : ConsensusMessage}
    (hm : c.Handles e₀ type m) : type = .PREPARE ∨ type = .COMMIT := by
  obtain ⟨m', hm', hvote, -⟩ := hc.vote
  have heq := hm.eq
  rw [hm'] at heq
  cases heq
  exact hm.type ▸ hvote

lemma not_changing {r : ℤ} (hc : c.Closes e₀ r) : ¬c.Changing e₀ := by
  rintro (⟨h, -⟩ | ⟨m, hm, -⟩)
  · obtain ⟨m', hm', -⟩ := hc.vote
    rw [hm'] at h
    cases h
  · rcases hc.not_handles hm with h | h <;> cases h

lemma not_origin {r : ℤ} (hc : c.Closes e₀ r) {e : ConsensusEngine} {block : Block}
    {pre : List ConsensusMessage} : ¬c.Origin e₀ e block pre := by
  rintro (⟨hp, -, -⟩ | ⟨hm⟩)
  · cases hp with
    | fresh h =>
      obtain ⟨m', hm', -⟩ := hc.vote
      rw [hm'] at h
      cases h
    | change h => exact hc.not_changing h
  · rcases hc.not_handles hm.handles with h | h <;> cases h

end Call.Closes

/-- A vote handed to a PREPARED engine is counted, and may finalize its proposal. -/
lemma Reached.of_closes {r : ℤ} (hs : Reached e₀ c s) (hc : c.Closes e₀ r) :
    s.engine.round = e₀.round ∧ s.engine.phase.IsPrepared ∧
      (s.engine.phase = .PREPARED → s.engine.proposal = e₀.proposal) ∧
      ∀ h, (s.engine.commits.getD h).keys.toFinset ⊆ commitHolders e₀ c h := by
  induction hs with
  | refl =>
    refine ⟨rfl, Or.inl hc.phase, fun _ => rfl, fun h k hk => ?_⟩
    rw [commitHolders, List.toFinset_append]
    exact Finset.mem_union_left _ hk
  | tail hs hmove ih =>
    obtain ⟨hround, hphase, hproposal, hcommits⟩ := ih
    cases hmove with
    | adopt _ _ hwhy =>
      rcases hwhy with ⟨h, -⟩ | ⟨m, hm, -⟩
      · exact absurd h hc.not_changing
      · rcases hc.not_handles hm.handles with h | h <;> cases h
    | tallyCommit hm ht hr hseal =>
      rename_i m
      refine ⟨hround, hphase, hproposal, fun h k hk => ?_⟩
      rw [List.mem_toFinset] at hk
      rcases Dict.mem_keys_getD_setIn.mp hk with ⟨rfl, rfl⟩ | hk
      · refine List.mem_toFinset.mpr (List.mem_append_right _ (List.mem_map.mpr ⟨m, ?_, rfl⟩))
        refine List.mem_filter.mpr ⟨?_, by simp [ht, hr, hround]⟩
        rcases hm with ⟨rfl, -⟩ | hm
        · exact List.mem_append_right _ List.mem_cons_self
        · exact List.mem_append_left _ hm
      · exact hcommits h (List.mem_toFinset.mpr hk)
    | accept horigin => exact absurd horigin hc.not_origin
    | prepare _ hpre => rcases hphase with h | h <;> rw [hpre] at h <;> cases h
    | finalize => exact ⟨hround, Or.inr rfl, (by rintro ⟨⟩), hcommits⟩
    | finalizeRaises => exact ⟨hround, Or.inr rfl, (by rintro ⟨⟩), hcommits⟩
    | _ => exact ⟨hround, hphase, hproposal, hcommits⟩

/-! ### Discipline in one call -/

/-- No announced round exceeds the one in which a disciplined call prepares. -/
lemma Reached.announced_le (hs : Reached e₀ c s) (hc : PreparesAhead e₀ c)
    {h : PyStr} (hlocks : c.Locks e₀ s.engine h) {t : ℤ} (ht : t ∈ s.engine.rcSent) :
    t ≤ s.engine.round :=
  hc _ h t (hs.canPrepare hlocks) (hs.announces ht)

lemma Call.Opens.not_prepared (h : c.Opens e₀ e₀.round) : ¬e₀.phase.IsPrepared := by
  rintro hp
  cases h with
  | propose _ _ _ _ hphase => rcases hp with h | h <;> rw [hphase] at h <;> cases h
  | change _ hr => exact lt_irrefl _ hr
  | prePrepare _ _ _ hround =>
    rcases hround with h | ⟨-, hphase⟩
    · exact lt_irrefl _ h
    · rcases hp with h | h <;> rw [hphase] at h <;> cases h
  | vote _ _ _ _ _ hphase => rcases hp with h | h <;> rw [hphase] at h <;> cases h

/-- No announced round exceeds the one in which a disciplined call finalizes. -/
lemma Reached.announced_le_of_committed (hs : Reached e₀ c s) (hc : PreparesAhead e₀ c)
    (hc' : FinalizesAhead e₀ c) (hcommitted : s.result.committed ≠ none) :
    ∀ t, Announces e₀ c t → t ≤ s.engine.round := by
  induction hs with
  | refl => exact absurd rfl hcommitted
  | tail hs hmove ih =>
    cases hmove with
    | adopt _ hnone => exact absurd hnone hcommitted
    | finalize hclose hphase hblock hh hquorum hseal =>
      intro t ht
      rcases hclose with hopen | hclose
      · rcases Reached.isPrepared hs (Or.inl hphase) with ⟨hround, hwas⟩ | ⟨h, hcan⟩
        · exact absurd hwas (Call.Opens.not_prepared (hround ▸ hopen))
        · exact hc _ h t hcan ht
      · obtain ⟨-, -, hproposal, hsub⟩ := Reached.of_closes hs hclose
        have hseals := hquorum
        rw [(Reached.since hs).validators, Dict.len_eq_card] at hseals
        refine hc' _ t ⟨hclose, _, _, ?_, hh, hseals.trans (Finset.card_le_card (hsub _))⟩ ht
        rw [← hproposal hphase, hblock]
    | _ => exact ih hcommitted

/-! ### Discipline in every run -/

/-- The order of a validator's ROUND_CHANGEs and COMMITs, and its lock, as its ROUND_CHANGEs
report it. -/
structure KeepsReports (v : Validator) : Prop where
  commits : v.sent.Pairwise fun a b =>
    a.type = .ROUND_CHANGE → b.type = .COMMIT → a.round ≤ b.round
  rcSent : ∀ m ∈ v.sent, m.type = .ROUND_CHANGE → m.round ∈ v.engine.rcSent
  lock : ∀ m ∈ v.sent, m.type = .ROUND_CHANGE → v.engine.preparedRound = m.preparedRound ∨
    ∃ p, v.engine.preparedRound = some p ∧ m.round ≤ p

omit [Crypto] in
/-- Sending messages other than ROUND_CHANGEs and COMMITs keeps the reports. -/
lemma KeepsReports.send {v v' : Validator} (h : KeepsReports v) {l : List ConsensusMessage}
    (hsent : v'.sent = v.sent ++ l) (hrc : v'.engine.rcSent = v.engine.rcSent)
    (hlock : v'.engine.preparedRound = v.engine.preparedRound)
    (hl : ∀ m ∈ l, m.type ≠ .ROUND_CHANGE ∧ m.type ≠ .COMMIT) : KeepsReports v' := by
  have hmem : ∀ m ∈ v'.sent, m.type = .ROUND_CHANGE → m ∈ v.sent := by
    intro m hm ht
    rw [hsent] at hm
    rcases List.mem_append.mp hm with hm | hm
    · exact hm
    · exact absurd ht (hl m hm).1
  refine ⟨?_, fun m hm ht => hrc ▸ h.rcSent m (hmem m hm ht) ht, fun m hm ht => ?_⟩
  · rw [hsent]
    refine List.pairwise_append.mpr ⟨h.commits, ?_, fun a _ b hb _ ht => absurd ht (hl b hb).2⟩
    exact List.pairwise_of_forall_mem_list fun a ha b _ ht => absurd ht (hl a ha).1
  · rw [hlock]
    exact h.lock m (hmem m hm ht) ht

lemma KeepsReports.call {v : Validator} (h : KeepsReports v) (hc : PreparesAhead v.engine c) :
    KeepsReports (v.call c) := by
  refine Validator.call_induction v c ?_ ?_
  · exact h.send (l := []) (by simp [Validator.during]) rfl rfl (fun m hm => by cases hm)
  · intro s s' hs ih hmove
    cases hmove with
    | leave hch ht hr hwhy hm =>
      obtain ⟨htype, -, hround, -, -, -, hlock, -⟩ := ConsensusEngine.roundChange_eq hm
      refine ⟨?_, fun a ha hat => ?_, fun a ha hat => ?_⟩
      · simp only [Validator.during, Frame.leave, Frame.send, ← List.append_assoc]
        refine List.pairwise_append.mpr ⟨ih.commits, List.pairwise_singleton _ _, ?_⟩
        intro a _ b hb _ hbt
        rw [List.mem_singleton.mp hb, htype] at hbt
        cases hbt
      · simp only [Validator.during, Frame.leave, Frame.send, ← List.append_assoc] at ha
        rcases List.mem_append.mp ha with ha | ha
        · exact List.mem_cons_of_mem _ (ih.rcSent a ha hat)
        · rw [List.mem_singleton.mp ha, hround]
          exact List.mem_cons_self
      · simp only [Validator.during, Frame.leave, Frame.send, ← List.append_assoc] at ha
        rcases List.mem_append.mp ha with ha | ha
        · exact ih.lock a ha hat
        · rw [List.mem_singleton.mp ha]
          exact Or.inl hlock.symm
    | accept horigin hphase hh hprior hm =>
      rename_i block h m pre
      refine ih.send (l := pre ++ [m]) ?_ rfl rfl ?_
      · simp [Validator.during, Frame.accept, Frame.send, Frame.mapEngine]
      · intro a ha
        rcases List.mem_append.mp ha with ha | ha
        · rw [horigin.types a ha]
          decide
        · rw [List.mem_singleton.mp ha, (ConsensusMessage.create_eq hm).1]
          decide
    | refuse horigin hphase hh hprior hne =>
      rename_i block h h' pre
      refine ih.send (l := pre) ?_ rfl rfl ?_
      · simp [Validator.during, Frame.send]
      · intro a ha
        rw [horigin.types a ha]
        decide
    | prepare hopen hphase hblock hh hquorum hprior hm =>
      rename_i block h m
      obtain ⟨htype, -, hround, -⟩ := ConsensusMessage.create_eq hm
      have hle : ∀ a ∈ v.sent ++ s.result.broadcast, a.type = .ROUND_CHANGE →
          a.round ≤ s.engine.round := fun a ha hat =>
        hs.announced_le hc ⟨hopen, hphase, ⟨_, hblock, hh⟩, hquorum⟩ (ih.rcSent a ha hat)
      have hmem : ∀ a ∈ (v.during c (s.prepare block h m)).sent, a.type = .ROUND_CHANGE →
          a ∈ v.sent ++ s.result.broadcast := by
        intro a ha hat
        simp only [Validator.during, Frame.prepare, Frame.mapEngine, Frame.send,
          ← List.append_assoc] at ha
        rcases List.mem_append.mp ha with ha | ha
        · exact ha
        · rw [List.mem_singleton.mp ha, htype] at hat
          cases hat
      refine ⟨?_, fun a ha hat => ih.rcSent a (hmem a ha hat) hat, fun a ha hat => ?_⟩
      · simp only [Validator.during, Frame.prepare, Frame.mapEngine, Frame.send,
          ← List.append_assoc]
        refine List.pairwise_append.mpr ⟨ih.commits, List.pairwise_singleton _ _, ?_⟩
        intro a ha b hb hat _
        rw [List.mem_singleton.mp hb, hround]
        exact hle a ha hat
      · exact Or.inr ⟨_, rfl, hle a (hmem a ha hat) hat⟩
    | _ => exact ⟨ih.commits, ih.rcSent, ih.lock⟩

lemma KeepsReports.of_calls {e : ConsensusEngine} {v : Validator}
    (hrun : Validator.Calls (fun e c => PreparesAhead e c ∧ FinalizesAhead e c)
      { engine := e } v) : KeepsReports v := by
  induction hrun with
  | refl => exact ⟨.nil, nofun, nofun⟩
  | tail _ hstep ih =>
    obtain ⟨c, hc, rfl⟩ := hstep
    exact ih.call hc.1

/-- In a run whose calls prepare and finalize ahead of every announced round, a ROUND_CHANGE for `t`
is never followed by a COMMIT for a round below `t`, nor by a call that becomes PREPARED or finalizes
in such a round, and the lock it reports stays the lock but for locks of round `t` or later. -/
theorem roundChange_discipline {e : ConsensusEngine} {v : Validator}
    (hrun : Validator.Calls (fun e c => PreparesAhead e c ∧ FinalizesAhead e c) { engine := e } v)
    (c : Call) (hc : PreparesAhead v.engine c ∧ FinalizesAhead v.engine c) :
    ((v.call c).sent.Pairwise fun a b =>
      a.type = .ROUND_CHANGE → b.type = .COMMIT → a.round ≤ b.round) ∧
    ∀ m ∈ (v.call c).sent, m.type = .ROUND_CHANGE →
      ((v.call c).engine.phase.IsPrepared →
        ¬(v.engine.phase.IsPrepared ∧ v.engine.round = (v.call c).engine.round) →
        m.round ≤ (v.call c).engine.round) ∧
      (∀ b, (c.run v.engine).2.result.committed = some b → m.round ≤ (v.call c).engine.round) ∧
      ((v.call c).engine.preparedRound = m.preparedRound ∨
        ∃ p, (v.call c).engine.preparedRound = some p ∧ m.round ≤ p) := by
  have hv' := (KeepsReports.of_calls hrun).call hc.1
  have hreached := c.run_moves v.engine
  refine ⟨hv'.commits, fun m hm ht => ⟨fun hp hnew => ?_, fun b hb => ?_, hv'.lock m hm ht⟩⟩
  · have hann := hreached.announces (hv'.rcSent m hm ht)
    rcases hreached.isPrepared hp with ⟨hround, hwas⟩ | ⟨h, hcan⟩
    · exact absurd ⟨hwas, hround.symm⟩ hnew
    · exact hc.1 _ h _ hcan hann
  · exact hreached.announced_le_of_committed hc.1 hc.2 (by rw [hb]; simp) _
      (hreached.announces (hv'.rcSent m hm ht))

omit [Crypto] in
/-- A follower prevotes, times out, counts a late PREPARE that makes no quorum, adopts round 1 with the
others, and prepares, commits and decides there. -/
theorem roundChange_discipline_of_quartet :
    letI := Crypto.checksums
    let block := Block.ofTimestamp 0
    let other := Block.ofTimestamp 1
    let change := fun n => ConsensusMessage.ofSeed n .ROUND_CHANGE 1 block
    let proposal := (ConsensusMessage.create .PRE_PREPARE 1 1 (other.hash.toOption.getD []) (seedKey 0xcc)
      (some other) none [] [change 0xaa, change 0xbb, change 0xcc]).toOption.getD (change 0xcc)
    let calls : List Call := [.handle (.ofSeed 0xbb .PRE_PREPARE 0 block), .onTimeout,
      .handle (.ofSeed 0xbb .PREPARE 0 block), .handle (change 0xbb), .handle (change 0xcc),
      .handle (.ofSeed 0xdd .PREPARE 0 block), .handle proposal, .handle (.ofSeed 0xbb .PREPARE 1 other),
      .handle (.ofSeed 0xcc .PREPARE 1 other), .handle (.ofSeed 0xbb .COMMIT 1 other)]
    let v := calls.foldl Validator.call { engine := .ofSeed .quartet 0xaa .null }
    let c : Call := .handle (.ofSeed 0xcc .COMMIT 1 other)
    ((v.call c).sent.map fun m => (m.type, m.round)) =
      [(.PREPARE, 0), (.ROUND_CHANGE, 1), (.PREPARE, 1), (.COMMIT, 1)] ∧
    (v.call c).decided.map Block.hash = [other.hash] ∧
    (v.call c).sent.Pairwise fun a b => a.type = .ROUND_CHANGE → b.type = .COMMIT → a.round ≤ b.round := by
  let := Crypto.checksums
  intro block other change proposal calls v c
  let check := fun (e : ConsensusEngine) (c : Call) =>
    decide (2 ≤ e.validators.quorum) && (keepsAhead e c && finalizesAhead e c)
  have hok : ∀ e c, check e c = true → PreparesAhead e c ∧ FinalizesAhead e c := by
    intro e c h
    obtain ⟨hquorum, h⟩ := Bool.and_eq_true_iff.mp h
    obtain ⟨hprepares, hfinalizes⟩ := Bool.and_eq_true_iff.mp h
    exact ⟨preparesAhead_of_keepsAhead (of_decide_eq_true hquorum) hprepares,
      finalizesAhead_of_check hfinalizes⟩
  have hcalls : Validator.passes check { engine := .ofSeed .quartet 0xaa .null } calls = true := by
    decide +kernel
  have hrun : Validator.Calls (fun e c => PreparesAhead e c ∧ FinalizesAhead e c)
      { engine := .ofSeed .quartet 0xaa .null } v := .of_passes hok hcalls
  have hlast : check v.engine c = true := by decide +kernel
  exact ⟨by decide +kernel, by decide +kernel, (roundChange_discipline hrun c (hok _ _ hlast)).1⟩

omit [Crypto] in
/-- A follower that has prevoted and timed out still counts the PREPARE that comes late: it commits
in the round that it has reported as not prepared. -/
theorem late_prepare_breaks_discipline :
    letI := Crypto.checksums
    let block := Block.ofTimestamp 0
    let calls : List Call := [.handle (.ofSeed 0xbb .PRE_PREPARE 0 block), .onTimeout,
      .handle (.ofSeed 0xbb .PREPARE 0 block)]
    ¬(calls.foldl Validator.call { engine := .ofSeed .pair 0xaa .null }).sent.Pairwise fun a b =>
      a.type = .ROUND_CHANGE → b.type = .COMMIT → a.round ≤ b.round := by
  decide +kernel

end Helix
