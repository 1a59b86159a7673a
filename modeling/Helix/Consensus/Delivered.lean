import Helix.Consensus.RoundChanging

/-!
# Messages handed in one by one

What a validator is after the messages of a round (`Validator.Delivered`): in the round, waiting for it,
or past it. One more message keeps this, and so does a list of them.
-/

namespace Helix

variable [Crypto]

open Eff (Returns)

section Round

variable {e₀ : ConsensusEngine} {r : ℤ} {h : PyStr} {block : Block} {D D' : List ConsensusMessage}
  {v : Validator} {c : Call} {s : Frame} {m : ConsensusMessage}

/-! ### Deliveries -/

lemma TakesTo.concat (hD : TakesTo e₀ D) : TakesTo e₀ (D ++ [m]) := by
  rcases hD with hprop | ⟨hne, hquorum⟩
  · exact Or.inl (proposed_concat.mpr (Or.inl hprop))
  · exact Or.inr ⟨hne.mono changers_subset_concat,
      hquorum.trans (Nat.succ_le_succ (Finset.card_le_card changers_subset_concat))⟩

lemma Validator.InRound.start (hv : v.InRound e₀ r h D) (c : Call) :
    (v.during c ⟨v.engine, {}⟩).InRound e₀ r h D :=
  { hv with decided := by simpa [Validator.during] using hv.decided }

omit [Crypto] in
lemma Validator.Waiting.start (hv : v.Waiting e₀ r D) (c : Call) :
    (v.during c ⟨v.engine, {}⟩).Waiting e₀ r D :=
  { hv with decided := by simpa [Validator.during] using hv.decided }

omit [Crypto] in
/-- A message that is neither a vote nor a proposal leaves a waiting validator as it is. -/
lemma Validator.Waiting.skip (hv : v.Waiting e₀ r D) (ht : m.type = .ROUND_CHANGE) :
    v.Waiting e₀ r (D ++ [m]) := by
  refine { hv with unproposed := ?_, buffer := fun m' => ?_ }
  · rw [proposed_concat_of_ne (by rw [ht]; decide)]
    exact hv.unproposed
  · rw [hv.buffer, List.mem_append, List.mem_singleton]
    refine and_congr_left fun hvote => ⟨Or.inl, fun h => h.resolve_right ?_⟩
    rintro rfl
    rcases hvote with h | h <;> rw [ht] at h <;> cases h

namespace EngineM

/-- An authentic message of the height is handled by its type. -/
lemma handle_eq (he : e₀.Alike s.engine) (hm : Accepted e₀ m) :
    handle m s = (match m.type with
      | .ROUND_CHANGE => handleRoundChange m
      | .PRE_PREPARE => handlePrePrepare m
      | .PREPARE => handleVote m handlePrepare
      | .COMMIT => handleVote m handleCommit : EngineM Unit) s := by
  have hauth : authentic s.engine.validators m = .ok true := he.validators ▸ hm.authentic
  rw [handle, self_bind, if_neg (not_not.mpr (hm.height.trans he.height.symm)),
    Eff.lift_bind_ok hauth]
  rfl

omit [Crypto] in
/-- A vote of the round that the engine is in. -/
lemma handleVote_of_eq {handler : ConsensusMessage → EngineM Unit}
    (hround : m.round = s.engine.round) : handleVote m handler s = handler m s := by
  rw [handleVote, self_bind, if_pos hround]

/-- A message for the engine's round. -/
lemma handle_returns_of_inRound (hv : (v.during c s).InRound e₀ r h D)
    (hstill : (v.during c s).Still e₀ h D) (hm : MessageOfRound e₀ r block m)
    (hh : m.type = .PRE_PREPARE → m.blockHash = h) :
    Returns (handle m) s fun _ s' =>
      (v.during c s').InRound e₀ r h (D ++ [m]) ∧ (v.during c s').Still e₀ h (D ++ [m]) := by
  have hround : m.round = s.engine.round := hm.round.trans hv.round.symm
  refine Returns.congr (handle_eq hv.alike hm.accepted) ?_
  cases ht : m.type with
  | ROUND_CHANGE =>
    have hrun : handleRoundChange m s = (.ok (), s) := by
      rw [handleRoundChange, self_bind, if_pos hround.le]
      rfl
    have hnovote : ¬m.IsVote := by
      rintro (h | h) <;> rw [ht] at h <;> cases h
    refine .of_eq hrun ⟨hv.skip hnovote fun hpre => ?_, hstill.skip hnovote⟩
    rw [ht] at hpre
    cases hpre
  | PRE_PREPARE =>
    have hentered : enterRound m s = (.ok true, s) := by
      rw [enterRound, self_bind, if_neg hround.le.not_gt]
      rfl
    exact handlePrePrepare_returns hentered hv hstill hm ht (hh ht)
  | PREPARE =>
    exact Returns.congr (handleVote_of_eq hround) (handlePrepare_returns hv ht)
  | COMMIT =>
    exact Returns.congr (handleVote_of_eq hround) (handleCommit_returns hv ht (hm.sealed ht))

/-- A vote for the round that the engine waits for is kept. -/
lemma handle_vote_returns_of_waiting (hr : 0 < r) (hv : (v.during c s).Waiting e₀ r D)
    (hm : MessageOfRound e₀ r block m) (hvote : m.IsVote) :
    Returns (handle m) s fun _ s' => (v.during c s').Waiting e₀ r (D ++ [m]) ∧
      s'.engine.roundChanges = s.engine.roundChanges ∧ s'.engine.rcSent = s.engine.rcSent := by
  have hround : s.engine.round = 0 := hv.round
  have hlater : s.engine.round < m.round := by
    have := hm.round
    omega
  have hkeep : ∀ handler : ConsensusMessage → EngineM Unit, handleVote m handler s =
      (.ok (), s.mapEngine fun e => { e with buffer := e.buffer ++ [m] }) := by
    intro handler
    rw [handleVote, self_bind, if_neg hlater.ne', if_pos hlater]
    rfl
  have hrun : handle m s =
      (.ok (), s.mapEngine fun e => { e with buffer := e.buffer ++ [m] }) := by
    rw [handle_eq hv.alike hm.accepted]
    rcases hvote with ht | ht
    · rw [ht]
      exact hkeep _
    · rw [ht]
      exact hkeep _
  have hno : m.type ≠ .PRE_PREPARE := by
    rcases hvote with ht | ht <;> rw [ht] <;> decide
  refine .of_eq hrun ⟨{ hv with
    alike := ⟨hv.alike.validators, hv.alike.privateKey, hv.alike.height, hv.alike.previousHash⟩
    unproposed := (proposed_concat_of_ne hno).not.mpr hv.unproposed
    buffer := fun m' => ?_ }, rfl, rfl⟩
  refine List.mem_append.trans ?_
  rw [show m' ∈ s.engine.buffer ↔ _ from hv.buffer m', List.mem_singleton, List.mem_append,
    List.mem_singleton, or_and_right]
  exact or_congr_right ⟨fun h => ⟨h, h ▸ hvote⟩, fun h => h.1⟩

/-- A ROUND_CHANGE for the round that the engine waits for. -/
lemma handle_roundChange_returns_of_waiting (hr : 0 < r) (hno : ¬TakesTo e₀ D)
    (hv : (v.during c s).Waiting e₀ r D) (hstores : e₀.Stores r D s.engine)
    (hjoined : r ∈ s.engine.rcSent ↔ e₀.validators.maxFaulty + 1 ≤ (changers e₀ D).card)
    (hD : ∀ m ∈ D, MessageOfRound e₀ r block m) (hm : MessageOfRound e₀ r block m)
    (ht : m.type = .ROUND_CHANGE) (hproposer : e₀.me ≠ e₀.validators.proposer e₀.height r) :
    Returns (handle m) s fun _ s' => (v.during c s').Delivered e₀ r h (D ++ [m]) := by
  have hround : s.engine.round = 0 := hv.round
  have hlater : ¬m.round ≤ s.engine.round := by
    have := hm.round
    omega
  obtain ⟨ok, hok⟩ := exists_validRoundChange e₀.height hm.accepted.authentic
  have hcheck : validRoundChange s.engine.validators s.engine.height m = .ok ok := by
    rw [show s.engine.validators = e₀.validators from hv.alike.validators,
      show s.engine.height = e₀.height from hv.alike.height]
    exact hok
  refine Returns.congr (handle_eq hv.alike hm.accepted) ?_
  rw [ht]
  refine returns_self ?_
  rw [if_neg hlater]
  refine Returns.lift_bind hcheck ?_
  cases ok with
  | false =>
    have hsame : changers e₀ (D ++ [m]) = changers e₀ D :=
      changers_concat_of_ne fun _ => by rw [hok]; simp
    refine Returns.pure (.waiting hr ?_ (hv.skip ht) ⟨?_, ?_⟩ ?_)
    · rw [TakesTo, hsame, proposed_concat_of_ne (by rw [ht]; decide)]
      exact hno
    · rw [hsame]
      exact hstores.entries
    · rw [hsame]
      exact hstores.own
    · rw [hsame]
      exact hjoined
  | true =>
    have hinsert := changers_concat (D := D) ht hok
    have hD' : ∀ m' ∈ D ++ [m], MessageOfRound e₀ r block m' := by
      intro m' hm'
      rcases List.mem_append.mp hm' with hm' | hm'
      · exact hD m' hm'
      · rw [List.mem_singleton.mp hm']
        exact hm
    refine returns_update
      (processRoundChanges_returns hr ?_ ⟨fun t i => ?_, ?_⟩ ?_ ?_ hD' hproposer)
    · have hskip := hv.skip ht
      exact ⟨⟨hskip.alike.validators, hskip.alike.privateKey, hskip.alike.height,
        hskip.alike.previousHash⟩, hskip.round, hskip.phase, hskip.proposal, hskip.unproposed,
        hskip.decided, hskip.buffer, hskip.votes, hskip.lock⟩
    · refine Dict.mem_keys_getD_setIn.trans ?_
      rw [hstores.entries t i, hm.round, hinsert, Finset.mem_insert, ← and_or_left, or_assoc]
      rfl
    · rw [hinsert, Finset.mem_insert, not_or]
      refine ⟨fun heq => ?_, hstores.own⟩
      obtain ⟨k, hk, hne⟩ := hm.sender
      exact hne (PublicKey.toHex_injective (hk.symm.trans heq.symm))
    · intro hin
      exact (hjoined.mp hin).trans (Finset.card_le_card changers_subset_concat)
    · rw [hinsert]
      exact Finset.insert_nonempty _ _

/-- A proposal for the round that the engine waits for. -/
lemma handle_prePrepare_returns_of_waiting (hr : 0 < r) (hv : (v.during c s).Waiting e₀ r D)
    (hD : ∀ m ∈ D, MessageOfRound e₀ r block m) (hm : MessageOfRound e₀ r block m)
    (ht : m.type = .PRE_PREPARE) (hh : m.blockHash = h) (hcert : m.CertChecks e₀) :
    Returns (handle m) s fun _ s' => (v.during c s').Delivered e₀ r h (D ++ [m]) := by
  obtain ⟨_, s', hentered, rfl, hin⟩ :=
    enterRound_returns (h := h) hv hr hD (hm.proposal ht) hm.round hcert
  have hphase : s'.engine.phase = .NEW_ROUND := by
    by_contra hphase
    exact hv.unproposed (hin.proposed.mp hphase)
  refine Returns.congr (handle_eq hv.alike hm.accepted) ?_
  rw [ht]
  refine (handlePrePrepare_returns hentered hin (.of_new hphase) hm ht hh).mono fun _ s'' h => ?_
  exact .entered (Or.inr ⟨hr, Or.inl (proposed_concat.mpr (Or.inr ht))⟩) h.1 h.2

/-- A message for a round below the first one. -/
lemma handle_of_stale (he : s.engine = e₀) (hzero : e₀.round = 0) (hr : r < 0)
    (hm : MessageOfRound e₀ r block m) : handle m s = (.ok (), s) := by
  have hround : s.engine.round = 0 := he ▸ hzero
  have hbelow : m.round < s.engine.round := by
    have := hm.round
    omega
  have hdrop : ∀ handler : ConsensusMessage → EngineM Unit,
      handleVote m handler s = (.ok (), s) := by
    intro handler
    rw [handleVote, self_bind, if_neg hbelow.ne, if_neg hbelow.not_gt]
    rfl
  have halike : e₀.Alike s.engine := he ▸ ⟨rfl, rfl, rfl, rfl⟩
  rw [handle_eq halike hm.accepted]
  cases ht : m.type with
  | ROUND_CHANGE =>
    show handleRoundChange m s = _
    rw [handleRoundChange, self_bind, if_pos hbelow.le]
    rfl
  | PRE_PREPARE =>
    have hentered : enterRound m s = (.ok true, s) := by
      rw [enterRound, self_bind, if_neg hbelow.not_gt]
      rfl
    show handlePrePrepare m s = _
    rw [handlePrePrepare, Eff.bind_apply_ok hentered, if_neg (not_not.mpr rfl), self_bind,
      if_pos (Or.inl hbelow.ne)]
    rfl
  | PREPARE => exact hdrop _
  | COMMIT => exact hdrop _

end EngineM

/-- One more message of the round. -/
lemma Validator.Delivered.step (hv : v.Delivered e₀ r h D) (hzero : e₀.round = 0)
    (hD : ∀ m ∈ D, MessageOfRound e₀ r block m) (hm : MessageOfRound e₀ r block m)
    (hh : m.type = .PRE_PREPARE → m.blockHash = h)
    (hcert : m.type = .PRE_PREPARE → 0 < r → m.CertChecks e₀)
    (hproposer : e₀.me ≠ e₀.validators.proposer e₀.height r) :
    (v.call (.handle m)).Delivered e₀ r h (D ++ [m]) := by
  have hreturns : Returns (EngineM.handle m) ⟨v.engine, {}⟩ fun _ s' =>
      (v.during (.handle m) s').Delivered e₀ r h (D ++ [m]) := by
    cases hv with
    | entered hr hv hstill =>
      have hstill' : (v.during (.handle m) ⟨v.engine, {}⟩).Still e₀ h D :=
        ⟨hstill.prepares, hstill.commits⟩
      refine (EngineM.handle_returns_of_inRound (hv.start (.handle m)) hstill' hm hh).mono fun _ s' h => ?_
      exact .entered (hr.imp_right fun hr => ⟨hr.1, hr.2.concat⟩) h.1 h.2
    | waiting hr hno hv hstores hjoined =>
      by_cases hvote : m.IsVote
      · have hchange : m.type ≠ .ROUND_CHANGE := by
          rcases hvote with ht | ht <;> rw [ht] <;> decide
        have hpre : m.type ≠ .PRE_PREPARE := by
          rcases hvote with ht | ht <;> rw [ht] <;> decide
        have hsame : changers e₀ (D ++ [m]) = changers e₀ D :=
          changers_concat_of_ne fun ht => absurd ht hchange
        refine (EngineM.handle_vote_returns_of_waiting hr (hv.start (.handle m)) hm
          hvote).mono ?_
        rintro _ s' ⟨hv', hchanges, hsent⟩
        refine .waiting hr ?_ hv' ⟨fun t i => ?_, hsame ▸ hstores.own⟩ ?_
        · rw [TakesTo, hsame, proposed_concat_of_ne hpre]
          exact hno
        · show i ∈ (s'.engine.roundChanges.getD t).keys ↔ _ ∧ (_ ∨ r ∈ s'.engine.rcSent ∧ _)
          rw [hchanges, hsent, hsame]
          exact hstores.entries t i
        · show r ∈ s'.engine.rcSent ↔ _
          rw [hsent, hsame]
          exact hjoined
      · cases ht : m.type with
        | ROUND_CHANGE =>
          exact EngineM.handle_roundChange_returns_of_waiting hr hno (hv.start _) hstores hjoined hD
            hm ht hproposer
        | PRE_PREPARE =>
          exact EngineM.handle_prePrepare_returns_of_waiting hr (hv.start _) hD hm ht (hh ht)
            (hcert ht hr)
        | PREPARE => exact absurd (Or.inl ht) hvote
        | COMMIT => exact absurd (Or.inr ht) hvote
    | stale hr hengine hdecided =>
      refine .of_eq (EngineM.handle_of_stale hengine hzero hr hm) (.stale hr hengine ?_)
      simpa [Validator.during] using hdecided
  obtain ⟨_, s', hrun, hs'⟩ := hreturns
  rw [Validator.call, show Call.run (.handle m) v.engine = (.ok _, s') from hrun]
  exact hs'

/-- The journal knows of no vote and no lock. -/
structure VoteJournal.Blank (j : VoteJournal) : Prop where
  votes : ∀ r p, j.votedHash r p = none
  lock : j.prepared = none

section Fresh

variable {validators : ValidatorSet} {privateKey : PrivateKey} {height : ℤ} {previousHash : PyStr}
  {nowMs : ℕ → ℤ} {journal : VoteJournal} (hjournal : journal.Blank)
  (he : e₀ = .initial validators privateKey height previousHash nowMs journal)
include hjournal he

omit [Crypto] in
lemma Validator.Waiting.fresh : ({ engine := e₀ } : Validator).Waiting e₀ r [] := by
  subst he
  exact ⟨⟨rfl, rfl, rfl, rfl⟩, rfl, rfl, rfl, nofun, rfl, fun m => iff_of_false nofun nofun,
    hjournal.votes r, by simp [ConsensusEngine.initial, hjournal.lock]⟩

/-- A fresh engine, before any message. -/
lemma Validator.Delivered.fresh : ({ engine := e₀ } : Validator).Delivered e₀ r h [] := by
  have hchangers : changers e₀ [] = ∅ := rfl
  have hwaiting : ({ engine := e₀ } : Validator).Waiting e₀ r [] := .fresh hjournal he
  subst he
  rcases lt_trichotomy r 0 with hr | rfl | hr
  · exact .stale hr rfl rfl
  · exact .entered (Or.inl rfl) (.empty ⟨rfl, rfl, rfl, rfl⟩ rfl rfl rfl rfl rfl rfl
      (hjournal.votes 0)) (.of_new rfl)
  · refine .waiting hr ?_ hwaiting ⟨fun t i => iff_of_false nofun ?_, ?_⟩ (iff_of_false nofun ?_)
    · rintro (hprop | ⟨hne, -⟩)
      · exact hwaiting.unproposed hprop
      · exact Finset.not_nonempty_empty hne
    · rintro ⟨-, hi | ⟨hsent, -⟩⟩
      · cases hi
      · cases hsent
    · exact Finset.notMem_empty _
    · rw [hchangers]
      exact Nat.not_succ_le_zero _

end Fresh

/-- All messages of the round, one after the other. -/
lemma Validator.Delivered.run {l : List ConsensusMessage} (hv : v.Delivered e₀ r h D)
    (hzero : e₀.round = 0) (hD : ∀ m ∈ D ++ l, MessageOfRound e₀ r block m)
    (hh : ∀ m ∈ l, m.type = .PRE_PREPARE → m.blockHash = h)
    (hcert : ∀ m ∈ l, m.type = .PRE_PREPARE → 0 < r → m.CertChecks e₀)
    (hproposer : e₀.me ≠ e₀.validators.proposer e₀.height r) :
    ((l.map Call.handle).foldl Validator.call v).Delivered e₀ r h (D ++ l) := by
  induction l generalizing v D with
  | nil => rwa [List.append_nil]
  | cons m l ih =>
    rw [List.append_cons] at hD ⊢
    have hstep := hv.step hzero
      (fun m' hm' => hD m' (List.mem_append_left _ (List.mem_append_left _ hm')))
      (hD m (List.mem_append_left _ List.mem_concat_self)) (hh m List.mem_cons_self)
      (hcert m List.mem_cons_self) hproposer
    exact ih hstep hD (fun m' hm' => hh m' (List.mem_cons_of_mem _ hm'))
      fun m' hm' => hcert m' (List.mem_cons_of_mem _ hm')

end Round

end Helix
