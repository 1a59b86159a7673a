import Helix.Consensus.EnteringRound

/-!
# Round changes in any order

The ROUND_CHANGEs of one round reach a waiting engine. Whether it joins them, and whether they take it to
their round, depends on how many validators have sent one (`TakesTo`).
-/

namespace Helix

variable [Crypto]

open Eff (Returns)

section Round

variable {e₀ : ConsensusEngine} {r : ℤ} {h : PyStr} {block : Block} {D D' : List ConsensusMessage}
  {v : Validator} {c : Call} {s : Frame} {m : ConsensusMessage}

/-! ### Round changes -/

/-- The messages take the engine to their round: a proposal does, and so does a quorum of
ROUND_CHANGEs with its own. -/
def TakesTo (e₀ : ConsensusEngine) (D : List ConsensusMessage) : Prop :=
  Proposed D ∨ (changers e₀ D).Nonempty ∧
    e₀.validators.quorum ≤ (changers e₀ D).card + 1

/-- The engine stores the ROUND_CHANGEs of `D`, and its own if it has sent one. -/
structure ConsensusEngine.Stores (e₀ : ConsensusEngine) (r : ℤ) (D : List ConsensusMessage)
    (e : ConsensusEngine) : Prop where
  entries : ∀ t i, i ∈ (e.roundChanges.getD t).keys ↔
    t = r ∧ (i ∈ changers e₀ D ∨ r ∈ e.rcSent ∧ i = e₀.me.toHex)
  own : e₀.me.toHex ∉ changers e₀ D

namespace ConsensusEngine.Stores

variable {e : ConsensusEngine} {t : ℤ}

lemma len_of_ne (he : e₀.Stores r D e) (ht : t ≠ r) : (e.roundChanges.getD t).len = 0 := by
  rw [Dict.len_eq_card, Finset.card_eq_zero, Finset.eq_empty_iff_forall_notMem]
  intro i hi
  exact ht ((he.entries t i).mp (List.mem_toFinset.mp hi)).1

lemma len_of_sent (he : e₀.Stores r D e) (hsent : r ∈ e.rcSent) :
    (e.roundChanges.getD r).len = (changers e₀ D).card + 1 := by
  rw [Dict.len_eq_card, ← Finset.card_insert_of_notMem he.own]
  congr 1
  ext i
  rw [List.mem_toFinset, he.entries r i, Finset.mem_insert, or_comm]
  simp [hsent]

lemma len_of_not_sent (he : e₀.Stores r D e) (hsent : r ∉ e.rcSent) :
    (e.roundChanges.getD r).len = (changers e₀ D).card := by
  rw [Dict.len_eq_card]
  congr 1
  ext i
  rw [List.mem_toFinset, he.entries r i]
  simp [hsent]

/-- No other round has an entry. -/
lemma joined (he : e₀.Stores r D e) (ht : t ≠ r) : EngineM.Joined e t :=
  Or.inr ((he.len_of_ne ht).symm ▸ Nat.zero_le _)

end ConsensusEngine.Stores

namespace EngineM

lemma exists_roundChange {e : ConsensusEngine} (hlock : e.preparedBlock = none) (target : ℤ) :
    ∃ m, e.roundChange target = .ok m := by
  have hhash : e.lockHash = .ok ZERO_HASH := by rw [ConsensusEngine.lockHash, hlock]
  simp only [ConsensusEngine.roundChange, hhash, bind, Except.bind]
  exact ConsensusMessage.exists_create _ _ _ _ _ _ _ _ IsScalar.zeroHash

/-- The engine joins the one round that it should. -/
lemma accelerate_of_target {targets : List ℤ} {m₀ : ConsensusMessage}
    (hothers : ∀ t, s.engine.round < t → t ≠ r → Joined s.engine t) (hmem : r ∈ targets)
    (hr : s.engine.round < r) (hnot : r ∉ s.engine.rcSent)
    (hlen : s.engine.validators.maxFaulty + 1 ≤ (s.engine.roundChanges.getD r).len)
    (hm₀ : s.engine.roundChange r = .ok m₀) :
    accelerate targets s = (.ok true, s.leave r m₀) := by
  induction targets with
  | nil => cases hmem
  | cons t targets ih =>
    by_cases ht : t = r
    · subst ht
      have hsend := sendRoundChange_eq hnot hm₀
      have hrest : accelerate targets (s.leave t m₀) = (.ok false, s.leave t m₀) := by
        refine accelerate_of_joined fun t' ht' => ?_
        by_cases heq : t' = t
        · exact Or.inl (heq ▸ List.mem_cons_self)
        · exact (hothers t' ht' heq).leave t m₀
      rw [accelerate, self_bind, if_pos ⟨hr, hnot, hlen⟩, Eff.bind_apply_ok hsend,
        Eff.bind_apply_ok hrest]
      rfl
    · have hno : ¬(s.engine.round < t ∧ t ∉ s.engine.rcSent ∧
          s.engine.validators.maxFaulty + 1 ≤ (s.engine.roundChanges.getD t).len) := by
        rintro ⟨hlt, hunsent, hmany⟩
        rcases hothers t hlt ht with hj | hj
        · exact hunsent hj
        · omega
      rw [accelerate, self_bind, if_neg hno]
      exact ih ((List.mem_cons.mp hmem).resolve_left fun h => ht h.symm)

omit [Crypto] in
/-- Without a best round, no later round has a quorum. -/
lemma lt_quorum_of_bestRound {e : ConsensusEngine} (hbest : e.bestRound = none) {t : ℤ}
    (ht : e.round < t) : (e.roundChanges.getD t).len < e.validators.quorum := by
  by_contra hquorum
  rw [not_lt] at hquorum
  have hnil := List.max?_eq_none_iff.mp hbest
  have hmem : t ∈ e.roundChanges.keys.filter fun t =>
      e.round < t ∧ e.validators.quorum ≤ (e.roundChanges.getD t).len :=
    List.mem_filter.mpr ⟨mem_keys_of_quorum hquorum, decide_eq_true ⟨ht, hquorum⟩⟩
  rw [hnil] at hmem
  cases hmem

end EngineM

/-- What a validator is after the messages `D` of round `r`: it is in the round, or waits for it, or
has no use for them. -/
inductive Validator.Delivered (e₀ : ConsensusEngine) (r : ℤ) (h : PyStr)
    (D : List ConsensusMessage) (v : Validator) : Prop
  | entered (hr : r = 0 ∨ 0 < r ∧ TakesTo e₀ D) (hv : v.InRound e₀ r h D)
      (hstill : v.Still e₀ h D)
  | waiting (hr : 0 < r) (hno : ¬TakesTo e₀ D) (hv : v.Waiting e₀ r D)
      (hstores : e₀.Stores r D v.engine)
      (hjoined : r ∈ v.engine.rcSent ↔ e₀.validators.maxFaulty + 1 ≤ (changers e₀ D).card)
  | stale (hr : r < 0) (hengine : v.engine = e₀) (hdecided : v.decided = [])

namespace EngineM

/-- The acceleration pass of a waiting engine. -/
lemma accelerate_returns (hr : 0 < r) (hv : (v.during c s).Waiting e₀ r D)
    (hstores : e₀.Stores r D s.engine)
    (hsent : r ∈ s.engine.rcSent → e₀.validators.maxFaulty + 1 ≤ (changers e₀ D).card) :
    Returns (accelerate (s.engine.roundChanges.keys.insertionSort (· ≤ ·))) s fun _ s' =>
      (v.during c s').Waiting e₀ r D ∧ e₀.Stores r D s'.engine ∧
      (r ∈ s'.engine.rcSent ↔ e₀.validators.maxFaulty + 1 ≤ (changers e₀ D).card) ∧
      ∀ t, s'.engine.round < t → Joined s'.engine t := by
  have hvals : s.engine.validators = e₀.validators := hv.alike.validators
  have hround : s.engine.round < r := by
    have hzero : s.engine.round = 0 := hv.round
    omega
  by_cases hjoin : r ∉ s.engine.rcSent ∧ e₀.validators.maxFaulty + 1 ≤ (changers e₀ D).card
  · obtain ⟨hnot, hmany⟩ := hjoin
    obtain ⟨m₀, hm₀⟩ := exists_roundChange (e := s.engine) hv.lock r
    have hlen := hstores.len_of_not_sent hnot
    have hmem : r ∈ s.engine.roundChanges.keys.insertionSort (· ≤ ·) := by
      refine (List.perm_insertionSort _ _).mem_iff.mpr ?_
      by_contra hno
      rw [Dict.getD, Dict.get?_eq_none.mpr hno, Option.getD_none, Dict.len_empty] at hlen
      omega
    refine .of_eq (accelerate_of_target (fun t _ ht => hstores.joined ht) hmem hround hnot
      (by rw [hvals]; omega) hm₀) ⟨?_, ?_, ?_, fun t ht => ?_⟩
    · exact ⟨⟨hv.alike.validators, hv.alike.privateKey, hv.alike.height, hv.alike.previousHash⟩,
        hv.round, hv.phase, hv.proposal, hv.unproposed, hv.decided, hv.buffer, hv.votes, hv.lock⟩
    · refine ⟨fun t i => ?_, hstores.own⟩
      have hme : s.engine.me = e₀.me := hv.alike.me
      have hold := hstores.entries t i
      simp only [hnot, false_and, or_false] at hold
      refine Dict.mem_keys_getD_setIn.trans ?_
      rw [hold, hme, ← and_or_left, or_comm]
      exact and_congr_right fun _ => or_congr_right (and_iff_right List.mem_cons_self).symm
    · exact iff_of_true List.mem_cons_self hmany
    · by_cases heq : t = r
      · exact Or.inl (heq ▸ List.mem_cons_self)
      · exact (hstores.joined heq).leave r m₀
  · have hiff : r ∈ s.engine.rcSent ↔ e₀.validators.maxFaulty + 1 ≤ (changers e₀ D).card :=
      ⟨hsent, fun hmany => by_contra fun hnot => hjoin ⟨hnot, hmany⟩⟩
    have hall : ∀ t, s.engine.round < t → Joined s.engine t := by
      intro t _
      by_cases heq : t = r
      · by_cases hin : r ∈ s.engine.rcSent
        · exact Or.inl (heq ▸ hin)
        · refine Or.inr ?_
          have hlen := hstores.len_of_not_sent hin
          have hfew := mt hiff.mpr hin
          rw [heq, hlen, hvals]
          omega
      · exact hstores.joined heq
    exact .of_eq (accelerate_of_joined hall) ⟨hv, hstores, hiff, hall⟩

/-- A waiting engine enters the round as soon as its ROUND_CHANGEs suffice. -/
lemma processRoundChanges_returns (hr : 0 < r) (hv : (v.during c s).Waiting e₀ r D)
    (hstores : e₀.Stores r D s.engine)
    (hsent : r ∈ s.engine.rcSent → e₀.validators.maxFaulty + 1 ≤ (changers e₀ D).card)
    (hne : (changers e₀ D).Nonempty) (hD : ∀ m ∈ D, MessageOfRound e₀ r block m)
    (hproposer : e₀.me ≠ e₀.validators.proposer e₀.height r) :
    Returns processRoundChanges s fun _ s' => (v.during c s').Delivered e₀ r h D := by
  unfold processRoundChanges
  refine returns_self (returns_self (Returns.bind (accelerate_returns hr hv hstores hsent) ?_))
  rintro sent t ⟨hv, hstores, hjoined, hall⟩
  have hvals : t.engine.validators = e₀.validators := hv.alike.validators
  have hround : t.engine.round = 0 := hv.round
  refine returns_self ?_
  cases hbest : t.engine.bestRound with
  | none =>
    have hfew := lt_quorum_of_bestRound hbest (t := r) (by omega)
    have hsettled : Settled t.engine := fun t' ht' => ⟨hall t' ht', lt_quorum_of_bestRound hbest ht'⟩
    have hno : ¬TakesTo e₀ D := by
      rintro (hprop | ⟨-, hquorum⟩)
      · exact hv.unproposed hprop
      · have hpos := hne.card_pos
        have hsize := e₀.validators.three_mul_maxFaulty_lt
        rw [ValidatorSet.card_members] at hsize
        by_cases hin : r ∈ t.engine.rcSent
        · rw [hstores.len_of_sent hin, hvals] at hfew
          omega
        · have hmany := mt hjoined.mpr hin
          rw [ValidatorSet.quorum] at hquorum
          omega
    refine Returns.ite (fun _ => ?_) fun _ => Returns.pure (.waiting hr hno hv hstores hjoined)
    exact .of_eq (roundChangeLoop_of_settled hsettled _) (.waiting hr hno hv hstores hjoined)
  | some best =>
    obtain ⟨hlt, hquorum, -⟩ := bestRound_eq_some hbest
    obtain rfl : best = r := by
      by_contra hne
      have hpos := t.engine.validators.quorum_pos
      rw [hstores.len_of_ne hne] at hquorum
      omega
    have htakes : TakesTo e₀ D := by
      refine Or.inr ⟨hne, ?_⟩
      rw [hvals] at hquorum
      by_cases hin : best ∈ t.engine.rcSent
      · exact hstores.len_of_sent hin ▸ hquorum
      · exact (hstores.len_of_not_sent hin ▸ hquorum).trans (Nat.le_succ _)
    refine Returns.bind (adoptRound_returns (h := h) hv hr hD) ?_
    rintro _ t' ⟨hin, hchanges⟩
    have hround' : t'.engine.round = best := hin.round
    have hphase' : t'.engine.phase = .NEW_ROUND := by
      by_contra hphase
      exact hv.unproposed (hin.proposed.mp hphase)
    have hpropose : proposeForRoundChange best t' = (.ok (), t') := by
      have hno : ¬t'.engine.isProposer = true := by
        rw [ConsensusEngine.isProposer, decide_eq_true_iff, hround',
          show t'.engine.me = e₀.me from hin.alike.me,
          show t'.engine.validators = e₀.validators from hin.alike.validators,
          show t'.engine.height = e₀.height from hin.alike.height]
        exact hproposer
      rw [proposeForRoundChange, self_bind, if_neg (by simp [hround', hphase']), if_pos hno]
      rfl
    refine Returns.bind (.of_eq hpropose (Q := fun _ t'' => t'' = t') rfl) ?_
    rintro _ t' rfl
    refine .of_eq (roundChangeLoop_of_settled (fun t'' ht'' => ?_) _)
      (.entered (Or.inr ⟨hr, htakes⟩) hin (.of_new hphase'))
    have hother : (t'.engine.roundChanges.getD t'').len = 0 := by
      rw [hchanges]
      exact hstores.len_of_ne (by omega)
    rw [Joined, hother]
    exact ⟨Or.inr (Nat.zero_le _), t'.engine.validators.quorum_pos⟩

end EngineM

end Round

end Helix
