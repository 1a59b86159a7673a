import Helix.Consensus.Run

/-!
# What a finalized engine still does

A COMMITTED engine ignores timeouts, but not messages: a certified proposal for a later round, or a
ROUND_CHANGE that completes a quorum for one, starts the new round as in any other phase, and the
height is decided again. An engine that stays in the round in which it was decided returns no other
block.
-/

namespace Helix

open Relation (ReflTransGen)

variable [Crypto] {e₀ : ConsensusEngine} {c : Call} {s : Frame} {v : Validator}

/-- The call takes the engine to a later round: it hands in a certified proposal for one, or a
ROUND_CHANGE with which one has a quorum. -/
def Call.MovesOn (c : Call) (e : ConsensusEngine) : Prop :=
  (∃ m, c.Enters e m) ∨ c.Changing e ∧ ∃ t, e.round < t ∧
    e.validators.quorum ≤ (insert e.me.toHex (changeSenders e c t)).card

/-- The call does not reopen a decided height. -/
def Call.LeavesDecided (e : ConsensusEngine) (c : Call) : Prop :=
  e.phase = .COMMITTED → ¬c.MovesOn e

/-- A block is returned with the last step of a round. -/
lemma Reached.phase_of_committed (hs : Reached e₀ c s) (hcommitted : s.result.committed ≠ none) :
    s.engine.phase = .COMMITTED := by
  induction hs with
  | refl => exact absurd rfl hcommitted
  | tail _ hmove ih =>
    cases hmove with
    | adopt _ hnone => exact absurd hnone hcommitted
    | accept _ hphase =>
      have hlast := ih hcommitted
      rw [hphase] at hlast
      cases hlast
    | prepare _ hphase =>
      have hlast := ih hcommitted
      rw [hphase] at hlast
      cases hlast
    | finalize => rfl
    | finalizeRaises => rfl
    | _ => exact ih hcommitted

/-- In its round, a COMMITTED engine returns nothing. -/
lemma Reached.committed_of_leavesDecided (hs : Reached e₀ c s) (hphase : e₀.phase = .COMMITTED)
    (hc : c.LeavesDecided e₀) : s.engine.round = e₀.round ∧ s.engine.phase = .COMMITTED ∧
      s.result.committed = none := by
  induction hs with
  | refl => exact ⟨rfl, hphase, rfl⟩
  | @tail s _ hs hmove ih =>
    obtain ⟨hround, hlast, hnone⟩ := ih
    cases hmove with
    | @adopt target hlt _ hwhy =>
      refine absurd ?_ (hc hphase)
      rcases hwhy with ⟨hchanging, hquorum⟩ | ⟨m, hm, -⟩
      · refine Or.inr ⟨hchanging, target, hround ▸ hlt, hquorum.trans ?_⟩
        rw [Dict.len_eq_card]
        exact Finset.card_le_card (Reached.roundChanges_subset hs hchanging target).1
      · exact Or.inl ⟨m, hm⟩
    | accept _ hnew => rw [hnew] at hlast; cases hlast
    | prepare _ hpre => rw [hpre] at hlast; cases hlast
    | finalize _ hprep => rw [hprep] at hlast; cases hlast
    | finalizeRaises => exact ⟨hround, rfl, hnone⟩
    | _ => exact ⟨hround, hlast, hnone⟩

/-- At most one block has been returned, and the engine is in the round of it. -/
structure Validator.DecidedOnce (v : Validator) : Prop where
  once : ∀ b ∈ v.decided, ∀ b' ∈ v.decided, b = b'
  phase : v.decided ≠ [] → v.engine.phase = .COMMITTED

lemma Validator.DecidedOnce.call (hv : v.DecidedOnce) (hc : c.LeavesDecided v.engine) :
    (v.call c).DecidedOnce := by
  have hs : Reached v.engine c (c.run v.engine).2 := c.run_moves v.engine
  have hdecided : (v.call c).decided = v.decided ++ (c.run v.engine).2.result.committed.toList := rfl
  by_cases hnil : v.decided = []
  · rw [hnil, List.nil_append] at hdecided
    refine ⟨fun b hb b' hb' => ?_, fun hne => hs.phase_of_committed fun hnone => ?_⟩
    · rw [hdecided, Option.mem_toList] at hb hb'
      exact Option.mem_unique hb hb'
    · rw [hdecided, hnone] at hne
      exact hne rfl
  · obtain ⟨-, hphase, hnone⟩ := hs.committed_of_leavesDecided (hv.phase hnil) hc
    rw [hnone, Option.toList_none, List.append_nil] at hdecided
    exact ⟨hdecided ▸ hv.once, fun _ => hphase⟩

end Helix
