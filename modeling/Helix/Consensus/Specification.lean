import Mathlib.Data.Finset.Card
import Mathlib.Data.Set.Subsingleton
import Mathlib.Logic.Relation
import Mathlib.Logic.Function.Basic
import Mathlib.Tactic.Linarith

/-!
# The specification of one round

`specs/Helix.tla`: validators PREPARE and COMMIT to blocks, Byzantine ones without restraint. No correct
validator commits to two blocks (`noCorrectEquivocation`). The theorem of the specification, that at most
one block is decided, needs a bound on the Byzantine validators that its assumptions do not state; it holds
exactly if there are fewer than `N - 2 F` of them (`agreement_iff`).
-/

namespace Helix

/-- The constants of the specification. -/
structure Specification (K B : Type*) where
  Validators : Finset K
  Byz : Finset K
  Blocks : Set B
  byzAssume : Byz ⊆ Validators
  blocksAssume : Blocks.Nonempty

namespace Specification

open Relation (ReflTransGen)

variable {K B : Type*} (S : Specification K B)

/-! ### Quorums -/

def N : ℤ := S.Validators.card

def F : ℤ := (S.N - 1) / 3

def Quorum : ℤ := S.N - S.F

/-! ### Steps -/

/-- The variables; `none` is `NoBlock`. -/
structure State (K B : Type*) where
  prepares : B → Finset K
  commits : B → Finset K
  committed : K → Option B

/-- `Init`. -/
def State.init : State K B := ⟨fun _ => ∅, fun _ => ∅, fun _ => none⟩

variable [DecidableEq K] [DecidableEq B]

def Correct : Finset K := S.Validators \ S.Byz

/-- `prepares' = [prepares EXCEPT ![b] = @ \cup {v}]`. -/
def State.prepare (s : State K B) (v : K) (b : B) : State K B :=
  { s with prepares := Function.update s.prepares b (insert v (s.prepares b)) }

/-- `commits' = [commits EXCEPT ![b] = @ \cup {v}]`. -/
def State.commit (s : State K B) (v : K) (b : B) : State K B :=
  { s with commits := Function.update s.commits b (insert v (s.commits b)) }

/-- `committed' = [committed EXCEPT ![v] = b]`. -/
def State.hold (s : State K B) (v : K) (b : B) : State K B :=
  { s with committed := Function.update s.committed v (some b) }

/-- `Prepare`, `Commit` and `ByzMove`, the last one with its two cases. -/
inductive Next (s : State K B) : State K B → Prop
  | prepare {v : K} {b : B} (hb : b ∈ S.Blocks) (hv : v ∈ S.Correct)
      (honly : ∀ c ∈ S.Blocks, v ∈ s.prepares c → c = b) : Next s (s.prepare v b)
  | commit {v : K} {b : B} (hb : b ∈ S.Blocks) (hv : v ∈ S.Correct)
      (hquorum : S.Quorum ≤ (s.prepares b).card)
      (hfree : s.committed v = none ∨ s.committed v = some b) : Next s ((s.commit v b).hold v b)
  | byzPrepare {v : K} {b : B} (hb : b ∈ S.Blocks) (hv : v ∈ S.Byz) : Next s (s.prepare v b)
  | byzCommit {v : K} {b : B} (hb : b ∈ S.Blocks) (hv : v ∈ S.Byz) : Next s (s.commit v b)

/-- The states of the behaviours of `Spec`. -/
def Reachable (s : State K B) : Prop := ReflTransGen S.Next .init s

/-- A block is decided when a quorum of validators has committed to it. -/
def Decided (s : State K B) (b : B) : Prop := S.Quorum ≤ (s.commits b).card

/-- `Agreement`: at most one block is decided. -/
def Agreement (s : State K B) : Prop :=
  ∀ b₁ ∈ S.Blocks, ∀ b₂ ∈ S.Blocks, S.Decided s b₁ → S.Decided s b₂ → b₁ = b₂

/-- A correct validator never holds two different committed values. -/
def NoCorrectEquivocation (s : State K B) : Prop :=
  ∀ v ∈ S.Correct, ∀ b₁ ∈ S.Blocks, ∀ b₂ ∈ S.Blocks, v ∈ s.commits b₁ → v ∈ s.commits b₂ → b₁ = b₂

section Updates

variable {s : State K B} {v w : K} {b c : B}

omit [DecidableEq K] [DecidableEq B] in
@[simp] lemma not_mem_prepares_init : v ∉ (State.init : State K B).prepares b := Finset.notMem_empty v

omit [DecidableEq K] [DecidableEq B] in
@[simp] lemma not_mem_commits_init : v ∉ (State.init : State K B).commits b := Finset.notMem_empty v

omit [DecidableEq K] [DecidableEq B] in
@[simp] lemma committed_init : (State.init : State K B).committed v = none := rfl

@[simp] lemma commits_prepare : (s.prepare v b).commits = s.commits := rfl

@[simp] lemma committed_prepare : (s.prepare v b).committed = s.committed := rfl

@[simp] lemma prepares_commit : (s.commit v b).prepares = s.prepares := rfl

@[simp] lemma committed_commit : (s.commit v b).committed = s.committed := rfl

omit [DecidableEq B] in
@[simp] lemma prepares_hold : (s.hold v b).prepares = s.prepares := rfl

omit [DecidableEq B] in
@[simp] lemma commits_hold : (s.hold v b).commits = s.commits := rfl

@[simp] lemma mem_prepares_prepare :
    w ∈ (s.prepare v b).prepares c ↔ c = b ∧ w = v ∨ w ∈ s.prepares c := by
  by_cases hc : c = b
  · subst hc
    simp [State.prepare]
  · simp [State.prepare, hc]

@[simp] lemma mem_commits_commit :
    w ∈ (s.commit v b).commits c ↔ c = b ∧ w = v ∨ w ∈ s.commits c := by
  by_cases hc : c = b
  · subst hc
    simp [State.commit]
  · simp [State.commit, hc]

omit [DecidableEq B] in
lemma committed_hold : (s.hold v b).committed w = if w = v then some b else s.committed w := by
  by_cases hw : w = v
  · subst hw
    simp [State.hold]
  · simp [State.hold, hw]

end Updates

/-! ### Safety -/

variable {S} {s s' : State K B} {b : B}

omit [DecidableEq B] in
lemma mem_validators_of_correct {v : K} (h : v ∈ S.Correct) : v ∈ S.Validators :=
  (Finset.mem_sdiff.mp h).1

/-- What holds in every reachable state. -/
structure Invariant (S : Specification K B) (s : State K B) : Prop where
  members : ∀ b, s.commits b ⊆ S.Validators
  held : ∀ v ∈ S.Correct, ∀ b, v ∈ s.commits b → s.committed v = some b

lemma Invariant.next (h : S.Invariant s) (hnext : S.Next s s') : S.Invariant s' := by
  cases hnext with
  | prepare => exact ⟨h.members, h.held⟩
  | @commit v b hb hv hquorum hfree =>
    refine ⟨fun c w hw => ?_, fun w hw c hc => ?_⟩
    · rcases mem_commits_commit.mp hw with ⟨-, rfl⟩ | hw
      · exact mem_validators_of_correct hv
      · exact h.members c hw
    · rw [committed_hold]
      rcases mem_commits_commit.mp hc with ⟨rfl, rfl⟩ | hc
      · exact if_pos rfl
      have hheld := h.held w hw c hc
      split_ifs with heq
      · -- the block that the validator held before is the one that it commits to
        subst heq
        rcases hfree with hfree | hfree <;> rw [hheld] at hfree
        · cases hfree
        · exact hfree.symm
      · exact hheld
  | byzPrepare => exact ⟨h.members, h.held⟩
  | @byzCommit v b hb hv =>
    refine ⟨fun c w hw => ?_, fun w hw c hc => ?_⟩
    · rcases mem_commits_commit.mp hw with ⟨-, rfl⟩ | hw
      · exact S.byzAssume hv
      · exact h.members c hw
    · rcases mem_commits_commit.mp hc with ⟨-, rfl⟩ | hc
      · exact absurd hv (Finset.mem_sdiff.mp hw).2
      · exact h.held w hw c hc

lemma Reachable.invariant (h : S.Reachable s) : S.Invariant s := by
  induction h with
  | refl =>
    exact ⟨fun b v hv => absurd hv not_mem_commits_init,
      fun v _ b hv => absurd hv not_mem_commits_init⟩
  | tail _ hnext ih => exact ih.next hnext

/-- Whatever the Byzantine validators do, no correct one commits to two blocks. -/
theorem noCorrectEquivocation (h : S.Reachable s) : S.NoCorrectEquivocation s := by
  intro v hv b₁ _ b₂ _ h₁ h₂
  have hheld := (h.invariant.held v hv b₁ h₁).symm.trans (h.invariant.held v hv b₂ h₂)
  exact Option.some.inj hheld

/-- Two quorums of different blocks have only Byzantine validators in common. -/
lemma card_byz_of_decided (h : S.Reachable s) {b₁ b₂ : B} (hb₁ : b₁ ∈ S.Blocks) (hb₂ : b₂ ∈ S.Blocks)
    (h₁ : S.Decided s b₁) (h₂ : S.Decided s b₂) (hne : b₁ ≠ b₂) : S.N - 2 * S.F ≤ S.Byz.card := by
  have hinv := h.invariant
  have hinter : s.commits b₁ ∩ s.commits b₂ ⊆ S.Byz := by
    intro v hv
    obtain ⟨hv₁, hv₂⟩ := Finset.mem_inter.mp hv
    by_contra hbyz
    have hcorrect : v ∈ S.Correct := Finset.mem_sdiff.mpr ⟨hinv.members b₁ hv₁, hbyz⟩
    exact hne (noCorrectEquivocation h v hcorrect b₁ hb₁ b₂ hb₂ hv₁ hv₂)
  have hunion := Finset.card_le_card (Finset.union_subset (hinv.members b₁) (hinv.members b₂))
  have hcount := Finset.card_union_add_card_inter (s.commits b₁) (s.commits b₂)
  have hbyz := Finset.card_le_card hinter
  unfold Decided Quorum at h₁ h₂
  unfold N at *
  omega

/-! ### Byzantine majorities -/

/-- All of `T` may PREPARE a block one after the other. -/
lemma exists_prepared (hb : b ∈ S.Blocks) (T : Finset K)
    (hT : ∀ v ∈ T, v ∈ S.Byz ∨ v ∈ S.Correct ∧ ∀ c ∈ S.Blocks, v ∈ s.prepares c → c = b) :
    ∃ s', ReflTransGen S.Next s s' ∧ s'.commits = s.commits ∧ s'.committed = s.committed ∧
      ∀ w c, w ∈ s'.prepares c ↔ c = b ∧ w ∈ T ∨ w ∈ s.prepares c := by
  induction T using Finset.induction with
  | empty => exact ⟨s, .refl, rfl, rfl, fun w c => by simp⟩
  | insert v T hv ih =>
    obtain ⟨s', hsteps, hcommits, hcommitted, hprepares⟩ :=
      ih fun w hw => hT w (Finset.mem_insert_of_mem hw)
    have hnext : S.Next s' (s'.prepare v b) := by
      rcases hT v (Finset.mem_insert_self v T) with hbyz | ⟨hcorrect, honly⟩
      · exact .byzPrepare hb hbyz
      · refine .prepare hb hcorrect fun c hc hmem => ?_
        rcases (hprepares v c).mp hmem with ⟨rfl, -⟩ | hmem
        · rfl
        · exact honly c hc hmem
    refine ⟨_, hsteps.tail hnext, hcommits, hcommitted, fun w c => ?_⟩
    rw [mem_prepares_prepare, hprepares, Finset.mem_insert]
    tauto

/-- All of `T` may commit to a block one after the other, the correct ones if a quorum has PREPARED it. -/
lemma exists_committed (hb : b ∈ S.Blocks) (T : Finset K)
    (hT : ∀ v ∈ T, v ∈ S.Byz ∨ v ∈ S.Correct ∧ S.Quorum ≤ (s.prepares b).card ∧ s.committed v = none) :
    ∃ s', ReflTransGen S.Next s s' ∧ s'.prepares = s.prepares ∧
      (∀ w c, w ∈ s'.commits c ↔ c = b ∧ w ∈ T ∨ w ∈ s.commits c) ∧
      ∀ w ∉ T, s'.committed w = s.committed w := by
  induction T using Finset.induction with
  | empty => exact ⟨s, .refl, rfl, fun w c => by simp, fun w _ => rfl⟩
  | insert v T hv ih =>
    obtain ⟨s', hsteps, hprepares, hcommits, hcommitted⟩ :=
      ih fun w hw => hT w (Finset.mem_insert_of_mem hw)
    have hmem : ∀ w c, w ∈ (s'.commit v b).commits c ↔ c = b ∧ w ∈ insert v T ∨ w ∈ s.commits c := by
      intro w c
      rw [mem_commits_commit, hcommits, Finset.mem_insert]
      tauto
    rcases hT v (Finset.mem_insert_self v T) with hbyz | ⟨hcorrect, hquorum, hfree⟩
    · refine ⟨_, hsteps.tail (.byzCommit hb hbyz), hprepares, hmem, fun w hw => ?_⟩
      exact hcommitted w fun h => hw (Finset.mem_insert_of_mem h)
    · have hnext : S.Next s' ((s'.commit v b).hold v b) :=
        .commit hb hcorrect (hprepares ▸ hquorum) (Or.inl ((hcommitted v hv).trans hfree))
      refine ⟨_, hsteps.tail hnext, hprepares, hmem, fun w hw => ?_⟩
      obtain ⟨hne, hw⟩ := not_or.mp (mt Finset.mem_insert.mpr hw)
      rw [committed_hold, if_neg hne, committed_commit, hcommitted w hw]

omit [DecidableEq B] in
lemma card_union_byz {C : Finset K} (hC : C ⊆ S.Correct) : (C ∪ S.Byz).card = C.card + S.Byz.card :=
  Finset.card_union_of_disjoint (Finset.disjoint_of_subset_left hC Finset.sdiff_disjoint)

/-- Correct validators that have not voted make up a quorum for a block together with the Byzantine ones. -/
lemma exists_decided (hb : b ∈ S.Blocks) {C : Finset K} (hC : C ⊆ S.Correct)
    (hfree : ∀ v ∈ C, (∀ c, v ∉ s.prepares c) ∧ s.committed v = none)
    (hquorum : S.Quorum ≤ (C ∪ S.Byz).card) :
    ∃ s', ReflTransGen S.Next s s' ∧ S.Decided s' b ∧ (∀ c, s.commits c ⊆ s'.commits c) ∧
      ∀ v ∈ S.Correct, v ∉ C → (∀ c, v ∈ s'.prepares c ↔ v ∈ s.prepares c) ∧
        s'.committed v = s.committed v := by
  have hcases : ∀ v ∈ C ∪ S.Byz, v ∈ S.Byz ∨ v ∈ S.Correct ∧ v ∈ C := fun v hv =>
    (Finset.mem_union.mp hv).elim (fun h => Or.inr ⟨hC h, h⟩) Or.inl
  obtain ⟨s₁, hsteps₁, hcommits₁, hcommitted₁, hprepares₁⟩ := exists_prepared (s := s) hb (C ∪ S.Byz)
    fun v hv => (hcases v hv).imp_right fun h => ⟨h.1, fun c _ hmem => absurd hmem ((hfree v h.2).1 c)⟩
  have hquorum₁ : S.Quorum ≤ (s₁.prepares b).card := by
    refine hquorum.trans (Int.ofNat_le.mpr (Finset.card_le_card fun v hv => ?_))
    exact (hprepares₁ v b).mpr (Or.inl ⟨rfl, hv⟩)
  obtain ⟨s₂, hsteps₂, hprepares₂, hcommits₂, hcommitted₂⟩ := exists_committed hb (C ∪ S.Byz)
    fun v hv => (hcases v hv).imp_right fun h => ⟨h.1, hquorum₁, hcommitted₁ ▸ (hfree v h.2).2⟩
  refine ⟨s₂, hsteps₁.trans hsteps₂, ?_, fun c v hv => ?_, fun v hv hvC => ⟨fun c => ?_, ?_⟩⟩
  · refine hquorum.trans (Int.ofNat_le.mpr (Finset.card_le_card fun v hv => ?_))
    exact (hcommits₂ v b).mpr (Or.inl ⟨rfl, hv⟩)
  · exact (hcommits₂ v c).mpr (Or.inr (hcommits₁ ▸ hv))
  · rw [hprepares₂, hprepares₁]
    refine ⟨fun h => h.resolve_left fun h => ?_, Or.inr⟩
    exact (Finset.mem_union.mp h.2).elim hvC (Finset.mem_sdiff.mp hv).2
  · rw [hcommitted₂ v fun h => (Finset.mem_union.mp h).elim hvC (Finset.mem_sdiff.mp hv).2, hcommitted₁]

/-- The theorem of the specification, for a set of Byzantine validators of any size: at most one block is
ever decided if and only if there is only one, or there are fewer than `N - 2 F` Byzantine validators. -/
theorem agreement_iff : (∀ s, S.Reachable s → S.Agreement s) ↔
    S.Blocks.Subsingleton ∨ S.Byz.card < S.N - 2 * S.F := by
  constructor
  · intro h
    by_contra hno
    obtain ⟨hblocks, hbyz⟩ := not_or.mp hno
    obtain ⟨b₁, hb₁, b₂, hb₂, hne⟩ := Set.not_subsingleton_iff.mp hblocks
    have hsplit : (S.Correct.card : ℤ) = S.N - S.Byz.card := by
      have hcard := Finset.card_sdiff_add_card_eq_card S.byzAssume
      unfold Correct N
      omega
    -- the correct validators are split into two sets that the Byzantine ones complete to quorums
    have hsize : (S.Quorum - S.Byz.card).toNat ≤ S.Correct.card := by
      have hmembers := Finset.card_le_card S.byzAssume
      unfold Quorum F N at *
      omega
    obtain ⟨C₁, hC₁, hcard₁⟩ := Finset.exists_subset_card_eq hsize
    have hcard₂ := Finset.card_sdiff_add_card_eq_card hC₁
    have hquorum₁ : S.Quorum ≤ (C₁ ∪ S.Byz).card := by
      rw [card_union_byz hC₁, hcard₁]
      omega
    have hquorum₂ : S.Quorum ≤ (S.Correct \ C₁ ∪ S.Byz).card := by
      rw [card_union_byz Finset.sdiff_subset]
      unfold Quorum at *
      omega
    obtain ⟨s₁, hsteps₁, hdecided₁, -, hkept⟩ := exists_decided (s := .init) hb₁ hC₁
      (fun v _ => ⟨fun c => not_mem_prepares_init, rfl⟩) hquorum₁
    obtain ⟨s₂, hsteps₂, hdecided₂, hgrows, -⟩ := exists_decided (s := s₁) hb₂
      Finset.sdiff_subset (fun v hv => by
        obtain ⟨hcorrect, hnot⟩ := Finset.mem_sdiff.mp hv
        obtain ⟨hprepares, hcommitted⟩ := hkept v hcorrect hnot
        exact ⟨fun c hc => not_mem_prepares_init ((hprepares c).mp hc), hcommitted⟩) hquorum₂
    have hstill : S.Decided s₂ b₁ :=
      hdecided₁.trans (Int.ofNat_le.mpr (Finset.card_le_card (hgrows b₁)))
    exact hne (h s₂ (hsteps₁.trans hsteps₂) b₁ hb₁ b₂ hb₂ hstill hdecided₂)
  · rintro (hblocks | hbyz) s hs b₁ hb₁ b₂ hb₂ h₁ h₂
    · exact hblocks hb₁ hb₂
    · by_contra hne
      exact hbyz.not_ge (card_byz_of_decided hs hb₁ hb₂ h₁ h₂ hne)

end Specification

end Helix
