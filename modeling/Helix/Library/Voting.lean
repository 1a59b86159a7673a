import Mathlib.Data.Finset.Card
import Mathlib.Order.Defs.LinearOrder
import Mathlib.Tactic.Linarith

/-!
# Round-based voting with locks

`n` members, at most `f` of them incorrect with `3 f < n`, quorums of `n - f` members. In every
round a member may prepare a value and may commit to a value; it may announce that it leaves the
round for a later one.

A round is *blocked* for a value when a quorum has left it without committing to that value: no
commit quorum for the value can form there any more. A value is *safe* in a round when every earlier
round is blocked for every other value. If correct members prepare only safe values, then no two
rounds commit to different values (`agreement`), and a value chosen from a quorum of lock reports is
safe (`Safe.of_reports`).
-/

namespace Helix.Voting

variable {V : Type*} [DecidableEq V]

/-- A set of members large enough to decide. -/
structure IsQuorum (M : Finset V) (f : ℕ) (Q : Finset V) : Prop where
  subset : Q ⊆ M
  card : M.card - f ≤ Q.card

section Intersection

variable {M Q Q' : Finset V} {f : ℕ} {correct : V → Prop} [DecidablePred correct]

/-- Two quorums share a correct member. -/
theorem IsQuorum.exists_correct_inter (hf : 3 * f < M.card)
    (hbad : (M.filter fun v => ¬correct v).card ≤ f) (hQ : IsQuorum M f Q)
    (hQ' : IsQuorum M f Q') : ∃ v, v ∈ Q ∧ v ∈ Q' ∧ correct v := by
  by_contra hno
  push Not at hno
  have hsub : Q ∩ Q' ⊆ M.filter fun v => ¬correct v := by
    intro v hv
    obtain ⟨h1, h2⟩ := Finset.mem_inter.mp hv
    exact Finset.mem_filter.mpr ⟨hQ.subset h1, hno v h1 h2⟩
  have h1 := Finset.card_le_card hsub
  have h2 := Finset.card_le_card (Finset.union_subset hQ.subset hQ'.subset)
  have h3 := Finset.card_union_add_card_inter Q Q'
  have h4 := hQ.card
  have h5 := hQ'.card
  omega

/-- Two quorums share more than `f` members. -/
lemma IsQuorum.lt_card_inter (hf : 3 * f < M.card) (hQ : IsQuorum M f Q) (hQ' : IsQuorum M f Q') :
    f < (Q ∩ Q').card := by
  have hunion := Finset.card_le_card (Finset.union_subset hQ.subset hQ'.subset)
  have hinter := Finset.card_union_add_card_inter Q Q'
  have hcard := hQ.card
  have hcard' := hQ'.card
  omega

/-- A quorum of at least two members has a correct member other than a given one. -/
theorem IsQuorum.exists_correct_ne (hf : 3 * f < M.card) (hM : 2 ≤ M.card)
    (hbad : (M.filter fun v => ¬correct v).card ≤ f) (hQ : IsQuorum M f Q) (p : V) :
    ∃ v ∈ Q, correct v ∧ v ≠ p := by
  by_contra hno
  push Not at hno
  have hsub : Q ⊆ insert p (M.filter fun v => ¬correct v) := by
    intro v hv
    by_cases hc : correct v
    · exact Finset.mem_insert.mpr (Or.inl (hno v hv hc))
    · exact Finset.mem_insert_of_mem (Finset.mem_filter.mpr ⟨hQ.subset hv, hc⟩)
  have h1 := Finset.card_le_card hsub
  have h2 := Finset.card_insert_le p (M.filter fun v => ¬correct v)
  have h3 := hQ.card
  omega

end Intersection

/-- What the members did: which values they prepared and committed to, which rounds they left. -/
structure Record (V R H : Type*) where
  prepared : V → R → H → Prop
  committed : V → R → H → Prop
  left : V → R → Prop

variable {R H : Type*} [LinearOrder R]

section Safety

variable (M : Finset V) (f : ℕ) (correct : V → Prop) (rec : Record V R H)

/-- A quorum whose correct members all prepared `h` in round `r`. -/
def PreparedQuorum (r : R) (h : H) : Prop :=
  ∃ Q, IsQuorum M f Q ∧ ∀ v ∈ Q, correct v → rec.prepared v r h

/-- A quorum whose correct members all committed to `h` in round `r`. -/
def CommitQuorum (r : R) (h : H) : Prop :=
  ∃ Q, IsQuorum M f Q ∧ ∀ v ∈ Q, correct v → rec.committed v r h

/-- A quorum whose correct members left round `r` without committing to `h`. -/
def Blocked (r : R) (h : H) : Prop :=
  ∃ Q, IsQuorum M f Q ∧ ∀ v ∈ Q, correct v → rec.left v r ∧ ¬rec.committed v r h

/-- Every round before `r` is blocked for every value other than `h`. -/
def Safe (r : R) (h : H) : Prop :=
  ∀ r' < r, ∀ h', h' ≠ h → Blocked M f correct rec r' h'

end Safety

section Agreement

variable {M : Finset V} {f : ℕ} {correct : V → Prop} [DecidablePred correct]
  {rec : Record V R H}

omit [LinearOrder R] in
/-- Correct members that prepare one value a round prepare at most one value by quorum. -/
theorem PreparedQuorum.unique (hf : 3 * f < M.card)
    (hbad : (M.filter fun v => ¬correct v).card ≤ f)
    (huniq : ∀ v r h h', correct v → rec.prepared v r h → rec.prepared v r h' → h = h')
    {r : R} {h h' : H} (hp : PreparedQuorum M f correct rec r h)
    (hp' : PreparedQuorum M f correct rec r h') : h = h' := by
  obtain ⟨Q, hQ, hQp⟩ := hp
  obtain ⟨Q', hQ', hQp'⟩ := hp'
  obtain ⟨v, hv, hv', hc⟩ := hQ.exists_correct_inter hf hbad hQ'
  exact huniq v r h h' hc (hQp v hv hc) (hQp' v hv' hc)

/-- A value that is safe in a round is the only one an earlier round can have committed to. -/
theorem Safe.eq_of_commitQuorum (hf : 3 * f < M.card)
    (hbad : (M.filter fun v => ¬correct v).card ≤ f) {r r' : R} {h h' : H}
    (hs : Safe M f correct rec r h) (hlt : r' < r) (hc : CommitQuorum M f correct rec r' h') :
    h' = h := by
  by_contra hne
  obtain ⟨Q, hQ, hQb⟩ := hs r' hlt h' hne
  obtain ⟨Q', hQ', hQc⟩ := hc
  obtain ⟨v, hv, hv', hcor⟩ := hQ.exists_correct_inter hf hbad hQ'
  exact (hQb v hv hcor).2 (hQc v hv' hcor)

/-- No two rounds commit to different values. -/
theorem agreement (hf : 3 * f < M.card) (hbad : (M.filter fun v => ¬correct v).card ≤ f)
    (huniq : ∀ v r h h', correct v → rec.prepared v r h → rec.prepared v r h' → h = h')
    (hcomm : ∀ v r h, correct v → rec.committed v r h → PreparedQuorum M f correct rec r h)
    (hsafe : ∀ r h, PreparedQuorum M f correct rec r h → Safe M f correct rec r h)
    {r r' : R} {h h' : H} (hc : CommitQuorum M f correct rec r h)
    (hc' : CommitQuorum M f correct rec r' h') : h = h' := by
  have hprep : ∀ {s g}, CommitQuorum M f correct rec s g → PreparedQuorum M f correct rec s g := by
    rintro s g ⟨Q, hQ, hQc⟩
    obtain ⟨v, hv, -, hcor⟩ := hQ.exists_correct_inter hf hbad hQ
    exact hcomm v s g hcor (hQc v hv hcor)
  rcases lt_trichotomy r r' with hlt | rfl | hgt
  · exact (hsafe r' h' (hprep hc')).eq_of_commitQuorum hf hbad hlt hc
  · exact (hprep hc).unique hf hbad huniq (hprep hc')
  · exact ((hsafe r h (hprep hc)).eq_of_commitQuorum hf hbad hgt hc').symm

/-- What a quorum reports when it leaves all rounds below `r`: each correct reporter left them, and
its lock covers every commit it made there. -/
structure Reports (M : Finset V) (f : ℕ) (correct : V → Prop) (rec : Record V R H) (r : R)
    (Q : Finset V) (lock : V → Option R) : Prop where
  quorum : IsQuorum M f Q
  left : ∀ v ∈ Q, correct v → ∀ r' < r, rec.left v r'
  covers : ∀ v ∈ Q, correct v → ∀ r' < r, ∀ h, rec.committed v r' h → ∃ p, lock v = some p ∧ r' ≤ p

omit [DecidableEq V] [DecidablePred correct] in
/-- Where no correct reporter has a lock, every value is safe. -/
theorem Safe.of_reports_none {r : R} {Q : Finset V} {lock : V → Option R}
    (hrep : Reports M f correct rec r Q lock) (hnone : ∀ v ∈ Q, correct v → lock v = none)
    (h : H) : Safe M f correct rec r h := by
  intro r' hlt h' _
  refine ⟨Q, hrep.quorum, fun v hv hc => ⟨hrep.left v hv hc r' hlt, fun hcom => ?_⟩⟩
  obtain ⟨p, hp, -⟩ := hrep.covers v hv hc r' hlt h' hcom
  rw [hnone v hv hc] at hp
  cases hp

/-- The value of the highest reported lock is safe. -/
theorem Safe.of_reports (hf : 3 * f < M.card)
    (hbad : (M.filter fun v => ¬correct v).card ≤ f)
    (huniq : ∀ v r h h', correct v → rec.prepared v r h → rec.prepared v r h' → h = h')
    (hcomm : ∀ v r h, correct v → rec.committed v r h → PreparedQuorum M f correct rec r h)
    {r b : R} {h : H} {Q : Finset V} {lock : V → Option R}
    (hrep : Reports M f correct rec r Q lock)
    (hbest : ∀ v ∈ Q, correct v → ∀ p, lock v = some p → p ≤ b)
    (hpq : PreparedQuorum M f correct rec b h) (hsafe : Safe M f correct rec b h) :
    Safe M f correct rec r h := by
  intro r' hlt h' hne
  rcases lt_or_ge r' b with hb | hb
  · exact hsafe r' hb h' hne
  · refine ⟨Q, hrep.quorum, fun v hv hc => ⟨hrep.left v hv hc r' hlt, fun hcom => ?_⟩⟩
    obtain ⟨p, hp, hle⟩ := hrep.covers v hv hc r' hlt h' hcom
    -- the lock covers the commit, so the commit was in the very round of the highest lock
    have hr' : r' = b := le_antisymm (hle.trans (hbest v hv hc p hp)) hb
    subst hr'
    exact hne ((hcomm v r' h' hc hcom).unique hf hbad huniq hpq)

end Agreement

end Helix.Voting
