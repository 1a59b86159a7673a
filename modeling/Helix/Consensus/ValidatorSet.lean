import Helix.Domain.Block
import Helix.Library.Voting
import Mathlib.Data.Int.ModEq
import Mathlib.Data.List.Sort

/-!
# Validator sets

A validator set is an ordered, non-empty list of public keys, sorted by their hexadecimal text so
that all nodes agree on the order. Of `N` validators up to `f = (N - 1) / 3` may be faulty, and
`N - f` matching votes make a quorum. Membership changes are replayed over a dictionary keyed by the
text in the change.
-/

namespace Helix

/-- The permissioned validator set. -/
structure ValidatorSet where
  validators : List PublicKey
  nonempty : validators ≠ []
  sorted : validators.Pairwise fun a b => a.toHex < b.toHex

namespace ValidatorSet

lemma nodup (vs : ValidatorSet) : vs.validators.Nodup := by
  refine vs.sorted.imp ?_
  rintro a b hab rfl
  exact lt_irrefl _ hab

/-- The keys by text, sorted by text. -/
def sortItems (l : List (PyStr × PublicKey)) : List (PyStr × PublicKey) :=
  l.insertionSort fun p q => p.1 ≤ q.1

lemma sortItems_perm (l : List (PyStr × PublicKey)) : (sortItems l).Perm l :=
  List.perm_insertionSort _ l

/-- Dictionary items sorted by key have strictly increasing keys. -/
lemma sortItems_pairwise (d : Dict PyStr PublicKey) (hd : ∀ p ∈ d.items, p.1 = p.2.toHex) :
    ((sortItems d.items).map Prod.snd).Pairwise fun a b => a.toHex < b.toHex := by
  have hperm := sortItems_perm d.items
  have hle : (sortItems d.items).Pairwise fun p q => p.1 ≤ q.1 := by
    have : Std.Total fun p q : PyStr × PublicKey => p.1 ≤ q.1 := ⟨fun p q => le_total p.1 q.1⟩
    have : IsTrans (PyStr × PublicKey) fun p q => p.1 ≤ q.1 := ⟨fun _ _ _ => le_trans⟩
    exact List.pairwise_insertionSort _ _
  have hne : (sortItems d.items).Pairwise fun p q => p.1 ≠ q.1 :=
    List.pairwise_map.mp ((hperm.map Prod.fst).nodup_iff.mpr d.nodup)
  have hkey : ∀ p ∈ sortItems d.items, p.1 = p.2.toHex := fun p hp => hd p (hperm.mem_iff.mp hp)
  rw [List.pairwise_map]
  refine ((hle.and hne).imp_of_mem ?_)
  intro p q hp hq hpq
  rw [← hkey p hp, ← hkey q hq]
  exact lt_of_le_of_ne hpq.1 hpq.2

/-- The `{v.to_hex(): v for v in keys}` dictionary. -/
def byHex (keys : List PublicKey) : Dict PyStr PublicKey :=
  Dict.ofList (keys.map fun v => (v.toHex, v))

lemma byHex_items (keys : List PublicKey) : ∀ p ∈ (byHex keys).items, p.1 = p.2.toHex := by
  have hfold : ∀ (l : List PublicKey) (d : Dict PyStr PublicKey),
      (∀ p ∈ d.items, p.1 = p.2.toHex) →
      ∀ p ∈ ((l.map fun v => (v.toHex, v)).foldl (fun d p => d.set p.1 p.2) d).items,
        p.1 = p.2.toHex := by
    intro l
    induction l with
    | nil => exact fun d hd => hd
    | cons v l ih =>
      intro d hd
      refine ih (d.set v.toHex v) fun p hp => ?_
      rcases Dict.mem_items_set.mp hp with rfl | ⟨hp, -⟩
      · rfl
      · exact hd p hp
  exact hfold keys Dict.empty fun p hp => by cases hp

/-- `ValidatorSet(validators)`. -/
def new (keys : List PublicKey) : Except PyError ValidatorSet :=
  if h : keys = [] then .error (.valueError "validator set must not be empty")
  else if hlen : (byHex keys).len ≠ keys.length then
    .error (.valueError "duplicate validators in set")
  else .ok {
    validators := (sortItems (byHex keys).items).map Prod.snd
    nonempty := by
      intro hnil
      have hl := congrArg List.length hnil
      rw [List.length_map, (sortItems_perm _).length_eq] at hl
      exact h (List.length_eq_zero_iff.mp ((not_not.mp hlen).symm.trans hl))
    sorted := sortItems_pairwise _ (byHex_items keys) }

def size (vs : ValidatorSet) : ℕ := vs.validators.length

/-- `f`, the number of Byzantine validators tolerated. -/
def maxFaulty (vs : ValidatorSet) : ℕ := (vs.size - 1) / 3

/-- Number of matching votes required to commit. -/
def quorum (vs : ValidatorSet) : ℕ := vs.size - vs.maxFaulty

def contains (vs : ValidatorSet) (key : PublicKey) : Bool := vs.validators.any fun v => key = v

lemma size_pos (vs : ValidatorSet) : 0 < vs.size := List.length_pos_of_ne_nil vs.nonempty

/-- Round-robin proposer for `(height, round)`. -/
def proposer (vs : ValidatorSet) (height round : ℤ) : PublicKey :=
  vs.validators.get ⟨((height + round) % vs.size).toNat, by
    have hpos : (0 : ℤ) < vs.size := by exact_mod_cast vs.size_pos
    have hlt := Int.emod_lt_of_pos (height + round) hpos
    have hnn := Int.emod_nonneg (height + round) hpos.ne'
    change _ < vs.size
    omega⟩

@[simp] lemma contains_iff (vs : ValidatorSet) (key : PublicKey) :
    vs.contains key = true ↔ key ∈ vs.validators := by
  simp [contains]

/-- The proposer is the validator whose place in the list is `height + round`, around the list. -/
lemma proposer_eq_iff (vs : ValidatorSet) {height round : ℤ} {j : ℕ} (hj : j < vs.validators.length) :
    vs.proposer height round = vs.validators[j] ↔ height + round ≡ j [ZMOD vs.size] := by
  have hpos : (0 : ℤ) < vs.size := by exact_mod_cast vs.size_pos
  have hnn := Int.emod_nonneg (height + round) hpos.ne'
  have hjmod : (j : ℤ) % vs.size = j := Int.emod_eq_of_lt (by omega) (by exact_mod_cast hj)
  rw [proposer, List.get_eq_getElem, vs.nodup.getElem_inj_iff, Int.ModEq, hjmod]
  change ((height + round) % (vs.size : ℤ)).toNat = j ↔ _
  omega

/-- Of as many consecutive rounds as there are validators, each validator has exactly one. -/
lemma existsUnique_turn (vs : ValidatorSet) (height round : ℤ) {key : PublicKey}
    (hkey : key ∈ vs.validators) :
    ∃! i : ℕ, i < vs.size ∧ vs.proposer height (round + i) = key := by
  obtain ⟨j, hj, rfl⟩ := List.mem_iff_getElem.mp hkey
  have hpos : (0 : ℤ) < vs.size := by exact_mod_cast vs.size_pos
  have hnn := Int.emod_nonneg (j - (height + round)) hpos.ne'
  have hlt := Int.emod_lt_of_pos (j - (height + round)) hpos
  refine ⟨((j - (height + round)) % vs.size).toNat, ⟨by omega, ?_⟩, ?_⟩
  · rw [proposer_eq_iff vs hj, Int.toNat_of_nonneg hnn, ← add_assoc]
    calc height + round + (j - (height + round)) % vs.size
        ≡ height + round + (j - (height + round)) [ZMOD vs.size] :=
          (Int.ModEq.refl _).add (Int.mod_modEq _ _)
      _ = j := by ring
  · rintro i ⟨hi, hturn⟩
    rw [proposer_eq_iff vs hj, ← add_assoc] at hturn
    have hmod : (i : ℤ) ≡ j - (height + round) [ZMOD vs.size] := by
      have hsub := hturn.sub (Int.ModEq.refl (height + round))
      rwa [add_sub_cancel_left] at hsub
    have himod : (i : ℤ) % vs.size = i := Int.emod_eq_of_lt (by omega) (by exact_mod_cast hi)
    rw [Int.ModEq, himod] at hmod
    omega
/-! ### The validators as voting members -/

/-- The validators as a finite set. -/
def members (vs : ValidatorSet) : Finset PublicKey := vs.validators.toFinset

@[simp] lemma mem_members (vs : ValidatorSet) (key : PublicKey) :
    key ∈ vs.members ↔ key ∈ vs.validators := List.mem_toFinset

lemma card_members (vs : ValidatorSet) : vs.members.card = vs.size :=
  List.toFinset_card_of_nodup vs.nodup

lemma three_mul_maxFaulty_lt (vs : ValidatorSet) : 3 * vs.maxFaulty < vs.members.card := by
  have := vs.size_pos
  rw [card_members]
  simp only [maxFaulty]
  omega

lemma quorum_pos (vs : ValidatorSet) : 0 < vs.quorum := by
  have := vs.size_pos
  simp only [quorum, maxFaulty]
  omega

lemma maxFaulty_lt_quorum (vs : ValidatorSet) : vs.maxFaulty < vs.quorum := by
  have := vs.size_pos
  simp only [quorum, maxFaulty]
  omega

/-- A quorum of keys, as a voting quorum. -/
lemma isQuorum {vs : ValidatorSet} {Q : Finset PublicKey} (hsub : ∀ k ∈ Q, k ∈ vs.validators)
    (hcard : vs.quorum ≤ Q.card) : Voting.IsQuorum vs.members vs.maxFaulty Q where
  subset k hk := (vs.mem_members k).mpr (hsub k hk)
  card := by rw [card_members]; exact hcard

/-- Two keys make a validator set, in the order of their texts. -/
lemma exists_pair {key other : PublicKey} (hne : key ≠ other) : ∃ vs : ValidatorSet,
    vs.quorum = 2 ∧ ∀ k, k ∈ vs.validators ↔ k = key ∨ k = other := by
  rcases lt_or_gt_of_ne (mt PublicKey.toHex_injective.eq_iff.mp hne) with hlt | hlt
  · exact ⟨⟨[key, other], by simp, by simpa using hlt⟩, by simp [quorum, maxFaulty, size], by simp⟩
  · exact ⟨⟨[other, key], by simp, by simpa using hlt⟩, by simp [quorum, maxFaulty, size], by simp [or_comm]⟩

/-- One validator, for concrete runs. -/
def single : ValidatorSet := ⟨[seedPublic 0xaa], by simp, by simp⟩

/-- Two validators, for concrete runs. -/
def pair : ValidatorSet := ⟨[seedPublic 0xaa, seedPublic 0xbb], by simp, by decide +kernel⟩

/-- Four validators, one of which may be faulty, for concrete runs. -/
def quartet : ValidatorSet :=
  ⟨[seedPublic 0xaa, seedPublic 0xbb, seedPublic 0xcc, seedPublic 0xdd], by simp, by decide +kernel⟩

end ValidatorSet

/-! ### Membership changes -/

/-- `_apply`: replay changes over a dictionary keyed by the text in the change. -/
def applyToKeys (keys : Dict PyStr PublicKey) (changes : List ValidatorChange) :
    Except PyError (Dict PyStr PublicKey) :=
  changes.foldlM (fun keys change =>
    match change.action with
    | .ADD => (PublicKey.fromHex change.validator).map fun key => keys.set change.validator key
    | .REMOVE => .ok (keys.pop change.validator)) keys

/-- `apply_changes`. -/
def applyChanges (validators : ValidatorSet) (changes : List ValidatorChange) :
    Except PyError ValidatorSet := do
  let keys ← applyToKeys (ValidatorSet.byHex validators.validators) changes
  if keys.len = 0 then
    .error (.valueError "a validator change must not empty the validator set")
  else ValidatorSet.new keys.values

/-- `derive_validator_set`. -/
def deriveValidatorSet (changes : List ValidatorChange) : Except PyError ValidatorSet := do
  let keys ← applyToKeys Dict.empty changes
  if keys.len = 0 then .error (.valueError "no validators derived from the chain")
  else ValidatorSet.new keys.values

end Helix
