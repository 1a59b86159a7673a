import Helix.Domain.Crypto
import Mathlib.Data.List.GetD

/-!
# The Merkle tree of a block

Leaves and inner nodes are hashed with different prefixes. A level with an odd number of nodes
repeats its last node before it is paired up. The root and the inclusion proofs are computed by two
separate loops over the levels; `verifyProof_merkleProof` says that they fit together.
-/

namespace Helix

variable [Crypto]

/-- The root of an empty set of leaves. -/
def emptyRoot : Bytes := Crypto.sha256 []

/-- `_hash_leaf`. -/
def hashLeaf (data : Bytes) : Bytes := Crypto.sha256 (0x00 :: data)

/-- `_hash_node`. -/
def hashNode (left right : Bytes) : Bytes := Crypto.sha256 (0x01 :: left ++ right)

/-- Repeat the last node of an odd level. -/
def padLevel (level : List Bytes) : List Bytes :=
  if level.length % 2 = 1 then level ++ [level.getLastD []] else level

/-- Hash the nodes of an even level pairwise. -/
def pairLevel : List Bytes → List Bytes
  | a :: b :: rest => hashNode a b :: pairLevel rest
  | _ => []

/-- The next level of the tree. -/
def nextLevel (level : List Bytes) : List Bytes := pairLevel (padLevel level)

/-- The `while len(level) > 1` loop of `merkle_root`. Every pass halves the level, so the length of
the level bounds the number of passes (`climb_of_length_le`). -/
def climb : ℕ → List Bytes → Bytes
  | 0, level => level.headD []
  | fuel + 1, level => if level.length > 1 then climb fuel (nextLevel level) else level.headD []

/-- `merkle_root`. -/
def merkleRoot (leaves : List Bytes) : Bytes :=
  if leaves = [] then emptyRoot else climb leaves.length (leaves.map hashLeaf)

/-- One sibling hash in a proof and whether it sits on the right. -/
structure ProofStep where
  sibling : Bytes
  siblingOnRight : Bool
  deriving DecidableEq

/-- `level[i]`. -/
def nodeAt (level : List Bytes) (i : ℕ) : Except PyError Bytes :=
  match level[i]? with
  | some node => .ok node
  | none => .error (.indexError "list index out of range")

/-- The sibling of node `idx` on a padded level. -/
def siblingOf (level : List Bytes) (idx : ℕ) : Except PyError ProofStep :=
  if idx % 2 = 0 then (nodeAt level (idx + 1)).map (⟨·, true⟩)
  else (nodeAt level (idx - 1)).map (⟨·, false⟩)

/-- The loop of `merkle_proof`. -/
def proofLoop : ℕ → List Bytes → ℕ → Except PyError (List ProofStep)
  | 0, _, _ => .ok []
  | fuel + 1, level, idx =>
    if level.length > 1 then do
      let step ← siblingOf (padLevel level) idx
      let rest ← proofLoop fuel (nextLevel level) (idx / 2)
      return step :: rest
    else .ok []

/-- `merkle_proof`. -/
def merkleProof (leaves : List Bytes) (index : ℤ) : Except PyError (List ProofStep) :=
  if 0 ≤ index ∧ index < leaves.length then
    proofLoop leaves.length (leaves.map hashLeaf) index.toNat
  else .error (.indexError "leaf index out of range")

/-- Combine a hash with a proof, bottom up. -/
def foldProof (acc : Bytes) (proof : List ProofStep) : Bytes :=
  proof.foldl (fun acc step =>
    if step.siblingOnRight then hashNode acc step.sibling else hashNode step.sibling acc) acc

/-- `verify_proof`. -/
def verifyProof (leaf : Bytes) (proof : List ProofStep) (root : Bytes) : Bool :=
  foldProof (hashLeaf leaf) proof == root

/-! ### Levels -/

omit [Crypto] in
lemma length_padLevel (level : List Bytes) :
    (padLevel level).length = level.length + level.length % 2 := by
  simp only [padLevel]
  split_ifs with h
  · simp [h]
  · omega

lemma length_pairLevel : ∀ level : List Bytes, (pairLevel level).length = level.length / 2
  | [] => rfl
  | [_] => by simp [pairLevel]
  | _ :: _ :: rest => by
    simp only [pairLevel, List.length_cons, length_pairLevel rest]
    omega

lemma length_nextLevel (level : List Bytes) :
    (nextLevel level).length = (level.length + level.length % 2) / 2 := by
  rw [nextLevel, length_pairLevel, length_padLevel]

/-- A pass shortens a level that has more than one node. -/
lemma length_nextLevel_lt {level : List Bytes} (h : level.length > 1) :
    (nextLevel level).length < level.length := by
  rw [length_nextLevel]
  omega

omit [Crypto] in
lemma getElem?_padLevel {level : List Bytes} {i : ℕ} (h : i < level.length) :
    (padLevel level)[i]? = level[i]? := by
  simp only [padLevel]
  split_ifs
  · exact List.getElem?_append_left h
  · rfl

lemma getElem?_pairLevel : ∀ (level : List Bytes) (i : ℕ), 2 * i + 1 < level.length →
    ∃ a b, level[2 * i]? = some a ∧ level[2 * i + 1]? = some b ∧
      (pairLevel level)[i]? = some (hashNode a b)
  | [], i, h => absurd h (by simp)
  | [_], i, h => absurd h (by simp)
  | a :: b :: rest, 0, _ => ⟨a, b, rfl, rfl, rfl⟩
  | a :: b :: rest, i + 1, h => by
    simp only [List.length_cons] at h
    obtain ⟨x, y, hx, hy, hxy⟩ := getElem?_pairLevel rest i (by omega)
    refine ⟨x, y, ?_, ?_, ?_⟩
    · rw [show 2 * (i + 1) = 2 * i + 1 + 1 by ring]
      simpa using hx
    · rw [show 2 * (i + 1) + 1 = 2 * i + 1 + 1 + 1 by ring]
      simpa using hy
    · simpa [pairLevel] using hxy

/-- The bound on the passes is never reached: any two sufficient bounds give the same root. -/
theorem climb_fuel_irrelevant {fuel fuel' : ℕ} {level : List Bytes}
    (h : level.length ≤ fuel + 1) (h' : level.length ≤ fuel' + 1) :
    climb fuel level = climb fuel' level := by
  induction fuel generalizing fuel' level with
  | zero =>
    cases fuel' with
    | zero => rfl
    | succ fuel' => rw [climb, climb, if_neg (by omega)]
  | succ fuel ih =>
    cases fuel' with
    | zero => rw [climb, climb, if_neg (by omega)]
    | succ fuel' =>
      rw [climb, climb]
      split_ifs with hlen
      · have hnext := length_nextLevel_lt hlen
        exact ih (by omega) (by omega)
      · rfl

/-! ### Proofs -/

/-- The sibling of a node exists on the padded level, and hashing the two gives their parent. -/
lemma siblingOf_padLevel {level : List Bytes} {idx : ℕ} {x : Bytes}
    (hx : level[idx]? = some x) :
    ∃ step, siblingOf (padLevel level) idx = .ok step ∧
      (nextLevel level)[idx / 2]? = some (foldProof x [step]) := by
  have hidx : idx < level.length := (List.getElem?_eq_some_iff.mp hx).1
  have hpad := length_padLevel level
  obtain ⟨a, b, ha, hb, hab⟩ := getElem?_pairLevel (padLevel level) (idx / 2) (by omega)
  have hxp : (padLevel level)[idx]? = some x := (getElem?_padLevel hidx).trans hx
  rcases Nat.mod_two_eq_zero_or_one idx with h0 | h1
  · rw [show 2 * (idx / 2) = idx by omega] at ha hb
    obtain rfl : a = x := Option.some.inj (ha.symm.trans hxp)
    refine ⟨⟨b, true⟩, ?_, hab⟩
    simp [siblingOf, nodeAt, h0, hb, Except.map]
  · rw [show 2 * (idx / 2) + 1 = idx by omega] at hb
    rw [show 2 * (idx / 2) = idx - 1 by omega] at ha
    obtain rfl : b = x := Option.some.inj (hb.symm.trans hxp)
    refine ⟨⟨a, false⟩, ?_, hab⟩
    simp [siblingOf, nodeAt, h1, ha, Except.map]

/-- The proof loop follows the root loop level by level. -/
lemma proofLoop_climb (fuel : ℕ) {level : List Bytes} {idx : ℕ} {x : Bytes}
    (hlen : level.length ≤ fuel + 1) (hx : level[idx]? = some x) :
    ∃ proof, proofLoop fuel level idx = .ok proof ∧ foldProof x proof = climb fuel level := by
  have hone : level.length ≤ 1 → level.headD [] = x := by
    intro hle
    have hidx : idx < level.length := (List.getElem?_eq_some_iff.mp hx).1
    obtain rfl : idx = 0 := by omega
    cases level with
    | nil => simp at hidx
    | cons y rest => simpa using hx
  induction fuel generalizing level idx x with
  | zero => exact ⟨[], rfl, (hone (by omega)).symm⟩
  | succ fuel ih =>
    rw [proofLoop, climb]
    split_ifs with hgt
    · obtain ⟨step, hstep, hparent⟩ := siblingOf_padLevel hx
      have hnext := length_nextLevel_lt hgt
      obtain ⟨proof, hproof, hfold⟩ := ih (by omega) hparent fun hle => by
        have hidx : idx / 2 < (nextLevel level).length := (List.getElem?_eq_some_iff.mp hparent).1
        cases hl : nextLevel level with
        | nil => simp [hl] at hidx
        | cons y rest =>
          rw [hl] at hparent hidx hle
          have h0 : idx / 2 = 0 := by simp only [List.length_cons] at hidx hle; omega
          rw [h0] at hparent
          simpa using hparent
      refine ⟨step :: proof, ?_, hfold⟩
      simp only [hstep, hproof, bind, Except.bind, pure, Except.pure]
    · exact ⟨[], rfl, (hone (by omega)).symm⟩

/-- The proof of a leaf exists and verifies against the root. -/
theorem verifyProof_merkleProof {leaves : List Bytes} {i : ℕ} {leaf : Bytes}
    (hleaf : leaves[i]? = some leaf) :
    ∃ proof, merkleProof leaves i = .ok proof ∧
      verifyProof leaf proof (merkleRoot leaves) = true := by
  have hi : i < leaves.length := (List.getElem?_eq_some_iff.mp hleaf).1
  have hne : leaves ≠ [] := by
    rintro rfl
    simp at hi
  have hnode : (leaves.map hashLeaf)[i]? = some (hashLeaf leaf) := by simp [hleaf]
  obtain ⟨proof, hproof, hfold⟩ := proofLoop_climb leaves.length (by simp) hnode
  refine ⟨proof, ?_, ?_⟩
  · rw [merkleProof, if_pos ⟨by omega, by exact_mod_cast hi⟩, Int.toNat_natCast, hproof]
  · simp [verifyProof, merkleRoot, hne, hfold]

end Helix
