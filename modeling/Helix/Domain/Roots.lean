import Helix.Domain.Binding
import Helix.Library.LeafTree

/-!
# What a Merkle root determines

The loop of `merkle_root` hashes the complete tree over its leaves. Leaves and nodes are hashed with
different prefixes, so without a collision among the hashed strings a root determines the tree, with
its depth. It determines the leaves up to repetitions of parts of their end: exactly the leaves as the
tree repeats them (`merkleRoot_eq_iff`).
-/

namespace Helix

open LeafTree (combine fill ofList pad pair)
open Relation (ReflTransGen)

variable [Crypto]

/-! ### Hashing a tree -/

/-- The hash of a tree. -/
def treeHash : LeafTree Bytes → Bytes
  | .leaf data => hashLeaf data
  | .node l r => hashNode (treeHash l) (treeHash r)

/-- The strings hashed for a tree. -/
def treeInputs : LeafTree Bytes → List Bytes
  | .leaf data => [0x00 :: data]
  | .node l r => (0x01 :: treeHash l ++ treeHash r) :: (treeInputs l ++ treeInputs r)

lemma length_treeHash (t : LeafTree Bytes) : (treeHash t).length = 32 := by
  cases t with
  | leaf data => exact Crypto.length_sha256 _
  | node l r => exact Crypto.length_sha256 _

lemma exists_treeHash_eq (t : LeafTree Bytes) :
    ∃ x ∈ treeInputs t, x ≠ [] ∧ treeHash t = Crypto.sha256 x := by
  cases t with
  | leaf data => exact ⟨_, List.mem_singleton_self _, List.cons_ne_nil _ _, rfl⟩
  | node l r => exact ⟨_, List.mem_cons_self, List.cons_ne_nil _ _, rfl⟩

/-- Trees with the same hash are the same. -/
lemma eq_of_treeHash_eq {t t' : LeafTree Bytes} (hno : NoCollision (treeInputs t ++ treeInputs t'))
    (h : treeHash t = treeHash t') : t = t' := by
  induction t generalizing t' with
  | leaf data =>
    cases t' with
    | leaf data' =>
      have hinput := hno (0x00 :: data) (by simp [treeInputs]) (0x00 :: data') (by simp [treeInputs]) h
      rw [(List.cons.inj hinput).2]
    | node l' r' =>
      have hinput := hno (0x00 :: data) (by simp [treeInputs]) (0x01 :: treeHash l' ++ treeHash r')
        (by simp [treeInputs]) h
      cases hinput
  | node l r ihl ihr =>
    cases t' with
    | leaf data' =>
      have hinput := hno (0x01 :: treeHash l ++ treeHash r) (by simp [treeInputs]) (0x00 :: data')
        (by simp [treeInputs]) h
      cases hinput
    | node l' r' =>
      have hinput := hno (0x01 :: treeHash l ++ treeHash r) (by simp [treeInputs])
        (0x01 :: treeHash l' ++ treeHash r') (by simp [treeInputs]) h
      obtain ⟨hleft, hright⟩ := List.append_inj (List.cons.inj hinput).2
        ((length_treeHash l).trans (length_treeHash l').symm)
      have hl : l = l' := ihl (hno.mono fun x hx => by
        simp only [treeInputs, List.mem_append, List.mem_cons] at hx ⊢
        tauto) hleft
      have hr : r = r' := ihr (hno.mono fun x hx => by
        simp only [treeInputs, List.mem_append, List.mem_cons] at hx ⊢
        tauto) hright
      rw [hl, hr]

/-! ### The loop over the levels -/

lemma map_treeHash_pad (level : List (LeafTree Bytes)) :
    (pad level).map treeHash = padLevel (level.map treeHash) := by
  simp only [pad, padLevel, List.length_map]
  split_ifs with hodd
  · have hne : level ≠ [] := by
      rintro rfl
      cases hodd
    simp [List.getLast?_eq_some_getLast hne, List.getLastD_eq_getLast?]
  · rfl

lemma map_treeHash_pair (level : List (LeafTree Bytes)) :
    (pair level).map treeHash = pairLevel (level.map treeHash) := by
  induction level using LeafTree.pair.induct with
  | case1 l r rest ih => simp only [pair, List.map_cons, pairLevel, ih, treeHash]
  | case2 level hshort =>
    rcases level with _ | ⟨l, _ | ⟨r, rest⟩⟩
    · simp [pair, pairLevel]
    · simp [pair, pairLevel]
    · exact absurd rfl (hshort l r rest)

lemma map_treeHash_next (level : List (LeafTree Bytes)) :
    (pair (pad level)).map treeHash = nextLevel (level.map treeHash) := by
  rw [map_treeHash_pair, map_treeHash_pad, nextLevel]

/-- The loop hashes the tree that is combined from the level. -/
lemma climb_map_treeHash {fuel : ℕ} {level : List (LeafTree Bytes)} {t : LeafTree Bytes}
    (h : combine fuel level = some t) : climb fuel (level.map treeHash) = treeHash t := by
  have hhead : level.head? = some t → (level.map treeHash).headD [] = treeHash t := by
    intro h
    obtain ⟨rest, rfl⟩ := List.head?_eq_some_iff.mp h
    rfl
  induction fuel generalizing level with
  | zero => exact hhead h
  | succ fuel ih =>
    rw [combine] at h
    rw [climb, List.length_map]
    split_ifs at h ⊢ with hlen
    · rw [← map_treeHash_next]
      refine ih h fun hnext => ?_
      obtain ⟨rest, heq⟩ := List.head?_eq_some_iff.mp hnext
      rw [heq]
      rfl
    · exact hhead h

lemma nodeInputs_map_treeHash {level : List (LeafTree Bytes)} {t : LeafTree Bytes}
    (ht : t ∈ pair level) : ∃ l ∈ level, ∃ r ∈ level,
      t = .node l r ∧ (0x01 :: treeHash l ++ treeHash r) ∈ nodeInputs (level.map treeHash) := by
  induction level using LeafTree.pair.induct with
  | case1 l r rest ih =>
    rcases List.mem_cons.mp ht with rfl | ht
    · exact ⟨l, by simp, r, by simp, rfl, by simp [nodeInputs]⟩
    · obtain ⟨l', hl', r', hr', heq, hmem⟩ := ih ht
      exact ⟨l', by simp [hl'], r', by simp [hr'], heq, by
        simp only [List.map_cons, nodeInputs]
        exact List.mem_cons_of_mem _ hmem⟩
  | case2 level hshort =>
    rw [pair] at ht
    · cases ht
    · exact hshort

/-- The loop hashes what is hashed for the tree, apart from what was hashed for the level. -/
lemma treeInputs_subset {fuel : ℕ} {level : List (LeafTree Bytes)} {t : LeafTree Bytes}
    {inputs : List Bytes} (hlevel : ∀ s ∈ level, treeInputs s ⊆ inputs)
    (hclimb : climbInputs fuel (level.map treeHash) ⊆ inputs) (h : combine fuel level = some t) :
    treeInputs t ⊆ inputs := by
  induction fuel generalizing level with
  | zero => exact hlevel t (List.mem_of_head? h)
  | succ fuel ih =>
    rw [combine] at h
    rw [climbInputs, List.length_map] at hclimb
    split_ifs at h hclimb with hlen
    · obtain ⟨hnodes, hrest⟩ := List.append_subset.mp hclimb
      refine ih (fun s hs => ?_) (by rwa [map_treeHash_next]) h
      obtain ⟨l, hl, r, hr, rfl, hmem⟩ := nodeInputs_map_treeHash hs
      rw [map_treeHash_pad] at hmem
      simp only [treeInputs, List.cons_subset, List.append_subset]
      exact ⟨hnodes hmem, hlevel l (LeafTree.mem_of_mem_pad hl),
        hlevel r (LeafTree.mem_of_mem_pad hr)⟩
    · exact hlevel t (List.mem_of_head? h)

/-! ### Roots -/

/-- `merkle_root` hashes the tree over the leaves. -/
lemma merkleRoot_eq_treeHash {ls : List Bytes} {t : LeafTree Bytes} (h : ofList ls = some t) :
    merkleRoot ls = treeHash t ∧ treeInputs t ⊆ merkleInputs ls := by
  have hne : ls ≠ [] := by
    rintro rfl
    cases h
  have hleaves : (ls.map LeafTree.leaf).map treeHash = ls.map hashLeaf := by
    rw [List.map_map]
    rfl
  constructor
  · rw [merkleRoot, if_neg hne, ← hleaves, climb_map_treeHash h]
  · rw [merkleInputs, if_neg hne]
    refine treeInputs_subset (fun s hs => ?_) ?_ h
    · obtain ⟨data, hdata, rfl⟩ := List.mem_map.mp hs
      simp only [treeInputs, List.cons_subset, List.nil_subset, and_true]
      exact List.mem_append_left _ (List.mem_map_of_mem hdata)
    · rw [hleaves]
      exact List.subset_append_right _ _

/-- Only the empty list has the root of the empty list. -/
lemma merkleRoot_ne_of_ofList {ls : List Bytes} {t : LeafTree Bytes}
    (hno : NoCollision (merkleInputs [] ++ merkleInputs ls)) (h : ofList ls = some t) :
    merkleRoot [] ≠ merkleRoot ls := by
  intro heq
  obtain ⟨hroot, hsub⟩ := merkleRoot_eq_treeHash h
  obtain ⟨x, hx, hne, hhash⟩ := exists_treeHash_eq t
  rw [hroot, hhash] at heq
  exact hne (hno [] (by simp [merkleInputs]) x (List.mem_append_right _ (hsub hx)) heq).symm

/-- The root determines the tree over the leaves. -/
lemma ofList_eq_of_merkleRoot_eq {ls ls' : List Bytes}
    (hno : NoCollision (merkleInputs ls ++ merkleInputs ls')) (h : merkleRoot ls = merkleRoot ls') :
    ofList ls = ofList ls' := by
  cases ht : ofList ls with
  | none =>
    obtain rfl := LeafTree.ofList_eq_none.mp ht
    cases ht' : ofList ls' with
    | none => rfl
    | some t' => exact absurd h (merkleRoot_ne_of_ofList hno ht')
  | some t =>
    cases ht' : ofList ls' with
    | none =>
      obtain rfl := LeafTree.ofList_eq_none.mp ht'
      refine absurd h.symm (merkleRoot_ne_of_ofList (hno.mono fun x hx => ?_) ht)
      simp only [List.mem_append] at hx ⊢
      exact hx.symm
    | some t' =>
      obtain ⟨hroot, hsub⟩ := merkleRoot_eq_treeHash ht
      obtain ⟨hroot', hsub'⟩ := merkleRoot_eq_treeHash ht'
      have hinputs : treeInputs t ++ treeInputs t' ⊆ merkleInputs ls ++ merkleInputs ls' :=
        List.append_subset.mpr ⟨List.subset_append_of_subset_left _ hsub,
          List.subset_append_of_subset_right _ hsub'⟩
      rw [eq_of_treeHash_eq (hno.mono hinputs) (by rw [← hroot, ← hroot', h])]

/-- Without a collision among the hashed strings, two lists of leaves have the same root if and only if
they are the same once the tree has repeated parts of their ends. -/
theorem merkleRoot_eq_iff {ls ls' : List Bytes}
    (hno : NoCollision (merkleInputs ls ++ merkleInputs ls')) :
    merkleRoot ls = merkleRoot ls' ↔ fill ls = fill ls' := by
  rw [← LeafTree.ofList_eq_iff]
  refine ⟨ofList_eq_of_merkleRoot_eq hno, fun h => ?_⟩
  cases ht : ofList ls with
  | none =>
    rw [LeafTree.ofList_eq_none.mp ht, LeafTree.ofList_eq_none.mp (h.symm.trans ht)]
  | some t =>
    rw [(merkleRoot_eq_treeHash ht).1, (merkleRoot_eq_treeHash (h.symm.trans ht)).1]

omit [Crypto] in
/-- Six leaves, and the same with the last two once more. -/
theorem merkleRoot_eq_iff_of_six :
    letI := Crypto.checksums
    let ls : List Bytes := [[1], [2], [3], [4], [5], [6]]
    merkleRoot ls = merkleRoot (ls ++ [[5], [6]]) ∧ merkleRoot ls ≠ merkleRoot (ls ++ [[6]]) := by
  let := Crypto.checksums
  intro ls
  exact ⟨(merkleRoot_eq_iff (by decide +kernel)).mpr (by decide +kernel),
    mt (merkleRoot_eq_iff (by decide +kernel)).mp (by decide +kernel)⟩

end Helix
