import Helix.Domain.Binding
import Helix.Domain.Encoding

/-!
# Inclusion proofs

A proof is checked by hashing its way up from a leaf, with siblings that anyone may have chosen. Every
string that is hashed for a root is the string of a leaf, or that of an inner node whose halves are
digests of such strings again (`Grounded`). So without a collision the check can be followed back down
from the root: each step splits an inner node of the tree, and the leaf it started from is a leaf of the
tree. Conversely the proof that is built for a leaf always verifies.
-/

namespace Helix

variable [Crypto]

/-! ### The strings hashed by a check -/

/-- The string that one step of a proof hashes. -/
def ProofStep.input (acc : Bytes) (step : ProofStep) : Bytes :=
  if step.siblingOnRight then 0x01 :: acc ++ step.sibling else 0x01 :: step.sibling ++ acc

/-- The strings hashed by the loop of `verify_proof`. -/
def foldInputs : Bytes → List ProofStep → List Bytes
  | _, [] => []
  | acc, step :: proof => step.input acc :: foldInputs (Crypto.sha256 (step.input acc)) proof

/-- The strings hashed by `verify_proof`. -/
def proofInputs (leaf : Bytes) (proof : List ProofStep) : List Bytes :=
  (0x00 :: leaf) :: foldInputs (hashLeaf leaf) proof

lemma foldProof_cons (acc : Bytes) (step : ProofStep) (proof : List ProofStep) :
    foldProof acc (step :: proof) = foldProof (Crypto.sha256 (step.input acc)) proof := by
  obtain ⟨sibling, onRight⟩ := step
  cases onRight <;> rfl

/-- A check ends with the digest of a string that it has hashed. -/
lemma exists_foldProof_eq (x : Bytes) (proof : List ProofStep) :
    ∃ y ∈ x :: foldInputs (Crypto.sha256 x) proof,
      foldProof (Crypto.sha256 x) proof = Crypto.sha256 y := by
  induction proof generalizing x with
  | nil => exact ⟨x, by simp, rfl⟩
  | cons step proof ih =>
    obtain ⟨y, hy, heq⟩ := ih (step.input (Crypto.sha256 x))
    exact ⟨y, List.mem_cons_of_mem _ hy, (foldProof_cons _ _ _).trans heq⟩

/-- Neither a leaf nor a step hashes the empty string. -/
lemma nil_notMem_proofInputs (leaf : Bytes) (proof : List ProofStep) :
    [] ∉ proofInputs leaf proof := by
  have hsteps : ∀ acc, [] ∉ foldInputs acc proof := by
    induction proof with
    | nil => exact fun acc h => by cases h
    | cons step proof ih =>
      intro acc h
      rcases List.mem_cons.mp h with h | h
      · simp only [ProofStep.input] at h
        split_ifs at h <;> cases h
      · exact ih _ h
  intro h
  rcases List.mem_cons.mp h with h | h
  · cases h
  · exact hsteps _ h

/-! ### The strings hashed for a root -/

/-- Every string is that of a leaf, or that of an inner node over two digests of such strings. -/
def Grounded (leaves : List Bytes) (inputs : List Bytes) : Prop :=
  ∀ s ∈ inputs, (∃ leaf ∈ leaves, s = 0x00 :: leaf) ∨
    ∃ x ∈ inputs, ∃ y ∈ inputs, s = 0x01 :: Crypto.sha256 x ++ Crypto.sha256 y

/-- The nodes of a level are digests of the strings. -/
def Digests (inputs level : List Bytes) : Prop := ∀ a ∈ level, ∃ x ∈ inputs, a = Crypto.sha256 x

lemma Digests.padLevel {inputs level : List Bytes} (h : Digests inputs level) :
    Digests inputs (padLevel level) := by
  intro a ha
  simp only [Helix.padLevel] at ha
  split_ifs at ha with hodd
  · rcases List.mem_append.mp ha with ha | ha
    · exact h a ha
    · have hne : level ≠ [] := by
        rintro rfl
        simp at hodd
      rw [List.mem_singleton.mp ha, List.getLastD_eq_getLast?, List.getLast?_eq_some_getLast hne]
      exact h _ (List.getLast_mem hne)
  · exact h a ha

omit [Crypto] in
lemma mem_nodeInputs {level : List Bytes} {s : Bytes} (hs : s ∈ nodeInputs level) :
    ∃ a ∈ level, ∃ b ∈ level, s = 0x01 :: a ++ b := by
  induction level using nodeInputs.induct with
  | case1 a b rest ih =>
    rcases List.mem_cons.mp hs with rfl | hs
    · exact ⟨a, by simp, b, by simp, rfl⟩
    · obtain ⟨x, hx, y, hy, rfl⟩ := ih hs
      exact ⟨x, by simp [hx], y, by simp [hy], rfl⟩
  | case2 level hshort =>
    rw [nodeInputs] at hs
    · cases hs
    · exact hshort

lemma pairLevel_eq (level : List Bytes) : pairLevel level = (nodeInputs level).map Crypto.sha256 := by
  induction level using nodeInputs.induct with
  | case1 a b rest ih => rw [pairLevel, nodeInputs, ih, List.map_cons, hashNode]
  | case2 level hshort =>
    rw [pairLevel, nodeInputs]
    · rfl
    · exact hshort
    · exact hshort

/-- The loop of `merkle_root` only hashes nodes over digests of strings that were hashed before, and
ends with such a digest. -/
lemma Grounded.climb {leaves inputs level : List Bytes} (h : Grounded leaves inputs)
    (hlevel : Digests inputs level) (hne : level ≠ []) (fuel : ℕ) :
    Grounded leaves (inputs ++ climbInputs fuel level) ∧
      ∃ x ∈ inputs ++ climbInputs fuel level, Helix.climb fuel level = Crypto.sha256 x := by
  have hhead : ∃ x ∈ inputs, level.headD [] = Crypto.sha256 x := by
    cases level with
    | nil => exact absurd rfl hne
    | cons a rest => exact hlevel a List.mem_cons_self
  induction fuel generalizing inputs level with
  | zero =>
    rw [climbInputs, Helix.climb, List.append_nil]
    exact ⟨h, hhead⟩
  | succ fuel ih =>
    rw [climbInputs, Helix.climb]
    split_ifs with hlen
    · rw [← List.append_assoc]
      have hnodes : Grounded leaves (inputs ++ nodeInputs (padLevel level)) := by
        intro s hs
        rcases List.mem_append.mp hs with hs | hs
        · refine (h s hs).imp_right ?_
          rintro ⟨x, hx, y, hy, hxy⟩
          exact ⟨x, List.mem_append_left _ hx, y, List.mem_append_left _ hy, hxy⟩
        · obtain ⟨a, ha, b, hb, rfl⟩ := mem_nodeInputs hs
          obtain ⟨x, hx, rfl⟩ := hlevel.padLevel a ha
          obtain ⟨y, hy, rfl⟩ := hlevel.padLevel b hb
          exact Or.inr ⟨x, List.mem_append_left _ hx, y, List.mem_append_left _ hy, rfl⟩
      have hnext : Digests (inputs ++ nodeInputs (padLevel level)) (nextLevel level) := by
        intro a ha
        rw [nextLevel, pairLevel_eq] at ha
        obtain ⟨x, hx, rfl⟩ := List.mem_map.mp ha
        exact ⟨x, List.mem_append_right _ hx, rfl⟩
      have hnextne : nextLevel level ≠ [] := by
        rw [← List.length_pos_iff, length_nextLevel]
        omega
      refine ih hnodes hnext hnextne ?_
      cases hl : nextLevel level with
      | nil => exact absurd hl hnextne
      | cons a rest => exact hnext a (hl ▸ List.mem_cons_self)
    · rw [List.append_nil]
      exact ⟨h, hhead⟩

/-- The strings hashed for the root of a tree with leaves, the root being one of their digests. -/
lemma grounded_merkleInputs {leaves : List Bytes} (hne : leaves ≠ []) :
    Grounded leaves (merkleInputs leaves) ∧
      ∃ x ∈ merkleInputs leaves, merkleRoot leaves = Crypto.sha256 x := by
  rw [merkleInputs, merkleRoot, if_neg hne, if_neg hne]
  refine Grounded.climb ?_ ?_ (by simpa using hne) _
  · intro s hs
    obtain ⟨leaf, hleaf, rfl⟩ := List.mem_map.mp hs
    exact Or.inl ⟨leaf, hleaf, rfl⟩
  · intro a ha
    obtain ⟨leaf, hleaf, rfl⟩ := List.mem_map.mp ha
    exact ⟨_, List.mem_map_of_mem hleaf, rfl⟩

/-! ### Soundness -/

/-- The descent: a check that ends in the digest of a string of the tree has started from one. The
halves of an inner node are digests, so they are told apart by their length whatever the sibling. -/
lemma Grounded.descend {leaves inputs : List Bytes} (h : Grounded leaves inputs) {s : Bytes}
    {proof : List ProofStep} (hno : NoCollision (inputs ++ s :: foldInputs (Crypto.sha256 s) proof))
    (hroot : ∃ x ∈ inputs, foldProof (Crypto.sha256 s) proof = Crypto.sha256 x) : s ∈ inputs := by
  induction proof generalizing s with
  | nil =>
    obtain ⟨x, hx, heq⟩ := hroot
    have hsx : s = x := hno s (by simp) x (by simp [hx]) heq
    exact hsx ▸ hx
  | cons step proof ih =>
    rw [foldProof_cons] at hroot
    have hstep : step.input (Crypto.sha256 s) ∈ inputs := by
      refine ih (hno.mono fun x hx => ?_) hroot
      simp only [foldInputs, List.mem_append, List.mem_cons] at hx ⊢
      tauto
    have hone : ∃ rest, step.input (Crypto.sha256 s) = 0x01 :: rest := by
      simp only [ProofStep.input]
      split_ifs <;> exact ⟨_, rfl⟩
    rcases h _ hstep with ⟨leaf, -, hleaf⟩ | ⟨x, hx, y, hy, hxy⟩
    · obtain ⟨rest, hrest⟩ := hone
      rw [hrest] at hleaf
      cases hleaf
    · have hmem : ∀ z ∈ inputs, Crypto.sha256 s = Crypto.sha256 z → s ∈ inputs := by
        intro z hz heq
        have hsz : s = z := hno s (by simp) z (by simp [hz]) heq
        exact hsz ▸ hz
      simp only [ProofStep.input] at hxy
      split_ifs at hxy
      · have happend : Crypto.sha256 s ++ step.sibling = Crypto.sha256 x ++ Crypto.sha256 y := by
          simpa using hxy
        have hlen := (Crypto.length_sha256 s).trans (Crypto.length_sha256 x).symm
        exact hmem x hx (List.append_inj happend hlen).1
      · have happend : step.sibling ++ Crypto.sha256 s = Crypto.sha256 x ++ Crypto.sha256 y := by
          simpa using hxy
        have hlen := (Crypto.length_sha256 s).trans (Crypto.length_sha256 y).symm
        exact hmem y hy (List.append_inj' happend hlen).2

/-- Without a collision a proof verifies for leaves of the tree only, nothing verifies against the root
of the empty tree, and no leaf has the hash of an inner node. -/
theorem verifyProof_sound {leaves : List Bytes} {x : Bytes} {proof : List ProofStep}
    (hno : NoCollision (merkleInputs leaves ++ proofInputs x proof)) :
    (verifyProof x proof (merkleRoot leaves) = true → x ∈ leaves) ∧
      (leaves = [] → verifyProof x proof (merkleRoot leaves) = false) ∧
      ∀ left right, 0x01 :: left ++ right ∈ merkleInputs leaves → hashLeaf x ≠ hashNode left right := by
  have hsound : verifyProof x proof (merkleRoot leaves) = true → x ∈ leaves := by
    intro hver
    have hfold : foldProof (hashLeaf x) proof = merkleRoot leaves := by
      simpa [verifyProof] using hver
    by_cases hne : leaves = []
    · subst hne
      obtain ⟨y, hy, heq⟩ := exists_foldProof_eq (0x00 :: x) proof
      have hnil : y = [] := hno y (List.mem_append_right _ hy) [] (by simp [merkleInputs])
        (heq.symm.trans (hfold.trans (by rw [merkleRoot, if_pos rfl, emptyRoot])))
      exact absurd (hnil ▸ hy) (nil_notMem_proofInputs x proof)
    · obtain ⟨hground, s, hs, hroot⟩ := grounded_merkleInputs hne
      have hx : 0x00 :: x ∈ merkleInputs leaves :=
        hground.descend hno ⟨s, hs, hfold.trans hroot⟩
      rcases hground _ hx with ⟨leaf, hleaf, heq⟩ | ⟨a, -, b, -, heq⟩
      · cases heq
        exact hleaf
      · cases heq
  refine ⟨hsound, ?_, ?_⟩
  · rintro rfl
    rw [Bool.eq_false_iff]
    intro hver
    cases hsound hver
  · intro left right hnode heq
    have hstring : 0x00 :: x = 0x01 :: left ++ right :=
      hno _ (by simp [proofInputs]) _ (List.mem_append_left _ hnode) heq
    cases hstring

omit [Crypto] in
/-- The last of three leaves, which is paired up with itself. -/
theorem verifyProof_sound_of_three :
    letI := Crypto.checksums
    let leaf (n : UInt8) : Bytes := [n]
    leaf 3 ∈ [leaf 1, leaf 2, leaf 3] := by
  let := Crypto.checksums
  intro leaf
  let proof : List ProofStep :=
    [⟨hashLeaf (leaf 3), true⟩, ⟨hashNode (hashLeaf (leaf 1)) (hashLeaf (leaf 2)), false⟩]
  have hno : NoCollision (merkleInputs [leaf 1, leaf 2, leaf 3] ++ proofInputs (leaf 3) proof) := by
    decide +kernel
  exact (verifyProof_sound hno).1 (by decide +kernel)

/-! ### Completeness -/

/-- Every leaf has a proof, and it verifies against the root. So does the proof of every record of a
block, whatever changes follow the records, against the root that the block computes, if its items can
be encoded; otherwise asking for the proof fails as asking for the root does. -/
theorem Block.proofForRecord_complete :
    (∀ (leaves : List Bytes) (i : ℕ) (leaf : Bytes), leaves[i]? = some leaf →
      ∃ proof, merkleProof leaves i = .ok proof ∧
        verifyProof leaf proof (merkleRoot leaves) = true) ∧
    ∀ (b : Block) (i : ℕ) (r : IntegrityRecord), b.records[i]? = some r →
      (∀ root, b.computedMerkleRoot = .ok root → ∃ leaf proof bytes, r.canonical = .ok leaf ∧
        b.proofForRecord i = .ok proof ∧ fromHex root = .ok bytes ∧
          verifyProof leaf proof bytes = true) ∧
      ∀ err, b.computedMerkleRoot = .error err → b.proofForRecord i = .error err := by
  refine ⟨fun leaves i leaf h => verifyProof_merkleProof h, fun b i r hr => ⟨?_, ?_⟩⟩
  · intro root hroot
    obtain ⟨ls, hls, rfl⟩ := exists_of_map_eq_ok hroot
    obtain ⟨leaf, hleaf, hget⟩ := leaves_getElem? hls hr
    obtain ⟨proof, hproof, hver⟩ := verifyProof_merkleProof hget
    refine ⟨leaf, proof, merkleRoot ls, hleaf, ?_, fromHex_toHex _, hver⟩
    simp only [proofForRecord, hls, bind, Except.bind, hproof]
  · intro err herr
    simp only [computedMerkleRoot, proofForRecord] at herr ⊢
    cases hls : Block.leaves b.records b.validatorChanges with
    | error e =>
      rw [hls] at herr
      cases herr
      rfl
    | ok ls =>
      rw [hls] at herr
      cases herr

omit [Crypto] in
/-- A block with one record of the given entity and one change, for concrete runs. -/
def Block.ofEntity (entityId : PyStr) : Block :=
  { header := ⟨1, ZERO_HASH, 0, [], []⟩
    records := [⟨entityId, [], [], [], .OK, 0, [], []⟩]
    validatorChanges := [⟨.ADD, []⟩] }

omit [Crypto] in
/-- The record of a block with a change after it. -/
theorem Block.proofForRecord_complete_of_change :
    letI := Crypto.checksums
    let b := ofEntity (str "Room:1")
    ∃ root leaf proof bytes, b.computedMerkleRoot = .ok root ∧ b.proofForRecord 0 = .ok proof ∧
      fromHex root = .ok bytes ∧ verifyProof leaf proof bytes = true := by
  let := Crypto.checksums
  intro b
  have hok : b.computedMerkleRoot.isOk = true := by decide +kernel
  obtain ⟨root, hroot⟩ := exists_of_isOk hok
  obtain ⟨leaf, proof, bytes, -, hproof, hbytes, hver⟩ :=
    (proofForRecord_complete.2 b 0 _ rfl).1 root hroot
  exact ⟨root, leaf, proof, bytes, hroot, hproof, hbytes, hver⟩

omit [Crypto] in
/-- A record with a lone surrogate has no leaf, and asking for its proof raises. -/
theorem Block.proofForRecord_raises :
    letI := Crypto.checksums
    let b := ofEntity [.ofNat 0xD800]
    ∃ r, b.records[0]? = some r ∧ b.proofForRecord 0 = .error .unicodeEncodeError := by
  let := Crypto.checksums
  exact ⟨_, rfl, by decide +kernel⟩

end Helix
