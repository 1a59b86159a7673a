import Helix.Domain.Block
import Helix.Library.Effect

/-!
# What a block hash commits to

`hashInputs` lists the byte strings that are hashed for a block: its canonical header, its leaves and
the inner nodes of its Merkle tree. Without a collision among those of two blocks, equal hashes mean
equal headers, and equal roots over equally many leaves mean equal leaves. The number of leaves is not
committed to: a level with an odd number of nodes has the same parent level as the one that spells its
last node twice.
-/

namespace Helix

variable [Crypto]

/-! ### The strings that are hashed -/

/-- The strings hashed to pair up a level. -/
def nodeInputs : List Bytes → List Bytes
  | a :: b :: rest => (0x01 :: a ++ b) :: nodeInputs rest
  | _ => []

/-- The strings hashed by the loop of `merkle_root`. -/
def climbInputs : ℕ → List Bytes → List Bytes
  | 0, _ => []
  | fuel + 1, level =>
    if level.length > 1 then nodeInputs (padLevel level) ++ climbInputs fuel (nextLevel level)
    else []

/-- The strings hashed by `merkle_root`. -/
def merkleInputs (leaves : List Bytes) : List Bytes :=
  if leaves = [] then [[]]
  else leaves.map (0x00 :: ·) ++ climbInputs leaves.length (leaves.map hashLeaf)

/-- The strings hashed for a block. -/
def Block.hashInputs (b : Block) : List Bytes :=
  (canonicalBytes b.header.toDict).toOption.toList ++
    ((leaves b.records b.validatorChanges).toOption.map merkleInputs).getD []

/-- No two different strings of the list have the same digest. -/
def NoCollision (inputs : List Bytes) : Prop :=
  ∀ x ∈ inputs, ∀ y ∈ inputs, Crypto.sha256 x = Crypto.sha256 y → x = y

instance (inputs : List Bytes) : Decidable (NoCollision inputs) :=
  inferInstanceAs (Decidable (∀ x ∈ inputs, ∀ y ∈ inputs, _ → _))

lemma NoCollision.mono {xs ys : List Bytes} (h : NoCollision ys) (hsub : xs ⊆ ys) :
    NoCollision xs := fun x hx y hy => h x (hsub hx) y (hsub hy)

/-! ### Levels of equal length -/

/-- Paired-up levels of digests determine the levels. -/
lemma eq_of_pairLevel_eq {level level' : List Bytes} (hlen : level.length = level'.length)
    (heven : level.length % 2 = 0) (hsize : ∀ a ∈ level, a.length = 32)
    (hsize' : ∀ a ∈ level', a.length = 32)
    (hno : NoCollision (nodeInputs level ++ nodeInputs level'))
    (h : pairLevel level = pairLevel level') : level = level' := by
  induction level using pairLevel.induct generalizing level' with
  | case1 a b rest ih =>
    obtain ⟨a', b', rest', rfl⟩ : ∃ a' b' rest', level' = a' :: b' :: rest' := by
      rcases level' with _ | ⟨a', _ | ⟨b', rest'⟩⟩
      · simp at hlen
      · simp at hlen
      · exact ⟨a', b', rest', rfl⟩
    simp only [pairLevel, List.cons.injEq, hashNode] at h
    have hnode : (0x01 :: a ++ b : Bytes) = 0x01 :: a' ++ b' := by
      refine hno _ ?_ _ ?_ h.1 <;> simp [nodeInputs]
    have hab : a ++ b = a' ++ b' := by simpa using hnode
    obtain ⟨rfl, rfl⟩ := List.append_inj hab
      ((hsize a (by simp)).trans (hsize' a' (by simp)).symm)
    have hrest : rest = rest' := by
      refine ih (by simpa using hlen) (by simp at heven; omega) (fun x hx => hsize x (by simp [hx]))
        (fun x hx => hsize' x (by simp [hx])) (hno.mono fun x hx => ?_) h.2
      simp only [List.mem_append, nodeInputs, List.mem_cons] at hx ⊢
      tauto
    rw [hrest]
  | case2 level hshort =>
    rcases level with _ | ⟨a, _ | ⟨b, rest⟩⟩
    · exact (List.length_eq_zero_iff.mp hlen.symm).symm
    · simp at heven
    · exact absurd rfl (hshort a b rest)

omit [Crypto] in
/-- Padding does not hide anything of a level of known length. -/
lemma eq_of_padLevel_eq {level level' : List Bytes} (hlen : level.length = level'.length)
    (h : padLevel level = padLevel level') : level = level' := by
  have htake : ∀ l : List Bytes, (padLevel l).take l.length = l := by
    intro l
    simp only [padLevel]
    split_ifs <;> simp
  rw [← htake level, ← htake level', h, hlen]

lemma length_of_mem_pairLevel {level : List Bytes} {a : Bytes} (ha : a ∈ pairLevel level) :
    a.length = 32 := by
  induction level using pairLevel.induct with
  | case1 x y rest ih =>
    rcases List.mem_cons.mp ha with rfl | ha
    · exact Crypto.length_sha256 _
    · exact ih ha
  | case2 level hshort =>
    rw [pairLevel] at ha
    · cases ha
    · exact hshort

omit [Crypto] in
lemma length_of_mem_padLevel {level : List Bytes} (hsize : ∀ a ∈ level, a.length = 32) {a : Bytes}
    (ha : a ∈ padLevel level) : a.length = 32 := by
  simp only [padLevel] at ha
  split_ifs at ha with hodd
  · rcases List.mem_append.mp ha with ha | ha
    · exact hsize a ha
    · have hne : level ≠ [] := by
        rintro rfl
        simp at hodd
      rw [List.mem_singleton.mp ha, List.getLastD_eq_getLast?, List.getLast?_eq_some_getLast hne]
      exact hsize _ (List.getLast_mem hne)
  · exact hsize a ha

/-- The loop of `merkle_root` determines a level of digests, if its length is known. -/
lemma eq_of_climb_eq {fuel : ℕ} {level level' : List Bytes} (hlen : level.length = level'.length)
    (hpos : 0 < level.length) (hfuel : level.length ≤ fuel)
    (hsize : ∀ a ∈ level, a.length = 32) (hsize' : ∀ a ∈ level', a.length = 32)
    (hno : NoCollision (climbInputs fuel level ++ climbInputs fuel level'))
    (h : climb fuel level = climb fuel level') : level = level' := by
  induction fuel generalizing level level' with
  | zero => omega
  | succ fuel ih =>
    by_cases hone : level.length > 1
    · have hone' : level'.length > 1 := hlen ▸ hone
      simp only [climb, climbInputs, hone, hone', if_true] at h hno
      have hnext : nextLevel level = nextLevel level' := by
        refine ih ?_ ?_ ?_ (fun a ha => length_of_mem_pairLevel ha)
          (fun a ha => length_of_mem_pairLevel ha) (hno.mono fun x hx => ?_) h
        · rw [length_nextLevel, length_nextLevel, hlen]
        · rw [length_nextLevel]
          omega
        · have := length_nextLevel_lt hone
          omega
        · simp only [List.mem_append] at hx ⊢
          tauto
      refine eq_of_padLevel_eq hlen (eq_of_pairLevel_eq ?_ ?_ (fun a => length_of_mem_padLevel hsize)
        (fun a => length_of_mem_padLevel hsize') (hno.mono fun x hx => ?_) hnext)
      · rw [length_padLevel, length_padLevel, hlen]
      · rw [length_padLevel]
        omega
      · simp only [List.mem_append] at hx ⊢
        tauto
    · have hone' : ¬level'.length > 1 := hlen ▸ hone
      obtain ⟨a, rfl⟩ := List.length_eq_one_iff.mp (show level.length = 1 by omega)
      obtain ⟨a', rfl⟩ := List.length_eq_one_iff.mp (show level'.length = 1 by omega)
      simpa [climb] using h

/-- The root of a tree determines its leaves, if their number is known. -/
lemma eq_of_merkleRoot_eq {ls ls' : List Bytes} (hlen : ls.length = ls'.length)
    (hno : NoCollision (merkleInputs ls ++ merkleInputs ls')) (h : merkleRoot ls = merkleRoot ls') :
    ls = ls' := by
  by_cases hnil : ls = []
  · subst hnil
    exact (List.length_eq_zero_iff.mp hlen.symm).symm
  · have hpos : 0 < ls.length := List.length_pos_iff.mpr hnil
    have hnil' : ls' ≠ [] := List.length_pos_iff.mp (hlen ▸ hpos)
    simp only [merkleRoot, merkleInputs, hnil, hnil', if_false] at h hno
    have hlevel : ls.map hashLeaf = ls'.map hashLeaf := by
      refine eq_of_climb_eq (by simpa using hlen) (by simpa using hpos) (by simp [hlen]) ?_ ?_
        (hno.mono fun x hx => ?_) (hlen ▸ h)
      · simp [hashLeaf, Crypto.length_sha256]
      · simp [hashLeaf, Crypto.length_sha256]
      · simp only [List.mem_append, hlen] at hx ⊢
        tauto
    refine List.ext_getElem hlen fun i hi hi' => ?_
    have hi_eq : hashLeaf ls[i] = hashLeaf ls'[i] := by
      have := congrArg (fun l => l[i]?) hlevel
      simpa [hi, hi'] using this
    have hcons := hno _ (by simp) _ (by simp) hi_eq
    simpa using hcons

/-! ### Leaves and headers -/

section Canonical

omit [Crypto]

/-- The items of a record in the order of their keys. -/
lemma IntegrityRecord.toDict_sorted (r : IntegrityRecord) :
    r.toDict.insertionSort (fun p q => p.1 ≤ q.1) =
      [(str "attribute", Json.str r.attributeName), (str "entity_id", .str r.entityId),
        (str "observed_at", .int r.observedAt), (str "observer", .str r.observer),
        (str "signature", .str r.signature), (str "source_broker", .str r.sourceBroker),
        (str "value_hash", .str r.valueHash), (str "verdict", .str r.verdict.value)] := rfl

lemma ValidatorChange.toDict_sorted (c : ValidatorChange) :
    c.toDict.insertionSort (fun p q => p.1 ≤ q.1) =
      [(str "action", Json.str c.action.value), (str "validator", .str c.validator)] := rfl

lemma BlockHeader.toDict_sorted (h : BlockHeader) :
    h.toDict.insertionSort (fun p q => p.1 ≤ q.1) =
      [(str "index", Json.int h.index), (str "merkle_root", .str h.merkleRoot),
        (str "previous_hash", .str h.previousHash), (str "proposer", .str h.proposer),
        (str "timestamp", .int h.timestamp)] := rfl

lemma sorted_eq_of_canonicalBytes {d d' : List (PyStr × Json)} {b : Bytes}
    (h : canonicalBytes d = .ok b) (h' : canonicalBytes d' = .ok b) :
    d.insertionSort (fun p q => p.1 ≤ q.1) = d'.insertionSort fun p q => p.1 ≤ q.1 :=
  Json.dumpsDict_injective (encode_injective h h')

lemma Verdict.value_injective : Function.Injective Verdict.value := by
  intro a b h
  cases a <;> cases b <;> first | rfl | exact absurd h (by decide)

lemma ChangeAction.value_injective : Function.Injective ChangeAction.value := by
  intro a b h
  cases a <;> cases b <;> first | rfl | exact absurd h (by decide)

lemma IntegrityRecord.eq_of_canonical {r r' : IntegrityRecord} {b : Bytes}
    (h : r.canonical = .ok b) (h' : r'.canonical = .ok b) : r = r' := by
  have hsort := sorted_eq_of_canonicalBytes h h'
  simp only [toDict_sorted, List.cons.injEq, Prod.mk.injEq, Json.str.injEq, Json.int.injEq,
    true_and, and_true] at hsort
  obtain ⟨h1, h2, h3, h4, h5, h6, h7, h8⟩ := hsort
  cases r
  cases r'
  simp_all [Verdict.value_injective.eq_iff]

lemma ValidatorChange.eq_of_canonical {c c' : ValidatorChange} {b : Bytes}
    (h : c.canonical = .ok b) (h' : c'.canonical = .ok b) : c = c' := by
  have hsort := sorted_eq_of_canonicalBytes h h'
  simp only [toDict_sorted, List.cons.injEq, Prod.mk.injEq, Json.str.injEq, true_and,
    and_true] at hsort
  cases c
  cases c'
  simp_all [ChangeAction.value_injective.eq_iff]

/-- A record and a change never have the same leaf. -/
lemma IntegrityRecord.canonical_ne {r : IntegrityRecord} {c : ValidatorChange} {b : Bytes}
    (h : r.canonical = .ok b) : c.canonical ≠ .ok b := by
  intro h'
  have hsort := sorted_eq_of_canonicalBytes h h'
  simp [toDict_sorted, ValidatorChange.toDict_sorted] at hsort

lemma BlockHeader.eq_of_canonicalBytes {h h' : BlockHeader} {b : Bytes}
    (hb : canonicalBytes h.toDict = .ok b) (hb' : canonicalBytes h'.toDict = .ok b) : h = h' := by
  have hsort := sorted_eq_of_canonicalBytes hb hb'
  simp only [toDict_sorted, List.cons.injEq, Prod.mk.injEq, Json.str.injEq, Json.int.injEq,
    true_and, and_true] at hsort
  cases h
  cases h'
  simp_all

/-- A record or a change, with its leaf. -/
def LeafOf (item : IntegrityRecord ⊕ ValidatorChange) (leaf : Bytes) : Prop :=
  item.elim IntegrityRecord.canonical ValidatorChange.canonical = .ok leaf

@[simp] lemma leafOf_inl {r : IntegrityRecord} {leaf : Bytes} :
    LeafOf (.inl r) leaf ↔ r.canonical = .ok leaf := by rw [LeafOf, Sum.elim_inl]

@[simp] lemma leafOf_inr {c : ValidatorChange} {leaf : Bytes} :
    LeafOf (.inr c) leaf ↔ c.canonical = .ok leaf := by rw [LeafOf, Sum.elim_inr]

lemma leafOf_leftUnique : Relator.LeftUnique LeafOf := by
  intro i i' leaf h h'
  rcases i with r | c <;> rcases i' with r' | c' <;>
    simp only [leafOf_inl, leafOf_inr] at h h'
  · rw [IntegrityRecord.eq_of_canonical h h']
  · exact absurd h' (IntegrityRecord.canonical_ne h)
  · exact absurd h (IntegrityRecord.canonical_ne h')
  · rw [ValidatorChange.eq_of_canonical h h']

/-- The leaves of a block are those of its records, then those of its changes. -/
lemma Block.forall₂_leaves {records : List IntegrityRecord} {changes : List ValidatorChange}
    {ls : List Bytes} (h : leaves records changes = .ok ls) :
    List.Forall₂ LeafOf (records.map Sum.inl ++ changes.map Sum.inr) ls := by
  simp only [leaves, bind, Except.bind, pure, Except.pure] at h
  split at h
  · cases h
  · rename_i rs hrs
    split at h
    · cases h
    · rename_i cs hcs
      cases h
      refine List.rel_append ?_ ?_
      · simpa only [List.forall₂_map_left_iff, leafOf_inl] using forall₂_of_mapM hrs
      · simpa only [List.forall₂_map_left_iff, leafOf_inr] using forall₂_of_mapM hcs

/-- Equal leaves are the leaves of equal records and equal changes. -/
lemma Block.eq_of_leaves {records records' : List IntegrityRecord}
    {changes changes' : List ValidatorChange} {ls : List Bytes}
    (h : leaves records changes = .ok ls) (h' : leaves records' changes' = .ok ls) :
    records = records' ∧ changes = changes' := by
  have hitems := List.left_unique_forall₂' leafOf_leftUnique (forall₂_leaves h) (forall₂_leaves h')
  have hrecords := congrArg (List.filterMap Sum.getLeft?) hitems
  have hchanges := congrArg (List.filterMap Sum.getRight?) hitems
  simp only [List.filterMap_append, List.filterMap_map] at hrecords hchanges
  constructor
  · simpa [Function.comp_def] using hrecords
  · simpa [Function.comp_def] using hchanges

end Canonical

/-! ### Blocks -/

/-- The string hashed for a header, if it can be encoded. -/
def BlockHeader.inputs (h : BlockHeader) : List Bytes := (canonicalBytes h.toDict).toOption.toList

/-- Headers with the same hash are the same. -/
lemma BlockHeader.eq_of_hash {h h' : BlockHeader} {x : PyStr} (hh : h.hash = .ok x)
    (hh' : h'.hash = .ok x) (hno : NoCollision (h.inputs ++ h'.inputs)) : h = h' := by
  obtain ⟨b, hb, hx⟩ := exists_of_map_eq_ok hh
  obtain ⟨b', hb', hx'⟩ := exists_of_map_eq_ok hh'
  have hbb : b = b' := by
    refine hno b ?_ b' ?_ (toHex_injective (hx.trans hx'.symm))
    · simp [inputs, hb, Except.toOption]
    · simp [inputs, hb', Except.toOption]
  exact eq_of_canonicalBytes hb (hbb ▸ hb')

/-- Blocks with the same hash have the same header. -/
lemma Block.header_eq_of_hash {b b' : Block} {h : PyStr} (hb : b.hash = .ok h)
    (hb' : b'.hash = .ok h) (hno : NoCollision (b.hashInputs ++ b'.hashInputs)) :
    b.header = b'.header := by
  refine BlockHeader.eq_of_hash hb hb' (hno.mono fun x hx => ?_)
  simp only [BlockHeader.inputs, hashInputs, List.mem_append] at hx ⊢
  tauto

/-- The leaves of a consistent block, and the root in its header. -/
lemma Block.exists_leaves {b : Block} (hb : b.hasConsistentMerkleRoot = .ok true) :
    ∃ ls, leaves b.records b.validatorChanges = .ok ls ∧
      b.header.merkleRoot = toHex (merkleRoot ls) := by
  simp only [hasConsistentMerkleRoot, computedMerkleRoot] at hb
  cases hls : leaves b.records b.validatorChanges with
  | error e => rw [hls] at hb; cases hb
  | ok ls =>
    rw [hls] at hb
    exact ⟨ls, rfl, by simpa [Except.map] using hb⟩

/-- Two consistent blocks with the same hash have the same contents if and only if they have the same
number of records and changes together. -/
theorem Block.hash_binds_contents {b b' : Block} {h : PyStr} (hb : b.hash = .ok h)
    (hb' : b'.hash = .ok h) (hc : b.hasConsistentMerkleRoot = .ok true)
    (hc' : b'.hasConsistentMerkleRoot = .ok true)
    (hno : NoCollision (b.hashInputs ++ b'.hashInputs)) :
    (b.records = b'.records ∧ b.validatorChanges = b'.validatorChanges) ↔
      b.records.length + b.validatorChanges.length =
        b'.records.length + b'.validatorChanges.length := by
  constructor
  · rintro ⟨hr, hv⟩
    rw [hr, hv]
  · intro hlen
    obtain ⟨ls, hls, hroot⟩ := exists_leaves hc
    obtain ⟨ls', hls', hroot'⟩ := exists_leaves hc'
    have hlength := (forall₂_leaves hls).length_eq
    have hlength' := (forall₂_leaves hls').length_eq
    simp only [List.length_append, List.length_map] at hlength hlength'
    have hroots : merkleRoot ls = merkleRoot ls' := by
      refine toHex_injective ?_
      rw [← hroot, ← hroot', header_eq_of_hash hb hb' hno]
    have hleaves : ls = ls' := by
      refine eq_of_merkleRoot_eq (by omega) (hno.mono fun x hx => ?_) hroots
      simp only [hashInputs, hls, hls', Except.toOption, Option.map_some, Option.getD_some,
        List.mem_append] at hx ⊢
      tauto
    exact eq_of_leaves hls (hleaves ▸ hls')

omit [Crypto] in
/-- The block after genesis with the given changes and nothing else, for concrete runs. -/
def Block.ofChanges (changes : List ValidatorChange) : Block :=
  letI := Crypto.checksums
  let root := ((leaves [] changes).map merkleRoot).toOption.getD []
  { header := ⟨1, ZERO_HASH, 0, toHex root, []⟩, validatorChanges := changes }

omit [Crypto] in
/-- A block and the same block with a seal. -/
theorem Block.hash_binds_contents_of_sealed :
    letI := Crypto.checksums
    let b := ofChanges [⟨.ADD, []⟩]
    let b' := b.addCommitSignature (seedPublic 0xaa) []
    b.records = b'.records ∧ b.validatorChanges = b'.validatorChanges := by
  let := Crypto.checksums
  intro b b'
  have hhash : ∃ h, b.hash = .ok h ∧ b'.hash = .ok h := by
    have hok : (b.hash.toOption).isSome = true := by decide +kernel
    cases hb : b.hash with
    | error e => rw [hb] at hok; cases hok
    | ok h => exact ⟨h, rfl, hb⟩
  obtain ⟨h, hb, hb'⟩ := hhash
  exact (hash_binds_contents hb hb' (by decide +kernel) (by decide +kernel)
    (by decide +kernel)).mpr rfl

omit [Crypto] in
/-- Three changes, and the same three with the last one twice, under one header. -/
theorem Block.hash_binds_not_repeated :
    letI := Crypto.checksums
    let c (n : ℕ) : ValidatorChange := ⟨.ADD, [.ofNat n]⟩
    let b := ofChanges [c 1, c 2, c 3]
    let b' := { b with validatorChanges := [c 1, c 2, c 3, c 3] }
    b.hash.toOption.isSome ∧ b.hash = b'.hash ∧ b.hasConsistentMerkleRoot = .ok true ∧
      b'.hasConsistentMerkleRoot = .ok true ∧ NoCollision (b.hashInputs ++ b'.hashInputs) ∧
      b.validatorChanges ≠ b'.validatorChanges := by
  decide +kernel

end Helix
