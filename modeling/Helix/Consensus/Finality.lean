import Helix.Consensus.ValidatorSet

/-!
# Finality certificates

A block is final when its commit signatures hold valid seals over its hash. The signatures are keyed
by text, and several texts spell the same key, so `verifyFinality` counts entries where a certificate
is about validators. `verifyFinality_iff_finalizedBy` says for which blocks the two agree.
-/

namespace Helix

variable [Crypto]

/-- The validator whose seal over `blockHash` an entry of the commit signatures carries, if any. -/
def sealer (validators : ValidatorSet) (blockHash : Bytes) (entry : PyStr × PyStr) :
    Option PublicKey :=
  match PublicKey.fromHex entry.1, fromHex entry.2 with
  | .ok key, .ok bytes =>
    if validators.contains key ∧ key.verify bytes blockHash then some key else none
  | _, _ => none

/-- `verify_finality`: count the valid entries of the commit signatures. -/
def verifyFinality (block : Block) (validators : ValidatorSet) : Except PyError Bool := do
  let h ← block.hash
  let blockHash ← encode h
  let valid := block.commitSignatures.items.foldl
    (fun valid entry => if (sealer validators blockHash entry).isSome then valid + 1 else valid) 0
  return decide (validators.quorum ≤ valid)

namespace Block

/-- The entry spells `key` and holds a valid seal of it over the block's hash. -/
def Seals (block : Block) (entry : PyStr × PyStr) (key : PublicKey) : Prop :=
  ∃ h blockHash bytes, PublicKey.fromHex entry.1 = .ok key ∧ fromHex entry.2 = .ok bytes ∧
    block.hash = .ok h ∧ encode h = .ok blockHash ∧ key.verify bytes blockHash = true

/-- The commit signatures hold a valid seal of `key` over the block's hash. -/
def SealedBy (block : Block) (key : PublicKey) : Prop :=
  ∃ entry ∈ block.commitSignatures.items, block.Seals entry key

/-- Two entries of the commit signatures spell `key`, each with a valid seal. -/
def SealedTwice (block : Block) (key : PublicKey) : Prop :=
  ∃ entry ∈ block.commitSignatures.items, ∃ entry' ∈ block.commitSignatures.items,
    entry.1 ≠ entry'.1 ∧ block.Seals entry key ∧ block.Seals entry' key

/-- A quorum of different validators has sealed the block. -/
def FinalizedBy (block : Block) (validators : ValidatorSet) : Prop :=
  ∃ Q : Finset PublicKey, validators.quorum ≤ Q.card ∧
    ∀ k ∈ Q, k ∈ validators.validators ∧ block.SealedBy k

/-- The validators of the valid entries, one for each entry. -/
def sealKeys (block : Block) (validators : ValidatorSet) : List PublicKey :=
  match block.hash.bind encode with
  | .error _ => []
  | .ok blockHash => block.commitSignatures.items.filterMap (sealer validators blockHash)

end Block

lemma sealer_eq_some {validators : ValidatorSet} {blockHash : Bytes} {entry : PyStr × PyStr}
    {key : PublicKey} : sealer validators blockHash entry = some key ↔
      ∃ bytes, PublicKey.fromHex entry.1 = .ok key ∧ fromHex entry.2 = .ok bytes ∧
        key ∈ validators.validators ∧ key.verify bytes blockHash = true := by
  unfold sealer
  cases hk : PublicKey.fromHex entry.1 with
  | error e => simp
  | ok k =>
    cases hb : fromHex entry.2 with
    | error e => simp
    | ok b =>
      simp only [ValidatorSet.contains_iff, Option.ite_none_right_eq_some, Option.some.injEq,
        Except.ok.injEq]
      constructor
      · rintro ⟨⟨h1, h2⟩, rfl⟩
        exact ⟨b, rfl, rfl, h1, h2⟩
      · rintro ⟨b', rfl, rfl, h1, h2⟩
        exact ⟨⟨h1, h2⟩, rfl⟩

omit [Crypto] in
/-- A counter over a list counts the entries that pass. -/
lemma foldl_count {α β : Type*} (f : α → Option β) (l : List α) (n : ℕ) :
    l.foldl (fun valid a => if (f a).isSome then valid + 1 else valid) n =
      n + (l.filterMap f).length := by
  induction l generalizing n with
  | nil => rfl
  | cons a l ih =>
    rw [List.foldl_cons, ih]
    cases hf : f a with
    | none => rw [List.filterMap_cons_none hf]; simp
    | some b => rw [List.filterMap_cons_some hf]; simp; omega

/-- The verifier counts entries. -/
lemma verifyFinality_eq_true {block : Block} {validators : ValidatorSet} :
    verifyFinality block validators = .ok true ↔
      validators.quorum ≤ (block.sealKeys validators).length := by
  have hpos := validators.quorum_pos
  simp only [verifyFinality, Block.sealKeys, bind, Except.bind, pure, Except.pure]
  cases block.hash with
  | error e =>
    refine ⟨fun h => (by cases h), fun h => ?_⟩
    rw [List.length_nil] at h
    omega
  | ok h =>
    cases henc : encode h with
    | error e =>
      refine ⟨fun h => (by simp [henc] at h), fun h => ?_⟩
      simp only [henc, List.length_nil] at h
      omega
    | ok blockHash => simp only [henc, foldl_count, zero_add, Except.ok.injEq, decide_eq_true_iff]

/-- The validators with a valid entry are those that sealed the block. -/
lemma Block.mem_sealKeys {block : Block} {validators : ValidatorSet} {key : PublicKey} :
    key ∈ block.sealKeys validators ↔ key ∈ validators.validators ∧ block.SealedBy key := by
  simp only [sealKeys, SealedBy, Seals]
  cases hh : block.hash with
  | error e => simp [Except.bind]
  | ok h =>
    cases henc : encode h with
    | error e => simp [Except.bind, henc]
    | ok blockHash =>
      simp only [Except.bind, henc, List.mem_filterMap, sealer_eq_some]
      constructor
      · rintro ⟨entry, hmem, bytes, hk, hb, hval, hver⟩
        exact ⟨hval, entry, hmem, h, blockHash, bytes, hk, hb, rfl, henc, hver⟩
      · rintro ⟨hval, entry, hmem, h', blockHash', bytes, hk, hb, hh', henc', hver⟩
        cases hh'
        rw [henc] at henc'
        cases henc'
        exact ⟨entry, hmem, bytes, hk, hb, hval, hver⟩

lemma Block.finalizedBy_iff {block : Block} {validators : ValidatorSet} :
    block.FinalizedBy validators ↔
      validators.quorum ≤ (block.sealKeys validators).toFinset.card := by
  constructor
  · rintro ⟨Q, hcard, hQ⟩
    refine hcard.trans (Finset.card_le_card fun k hk => ?_)
    exact List.mem_toFinset.mpr (mem_sealKeys.mpr (hQ k hk))
  · intro h
    exact ⟨_, h, fun k hk => mem_sealKeys.mp (List.mem_toFinset.mp hk)⟩

/-- The verifier accepts what a quorum has sealed. -/
lemma Block.FinalizedBy.verifies {block : Block} {validators : ValidatorSet}
    (h : block.FinalizedBy validators) : verifyFinality block validators = .ok true :=
  verifyFinality_eq_true.mpr ((finalizedBy_iff.mp h).trans (List.toFinset_card_le _))

/-- The valid entries of validators that are spelled once are as many as these validators. -/
lemma Block.finalizedBy_of_not_sealedTwice {block : Block} {validators : ValidatorSet}
    (honce : ∀ key ∈ validators.validators, ¬block.SealedTwice key)
    (h : verifyFinality block validators = .ok true) : block.FinalizedBy validators := by
  have hnodup : (block.sealKeys validators).Nodup := by
    unfold sealKeys
    cases hh : block.hash with
    | error e => exact List.nodup_nil
    | ok x =>
      cases henc : encode x with
      | error e => simp only [Except.bind, henc, List.nodup_nil]
      | ok blockHash =>
        simp only [Except.bind, henc]
        have hpair : block.commitSignatures.items.Pairwise fun a b => a.1 ≠ b.1 :=
          List.pairwise_map.mp block.commitSignatures.keys_nodup
        refine List.pairwise_filterMap.mpr (hpair.imp_of_mem ?_)
        rintro a b ha hb hne k hk _ hk' rfl
        obtain ⟨bytes, hkey, hbytes, hmem, hver⟩ := sealer_eq_some.mp hk
        obtain ⟨bytes', hkey', hbytes', -, hver'⟩ := sealer_eq_some.mp hk'
        exact honce k hmem ⟨a, ha, b, hb, hne, ⟨x, blockHash, bytes, hkey, hbytes, hh, henc, hver⟩,
          x, blockHash, bytes', hkey', hbytes', hh, henc, hver'⟩
  rw [verifyFinality_eq_true, ← List.toFinset_card_of_nodup hnodup] at h
  exact finalizedBy_iff.mpr h

/-- Two entries of one key pass for a quorum of two. -/
lemma Block.SealedTwice.verifies {block : Block} {key : PublicKey} (h : block.SealedTwice key)
    {validators : ValidatorSet} (hkey : key ∈ validators.validators) (hquorum : validators.quorum = 2) :
    verifyFinality block validators = .ok true := by
  obtain ⟨entry, hentry, entry', hentry', hne, ⟨x, blockHash, bytes, hk, hb, hx, henc, hver⟩,
    ⟨x', blockHash', bytes', hk', hb', hx', henc', hver'⟩⟩ := h
  cases hx.symm.trans hx'
  cases henc.symm.trans henc'
  have hseal : sealer validators blockHash entry = some key :=
    sealer_eq_some.mpr ⟨bytes, hk, hb, hkey, hver⟩
  have hseal' : sealer validators blockHash entry' = some key :=
    sealer_eq_some.mpr ⟨bytes', hk', hb', hkey, hver'⟩
  obtain ⟨l₁, l₂, hsplit⟩ := List.append_of_mem hentry
  rw [hsplit, List.mem_append, List.mem_cons] at hentry'
  have hother : 0 < (l₁.filterMap (sealer validators blockHash)).length +
      (l₂.filterMap (sealer validators blockHash)).length := by
    rcases hentry' with hmem | rfl | hmem
    · exact Nat.add_pos_left (List.length_pos_of_mem (List.mem_filterMap.mpr ⟨_, hmem, hseal'⟩)) _
    · exact absurd rfl hne
    · exact Nat.add_pos_right _ (List.length_pos_of_mem (List.mem_filterMap.mpr ⟨_, hmem, hseal'⟩))
  rw [verifyFinality_eq_true, hquorum, sealKeys, hx]
  simp only [Except.bind, henc, hsplit, List.filterMap_append, List.filterMap_cons_some hseal,
    List.length_append, List.length_cons]
  omega

/-- The verifier and the certificate agree where no validator of the set has two entries with valid
seals. They agree for every validator set exactly if no key has two such entries, or if every possible
key has sealed the block. -/
theorem verifyFinality_iff_finalizedBy (block : Block) :
    (∀ validators : ValidatorSet, (∀ key ∈ validators.validators, ¬block.SealedTwice key) →
      (verifyFinality block validators = .ok true ↔ block.FinalizedBy validators)) ∧
    ((∀ validators : ValidatorSet,
        verifyFinality block validators = .ok true ↔ block.FinalizedBy validators) ↔
      (∀ key, ¬block.SealedTwice key) ∨ ∀ key, block.SealedBy key) := by
  have honce : ∀ validators : ValidatorSet, (∀ key ∈ validators.validators, ¬block.SealedTwice key) →
      (verifyFinality block validators = .ok true ↔ block.FinalizedBy validators) :=
    fun validators h => ⟨Block.finalizedBy_of_not_sealedTwice h, Block.FinalizedBy.verifies⟩
  refine ⟨honce, fun h => ?_, fun h validators => ?_⟩
  · -- a key with two entries and one without a seal make a set for which the two differ
    by_contra hno
    push Not at hno
    obtain ⟨⟨key, htwice⟩, other, hother⟩ := hno
    have hne : key ≠ other := by
      rintro rfl
      obtain ⟨entry, hentry, -, -, -, hseals, -⟩ := htwice
      exact hother ⟨entry, hentry, hseals⟩
    obtain ⟨validators, hquorum, hmem⟩ := ValidatorSet.exists_pair hne
    obtain ⟨Q, hcard, hQ⟩ := (h validators).mp
      (htwice.verifies ((hmem key).mpr (Or.inl rfl)) hquorum)
    have hsub : Q ⊆ {key} := by
      intro k hk
      obtain ⟨hval, hsealed⟩ := hQ k hk
      rcases (hmem k).mp hval with rfl | rfl
      · exact Finset.mem_singleton_self _
      · exact absurd hsealed hother
    have hle := hcard.trans (Finset.card_le_card hsub)
    rw [hquorum, Finset.card_singleton] at hle
    omega
  · rcases h with h | h
    · exact honce validators fun key _ => h key
    · refine ⟨fun _ => ⟨validators.members, ?_, fun k hk => ⟨(validators.mem_members k).mp hk, h k⟩⟩,
        Block.FinalizedBy.verifies⟩
      rw [validators.card_members]
      exact Nat.sub_le _ _

/-- One seal of one validator under two spellings of its key. -/
def twiceSealed : Block :=
  letI := Crypto.checksums
  { header := ⟨1, ZERO_HASH, 0, ZERO_HASH, []⟩
    commitSignatures :=
      let h := (BlockHeader.hash ⟨1, ZERO_HASH, 0, ZERO_HASH, []⟩ |>.bind encode).toOption.getD []
      let signature := toHex ((seedKey 0xaa).sign h)
      Dict.ofList [(List.replicate 64 (.ofNat 97), signature),
        (List.replicate 64 (.ofNat 65), signature)] }

omit [Crypto] in
theorem twiceSealed_verifies_without_quorum :
    letI := Crypto.checksums
    verifyFinality twiceSealed .pair = .ok true ∧ ¬twiceSealed.FinalizedBy .pair := by
  let := Crypto.checksums
  change verifyFinality twiceSealed .pair = .ok true ∧ ¬twiceSealed.FinalizedBy .pair
  rw [verifyFinality_eq_true, Block.finalizedBy_iff]
  decide +kernel

end Helix
