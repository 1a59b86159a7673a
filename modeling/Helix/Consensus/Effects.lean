import Helix.Consensus.Membership
import Helix.Domain.Roots

/-!
# The effect of a block

Two consistent blocks with the same hash need not have the same contents: the last records or changes
of one can be written once more in the other. They have the same effect (`Block.hash_fixes_effect`):
the records are the same up to repetitions, and so is what the changes lead to, since a change that is
repeated after the changes that followed it adds nothing when these are repeated as well.
-/

namespace Helix

open Relation (ReflTransGen)

/-! ### Changes with the same effect -/

lemma mem_texts {changes : List ValidatorChange} {s : PyStr} :
    s ∈ texts changes ↔ ∃ c ∈ changes, c.validator = s := List.mem_map

lemma stands_append {before after : List ValidatorChange} {s : PyStr} :
    Stands (before ++ after) s ↔ Stands after s ∨ s ∉ texts after ∧ Stands before s := by
  induction after using List.reverseRecOn with
  | nil => simp [not_stands_nil, texts]
  | append_singleton after c ih =>
    have htexts : s ∈ texts (after ++ [c]) ↔ s ∈ texts after ∨ s = c.validator := by simp [texts]
    rw [← List.append_assoc, stands_concat, stands_concat, ih, htexts]
    tauto

/-- Lists of the same changes, in which the same texts stand. -/
structure Alike (changes changes' : List ValidatorChange) : Prop where
  mem : ∀ c, c ∈ changes ↔ c ∈ changes'
  stands : ∀ s, Stands changes s ↔ Stands changes' s

namespace Alike

variable {changes changes' changes'' before before' : List ValidatorChange}

lemma refl (changes : List ValidatorChange) : Alike changes changes := ⟨fun _ => Iff.rfl, fun _ => Iff.rfl⟩

lemma symm (h : Alike changes changes') : Alike changes' changes :=
  ⟨fun c => (h.mem c).symm, fun s => (h.stands s).symm⟩

lemma trans (h : Alike changes changes') (h' : Alike changes' changes'') : Alike changes changes'' :=
  ⟨fun c => (h.mem c).trans (h'.mem c), fun s => (h.stands s).trans (h'.stands s)⟩

lemma texts (h : Alike changes changes') (s : PyStr) : s ∈ texts changes ↔ s ∈ Helix.texts changes' := by
  simp only [mem_texts, h.mem]

lemma append (hbefore : Alike before before') (h : Alike changes changes') :
    Alike (before ++ changes) (before' ++ changes') := by
  constructor
  · intro c
    rw [List.mem_append, List.mem_append, hbefore.mem, h.mem]
  · intro s
    rw [stands_append, stands_append, h.stands, h.texts, hbefore.stands]

lemma flatMap {ι : Type*} {f : ι → List ValidatorChange} {l l' : List ι}
    (h : List.Forall₂ (fun i i' => Alike (f i) (f i')) l l') : Alike (l.flatMap f) (l'.flatMap f) := by
  induction h with
  | nil => exact .refl _
  | cons hhead _ ih => exact hhead.append ih

/-- Changes of which a part of the end is repeated. -/
lemma of_regrows (h : ReflTransGen Regrows changes changes') : Alike changes changes' := by
  induction h with
  | refl => exact .refl _
  | tail _ hstep ih =>
    refine ih.trans ?_
    obtain ⟨ht⟩ := hstep
    obtain ⟨p, rfl⟩ := ht
    refine ⟨fun c => ?_, fun s => ?_⟩
    · simp only [List.mem_append]
      tauto
    · have hmem : Stands p s → s ∈ Helix.texts p := Stands.mem_texts
      simp only [stands_append]
      tauto

/-! ### What they lead to -/

/-- Changes apply to a dictionary if the texts of the ADDs are keys. -/
lemma exists_applyToKeys_iff {keys : Dict PyStr PublicKey} : (∃ out, applyToKeys keys changes = .ok out) ↔
    ∀ c ∈ changes, c.action = .ADD → ∃ k, PublicKey.fromHex c.validator = .ok k := by
  induction changes using List.reverseRecOn with
  | nil => exact ⟨fun _ _ h => absurd h List.not_mem_nil, fun _ => ⟨keys, rfl⟩⟩
  | append_singleton changes c ih =>
    simp only [List.mem_append, List.mem_singleton, or_imp, forall_and, forall_eq, ← ih]
    constructor
    · rintro ⟨out, hout⟩
      obtain ⟨mid, hmid, ⟨-, k, hk, -⟩ | ⟨hremove, -⟩⟩ := applyToKeys_concat.mp hout
      · exact ⟨⟨mid, hmid⟩, fun _ => ⟨k, hk⟩⟩
      · exact ⟨⟨mid, hmid⟩, fun hadd => by rw [hremove] at hadd; cases hadd⟩
    · rintro ⟨⟨mid, hmid⟩, hc⟩
      cases haction : c.action with
      | ADD =>
        obtain ⟨k, hk⟩ := hc haction
        exact ⟨_, applyToKeys_concat.mpr ⟨mid, hmid, Or.inl ⟨haction, k, hk, rfl⟩⟩⟩
      | REMOVE => exact ⟨_, applyToKeys_concat.mpr ⟨mid, hmid, Or.inr ⟨haction, rfl⟩⟩⟩

lemma exists_holds (h : Alike changes changes') {keys out : Dict PyStr PublicKey} {V : ValidatorSet}
    (hout : applyToKeys keys changes = .ok out) (hV : Holds out V) :
    ∃ out', applyToKeys keys changes' = .ok out' ∧ Holds out' V := by
  have happly := exists_applyToKeys_iff.mp ⟨out, hout⟩
  obtain ⟨out', hout'⟩ : ∃ out', applyToKeys keys changes' = .ok out' :=
    exists_applyToKeys_iff.mpr fun c hc => happly c ((h.mem c).mpr hc)
  have hget : ∀ s k, out'.get? s = some k ↔ out.get? s = some k := by
    intro s k
    rw [get?_applyToKeys hout, get?_applyToKeys hout', h.stands, h.texts]
  refine ⟨out', hout', fun k => ?_, fun s s' k => ?_⟩
  · simp only [hget, hV.mem]
  · simp only [hget]
    exact hV.unique s s' k

/-- They lead from any set to the same set. -/
lemma applyChanges_iff (h : Alike changes changes') {V V' : ValidatorSet} :
    applyChanges V changes = .ok V' ↔ applyChanges V changes' = .ok V' := by
  simp only [applyChanges_eq_ok]
  constructor
  · rintro ⟨keys, hkeys, hV'⟩
    exact h.exists_holds hkeys hV'
  · rintro ⟨keys, hkeys, hV'⟩
    exact h.symm.exists_holds hkeys hV'

/-- The same set is derived from them. -/
lemma deriveValidatorSet_iff (h : Alike changes changes') {V : ValidatorSet} :
    deriveValidatorSet changes = .ok V ↔ deriveValidatorSet changes' = .ok V := by
  simp only [deriveValidatorSet_eq_ok]
  constructor
  · rintro ⟨keys, hkeys, hV⟩
    exact h.exists_holds hkeys hV
  · rintro ⟨keys, hkeys, hV⟩
    exact h.symm.exists_holds hkeys hV

end Alike

/-! ### Blocks -/

variable [Crypto]

/-- Blocks with the same hash have the same contents once parts of their ends are repeated. -/
lemma Block.exists_regrows {b b' : Block} {h : PyStr} (hb : b.hash = .ok h) (hb' : b'.hash = .ok h)
    (hc : b.hasConsistentMerkleRoot = .ok true) (hc' : b'.hasConsistentMerkleRoot = .ok true)
    (hno : NoCollision (b.hashInputs ++ b'.hashInputs)) :
    (∃ records, ReflTransGen Regrows b.records records ∧ ReflTransGen Regrows b'.records records) ∧
      ∃ changes, ReflTransGen Regrows b.validatorChanges changes ∧
        ReflTransGen Regrows b'.validatorChanges changes := by
  obtain ⟨ls, hls, hroot⟩ := exists_leaves hc
  obtain ⟨ls', hls', hroot'⟩ := exists_leaves hc'
  have hfill : LeafTree.fill ls = LeafTree.fill ls' := by
    refine (merkleRoot_eq_iff (hno.mono fun x hx => ?_)).mp (toHex_injective ?_)
    · simp only [hashInputs, hls, hls', Except.toOption, Option.map_some, Option.getD_some,
        List.mem_append] at hx ⊢
      tauto
    · rw [← hroot, ← hroot', header_eq_of_hash hb hb' hno]
  obtain ⟨items, hgrown, hitems⟩ := Regrows.exists_forall₂ (LeafTree.regrows_fill ls) (forall₂_leaves hls)
  obtain ⟨items', hgrown', hitems'⟩ :=
    Regrows.exists_forall₂ (LeafTree.regrows_fill ls') (forall₂_leaves hls')
  -- both lists of items have the same leaves, so they are one list
  rw [← hfill] at hitems'
  obtain rfl := List.left_unique_forall₂' leafOf_leftUnique hitems hitems'
  have hrecords : ∀ b : Block, (b.records.map Sum.inl ++ b.validatorChanges.map Sum.inr).filterMap
      Sum.getLeft? = b.records := by
    intro b
    simp [List.filterMap_map, Function.comp_def]
  have hchanges : ∀ b : Block, (b.records.map Sum.inl ++ b.validatorChanges.map Sum.inr).filterMap
      Sum.getRight? = b.validatorChanges := by
    intro b
    simp [List.filterMap_map, Function.comp_def]
  constructor
  · have hleft := Regrows.filterMap Sum.getLeft? hgrown
    have hleft' := Regrows.filterMap Sum.getLeft? hgrown'
    rw [hrecords] at hleft hleft'
    exact ⟨_, hleft, hleft'⟩
  · have hright := Regrows.filterMap Sum.getRight? hgrown
    have hright' := Regrows.filterMap Sum.getRight? hgrown'
    rw [hchanges] at hright hright'
    exact ⟨_, hright, hright'⟩

/-- Blocks with the same hash have changes with the same effect. -/
lemma Block.alike_of_hash {b b' : Block} {h : PyStr} (hb : b.hash = .ok h) (hb' : b'.hash = .ok h)
    (hc : b.hasConsistentMerkleRoot = .ok true) (hc' : b'.hasConsistentMerkleRoot = .ok true)
    (hno : NoCollision (b.hashInputs ++ b'.hashInputs)) :
    Alike b.validatorChanges b'.validatorChanges := by
  obtain ⟨-, changes, hgrown, hgrown'⟩ := exists_regrows hb hb' hc hc' hno
  exact (Alike.of_regrows hgrown).trans (Alike.of_regrows hgrown').symm

/-- Two consistent blocks with the same hash contain the same records, and their changes lead from any
validator set to the same set and can be exchanged for each other in any chain that is replayed. -/
theorem Block.hash_fixes_effect {b b' : Block} {h : PyStr} (hb : b.hash = .ok h) (hb' : b'.hash = .ok h)
    (hc : b.hasConsistentMerkleRoot = .ok true) (hc' : b'.hasConsistentMerkleRoot = .ok true)
    (hno : NoCollision (b.hashInputs ++ b'.hashInputs)) :
    (∀ r, r ∈ b.records ↔ r ∈ b'.records) ∧
      (∀ V V', applyChanges V b.validatorChanges = .ok V' ↔
        applyChanges V b'.validatorChanges = .ok V') ∧
      ∀ before after V, deriveValidatorSet (before ++ b.validatorChanges ++ after) = .ok V ↔
        deriveValidatorSet (before ++ b'.validatorChanges ++ after) = .ok V := by
  obtain ⟨⟨records, hrecords, hrecords'⟩, -⟩ := exists_regrows hb hb' hc hc' hno
  have halike := alike_of_hash hb hb' hc hc' hno
  refine ⟨fun r => ?_, fun V V' => halike.applyChanges_iff, fun before after V => ?_⟩
  · rw [Regrows.mem_iff hrecords, Regrows.mem_iff hrecords']
  · exact (((Alike.refl before).append halike).append (.refl after)).deriveValidatorSet_iff

omit [Crypto] in
/-- Six changes, and the same six with the last two once more, in blocks with the same hash. -/
theorem Block.hash_fixes_effect_of_repeated :
    letI := Crypto.checksums
    let add (n : UInt8) : ValidatorChange := ⟨.ADD, (seedPublic n).toHex⟩
    let remove (n : UInt8) : ValidatorChange := ⟨.REMOVE, (seedPublic n).toHex⟩
    let changes := [add 1, add 2, add 3, remove 1, remove 2, add 2]
    let b := ofChanges changes
    let b' := { b with validatorChanges := changes ++ [remove 2, add 2] }
    ∀ V V', applyChanges V b.validatorChanges = .ok V' ↔
      applyChanges V b'.validatorChanges = .ok V' := by
  let := Crypto.checksums
  intro add remove changes b b'
  have hok : (b.hash.toOption).isSome = true := by decide +kernel
  obtain ⟨h, hb⟩ : ∃ h, b.hash = .ok h := by
    cases hb : b.hash with
    | error e => rw [hb] at hok; cases hok
    | ok h => exact ⟨h, rfl⟩
  have hb' : b'.hash = .ok h := hb
  exact (hash_fixes_effect hb hb' (by decide +kernel) (by decide +kernel) (by decide +kernel)).2.1

end Helix
