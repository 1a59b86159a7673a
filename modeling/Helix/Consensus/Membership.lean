import Helix.Consensus.ValidatorSet
import Helix.Library.Effect
import Mathlib.Data.Finset.Dedup
import Mathlib.Data.List.Perm.Lattice

/-!
# Membership, block by block and replayed

A running node applies the changes of every block to its active set, a restarted one replays all of
them from the beginning. Both key their dictionary by the text in the change, but only the running
node spells the keys anew at every block. `replay_agrees_iff` says when the two come to the same set.
-/

namespace Helix

namespace ValidatorSet

/-- A validator set is determined by its members. -/
lemma ext_mem {V V' : ValidatorSet} (h : ∀ k, k ∈ V.validators ↔ k ∈ V'.validators) : V = V' := by
  have hperm : V.validators.Perm V'.validators := (List.perm_ext_iff_of_nodup V.nodup V'.nodup).mpr h
  have heq : V.validators = V'.validators := by
    refine hperm.eq_of_pairwise (fun a b _ _ hab hba => ?_) V.sorted V'.sorted
    exact absurd hba (lt_asymm hab)
  cases V
  cases V'
  simp only at heq
  subst heq
  rfl

lemma byHex_concat (keys : List PublicKey) (k : PublicKey) :
    byHex (keys ++ [k]) = (byHex keys).set k.toHex k := by
  simp [byHex, Dict.ofList]

lemma get?_byHex {keys : List PublicKey} {s : PyStr} {k : PublicKey} :
    (byHex keys).get? s = some k ↔ s = k.toHex ∧ k ∈ keys := by
  induction keys using List.reverseRecOn with
  | nil => simp [byHex, Dict.ofList]
  | append_singleton keys v ih =>
    rw [byHex_concat, Dict.get?_set]
    by_cases hs : s = v.toHex
    · subst hs
      simp only [if_true, Option.some.injEq]
      constructor
      · rintro rfl
        simp
      · rintro ⟨hk, -⟩
        exact PublicKey.toHex_injective hk
    · simp only [hs, if_false, ih, List.mem_append, List.mem_singleton]
      constructor
      · exact fun h => ⟨h.1, Or.inl h.2⟩
      · rintro ⟨rfl, hk | rfl⟩
        · exact ⟨rfl, hk⟩
        · exact absurd rfl hs

/-- Two spellings of one key make the dictionary shorter than the list. -/
lemma len_byHex {keys : List PublicKey} : (byHex keys).len = keys.length ↔ keys.Nodup := by
  have hkeys : (byHex keys).keys.toFinset = (keys.map PublicKey.toHex).toFinset := by
    ext s
    simp only [List.mem_toFinset, Dict.mem_keys, ← Dict.get?_eq_some, get?_byHex, List.mem_map]
    constructor
    · rintro ⟨k, rfl, hk⟩
      exact ⟨k, hk, rfl⟩
    · rintro ⟨k, hk, rfl⟩
      exact ⟨k, rfl, hk⟩
  rw [Dict.len_eq_card, hkeys, ← List.nodup_map_iff PublicKey.toHex_injective]
  constructor
  · intro h
    refine Multiset.coe_nodup.mp (Multiset.toFinset_card_eq_card_iff_nodup.mp ?_)
    simpa using h
  · intro h
    rw [List.toFinset_card_of_nodup h, List.length_map]

lemma new_eq_ok {keys : List PublicKey} {V : ValidatorSet} :
    new keys = .ok V ↔ keys ≠ [] ∧ keys.Nodup ∧ ∀ k, k ∈ V.validators ↔ k ∈ keys := by
  have hmem : ∀ k, k ∈ (sortItems (byHex keys).items).map Prod.snd ↔ k ∈ keys := by
    intro k
    simp only [List.mem_map, (sortItems_perm _).mem_iff, Prod.exists, ← Dict.get?_eq_some,
      get?_byHex]
    constructor
    · rintro ⟨s, k', ⟨-, hk⟩, rfl⟩
      exact hk
    · exact fun hk => ⟨_, k, ⟨rfl, hk⟩, rfl⟩
  unfold new
  split_ifs with hnil hlen
  · simp [hnil]
  · rw [Ne, len_byHex] at hlen
    simp [hlen]
  · rw [not_not, len_byHex] at hlen
    constructor
    · intro h
      cases h
      exact ⟨hnil, hlen, hmem⟩
    · rintro ⟨-, -, h⟩
      rw [Except.ok.injEq]
      exact ext_mem fun k => (hmem k).trans (h k).symm

lemma exists_new {keys : List PublicKey} (hne : keys ≠ []) (hnodup : keys.Nodup) :
    ∃ V, new keys = .ok V := by
  unfold new
  rw [dif_neg hne, dif_neg (not_not.mpr (len_byHex.mpr hnodup))]
  exact ⟨_, rfl⟩

end ValidatorSet

/-! ### The last change of a text -/

/-- The texts that a list of changes names. -/
def texts (changes : List ValidatorChange) : List PyStr := changes.map (·.validator)

/-- The last change with the given text is an ADD. -/
def Stands (changes : List ValidatorChange) (s : PyStr) : Prop :=
  ∃ before after, changes = before ++ ⟨.ADD, s⟩ :: after ∧ s ∉ texts after

lemma stands_concat {changes : List ValidatorChange} {c : ValidatorChange} {s : PyStr} :
    Stands (changes ++ [c]) s ↔ c = ⟨.ADD, s⟩ ∨ c.validator ≠ s ∧ Stands changes s := by
  constructor
  · rintro ⟨before, after, heq, hnot⟩
    rcases List.eq_nil_or_concat after with rfl | ⟨after, c', rfl⟩
    · obtain ⟨-, hlast⟩ := List.append_inj' heq rfl
      exact Or.inl (List.cons.inj hlast).1
    · rw [List.concat_eq_append] at heq hnot
      rw [← List.cons_append, ← List.append_assoc] at heq
      obtain ⟨hinit, hlast⟩ := List.append_inj' heq rfl
      cases hlast
      simp only [texts, List.map_append, List.map_cons, List.map_nil, List.mem_append,
        List.mem_singleton, not_or] at hnot
      exact Or.inr ⟨Ne.symm hnot.2, before, after, hinit, hnot.1⟩
  · rintro (rfl | ⟨hne, before, after, rfl, hnot⟩)
    · exact ⟨changes, [], rfl, List.not_mem_nil⟩
    · refine ⟨before, after ++ [c], by simp, ?_⟩
      simp only [texts, List.map_append, List.map_cons, List.map_nil, List.mem_append,
        List.mem_singleton, not_or]
      exact ⟨hnot, Ne.symm hne⟩

lemma Stands.mem_texts {changes : List ValidatorChange} {s : PyStr} (h : Stands changes s) :
    s ∈ texts changes := by
  obtain ⟨before, after, rfl, -⟩ := h
  simp [texts]

lemma not_stands_nil (s : PyStr) : ¬Stands [] s := by
  rintro ⟨before, after, heq, -⟩
  simp at heq

/-! ### What a dictionary of keys holds -/

/-- The binding that one change leaves behind. -/
lemma applyToKeys_concat {keys : Dict PyStr PublicKey} {changes : List ValidatorChange}
    {c : ValidatorChange} {out : Dict PyStr PublicKey} :
    applyToKeys keys (changes ++ [c]) = .ok out ↔ ∃ mid, applyToKeys keys changes = .ok mid ∧
      ((c.action = .ADD ∧ ∃ k, PublicKey.fromHex c.validator = .ok k ∧ out = mid.set c.validator k) ∨
        (c.action = .REMOVE ∧ out = mid.pop c.validator)) := by
  rw [applyToKeys, List.foldlM_append, ← applyToKeys]
  cases applyToKeys keys changes with
  | error e => simp [bind, Except.bind]
  | ok mid =>
    cases hc : c.action with
    | ADD =>
      cases hk : PublicKey.fromHex c.validator with
      | error e => simp [bind, Except.bind, hc, hk, Except.map]
      | ok k => simp [bind, Except.bind, pure, Except.pure, hc, hk, Except.map, eq_comm]
    | REMOVE => simp [bind, Except.bind, pure, Except.pure, hc, eq_comm]

/-- A text is bound by its last change, or as before if no change names it. -/
lemma get?_applyToKeys {keys out : Dict PyStr PublicKey} {changes : List ValidatorChange}
    (h : applyToKeys keys changes = .ok out) {s : PyStr} {k : PublicKey} :
    out.get? s = some k ↔ (Stands changes s ∧ PublicKey.fromHex s = .ok k) ∨
      (s ∉ texts changes ∧ keys.get? s = some k) := by
  induction changes using List.reverseRecOn generalizing out with
  | nil =>
    cases h
    simp [not_stands_nil, texts]
  | append_singleton changes c ih =>
    obtain ⟨mid, hmid, hout⟩ := applyToKeys_concat.mp h
    have htexts : s ∉ texts (changes ++ [c]) ↔ s ∉ texts changes ∧ s ≠ c.validator := by
      simp [texts]
    rcases hout with ⟨hadd, k', hk', rfl⟩ | ⟨hremove, rfl⟩
    · rw [Dict.get?_set, stands_concat, htexts]
      by_cases hs : s = c.validator
      · subst hs
        have hc : c = ⟨.ADD, c.validator⟩ := by rw [← hadd]
        simp [← hc, hk']
      · have hc : c ≠ ⟨.ADD, s⟩ := by
          rintro rfl
          exact hs rfl
        simp [hs, Ne.symm hs, hc, ih hmid]
    · rw [Dict.get?_pop, stands_concat, htexts]
      have hc : c ≠ ⟨.ADD, s⟩ := by
        rintro rfl
        cases hremove
      by_cases hs : s = c.validator
      · simp [← hs, hc]
      · simp [hs, Ne.symm hs, hc, ih hmid]

/-- Whether the changes apply does not depend on the dictionary. -/
lemma exists_applyToKeys {keys out : Dict PyStr PublicKey} {changes : List ValidatorChange}
    (h : applyToKeys keys changes = .ok out) (keys' : Dict PyStr PublicKey) :
    ∃ out', applyToKeys keys' changes = .ok out' := by
  induction changes using List.reverseRecOn generalizing out with
  | nil => exact ⟨keys', rfl⟩
  | append_singleton changes c ih =>
    obtain ⟨mid, hmid, hout⟩ := applyToKeys_concat.mp h
    obtain ⟨mid', hmid'⟩ := ih hmid
    rcases hout with ⟨hadd, k, hk, rfl⟩ | ⟨hremove, rfl⟩
    · exact ⟨_, applyToKeys_concat.mpr ⟨mid', hmid', Or.inl ⟨hadd, k, hk, rfl⟩⟩⟩
    · exact ⟨_, applyToKeys_concat.mpr ⟨mid', hmid', Or.inr ⟨hremove, rfl⟩⟩⟩

/-- The dictionary holds each member of the set under one text, and nothing else. -/
structure Holds (keys : Dict PyStr PublicKey) (V : ValidatorSet) : Prop where
  mem : ∀ k, k ∈ V.validators ↔ ∃ s, keys.get? s = some k
  unique : ∀ s s' k, keys.get? s = some k → keys.get? s' = some k → s = s'

lemma nodup_values {keys : Dict PyStr PublicKey} : keys.values.Nodup ↔
    ∀ s s' k, keys.get? s = some k → keys.get? s' = some k → s = s' := by
  simp only [Dict.get?_eq_some]
  constructor
  · intro h s s' k hs hs'
    exact congrArg Prod.fst (List.inj_on_of_nodup_map h hs hs' rfl)
  · intro h
    refine List.Nodup.map_on ?_ keys.nodup.of_map
    rintro ⟨s, k⟩ hs ⟨s', k'⟩ hs' heq
    simp only at heq
    subst heq
    rw [h s s' k hs hs']

lemma new_values_eq_ok {keys : Dict PyStr PublicKey} {V : ValidatorSet} {err : PyError} :
    (if keys.len = 0 then .error err else ValidatorSet.new keys.values) = .ok V ↔ Holds keys V := by
  have hlen : keys.len = 0 ↔ keys.values = [] := by
    simp [Dict.len, Dict.values]
  have hmem : ∀ k, k ∈ keys.values ↔ ∃ s, keys.get? s = some k := by
    simp [Dict.mem_values, Dict.get?_eq_some]
  constructor
  · intro h
    by_cases hzero : keys.len = 0
    · rw [if_pos hzero] at h
      cases h
    · rw [if_neg hzero] at h
      obtain ⟨-, hnodup, hV⟩ := ValidatorSet.new_eq_ok.mp h
      exact ⟨fun k => (hV k).trans (hmem k), nodup_values.mp hnodup⟩
  · intro h
    have hne : keys.values ≠ [] := by
      obtain ⟨k, hk⟩ := List.exists_mem_of_ne_nil _ V.nonempty
      obtain hk' := (hmem k).mpr ((h.mem k).mp hk)
      exact List.ne_nil_of_mem hk'
    rw [if_neg (mt hlen.mp hne), ValidatorSet.new_eq_ok]
    exact ⟨hne, nodup_values.mpr h.unique, fun k => (h.mem k).trans (hmem k).symm⟩

lemma applyChanges_eq_ok {V V' : ValidatorSet} {changes : List ValidatorChange} :
    applyChanges V changes = .ok V' ↔
      ∃ keys, applyToKeys (ValidatorSet.byHex V.validators) changes = .ok keys ∧ Holds keys V' := by
  unfold applyChanges
  cases applyToKeys (ValidatorSet.byHex V.validators) changes with
  | error e => simp [bind, Except.bind]
  | ok keys => simp [bind, Except.bind, new_values_eq_ok]

lemma deriveValidatorSet_eq_ok {V : ValidatorSet} {changes : List ValidatorChange} :
    deriveValidatorSet changes = .ok V ↔
      ∃ keys, applyToKeys Dict.empty changes = .ok keys ∧ Holds keys V := by
  unfold deriveValidatorSet
  cases applyToKeys Dict.empty changes with
  | error e => simp [bind, Except.bind]
  | ok keys => simp [bind, Except.bind, new_values_eq_ok]

/-- Without changes the set stays as it is. -/
lemma applyChanges_nil (V : ValidatorSet) : applyChanges V [] = .ok V := by
  refine applyChanges_eq_ok.mpr ⟨_, rfl, ?_, ?_⟩
  · simp [ValidatorSet.get?_byHex]
  · intro s s' k hs hs'
    rw [(ValidatorSet.get?_byHex.mp hs).1, (ValidatorSet.get?_byHex.mp hs').1]

/-! ### One block more -/

lemma applyToKeys_append (keys : Dict PyStr PublicKey) (before after : List ValidatorChange) :
    applyToKeys keys (before ++ after) =
      (applyToKeys keys before).bind fun mid => applyToKeys mid after :=
  List.foldlM_append

/-- What the replayed dictionary binds. -/
lemma get?_replayed {keys : Dict PyStr PublicKey} {changes : List ValidatorChange}
    (h : applyToKeys Dict.empty changes = .ok keys) {s : PyStr} {k : PublicKey} :
    keys.get? s = some k ↔ Stands changes s ∧ PublicKey.fromHex s = .ok k := by
  rw [get?_applyToKeys h]
  simp

/-- The block names a key by its standing text just when it names it by its own spelling. -/
def SpelledAlike (changes block : List ValidatorChange) : Prop :=
  ∀ s k, Stands changes s → PublicKey.fromHex s = .ok k → (k.toHex ∈ texts block ↔ s ∈ texts block)

section Step

variable {replayed live' replayed' : Dict PyStr PublicKey} {V V' : ValidatorSet}
  {block : List ValidatorChange}

/-- The two dictionaries after the block hold the same keys if the spellings agree. -/
lemma Holds.step (hV : Holds replayed V) (hV' : Holds live' V')
    (hlive : applyToKeys (ValidatorSet.byHex V.validators) block = .ok live')
    (hreplayed : applyToKeys replayed block = .ok replayed')
    (halike : ∀ s k, replayed.get? s = some k → (k.toHex ∈ texts block ↔ s ∈ texts block)) :
    Holds replayed' V' := by
  have hmem : ∀ k, k ∈ V.validators ∧ k.toHex ∉ texts block ↔
      ∃ s, s ∉ texts block ∧ replayed.get? s = some k := by
    intro k
    rw [hV.mem]
    constructor
    · rintro ⟨⟨s, hs⟩, hnot⟩
      exact ⟨s, mt (halike s k hs).mpr hnot, hs⟩
    · rintro ⟨s, hnot, hs⟩
      exact ⟨⟨s, hs⟩, mt (halike s k hs).mp hnot⟩
  have hcross : ∀ s s' k, Stands block s → PublicKey.fromHex s = .ok k → s' ∉ texts block →
      replayed.get? s' = some k → False := by
    intro s s' k hs hk hnot hs'
    -- the key is still bound by its own spelling, so the running node would see it twice
    obtain ⟨hk', hnot'⟩ := (hmem k).mpr ⟨s', hnot, hs'⟩
    have hown : live'.get? k.toHex = some k :=
      (get?_applyToKeys hlive).mpr (Or.inr ⟨hnot', ValidatorSet.get?_byHex.mpr ⟨rfl, hk'⟩⟩)
    have hother : live'.get? s = some k := (get?_applyToKeys hlive).mpr (Or.inl ⟨hs, hk⟩)
    rw [hV'.unique _ _ _ hown hother] at hnot'
    exact hnot' hs.mem_texts
  constructor
  · intro k
    rw [hV'.mem]
    simp only [get?_applyToKeys hlive, get?_applyToKeys hreplayed, ValidatorSet.get?_byHex, exists_or,
      ← hmem]
    refine or_congr_right ?_
    constructor
    · rintro ⟨s, hnot, rfl, hk⟩
      exact ⟨hk, hnot⟩
    · rintro ⟨hk, hnot⟩
      exact ⟨k.toHex, hnot, rfl, hk⟩
  · intro s s' k hs hs'
    rw [get?_applyToKeys hreplayed] at hs hs'
    rcases hs with ⟨hs, hk⟩ | ⟨hnot, hs⟩ <;> rcases hs' with ⟨hs', hk'⟩ | ⟨hnot', hs'⟩
    · exact hV'.unique s s' k ((get?_applyToKeys hlive).mpr (Or.inl ⟨hs, hk⟩))
        ((get?_applyToKeys hlive).mpr (Or.inl ⟨hs', hk'⟩))
    · exact (hcross s s' k hs hk hnot' hs').elim
    · exact (hcross s' s k hs' hk' hnot hs).elim
    · exact hV.unique s s' k hs hs'

/-- If both dictionaries hold the same keys after the block, the spellings agree. -/
lemma Holds.alike (hV : Holds replayed V) (hV' : Holds live' V') (hV'' : Holds replayed' V')
    (hlive : applyToKeys (ValidatorSet.byHex V.validators) block = .ok live')
    (hreplayed : applyToKeys replayed block = .ok replayed') {s : PyStr} {k : PublicKey}
    (hs : replayed.get? s = some k) : k.toHex ∈ texts block ↔ s ∈ texts block := by
  have hstands : ∀ s', Stands block s' → PublicKey.fromHex s' = .ok k →
      live'.get? s' = some k ∧ replayed'.get? s' = some k := fun s' hs' hk =>
    ⟨(get?_applyToKeys hlive).mpr (Or.inl ⟨hs', hk⟩),
      (get?_applyToKeys hreplayed).mpr (Or.inl ⟨hs', hk⟩)⟩
  constructor
  · intro hown
    by_contra hnot
    -- the replay still binds the key, so the running node binds it by some text of the block
    have hbound : replayed'.get? s = some k := (get?_applyToKeys hreplayed).mpr (Or.inr ⟨hnot, hs⟩)
    obtain ⟨s', hs'⟩ := (hV'.mem k).mp ((hV''.mem k).mpr ⟨s, hbound⟩)
    rcases (get?_applyToKeys hlive).mp hs' with ⟨hs', hk⟩ | ⟨hnot', hs'⟩
    · rw [hV''.unique s s' k hbound (hstands s' hs' hk).2] at hnot
      exact hnot hs'.mem_texts
    · obtain ⟨rfl, -⟩ := ValidatorSet.get?_byHex.mp hs'
      exact hnot' hown
  · intro hmem
    by_contra hnot
    have hk : k ∈ V.validators := (hV.mem k).mpr ⟨s, hs⟩
    have hbound : live'.get? k.toHex = some k :=
      (get?_applyToKeys hlive).mpr (Or.inr ⟨hnot, ValidatorSet.get?_byHex.mpr ⟨rfl, hk⟩⟩)
    obtain ⟨s', hs'⟩ := (hV''.mem k).mp ((hV'.mem k).mpr ⟨_, hbound⟩)
    rcases (get?_applyToKeys hreplayed).mp hs' with ⟨hs', hk'⟩ | ⟨hnot', hs'⟩
    · rw [hV'.unique _ s' k hbound (hstands s' hs' hk').1] at hnot
      exact hnot hs'.mem_texts
    · rw [hV.unique s s' k hs hs'] at hmem
      exact hnot' hmem

end Step

/-- With one block more, the replay still agrees just when the spellings do. -/
lemma deriveValidatorSet_append {changes block : List ValidatorChange} {V V' : ValidatorSet}
    (hV : deriveValidatorSet changes = .ok V) (hV' : applyChanges V block = .ok V') :
    deriveValidatorSet (changes ++ block) = .ok V' ↔ SpelledAlike changes block := by
  obtain ⟨replayed, hreplayed, hholds⟩ := deriveValidatorSet_eq_ok.mp hV
  obtain ⟨live', hlive, hholds'⟩ := applyChanges_eq_ok.mp hV'
  obtain ⟨replayed', hreplayed'⟩ := exists_applyToKeys hlive replayed
  have happend : applyToKeys Dict.empty (changes ++ block) = .ok replayed' := by
    rw [applyToKeys_append, hreplayed]
    exact hreplayed'
  rw [deriveValidatorSet_eq_ok]
  constructor
  · rintro ⟨keys, hkeys, hholds''⟩
    rw [happend] at hkeys
    cases hkeys
    intro s k hs hk
    exact hholds.alike hholds' hholds'' hlive hreplayed' ((get?_replayed hreplayed).mpr ⟨hs, hk⟩)
  · intro halike
    refine ⟨replayed', happend, hholds.step hholds' hlive hreplayed' fun s k hs => ?_⟩
    obtain ⟨hstands, hk⟩ := (get?_replayed hreplayed).mp hs
    exact halike s k hstands hk

/-! ### Whole chains -/

/-- The changes of a genesis block: one ADD for each validator. -/
def genesisChanges (genesis : ValidatorSet) : List ValidatorChange :=
  genesis.validators.map fun v => ⟨.ADD, v.toHex⟩

/-- The set of a node that keeps running: the changes are applied block by block. -/
def liveValidatorSet (genesis : ValidatorSet) (blocks : List (List ValidatorChange)) :
    Except PyError ValidatorSet :=
  blocks.foldlM applyChanges genesis

/-- The changes a restarted node replays. -/
def chainChanges (genesis : ValidatorSet) (blocks : List (List ValidatorChange)) :
    List ValidatorChange :=
  genesisChanges genesis ++ blocks.flatten

lemma stands_genesisChanges (genesis : ValidatorSet) {s : PyStr} :
    Stands (genesisChanges genesis) s ↔ ∃ k ∈ genesis.validators, s = k.toHex := by
  unfold genesisChanges
  induction genesis.validators using List.reverseRecOn with
  | nil => simp [not_stands_nil]
  | append_singleton keys v ih =>
    rw [List.map_append, List.map_cons, List.map_nil, stands_concat, ih]
    by_cases hs : v.toHex = s
    · simp [hs]
    · simp [hs, or_and_right, exists_or, Ne.symm hs]

/-- A fresh chain replays to its genesis set. -/
lemma deriveValidatorSet_genesisChanges (genesis : ValidatorSet) :
    deriveValidatorSet (genesisChanges genesis) = .ok genesis := by
  have happly : ∀ keys : List PublicKey, ∃ out : Dict PyStr PublicKey,
      applyToKeys Dict.empty (keys.map fun v => ⟨.ADD, v.toHex⟩) = .ok out := by
    intro keys
    induction keys using List.reverseRecOn with
    | nil => exact ⟨_, rfl⟩
    | append_singleton keys v ih =>
      obtain ⟨mid, hmid⟩ := ih
      rw [List.map_append, List.map_cons, List.map_nil]
      exact ⟨_, applyToKeys_concat.mpr
        ⟨mid, hmid, Or.inl ⟨rfl, v, PublicKey.fromHex_toHex v, rfl⟩⟩⟩
  obtain ⟨keys, hkeys⟩ := happly genesis.validators
  have hget : ∀ s k, keys.get? s = some k ↔ s = k.toHex ∧ k ∈ genesis.validators := by
    intro s k
    rw [get?_replayed hkeys, ← genesisChanges, stands_genesisChanges]
    constructor
    · rintro ⟨⟨k', hk', rfl⟩, hk⟩
      rw [PublicKey.fromHex_toHex] at hk
      cases hk
      exact ⟨rfl, hk'⟩
    · rintro ⟨rfl, hk⟩
      exact ⟨⟨k, hk, rfl⟩, PublicKey.fromHex_toHex k⟩
  refine deriveValidatorSet_eq_ok.mpr ⟨keys, hkeys, ?_, ?_⟩
  · intro k
    simp [hget]
  · intro s s' k hs hs'
    rw [((hget s k).mp hs).1, ((hget s' k).mp hs').1]

lemma liveValidatorSet_concat {genesis : ValidatorSet} {blocks : List (List ValidatorChange)}
    {block : List ValidatorChange} {V : ValidatorSet} :
    liveValidatorSet genesis (blocks ++ [block]) = .ok V ↔
      ∃ V₀, liveValidatorSet genesis blocks = .ok V₀ ∧ applyChanges V₀ block = .ok V := by
  rw [liveValidatorSet, List.foldlM_append, ← liveValidatorSet]
  cases liveValidatorSet genesis blocks with
  | error e => simp [bind, Except.bind]
  | ok V₀ =>
    cases happly : applyChanges V₀ block with
    | error e => simp [bind, Except.bind, happly]
    | ok V' => simp [bind, Except.bind, pure, Except.pure, happly]

lemma chainChanges_concat (genesis : ValidatorSet) (blocks : List (List ValidatorChange))
    (block : List ValidatorChange) :
    chainChanges genesis (blocks ++ [block]) = chainChanges genesis blocks ++ block := by
  simp [chainChanges]

/-- A node that restarts after any of the blocks computes the set it would have had by running on,
just when every block that names a key names it by its standing text and by its own spelling, or by
neither. -/
theorem replay_agrees_iff (genesis : ValidatorSet) (blocks : List (List ValidatorChange))
    (hlive : ∃ V, liveValidatorSet genesis blocks = .ok V) :
    (∀ done, done <+: blocks →
        deriveValidatorSet (chainChanges genesis done) = liveValidatorSet genesis done) ↔
      ∀ done block, done ++ [block] <+: blocks → SpelledAlike (chainChanges genesis done) block := by
  obtain ⟨V, hV⟩ := hlive
  induction blocks using List.reverseRecOn generalizing V with
  | nil =>
    constructor
    · intro _ done block hpre
      simp at hpre
    · intro _ done hpre
      rw [List.prefix_nil.mp hpre, chainChanges, List.flatten_nil, List.append_nil]
      exact deriveValidatorSet_genesisChanges genesis
  | append_singleton blocks block ih =>
    obtain ⟨V₀, hV₀, hstep⟩ := liveValidatorSet_concat.mp hV
    have hlast := ih V₀ hV₀
    have happend : ∀ {done : List (List ValidatorChange)}, done <+: blocks → done <+: blocks ++ [block] :=
      fun h => h.trans (List.prefix_append _ _)
    constructor
    · intro h done block' hpre
      have hbefore := hlast.mp fun done hdone => h done (happend hdone)
      rcases List.prefix_concat_iff.mp hpre with heq | hpre
      · obtain ⟨rfl, hsame⟩ := List.append_inj' heq rfl
        obtain ⟨rfl, -⟩ := List.cons.inj hsame
        have hderive := h done (List.prefix_append _ _)
        rw [hV₀] at hderive
        rw [← deriveValidatorSet_append hderive hstep, ← chainChanges_concat, h _ (List.prefix_refl _)]
        exact hV
      · exact hbefore done block' hpre
    · intro h done hpre
      have hbefore := hlast.mpr fun done block' hdone => h done block' (happend hdone)
      rcases List.prefix_concat_iff.mp hpre with rfl | hpre
      · have hderive := hbefore blocks (List.prefix_refl _)
        rw [hV₀] at hderive
        rw [chainChanges_concat, hV, deriveValidatorSet_append hderive hstep]
        exact h blocks block (List.prefix_refl _)
      · exact hbefore done hpre

/-- The second validator leaves and comes back under its own spelling. -/
def leavesAndReturns : List (List ValidatorChange) :=
  [[⟨.REMOVE, (seedPublic 0xbb).toHex⟩], [⟨.ADD, (seedPublic 0xbb).toHex⟩]]

theorem replay_agrees_of_leavesAndReturns :
    (∃ V, liveValidatorSet .pair leavesAndReturns = .ok V) ∧
      ((∀ done, done <+: leavesAndReturns →
          deriveValidatorSet (chainChanges .pair done) = liveValidatorSet .pair done) ↔
        ∀ done block, done ++ [block] <+: leavesAndReturns →
          SpelledAlike (chainChanges .pair done) block) := by
  have hlive : ∃ V, liveValidatorSet .pair leavesAndReturns = .ok V := by
    have hok : (liveValidatorSet .pair leavesAndReturns).isOk = true := by decide +kernel
    exact exists_of_isOk hok
  exact ⟨hlive, replay_agrees_iff .pair leavesAndReturns hlive⟩

/-- A validator joins under a capital spelling and is removed under its own: it has left the running
node's set, and is back in the set of a node that restarts. -/
theorem replay_restores_removed_validator :
    let blocks : List (List ValidatorChange) :=
      [[⟨.ADD, str "BBBBBBBBBBBBBBBBBBBBBBBBBBBBBBBBBBBBBBBBBBBBBBBBBBBBBBBBBBBBBBBB"⟩],
        [⟨.REMOVE, (seedPublic 0xbb).toHex⟩]]
    (liveValidatorSet .single blocks).map (·.validators) = .ok [seedPublic 0xaa] ∧
      (deriveValidatorSet (chainChanges .single blocks)).map (·.validators) =
        .ok [seedPublic 0xaa, seedPublic 0xbb] := by
  constructor
  · decide +kernel
  · decide +kernel

end Helix
