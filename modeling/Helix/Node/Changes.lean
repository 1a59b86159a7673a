import Helix.Consensus.Membership
import Helix.Node.Model

/-!
# Changes that take effect

`_is_effective` admits a change by the key that its text names, `apply_changes` applies it to a dictionary
that has each member under its own spelling. The two agree on texts that name no member and on the own
spelling of a member (`Node.isEffective_iff`): a REMOVE under another spelling is admitted and removes
nobody, and an ADD under another spelling is refused, but raises if it is applied.
-/

namespace Helix

/-! ### One change -/

section

variable {V V' : ValidatorSet} {c : ValidatorChange} {k : PublicKey} {keys : Dict PyStr PublicKey}

/-- The error of `apply_changes`. -/
def emptyError : PyError := .valueError "a validator change must not empty the validator set"

/-- After the change a key is bound by the text of an ADD, or as before if the change has another text. -/
lemma get?_one (hk : PublicKey.fromHex c.validator = .ok k)
    (h : applyToKeys (ValidatorSet.byHex V.validators) [c] = .ok keys) {s : PyStr} {j : PublicKey} :
    keys.get? s = some j ↔ c.action = .ADD ∧ s = c.validator ∧ j = k ∨
      s ≠ c.validator ∧ s = j.toHex ∧ j ∈ V.validators := by
  have hstands : Stands [c] s ↔ c.action = .ADD ∧ s = c.validator := by
    rw [← List.nil_append [c], stands_concat]
    simp only [not_stands_nil, and_false, or_false]
    constructor
    · rintro rfl
      exact ⟨rfl, rfl⟩
    · rintro ⟨haction, rfl⟩
      rw [← haction]
  rw [get?_applyToKeys h, hstands, ValidatorSet.get?_byHex, and_assoc]
  refine or_congr (and_congr_right fun _ => and_congr_right fun hs => ?_) (and_congr_left' (by simp [texts]))
  rw [hs, hk, Except.ok.injEq, eq_comm]

lemma exists_applyToKeys_one (hk : PublicKey.fromHex c.validator = .ok k) :
    ∃ keys, applyToKeys (ValidatorSet.byHex V.validators) [c] = .ok keys := by
  cases haction : c.action with
  | ADD => exact ⟨_, (@applyToKeys_concat _ [] c _).mpr ⟨_, rfl, .inl ⟨haction, k, hk, rfl⟩⟩⟩
  | REMOVE => exact ⟨_, (@applyToKeys_concat _ [] c _).mpr ⟨_, rfl, .inr ⟨haction, rfl⟩⟩⟩

/-- The keys that are bound after the change. -/
lemma exists_get?_one (hk : PublicKey.fromHex c.validator = .ok k)
    (h : applyToKeys (ValidatorSet.byHex V.validators) [c] = .ok keys) {j : PublicKey} :
    (∃ s, keys.get? s = some j) ↔
      c.action = .ADD ∧ j = k ∨ j.toHex ≠ c.validator ∧ j ∈ V.validators := by
  simp only [get?_one hk h]
  constructor
  · rintro ⟨s, ⟨haction, -, rfl⟩ | ⟨hs, rfl, hj⟩⟩
    · exact .inl ⟨haction, rfl⟩
    · exact .inr ⟨hs, hj⟩
  · rintro (⟨haction, rfl⟩ | ⟨hs, hj⟩)
    · exact ⟨_, .inl ⟨haction, rfl, rfl⟩⟩
    · exact ⟨_, .inr ⟨hs, rfl, hj⟩⟩

/-- The change adds a member under another spelling. -/
def Doubles (V : ValidatorSet) (c : ValidatorChange) (k : PublicKey) : Prop :=
  c.action = .ADD ∧ k ∈ V.validators ∧ c.validator ≠ k.toHex

/-- Otherwise every key is bound by one text. -/
lemma unique_one (hk : PublicKey.fromHex c.validator = .ok k)
    (h : applyToKeys (ValidatorSet.byHex V.validators) [c] = .ok keys) (hdoubles : ¬Doubles V c k) :
    ∀ s s' j, keys.get? s = some j → keys.get? s' = some j → s = s' := by
  intro s s' j hs hs'
  rw [get?_one hk h] at hs hs'
  rcases hs with ⟨haction, rfl, rfl⟩ | ⟨hs, rfl, hj⟩ <;>
    rcases hs' with ⟨haction', hs', hj'⟩ | ⟨hs', hs'', hj'⟩
  · exact hs'.symm
  · exact absurd ⟨haction, hj', fun heq => hs' (hs''.trans heq.symm)⟩ hdoubles
  · exact absurd ⟨haction', hj' ▸ hj, fun heq => hs (hj' ▸ heq.symm)⟩ hdoubles
  · exact hs''.symm

lemma holds_one (hk : PublicKey.fromHex c.validator = .ok k)
    (h : applyToKeys (ValidatorSet.byHex V.validators) [c] = .ok keys) :
    Holds keys V' ↔ ¬Doubles V c k ∧ ∀ j, j ∈ V'.validators ↔
      c.action = .ADD ∧ j = k ∨ j.toHex ≠ c.validator ∧ j ∈ V.validators := by
  simp only [← exists_get?_one hk h]
  constructor
  · rintro ⟨hmem, hunique⟩
    refine ⟨?_, hmem⟩
    rintro ⟨haction, hkV, hne⟩
    exact hne (hunique _ _ k ((get?_one hk h).mpr (.inl ⟨haction, rfl, rfl⟩))
      ((get?_one hk h).mpr (.inr ⟨hne.symm, rfl, hkV⟩)))
  · rintro ⟨hdoubles, hmem⟩
    exact ⟨hmem, unique_one hk h hdoubles⟩

/-- What `apply_changes` makes of one change. -/
lemma applyChanges_one (hk : PublicKey.fromHex c.validator = .ok k) :
    applyChanges V [c] = .ok V' ↔ ¬Doubles V c k ∧ ∀ j, j ∈ V'.validators ↔
      c.action = .ADD ∧ j = k ∨ j.toHex ≠ c.validator ∧ j ∈ V.validators := by
  obtain ⟨keys, hkeys⟩ := exists_applyToKeys_one (V := V) hk
  rw [applyChanges_eq_ok, ← holds_one hk hkeys]
  constructor
  · rintro ⟨keys', hkeys', hholds⟩
    rw [hkeys] at hkeys'
    cases hkeys'
    exact hholds
  · exact fun hholds => ⟨keys, hkeys, hholds⟩

lemma ValidatorSet.new_ne_emptyError (l : List PublicKey) : ValidatorSet.new l ≠ .error emptyError := by
  unfold ValidatorSet.new emptyError
  split_ifs <;> simp

/-- It raises if nobody is left. -/
lemma applyChanges_one_error (hk : PublicKey.fromHex c.validator = .ok k) :
    applyChanges V [c] = .error emptyError ↔
      c.action = .REMOVE ∧ ∀ j ∈ V.validators, j.toHex = c.validator := by
  obtain ⟨keys, hkeys⟩ := exists_applyToKeys_one (V := V) hk
  have hraises : applyChanges V [c] = .error emptyError ↔ keys.len = 0 := by
    simp only [applyChanges, hkeys, bind, Except.bind]
    split_ifs with hlen
    · exact iff_of_true rfl hlen
    · exact iff_of_false (ValidatorSet.new_ne_emptyError _) hlen
  have hempty : keys.len = 0 ↔ ∀ j, ¬∃ s, keys.get? s = some j := by
    simp only [Dict.get?_eq_some, Dict.len, List.length_eq_zero_iff, List.eq_nil_iff_forall_not_mem,
      Prod.forall, not_exists]
    exact forall_comm
  simp only [hraises, hempty, exists_get?_one hk hkeys, not_or, not_and]
  constructor
  · intro h
    refine ⟨?_, fun j hj => by_contra fun hne => (h j).2 hne hj⟩
    cases haction : c.action with
    | ADD => exact absurd rfl ((h k).1 haction)
    | REMOVE => rfl
  · rintro ⟨haction, hall⟩ j
    refine ⟨fun hadd => ?_, fun hne hj => hne (hall j hj)⟩
    rw [haction] at hadd
    cases hadd

/-- A change that adds no member twice is applied or empties the set. -/
lemma applyChanges_one_total (hk : PublicKey.fromHex c.validator = .ok k) (hdoubles : ¬Doubles V c k) :
    applyChanges V [c] = .error emptyError ∨ ∃ V', applyChanges V [c] = .ok V' := by
  obtain ⟨keys, hkeys⟩ := exists_applyToKeys_one (V := V) hk
  have hunique : keys.values.Nodup := nodup_values.mpr (unique_one hk hkeys hdoubles)
  simp only [applyChanges, hkeys, bind, Except.bind]
  split_ifs with hlen
  · exact .inl rfl
  · have hne : keys.values ≠ [] := fun hnil => hlen (by simpa [Dict.values, Dict.len] using hnil)
    exact .inr (ValidatorSet.exists_new hne hunique)

/-- Exactly the membership of the key is changed. -/
def Flips (V V' : ValidatorSet) (k : PublicKey) : Prop :=
  (k ∈ V'.validators ↔ k ∉ V.validators) ∧ ∀ j ≠ k, j ∈ V'.validators ↔ j ∈ V.validators

/-- If the text of the change names a member, it is the member's own spelling. -/
def Spelled (V : ValidatorSet) (c : ValidatorChange) : Prop :=
  ∀ k, PublicKey.fromHex c.validator = .ok k → k ∈ V.validators → c.validator = k.toHex

/-- A text of another key is not the spelling of this one. -/
lemma toHex_ne_of_fromHex (hk : PublicKey.fromHex c.validator = .ok k) {j : PublicKey} (hj : j ≠ k) :
    j.toHex ≠ c.validator := by
  intro heq
  rw [← heq, PublicKey.fromHex_toHex, Except.ok.injEq] at hk
  exact hj hk

/-- What the change does to its key, and to the others. -/
lemma mem_of_applyChanges_one (hk : PublicKey.fromHex c.validator = .ok k)
    (h : applyChanges V [c] = .ok V') :
    (k ∈ V'.validators ↔ c.action = .ADD ∨ k.toHex ≠ c.validator ∧ k ∈ V.validators) ∧
      ∀ j ≠ k, j ∈ V'.validators ↔ j ∈ V.validators := by
  have hmem := ((applyChanges_one hk).mp h).2
  refine ⟨by simp [hmem k], fun j hj => ?_⟩
  simp [hmem j, hj, toHex_ne_of_fromHex hk hj]

end

/-! ### What admission promises -/

namespace Node

/-- A change is effective just if it empties the set or changes the membership of its key, and otherwise it
leaves the set as it is. -/
def Reflects (n : Node) (c : ValidatorChange) : Prop :=
  (n.isEffective c = true ↔ ∃ k, PublicKey.fromHex c.validator = .ok k ∧
    (applyChanges n.active [c] = .error emptyError ∨
      ∃ V', applyChanges n.active [c] = .ok V' ∧ Flips n.active V' k)) ∧
  (n.isEffective c = false → ∀ k, PublicKey.fromHex c.validator = .ok k →
    ∃ V', applyChanges n.active [c] = .ok V' ∧ ∀ j, j ∈ V'.validators ↔ j ∈ n.active.validators)

variable {n : Node} {c : ValidatorChange} {k : PublicKey}

lemma isEffective_eq_true (hk : PublicKey.fromHex c.validator = .ok k) :
    n.isEffective c = true ↔ (c.action = .ADD ↔ k ∉ n.active.validators) := by
  unfold isEffective
  rw [hk, ← ValidatorSet.contains_iff, Bool.not_eq_true]
  cases c.action <;> simp

/-- A change of a key that is not a member, or is named by its own spelling, is applied as it says. -/
lemma applied (hk : PublicKey.fromHex c.validator = .ok k)
    (hspelled : k ∈ n.active.validators → c.validator = k.toHex) :
    applyChanges n.active [c] = .error emptyError ∧ c.action = .REMOVE ∧ k ∈ n.active.validators ∨
      ∃ V', applyChanges n.active [c] = .ok V' ∧ (k ∈ V'.validators ↔ c.action = .ADD) ∧
        ∀ j ≠ k, j ∈ V'.validators ↔ j ∈ n.active.validators := by
  rcases applyChanges_one_total hk fun h => h.2.2 (hspelled h.2.1) with herror | ⟨V', hV'⟩
  · obtain ⟨haction, hall⟩ := (applyChanges_one_error hk).mp herror
    obtain ⟨j, hj⟩ := List.exists_mem_of_ne_nil _ n.active.nonempty
    have hjk : j = k := by_contra fun hne => toHex_ne_of_fromHex hk hne (hall j hj)
    exact .inl ⟨herror, haction, hjk ▸ hj⟩
  · obtain ⟨hown, hothers⟩ := mem_of_applyChanges_one hk hV'
    refine .inr ⟨V', hV', ?_, hothers⟩
    rw [hown, or_iff_left]
    exact fun h => h.1 (hspelled h.2).symm

/-- An admitted change flips the membership of its key and a refused one leaves the set as it is, exactly if
the text of the change names no member or is the own spelling of the member. -/
theorem isEffective_iff (n : Node) (c : ValidatorChange) : n.Reflects c ↔ Spelled n.active c := by
  constructor
  · rintro ⟨heffective, hkept⟩ k hk hmem
    by_contra hne
    cases haction : c.action with
    | ADD =>
      -- refused, but the set with the key under both spellings is an error
      have hfalse : n.isEffective c = false := by
        simpa [haction, hmem] using isEffective_eq_true (n := n) hk
      obtain ⟨V', hV', -⟩ := hkept hfalse k hk
      exact ((applyChanges_one hk).mp hV').1 ⟨haction, hmem, hne⟩
    | REMOVE =>
      -- admitted, but the dictionary has the member under its own spelling
      have htrue : n.isEffective c = true := by
        simpa [haction, hmem] using isEffective_eq_true (n := n) hk
      obtain ⟨k', hk', herror | ⟨V', hV', hflips, -⟩⟩ := heffective.mp htrue
      · exact hne (((applyChanges_one_error hk).mp herror).2 k hmem).symm
      · rw [hk] at hk'
        cases hk'
        exact hflips.mp (((mem_of_applyChanges_one hk hV').1).mpr (.inr ⟨Ne.symm hne, hmem⟩)) hmem
  · intro hspelled
    cases hk : PublicKey.fromHex c.validator with
    | error e =>
      have hfalse : n.isEffective c = false := by simp [isEffective, hk]
      simp [Reflects, hfalse, hk]
    | ok k =>
      have heffective := isEffective_eq_true (n := n) hk
      rcases applied hk (hspelled k hk) with ⟨herror, haction, hmem⟩ | ⟨V', hV', hown, hothers⟩
      · have htrue : n.isEffective c = true := by simpa [haction, hmem] using heffective
        refine ⟨iff_of_true htrue ⟨k, hk, .inl herror⟩, fun hfalse => ?_⟩
        rw [htrue] at hfalse
        cases hfalse
      · refine ⟨?_, fun hfalse k' hk' => ⟨V', hV', fun j => ?_⟩⟩
        · rw [heffective, ← hown]
          constructor
          · exact fun hflips => ⟨k, hk, .inr ⟨V', hV', hflips, hothers⟩⟩
          · rintro ⟨k', hk', herror | ⟨V'', hV'', hflips, -⟩⟩
            · rw [hV'] at herror
              cases herror
            · rw [hk] at hk'
              rw [hV'] at hV''
              cases hk'
              cases hV''
              exact hflips
        · by_cases hj : j = k
          · rw [hj, hown]
            rw [← Bool.not_eq_true, heffective] at hfalse
            tauto
          · exact hothers j hj

/-- The only validator, named in capital letters: removing it is admitted and removes nobody, and adding it is
refused as changing nothing, but would raise. -/
theorem removed_in_capitals :
    let n : Node := ⟨seedKey 0xaa, .single, [], .null, fun i => i, none, [], [], [], [], none, [], []⟩
    let text := str "AAAAAAAAAAAAAAAAAAAAAAAAAAAAAAAAAAAAAAAAAAAAAAAAAAAAAAAAAAAAAAAA"
    (n.isEffective ⟨.REMOVE, text⟩ = true ∧
      (applyChanges n.active [⟨.REMOVE, text⟩]).map (·.validators) = .ok n.active.validators) ∧
    (n.isEffective ⟨.ADD, text⟩ = false ∧
      (applyChanges n.active [⟨.ADD, text⟩]).map (·.validators) =
        .error (.valueError "duplicate validators in set")) ∧
    ¬n.Reflects ⟨.REMOVE, text⟩ := by
  intro n text
  have htrue : n.isEffective ⟨.REMOVE, text⟩ = true := by decide +kernel
  have hsame : (applyChanges n.active [⟨.REMOVE, text⟩]).map (·.validators) =
      .ok n.active.validators := by
    decide +kernel
  refine ⟨⟨htrue, hsame⟩, by decide +kernel, fun hreflects => ?_⟩
  obtain ⟨k, -, herror | ⟨V', hV', hflips, -⟩⟩ := hreflects.1.mp htrue
  · rw [herror] at hsame
    cases hsame
  · rw [hV'] at hsame
    have hvalidators : V'.validators = n.active.validators := Except.ok.inj hsame
    rw [hvalidators] at hflips
    exact iff_not_self hflips

end Node

end Helix
