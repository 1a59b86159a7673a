import Mathlib.Data.List.Nodup
import Mathlib.Data.Finset.Card
import Mathlib.Data.List.Dedup

/-!
# Insertion-ordered dictionaries

A finite map that remembers the order in which its keys were first bound. Rebinding a key keeps
its place, binding a new key appends it. The list of bindings carries the proof that no key is
bound twice, so the length of a dictionary is the number of its distinct keys.
-/

namespace Helix

/-- A dictionary: its bindings in insertion order, no key bound twice. -/
structure Dict (κ ν : Type*) where
  items : List (κ × ν)
  nodup : (items.map Prod.fst).Nodup

namespace Dict

variable {κ ν : Type*}

/-- The dictionary without bindings. -/
def empty : Dict κ ν := ⟨[], List.nodup_nil⟩

/-- The keys, in insertion order. -/
def keys (d : Dict κ ν) : List κ := d.items.map Prod.fst

/-- The values, in the order of their keys. -/
def values (d : Dict κ ν) : List ν := d.items.map Prod.snd

/-- The number of bindings. -/
def len (d : Dict κ ν) : ℕ := d.items.length

@[simp] lemma keys_empty : (empty : Dict κ ν).keys = [] := rfl

@[simp] lemma len_empty : (empty : Dict κ ν).len = 0 := rfl

lemma keys_nodup (d : Dict κ ν) : d.keys.Nodup := d.nodup

lemma length_keys (d : Dict κ ν) : d.keys.length = d.len := by simp [keys, len]

lemma mem_keys {d : Dict κ ν} {k : κ} : k ∈ d.keys ↔ ∃ v, (k, v) ∈ d.items := by
  simp [keys]

lemma mem_values {d : Dict κ ν} {v : ν} : v ∈ d.values ↔ ∃ k, (k, v) ∈ d.items := by
  simp [values]

/-- A key has one value. -/
lemma eq_of_mem_items {d : Dict κ ν} {k : κ} {v w : ν} (hv : (k, v) ∈ d.items)
    (hw : (k, w) ∈ d.items) : v = w := by
  have hinj := List.inj_on_of_nodup_map d.nodup hv hw rfl
  exact (Prod.mk.inj hinj).2

variable [DecidableEq κ]

/-- The value bound to `k`. -/
def get? (d : Dict κ ν) (k : κ) : Option ν := (d.items.find? fun p => p.1 = k).map Prod.snd

lemma get?_eq_some {d : Dict κ ν} {k : κ} {v : ν} : d.get? k = some v ↔ (k, v) ∈ d.items := by
  constructor
  · intro h
    obtain ⟨⟨k', v'⟩, hp, rfl⟩ := Option.map_eq_some_iff.mp h
    have hk : k' = k := by simpa using List.find?_some hp
    exact hk ▸ List.mem_of_find?_eq_some hp
  · intro h
    obtain ⟨⟨k', v'⟩, hp⟩ : ∃ p, d.items.find? (fun p => p.1 = k) = some p := by
      rw [← Option.isSome_iff_exists, List.find?_isSome]
      exact ⟨_, h, by simp⟩
    have hk : k' = k := by simpa using List.find?_some hp
    subst hk
    rw [get?, hp, Option.map_some, eq_of_mem_items (List.mem_of_find?_eq_some hp) h]

@[simp] lemma get?_empty (k : κ) : (empty : Dict κ ν).get? k = none := rfl

lemma get?_eq_none {d : Dict κ ν} {k : κ} : d.get? k = none ↔ k ∉ d.keys := by
  rw [mem_keys]
  constructor
  · rintro h ⟨v, hv⟩
    rw [get?_eq_some.mpr hv] at h
    cases h
  · intro h
    by_contra hne
    obtain ⟨v, hv⟩ := Option.ne_none_iff_exists'.mp hne
    exact h ⟨v, get?_eq_some.mp hv⟩

/-- Rebind `k` in place, or append it. -/
def setItems (k : κ) (v : ν) : List (κ × ν) → List (κ × ν)
  | [] => [(k, v)]
  | p :: ps => if p.1 = k then (k, v) :: ps else p :: setItems k v ps

lemma mem_setItems {k : κ} {v : ν} {l : List (κ × ν)} {p : κ × ν} (h : p ∈ setItems k v l) :
    p = (k, v) ∨ p ∈ l := by
  induction l with
  | nil => exact Or.inl (by simpa [setItems] using h)
  | cons q qs ih =>
    rw [setItems] at h
    split_ifs at h with hq
    · rcases List.mem_cons.mp h with rfl | h
      · exact Or.inl rfl
      · exact Or.inr (List.mem_cons_of_mem _ h)
    · rcases List.mem_cons.mp h with rfl | h
      · exact Or.inr List.mem_cons_self
      · exact (ih h).imp_right (List.mem_cons_of_mem _)

lemma mem_setItems_self (k : κ) (v : ν) (l : List (κ × ν)) : (k, v) ∈ setItems k v l := by
  induction l with
  | nil => simp [setItems]
  | cons q qs ih =>
    rw [setItems]
    split_ifs with hq
    · exact List.mem_cons_self
    · exact List.mem_cons_of_mem _ ih

lemma mem_setItems_of_ne {k : κ} {v : ν} {l : List (κ × ν)} {p : κ × ν} (hp : p ∈ l)
    (hk : p.1 ≠ k) : p ∈ setItems k v l := by
  induction l with
  | nil => cases hp
  | cons q qs ih =>
    rw [setItems]
    split_ifs with hq
    · rcases List.mem_cons.mp hp with rfl | hp
      · exact absurd hq hk
      · exact List.mem_cons_of_mem _ hp
    · rcases List.mem_cons.mp hp with rfl | hp
      · exact List.mem_cons_self
      · exact List.mem_cons_of_mem _ (ih hp)

lemma nodup_setItems {k : κ} {v : ν} {l : List (κ × ν)} (hl : (l.map Prod.fst).Nodup) :
    ((setItems k v l).map Prod.fst).Nodup := by
  induction l with
  | nil => simp [setItems]
  | cons q qs ih =>
    rw [List.map_cons, List.nodup_cons] at hl
    rw [setItems]
    split_ifs with hq
    · rw [List.map_cons, List.nodup_cons]
      exact ⟨hq ▸ hl.1, hl.2⟩
    · rw [List.map_cons, List.nodup_cons]
      refine ⟨fun hmem => ?_, ih hl.2⟩
      obtain ⟨p, hp, hpq⟩ := List.mem_map.mp hmem
      rcases mem_setItems hp with rfl | hp
      · exact hq hpq.symm
      · exact hl.1 (List.mem_map.mpr ⟨p, hp, hpq⟩)

/-- `d[k] = v`. -/
def set (d : Dict κ ν) (k : κ) (v : ν) : Dict κ ν :=
  ⟨setItems k v d.items, nodup_setItems d.nodup⟩

lemma mem_items_set {d : Dict κ ν} {k : κ} {v : ν} {p : κ × ν} :
    p ∈ (d.set k v).items ↔ p = (k, v) ∨ p ∈ d.items ∧ p.1 ≠ k := by
  constructor
  · intro h
    obtain ⟨j, w⟩ := p
    by_cases hk : j = k
    · subst hk
      have hw : w = v := eq_of_mem_items (d := d.set j v) h (mem_setItems_self j v d.items)
      exact Or.inl (hw ▸ rfl)
    · rcases mem_setItems h with hp | hp
      · exact absurd (Prod.mk.inj hp).1 hk
      · exact Or.inr ⟨hp, hk⟩
  · rintro (rfl | ⟨hp, hk⟩)
    · exact mem_setItems_self k v d.items
    · exact mem_setItems_of_ne hp hk

lemma get?_set (d : Dict κ ν) (k k' : κ) (v : ν) :
    (d.set k v).get? k' = if k' = k then some v else d.get? k' := by
  split_ifs with hk
  · subst hk
    exact get?_eq_some.mpr (mem_items_set.mpr (Or.inl rfl))
  · ext w
    rw [get?_eq_some, get?_eq_some, mem_items_set]
    constructor
    · rintro (h | h)
      · exact absurd (Prod.mk.inj h).1 hk
      · exact h.1
    · exact fun h => Or.inr ⟨h, hk⟩

lemma get?_set_of_ne (d : Dict κ ν) {k k' : κ} (v : ν) (h : k' ≠ k) :
    (d.set k v).get? k' = d.get? k' := by
  simp [get?_set, h]

lemma mem_keys_set {d : Dict κ ν} {k k' : κ} {v : ν} :
    k' ∈ (d.set k v).keys ↔ k' = k ∨ k' ∈ d.keys := by
  simp only [mem_keys, mem_items_set, Prod.mk.injEq]
  constructor
  · rintro ⟨w, ⟨rfl, -⟩ | ⟨h, -⟩⟩
    · exact Or.inl rfl
    · exact Or.inr ⟨w, h⟩
  · rintro (rfl | ⟨w, h⟩)
    · exact ⟨v, Or.inl ⟨rfl, rfl⟩⟩
    · by_cases hk : k' = k
      · exact ⟨v, Or.inl ⟨hk, rfl⟩⟩
      · exact ⟨w, Or.inr ⟨h, hk⟩⟩

/-- The number of bindings is the number of keys. -/
lemma len_eq_card (d : Dict κ ν) : d.len = d.keys.toFinset.card := by
  rw [List.toFinset_card_of_nodup d.keys_nodup, length_keys]

/-- `d.pop(k, None)`. -/
def pop (d : Dict κ ν) (k : κ) : Dict κ ν :=
  ⟨d.items.filter fun p => p.1 ≠ k, (List.filter_sublist.map Prod.fst).nodup d.nodup⟩

lemma get?_pop (d : Dict κ ν) (k k' : κ) :
    (d.pop k).get? k' = if k' = k then none else d.get? k' := by
  ext v
  rw [get?_eq_some, pop, List.mem_filter, ← get?_eq_some]
  split_ifs with hk
  · simp [hk]
  · simp [hk]

/-- A dictionary built from a list of bindings, later ones rebinding earlier ones. -/
def ofList (l : List (κ × ν)) : Dict κ ν := l.foldl (fun d p => d.set p.1 p.2) empty

lemma setItems_of_not_mem {k : κ} {v : ν} {l : List (κ × ν)} (hk : k ∉ l.map Prod.fst) :
    setItems k v l = l ++ [(k, v)] := by
  induction l with
  | nil => rfl
  | cons p l ih =>
    rw [List.map_cons, List.mem_cons, not_or] at hk
    rw [setItems, if_neg (Ne.symm hk.1), ih hk.2, List.cons_append]

/-- Bindings without a repeated key are kept as they are. -/
lemma items_ofList {l : List (κ × ν)} (hl : (l.map Prod.fst).Nodup) : (ofList l).items = l := by
  have hfold : ∀ (l : List (κ × ν)) (d : Dict κ ν), ((d.items ++ l).map Prod.fst).Nodup →
      (l.foldl (fun d p => d.set p.1 p.2) d).items = d.items ++ l := by
    intro l
    induction l with
    | nil => exact fun d _ => (List.append_nil _).symm
    | cons p l ih =>
      intro d hd
      have hp : p.1 ∉ d.items.map Prod.fst := by
        rw [List.map_append, List.map_cons] at hd
        exact fun hmem => (List.nodup_append.mp hd).2.2 _ hmem _ List.mem_cons_self rfl
      have hset : (d.set p.1 p.2).items = d.items ++ [p] := setItems_of_not_mem hp
      have happend : d.items ++ p :: l = (d.set p.1 p.2).items ++ l := by
        rw [hset, List.append_assoc, List.singleton_append]
      rw [happend] at hd ⊢
      exact ih _ hd
  exact hfold l empty hl

/-- A dictionary is rebuilt from its bindings. -/
lemma ofList_items (d : Dict κ ν) : ofList d.items = d := by
  have hitems := items_ofList d.nodup
  generalize ofList d.items = d' at hitems
  cases d
  cases d'
  cases hitems
  rfl

/-- The last binding of a key counts. -/
lemma get?_ofList (l : List (κ × ν)) (k : κ) :
    (ofList l).get? k = (l.reverse.find? fun p => p.1 = k).map Prod.snd := by
  induction l using List.reverseRecOn with
  | nil => rfl
  | append_singleton l p ih =>
    rw [ofList, List.foldl_append, ← ofList, List.foldl_cons, List.foldl_nil, get?_set,
      List.reverse_append, List.reverse_singleton, List.singleton_append, List.find?_cons]
    by_cases hk : p.1 = k
    · rw [if_pos hk.symm, decide_eq_true hk]
      rfl
    · rw [if_neg (Ne.symm hk), decide_eq_false hk, ih]

/-! ### Dictionaries of dictionaries -/

section Nested

variable {κ' : Type*}

/-- `d.get(k, {})`. -/
def getD (d : Dict κ (Dict κ' ν)) (k : κ) : Dict κ' ν := (d.get? k).getD empty

@[simp] lemma getD_empty (k : κ) : (empty : Dict κ (Dict κ' ν)).getD k = empty := rfl

/-- Only what is bound has bindings below it. -/
lemma mem_keys_of_mem_getD {d : Dict κ (Dict κ' ν)} {k : κ} {k' : κ'} (h : k' ∈ (d.getD k).keys) :
    k ∈ d.keys := by
  by_contra hnot
  rw [getD, get?_eq_none.mpr hnot] at h
  cases h

variable [DecidableEq κ']

/-- `d.setdefault(k, {})[k'] = v`. -/
def setIn (d : Dict κ (Dict κ' ν)) (k : κ) (k' : κ') (v : ν) : Dict κ (Dict κ' ν) :=
  d.set k ((d.getD k).set k' v)

lemma getD_setIn (d : Dict κ (Dict κ' ν)) (k j : κ) (k' : κ') (v : ν) :
    (d.setIn k k' v).getD j = if j = k then (d.getD k).set k' v else d.getD j := by
  unfold setIn
  rw [getD, get?_set]
  split_ifs with h
  · rfl
  · rfl

/-- What is stored under `j` after an update is the new value or was there before. -/
lemma mem_items_getD_setIn {d : Dict κ (Dict κ' ν)} {k j : κ} {k' : κ'} {v : ν} {p : κ' × ν}
    (h : p ∈ ((d.setIn k k' v).getD j).items) :
    (j = k ∧ p = (k', v)) ∨ p ∈ (d.getD j).items := by
  rw [getD_setIn] at h
  split_ifs at h with hj
  · subst hj
    rcases mem_items_set.mp h with rfl | h
    · exact Or.inl ⟨rfl, rfl⟩
    · exact Or.inr h.1
  · exact Or.inr h

lemma mem_keys_getD_setIn {d : Dict κ (Dict κ' ν)} {k j : κ} {k' i : κ'} {v : ν} :
    i ∈ ((d.setIn k k' v).getD j).keys ↔ (j = k ∧ i = k') ∨ i ∈ (d.getD j).keys := by
  rw [getD_setIn]
  split_ifs with hj
  · subst hj
    simp [mem_keys_set]
  · simp [hj]

/-- Setting a binding removes none. -/
lemma len_getD_le_setIn (d : Dict κ (Dict κ' ν)) (k j : κ) (k' : κ') (v : ν) :
    (d.getD j).len ≤ ((d.setIn k k' v).getD j).len := by
  rw [len_eq_card, len_eq_card]
  refine Finset.card_le_card fun i hi => List.mem_toFinset.mpr ?_
  exact mem_keys_getD_setIn.mpr (Or.inr (List.mem_toFinset.mp hi))

end Nested

end Dict

end Helix
