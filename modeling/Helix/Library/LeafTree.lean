import Mathlib.Data.List.Infix
import Mathlib.Data.List.Forall2
import Mathlib.Logic.Relation
import Mathlib.Tactic.Ring

/-!
# Complete trees over a list of leaves

The leaves are paired up level by level, and a level with an odd number of trees repeats its last one
before it is paired up. The tree that is left in the end is complete, so its fringe determines it
(`ofList_eq_iff`). The fringe is the list of leaves with parts of its end repeated (`regrows_fill`).
-/

namespace Helix

open Relation (ReflTransGen)

/-! ### Repeating a part of the end -/

/-- The list with a part of its end written once more. -/
inductive Regrows {α : Type*} : List α → List α → Prop
  | intro {l t : List α} (h : t <:+ l) : Regrows l (l ++ t)

namespace Regrows

variable {α β : Type*} {l l' : List α}

lemma mem_iff (h : ReflTransGen Regrows l l') (a : α) : a ∈ l ↔ a ∈ l' := by
  induction h with
  | refl => exact Iff.rfl
  | tail _ hstep ih =>
    obtain ⟨ht⟩ := hstep
    rw [ih, List.mem_append]
    exact ⟨Or.inl, fun h => h.elim id fun ha => ht.subset ha⟩

lemma filterMap (f : α → Option β) (h : ReflTransGen Regrows l l') :
    ReflTransGen Regrows (l.filterMap f) (l'.filterMap f) := by
  induction h with
  | refl => exact .refl
  | tail _ hstep ih =>
    obtain ⟨ht⟩ := hstep
    rw [List.filterMap_append]
    exact ih.tail ⟨ht.filterMap f⟩

/-- What corresponds to a list element by element corresponds to the list with its end repeated. -/
lemma exists_forall₂ {R : β → α → Prop} {m : List β} (h : ReflTransGen Regrows l l')
    (hm : List.Forall₂ R m l) : ∃ m', ReflTransGen Regrows m m' ∧ List.Forall₂ R m' l' := by
  induction h with
  | refl => exact ⟨m, .refl, hm⟩
  | tail _ hstep ih =>
    obtain ⟨m₁, hgrown, hm₁⟩ := ih
    obtain ⟨p, t⟩ := hstep
    obtain ⟨p, rfl⟩ := t
    have hdrop := List.forall₂_drop p.length hm₁
    rw [List.drop_left] at hdrop
    exact ⟨_, hgrown.tail ⟨m₁.drop_suffix p.length⟩, List.rel_append hm₁ hdrop⟩

end Regrows

/-! ### Trees -/

/-- A binary tree with its data at the leaves. -/
inductive LeafTree (α : Type*)
  | leaf (a : α)
  | node (l r : LeafTree α)

namespace LeafTree

variable {α : Type*} {d d' : ℕ} {t t' : LeafTree α} {level : List (LeafTree α)} {fuel : ℕ}

/-- The leaves from left to right. -/
def fringe : LeafTree α → List α
  | leaf a => [a]
  | node l r => l.fringe ++ r.fringe

/-- All leaves are at depth `d`. -/
inductive Complete : ℕ → LeafTree α → Prop
  | leaf (a : α) : Complete 0 (leaf a)
  | node {d : ℕ} {l r : LeafTree α} (hl : Complete d l) (hr : Complete d r) :
      Complete (d + 1) (node l r)

lemma Complete.length_fringe (h : Complete d t) : t.fringe.length = 2 ^ d := by
  induction h with
  | leaf a => rfl
  | node _ _ ihl ihr =>
    rw [fringe, List.length_append, ihl, ihr]
    ring

/-- A complete tree is determined by its fringe. -/
lemma Complete.eq_of_fringe (h : Complete d t) (h' : Complete d' t') (heq : t.fringe = t'.fringe) :
    t = t' := by
  have hdepth : d = d' := by
    have hlength := congrArg List.length heq
    rw [h.length_fringe, h'.length_fringe] at hlength
    exact Nat.pow_right_injective le_rfl hlength
  subst hdepth
  induction h generalizing t' with
  | leaf a =>
    cases h' with
    | leaf b => rw [(List.cons.inj heq).1]
  | node hl hr ihl ihr =>
    cases h' with
    | node hl' hr' =>
      obtain ⟨hleft, hright⟩ := List.append_inj heq (hl.length_fringe.trans hl'.length_fringe.symm)
      rw [ihl hleft hl', ihr hright hr']

/-! ### Levels -/

/-- Repeat the last tree of an odd level. -/
def pad (level : List (LeafTree α)) : List (LeafTree α) :=
  if level.length % 2 = 1 then level ++ level.getLast?.toList else level

/-- Pair up the trees of an even level. -/
def pair : List (LeafTree α) → List (LeafTree α)
  | l :: r :: rest => node l r :: pair rest
  | _ => []

/-- The tree that is left when a level was paired up often enough. -/
def combine : ℕ → List (LeafTree α) → Option (LeafTree α)
  | 0, level => level.head?
  | fuel + 1, level => if level.length > 1 then combine fuel (pair (pad level)) else level.head?

/-- The tree over a list of leaves. -/
def ofList (ls : List α) : Option (LeafTree α) := combine ls.length (ls.map leaf)

/-- The leaves of the tree over a list. -/
def fill (ls : List α) : List α := ((ofList ls).map fringe).getD []

lemma length_pad (level : List (LeafTree α)) : (pad level).length = level.length + level.length % 2 := by
  unfold pad
  split_ifs with hodd
  · cases hlast : level.getLast? with
    | none =>
      rw [List.getLast?_eq_none_iff.mp hlast] at hodd
      cases hodd
    | some t => simp [hodd]
  · omega

lemma length_pair : ∀ level : List (LeafTree α), (pair level).length = level.length / 2
  | [] => by simp [pair]
  | [_] => by simp [pair]
  | _ :: _ :: rest => by
    simp only [pair, List.length_cons, length_pair rest]
    omega

lemma length_pair_pad_lt (h : level.length > 1) :
    0 < (pair (pad level)).length ∧ (pair (pad level)).length < level.length := by
  rw [length_pair, length_pad]
  omega

lemma mem_of_mem_pad (h : t ∈ pad level) : t ∈ level := by
  unfold pad at h
  split_ifs at h
  · rcases List.mem_append.mp h with h | h
    · exact h
    · exact List.mem_of_getLast? (Option.mem_toList.mp h)
  · exact h

/-- The trees of the next level are nodes over trees of the level. -/
lemma exists_of_mem_pair (h : t ∈ pair level) : ∃ l ∈ level, ∃ r ∈ level, t = node l r := by
  induction level using pair.induct with
  | case1 l r rest ih =>
    rcases List.mem_cons.mp h with rfl | h
    · exact ⟨l, by simp, r, by simp, rfl⟩
    · obtain ⟨l', hl', r', hr', heq⟩ := ih h
      exact ⟨l', by simp [hl'], r', by simp [hr'], heq⟩
  | case2 level hshort =>
    rw [pair] at h
    · cases h
    · exact hshort

lemma exists_combine (hpos : 0 < level.length) : ∃ t, combine fuel level = some t := by
  have hhead : 0 < level.length → ∃ t, level.head? = some t := fun h =>
    ⟨level.head (List.ne_nil_of_length_pos h), List.head?_eq_some_head _⟩
  induction fuel generalizing level with
  | zero => exact hhead hpos
  | succ fuel ih =>
    rw [combine]
    split_ifs with hlen
    · have hnext := (length_pair_pad_lt hlen).1
      exact ih hnext fun _ => ⟨_, List.head?_eq_some_head (List.ne_nil_of_length_pos hnext)⟩
    · exact hhead hpos

lemma complete_combine (hlevel : ∀ t ∈ level, Complete d t) (h : combine fuel level = some t) :
    ∃ d', Complete d' t := by
  induction fuel generalizing level d with
  | zero => exact ⟨d, hlevel t (List.mem_of_head? h)⟩
  | succ fuel ih =>
    rw [combine] at h
    split_ifs at h
    · refine ih (d := d + 1) (fun t ht => ?_) h
      obtain ⟨l, hl, r, hr, rfl⟩ := exists_of_mem_pair ht
      exact .node (hlevel l (mem_of_mem_pad hl)) (hlevel r (mem_of_mem_pad hr))
    · exact ⟨d, hlevel t (List.mem_of_head? h)⟩

/-! ### Fringes -/

lemma flatMap_fringe_pair (heven : level.length % 2 = 0) :
    (pair level).flatMap fringe = level.flatMap fringe := by
  induction level using pair.induct with
  | case1 l r rest ih =>
    simp only [List.length_cons] at heven
    simp only [pair, List.flatMap_cons, fringe, List.append_assoc]
    rw [ih (by omega)]
  | case2 level hshort =>
    rcases level with _ | ⟨l, _ | ⟨r, rest⟩⟩
    · rfl
    · simp at heven
    · exact absurd rfl (hshort l r rest)

lemma regrows_pad (level : List (LeafTree α)) :
    ReflTransGen Regrows (level.flatMap fringe) ((pad level).flatMap fringe) := by
  unfold pad
  split_ifs
  · rw [List.flatMap_append]
    refine .single ⟨?_⟩
    rcases List.eq_nil_or_concat level with rfl | ⟨init, t, rfl⟩
    · exact List.suffix_rfl
    · simp [List.flatMap_append]
  · exact .refl

lemma regrows_combine (hfuel : level.length ≤ fuel + 1) (h : combine fuel level = some t) :
    ReflTransGen Regrows (level.flatMap fringe) t.fringe := by
  have hone : level.length ≤ 1 → level.head? = some t → level.flatMap fringe = t.fringe := by
    intro hle hhead
    obtain ⟨rest, rfl⟩ := List.head?_eq_some_iff.mp hhead
    simp only [List.length_cons] at hle
    rw [List.length_eq_zero_iff.mp (show rest.length = 0 by omega)]
    simp
  induction fuel generalizing level with
  | zero => rw [hone hfuel h]
  | succ fuel ih =>
    rw [combine] at h
    split_ifs at h with hlen
    · have hnext := length_pair_pad_lt hlen
      refine (regrows_pad level).trans ?_
      rw [← flatMap_fringe_pair (by rw [length_pad]; omega)]
      refine ih (by omega) h fun hle hhead => ?_
      obtain ⟨rest, heq⟩ := List.head?_eq_some_iff.mp hhead
      rw [heq, List.length_cons] at hle
      rw [heq, List.length_eq_zero_iff.mp (show rest.length = 0 by omega)]
      simp
    · rw [hone (by omega) h]

/-! ### The tree over a list -/

lemma ofList_eq_none {ls : List α} : ofList ls = none ↔ ls = [] := by
  constructor
  · intro h
    by_contra hne
    obtain ⟨t, ht⟩ : ∃ t, combine ls.length (ls.map leaf) = some t := exists_combine
      (by simpa using List.length_pos_iff.mpr hne)
    rw [ofList, ht] at h
    cases h
  · rintro rfl
    rfl

lemma complete_ofList {ls : List α} (h : ofList ls = some t) : ∃ d, Complete d t := by
  refine complete_combine (d := 0) (fun t ht => ?_) h
  obtain ⟨a, -, rfl⟩ := List.mem_map.mp ht
  exact .leaf a

/-- The leaves of the tree are those of the list, with parts of the end repeated. -/
theorem regrows_fill (ls : List α) : ReflTransGen Regrows ls (fill ls) := by
  unfold fill
  cases h : ofList ls with
  | none =>
    rw [ofList_eq_none.mp h]
    exact .refl
  | some t =>
    have hgrown := regrows_combine (by simp) h
    rwa [List.flatMap_map, show (fun a : α => fringe (leaf a)) = fun a => [a] from rfl,
      List.flatMap_singleton'] at hgrown

/-- Two lists have the same tree when the leaves of their trees are the same. -/
theorem ofList_eq_iff {ls ls' : List α} : ofList ls = ofList ls' ↔ fill ls = fill ls' := by
  refine ⟨fun h => by rw [fill, fill, h], fun h => ?_⟩
  have hfringe : ∀ {ls : List α} {t}, ofList ls = some t → t.fringe ≠ [] := by
    intro ls t ht hnil
    obtain ⟨d, hd⟩ := complete_ofList ht
    have hlength := hd.length_fringe
    rw [hnil, List.length_nil] at hlength
    exact absurd hlength (pow_pos two_pos d).ne
  unfold fill at h
  cases ht : ofList ls with
  | none =>
    cases ht' : ofList ls' with
    | none => rfl
    | some t' =>
      rw [ht, ht'] at h
      exact absurd h.symm (hfringe ht')
  | some t =>
    cases ht' : ofList ls' with
    | none =>
      rw [ht, ht'] at h
      exact absurd h (hfringe ht)
    | some t' =>
      rw [ht, ht'] at h
      obtain ⟨d, hd⟩ := complete_ofList ht
      obtain ⟨d', hd'⟩ := complete_ofList ht'
      rw [hd.eq_of_fringe hd' h]

end LeafTree

end Helix
