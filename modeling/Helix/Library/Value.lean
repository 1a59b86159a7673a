import Helix.Library.Dict
import Helix.Library.Json
import Mathlib.Data.List.Forall2
import Mathlib.Data.List.Perm.Subperm
import Mathlib.Data.Rat.Cast.Order

/-!
# JSON values as Python has them

The values that `json.loads` gives and `json.dumps` takes: `None`, booleans, integers, finite floats, strings,
lists and dictionaries. Python's `==` compares numbers by what they are worth, so `True == 1 == 1.0` and
`0.0 == -0.0`, while the canonical text of a value shows its type. Two values have one text if and only if
they are equal and of one type throughout (`Value.dumps_eq_iff`).
-/

namespace Helix

/-- The characters of a number: digits, signs, the point and the exponent's letter. -/
def CodePoint.isNumeral (c : CodePoint) : Bool :=
  c.isNumeric || c.val = 0x2B || c.val = 0x2E || c.val = 0x65

/-- Finite floating-point numbers: what they are worth, and their `repr`. Only zero comes twice, and no
float is written like an integer. -/
class PyFloat (F : Type) where
  value : F → ℚ
  repr : F → PyStr
  eq_of_value : ∀ x y, value x = value y → value x ≠ 0 → x = y
  repr_injective : Function.Injective repr
  repr_numeral : ∀ x, ∀ c ∈ repr x, CodePoint.isNumeral c = true
  repr_fraction : ∀ x, ∃ c ∈ repr x, CodePoint.isNumeric c = false

/-- A JSON value. -/
inductive Value (F : Type) where
  | null
  | bool (b : Bool)
  | int (n : ℤ)
  | float (x : F)
  | str (s : PyStr)
  | list (l : List (Value F))
  | dict (items : List (PyStr × Value F))

namespace Value

variable {F : Type}

/-- Induction over the parts of a value. -/
@[elab_as_elim]
theorem parts {P : Value F → Prop} (null : P null) (bool : ∀ b, P (bool b)) (int : ∀ n, P (int n))
    (float : ∀ x, P (float x)) (str : ∀ s, P (str s)) (list : ∀ l, (∀ v ∈ l, P v) → P (list l))
    (dict : ∀ items, (∀ p ∈ items, P p.2) → P (dict items)) : ∀ v, P v
  | .null => null
  | .bool b => bool b
  | .int n => int n
  | .float x => float x
  | .str s => str s
  | .list l => list l fun v _ => parts null bool int float str list dict v
  | .dict items => dict items fun p _ => parts null bool int float str list dict p.2
termination_by v => sizeOf v
decreasing_by
  · have := List.sizeOf_lt_of_mem ‹v ∈ l›
    simp only [Value.list.sizeOf_spec]
    omega
  · have := List.sizeOf_lt_of_mem ‹p ∈ items›
    obtain ⟨k, v⟩ := p
    simp only [Prod.mk.sizeOf_spec] at this
    simp only [Value.dict.sizeOf_spec]
    omega

/-- The keys of every dictionary in the value are distinct. -/
inductive Wf : Value F → Prop
  | null : Wf null
  | bool (b : Bool) : Wf (bool b)
  | int (n : ℤ) : Wf (int n)
  | float (x : F) : Wf (float x)
  | str (s : PyStr) : Wf (str s)
  | list {l : List (Value F)} (h : ∀ v ∈ l, Wf v) : Wf (list l)
  | dict {items : List (PyStr × Value F)} (hkeys : (items.map Prod.fst).Nodup)
      (h : ∀ p ∈ items, Wf p.2) : Wf (dict items)

/-- `d.get(key)`. -/
def lookup (items : List (PyStr × Value F)) (key : PyStr) : Option (Value F) :=
  (items.find? fun p => p.1 = key).map Prod.snd

/-! ### Comparing values -/

section

variable (scalar : Value F → Value F → Bool)

mutual

/-- The values agree: lists one element after the other, dictionaries key by key, and the rest as given. -/
def agree : Value F → Value F → Bool
  | list l, w =>
    match w with
    | list m => agreeList l m
    | _ => false
  | dict items, w =>
    match w with
    | dict items' => items.length = items'.length && agreeItems items items'
    | _ => false
  | null, w => scalar null w
  | bool b, w => scalar (bool b) w
  | int n, w => scalar (int n) w
  | float x, w => scalar (float x) w
  | str s, w => scalar (str s) w

def agreeList : List (Value F) → List (Value F) → Bool
  | [], [] => true
  | v :: l, w :: m => agree v w && agreeList l m
  | _, _ => false

/-- Every key of the first dictionary has a value in the second one that agrees. -/
def agreeItems : List (PyStr × Value F) → List (PyStr × Value F) → Bool
  | [], _ => true
  | (key, v) :: items, items' =>
    (match lookup items' key with
      | some w => agree v w
      | none => false) && agreeItems items items'

end

variable {scalar}

lemma agreeList_iff {l m : List (Value F)} :
    agreeList scalar l m = true ↔ List.Forall₂ (fun v w => agree scalar v w = true) l m := by
  induction l generalizing m with
  | nil => cases m <;> simp [agreeList]
  | cons v l ih => cases m <;> simp [agreeList, ih]

lemma agreeItems_iff {items items' : List (PyStr × Value F)} :
    agreeItems scalar items items' = true ↔
      ∀ p ∈ items, ∃ w, lookup items' p.1 = some w ∧ agree scalar p.2 w = true := by
  induction items with
  | nil => simp [agreeItems]
  | cons p items ih =>
    obtain ⟨key, v⟩ := p
    rw [agreeItems, Bool.and_eq_true, ih, List.forall_mem_cons]
    refine and_congr_left fun _ => ?_
    cases lookup items' key <;> simp

lemma agree_list_iff {l : List (Value F)} {w : Value F} : agree scalar (list l) w = true ↔
    ∃ m, w = list m ∧ List.Forall₂ (fun v w => agree scalar v w = true) l m := by
  cases w <;> simp [agree, agreeList_iff]

lemma agree_dict_iff {items : List (PyStr × Value F)} {w : Value F} :
    agree scalar (dict items) w = true ↔ ∃ items', w = dict items' ∧ items.length = items'.length ∧
      ∀ p ∈ items, ∃ w, lookup items' p.1 = some w ∧ agree scalar p.2 w = true := by
  cases w <;> simp [agree, agreeItems_iff]

/-- Two comparisons agree if and only if both do. -/
lemma agree_and_iff {scalar scalar' : Value F → Value F → Bool} {v w : Value F} :
    agree (fun v w => scalar v w && scalar' v w) v w = true ↔
      agree scalar v w = true ∧ agree scalar' v w = true := by
  induction v using parts generalizing w with
  | list l ih =>
    have hlist : ∀ m, agreeList (fun v w => scalar v w && scalar' v w) l m = true ↔
        agreeList scalar l m = true ∧ agreeList scalar' l m = true := by
      induction l with
      | nil => intro m; cases m <;> simp [agreeList]
      | cons v l ihl =>
        intro m
        have htail := ihl fun v hv => ih v (List.mem_cons_of_mem _ hv)
        cases m with
        | nil => simp [agreeList]
        | cons w m =>
          simp only [agreeList, Bool.and_eq_true, ih v List.mem_cons_self, htail]
          tauto
    cases w <;> simp [agree, hlist]
  | dict items ih =>
    have hitems : ∀ items', agreeItems (fun v w => scalar v w && scalar' v w) items items' = true ↔
        agreeItems scalar items items' = true ∧ agreeItems scalar' items items' = true := by
      intro items'
      simp only [agreeItems_iff]
      constructor
      · refine fun h => ⟨fun p hp => ?_, fun p hp => ?_⟩
        · obtain ⟨w, hw, hagree⟩ := h p hp
          exact ⟨w, hw, ((ih p hp).mp hagree).1⟩
        · obtain ⟨w, hw, hagree⟩ := h p hp
          exact ⟨w, hw, ((ih p hp).mp hagree).2⟩
      · rintro ⟨h, h'⟩ p hp
        obtain ⟨w, hw, hagree⟩ := h p hp
        obtain ⟨w', hw', hagree'⟩ := h' p hp
        rw [hw] at hw'
        cases hw'
        exact ⟨w, hw, (ih p hp).mpr ⟨hagree, hagree'⟩⟩
    cases w <;> simp [agree, hitems]
    tauto
  | _ => simp [agree]

end

/-! ### What the comparisons are of -/

section

variable [PyFloat F]

/-- What a number is worth; booleans are numbers. -/
def num : Value F → Option ℚ
  | bool b => some (if b then 1 else 0)
  | int n => some n
  | float x => some (PyFloat.value x)
  | _ => none

/-- `==` on values that are no containers. -/
def eqScalar (v w : Value F) : Bool :=
  match v, w with
  | null, null => true
  | str s, str t => s = t
  | _, _ => v.num.isSome && v.num = w.num

/-- `v == w`. -/
def eq (v w : Value F) : Bool := agree eqScalar v w

variable [DecidableEq F]

/-- Values of one type, and zeros of one sign. -/
def alikeScalar : Value F → Value F → Bool
  | null, null => true
  | bool _, bool _ => true
  | int _, int _ => true
  | float x, float y => PyFloat.value x ≠ 0 || x = y
  | str _, str _ => true
  | _, _ => false

/-- Values of one type throughout. -/
def alike (v w : Value F) : Bool := agree alikeScalar v w

/-- Values that are equal and of one type throughout. -/
def same (v w : Value F) : Bool := agree (fun v w => eqScalar v w && alikeScalar v w) v w

lemma same_iff {v w : Value F} : v.same w = true ↔ v.eq w = true ∧ v.alike w = true := agree_and_iff

/-- Values that are no containers are the same if they are identical. -/
lemma sameScalar_iff {v w : Value F} (hlist : ∀ l, v ≠ list l) (hdict : ∀ items, v ≠ dict items) :
    (eqScalar v w && alikeScalar v w) = true ↔ v = w := by
  rw [Bool.and_eq_true]
  cases v with
  | list l => exact absurd rfl (hlist l)
  | dict items => exact absurd rfl (hdict items)
  | null => cases w <;> simp [eqScalar, alikeScalar, num]
  | bool b =>
    cases w with
    | bool b' => cases b <;> cases b' <;> simp [eqScalar, alikeScalar, num]
    | _ => simp [alikeScalar]
  | int n => cases w <;> simp [eqScalar, alikeScalar, num]
  | float x =>
    cases w with
    | float y =>
      simp only [eqScalar, alikeScalar, num, Option.isSome_some, Option.some.injEq, Bool.true_and,
        Bool.or_eq_true, decide_eq_true_eq, float.injEq]
      constructor
      · rintro ⟨hvalue, hne | rfl⟩
        · exact PyFloat.eq_of_value x y hvalue hne
        · rfl
      · rintro rfl
        exact ⟨rfl, .inr rfl⟩
    | _ => simp [alikeScalar]
  | str s => cases w <;> simp [eqScalar, alikeScalar, num]

/-! ### The canonical text -/

mutual

/-- `json.dumps(v, sort_keys=True, separators=(",", ":"), ensure_ascii=False)`. -/
def dumps : Value F → PyStr
  | null => Helix.str "null"
  | bool b => if b then Helix.str "true" else Helix.str "false"
  | int n => intRepr n
  | float x => PyFloat.repr x
  | str s => Json.quote s
  | list l => Helix.str "[" ++ (Helix.str ",").intercalate (dumpsList l) ++ Helix.str "]"
  | dict items => Helix.str "\x7b" ++ (Helix.str ",").intercalate
      (((dumpsItems items).insertionSort fun p q => p.1 ≤ q.1).map Prod.snd) ++ Helix.str "\x7d"

def dumpsList : List (Value F) → List PyStr
  | [] => []
  | v :: l => dumps v :: dumpsList l

/-- The texts of the items, with their keys. -/
def dumpsItems : List (PyStr × Value F) → List (PyStr × PyStr)
  | [] => []
  | (key, v) :: items => (key, Json.quote key ++ Helix.str ":" ++ dumps v) :: dumpsItems items

end

omit [DecidableEq F] in
lemma dumpsList_eq (l : List (Value F)) : dumpsList l = l.map dumps := by
  induction l with
  | nil => rfl
  | cons v l ih => rw [dumpsList, ih, List.map_cons]

/-- One `"key":value` item. -/
def item (p : PyStr × Value F) : PyStr := Json.quote p.1 ++ Helix.str ":" ++ dumps p.2

/-- The items in the order of their keys. -/
def sorted (items : List (PyStr × Value F)) : List (PyStr × Value F) :=
  items.insertionSort fun p q => p.1 ≤ q.1

omit [DecidableEq F] in
lemma dumpsItems_eq (items : List (PyStr × Value F)) :
    dumpsItems items = items.map fun p => (p.1, item p) := by
  induction items with
  | nil => rfl
  | cons p items ih => rw [dumpsItems, ih, List.map_cons, item]

omit [DecidableEq F] in
lemma dumps_dict (items : List (PyStr × Value F)) : dumps (dict items) =
    Helix.str "\x7b" ++ (Helix.str ",").intercalate ((sorted items).map item) ++ Helix.str "\x7d" := by
  have hsort : (dumpsItems items).insertionSort (fun p q => p.1 ≤ q.1) =
      (sorted items).map fun p => (p.1, item p) := by
    rw [dumpsItems_eq, sorted]
    exact (List.map_insertionSort (fun p q : PyStr × Value F => p.1 ≤ q.1)
      (fun p q : PyStr × PyStr => p.1 ≤ q.1) (fun p => (p.1, item p)) items fun _ _ _ _ => Iff.rfl).symm
  rw [dumps, hsort, List.map_map]
  rfl

omit [DecidableEq F] in
lemma dumps_list (l : List (Value F)) : dumps (list l) =
    Helix.str "[" ++ (Helix.str ",").intercalate (l.map dumps) ++ Helix.str "]" := by
  rw [dumps, dumpsList_eq]

/-! ### Equal values of one type have one text -/

omit [PyFloat F] [DecidableEq F] in
lemma lookup_eq_some {items : List (PyStr × Value F)} (hkeys : (items.map Prod.fst).Nodup)
    {key : PyStr} {v : Value F} : lookup items key = some v ↔ (key, v) ∈ items :=
  @Dict.get?_eq_some _ _ _ ⟨items, hkeys⟩ _ _

omit [PyFloat F] [DecidableEq F] in
lemma sorted_perm (items : List (PyStr × Value F)) : (sorted items).Perm items :=
  List.perm_insertionSort _ _

omit [PyFloat F] [DecidableEq F] in
/-- The keys come in increasing order, whatever the order of the items. -/
lemma sorted_keys_eq {items items' : List (PyStr × Value F)}
    (hperm : (items.map Prod.fst).Perm (items'.map Prod.fst)) :
    (sorted items).map Prod.fst = (sorted items').map Prod.fst := by
  have hsorted : ∀ items : List (PyStr × Value F),
      ((sorted items).map Prod.fst).Pairwise fun k k' => k ≤ k' := by
    intro items
    have : Std.Total fun p q : PyStr × Value F => p.1 ≤ q.1 := ⟨fun p q => le_total p.1 q.1⟩
    have : IsTrans (PyStr × Value F) fun p q => p.1 ≤ q.1 := ⟨fun _ _ _ => le_trans⟩
    exact List.pairwise_map.mpr (List.pairwise_insertionSort _ _)
  have hkeys : ((sorted items).map Prod.fst).Perm ((sorted items').map Prod.fst) :=
    (((sorted_perm items).map _).trans hperm).trans ((sorted_perm items').map _).symm
  exact hkeys.eq_of_pairwise (fun _ _ _ _ => le_antisymm) (hsorted items) (hsorted items')

omit [PyFloat F] [DecidableEq F] in
/-- Two dictionaries agree key by key if their items agree one after the other in the order of the keys. -/
lemma forall₂_sorted_iff {items items' : List (PyStr × Value F)} {R : Value F → Value F → Prop}
    (hkeys : (items.map Prod.fst).Nodup) (hkeys' : (items'.map Prod.fst).Nodup) :
    List.Forall₂ (fun p q => p.1 = q.1 ∧ R p.2 q.2) (sorted items) (sorted items') ↔
      items.length = items'.length ∧ ∀ p ∈ items, ∃ w, lookup items' p.1 = some w ∧ R p.2 w := by
  have hforall₂ : ∀ l l' : List (PyStr × Value F), l.map Prod.fst = l'.map Prod.fst →
      (∀ p ∈ l, ∀ q ∈ l', p.1 = q.1 → R p.2 q.2) →
        List.Forall₂ (fun p q => p.1 = q.1 ∧ R p.2 q.2) l l' := by
    intro l
    induction l with
    | nil =>
      intro l' hfst _
      cases l' with
      | nil => exact .nil
      | cons q l' => cases hfst
    | cons p l ih =>
      intro l' hfst hR
      cases l' with
      | nil => cases hfst
      | cons q l' =>
        obtain ⟨hpq, hfst⟩ := List.cons.inj hfst
        refine .cons ⟨hpq, hR p List.mem_cons_self q List.mem_cons_self hpq⟩ (ih l' hfst ?_)
        exact fun p hp q hq => hR p (List.mem_cons_of_mem _ hp) q (List.mem_cons_of_mem _ hq)
  have hmem : ∀ l l' : List (PyStr × Value F),
      List.Forall₂ (fun p q => p.1 = q.1 ∧ R p.2 q.2) l l' →
        ∀ p ∈ l, ∃ q ∈ l', p.1 = q.1 ∧ R p.2 q.2 := by
    intro l l' h
    induction h with
    | nil => exact fun p hp => by cases hp
    | cons hpq _ ih =>
      intro p hp
      rcases List.mem_cons.mp hp with rfl | hp
      · exact ⟨_, List.mem_cons_self, hpq⟩
      · obtain ⟨q, hq, hpq⟩ := ih p hp
        exact ⟨q, List.mem_cons_of_mem _ hq, hpq⟩
  constructor
  · intro h
    refine ⟨?_, fun p hp => ?_⟩
    · rw [← (sorted_perm items).length_eq, h.length_eq, (sorted_perm items').length_eq]
    · obtain ⟨q, hq, hpq, hR⟩ := hmem _ _ h p ((sorted_perm items).mem_iff.mpr hp)
      refine ⟨q.2, (lookup_eq_some hkeys').mpr ?_, hR⟩
      rw [hpq]
      exact (sorted_perm items').mem_iff.mp hq
  · rintro ⟨hlength, h⟩
    have hsubset : items.map Prod.fst ⊆ items'.map Prod.fst := by
      intro key hkey
      obtain ⟨p, hp, rfl⟩ := List.mem_map.mp hkey
      obtain ⟨w, hw, -⟩ := h p hp
      exact List.mem_map.mpr ⟨_, (lookup_eq_some hkeys').mp hw, rfl⟩
    have hperm : (items.map Prod.fst).Perm (items'.map Prod.fst) :=
      (List.subperm_of_subset hkeys hsubset).perm_of_length_le (by simp [hlength])
    refine hforall₂ _ _ (sorted_keys_eq hperm) fun p hp q hq hpq => ?_
    obtain ⟨w, hw, hR⟩ := h p ((sorted_perm items).mem_iff.mp hp)
    rw [hpq] at hw
    have hqmem : lookup items' q.1 = some q.2 :=
      (lookup_eq_some hkeys').mpr ((sorted_perm items').mem_iff.mp hq)
    rw [hqmem] at hw
    cases hw
    exact hR

omit [PyFloat F] [DecidableEq F] in
lemma map_eq_of_forall₂ {α β γ : Type} {R : α → β → Prop} {f : α → γ} {g : β → γ} {l : List α} {m : List β}
    (h : List.Forall₂ R l m) (hR : ∀ a ∈ l, ∀ b ∈ m, R a b → f a = g b) : l.map f = m.map g := by
  induction h with
  | nil => rfl
  | cons hab _ ih =>
    rw [List.map_cons, List.map_cons, hR _ List.mem_cons_self _ List.mem_cons_self hab,
      ih fun a ha b hb => hR a (List.mem_cons_of_mem _ ha) b (List.mem_cons_of_mem _ hb)]

/-- Values that are the same have one text. -/
lemma dumps_eq_of_same {v w : Value F} (hv : v.Wf) (hw : w.Wf) (h : v.same w = true) :
    dumps v = dumps w := by
  induction v using parts generalizing w with
  | list l ih =>
    obtain ⟨m, rfl, hm⟩ := agree_list_iff.mp h
    cases hv with | list hl
    cases hw with | list hm'
    rw [dumps_list, dumps_list, map_eq_of_forall₂ hm fun v hv w hw => ih v hv (hl v hv) (hm' w hw)]
  | dict items ih =>
    obtain ⟨items', rfl, hitems⟩ := agree_dict_iff.mp h
    cases hv with | dict hkeys hl
    cases hw with | dict hkeys' hl'
    have hsorted := (forall₂_sorted_iff (R := fun v w => v.same w = true) hkeys hkeys').mpr hitems
    rw [dumps_dict, dumps_dict, map_eq_of_forall₂ hsorted]
    intro p hp q hq hpq
    have hp := (sorted_perm items).mem_iff.mp hp
    have hq := (sorted_perm items').mem_iff.mp hq
    rw [item, item, hpq.1, ih p hp (hl p hp) (hl' q hq) hpq.2]
  | _ => rw [(sameScalar_iff (by simp) (by simp)).mp h]

end

/-! ### Reading a text back -/

/-- No number goes on in the text. -/
abbrev Ends (r : PyStr) : Prop := Json.Stops CodePoint.isNumeral r

section

variable [PyFloat F]

/-- The kind of a value that a text begins with. -/
def tag (c : CodePoint) : ℕ :=
  if c.val = 0x6E then 0
  else if c.val = 0x74 then 1
  else if c.val = 0x66 then 2
  else if c.val = 0x22 then 3
  else if c.val = 0x5B then 4
  else if c.val = 0x7B then 5
  else if c.isNumeral then 6
  else 7

/-- The kind of a value. -/
def kind : Value F → ℕ
  | null => 0
  | bool true => 1
  | bool false => 2
  | str _ => 3
  | list _ => 4
  | dict _ => 5
  | int _ => 6
  | float _ => 6

lemma tag_numeral {c : CodePoint} (hc : c.isNumeral = true) : tag c = 6 := by
  unfold tag
  rw [if_pos hc]
  simp only [CodePoint.isNumeral, CodePoint.isNumeric, Bool.or_eq_true, decide_eq_true_eq,
    Bool.and_eq_true] at hc
  split_ifs <;> omega

lemma isNumeral_of_mem_intRepr {n : ℤ} {c : CodePoint} (hc : c ∈ intRepr n) : c.isNumeral = true := by
  simp [CodePoint.isNumeral, intRepr_numeric hc]

lemma repr_ne_nil (x : F) : PyFloat.repr x ≠ [] := by
  obtain ⟨c, hc, -⟩ := PyFloat.repr_fraction x
  exact List.ne_nil_of_mem hc

/-- The first character of the text tells the kind of the value. -/
lemma exists_head (v : Value F) (r : PyStr) : ∃ x xs, dumps v ++ r = x :: xs ∧ tag x = v.kind := by
  have hnumeral : ∀ s : PyStr, s ≠ [] → (∀ c ∈ s, CodePoint.isNumeral c = true) →
      ∃ x xs, s ++ r = x :: xs ∧ tag x = 6 := by
    intro s hne hs
    obtain ⟨x, xs, rfl⟩ := List.exists_cons_of_ne_nil hne
    exact ⟨x, xs ++ r, rfl, tag_numeral (hs x List.mem_cons_self)⟩
  cases v with
  | null => exact ⟨.ofNat 0x6E, _, rfl, rfl⟩
  | bool b =>
    cases b with
    | true => exact ⟨.ofNat 0x74, _, rfl, rfl⟩
    | false => exact ⟨.ofNat 0x66, _, rfl, rfl⟩
  | int n => exact hnumeral _ (intRepr_ne_nil n) fun c hc => isNumeral_of_mem_intRepr hc
  | float x => exact hnumeral _ (repr_ne_nil x) (PyFloat.repr_numeral x)
  | str s => exact ⟨.ofNat 0x22, _, rfl, rfl⟩
  | list l => exact ⟨.ofNat 0x5B, _, rfl, rfl⟩
  | dict items => exact ⟨.ofNat 0x7B, _, rfl, rfl⟩

/-- Values with one text in front are of one kind. -/
lemma kind_eq {v w : Value F} {r r' : PyStr} (h : dumps v ++ r = dumps w ++ r') : v.kind = w.kind := by
  obtain ⟨x, xs, hx, htag⟩ := exists_head v r
  obtain ⟨y, ys, hy, htag'⟩ := exists_head w r'
  have hxy : x = y := (List.cons.inj (hx.symm.trans (h.trans hy))).1
  rw [← htag, ← htag', hxy]

/-- Numbers can be read off the front of a text. -/
lemma number_append_injective {v w : Value F} (hv : v.kind = 6) {r r' : PyStr} (hr : Ends r)
    (hr' : Ends r') (h : dumps v ++ r = dumps w ++ r') : v = w ∧ r = r' := by
  have hw : w.kind = 6 := (kind_eq h).symm.trans hv
  have hnumeral : ∀ v : Value F, v.kind = 6 → ∀ c ∈ dumps v, CodePoint.isNumeral c = true := by
    intro v hv
    cases v with
    | int n => exact fun c hc => isNumeral_of_mem_intRepr hc
    | float x => exact PyFloat.repr_numeral x
    | bool b => cases b <;> simp [kind] at hv
    | _ => simp [kind] at hv
  have hmixed : ∀ (n : ℤ) (x : F), intRepr n ≠ PyFloat.repr x := by
    intro n x heq
    obtain ⟨c, hc, hfalse⟩ := PyFloat.repr_fraction x
    rw [← heq] at hc
    rw [intRepr_numeric hc] at hfalse
    cases hfalse
  obtain ⟨htext, hrest⟩ := Json.span_append_injective (hnumeral v hv) (hnumeral w hw) hr hr' h
  refine ⟨?_, hrest⟩
  cases v with
  | int m =>
    cases w with
    | int n => rw [intRepr_injective htext]
    | float y => exact absurd htext (hmixed m y)
    | bool b => cases b <;> simp [kind] at hw
    | _ => simp [kind] at hw
  | float x =>
    cases w with
    | int n => exact absurd htext.symm (hmixed n x)
    | float y => rw [PyFloat.repr_injective htext]
    | bool b => cases b <;> simp [kind] at hw
    | _ => simp [kind] at hw
  | bool b => cases b <;> simp [kind] at hv
  | _ => simp [kind] at hv

variable [DecidableEq F]

/-- A value that is no container is the same as itself. -/
lemma same_refl_scalar {v : Value F} (hlist : v.kind ≠ 4) (hdict : v.kind ≠ 5) : v.same v = true := by
  have hscalar := (sameScalar_iff (v := v) (w := v) (fun l hl => hlist (by rw [hl]; rfl))
    fun items hitems => hdict (by rw [hitems]; rfl)).mpr rfl
  cases v with
  | list l => exact absurd rfl hlist
  | dict items => exact absurd rfl hdict
  | _ => exact hscalar

omit [DecidableEq F] in
/-- No value's text begins with the mark that closes a container. -/
lemma head_ne_close {close : CodePoint} (hclose : tag close = 7) (v : Value F) (r : PyStr) :
    ∃ x xs, dumps v ++ r = x :: xs ∧ x ≠ close := by
  obtain ⟨x, xs, hx, htag⟩ := exists_head v r
  refine ⟨x, xs, hx, fun heq => ?_⟩
  rw [heq, hclose] at htag
  cases v with
  | bool b => cases b <;> cases htag
  | _ => cases htag

/-- A value can be read off the front of a text, up to the order of items. -/
lemma same_of_dumps_append {v w : Value F} (hv : v.Wf) (hw : w.Wf) {r r' : PyStr} (hr : Ends r)
    (hr' : Ends r') (h : dumps v ++ r = dumps w ++ r') : v.same w = true ∧ r = r' := by
  have hkind := kind_eq h
  induction v using parts generalizing w r r' with
  | null =>
    cases w with
    | null => exact ⟨same_refl_scalar (by simp [kind]) (by simp [kind]), List.append_cancel_left h⟩
    | bool b => cases b <;> simp [kind] at hkind
    | _ => simp [kind] at hkind
  | bool b =>
    have hbool : w = bool b := by
      cases w with
      | bool b' => cases b <;> cases b' <;> simp_all [kind]
      | _ => cases b <;> simp [kind] at hkind
    subst hbool
    refine ⟨same_refl_scalar ?_ ?_, List.append_cancel_left h⟩
    · cases b <;> simp [kind]
    · cases b <;> simp [kind]
  | int n =>
    obtain ⟨rfl, hrest⟩ := number_append_injective rfl hr hr' h
    exact ⟨same_refl_scalar (by simp [kind]) (by simp [kind]), hrest⟩
  | float x =>
    obtain ⟨rfl, hrest⟩ := number_append_injective rfl hr hr' h
    exact ⟨same_refl_scalar (by simp [kind]) (by simp [kind]), hrest⟩
  | str s =>
    cases w with
    | str t =>
      obtain ⟨rfl, hrest⟩ := Json.quote_append_injective h
      exact ⟨same_refl_scalar (by simp [kind]) (by simp [kind]), hrest⟩
    | bool b => cases b <;> simp [kind] at hkind
    | _ => simp [kind] at hkind
  | list l ih =>
    cases w with
    | list m =>
      cases hv with | list hl
      cases hw with | list hm
      have hbracket : Helix.str "]" = [(.ofNat 0x5D : CodePoint)] := by decide
      simp only [dumps_list, List.append_assoc, hbracket, List.singleton_append] at h
      obtain ⟨hall, hrest⟩ := Json.forall₂_of_intercalate (P := Wf) (by decide) (by decide) (by decide)
        (head_ne_close (by decide))
        (fun v hv w hw r r' hr hr' h => ih v hv (hl v hv) hw hr hr' h (kind_eq h)) hm
        (List.append_cancel_left h)
      exact ⟨agree_list_iff.mpr ⟨m, rfl, hall⟩, hrest⟩
    | bool b => cases b <;> simp [kind] at hkind
    | _ => simp [kind] at hkind
  | dict items ih =>
    cases w with
    | dict items' =>
      cases hv with | dict hkeys hl
      cases hw with | dict hkeys' hl'
      have hbrace : Helix.str "\x7d" = [(.ofNat 0x7D : CodePoint)] := by decide
      simp only [dumps_dict, List.append_assoc, hbrace, List.singleton_append] at h
      have hread : ∀ p ∈ sorted items, ∀ q : PyStr × Value F, q.2.Wf → ∀ r r', Ends r → Ends r' →
          item p ++ r = item q ++ r' → (p.1 = q.1 ∧ p.2.same q.2 = true) ∧ r = r' := by
        intro p hp q hq r r' hr hr' h
        have hp := (sorted_perm items).mem_iff.mp hp
        simp only [item, List.append_assoc] at h
        obtain ⟨hkey, h⟩ := Json.quote_append_injective h
        have h := List.append_cancel_left h
        obtain ⟨hsame, hrest⟩ := ih p hp (hl p hp) hq hr hr' h (kind_eq h)
        exact ⟨⟨hkey, hsame⟩, hrest⟩
      have hhead : ∀ (p : PyStr × Value F) u, ∃ x xs, item p ++ u = x :: xs ∧ x ≠ .ofNat 0x7D :=
        fun p u => ⟨.ofNat 0x22, _, rfl, by decide⟩
      obtain ⟨hall, hrest⟩ := Json.forall₂_of_intercalate (P := fun p : PyStr × Value F => p.2.Wf) (by decide)
        (by decide) (by decide) hhead hread (fun q hq => hl' q ((sorted_perm items').mem_iff.mp hq))
        (List.append_cancel_left h)
      refine ⟨agree_dict_iff.mpr ⟨items', rfl, ?_⟩, hrest⟩
      exact (forall₂_sorted_iff (R := fun v w => v.same w = true) hkeys hkeys').mp hall
    | bool b => cases b <;> simp [kind] at hkind
    | _ => simp [kind] at hkind

/-- Two values have one canonical text if and only if they are equal and of one type throughout. -/
theorem dumps_eq_iff {v w : Value F} (hv : v.Wf) (hw : w.Wf) :
    dumps v = dumps w ↔ v.eq w = true ∧ v.alike w = true := by
  have hends : Ends [] := fun c hc => by cases hc
  rw [← same_iff]
  refine ⟨fun h => ?_, dumps_eq_of_same hv hw⟩
  exact (same_of_dumps_append hv hw hends hends (congrArg (· ++ []) h)).1

end

/-! ### Texts that can be encoded -/

/-- The string stands in the value, as a key or by itself. -/
inductive Mentions (s : PyStr) : Value F → Prop
  | str : Mentions s (str s)
  | element {l : List (Value F)} {v : Value F} (hv : v ∈ l) (h : Mentions s v) : Mentions s (list l)
  | key {items : List (PyStr × Value F)} {v : Value F} (hv : (s, v) ∈ items) : Mentions s (dict items)
  | item {items : List (PyStr × Value F)} {p : PyStr × Value F} (hp : p ∈ items)
      (h : Mentions s p.2) : Mentions s (dict items)

variable [PyFloat F]

/-- A surrogate in a string of the value gets into its text. -/
lemma mem_dumps_of_mentions {v : Value F} {s : PyStr} {c : CodePoint} (h : v.Mentions s) (hc : c ∈ s)
    (hsurrogate : c.isSurrogate = true) : c ∈ dumps v := by
  induction h with
  | str => exact Json.mem_quote_of_isSurrogate hc hsurrogate
  | element hv _ ih =>
    rw [dumps_list]
    refine List.mem_append_left _ (List.mem_append_right _ ?_)
    exact Json.mem_intercalate_of_mem (List.mem_map_of_mem hv) ih
  | key hv =>
    rw [dumps_dict]
    refine List.mem_append_left _ (List.mem_append_right _ ?_)
    refine Json.mem_intercalate_of_mem (List.mem_map_of_mem ((sorted_perm _).mem_iff.mpr hv)) ?_
    refine List.mem_append_left _ (List.mem_append_left _ ?_)
    exact Json.mem_quote_of_isSurrogate hc hsurrogate
  | item hp _ ih =>
    rw [dumps_dict]
    refine List.mem_append_left _ (List.mem_append_right _ ?_)
    refine Json.mem_intercalate_of_mem (List.mem_map_of_mem ((sorted_perm _).mem_iff.mpr hp)) ?_
    exact List.mem_append_right _ ih

lemma isSurrogate_of_isNumeral {c : CodePoint} (hc : c.isNumeral = true) : c.isSurrogate = false := by
  simp only [CodePoint.isNumeral, CodePoint.isNumeric, Bool.or_eq_true, decide_eq_true_eq,
    Bool.and_eq_true] at hc
  simp only [CodePoint.isSurrogate, Bool.and_eq_false_iff, decide_eq_false_iff_not]
  omega

/-- Without surrogates in its strings the text of a value has none. -/
lemma dumps_not_surrogate {v : Value F} (hv : ∀ s, v.Mentions s → ∀ c ∈ s, CodePoint.isSurrogate c = false)
    {c : CodePoint} (hc : c ∈ dumps v) : c.isSurrogate = false := by
  induction v using parts with
  | null => exact str_not_surrogate hc
  | bool b => cases b <;> exact str_not_surrogate hc
  | int n => exact intRepr_not_surrogate hc
  | float x => exact isSurrogate_of_isNumeral (PyFloat.repr_numeral x c hc)
  | str s => exact Json.quote_not_surrogate (hv s .str) hc
  | list l ih =>
    rw [dumps_list] at hc
    rcases List.mem_append.mp hc with hc | hc
    · rcases List.mem_append.mp hc with hc | hc
      · exact str_not_surrogate hc
      · rcases Json.mem_intercalate hc with hc | ⟨t, ht, hc⟩
        · exact str_not_surrogate hc
        · obtain ⟨v, hvl, rfl⟩ := List.mem_map.mp ht
          exact ih v hvl (fun s hs => hv s (.element hvl hs)) hc
    · exact str_not_surrogate hc
  | dict items ih =>
    rw [dumps_dict] at hc
    rcases List.mem_append.mp hc with hc | hc
    · rcases List.mem_append.mp hc with hc | hc
      · exact str_not_surrogate hc
      · rcases Json.mem_intercalate hc with hc | ⟨t, ht, hc⟩
        · exact str_not_surrogate hc
        · obtain ⟨p, hp, rfl⟩ := List.mem_map.mp ht
          have hp := (sorted_perm items).mem_iff.mp hp
          rcases List.mem_append.mp hc with hc | hc
          · rcases List.mem_append.mp hc with hc | hc
            · exact Json.quote_not_surrogate (hv p.1 (.key hp)) hc
            · exact str_not_surrogate hc
          · exact ih p hp (fun s hs => hv s (.item hp hs)) hc
    · exact str_not_surrogate hc

/-- The text of a value can be encoded if and only if its strings can. -/
theorem exists_encode_dumps_iff {v : Value F} :
    (∃ b, encode (dumps v) = .ok b) ↔ ∀ s, v.Mentions s → ∃ b, encode s = .ok b := by
  simp only [encode_ok_iff]
  constructor
  · intro h s hs c hc
    by_contra hsurrogate
    have hmem := mem_dumps_of_mentions hs hc (Bool.not_eq_false _ ▸ hsurrogate)
    exact hsurrogate (h c hmem)
  · exact fun h c hc => dumps_not_surrogate h hc

end Value

/-! ### The two zeros

Floats enough to run the model on concrete values. -/

inductive ZeroFloat where
  | plus
  | minus
  deriving DecidableEq

instance : PyFloat ZeroFloat where
  value _ := 0
  repr
    | .plus => str "0.0"
    | .minus => str "-0.0"
  eq_of_value _ _ _ h := absurd rfl h
  repr_injective := by
    intro x y h
    cases x <;> cases y <;> first | rfl | exact absurd h (by decide)
  repr_numeral := by
    intro x
    cases x <;> exact List.all_eq_true.mp rfl
  repr_fraction := by
    intro x
    cases x <;> exact ⟨.ofNat 0x2E, by decide, rfl⟩

end Helix
