import Helix.Library.Text
import Mathlib.Data.List.Sort

/-!
# Canonical JSON of flat objects

`json.dumps(obj, sort_keys=True, separators=(",", ":"), ensure_ascii=False)` on objects whose
values are strings, integers or `null`. The text of a value can be read back from the left, which
is what makes two objects with the same keys and the same text equal.
-/

namespace Helix

/-- A JSON scalar. -/
inductive Json where
  | null
  | int (n : ℤ)
  | str (s : PyStr)
  deriving DecidableEq

namespace Json

/-- `ensure_ascii=False` escapes the quote, the backslash and the control characters only. -/
def escape (c : CodePoint) : PyStr :=
  if c.val = 0x22 then Helix.str "\\\""
  else if c.val = 0x5C then Helix.str "\\\\"
  else if c.val = 0x08 then Helix.str "\\b"
  else if c.val = 0x0C then Helix.str "\\f"
  else if c.val = 0x0A then Helix.str "\\n"
  else if c.val = 0x0D then Helix.str "\\r"
  else if c.val = 0x09 then Helix.str "\\t"
  else if c.val < 0x20 then
    Helix.str "\\u00" ++ [hexDigit (c.val / 16), hexDigit (c.val % 16)]
  else [c]

/-- A string between quotes. -/
def quote (s : PyStr) : PyStr := Helix.str "\"" ++ s.flatMap escape ++ Helix.str "\""

/-- The text of a scalar. -/
def dumps : Json → PyStr
  | null => Helix.str "null"
  | int n => intRepr n
  | str s => quote s

/-- One `"key":value` item. -/
def item (p : PyStr × Json) : PyStr := quote p.1 ++ Helix.str ":" ++ p.2.dumps

/-- The text of an object with the given items, keys in increasing order. -/
def dumpsDict (d : List (PyStr × Json)) : PyStr :=
  Helix.str "\x7b" ++
    (Helix.str ",").intercalate ((d.insertionSort fun p q => p.1 ≤ q.1).map item) ++
    Helix.str "\x7d"

/-! ### Reading a text back -/

/-- The character that an escape at the head of a text stands for, and the rest; `none` at the
closing quote. -/
def unescape : PyStr → Option (CodePoint × PyStr)
  | [] => none
  | c :: r =>
    if c.val = 0x22 then none
    else if c.val = 0x5C then
      match r with
      | d :: r =>
        if d.val = 0x22 then some (.ofNat 0x22, r)
        else if d.val = 0x5C then some (.ofNat 0x5C, r)
        else if d.val = 0x62 then some (.ofNat 0x08, r)
        else if d.val = 0x66 then some (.ofNat 0x0C, r)
        else if d.val = 0x6E then some (.ofNat 0x0A, r)
        else if d.val = 0x72 then some (.ofNat 0x0D, r)
        else if d.val = 0x74 then some (.ofNat 0x09, r)
        else
          match r with
          | _ :: _ :: x :: y :: r =>
            some (.ofNat (16 * (x.hexVal.getD 0) + y.hexVal.getD 0), r)
          | _ => none
      | [] => none
    else some (c, r)

lemma unescape_escape (c : CodePoint) (r : PyStr) : unescape (escape c ++ r) = some (c, r) := by
  obtain ⟨n, hn⟩ := c
  by_cases hlt : n < 0x20
  · rw [show (⟨n, hn⟩ : CodePoint) = Fin.ofNat _ n from Fin.ext (Nat.mod_eq_of_lt hn).symm]
    clear hn
    interval_cases n <;> rfl
  · by_cases h22 : n = 0x22
    · subst h22; rfl
    · by_cases h5c : n = 0x5C
      · subst h5c; rfl
      · have hesc : escape ⟨n, hn⟩ = [⟨n, hn⟩] := by
          simp only [escape]
          split_ifs <;> first | rfl | omega
        rw [hesc]
        simp only [List.cons_append, List.nil_append, unescape]
        rw [if_neg h22, if_neg h5c]

/-- A quoted string is delimited: it can be cut off the front of any text. -/
lemma quote_append_injective {s t r r' : PyStr} (h : quote s ++ r = quote t ++ r') :
    s = t ∧ r = r' := by
  have hq : Helix.str "\"" = [(Fin.ofNat _ 0x22 : CodePoint)] := by decide
  have hclose : ∀ u : PyStr, unescape (Helix.str "\"" ++ u) = none := fun u => rfl
  have hbody : s.flatMap escape ++ (Helix.str "\"" ++ r) =
      t.flatMap escape ++ (Helix.str "\"" ++ r') := by
    simpa [quote, hq] using h
  clear h
  induction s generalizing t with
  | nil =>
    cases t with
    | nil => exact ⟨rfl, by simpa [hq] using hbody⟩
    | cons d t =>
      have := congrArg unescape hbody
      rw [List.flatMap_cons, List.append_assoc, unescape_escape, List.flatMap_nil,
        List.nil_append, hclose] at this
      cases this
  | cons c s ih =>
    cases t with
    | nil =>
      have := congrArg unescape hbody
      rw [List.flatMap_cons, List.append_assoc, unescape_escape, List.flatMap_nil,
        List.nil_append, hclose] at this
      cases this
    | cons d t =>
      have hhead := congrArg unescape hbody
      rw [List.flatMap_cons, List.append_assoc, unescape_escape, List.flatMap_cons,
        List.append_assoc, unescape_escape, Option.some.injEq, Prod.mk.injEq] at hhead
      obtain ⟨hcd, hrest⟩ := hhead
      obtain ⟨hst, hr⟩ := ih hrest
      exact ⟨by rw [hcd, hst], hr⟩

/-! ### Cutting a text -/

/-- The text does not go on with a character of the kind. -/
def Stops (p : CodePoint → Bool) (r : PyStr) : Prop := ∀ c ∈ r.head?, p c = false

section

variable {p : CodePoint → Bool}

/-- Characters of one kind can be cut off up to where they stop. -/
lemma span_append_injective {s t r r' : PyStr} (hs : ∀ c ∈ s, p c = true) (ht : ∀ c ∈ t, p c = true)
    (hr : Stops p r) (hr' : Stops p r') (h : s ++ r = t ++ r') : s = t ∧ r = r' := by
  have hspan : ∀ s r : PyStr, (∀ c ∈ s, p c = true) → Stops p r → (s ++ r).takeWhile p = s := by
    intro s r hs hr
    rw [List.takeWhile_append_of_pos hs]
    cases r with
    | nil => simp
    | cons c r => rw [List.takeWhile_cons_of_neg (by simp [hr c rfl]), List.append_nil]
  have hst : s = t := by rw [← hspan s r hs hr, h, hspan t r' ht hr']
  subst hst
  exact ⟨rfl, List.append_cancel_left h⟩

variable {α : Type} (f : α → PyStr) (close : CodePoint) (r : PyStr)

/-- What follows an element of a sequence: further elements, or the end. -/
def following (l : List α) : PyStr := l.foldr (fun a t => .ofNat 0x2C :: (f a ++ t)) (close :: r)

lemma intercalate_eq_following (a : α) (l : List α) :
    (Helix.str ",").intercalate ((a :: l).map f) ++ close :: r = f a ++ following f close r l := by
  induction l generalizing a with
  | nil => simp [List.intercalate, following]
  | cons b l ih =>
    have hcons : (Helix.str ",").intercalate ((a :: b :: l).map f) =
        f a ++ (.ofNat 0x2C :: (Helix.str ",").intercalate ((b :: l).map f)) := by
      simp [List.intercalate, Helix.str]
    rw [hcons, List.append_assoc, List.cons_append, ih b]
    rfl

variable {f close r}

lemma stops_following (hcomma : p (.ofNat 0x2C) = false) (hclose : p close = false) (l : List α) :
    Stops p (following f close r l) := by
  cases l with
  | nil => exact fun c hc => by cases hc; exact hclose
  | cons a l => exact fun c hc => by cases hc; exact hcomma

/-- The elements of a sequence can be read off its text, one after the other. -/
lemma forall₂_of_intercalate {R : α → α → Prop} {P : α → Prop} {r' : PyStr} {l l' : List α}
    (hcomma : p (.ofNat 0x2C) = false) (hclose : p close = false) (hne : close ≠ .ofNat 0x2C)
    (hhead : ∀ a u, ∃ x xs, f a ++ u = x :: xs ∧ x ≠ close)
    (hread : ∀ a ∈ l, ∀ b, P b → ∀ r r', Stops p r → Stops p r' → f a ++ r = f b ++ r' → R a b ∧ r = r')
    (hl' : ∀ b ∈ l', P b)
    (h : (Helix.str ",").intercalate (l.map f) ++ close :: r =
      (Helix.str ",").intercalate (l'.map f) ++ close :: r') :
    List.Forall₂ R l l' ∧ r = r' := by
  have hrest : ∀ l l' : List α, (∀ a ∈ l, ∀ b, P b → ∀ r r', Stops p r → Stops p r' →
      f a ++ r = f b ++ r' → R a b ∧ r = r') → (∀ b ∈ l', P b) →
      following f close r l = following f close r' l' → List.Forall₂ R l l' ∧ r = r' := by
    intro l
    induction l with
    | nil =>
      intro l' _ _ h
      cases l' with
      | nil => exact ⟨.nil, (List.cons.inj h).2⟩
      | cons b l' => exact absurd (List.cons.inj h).1 hne
    | cons a l ih =>
      intro l' hread hl' h
      cases l' with
      | nil => exact absurd (List.cons.inj h).1.symm hne
      | cons b l' =>
        obtain ⟨hab, heq⟩ := hread a List.mem_cons_self b (hl' b List.mem_cons_self) _ _
          (stops_following hcomma hclose l) (stops_following hcomma hclose l') (List.cons.inj h).2
        obtain ⟨hall, hr⟩ := ih l' (fun a ha => hread a (List.mem_cons_of_mem _ ha))
          (fun b hb => hl' b (List.mem_cons_of_mem _ hb)) heq
        exact ⟨.cons hab hall, hr⟩
  have hempty : ∀ (a : α) (l : List α) (r r' : PyStr),
      close :: r' ≠ (Helix.str ",").intercalate ((a :: l).map f) ++ close :: r := by
    intro a l r r' heq
    obtain ⟨x, xs, hx, hne⟩ := hhead a (following f close r l)
    rw [intercalate_eq_following, hx] at heq
    exact hne (List.cons.inj heq).1.symm
  cases l with
  | nil =>
    cases l' with
    | nil => exact ⟨.nil, (List.cons.inj h).2⟩
    | cons b l' => exact absurd h (hempty b l' r' r)
  | cons a l =>
    cases l' with
    | nil => exact absurd h.symm (hempty a l r r')
    | cons b l' =>
      rw [intercalate_eq_following, intercalate_eq_following] at h
      obtain ⟨hab, heq⟩ := hread a List.mem_cons_self b (hl' b List.mem_cons_self) _ _
        (stops_following hcomma hclose l) (stops_following hcomma hclose l') h
      obtain ⟨hall, hr⟩ := hrest l l' (fun a ha => hread a (List.mem_cons_of_mem _ ha))
        (fun b hb => hl' b (List.mem_cons_of_mem _ hb)) heq
      exact ⟨.cons hab hall, hr⟩

end

/-! ### Objects -/

/-- The kind of a scalar. -/
def kind : Json → ℕ
  | null => 0
  | int _ => 1
  | str _ => 2

/-- The kind of a scalar that a text begins with. -/
def tag (c : CodePoint) : ℕ := if c.isNumeric then 1 else if c.val = 0x22 then 2 else 0

/-- The first character of the text tells the kind of the scalar. -/
lemma exists_head (v : Json) (r : PyStr) : ∃ x xs, v.dumps ++ r = x :: xs ∧ tag x = v.kind := by
  cases v with
  | null => exact ⟨.ofNat 0x6E, _, rfl, rfl⟩
  | int n =>
    obtain ⟨x, xs, hx⟩ := List.exists_cons_of_ne_nil (intRepr_ne_nil n)
    refine ⟨x, xs ++ r, by rw [dumps, hx, List.cons_append], ?_⟩
    rw [tag, if_pos (intRepr_numeric (hx ▸ List.mem_cons_self))]
    rfl
  | str s => exact ⟨.ofNat 0x22, _, rfl, rfl⟩

/-- A scalar can be cut off the front of a text, if no number goes on. -/
lemma dumps_append_injective {v w : Json} {r r' : PyStr} (hr : Stops CodePoint.isNumeric r)
    (hr' : Stops CodePoint.isNumeric r') (h : v.dumps ++ r = w.dumps ++ r') : v = w ∧ r = r' := by
  obtain ⟨x, xs, hx, htag⟩ := exists_head v r
  obtain ⟨y, ys, hy, htag'⟩ := exists_head w r'
  obtain rfl : x = y := (List.cons.inj (hx.symm.trans (h.trans hy))).1
  have hkind : v.kind = w.kind := htag.symm.trans htag'
  cases v with
  | null =>
    cases w with
    | null => exact ⟨rfl, List.append_cancel_left h⟩
    | int n => cases hkind
    | str t => cases hkind
  | int m =>
    cases w with
    | null => cases hkind
    | int n =>
      obtain ⟨hmn, hrest⟩ := span_append_injective (fun _ => intRepr_numeric) (fun _ => intRepr_numeric)
        hr hr' h
      exact ⟨congrArg _ (intRepr_injective hmn), hrest⟩
    | str t => cases hkind
  | str s =>
    cases w with
    | null => cases hkind
    | int n => cases hkind
    | str t =>
      obtain ⟨hst, hrest⟩ := quote_append_injective h
      exact ⟨congrArg _ hst, hrest⟩

lemma item_append_injective {a b : PyStr × Json} {r r' : PyStr} (hr : Stops CodePoint.isNumeric r)
    (hr' : Stops CodePoint.isNumeric r') (h : item a ++ r = item b ++ r') : a = b ∧ r = r' := by
  simp only [item, List.append_assoc] at h
  obtain ⟨hkey, hrest⟩ := quote_append_injective h
  obtain ⟨hval, hr⟩ := dumps_append_injective hr hr' (List.append_cancel_left hrest)
  exact ⟨Prod.ext hkey hval, hr⟩

/-- The items of an object can be read off its text, one after the other. -/
lemma intercalate_items_injective {l l' : List (PyStr × Json)}
    (h : (Helix.str ",").intercalate (l.map item) ++ Helix.str "\x7d" =
      (Helix.str ",").intercalate (l'.map item) ++ Helix.str "\x7d") : l = l' := by
  have hbrace : Helix.str "\x7d" = [(.ofNat 0x7D : CodePoint)] := by decide
  rw [hbrace] at h
  have hhead : ∀ (a : PyStr × Json) (u : PyStr), ∃ x xs, item a ++ u = x :: xs ∧ x ≠ .ofNat 0x7D :=
    fun a u => ⟨.ofNat 0x22, _, rfl, by decide⟩
  have hall := (forall₂_of_intercalate (R := Eq) (P := fun _ => True) (p := CodePoint.isNumeric)
    (by decide) (by decide) (by decide) hhead
    (fun a _ b _ r r' hr hr' h => item_append_injective hr hr' h) (fun _ _ => trivial) h).1
  exact List.forall₂_eq_eq_eq ▸ hall

/-- Objects with the same text have the same items. -/
theorem dumpsDict_injective {d d' : List (PyStr × Json)} (h : dumpsDict d = dumpsDict d') :
    d.insertionSort (fun p q => p.1 ≤ q.1) = d'.insertionSort fun p q => p.1 ≤ q.1 := by
  simp only [dumpsDict, List.append_assoc] at h
  exact intercalate_items_injective (List.append_cancel_left h)

/-! ### Encodable texts -/

lemma escape_not_surrogate {c x : CodePoint} (hc : c.isSurrogate = false) (hx : x ∈ escape c) :
    x.isSurrogate = false := by
  simp only [escape] at hx
  split_ifs at hx with h1 h2 h3 h4 h5 h6 h7 h8
  iterate 7 exact str_not_surrogate hx
  · rcases List.mem_append.mp hx with hx | hx
    · exact str_not_surrogate hx
    · simp only [List.mem_cons, List.not_mem_nil, or_false] at hx
      rcases hx with rfl | rfl
      · exact isSurrogate_hexDigit (by omega)
      · exact isSurrogate_hexDigit (by omega)
  · rw [List.mem_singleton] at hx
    exact hx ▸ hc

lemma quote_not_surrogate {s : PyStr} (hs : ∀ c ∈ s, CodePoint.isSurrogate c = false)
    {x : CodePoint} (hx : x ∈ quote s) : x.isSurrogate = false := by
  simp only [quote, List.mem_append] at hx
  rcases hx with (hx | hx) | hx
  · exact str_not_surrogate hx
  · obtain ⟨c, hc, hx⟩ := List.mem_flatMap.mp hx
    exact escape_not_surrogate (hs c hc) hx
  · exact str_not_surrogate hx

/-- The strings of an item. -/
def texts (p : PyStr × Json) : List PyStr :=
  match p.2 with
  | str s => [p.1, s]
  | _ => [p.1]

lemma item_not_surrogate {p : PyStr × Json}
    (hp : ∀ s ∈ texts p, ∀ c ∈ s, CodePoint.isSurrogate c = false) {x : CodePoint}
    (hx : x ∈ item p) : x.isSurrogate = false := by
  obtain ⟨key, v⟩ := p
  simp only [item, List.mem_append] at hx
  rcases hx with (hx | hx) | hx
  · exact quote_not_surrogate (hp key (by cases v <;> simp [texts])) hx
  · exact str_not_surrogate hx
  · cases v with
    | null => exact str_not_surrogate hx
    | int n => exact intRepr_not_surrogate hx
    | str s => exact quote_not_surrogate (hp s (by simp [texts])) hx

lemma mem_intercalate {sep : PyStr} {x : CodePoint} : ∀ {ls : List PyStr},
    x ∈ sep.intercalate ls → x ∈ sep ∨ ∃ t ∈ ls, x ∈ t
  | [], hx => by simp [List.intercalate] at hx
  | [t], hx => Or.inr ⟨t, by simp, by simpa [List.intercalate] using hx⟩
  | t :: u :: ls, hx => by
    simp only [List.intercalate, List.intersperse_cons_cons, List.flatten_cons,
      List.mem_append] at hx
    rcases hx with hx | hx | hx
    · exact Or.inr ⟨t, List.mem_cons_self, hx⟩
    · exact Or.inl hx
    · rcases mem_intercalate (show x ∈ sep.intercalate (u :: ls) from hx) with hx | ⟨v, hv, hx⟩
      · exact Or.inl hx
      · exact Or.inr ⟨v, List.mem_cons_of_mem _ hv, hx⟩

/-- The text of an object can be encoded when its strings can. -/
theorem encode_dumpsDict {d : List (PyStr × Json)}
    (hd : ∀ p ∈ d, ∀ s ∈ texts p, ∀ c ∈ s, CodePoint.isSurrogate c = false) :
    ∃ b, encode (dumpsDict d) = .ok b := by
  rw [encode_ok_iff]
  intro x hx
  simp only [dumpsDict, List.mem_append] at hx
  rcases hx with (hx | hx) | hx
  · exact str_not_surrogate hx
  · rcases mem_intercalate hx with hx | ⟨t, ht, hx⟩
    · exact str_not_surrogate hx
    · obtain ⟨p, hp, rfl⟩ := List.mem_map.mp ht
      exact item_not_surrogate (hd p ((List.mem_insertionSort _).mp hp)) hx
  · exact str_not_surrogate hx

/-- A surrogate is not escaped. -/
lemma mem_quote_of_isSurrogate {s : PyStr} {c : CodePoint} (hc : c ∈ s)
    (hsurrogate : c.isSurrogate = true) : c ∈ quote s := by
  have hrange : 0xD800 ≤ c.val ∧ c.val ≤ 0xDFFF := by
    simpa [CodePoint.isSurrogate] using hsurrogate
  have hescape : escape c = [c] := by
    unfold escape
    iterate 8 rw [if_neg (by omega)]
  refine List.mem_append_left _ (List.mem_append_right _ (List.mem_flatMap.mpr ⟨c, hc, ?_⟩))
  rw [hescape]
  exact List.mem_singleton_self c

lemma mem_intercalate_of_mem {sep : PyStr} {x : CodePoint} {t : PyStr} : ∀ {ls : List PyStr},
    t ∈ ls → x ∈ t → x ∈ sep.intercalate ls
  | [], ht, _ => by cases ht
  | [u], ht, hx => by
    rw [List.mem_singleton.mp ht] at hx
    simpa [List.intercalate] using hx
  | u :: w :: ls, ht, hx => by
    simp only [List.intercalate, List.intersperse_cons_cons, List.flatten_cons, List.mem_append]
    rcases List.mem_cons.mp ht with rfl | ht
    · exact Or.inl hx
    · exact Or.inr (Or.inr (mem_intercalate_of_mem ht hx))

/-- The strings of an object whose text can be encoded can be encoded. -/
lemma not_isSurrogate_of_encode_dumpsDict {d : List (PyStr × Json)} {b : Bytes}
    (h : encode (dumpsDict d) = .ok b) (key : PyStr) {s : PyStr} (hs : (key, Json.str s) ∈ d) :
    ∀ c ∈ s, CodePoint.isSurrogate c = false := by
  intro c hc
  by_contra hsurrogate
  have hmem : c ∈ dumpsDict d := by
    refine List.mem_append_left _ (List.mem_append_right _ ?_)
    refine mem_intercalate_of_mem (List.mem_map_of_mem ((List.mem_insertionSort _).mpr hs)) ?_
    exact List.mem_append_right _
      (mem_quote_of_isSurrogate hc (Bool.not_eq_false _ ▸ hsurrogate))
  exact hsurrogate (encode_ok_iff.mp ⟨b, h⟩ c hmem)

/-- The text of an object with plain keys can be encoded just when its string values can. -/
lemma exists_encode_dumpsDict_iff {d : List (PyStr × Json)} (hkeys : ∀ p ∈ d, ∃ b, encode p.1 = .ok b) :
    (∃ b, encode (dumpsDict d) = .ok b) ↔ ∀ key s, (key, Json.str s) ∈ d → ∃ b, encode s = .ok b := by
  constructor
  · rintro ⟨b, hb⟩ key s hs
    exact encode_ok_iff.mpr (not_isSurrogate_of_encode_dumpsDict hb key hs)
  · refine fun hd => encode_dumpsDict fun p hp s hs => ?_
    obtain ⟨key, v⟩ := p
    have hkey := encode_ok_iff.mp (hkeys (key, v) hp)
    cases v with
    | str t =>
      rcases List.mem_pair.mp hs with rfl | rfl
      · exact hkey
      · exact encode_ok_iff.mp (hd key s hp)
    | _ => exact List.mem_singleton.mp hs ▸ hkey

end Json

end Helix
