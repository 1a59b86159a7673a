import Helix.Library.Cut
import Helix.Library.Dict
import Helix.Library.Json

/-!
# JSON texts and how they are read back

`json.dumps` writes a value as a text, with or without escaping what is not ASCII and with or without
blanks after the separators; `json.loads` reads a text. Reading undoes writing, with one exception:
two adjacent characters that are the halves of a surrogate pair are escaped one by one and read back
as the one character that the pair stands for.
-/

namespace Helix

/-- A JSON value, as far as integers, strings, lists and objects go. -/
inductive JsonValue where
  | null
  | int (n : ℤ)
  | str (s : PyStr)
  | list (l : List JsonValue)
  | dict (items : List (PyStr × JsonValue))

/-- The options of `json.dumps`. -/
structure JsonStyle where
  ensureAscii : Bool := true
  compact : Bool := false

/-! ### Strings -/

/-- The four hexadecimal digits of a code unit. -/
def unitDigits (n : ℕ) : PyStr :=
  [hexDigit (n / 4096 % 16), hexDigit (n / 256 % 16), hexDigit (n / 16 % 16), hexDigit (n % 16)]

/-- `\uXXXX`. -/
def escapeUnit (n : ℕ) : PyStr := str "\\u" ++ unitDigits n

namespace CodePoint

/-- The first half of a surrogate pair. -/
def isHigh (c : CodePoint) : Bool := 0xD800 ≤ c.val && c.val ≤ 0xDBFF

/-- The second half of a surrogate pair. -/
def isLow (c : CodePoint) : Bool := 0xDC00 ≤ c.val && c.val ≤ 0xDFFF

/-- The escape of a character under `ensure_ascii`; beyond `0xFFFF` it is a surrogate pair. -/
def escapeAscii (c : CodePoint) : PyStr :=
  if c.val = 0x22 then Helix.str "\\\""
  else if c.val = 0x5C then Helix.str "\\\\"
  else if c.val = 0x08 then Helix.str "\\b"
  else if c.val = 0x0C then Helix.str "\\f"
  else if c.val = 0x0A then Helix.str "\\n"
  else if c.val = 0x0D then Helix.str "\\r"
  else if c.val = 0x09 then Helix.str "\\t"
  else if 0x20 ≤ c.val ∧ c.val < 0x7F then [c]
  else if c.val < 0x10000 then escapeUnit c.val
  else escapeUnit (0xD800 + (c.val - 0x10000) / 1024) ++
    escapeUnit (0xDC00 + (c.val - 0x10000) % 1024)

end CodePoint

namespace JsonStyle

/-- The escape of a character. -/
def escape (σ : JsonStyle) (c : CodePoint) : PyStr :=
  if σ.ensureAscii then c.escapeAscii else Json.escape c

/-- A string between quotes. -/
def quote (σ : JsonStyle) (s : PyStr) : PyStr := str "\"" ++ (s.flatMap σ.escape ++ str "\"")

/-- What separates the elements of a list and the items of an object. -/
def comma (σ : JsonStyle) : PyStr := if σ.compact then str "," else str ", "

/-- What separates a key from its value. -/
def colon (σ : JsonStyle) : PyStr := if σ.compact then str ":" else str ": "

/-- The strings that the style keeps apart from others: not escaped, or without surrogate pairs. -/
def Keeps (σ : JsonStyle) (s : PyStr) : Prop :=
  σ.ensureAscii = true → s.IsChain fun c d => ¬(c.isHigh = true ∧ d.isLow = true)

instance (σ : JsonStyle) (s : PyStr) : Decidable (σ.Keeps s) :=
  inferInstanceAs (Decidable (σ.ensureAscii = true →
    s.IsChain fun c d => ¬(c.isHigh = true ∧ d.isLow = true)))

end JsonStyle

lemma JsonStyle.keeps_of_not_isSurrogate (σ : JsonStyle) {s : PyStr}
    (hs : ∀ c ∈ s, CodePoint.isSurrogate c = false) : σ.Keeps s := by
  intro _
  apply List.Pairwise.isChain
  apply List.pairwise_of_forall_mem_list
  rintro c hc d _ ⟨hhigh, -⟩
  have hsurrogate := hs c hc
  simp only [CodePoint.isSurrogate, Bool.and_eq_false_iff, decide_eq_false_iff_not] at hsurrogate
  simp only [CodePoint.isHigh, Bool.and_eq_true, decide_eq_true_eq] at hhigh
  omega

lemma JsonStyle.keeps_str (σ : JsonStyle) (t : String) : σ.Keeps (str t) :=
  σ.keeps_of_not_isSurrogate fun _ hc => str_not_surrogate hc

/-- The value of four hexadecimal digits at the head of a text. -/
def scanUnit : PyStr → Option (ℕ × PyStr)
  | a :: b :: c :: d :: r => do
    let a ← a.hexVal
    let b ← b.hexVal
    let c ← c.hexVal
    let d ← d.hexVal
    return (a * 4096 + b * 256 + c * 16 + d, r)
  | _ => none

/-- The character after `\u`: a code unit, joined with the next one if they are a surrogate pair. -/
def scanUnicode (s : PyStr) : Option (CodePoint × PyStr) := do
  let (n, r) ← scanUnit s
  if 0xD800 ≤ n ∧ n ≤ 0xDBFF then
    match r with
    | a :: b :: r' =>
      if a.val = 0x5C ∧ b.val = 0x75 then
        let (m, r'') ← scanUnit r'
        if 0xDC00 ≤ m ∧ m ≤ 0xDFFF then
          return (.ofNat (0x10000 + (n - 0xD800) * 1024 + (m - 0xDC00)), r'')
        else return (.ofNat n, r)
      else return (.ofNat n, r)
    | _ => return (.ofNat n, r)
  else return (.ofNat n, r)

/-- What a letter after a backslash stands for. -/
def simpleEscape (c : CodePoint) : Option CodePoint :=
  if c.val = 0x22 ∨ c.val = 0x5C ∨ c.val = 0x2F then some c
  else if c.val = 0x62 then some (.ofNat 0x08)
  else if c.val = 0x66 then some (.ofNat 0x0C)
  else if c.val = 0x6E then some (.ofNat 0x0A)
  else if c.val = 0x72 then some (.ofNat 0x0D)
  else if c.val = 0x74 then some (.ofNat 0x09)
  else none

/-- One character of a string, plain or escaped. -/
def scanChar : PyStr → Option (CodePoint × PyStr)
  | [] => none
  | c :: r =>
    if c.val = 0x5C then
      match r with
      | [] => none
      | d :: r' => if d.val = 0x75 then scanUnicode r' else (simpleEscape d).map (·, r')
    else if c.val < 0x20 then none
    else some (c, r)

/-- A string after its opening quote, and what follows the closing one. -/
def scanString : ℕ → PyStr → Option (PyStr × PyStr)
  | 0, _ => none
  | _, [] => none
  | fuel + 1, c :: r =>
    if c.val = 0x22 then some ([], r)
    else do
      let (x, r') ← scanChar (c :: r)
      let (xs, r'') ← scanString fuel r'
      return (x :: xs, r'')

/-! #### Reading a string back -/

lemma scanUnit_unitDigits {n : ℕ} (hn : n < 0x10000) (r : PyStr) :
    scanUnit (unitDigits n ++ r) = some (n, r) := by
  have hdigit : ∀ k, (hexDigit (k % 16)).hexVal = some (k % 16) := fun k =>
    (hexVal_hexDigit (Nat.mod_lt k (by norm_num))).1
  simp only [unitDigits, List.cons_append, List.nil_append, scanUnit, hdigit, bind, Option.bind, pure,
    Option.some.injEq, Prod.mk.injEq, and_true]
  omega

/-- The text does not go on with the second half of a surrogate pair. -/
def Alone (r : PyStr) : Prop :=
  ∀ a b r', r = a :: b :: r' → a.val = 0x5C → b.val = 0x75 →
    ∃ m r'', scanUnit r' = some (m, r'') ∧ ¬(0xDC00 ≤ m ∧ m ≤ 0xDFFF)

lemma scanUnicode_unit {n : ℕ} (hn : n < 0x10000) {r : PyStr}
    (hr : 0xD800 ≤ n ∧ n ≤ 0xDBFF → Alone r) :
    scanUnicode (unitDigits n ++ r) = some (Fin.ofNat _ n, r) := by
  unfold scanUnicode
  simp only [scanUnit_unitDigits hn, bind, Option.bind]
  split_ifs with hhigh
  · split
    · rename_i a b r'
      split_ifs with hnext
      · obtain ⟨m, r'', hm, hlow⟩ := hr hhigh a b r' rfl hnext.1 hnext.2
        simp only [hm, if_neg hlow]
        rfl
      · rfl
    · rfl
  · rfl

lemma escapeUnit_append (n : ℕ) (r : PyStr) :
    escapeUnit n ++ r = Fin.ofNat _ 0x5C :: Fin.ofNat _ 0x75 :: (unitDigits n ++ r) := by
  have hprefix : str "\\u" = [Fin.ofNat _ 0x5C, Fin.ofNat _ 0x75] := by decide
  rw [escapeUnit, hprefix]
  rfl

lemma scanUnicode_pair {n : ℕ} (hn : n < 0x100000) (r : PyStr) :
    scanUnicode (unitDigits (0xD800 + n / 1024) ++ (escapeUnit (0xDC00 + n % 1024) ++ r)) =
      some (Fin.ofNat _ (0x10000 + n), r) := by
  have hhigh : 0xD800 + n / 1024 < 0x10000 := by omega
  have hlow : 0xDC00 + n % 1024 < 0x10000 := by omega
  have hjoin : 0x10000 + (0xD800 + n / 1024 - 0xD800) * 1024 + (0xDC00 + n % 1024 - 0xDC00) =
      0x10000 + n := by omega
  have hbackslash : ((Fin.ofNat _ 0x5C : CodePoint).val = 0x5C) := rfl
  have hu : ((Fin.ofNat _ 0x75 : CodePoint).val = 0x75) := rfl
  unfold scanUnicode
  rw [escapeUnit_append]
  simp only [scanUnit_unitDigits hhigh, bind, Option.bind]
  rw [if_pos (by omega), if_pos ⟨hbackslash, hu⟩]
  simp only [scanUnit_unitDigits hlow]
  rw [if_pos (by omega), hjoin]
  rfl

lemma ofNat_val (c : CodePoint) : Fin.ofNat _ c.val = c := Fin.ext (Nat.mod_eq_of_lt c.isLt)

lemma scanChar_escapeUnit (n : ℕ) (r : PyStr) :
    scanChar (escapeUnit n ++ r) = scanUnicode (unitDigits n ++ r) := by
  rw [escapeUnit_append]
  rfl

lemma scanChar_plain {c : CodePoint} (h : 0x20 ≤ c.val) (hne : c.val ≠ 0x5C) (r : PyStr) :
    scanChar (c :: r) = some (c, r) := by
  simp only [scanChar]
  rw [if_neg hne, if_neg (by omega)]

/-- The characters with an escape of one letter. -/
def CodePoint.isShort (c : CodePoint) : Bool :=
  c.val = 0x22 || c.val = 0x5C || c.val = 0x08 || c.val = 0x0C || c.val = 0x0A || c.val = 0x0D ||
    c.val = 0x09

/-- They are escaped in the same way in both styles. -/
lemma scanChar_short {c : CodePoint} (hc : c.isShort = true) (r : PyStr) :
    scanChar (c.escapeAscii ++ r) = some (c, r) ∧ scanChar (Json.escape c ++ r) = some (c, r) ∧
      Alone (c.escapeAscii ++ r) := by
  rw [← ofNat_val c]
  simp only [CodePoint.isShort, Bool.or_eq_true, decide_eq_true_eq] at hc
  have halone : ∀ (x : CodePoint) (t : PyStr), x.val ≠ 0x75 → Alone (Fin.ofNat _ 0x5C :: x :: t) := by
    intro x t hx a b r' heq _ hb
    cases heq
    exact absurd hb hx
  rcases hc with (((((h | h) | h) | h) | h) | h) | h <;> rw [h] <;>
    exact ⟨rfl, rfl, halone _ _ (by decide)⟩

/-- The other characters: plain ones, code units and surrogate pairs. -/
lemma escapeAscii_eq {c : CodePoint} (hc : c.isShort = false) :
    c.escapeAscii = if 0x20 ≤ c.val ∧ c.val < 0x7F then [c]
      else if c.val < 0x10000 then escapeUnit c.val
      else escapeUnit (0xD800 + (c.val - 0x10000) / 1024) ++
        escapeUnit (0xDC00 + (c.val - 0x10000) % 1024) := by
  simp only [CodePoint.isShort, Bool.or_eq_false_iff, decide_eq_false_iff_not] at hc
  unfold CodePoint.escapeAscii
  iterate 7 rw [if_neg (by omega)]

lemma val_ne_of_not_isShort {c : CodePoint} (hc : c.isShort = false) : c.val ≠ 0x5C := by
  simp only [CodePoint.isShort, Bool.or_eq_false_iff, decide_eq_false_iff_not] at hc
  omega

/-- An escaped character is read back, if it does not join with what follows. -/
lemma scanChar_escapeAscii {c : CodePoint} {r : PyStr} (hr : c.isHigh = true → Alone r) :
    scanChar (c.escapeAscii ++ r) = some (c, r) := by
  cases hshort : c.isShort with
  | true => exact (scanChar_short hshort r).1
  | false =>
    rw [escapeAscii_eq hshort]
    split_ifs with hplain hunit
    · exact scanChar_plain hplain.1 (val_ne_of_not_isShort hshort) r
    · rw [scanChar_escapeUnit, scanUnicode_unit hunit fun hhigh => hr ?_, ofNat_val]
      simpa [CodePoint.isHigh] using hhigh
    · have hlt := c.isLt
      rw [List.append_assoc, scanChar_escapeUnit, scanUnicode_pair (by omega)]
      rw [show 0x10000 + (c.val - 0x10000) = c.val by omega, ofNat_val]

lemma scanChar_escape (c : CodePoint) (r : PyStr) : scanChar (Json.escape c ++ r) = some (c, r) := by
  cases hshort : c.isShort with
  | true => exact (scanChar_short hshort r).2.1
  | false =>
    have hne := val_ne_of_not_isShort hshort
    simp only [CodePoint.isShort, Bool.or_eq_false_iff, decide_eq_false_iff_not] at hshort
    by_cases hcontrol : c.val < 0x20
    · have hesc : Json.escape c = escapeUnit c.val := by
        unfold Json.escape escapeUnit unitDigits
        iterate 7 rw [if_neg (by omega)]
        rw [if_pos hcontrol, show c.val / 4096 % 16 = 0 by omega, show c.val / 256 % 16 = 0 by omega,
          show c.val / 16 % 16 = c.val / 16 by omega]
        rfl
      rw [hesc, scanChar_escapeUnit, scanUnicode_unit (by omega) fun hhigh => by omega, ofNat_val]
    · have hesc : Json.escape c = [c] := by
        unfold Json.escape
        iterate 8 rw [if_neg (by omega)]
      rw [hesc]
      exact scanChar_plain (by omega) hne r

/-- The escape of a character does not start with the second half of a pair, unless the character is
one. -/
lemma alone_escapeAscii {c : CodePoint} (hc : c.isLow = false) (r : PyStr) :
    Alone (c.escapeAscii ++ r) := by
  have halone : ∀ n t, n < 0x10000 → ¬(0xDC00 ≤ n ∧ n ≤ 0xDFFF) → Alone (escapeUnit n ++ t) := by
    intro n t hn hlow a b r' heq _ _
    rw [escapeUnit_append] at heq
    cases heq
    exact ⟨n, t, scanUnit_unitDigits hn t, hlow⟩
  cases hshort : c.isShort with
  | true => exact (scanChar_short hshort r).2.2
  | false =>
    rw [escapeAscii_eq hshort]
    split_ifs with hplain hunit
    · intro a b r' heq ha
      rw [← (List.cons.inj heq).1] at ha
      exact absurd ha (val_ne_of_not_isShort hshort)
    · refine halone c.val r hunit fun hlow => ?_
      simp only [CodePoint.isLow, Bool.and_eq_false_iff, decide_eq_false_iff_not] at hc
      omega
    · have hlt := c.isLt
      rw [List.append_assoc]
      exact halone _ _ (by omega) (by omega)

lemma alone_quote (r : PyStr) : Alone (str "\"" ++ r) := by
  intro a b r' heq ha
  have hquote : str "\"" = [Fin.ofNat _ 0x22] := by decide
  rw [hquote] at heq
  rw [← (List.cons.inj heq).1] at ha
  cases ha

/-- No escape starts with a quote. -/
lemma JsonStyle.exists_escape_eq (σ : JsonStyle) (c : CodePoint) :
    ∃ x t, σ.escape c = x :: t ∧ x.val ≠ 0x22 := by
  have hshort : c.isShort = true →
      (∃ x t, c.escapeAscii = x :: t ∧ x.val ≠ 0x22) ∧ ∃ x t, Json.escape c = x :: t ∧ x.val ≠ 0x22 := by
    intro hc
    rw [← ofNat_val c]
    simp only [CodePoint.isShort, Bool.or_eq_true, decide_eq_true_eq] at hc
    rcases hc with (((((h | h) | h) | h) | h) | h) | h <;> rw [h] <;>
      exact ⟨⟨_, _, rfl, by decide⟩, _, _, rfl, by decide⟩
  have hquote : c.isShort = false → c.val ≠ 0x22 := by
    intro hc
    simp only [CodePoint.isShort, Bool.or_eq_false_iff, decide_eq_false_iff_not] at hc
    omega
  unfold escape
  cases hc : c.isShort with
  | true => split_ifs <;> [exact (hshort hc).1; exact (hshort hc).2]
  | false =>
    split_ifs
    · rw [escapeAscii_eq hc]
      split_ifs
      · exact ⟨c, [], rfl, hquote hc⟩
      · exact ⟨_, _, rfl, by decide⟩
      · exact ⟨_, _, rfl, by decide⟩
    · have hne := hquote hc
      simp only [CodePoint.isShort, Bool.or_eq_false_iff, decide_eq_false_iff_not] at hc
      unfold Json.escape
      iterate 7 rw [if_neg (by omega)]
      split_ifs
      · exact ⟨_, _, rfl, by decide⟩
      · exact ⟨c, [], rfl, hne⟩

/-- The first character of a string is read back, if the style keeps the string. -/
lemma scanChar_cons {σ : JsonStyle} {c : CodePoint} {s : PyStr} (hs : σ.Keeps (c :: s)) (r : PyStr) :
    scanChar (σ.escape c ++ (s.flatMap σ.escape ++ (str "\"" ++ r))) =
      some (c, s.flatMap σ.escape ++ (str "\"" ++ r)) := by
  cases hascii : σ.ensureAscii with
  | false =>
    rw [JsonStyle.escape, hascii]
    exact scanChar_escape c _
  | true =>
    have hescape : ∀ d, σ.escape d = d.escapeAscii := fun d => by rw [JsonStyle.escape, hascii]; rfl
    rw [hescape]
    refine scanChar_escapeAscii fun hhigh => ?_
    cases s with
    | nil => exact alone_quote r
    | cons d s =>
      rw [List.flatMap_cons, hescape, List.append_assoc]
      refine alone_escapeAscii ?_ _
      have hpair := (List.isChain_cons_cons.mp (hs hascii)).1
      exact Bool.eq_false_iff.mpr fun hlow => hpair ⟨hhigh, hlow⟩

/-- A string is read back, if the style keeps it. -/
lemma scanString_escape {σ : JsonStyle} {s : PyStr} (hs : σ.Keeps s) (r : PyStr) {fuel : ℕ}
    (hfuel : s.length < fuel) :
    scanString fuel (s.flatMap σ.escape ++ (str "\"" ++ r)) = some (s, r) := by
  induction s generalizing fuel with
  | nil =>
    obtain ⟨fuel, rfl⟩ := Nat.exists_eq_succ_of_ne_zero (Nat.ne_of_gt hfuel)
    have hquote : str "\"" = [Fin.ofNat _ 0x22] := by decide
    rw [hquote]
    rfl
  | cons c s ih =>
    obtain ⟨fuel, rfl⟩ := Nat.exists_eq_succ_of_ne_zero (Nat.ne_of_gt (Nat.zero_lt_of_lt hfuel))
    have hkeeps : σ.Keeps s := fun hascii => (hs hascii).tail
    have hchar := scanChar_cons hs r
    obtain ⟨x, t, hx, hne⟩ := σ.exists_escape_eq c
    rw [List.flatMap_cons, List.append_assoc]
    rw [hx, List.cons_append] at hchar ⊢
    simp only [scanString, if_neg hne, hchar, bind, Option.bind,
      ih hkeeps (Nat.lt_of_succ_lt_succ hfuel)]
    rfl

/-! ### Integers -/

def CodePoint.isDigit (c : CodePoint) : Bool := 48 ≤ c.val && c.val ≤ 57

/-- A natural number at the head of a text: `0`, or digits that do not start with it. -/
def scanNat : PyStr → Option (ℕ × PyStr)
  | [] => none
  | c :: r =>
    if c.val = 48 then some (0, r)
    else if c.isDigit then
      some (ofDigits ((c :: r).takeWhile CodePoint.isDigit), (c :: r).dropWhile CodePoint.isDigit)
    else none

/-- An integer at the head of a text. -/
def scanSigned : PyStr → Option (ℤ × PyStr)
  | [] => none
  | c :: r =>
    if c.val = 45 then (scanNat r).map fun p => (-(p.1 : ℤ), p.2)
    else (scanNat (c :: r)).map fun p => ((p.1 : ℤ), p.2)

/-- A number at the head of a text; with a fraction or an exponent it would be a float. -/
def scanInt (s : PyStr) : Option (ℤ × PyStr) :=
  (scanSigned s).filter fun p => p.2.head?.all fun c => c.val ≠ 46 && c.val ≠ 101 && c.val ≠ 69

/-! ### Values -/

namespace JsonValue

mutual

/-- `json.dumps`. -/
def dumps (σ : JsonStyle) : JsonValue → PyStr
  | null => Helix.str "null"
  | int n => intRepr n
  | str s => σ.quote s
  | list l => Helix.str "[" ++ dumpsElements σ true l
  | dict items => Helix.str "\x7b" ++ dumpsItems σ true items

/-- The elements of a list, each but the first after a separator, and the closing bracket. -/
def dumpsElements (σ : JsonStyle) (first : Bool) : List JsonValue → PyStr
  | [] => Helix.str "]"
  | v :: l => (if first then [] else σ.comma) ++ (v.dumps σ ++ dumpsElements σ false l)

/-- The items of an object, each but the first after a separator, and the closing brace. -/
def dumpsItems (σ : JsonStyle) (first : Bool) : List (PyStr × JsonValue) → PyStr
  | [] => Helix.str "\x7d"
  | (key, v) :: items => (if first then [] else σ.comma) ++
      (σ.quote key ++ (σ.colon ++ (v.dumps σ ++ dumpsItems σ false items)))

end

/-- Blanks between the parts of a text. -/
def isBlank (c : CodePoint) : Bool := c.val = 32 || c.val = 9 || c.val = 10 || c.val = 13

def skipBlanks (s : PyStr) : PyStr := s.dropWhile isBlank

mutual

/-- A value at the head of a text, and what follows it. -/
def scanValue : ℕ → PyStr → Option (JsonValue × PyStr)
  | 0, _ => none
  | _, [] => none
  | fuel + 1, c :: r =>
    if c.val = 0x22 then (scanString fuel r).map fun p => (str p.1, p.2)
    else if c.val = 0x5B then
      match skipBlanks r with
      | [] => none
      | d :: r' =>
        if d.val = 0x5D then some (list [], r')
        else do
          let (v, r₁) ← scanValue fuel (d :: r')
          let (l, r₂) ← scanElements fuel r₁
          return (list (v :: l), r₂)
    else if c.val = 0x7B then
      match skipBlanks r with
      | [] => none
      | d :: r' =>
        if d.val = 0x7D then some (dict [], r')
        else do
          let (p, r₁) ← scanItem fuel (d :: r')
          let (items, r₂) ← scanItems fuel r₁
          return (dict (Dict.ofList (p :: items)).items, r₂)
    else if (Helix.str "null").isPrefixOf (c :: r) then some (null, (c :: r).drop 4)
    else (scanInt (c :: r)).map fun p => (int p.1, p.2)

/-- The elements after the first one, up to the closing bracket. -/
def scanElements : ℕ → PyStr → Option (List JsonValue × PyStr)
  | 0, _ => none
  | fuel + 1, s =>
    match skipBlanks s with
    | [] => none
    | c :: r =>
      if c.val = 0x5D then some ([], r)
      else if c.val = 0x2C then do
        let (v, r₁) ← scanValue fuel (skipBlanks r)
        let (l, r₂) ← scanElements fuel r₁
        return (v :: l, r₂)
      else none

/-- A key and its value. -/
def scanItem : ℕ → PyStr → Option ((PyStr × JsonValue) × PyStr)
  | 0, _ => none
  | _, [] => none
  | fuel + 1, c :: r =>
    if c.val = 0x22 then do
      let (key, r₁) ← scanString fuel r
      match skipBlanks r₁ with
      | [] => none
      | d :: r₂ =>
        if d.val = 0x3A then do
          let (v, r₃) ← scanValue fuel (skipBlanks r₂)
          return ((key, v), r₃)
        else none
    else none

/-- The items after the first one, up to the closing brace. -/
def scanItems : ℕ → PyStr → Option (List (PyStr × JsonValue) × PyStr)
  | 0, _ => none
  | fuel + 1, s =>
    match skipBlanks s with
    | [] => none
    | c :: r =>
      if c.val = 0x7D then some ([], r)
      else if c.val = 0x2C then do
        let (p, r₁) ← scanItem fuel (skipBlanks r)
        let (items, r₂) ← scanItems fuel r₁
        return (p :: items, r₂)
      else none

end

/-- `json.loads`. -/
def loads (s : PyStr) : Option JsonValue := do
  let (v, r) ← scanValue (s.length + 1) (skipBlanks s)
  if skipBlanks r = [] then return v else none

/-! ### Reading a value back -/

/-- The values that a style keeps: their strings are kept, and no object has a key twice. -/
inductive Plain (σ : JsonStyle) : JsonValue → Prop
  | null : Plain σ null
  | int (n : ℤ) : Plain σ (int n)
  | str {s : PyStr} (hs : σ.Keeps s) : Plain σ (str s)
  | list {l : List JsonValue} (hl : ∀ v ∈ l, Plain σ v) : Plain σ (list l)
  | dict {items : List (PyStr × JsonValue)} (hnodup : (items.map Prod.fst).Nodup)
      (hkeys : ∀ p ∈ items, σ.Keeps p.1) (hitems : ∀ p ∈ items, Plain σ p.2) : Plain σ (dict items)

/-- The text ends, or goes on after a value. -/
def Stops (r : PyStr) : Prop := ∀ c ∈ r.head?, c.val = 0x2C ∨ c.val = 0x5D ∨ c.val = 0x7D

lemma Stops.not_isDigit {r : PyStr} (hr : Stops r) : ∀ c ∈ r.head?, c.isDigit = false := by
  intro c hc
  simp only [CodePoint.isDigit, Bool.and_eq_false_iff, decide_eq_false_iff_not]
  rcases hr c hc with h | h | h <;> omega

/-- Digits are cut off up to what is none. -/
lemma takeWhile_digits {s r : PyStr} (hs : ∀ c ∈ s, CodePoint.isDigit c = true) (hr : Stops r) :
    (s ++ r).takeWhile CodePoint.isDigit = s ∧ (s ++ r).dropWhile CodePoint.isDigit = r := by
  have hrest : r.takeWhile CodePoint.isDigit = [] ∧ r.dropWhile CodePoint.isDigit = r := by
    cases r with
    | nil => exact ⟨rfl, rfl⟩
    | cons c r =>
      have hc := hr.not_isDigit c rfl
      simp [hc]
  rw [List.takeWhile_append_of_pos hs, List.dropWhile_append_of_pos hs, hrest.1, hrest.2,
    List.append_nil]
  exact ⟨rfl, rfl⟩

lemma scanNat_natRepr (n : ℕ) {r : PyStr} (hr : Stops r) :
    scanNat (natRepr n ++ r) = some (n, r) := by
  by_cases hn : n = 0
  · subst hn
    rfl
  have hdigits : ∀ c ∈ natRepr n, CodePoint.isDigit c = true := by
    intro c hc
    simpa [CodePoint.isDigit] using natRepr_digits hc
  -- the first digit is the last one of `Nat.digits`, which is not zero
  obtain ⟨c, t, hct, hc⟩ : ∃ c t, natRepr n = c :: t ∧ c.val ≠ 48 := by
    have hne : Nat.digits 10 n ≠ [] := Nat.digits_ne_nil_iff_ne_zero.mpr hn
    have hlast := Nat.getLast_digit_ne_zero 10 hn
    have hlt : (Nat.digits 10 n).getLast hne < 10 :=
      Nat.digits_lt_base (by norm_num) (List.getLast_mem hne)
    refine ⟨decDigit ((Nat.digits 10 n).getLast hne), ((Nat.digits 10 n).dropLast.reverse.map decDigit),
      ?_, ?_⟩
    · rw [natRepr, if_neg hn]
      nth_rewrite 1 [← List.dropLast_append_getLast hne]
      rw [List.reverse_append]
      rfl
    · rw [decDigit_val hlt]
      omega
  have hcut := takeWhile_digits hdigits hr
  have hdigit := hdigits c (hct ▸ List.mem_cons_self)
  rw [hct, List.cons_append] at hcut ⊢
  rw [scanNat, if_neg hc, if_pos hdigit, hcut.1, hcut.2, ← hct, ofDigits_natRepr]

lemma scanInt_intRepr (n : ℤ) {r : PyStr} (hr : Stops r) :
    scanInt (intRepr n ++ r) = some (n, r) := by
  have hsigned : scanSigned (intRepr n ++ r) = some (n, r) := by
    cases n with
    | ofNat n =>
      have hnat := scanNat_natRepr n hr
      obtain ⟨c, t, hct⟩ := List.exists_cons_of_ne_nil (intRepr_ne_nil (.ofNat n))
      have hc := natRepr_digits (n := n) (c := c) (by rw [show natRepr n = c :: t from hct]; simp)
      rw [show natRepr n = c :: t from hct, List.cons_append] at hnat
      rw [hct, List.cons_append, scanSigned, if_neg (by omega), hnat]
      rfl
    | negSucc n =>
      have hminus : (Fin.ofNat _ 45 : CodePoint).val = 45 := rfl
      rw [intRepr, List.cons_append, scanSigned, if_pos hminus, scanNat_natRepr (n + 1) hr]
      rfl
  rw [scanInt, hsigned]
  refine Option.filter_eq_some_iff.mpr ⟨rfl, ?_⟩
  cases r with
  | nil => rfl
  | cons c r =>
    have hc := hr c rfl
    simp only [List.head?_cons, Option.all_some, Bool.and_eq_true, decide_eq_true_eq]
    omega

lemma skipBlanks_cons {c : CodePoint} (hc : isBlank c = false) (r : PyStr) :
    skipBlanks (c :: r) = c :: r :=
  List.dropWhile_cons_of_neg (by simp [hc])

/-- A separator is a comma or a colon and blanks. -/
lemma exists_separator_eq (σ : JsonStyle) :
    (∃ b, σ.comma = Fin.ofNat _ 0x2C :: b ∧ ∀ c ∈ b, isBlank c = true) ∧
      ∃ b, σ.colon = Fin.ofNat _ 0x3A :: b ∧ ∀ c ∈ b, isBlank c = true := by
  have hblank : ∀ c ∈ [(Fin.ofNat _ 0x20 : CodePoint)], isBlank c = true := by
    intro c hc
    rw [List.mem_singleton.mp hc]
    rfl
  unfold JsonStyle.comma JsonStyle.colon
  split_ifs
  · exact ⟨⟨[], rfl, by simp⟩, [], rfl, by simp⟩
  · exact ⟨⟨_, rfl, hblank⟩, _, rfl, hblank⟩

lemma skipBlanks_append {b s : PyStr} (hb : ∀ c ∈ b, isBlank c = true) (hs : skipBlanks s = s) :
    skipBlanks (b ++ s) = s := by
  rw [skipBlanks, List.dropWhile_append_of_pos hb]
  exact hs

lemma quote_append (σ : JsonStyle) (s r : PyStr) :
    σ.quote s ++ r = Fin.ofNat _ 0x22 :: (s.flatMap σ.escape ++ (Helix.str "\"" ++ r)) := by
  have hquote : Helix.str "\"" = [Fin.ofNat _ 0x22] := by decide
  rw [JsonStyle.quote, List.append_assoc, List.append_assoc]
  nth_rewrite 1 [hquote]
  rfl

lemma length_quote (σ : JsonStyle) (s : PyStr) : s.length + 2 ≤ (σ.quote s).length := by
  have hescape : s.length ≤ (s.flatMap σ.escape).length := by
    induction s with
    | nil => exact Nat.le_refl 0
    | cons c s ih =>
      obtain ⟨x, t, hx, -⟩ := σ.exists_escape_eq c
      rw [List.flatMap_cons, List.length_append, hx, List.length_cons, List.length_cons]
      omega
  have hquote : (Helix.str "\"").length = 1 := by decide
  rw [JsonStyle.quote, List.length_append, List.length_append, hquote]
  omega

/-- A value starts with neither a blank nor a closing bracket. -/
lemma exists_dumps_eq (σ : JsonStyle) (v : JsonValue) :
    ∃ c t, v.dumps σ = c :: t ∧ isBlank c = false ∧ c.val ≠ 0x5D := by
  cases v with
  | null => exact ⟨_, _, rfl, by decide, by decide⟩
  | int n =>
    obtain ⟨c, t, hct⟩ := List.exists_cons_of_ne_nil (intRepr_ne_nil n)
    have hc := intRepr_numeric (n := n) (c := c) (hct ▸ List.mem_cons_self)
    refine ⟨c, t, by rw [dumps, hct], ?_⟩
    simp only [CodePoint.isNumeric, Bool.or_eq_true, Bool.and_eq_true, decide_eq_true_eq] at hc
    simp only [isBlank, Bool.or_eq_false_iff, decide_eq_false_iff_not]
    omega
  | str s =>
    have hquote := quote_append σ s []
    rw [List.append_nil] at hquote
    exact ⟨_, _, by rw [dumps, hquote], by decide, by decide⟩
  | list l => exact ⟨_, _, by rw [dumps]; rfl, by decide, by decide⟩
  | dict items => exact ⟨_, _, by rw [dumps]; rfl, by decide, by decide⟩

lemma skipBlanks_dumps (σ : JsonStyle) (v : JsonValue) (r : PyStr) :
    skipBlanks (v.dumps σ ++ r) = v.dumps σ ++ r := by
  obtain ⟨c, t, hct, hc, -⟩ := exists_dumps_eq σ v
  rw [hct, List.cons_append, skipBlanks_cons hc]

/-- The value is read back, whatever it can be followed by. -/
def Reads (σ : JsonStyle) (v : JsonValue) : Prop :=
  ∀ r fuel, Stops r → (v.dumps σ).length ≤ fuel → scanValue fuel (v.dumps σ ++ r) = some (v, r)

variable {σ : JsonStyle}

lemma stops_dumpsElements (σ : JsonStyle) (l : List JsonValue) (r : PyStr) :
    Stops (dumpsElements σ false l ++ r) := by
  intro c hc
  cases l with
  | nil =>
    rw [dumpsElements] at hc
    cases hc
    exact Or.inr (Or.inl rfl)
  | cons v l =>
    obtain ⟨⟨b, hb, -⟩, -⟩ := exists_separator_eq σ
    rw [dumpsElements, if_neg Bool.false_ne_true, hb] at hc
    cases hc
    exact Or.inl rfl

lemma stops_dumpsItems (σ : JsonStyle) (items : List (PyStr × JsonValue)) (r : PyStr) :
    Stops (dumpsItems σ false items ++ r) := by
  intro c hc
  cases items with
  | nil =>
    rw [dumpsItems] at hc
    cases hc
    exact Or.inr (Or.inr rfl)
  | cons p items =>
    obtain ⟨⟨b, hb, -⟩, -⟩ := exists_separator_eq σ
    rw [dumpsItems, if_neg Bool.false_ne_true, hb] at hc
    cases hc
    exact Or.inl rfl

lemma scanElements_dumps {l : List JsonValue} (hl : ∀ v ∈ l, Reads σ v) (r : PyStr) {fuel : ℕ}
    (hfuel : (dumpsElements σ false l).length ≤ fuel) :
    scanElements fuel (dumpsElements σ false l ++ r) = some (l, r) := by
  induction l generalizing fuel with
  | nil =>
    rw [dumpsElements] at hfuel ⊢
    obtain ⟨fuel, rfl⟩ := Nat.exists_eq_add_of_le' (show 1 ≤ fuel from hfuel)
    rfl
  | cons v l ih =>
    obtain ⟨⟨b, hb, hblank⟩, -⟩ := exists_separator_eq σ
    rw [dumpsElements, if_neg Bool.false_ne_true, hb] at hfuel ⊢
    simp only [List.length_append, List.length_cons] at hfuel
    obtain ⟨fuel, rfl⟩ := Nat.exists_eq_add_of_le' (show 1 ≤ fuel by omega)
    have hv := hl v List.mem_cons_self _ fuel (stops_dumpsElements σ l r) (by omega)
    have hrest : scanElements fuel (dumpsElements σ false l ++ r) = some (l, r) :=
      ih (fun w hw => hl w (List.mem_cons_of_mem v hw)) (by omega)
    rw [List.append_assoc, List.append_assoc, List.cons_append, scanElements,
      skipBlanks_cons (by decide)]
    simp only [skipBlanks_append hblank (skipBlanks_dumps σ v _), hv, hrest, bind, Option.bind]
    rfl

/-- The text of an item. -/
lemma scanItem_dumps {key : PyStr} {v : JsonValue} (hkey : σ.Keeps key) (hv : Reads σ v) {r : PyStr}
    (hr : Stops r) {fuel : ℕ}
    (hfuel : (σ.quote key).length + σ.colon.length + (v.dumps σ).length ≤ fuel) :
    scanItem fuel (σ.quote key ++ (σ.colon ++ (v.dumps σ ++ r))) = some ((key, v), r) := by
  obtain ⟨-, b, hb, hblank⟩ := exists_separator_eq σ
  have hlength := length_quote σ key
  obtain ⟨fuel, rfl⟩ := Nat.exists_eq_add_of_le' (show 1 ≤ fuel by omega)
  rw [hb, List.length_cons] at hfuel
  have hstring := scanString_escape hkey (σ.colon ++ (v.dumps σ ++ r)) (show key.length < fuel by omega)
  have hvalue := hv r fuel hr (by omega)
  have hcolon : skipBlanks (σ.colon ++ (v.dumps σ ++ r)) =
      Fin.ofNat _ 0x3A :: (b ++ (v.dumps σ ++ r)) := by
    rw [hb, List.cons_append, skipBlanks_cons (by decide)]
  rw [quote_append, scanItem]
  simp only [hstring, hcolon, skipBlanks_append hblank (skipBlanks_dumps σ v r), hvalue, bind,
    Option.bind]
  rfl

lemma scanItems_dumps {items : List (PyStr × JsonValue)} (hkeys : ∀ p ∈ items, σ.Keeps p.1)
    (hitems : ∀ p ∈ items, Reads σ p.2) (r : PyStr) {fuel : ℕ}
    (hfuel : (dumpsItems σ false items).length ≤ fuel) :
    scanItems fuel (dumpsItems σ false items ++ r) = some (items, r) := by
  induction items generalizing fuel with
  | nil =>
    rw [dumpsItems] at hfuel ⊢
    obtain ⟨fuel, rfl⟩ := Nat.exists_eq_add_of_le' (show 1 ≤ fuel from hfuel)
    rfl
  | cons p items ih =>
    obtain ⟨⟨b, hb, hblank⟩, -⟩ := exists_separator_eq σ
    obtain ⟨key, v⟩ := p
    rw [dumpsItems, if_neg Bool.false_ne_true, hb] at hfuel ⊢
    simp only [List.length_append, List.length_cons] at hfuel
    obtain ⟨fuel, rfl⟩ := Nat.exists_eq_add_of_le' (show 1 ≤ fuel by omega)
    have hitem := scanItem_dumps (hkeys _ List.mem_cons_self) (hitems _ List.mem_cons_self)
      (stops_dumpsItems σ items r) (show (σ.quote key).length + σ.colon.length +
        (v.dumps σ).length ≤ fuel by omega)
    have hrest : scanItems fuel (dumpsItems σ false items ++ r) = some (items, r) :=
      ih (fun q hq => hkeys q (List.mem_cons_of_mem _ hq))
        (fun q hq => hitems q (List.mem_cons_of_mem _ hq)) (by omega)
    have hquote : ∀ t, skipBlanks (σ.quote key ++ t) = σ.quote key ++ t := by
      intro t
      rw [quote_append, skipBlanks_cons (by decide)]
    simp only [List.append_assoc, List.cons_append]
    rw [scanItems, skipBlanks_cons (by decide)]
    simp only [skipBlanks_append hblank (hquote _), hitem, hrest, bind, Option.bind]
    rfl

/-- A value that the style keeps is read back. -/
lemma Plain.reads {v : JsonValue} (hv : Plain σ v) : Reads σ v := by
  induction hv with
  | null =>
    intro r fuel _ hfuel
    have hlength : (dumps σ .null).length = 4 := rfl
    obtain ⟨fuel, rfl⟩ := Nat.exists_eq_add_of_le' (show 1 ≤ fuel by omega)
    rfl
  | int n =>
    intro r fuel hr hfuel
    obtain ⟨c, t, hct⟩ := List.exists_cons_of_ne_nil (intRepr_ne_nil n)
    have hc := intRepr_numeric (n := n) (c := c) (hct ▸ List.mem_cons_self)
    simp only [CodePoint.isNumeric, Bool.or_eq_true, Bool.and_eq_true, decide_eq_true_eq] at hc
    have hnull : (Helix.str "null").isPrefixOf (c :: (t ++ r)) = false := by
      have hn : (Fin.ofNat _ 0x6E == c) = false := by
        rw [beq_eq_false_iff_ne]
        rintro rfl
        revert hc
        decide
      have htext : Helix.str "null" = Fin.ofNat _ 0x6E :: Helix.str "ull" := by decide
      rw [htext, List.isPrefixOf_cons_cons, hn, Bool.false_and]
    have hint := scanInt_intRepr n hr
    rw [dumps] at hfuel ⊢
    rw [hct, List.length_cons] at hfuel
    rw [hct, List.cons_append] at hint ⊢
    obtain ⟨fuel, rfl⟩ := Nat.exists_eq_add_of_le' (show 1 ≤ fuel by omega)
    rw [scanValue, if_neg (by omega), if_neg (by omega), if_neg (by omega), hnull, hint]
    rfl
  | @str s hs =>
    intro r fuel _ hfuel
    have hlength := length_quote σ s
    rw [dumps] at hfuel ⊢
    obtain ⟨fuel, rfl⟩ := Nat.exists_eq_add_of_le' (show 1 ≤ fuel by omega)
    have hstring := scanString_escape hs r (show s.length < fuel by omega)
    rw [quote_append, scanValue, hstring]
    rfl
  | @list l hl ih =>
    intro r fuel _ hfuel
    have hopen : Helix.str "[" = [Fin.ofNat _ 0x5B] := by decide
    rw [dumps, hopen] at hfuel ⊢
    rw [List.length_append, List.length_singleton] at hfuel
    obtain ⟨fuel, rfl⟩ := Nat.exists_eq_add_of_le' (show 1 ≤ fuel by omega)
    cases l with
    | nil =>
      rw [dumpsElements]
      rfl
    | cons v l =>
      rw [dumpsElements, if_pos rfl, List.nil_append] at hfuel ⊢
      rw [List.length_append] at hfuel
      have hv := ih v List.mem_cons_self _ fuel (stops_dumpsElements σ l r) (by omega)
      have hrest := scanElements_dumps (fun w hw => ih w (List.mem_cons_of_mem v hw)) r
        (show (dumpsElements σ false l).length ≤ fuel by omega)
      have hskip := skipBlanks_dumps σ v (dumpsElements σ false l ++ r)
      obtain ⟨c, t, hct, hc, hne⟩ := exists_dumps_eq σ v
      rw [List.append_assoc, List.append_assoc, List.singleton_append, scanValue]
      rw [hct, List.cons_append] at hskip hv ⊢
      simp only [hskip, if_neg hne, hv, hrest, bind, Option.bind]
      rfl
  | @dict items hnodup hkeys hitems ih =>
    intro r fuel _ hfuel
    have hopen : Helix.str "\x7b" = [Fin.ofNat _ 0x7B] := by decide
    rw [dumps, hopen] at hfuel ⊢
    rw [List.length_append, List.length_singleton] at hfuel
    obtain ⟨fuel, rfl⟩ := Nat.exists_eq_add_of_le' (show 1 ≤ fuel by omega)
    cases items with
    | nil =>
      rw [dumpsItems]
      rfl
    | cons p items =>
      obtain ⟨key, v⟩ := p
      rw [dumpsItems, if_pos rfl, List.nil_append] at hfuel ⊢
      simp only [List.length_append] at hfuel
      have hitem := scanItem_dumps (hkeys _ List.mem_cons_self) (ih _ List.mem_cons_self)
        (stops_dumpsItems σ items r) (show (σ.quote key).length + σ.colon.length +
          (v.dumps σ).length ≤ fuel by omega)
      have hrest := scanItems_dumps (fun q hq => hkeys q (List.mem_cons_of_mem _ hq))
        (fun q hq => ih q (List.mem_cons_of_mem _ hq)) r
        (show (dumpsItems σ false items).length ≤ fuel by omega)
      simp only [List.cons_append, List.nil_append, List.append_assoc]
      rw [quote_append] at hitem ⊢
      rw [scanValue, skipBlanks_cons (by decide)]
      simp only [hitem, hrest, bind, Option.bind, Dict.items_ofList hnodup]
      rfl

/-- Reading undoes writing, for the values that the style keeps. -/
theorem loads_dumps {v : JsonValue} (hv : Plain σ v) : loads (v.dumps σ) = some v := by
  have hscan := hv.reads [] ((v.dumps σ).length + 1) (fun c hc => by cases hc) (Nat.le_succ _)
  have hskip := skipBlanks_dumps σ v []
  rw [List.append_nil] at hscan hskip
  rw [loads, hskip, hscan]
  rfl

/-! ### Access to a value -/

/-- A value of the wrong kind for an operation. -/
def typeError : PyError := .appError "TypeError" ""

/-- A value without the method that is called on it. -/
def attributeError : PyError := .appError "AttributeError" ""

/-- The value of a key. -/
def lookup (items : List (PyStr × JsonValue)) (key : String) : Option JsonValue :=
  (items.find? fun p => p.1 = Helix.str key).map Prod.snd

/-- `data[key]`. -/
def getItem (data : JsonValue) (key : String) : Except PyError JsonValue :=
  match data with
  | dict items => (lookup items key).elim (.error (.keyError key)) .ok
  | _ => .error typeError

/-- `data.get(key, default)`. -/
def get (data : JsonValue) (key : String) (default : JsonValue) : Except PyError JsonValue :=
  match data with
  | dict items => .ok ((lookup items key).getD default)
  | _ => .error attributeError

/-- A value of another type than the declared one. Where a program keeps it as it is, it is outside what
is modelled, and this marks it; the language itself does not raise it. -/
def undeclared : PyError := .appError "undeclared" ""

/-- A value that is kept where a text is declared. -/
def toStr : JsonValue → Except PyError PyStr
  | str s => .ok s
  | _ => .error undeclared

/-- A value that is kept where an integer is declared. -/
def keptInt : JsonValue → Except PyError ℤ
  | int n => .ok n
  | _ => .error undeclared

/-- `int(v)`. -/
def toInt : JsonValue → Except PyError ℤ
  | int n => .ok n
  | str s => parseInt s
  | _ => .error typeError

/-- `f(v) if v is not None else None`. -/
def optional {α : Type*} (f : JsonValue → Except PyError α) : JsonValue → Except PyError (Option α)
  | null => .ok none
  | v => (f v).map some

/-- What a loop over the value goes through: the elements of a list, the keys of an object, the
characters of a text. -/
def elements : JsonValue → Except PyError (List JsonValue)
  | list l => .ok l
  | dict items => .ok (items.map fun p => str p.1)
  | str s => .ok (s.map fun c => str [c])
  | _ => .error typeError

lemma sizeOf_le_of_mem_elements {v w : JsonValue} {l : List JsonValue} (hl : v.elements = .ok l)
    (hw : w ∈ l) : sizeOf w ≤ sizeOf v := by
  cases v with
  | null => cases hl
  | int n => cases hl
  | list l' =>
    cases hl
    have hlt := List.sizeOf_lt_of_mem hw
    rw [list.sizeOf_spec]
    omega
  | dict items =>
    cases hl
    obtain ⟨p, hp, rfl⟩ := List.mem_map.mp hw
    have hlt := List.sizeOf_lt_of_mem hp
    obtain ⟨key, x⟩ := p
    simp only [Prod.mk.sizeOf_spec, dict.sizeOf_spec, str.sizeOf_spec] at hlt ⊢
    omega
  | str s =>
    cases hl
    obtain ⟨c, hc, rfl⟩ := List.mem_map.mp hw
    have hle : ∀ s : PyStr, c ∈ s → sizeOf [c] ≤ sizeOf s := by
      intro s hs
      induction s with
      | nil => cases hs
      | cons d s ih =>
        rcases List.mem_cons.mp hs with rfl | hs
        · have hpos : 1 ≤ sizeOf s := by
            cases s with
            | nil => simp
            | cons e s => simp only [List.cons.sizeOf_spec]; omega
          simpa using hpos
        · exact Nat.le_trans (ih hs) (by simp)
    have := hle s hc
    rw [str.sizeOf_spec, str.sizeOf_spec]
    omega

lemma sizeOf_lt_of_get {data w : JsonValue} {key : String} {l : List JsonValue}
    (h : data.get key (.list []) >>= elements = .ok l) (hw : w ∈ l) : sizeOf w < sizeOf data := by
  cases data with
  | dict items =>
    cases hv : lookup items key with
    | none =>
      simp only [get, hv, Option.getD_none, elements, bind, Except.bind, Except.ok.injEq] at h
      subst h
      cases hw
    | some v =>
      simp only [get, hv, Option.getD_some, bind, Except.bind] at h
      have hle := sizeOf_le_of_mem_elements h hw
      obtain ⟨p, hp, rfl⟩ := Option.map_eq_some_iff.mp hv
      have hlt := List.sizeOf_lt_of_mem (List.mem_of_find?_eq_some hp)
      obtain ⟨key', x⟩ := p
      simp only [Prod.mk.sizeOf_spec, dict.sizeOf_spec] at hle hlt ⊢
      omega
  | null => cases h
  | int n => cases h
  | str s => cases h
  | list l => cases h

/-- What a loop over `data.get(key, [])` goes through; it is smaller than `data`. -/
def children (data : JsonValue) (key : String) :
    Except PyError (List {v : JsonValue // sizeOf v < sizeOf data}) :=
  match h : data.get key (.list []) >>= elements with
  | .error e => .error e
  | .ok l => .ok (l.pmap Subtype.mk fun _ hv => sizeOf_lt_of_get h hv)

/-- The loop goes through the same values, with or without their sizes. -/
lemma children_eq {data : JsonValue} {key : String} {l : List JsonValue}
    (h : data.get key (.list []) >>= elements = .ok l) :
    ∃ l', data.children key = .ok l' ∧ l'.map Subtype.val = l := by
  unfold children
  split
  · rename_i e herror
    rw [h] at herror
    cases herror
  · rename_i l₀ hl₀
    rw [h] at hl₀
    cases hl₀
    exact ⟨_, rfl, by rw [List.map_pmap]; simp⟩

/-- An object of scalars. -/
def ofScalar : Json → JsonValue
  | .null => null
  | .int n => int n
  | .str s => str s

def ofDict (d : List (PyStr × Json)) : JsonValue := dict (d.map fun p => (p.1, ofScalar p.2))

/-- An object of scalars is kept if its texts are. -/
lemma plain_ofDict {d : List (PyStr × Json)} (hnodup : (d.map Prod.fst).Nodup)
    (hkeys : ∀ p ∈ d, σ.Keeps p.1) (htexts : ∀ key s, (key, Json.str s) ∈ d → σ.Keeps s) :
    Plain σ (ofDict d) := by
  refine .dict (by rwa [List.map_map]) ?_ ?_
  · intro p hp
    obtain ⟨q, hq, rfl⟩ := List.mem_map.mp hp
    exact hkeys q hq
  · intro p hp
    obtain ⟨⟨key, v⟩, hq, rfl⟩ := List.mem_map.mp hp
    cases v with
    | null => exact .null
    | int n => exact .int n
    | str s => exact .str (htexts key s hq)

end JsonValue

end Helix
