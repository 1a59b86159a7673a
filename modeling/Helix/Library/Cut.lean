import Helix.Library.Text
import Mathlib.Data.List.DropRight

/-!
# Cutting texts

Splitting at the first or the last occurrence of a separator, stripping blanks, and reading integers, as
the host language does it: blanks and digits are those of Unicode, and an integer may be written with a
sign and with underscores between its digits.
-/

namespace Helix

/-! ### Separators -/

section

variable {α : Type*} [DecidableEq α] {c : α} {s a b : List α}

/-- The two parts of `s.split(c, 1)`, if `c` occurs. -/
def splitOnce (c : α) : List α → Option (List α × List α)
  | [] => none
  | x :: s => if x = c then some ([], s) else (splitOnce c s).map fun p => (x :: p.1, p.2)

/-- The two parts of `s.rsplit(c, 1)`, if `c` occurs. -/
def rsplitOnce (c : α) (s : List α) : Option (List α × List α) :=
  (splitOnce c s.reverse).map fun p => (p.2.reverse, p.1.reverse)

/-- The first part is what comes before the first separator. -/
lemma splitOnce_eq_some : splitOnce c s = some (a, b) ↔ s = a ++ c :: b ∧ c ∉ a := by
  induction s generalizing a with
  | nil => simp [splitOnce]
  | cons x s ih =>
    by_cases hx : x = c
    · subst hx
      rw [splitOnce, if_pos rfl, Option.some.injEq, Prod.mk.injEq]
      constructor
      · rintro ⟨rfl, rfl⟩
        exact ⟨rfl, List.not_mem_nil⟩
      · rintro ⟨heq, hnot⟩
        cases a with
        | nil => exact ⟨rfl, (List.cons.inj heq).2⟩
        | cons y a =>
          rw [(List.cons.inj heq).1] at hnot
          exact absurd List.mem_cons_self hnot
    · rw [splitOnce, if_neg hx, Option.map_eq_some_iff]
      constructor
      · rintro ⟨⟨a', b'⟩, hsplit, hp⟩
        cases hp
        obtain ⟨rfl, hnot⟩ := ih.mp hsplit
        exact ⟨rfl, fun hmem => (List.mem_cons.mp hmem).elim (fun h => hx h.symm) hnot⟩
      · rintro ⟨heq, hnot⟩
        cases a with
        | nil => exact absurd (List.cons.inj heq).1 hx
        | cons y a =>
          obtain ⟨rfl, rfl⟩ := List.cons.inj heq
          exact ⟨(a, b), ih.mpr ⟨rfl, fun h => hnot (List.mem_cons_of_mem _ h)⟩, rfl⟩

/-- The second part is what comes after the last separator. -/
lemma rsplitOnce_eq_some : rsplitOnce c s = some (a, b) ↔ s = a ++ c :: b ∧ c ∉ b := by
  have hsplit : rsplitOnce c s = some (a, b) ↔ splitOnce c s.reverse = some (b.reverse, a.reverse) := by
    rw [rsplitOnce, Option.map_eq_some_iff]
    constructor
    · rintro ⟨⟨x, y⟩, h, hp⟩
      cases hp
      rw [List.reverse_reverse, List.reverse_reverse]
      exact h
    · intro h
      exact ⟨_, h, by rw [List.reverse_reverse, List.reverse_reverse]⟩
  rw [hsplit, splitOnce_eq_some, List.mem_reverse, List.reverse_eq_iff]
  simp

/-! ### Blanks -/

/-- `s.strip()`, with the blanks given. -/
def stripBy (blank : α → Bool) (s : List α) : List α := (s.dropWhile blank).rdropWhile blank

omit [DecidableEq α] in
lemma mem_of_mem_stripBy {blank : α → Bool} {x : α} (hx : x ∈ stripBy blank s) : x ∈ s :=
  (List.dropWhile_sublist blank).subset ((List.rdropWhile_prefix blank _).subset hx)

omit [DecidableEq α] in
/-- Nothing is stripped from a text without blanks. -/
lemma stripBy_eq_self {blank : α → Bool} (h : ∀ x ∈ s, blank x = false) : stripBy blank s = s := by
  have hfront : s.dropWhile blank = s :=
    List.dropWhile_eq_self_iff.mpr fun hpos => by simp [h _ (List.getElem_mem hpos)]
  rw [stripBy, hfront, List.rdropWhile_eq_self_iff]
  exact fun hne => by simp [h _ (List.getLast_mem hne)]

omit [DecidableEq α] in
/-- A text that has been stripped is not stripped further. -/
lemma stripBy_stripBy (blank : α → Bool) (s : List α) :
    stripBy blank (stripBy blank s) = stripBy blank s := by
  have hfront : (stripBy blank s).dropWhile blank = stripBy blank s := by
    refine List.dropWhile_eq_self_iff.mpr fun hpos => ?_
    -- the first character is the first one that is no blank
    have hstart : stripBy blank s <+: s.dropWhile blank := List.rdropWhile_prefix blank _
    rw [hstart.getElem hpos]
    exact List.dropWhile_get_zero_not blank s (hpos.trans_le hstart.length_le)
  have hback : (stripBy blank s).rdropWhile blank = stripBy blank s := List.rdropWhile_idempotent _ _
  rw [stripBy, hfront, hback]

end

/-- `c.isspace()`. -/
def CodePoint.isWhitespace (c : CodePoint) : Bool :=
  (9 ≤ c.val && c.val ≤ 13) || (28 ≤ c.val && c.val ≤ 32) || c.val = 0x85 || c.val = 0xA0 ||
    c.val = 0x1680 || (0x2000 ≤ c.val && c.val ≤ 0x200A) || c.val = 0x2028 || c.val = 0x2029 ||
    c.val = 0x202F || c.val = 0x205F || c.val = 0x3000

/-- `s.strip()`. -/
def strip (s : PyStr) : PyStr := stripBy CodePoint.isWhitespace s

/-! ### Integers -/

/-- The zeros of Unicode's decimal digits. Each is followed by the other nine digits of its script. -/
def decimalZeros : List ℕ :=
  [0x30, 0x660, 0x6F0, 0x7C0, 0x966, 0x9E6, 0xA66, 0xAE6, 0xB66, 0xBE6, 0xC66, 0xCE6, 0xD66, 0xDE6,
    0xE50, 0xED0, 0xF20, 0x1040, 0x1090, 0x17E0, 0x1810, 0x1946, 0x19D0, 0x1A80, 0x1A90, 0x1B50, 0x1BB0,
    0x1C40, 0x1C50, 0xA620, 0xA8D0, 0xA900, 0xA9D0, 0xA9F0, 0xAA50, 0xABF0, 0xFF10, 0x104A0, 0x10D30,
    0x11066, 0x110F0, 0x11136, 0x111D0, 0x112F0, 0x11450, 0x114D0, 0x11650, 0x116C0, 0x11730, 0x118E0,
    0x11950, 0x11C50, 0x11D50, 0x11DA0, 0x16A60, 0x16AC0, 0x16B50, 0x1D7CE, 0x1D7D8, 0x1D7E2, 0x1D7EC,
    0x1D7F6, 0x1E140, 0x1E2F0, 0x1E950, 0x1FBF0]

/-- The value of a decimal digit. -/
def CodePoint.decimal (c : CodePoint) : Option ℕ :=
  (decimalZeros.find? fun z => z ≤ c.val && c.val < z + 10).map fun z => c.val - z

/-- The blanks that `int` skips. Of the separators `\x1c` to `\x1f`, which `strip` skips, it skips none. -/
def CodePoint.isIntBlank (c : CodePoint) : Bool := c.isSpace || (127 ≤ c.val && c.isWhitespace)

/-- The number that digits stand for, with at most one underscore between two of them. The flag says that
the character before was a digit. -/
def readDigits : Bool → ℕ → PyStr → Option ℕ
  | after, acc, [] => if after then some acc else none
  | after, acc, c :: s =>
    match c.decimal with
    | some d => readDigits true (10 * acc + d) s
    | none => if c.val = 0x5F ∧ after then readDigits false acc s else none

/-- The number of an integer literal without blanks. -/
def readInt : PyStr → Option ℤ
  | [] => none
  | c :: s =>
    if c.val = 0x2D then (readDigits false 0 s).map fun n => -(n : ℤ)
    else if c.val = 0x2B then (readDigits false 0 s).map fun n => (n : ℤ)
    else (readDigits false 0 (c :: s)).map fun n => (n : ℤ)

/-- `int(s)`. -/
def parseInt (s : PyStr) : Except PyError ℤ :=
  match readInt (stripBy CodePoint.isIntBlank s) with
  | some n => .ok n
  | none => .error (.valueError "invalid literal for int() with base 10")

lemma decimal_of_ascii {c : CodePoint} (hc : 48 ≤ c.val ∧ c.val ≤ 57) : c.decimal = some (c.val - 48) := by
  have hfind : decimalZeros.find? (fun z => z ≤ c.val && c.val < z + 10) = some 0x30 := by
    rw [decimalZeros, List.find?_cons_of_pos]
    simp only [Bool.and_eq_true, decide_eq_true_eq]
    omega
  rw [CodePoint.decimal, hfind]
  rfl

/-- Digits without underscores. -/
lemma readDigits_of_ascii {s : PyStr} (hs : ∀ c ∈ s, 48 ≤ c.val ∧ c.val ≤ 57) {after : Bool} {acc : ℕ}
    (hne : s ≠ [] ∨ after = true) :
    readDigits after acc s = some (s.foldl (fun a c => 10 * a + (c.val - 48)) acc) := by
  induction s generalizing after acc with
  | nil => simp [readDigits, hne.resolve_left (not_not.mpr rfl)]
  | cons c s ih =>
    rw [readDigits, decimal_of_ascii (hs c List.mem_cons_self)]
    exact ih (fun d hd => hs d (List.mem_cons_of_mem _ hd)) (Or.inr rfl)

lemma readDigits_natRepr (n : ℕ) : readDigits false 0 (natRepr n) = some n := by
  have hne : natRepr n ≠ [] := intRepr_ne_nil (.ofNat n)
  rw [readDigits_of_ascii (fun c hc => natRepr_digits hc) (Or.inl hne)]
  exact congrArg some (ofDigits_natRepr n)

lemma not_isIntBlank_of_isNumeric {c : CodePoint} (hc : c.isNumeric = true) : c.isIntBlank = false := by
  simp only [CodePoint.isNumeric, Bool.or_eq_true, Bool.and_eq_true, decide_eq_true_eq] at hc
  simp only [CodePoint.isIntBlank, CodePoint.isSpace, Bool.or_eq_false_iff, Bool.and_eq_false_iff,
    decide_eq_false_iff_not]
  omega

/-- What is written for an integer is read back. -/
lemma parseInt_intRepr (n : ℤ) : parseInt (intRepr n) = .ok n := by
  have hread : readInt (intRepr n) = some n := by
    cases n with
    | ofNat m =>
      obtain ⟨c, s, hcs⟩ := List.exists_cons_of_ne_nil (intRepr_ne_nil (.ofNat m))
      have hdigit : 48 ≤ c.val ∧ c.val ≤ 57 := by
        refine natRepr_digits (n := m) ?_
        change c ∈ intRepr (.ofNat m)
        rw [hcs]
        exact List.mem_cons_self
      have hdigits : readDigits false 0 (c :: s) = some m := hcs ▸ readDigits_natRepr m
      rw [hcs, readInt, if_neg (by omega), if_neg (by omega), hdigits]
      rfl
    | negSucc m =>
      rw [intRepr, readInt, if_pos (by decide), readDigits_natRepr]
      rfl
  rw [parseInt, stripBy_eq_self fun c hc => not_isIntBlank_of_isNumeric (intRepr_numeric hc), hread]

/-- Signs, underscores, blanks and digits of other scripts; no underscore at the end, no blank after the
sign. -/
example : [str " +1_0\n", str "\u0663\u0664", str "1_", str "- 1"].map parseInt =
    [.ok 10, .ok 34, parseInt [], parseInt []] := by
  decide +kernel

end Helix
