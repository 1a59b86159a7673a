import Mathlib.Data.List.Basic
import Mathlib.Data.Nat.Digits.Lemmas
import Mathlib.Data.List.TakeWhile
import Mathlib.Data.Fin.Basic
import Mathlib.Tactic.Ring

/-!
# Text and bytes

Strings in the sense of the host language: sequences of code points, lone surrogates included,
so that encoding to UTF-8 can fail. Hexadecimal decoding accepts both cases and blanks between
the bytes, hexadecimal encoding writes lower case without blanks; decoding is a left inverse of
encoding but many texts decode to the same bytes.
-/

namespace Helix

/-- A Unicode code point; the surrogates are code points too. -/
abbrev CodePoint := Fin 0x110000

abbrev CodePoint.ofNat (n : ℕ) : CodePoint := Fin.ofNat _ n

/-- A string of the host language. -/
abbrev PyStr := List CodePoint

abbrev Bytes := List UInt8

/-- The built-in exceptions that the modelled code can meet. -/
inductive PyError where
  | valueError (message : String)
  | unicodeEncodeError
  | indexError (message : String)
  | keyError (message : String)
  | assertionError
  | appError (name message : String)
  deriving DecidableEq, Repr

instance : LawfulBEq PyStr := inferInstance

/-- A string literal. -/
def str (s : String) : PyStr := s.toList.map fun c => Fin.ofNat _ c.toNat

/-! ### UTF-8 -/

/-- Surrogates have no UTF-8 encoding. -/
def CodePoint.isSurrogate (c : CodePoint) : Bool := 0xD800 ≤ c.val && c.val ≤ 0xDFFF

/-- The UTF-8 bytes of a code point. -/
def CodePoint.utf8 (c : CodePoint) : Bytes :=
  let n := c.val
  if n < 0x80 then [UInt8.ofNat n]
  else if n < 0x800 then [UInt8.ofNat (0xC0 + n / 64), UInt8.ofNat (0x80 + n % 64)]
  else if n < 0x10000 then
    [UInt8.ofNat (0xE0 + n / 4096), UInt8.ofNat (0x80 + n / 64 % 64), UInt8.ofNat (0x80 + n % 64)]
  else
    [UInt8.ofNat (0xF0 + n / 262144), UInt8.ofNat (0x80 + n / 4096 % 64),
      UInt8.ofNat (0x80 + n / 64 % 64), UInt8.ofNat (0x80 + n % 64)]

/-- `s.encode("utf-8")`. -/
def encode (s : PyStr) : Except PyError Bytes :=
  if s.any CodePoint.isSurrogate then .error .unicodeEncodeError
  else .ok (s.flatMap CodePoint.utf8)

/-- The code point at the head of a UTF-8 text, and the rest. -/
def utf8Head : Bytes → ℕ × Bytes
  | [] => (0, [])
  | a :: r =>
    if a.toNat < 0x80 then (a.toNat, r)
    else if a.toNat < 0xE0 then
      match r with
      | b :: r => ((a.toNat - 0xC0) * 64 + (b.toNat - 0x80), r)
      | [] => (0, [])
    else if a.toNat < 0xF0 then
      match r with
      | b :: c :: r => ((a.toNat - 0xE0) * 4096 + (b.toNat - 0x80) * 64 + (c.toNat - 0x80), r)
      | _ => (0, [])
    else
      match r with
      | b :: c :: d :: r =>
        ((a.toNat - 0xF0) * 262144 + (b.toNat - 0x80) * 4096 + (c.toNat - 0x80) * 64
          + (d.toNat - 0x80), r)
      | _ => (0, [])

lemma toNat_ofNat_uint8 {n : ℕ} (h : n < 256) : (UInt8.ofNat n).toNat = n := by
  simp [Nat.mod_eq_of_lt h]

lemma utf8Head_utf8 (c : CodePoint) (r : Bytes) : utf8Head (c.utf8 ++ r) = (c.val, r) := by
  obtain ⟨n, hn⟩ := c
  simp only [CodePoint.utf8]
  split_ifs with h1 h2 h3
  · simp only [List.cons_append, List.nil_append, utf8Head]
    rw [toNat_ofNat_uint8 (by omega), if_pos h1]
  · simp only [List.cons_append, List.nil_append, utf8Head]
    rw [toNat_ofNat_uint8 (by omega), toNat_ofNat_uint8 (by omega), if_neg (by omega),
      if_pos (by omega)]
    exact Prod.ext (by simp only; omega) rfl
  · simp only [List.cons_append, List.nil_append, utf8Head]
    rw [toNat_ofNat_uint8 (by omega), toNat_ofNat_uint8 (by omega), toNat_ofNat_uint8 (by omega),
      if_neg (by omega), if_neg (by omega), if_pos (by omega)]
    exact Prod.ext (by simp only; omega) rfl
  · simp only [List.cons_append, List.nil_append, utf8Head]
    rw [toNat_ofNat_uint8 (by omega), toNat_ofNat_uint8 (by omega), toNat_ofNat_uint8 (by omega),
      toNat_ofNat_uint8 (by omega), if_neg (by omega), if_neg (by omega), if_neg (by omega)]
    exact Prod.ext (by simp only; omega) rfl

lemma CodePoint.utf8_ne_nil (c : CodePoint) : c.utf8 ≠ [] := by
  simp only [CodePoint.utf8]
  split_ifs <;> simp

/-- UTF-8 is a code: equal bytes come from equal texts. -/
lemma flatMap_utf8_injective : Function.Injective (List.flatMap CodePoint.utf8) := by
  intro s
  induction s with
  | nil =>
    intro t h
    cases t with
    | nil => rfl
    | cons c t =>
      exact absurd (List.append_eq_nil_iff.mp h.symm).1 (CodePoint.utf8_ne_nil c)
  | cons c s ih =>
    intro t h
    cases t with
    | nil => exact absurd (List.append_eq_nil_iff.mp h).1 (CodePoint.utf8_ne_nil c)
    | cons d t =>
      simp only [List.flatMap_cons] at h
      have hhead := congrArg utf8Head h
      rw [utf8Head_utf8, utf8Head_utf8, Prod.mk.injEq] at hhead
      obtain ⟨hcd, hst⟩ := hhead
      rw [Fin.ext hcd, ih hst]

/-- Two texts with the same encoding are the same text. -/
lemma encode_injective {s t : PyStr} {b : Bytes} (hs : encode s = .ok b) (ht : encode t = .ok b) :
    s = t := by
  simp only [encode] at hs ht
  split_ifs at hs ht
  exact flatMap_utf8_injective ((Except.ok.inj hs).trans (Except.ok.inj ht).symm)

/-- A text without surrogates can be encoded. -/
lemma encode_ok_iff {s : PyStr} :
    (∃ b, encode s = .ok b) ↔ ∀ c ∈ s, CodePoint.isSurrogate c = false := by
  simp only [encode]
  split_ifs with h
  · obtain ⟨c, hc, hsur⟩ := List.any_eq_true.mp h
    simp only [exists_false, false_iff, not_forall]
    exact ⟨c, hc, by simp [hsur]⟩
  · simpa using h

/-- A literal has no surrogates. -/
lemma str_not_surrogate {s : String} {c : CodePoint} (hc : c ∈ str s) : c.isSurrogate = false := by
  obtain ⟨x, -, rfl⟩ := List.mem_map.mp hc
  have hvalid : x.toNat < 0xD800 ∨ 0xDFFF < x.toNat ∧ x.toNat < 0x110000 := x.valid
  simp only [CodePoint.isSurrogate, Fin.val_ofNat, Bool.and_eq_false_iff, decide_eq_false_iff_not]
  omega

/-! ### Hexadecimal -/

/-- Blanks that hexadecimal decoding skips: space, `\t`, `\n`, `\v`, `\f`, `\r`. -/
def CodePoint.isSpace (c : CodePoint) : Bool := c.val = 32 || (9 ≤ c.val && c.val ≤ 13)

/-- The value of a hexadecimal digit, in either case. -/
def CodePoint.hexVal (c : CodePoint) : Option ℕ :=
  if 48 ≤ c.val ∧ c.val ≤ 57 then some (c.val - 48)
  else if 97 ≤ c.val ∧ c.val ≤ 102 then some (c.val - 87)
  else if 65 ≤ c.val ∧ c.val ≤ 70 then some (c.val - 55)
  else none

/-- The lower-case digit for a value below 16. -/
def hexDigit (n : ℕ) : CodePoint := if n < 10 then Fin.ofNat _ (48 + n) else Fin.ofNat _ (87 + n)

def hexError : PyError := .valueError "non-hexadecimal number found in fromhex() arg"

/-- `bytes.fromhex(s)`: blanks may stand before a pair of digits, never inside it. -/
def fromHex : PyStr → Except PyError Bytes
  | [] => .ok []
  | [c] => if c.isSpace then .ok [] else .error hexError
  | c :: d :: s =>
    if c.isSpace then fromHex (d :: s)
    else
      match c.hexVal, d.hexVal with
      | some x, some y => (fromHex s).map (UInt8.ofNat (16 * x + y) :: ·)
      | _, _ => .error hexError

/-- Text that can be read as hexadecimal is ASCII, so it can be encoded. -/
lemma exists_encode_of_fromHex {s : PyStr} {b : Bytes} (h : fromHex s = .ok b) :
    ∃ b', encode s = .ok b' := by
  rw [encode_ok_iff]
  have hspace : ∀ c : CodePoint, c.isSpace = true → c.isSurrogate = false := by
    intro c hc
    simp only [CodePoint.isSpace, Bool.or_eq_true, Bool.and_eq_true, decide_eq_true_eq] at hc
    simp only [CodePoint.isSurrogate, Bool.and_eq_false_iff, decide_eq_false_iff_not]
    omega
  have hdigit : ∀ (c : CodePoint) (x : ℕ), c.hexVal = some x → c.isSurrogate = false := by
    intro c x hc
    simp only [CodePoint.hexVal] at hc
    simp only [CodePoint.isSurrogate, Bool.and_eq_false_iff, decide_eq_false_iff_not]
    split_ifs at hc <;> omega
  induction s using fromHex.induct generalizing b with
  | case1 => exact nofun
  | case2 c hc =>
    intro x hx
    rw [List.mem_singleton.mp hx]
    exact hspace c hc
  | case3 c hc => simp [fromHex, hc] at h
  | case4 c d s hc ih =>
    intro x hx
    rw [fromHex, if_pos hc] at h
    rcases List.mem_cons.mp hx with rfl | hx
    · exact hspace x hc
    · exact ih h x hx
  | case5 c d s hc x y hy hx ih =>
    intro z hz
    simp only [fromHex, hc, hx, hy] at h
    cases hs : fromHex s with
    | error e => simp [hs, Except.map] at h
    | ok b' =>
      rcases List.mem_cons.mp hz with rfl | hz
      · exact hdigit z x hx
      rcases List.mem_cons.mp hz with rfl | hz
      · exact hdigit z y hy
      · exact ih hs z hz
  | case6 c d s hc hno =>
    rw [fromHex, if_neg hc] at h
    split at h
    · exact absurd ‹_› (hno _ _ ‹_›)
    · cases h

/-- `b.hex()`. -/
def toHex (b : Bytes) : PyStr := b.flatMap fun x => [hexDigit (x.toNat / 16), hexDigit (x.toNat % 16)]

lemma hexVal_hexDigit {n : ℕ} (h : n < 16) :
    (hexDigit n).hexVal = some n ∧ (hexDigit n).isSpace = false := by
  interval_cases n <;> decide

lemma toHex_cons (x : UInt8) (b : Bytes) :
    toHex (x :: b) = hexDigit (x.toNat / 16) :: hexDigit (x.toNat % 16) :: toHex b := rfl

/-- Decoding undoes encoding. -/
@[simp] lemma fromHex_toHex (b : Bytes) : fromHex (toHex b) = .ok b := by
  induction b with
  | nil => rfl
  | cons x b ih =>
    have hx := x.toNat_lt
    obtain ⟨hv₁, hs₁⟩ := hexVal_hexDigit (show x.toNat / 16 < 16 by omega)
    obtain ⟨hv₂, -⟩ := hexVal_hexDigit (show x.toNat % 16 < 16 by omega)
    rw [toHex_cons, fromHex, hs₁, hv₁, hv₂, ih]
    have hx16 : 16 * (x.toNat / 16) + x.toNat % 16 = x.toNat := by omega
    simp only [hx16, Bool.false_eq_true, if_false, UInt8.ofNat_toNat]
    rfl

lemma toHex_injective : Function.Injective toHex := by
  intro a b h
  have := congrArg fromHex h
  rw [fromHex_toHex, fromHex_toHex] at this
  exact Except.ok.inj this

lemma isSome_hexVal_of_mem_toHex {b : Bytes} {c : CodePoint} (hc : c ∈ toHex b) :
    c.hexVal.isSome = true := by
  obtain ⟨x, -, hc⟩ := List.mem_flatMap.mp hc
  have hx := x.toNat_lt
  rcases List.mem_pair.mp hc with rfl | rfl
  · rw [(hexVal_hexDigit (n := x.toNat / 16) (by omega)).1]
    rfl
  · rw [(hexVal_hexDigit (n := x.toNat % 16) (by omega)).1]
    rfl

lemma isSurrogate_hexDigit {n : ℕ} (h : n < 16) : (hexDigit n).isSurrogate = false := by
  interval_cases n <;> decide

lemma toHex_not_surrogate {b : Bytes} {c : CodePoint} (hc : c ∈ toHex b) :
    c.isSurrogate = false := by
  obtain ⟨x, -, hx⟩ := List.mem_flatMap.mp hc
  have hlt := x.toNat_lt
  simp only [List.mem_cons, List.not_mem_nil, or_false] at hx
  rcases hx with rfl | rfl
  · exact isSurrogate_hexDigit (by omega)
  · exact isSurrogate_hexDigit (by omega)

/-! ### Integers -/

/-- The decimal digit for a value below 10. -/
def decDigit (n : ℕ) : CodePoint := Fin.ofNat _ (48 + n)

/-- The decimal digits of a natural number. -/
def natRepr (n : ℕ) : PyStr := if n = 0 then [decDigit 0] else (Nat.digits 10 n).reverse.map decDigit

/-- `repr(n)` of an integer. -/
def intRepr : ℤ → PyStr
  | .ofNat n => natRepr n
  | .negSucc n => Fin.ofNat _ 45 :: natRepr (n + 1)

/-- Characters that occur in a decimal integer. -/
def CodePoint.isNumeric (c : CodePoint) : Bool := c.val = 45 || (48 ≤ c.val && c.val ≤ 57)

lemma decDigit_val {n : ℕ} (h : n < 10) : (decDigit n).val = 48 + n := by
  simp only [decDigit, Fin.val_ofNat]
  omega

lemma natRepr_digits {n : ℕ} {c : CodePoint} (hc : c ∈ natRepr n) : 48 ≤ c.val ∧ c.val ≤ 57 := by
  simp only [natRepr] at hc
  split_ifs at hc with hn
  · rw [List.mem_singleton] at hc
    subst hc
    decide
  · obtain ⟨d, hd, rfl⟩ := List.mem_map.mp hc
    have hlt : d < 10 := Nat.digits_lt_base (by norm_num) (List.mem_reverse.mp hd)
    rw [decDigit_val hlt]
    omega

/-- The number that decimal digits stand for. -/
def ofDigits (s : PyStr) : ℕ := s.foldl (fun a c => 10 * a + (c.val - 48)) 0

lemma ofDigits_natRepr (n : ℕ) : ofDigits (natRepr n) = n := by
  simp only [ofDigits, natRepr]
  split_ifs with hn
  · rw [hn]; decide
  · rw [List.foldl_map]
    have hdig : ∀ l : List ℕ, (∀ d ∈ l, d < 10) →
        l.reverse.foldl (fun a d => 10 * a + ((decDigit d).val - 48)) 0 = Nat.ofDigits 10 l := by
      intro l hl
      induction l with
      | nil => rfl
      | cons d l ih =>
        rw [List.reverse_cons, List.foldl_append, List.foldl_cons, List.foldl_nil,
          ih fun e he => hl e (List.mem_cons_of_mem _ he), decDigit_val (hl d List.mem_cons_self),
          Nat.ofDigits_cons]
        omega
    rw [hdig _ fun d hd => Nat.digits_lt_base (by norm_num) hd, Nat.ofDigits_digits]

lemma natRepr_injective : Function.Injective natRepr := by
  intro m n h
  rw [← ofDigits_natRepr m, ← ofDigits_natRepr n, h]

lemma intRepr_ne_nil : ∀ n : ℤ, intRepr n ≠ []
  | .ofNat n => by
    simp only [intRepr, natRepr]
    split_ifs with hn
    · simp
    · simp [Nat.digits_eq_nil_iff_eq_zero, hn]
  | .negSucc n => by simp [intRepr]

lemma intRepr_numeric {n : ℤ} {c : CodePoint} (hc : c ∈ intRepr n) : c.isNumeric = true := by
  have hnat : ∀ m, c ∈ natRepr m → c.isNumeric = true := by
    intro m hm
    obtain ⟨h1, h2⟩ := natRepr_digits hm
    simp [CodePoint.isNumeric, h1, h2]
  cases n with
  | ofNat m => exact hnat m hc
  | negSucc m =>
    rcases List.mem_cons.mp hc with rfl | hc
    · decide
    · exact hnat _ hc

lemma intRepr_injective : Function.Injective intRepr := by
  -- a minus sign is no digit, so the sign can be read off the first character
  have hsign : ∀ m n : ℕ, natRepr m ≠ Fin.ofNat _ 45 :: natRepr n := by
    intro m n h
    have hmem : (Fin.ofNat _ 45 : CodePoint) ∈ natRepr m := h ▸ List.mem_cons_self
    exact absurd (natRepr_digits hmem).1 (by decide)
  intro m n h
  cases m with
  | ofNat m =>
    cases n with
    | ofNat n => exact congrArg Int.ofNat (natRepr_injective h)
    | negSucc n => exact absurd h (hsign m (n + 1))
  | negSucc m =>
    cases n with
    | ofNat n => exact absurd h.symm (hsign n (m + 1))
    | negSucc n =>
      have := natRepr_injective (List.cons.inj h).2
      rw [Nat.succ.inj this]

lemma intRepr_not_surrogate {n : ℤ} {c : CodePoint} (hc : c ∈ intRepr n) :
    c.isSurrogate = false := by
  have := intRepr_numeric hc
  simp only [CodePoint.isNumeric, CodePoint.isSurrogate, Bool.or_eq_true, decide_eq_true_eq,
    Bool.and_eq_true, Bool.and_eq_false_iff, decide_eq_false_iff_not] at this ⊢
  omega

end Helix
