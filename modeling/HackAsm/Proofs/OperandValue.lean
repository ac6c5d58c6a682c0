import HackAsm.Source.Operand
import Mathlib.Data.Nat.Digits.Defs

/-!
# The operand of a load is read by its value

An operand that is a numeral (at most one minus sign, then ASCII digits) is always read as a
number, and the verdict depends on nothing but the integer the numeral denotes: a value between
`0` and `2^15 - 1` is the literal of that value, so leading zeros and `-0` are accepted, and any
other value is out of range, however many digits it takes. An operand that is not a numeral is a
symbol when it is spelled as one and an undefined reference otherwise (`parse_by_value`).

The integer a numeral denotes is stated with `Nat.ofDigits` over its digits, least significant
first (`signedValue`); `decimalValue_eq_ofDigits` says that the assembler's reading of the digits,
most significant first, computes it.
-/

set_option autoImplicit false

namespace HackAsm

namespace Operand

/-- An operand's characters without its one leading minus sign, if it has one. -/
def unsigned : List Char → List Char
  | '-' :: ds => ds
  | cs => cs

/-- An operand is a numeral when, after at most one leading minus sign, it is a nonempty run of
ASCII digits. -/
def IsNumeral (s : String) : Prop :=
  unsigned s.toList ≠ [] ∧ ∀ c ∈ unsigned s.toList, c.isDigit = true

/-- The value of a decimal digit. -/
def digitValue (c : Char) : Nat :=
  c.toNat - '0'.toNat

/-- The integer a numeral denotes: its digits in base ten, negated after a minus sign. -/
def signedValue (s : String) : Int :=
  let magnitude : Nat := Nat.ofDigits 10 ((unsigned s.toList).map digitValue).reverse
  if s.toList.head? = some '-' then -(magnitude : Int) else magnitude

theorem unsigned_cons_of_ne {c : Char} (hc : c ≠ '-') (cs : List Char) :
    unsigned (c :: cs) = c :: cs := by
  unfold unsigned
  split
  next ds heq => exact absurd (List.cons.inj heq).1 hc
  next => rfl

/-- Reading the digits most significant first computes their value in base ten. -/
theorem decimalValue_eq_ofDigits (ds : List Char) :
    Numeral.decimalValue ds = Nat.ofDigits 10 (ds.map digitValue).reverse := by
  induction ds with
  | nil => rfl
  | cons c ds ih =>
    -- the first digit is worth `10 ^ ds.length` times its value
    have hfirst : Numeral.decimalValue (c :: ds) =
        10 ^ ds.length * digitValue c + Numeral.decimalValue ds := by
      simp only [Numeral.decimalValue]
      rw [← Nat.ofDigitChars_eq_foldl, ← Nat.ofDigitChars_eq_foldl, Nat.ofDigitChars_cons,
        Nat.ofDigitChars_eq_ofDigitChars_zero]
      simp [digitValue]
    rw [hfirst, ih, List.map_cons, List.reverse_cons, Nat.ofDigits_append, Nat.ofDigits_singleton,
      List.length_reverse, List.length_map]
    omega

/-- The sign and digits that reading an operand finds: a numeral's minus sign and digits, and
nothing for any other operand. -/
theorem numeral?_eq (cs : List Char) :
    numeral? cs = if !(unsigned cs).isEmpty && (unsigned cs).all Char.isDigit
      then some (cs.head? == some '-', unsigned cs) else none := by
  cases cs with
  | nil => simp [numeral?, unsigned]
  | cons c rest =>
    by_cases hc : c = '-'
    · subst hc
      simp [numeral?, unsigned]
    · rw [unsigned_cons_of_ne hc]
      unfold numeral?
      split
      next negative ds heq =>
        -- without a minus sign the whole operand is the digits
        have hsign : (false, c :: rest) = (negative, ds) := by
          rw [← heq]
          split
          next rest' heq' => exact absurd (List.cons.inj heq').1 hc
          next => rfl
        cases hsign
        have hb : (c == '-') = false := beq_false_of_ne hc
        simp [hb]

theorem isNumeral_iff {s : String} :
    IsNumeral s ↔ (!(unsigned s.toList).isEmpty && (unsigned s.toList).all Char.isDigit) = true := by
  simp [IsNumeral]

/-- A numeral's value is in range exactly when the reader's test on its sign and magnitude passes:
a negative numeral only when it is zero. -/
theorem range_iff {negative : Bool} {n : Nat} :
    (0 ≤ (if negative then -(n : Int) else n) ∧ (if negative then -(n : Int) else n) ≤ addressMax) ↔
      n ≤ addressMax ∧ (negative = false ∨ n = 0) := by
  unfold addressMax
  cases negative with
  | false => simp
  | true => simp; omega

section Numeral

variable {s : String}

/-- An operand's signed value, as the reader computes its magnitude. -/
theorem signedValue_eq (s : String) :
    signedValue s = if (s.toList.head? == some '-') then
      -(Numeral.decimalValue (unsigned s.toList) : Int)
    else (Numeral.decimalValue (unsigned s.toList) : Int) := by
  simp only [signedValue, decimalValue_eq_ofDigits, beq_iff_eq]

/-- A numeral is read as its sign and digits. -/
theorem numeral?_of_isNumeral (h : IsNumeral s) :
    numeral? s.toList = some (s.toList.head? == some '-', unsigned s.toList) := by
  rw [numeral?_eq, if_pos (isNumeral_iff.mp h)]

/-- A numeral in range is the literal of the integer it denotes. -/
theorem parse_of_numeral_in_range (h : IsNumeral s) (hr : 0 ≤ signedValue s ∧ signedValue s ≤ addressMax) :
    ∃ v : Address, parse s = .ok (.literal v) ∧ (v.val : Int) = signedValue s := by
  rw [signedValue_eq] at hr ⊢
  have hfit := range_iff.mp hr
  simp only [parse, numeral?_of_isNumeral h]
  rw [dif_pos hfit]
  refine ⟨_, rfl, ?_⟩
  -- a negative numeral in range is zero, whose negation is itself
  rcases hfit.2 with hpos | hzero
  · simp [hpos]
  · simp [hzero]

/-- A numeral out of range is refused, whatever its length. -/
theorem parse_of_numeral_out_of_range (h : IsNumeral s)
    (hr : ¬ (0 ≤ signedValue s ∧ signedValue s ≤ addressMax)) :
    parse s = .error (.addressOutOfRange s) := by
  rw [signedValue_eq, range_iff] at hr
  simp only [parse, numeral?_of_isNumeral h]
  rw [dif_neg hr]

end Numeral

/-- An operand that is not a numeral is a symbol when it is spelled as one, and an undefined
reference otherwise. -/
theorem parse_of_not_numeral {s : String} (h : ¬ IsNumeral s) :
    parse s = if Symbol.isSymbol s then .ok (.symbol s) else .error (.undefinedReference s) := by
  have hnum : numeral? s.toList = none := by
    rw [numeral?_eq, if_neg (mt isNumeral_iff.mpr h)]
  simp only [parse, hnum]

/-- Only a numeral is read as a literal, and then as the integer it denotes. -/
theorem isNumeral_of_parse_eq_literal {s : String} {v : Address}
    (h : parse s = .ok (.literal v)) : IsNumeral s ∧ (v.val : Int) = signedValue s := by
  by_cases hn : IsNumeral s
  · by_cases hr : 0 ≤ signedValue s ∧ signedValue s ≤ addressMax
    · obtain ⟨v', hv', hval⟩ := parse_of_numeral_in_range hn hr
      rw [hv'] at h
      cases h
      exact ⟨hn, hval⟩
    · rw [parse_of_numeral_out_of_range hn hr] at h
      cases h
  · rw [parse_of_not_numeral hn] at h
    split at h <;> cases h

/-- Reading an operand depends on its numeral's value alone: a numeral denoting a value from `0`
to `2^15 - 1` is the literal of that value, any other numeral is out of range, and an operand that
is not a numeral is a symbol if it is spelled as one and an undefined reference otherwise; so a
literal is always the in-range value of a numeral. -/
theorem parse_by_value (s : String) :
    (IsNumeral s → 0 ≤ signedValue s ∧ signedValue s ≤ addressMax →
      ∃ v : Address, parse s = .ok (.literal v) ∧ (v.val : Int) = signedValue s) ∧
    (IsNumeral s → ¬ (0 ≤ signedValue s ∧ signedValue s ≤ addressMax) →
      parse s = .error (.addressOutOfRange s)) ∧
    (¬ IsNumeral s →
      parse s = if Symbol.isSymbol s then .ok (.symbol s) else .error (.undefinedReference s)) ∧
    (∀ v : Address, parse s = .ok (.literal v) →
      IsNumeral s ∧ (v.val : Int) = signedValue s ∧ v.val ≤ addressMax) := by
  refine ⟨parse_of_numeral_in_range, parse_of_numeral_out_of_range, parse_of_not_numeral, ?_⟩
  intro v hv
  obtain ⟨hn, hval⟩ := isNumeral_of_parse_eq_literal hv
  exact ⟨hn, hval, Nat.le_of_lt_succ v.isLt⟩

end Operand

end HackAsm
