/-!
# Numerals of fixed width

The assembler prints numbers in three shapes: a machine word as sixteen binary digits, a ROM
address as at least four upper-case hexadecimal digits, and a line number right-aligned in a
column of four. Each shape is one function here, beside `decimalValue`, which reads a string
of decimal digits back as a number.

The binary numeral is built digit by digit from the low end, so the character at position `k`
of `binary w n` is bit `w - 1 - k` of `n`; `length_binary` and `binary_mod` say that the width is
exact and that only the low `w` bits are read.
-/

set_option autoImplicit false

namespace HackAsm.Numeral

/-- Powers of natural numbers by core's `Nat.pow`, also for a literal exponent, ahead of the
instance a larger library may bring for them, so that a statement about powers reads the same
wherever it is imported. -/
@[default_instance 20000]
instance (priority := 1100) natPow : Pow Nat Nat := instPowNat

/-- The value of a string of decimal digits, most significant first. -/
def decimalValue (ds : List Char) : Nat :=
  ds.foldl (fun n c => 10 * n + (c.toNat - '0'.toNat)) 0

/-- The lowest `width` binary digits of `n`, most significant first. -/
def binary : Nat → Nat → List Char
  | 0, _ => []
  | w + 1, n => binary w (n / 2) ++ [if n % 2 = 1 then '1' else '0']

/-- A sixteen-bit word as sixteen binary digits. -/
def word (n : Nat) : String :=
  String.ofList (binary 16 n)

/-- Pads `cs` on the left with `c` up to `width` characters; a longer text is kept whole. -/
def padLeft (c : Char) (width : Nat) (cs : List Char) : List Char :=
  List.replicate (width - cs.length) c ++ cs

/-- Hexadecimal digits of `n` in upper case, most significant first, with no leading zero. -/
def hexDigits (n : Nat) : List Char :=
  (Nat.toDigits 16 n).map Char.toUpper

/-- An address as at least four upper-case hexadecimal digits. -/
def hex4 (n : Nat) : String :=
  String.ofList (padLeft '0' 4 (hexDigits n))

/-- `s` right-aligned in a column of `width` characters; a longer text is not cut. -/
def alignRight (width : Nat) (s : String) : String :=
  String.ofList (padLeft ' ' width s.toList)

/-- A number right-aligned in a column of `width` characters. -/
def natRight (width n : Nat) : String :=
  alignRight width (toString n)

@[simp]
theorem length_binary (w n : Nat) : (binary w n).length = w := by
  induction w generalizing n with
  | zero => rfl
  | succ w ih => simp [binary, ih]

/-- Only the low `w` bits of a number show in its numeral of width `w`. -/
theorem binary_mod (w n : Nat) : binary w (n % 2 ^ w) = binary w n := by
  induction w generalizing n with
  | zero => rfl
  | succ w ih =>
    have hdiv : n % 2 ^ (w + 1) / 2 = n / 2 % 2 ^ w := by
      rw [Nat.pow_succ', Nat.mod_mul_right_div_self]
    have hmod : n % 2 ^ (w + 1) % 2 = n % 2 :=
      Nat.mod_mod_of_dvd n (Nat.dvd_of_mod_eq_zero (by simp [Nat.pow_succ', Nat.mul_mod_right]))
    simp only [binary, hdiv, hmod, ih]

theorem length_padLeft (c : Char) (width : Nat) (cs : List Char) :
    (padLeft c width cs).length = max width cs.length := by
  simp [padLeft]
  omega

example : word 5 = "0000000000000101" := by decide
example : hex4 14 = "000E" := by decide
example : hex4 0x12345 = "12345" := by decide
example : natRight 4 7 = "   7" := by decide

end HackAsm.Numeral
