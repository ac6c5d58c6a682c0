/-!
# White space

Spacing is removed from assembly lines and trimmed from comments by the Unicode `White_Space`
property: twenty-five code points, the ASCII controls tab to carriage return, the space, the
next-line control, and the spaces and separators of the General Punctuation and CJK blocks.
Zero-width characters such as `U+200B` and the byte-order mark `U+FEFF` are not among them.

`isWhiteSpace_of_isWhitespace` says that core's ASCII class is contained in this one.
-/

set_option autoImplicit false

namespace HackAsm.Text

/-- The Unicode `White_Space` property. -/
def isWhiteSpace (c : Char) : Bool :=
  let n := c.toNat
  (0x09 ≤ n && n ≤ 0x0D) || n == 0x20 || n == 0x85 || n == 0xA0 || n == 0x1680 ||
    (0x2000 ≤ n && n ≤ 0x200A) || n == 0x2028 || n == 0x2029 || n == 0x202F || n == 0x205F ||
    n == 0x3000

/-- Drops white space from both ends of a list of characters. -/
def trimChars (cs : List Char) : List Char :=
  ((cs.dropWhile isWhiteSpace).reverse.dropWhile isWhiteSpace).reverse

/-- Drops white space from both ends of a text. -/
def trim (s : String) : String :=
  String.ofList (trimChars s.toList)

theorem isWhiteSpace_of_isWhitespace (c : Char) (h : c.isWhitespace = true) :
    isWhiteSpace c = true := by
  simp only [Char.isWhitespace, Bool.or_eq_true, decide_eq_true_eq] at h
  simp only [isWhiteSpace, Bool.or_eq_true, Bool.and_eq_true, beq_iff_eq, decide_eq_true_eq]
  rcases h with ((h | h) | h) | h <;> subst h <;> decide

example : isWhiteSpace '\u3000' = true := by decide
example : isWhiteSpace '\u200B' = false := by decide
example : isWhiteSpace '\uFEFF' = false := by decide

end HackAsm.Text
