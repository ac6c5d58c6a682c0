/-!
# Addresses and symbols

An A-instruction loads a fifteen-bit constant, so an address is a number below `2^15`. The
same bound limits the program: the ROM holds `2^15` instruction words.

Programs name addresses by symbols. Twenty-three symbols are fixed by the machine: the
virtual registers `R0` to `R15`, the memory-mapped screen and keyboard, and five pointer names
that alias `R0` to `R4`. A symbol is a nonempty run of ASCII letters, digits and `_ . $ :` that
does not start with a digit, so a symbol never reads as a number.
-/

set_option autoImplicit false

namespace HackAsm

/-- A value an A-instruction can load: fifteen bits. -/
abbrev Address := Fin 32768

/-- The largest address, `2^15 - 1`. -/
def addressMax : Nat := 32767

/-- The number of instruction words the ROM holds. -/
def romSize : Nat := 32768

/-- The first RAM address handed out to a variable. -/
def variableBase : Nat := 16

namespace Symbol

/-- The symbols the machine defines, in the manual's order. -/
def predefined : List (String × Address) :=
  [("R0", 0), ("R1", 1), ("R2", 2), ("R3", 3), ("R4", 4), ("R5", 5), ("R6", 6), ("R7", 7),
    ("R8", 8), ("R9", 9), ("R10", 10), ("R11", 11), ("R12", 12), ("R13", 13), ("R14", 14),
    ("R15", 15), ("SCREEN", 16384), ("KBD", 24576), ("SP", 0), ("LCL", 1), ("ARG", 2),
    ("THIS", 3), ("THAT", 4)]

/-- The address of a predefined symbol. -/
def predefined? (name : String) : Option Address :=
  predefined.lookup name

/-- A character that may stand in a symbol. -/
def isSymbolChar (c : Char) : Bool :=
  c.isAlphanum || c == '_' || c == '.' || c == '$' || c == ':'

/-- The symbol grammar `[A-Za-z_.$:][A-Za-z0-9_.$:]*` on a list of characters. -/
def isSymbolChars : List Char → Bool
  | [] => false
  | c :: cs => isSymbolChar c && !c.isDigit && cs.all isSymbolChar

/-- Whether `s` is spelled as a symbol. -/
def isSymbol (s : String) : Bool :=
  isSymbolChars s.toList

example : isSymbol "Main.main$ret.1" = true := by decide
example : isSymbol "1abc" = false := by decide
example : predefined? "KBD" = some 24576 := by decide

end Symbol

end HackAsm
