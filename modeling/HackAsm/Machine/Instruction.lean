import HackAsm.Machine.Comp
import HackAsm.Machine.Dest
import HackAsm.Machine.Jump
import HackAsm.Machine.Symbol
import HackAsm.Text.Numeral
import HackAsm.Text.Ansi

/-!
# Instructions and their sixteen-bit words

A Hack instruction either loads a fifteen-bit constant into A (`@value`) or computes
(`dest=comp;jump`). Its machine word has bit 15 clear for a load, whose other bits are the
constant; a computation has bits 15 to 13 set, then the ALU input bit, the six control bits,
three destination bits and three jump bits.

An instruction has two renderings: the plain text that an assembler reads back, and the same
text in colour for the listing, where the destination is blue, the computation green, the jump
red, and a load is a red `@` before a yellow number.
-/

set_option autoImplicit false

namespace HackAsm

/-- A Hack instruction. -/
inductive Instruction where
  /-- `@value`: load a constant into A. -/
  | load (value : Address)
  /-- `dest=comp;jump`. -/
  | compute (input : AluInput) (comp : Comp) (dest : Dest) (jump : Jump)
  deriving DecidableEq, Repr

namespace Instruction

/-- The machine word, as a number below `2^16`. -/
def encode : Instruction → Nat
  | load v => v.val
  | compute input comp dest jump =>
    7 * 2 ^ 13 + input.bit * 2 ^ 12 + comp.code * 2 ^ 6 + dest.code * 2 ^ 3 + jump.code

/-- The machine word as sixteen binary digits, most significant first. -/
def binary (inst : Instruction) : String :=
  Numeral.word inst.encode

/-- The assembly text: `@value`, or `dest=comp;jump` without the parts that are absent. -/
def render : Instruction → String
  | load v => "@" ++ toString v.val
  | compute input comp dest jump =>
    (if dest = .null then "" else dest.spelling ++ "=") ++ comp.mnemonic input ++
      (if jump = .null then "" else ";" ++ jump.spelling)

/-- The assembly text as coloured runs. -/
def runs : Instruction → List (Ansi.Style × String)
  | load v => [(Ansi.fg .red, "@"), (Ansi.fg .yellow, toString v.val)]
  | compute input comp dest jump =>
    (if dest = .null then [] else [(Ansi.fg .blue, dest.spelling), (Ansi.plain, "=")]) ++
      [(Ansi.fg .green, comp.mnemonic input)] ++
      (if jump = .null then [] else [(Ansi.plain, ";"), (Ansi.fg .red, jump.spelling)])

/-- The assembly text in colour. -/
def highlight (inst : Instruction) : String :=
  Ansi.render inst.runs

theorem encode_lt (inst : Instruction) : inst.encode < 2 ^ 16 := by
  cases inst with
  | load v => simp only [encode]; omega
  | compute input comp dest jump =>
    have := comp.code_lt
    have := dest.code_lt
    have := jump.code_lt
    have : input.bit < 2 := by cases input <;> decide
    simp only [encode]
    omega

example : (compute .a .zero .ad .jgt).encode = 60081 := by decide
example : (compute .m .decA .am .jne).render = "AM=M-1;JNE" := by decide
example : (load 23).highlight = "\x1b[31m@\x1b[33m23\x1b[39m" := by decide

end Instruction

end HackAsm
