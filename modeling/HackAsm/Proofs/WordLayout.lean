import HackAsm.Machine.Instruction

/-!
# The layout of a machine word

A load's word is its fifteen-bit value, so bit 15 is clear. A computation's word packs five
fields side by side: bits 15 to 13 are set, bit 12 selects the ALU input, bits 11 to 6 are the
control bits, bits 5 to 3 the destination and bits 2 to 0 the jump (`encode_fields`). Every field
code is below its width, so no field spills into the next, and reading the fields back recovers
the instruction: the encoding is injective (`encode_injective`). The memory form of a computation
is its register form with bit 12 set and nothing else changed (`encode_xor_input`).

The binary numeral of a word has sixteen characters, and the character at position `k` is bit
`15 - k` (`getElem?_binary`).
-/

set_option autoImplicit false

namespace HackAsm

/-- The `width` bits of `w` from bit `lo` up, read as a number. -/
def bits (w lo width : Nat) : Nat :=
  w / 2 ^ lo % 2 ^ width

/-- Setting a clear bit of a number changes that bit alone: the two numbers differ by exactly
`2 ^ i` in the bitwise sense. -/
theorem xor_two_pow_mul_add {i q b : Nat} (hb : b < 2 ^ i) :
    (2 ^ i * (2 * q) + b) ^^^ (2 ^ i * (2 * q + 1) + b) = 2 ^ i := by
  apply Nat.eq_of_testBit_eq
  intro j
  rw [Nat.testBit_xor, Nat.testBit_two_pow_mul_add _ hb, Nat.testBit_two_pow_mul_add _ hb,
    Nat.testBit_two_pow]
  by_cases hj : j < i
  · simp [hj, Nat.ne_of_gt hj]
  · -- above bit `i` the two high parts `2q` and `2q + 1` differ in their lowest bit only
    have heven := @Nat.testBit_two_pow_mul_add q 0 1 (by decide) (j - i)
    have hodd := @Nat.testBit_two_pow_mul_add q 1 1 (by decide) (j - i)
    rw [Nat.pow_one, Nat.add_zero] at heven
    rw [Nat.pow_one] at hodd
    rw [if_neg hj, if_neg hj, heven, hodd]
    by_cases hji : j - i < 1
    · obtain rfl : i = j := by omega
      simp
    · have hij : i ≠ j := by omega
      simp [hji, hij]

theorem AluInput.bit_lt (input : AluInput) : input.bit < 2 := by
  cases input <;> decide

theorem AluInput.bit_injective {x y : AluInput} (h : x.bit = y.bit) : x = y := by
  cases x <;> cases y <;> simp_all [AluInput.bit]

namespace Numeral

/-- The character at position `k` of the numeral of width `w` is bit `w - 1 - k`: the numeral
is written most significant bit first. -/
theorem getElem?_binary {w n k : Nat} (hk : k < w) :
    (binary w n)[k]? = some (if n.testBit (w - 1 - k) then '1' else '0') := by
  induction w generalizing n with
  | zero => omega
  | succ w ih =>
    rw [binary]
    by_cases hkw : k < w
    · -- a position among the high digits: those of `n / 2` one place further left
      have hbit : w - 1 - k + 1 = w + 1 - 1 - k := by omega
      rw [List.getElem?_append_left (by simpa using hkw), ih hkw, Nat.testBit_div_two, hbit]
    · have hkw' : k = w := by omega
      subst hkw'
      rw [List.getElem?_append_right (by simp)]
      simp [Nat.testBit_zero]

end Numeral

namespace Instruction

/-- A computation's word as its fields side by side. -/
theorem encode_compute (input : AluInput) (comp : Comp) (dest : Dest) (jump : Jump) :
    (compute input comp dest jump).encode =
      2 ^ 12 * (2 * 7 + input.bit) + (2 ^ 6 * comp.code + (2 ^ 3 * dest.code + jump.code)) := by
  simp only [encode]
  omega

/-- The low twelve bits of a computation: control, destination and jump bits. -/
theorem low_lt (comp : Comp) (dest : Dest) (jump : Jump) :
    2 ^ 6 * comp.code + (2 ^ 3 * dest.code + jump.code) < 2 ^ 12 := by
  have := comp.code_lt
  have := dest.code_lt
  have := jump.code_lt
  omega

/-- A load's word is its value, which has bit 15 clear. -/
theorem encode_load (v : Address) : (load v).encode = v.val ∧ (load v).encode.testBit 15 = false :=
  ⟨rfl, Nat.testBit_lt_two_pow v.isLt⟩

/-- The five fields of a computation's word, from the top: `111`, the input bit, the control
bits, the destination and the jump. -/
structure Fields (w : Nat) (input : AluInput) (comp : Comp) (dest : Dest) (jump : Jump) : Prop where
  lt : w < 2 ^ 16
  top : bits w 13 3 = 0b111
  input : bits w 12 1 = input.bit
  comp : bits w 6 6 = comp.code
  dest : bits w 3 3 = dest.code
  jump : bits w 0 3 = jump.code

theorem encode_fields (input : AluInput) (comp : Comp) (dest : Dest) (jump : Jump) :
    Fields (compute input comp dest jump).encode input comp dest jump := by
  have := input.bit_lt
  have := comp.code_lt
  have := dest.code_lt
  have := jump.code_lt
  -- each field is a division and a remainder by powers of two, which `omega` reads off
  refine ⟨encode_lt _, ?_, ?_, ?_, ?_, ?_⟩ <;> simp only [bits, encode] <;> omega

theorem encode_load_lt (v : Address) : (load v).encode < 2 ^ 15 :=
  v.isLt

theorem two_pow_le_encode_compute (input : AluInput) (comp : Comp) (dest : Dest) (jump : Jump) :
    2 ^ 15 ≤ (compute input comp dest jump).encode := by
  simp only [encode]
  omega

/-- Equal words make equal instructions. -/
theorem encode_injective : Function.Injective encode := by
  intro x y h
  cases x with
  | load v =>
    cases y with
    | load v' => exact congrArg load (Fin.ext h)
    | compute input comp dest jump =>
      -- a load's word is below `2 ^ 15`, a computation's has bit 15 set
      have := encode_load_lt v
      have := two_pow_le_encode_compute input comp dest jump
      omega
  | compute input comp dest jump =>
    cases y with
    | load v' =>
      have := encode_load_lt v'
      have := two_pow_le_encode_compute input comp dest jump
      omega
    | compute input' comp' dest' jump' =>
      have hx := encode_fields input comp dest jump
      have hy := encode_fields input' comp' dest' jump'
      rw [h] at hx
      rw [AluInput.bit_injective (hx.input.symm.trans hy.input),
        Comp.code_injective (hx.comp.symm.trans hy.comp),
        Dest.code_injective (hx.dest.symm.trans hy.dest),
        Jump.code_injective (hx.jump.symm.trans hy.jump)]

/-- The memory form of a computation differs from its register form in bit 12 alone. -/
theorem encode_xor_input (comp : Comp) (dest : Dest) (jump : Jump) :
    (compute .a comp dest jump).encode ^^^ (compute .m comp dest jump).encode = 2 ^ 12 := by
  rw [encode_compute, encode_compute]
  exact xor_two_pow_mul_add (low_lt comp dest jump)

/-- The binary numeral of a word: sixteen characters, bit `15 - k` at position `k`. -/
theorem getElem?_binary (inst : Instruction) (k : Fin 16) :
    inst.binary.toList[k.val]? = some (if inst.encode.testBit (15 - k.val) then '1' else '0') := by
  simp only [binary, Numeral.word, String.toList_ofList]
  exact Numeral.getElem?_binary k.isLt

theorem length_binary (inst : Instruction) : inst.binary.length = 16 := by
  simp [binary, Numeral.word]

/-- The machine word packs disjoint fields and determines the instruction: a load is its value
with bit 15 clear; a computation is `111`, the input bit, the control bits, the destination and
the jump, from bit 15 down; no two instructions share a word; the two inputs of one computation
differ in bit 12 alone; and the binary numeral of a word is its sixteen bits, most significant
first. -/
theorem word_layout :
    (∀ v : Address, (load v).encode = v.val ∧ (load v).encode.testBit 15 = false) ∧
    (∀ input comp dest jump, Fields (compute input comp dest jump).encode input comp dest jump) ∧
    Function.Injective encode ∧
    (∀ comp dest jump,
      (compute .a comp dest jump).encode ^^^ (compute .m comp dest jump).encode = 2 ^ 12) ∧
    (∀ inst : Instruction, inst.binary.length = 16 ∧ ∀ k : Fin 16,
      inst.binary.toList[k.val]? = some (if inst.encode.testBit (15 - k.val) then '1' else '0')) :=
  ⟨encode_load, encode_fields, encode_injective, encode_xor_input,
    fun inst => ⟨length_binary inst, getElem?_binary inst⟩⟩

end Instruction

end HackAsm
