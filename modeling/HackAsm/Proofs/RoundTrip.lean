import HackAsm.Proofs.Iterator
import HackAsm.Proofs.LineCode

/-!
# Printing a program and reading it back

An instruction prints as `@value` or as `dest=comp;jump` without its absent parts
(`Instruction.render`). This file proves that the assembler reads such a text back: a program
printed one instruction a line assembles to exactly its instructions, each at the address of its
line, and allocates no variable (`assemble_intercalate_render`).

One side condition is needed. A computation that does not read its second input is spelled the
same for both inputs (`D` is `D` for the register and for memory), and a text without `M` is read
with the register. So the statement is about canonical instructions (`Instruction.Canonical`):
every load, and every computation that reads the register or names memory in its spelling.

The proof goes through the layers of reading one line. The text of an instruction holds no white
space, no `/` and no `(`, so normalisation keeps it whole and it is classified as an instruction
(`Line.read_render`). Its fields hold none of the signs `@`, `=` and `;` that cut a computation
apart (`isFieldChar`), so the cuts fall exactly between the fields (`computeFields_render`) and
each field reads back as itself (`Code.parse_render_compute`). Joining the printed lines with line feeds
and splitting the text again gives back the lines (`Text.splitLines_intercalate`).
-/

set_option autoImplicit false

namespace HackAsm

/-! ## Splitting a joined text -/

theorem Text.dropReturn_of_not_mem {cs : List Char} (h : '\r' ∉ cs) : Text.dropReturn cs = cs := by
  have hlast : cs.getLast? ≠ some '\r' := fun hl => h (List.mem_of_getLast? hl)
  simp [Text.dropReturn, hlast]

/-- Lines that are not empty and hold no line end, joined by line feeds, split back into
themselves. -/
theorem Text.splitLines_intercalate {strs : List String}
    (h : ∀ s ∈ strs, s ≠ "" ∧ '\n' ∉ s.toList ∧ '\r' ∉ s.toList) :
    Text.splitLines ("\n".intercalate strs) = strs := by
  rcases List.eq_nil_or_concat strs with rfl | ⟨init, last, rfl⟩
  · rfl
  · rw [List.concat_eq_append] at h ⊢
    have hsplit : ("\n".intercalate (init ++ [last])).toList.splitOn '\n' =
        init.map String.toList ++ [last.toList] := by
      rw [String.toList_intercalate]
      have hlf : ∀ l ∈ (init ++ [last]).map String.toList, '\n' ∉ l := by
        intro l hl
        obtain ⟨s, hs, rfl⟩ := List.mem_map.mp hl
        exact (h s hs).2.1
      simpa using List.splitOn_intercalate '\n' hlf (by simp)
    have hlast : last.toList.isEmpty = false := by
      simpa [List.isEmpty_iff, String.toList_eq_nil_iff] using (h last (by simp)).1
    unfold Text.splitLines
    rw [hsplit, List.reverse_append, List.reverse_singleton, List.singleton_append]
    simp only [List.reverse_reverse, hlast, List.map_map, Bool.false_eq_true, if_false,
      String.ofList_toList]
    congr 1
    -- the lines before the last were ended by a line feed and lose no carriage return
    conv => rhs; rw [← List.map_id init]
    refine List.map_congr_left fun s hs => ?_
    simp only [Function.comp_apply, id, Text.dropReturn_of_not_mem (h s (by simp [hs])).2.2,
      String.ofList_toList]

/-! ## The characters of an instruction's text -/

/-- A character that may stand in a field of an instruction's text: not white space, and none
of the signs that cut a line into its parts, the `/` of a comment, the `(` of a label, the `@` of
a load, and the `=` and `;` between the fields of a computation. -/
def isFieldChar (c : Char) : Bool :=
  !Text.isWhiteSpace c && c != '/' && c != '(' && c != '@' && c != '=' && c != ';'

theorem isFieldChar_iff {c : Char} :
    isFieldChar c = true ↔ Text.isWhiteSpace c = false ∧ c ≠ '/' ∧ c ≠ '(' ∧ c ≠ '@' ∧
      c ≠ '=' ∧ c ≠ ';' := by
  simp [isFieldChar, and_assoc]

theorem isFieldChar_of_isDigit {c : Char} (h : c.isDigit = true) : isFieldChar c = true := by
  have hc : '0'.toNat ≤ c.toNat ∧ c.toNat ≤ '9'.toNat := Char.isDigit_iff_toNat.mp h
  simp only [Char.reduceToNat] at hc
  refine isFieldChar_iff.mpr ⟨?_, ?_, ?_, ?_, ?_, ?_⟩
  · simp only [Text.isWhiteSpace, Bool.or_eq_false_iff, Bool.and_eq_false_iff,
      beq_eq_false_iff_ne, decide_eq_false_iff_not]
    omega
  all_goals
    rintro rfl
    simp at hc

theorem Dest.isFieldChar_spelling (x : Dest) : ∀ c ∈ x.spelling.toList, isFieldChar c = true := by
  have h : x.spelling.toList.all isFieldChar = true := by cases x <;> decide
  exact List.all_eq_true.mp h

theorem Jump.isFieldChar_spelling (x : Jump) : ∀ c ∈ x.spelling.toList, isFieldChar c = true := by
  have h : x.spelling.toList.all isFieldChar = true := by cases x <;> decide
  exact List.all_eq_true.mp h

theorem Comp.isFieldChar_mnemonic (c : Comp) (i : AluInput) :
    ∀ ch ∈ (c.mnemonic i).toList, isFieldChar ch = true := by
  -- checked as one `List.all` per spelling
  have h : (c.mnemonic i).toList.all isFieldChar = true := by cases c <;> cases i <;> decide
  exact List.all_eq_true.mp h

/-- A run of field characters holds none of the given sign. -/
theorem not_mem_of_isFieldChar {cs : List Char} {sep : Char} (hsep : isFieldChar sep = false)
    (h : ∀ c ∈ cs, isFieldChar c = true) : sep ∉ cs := by
  intro hmem
  rw [h sep hmem] at hsep
  cases hsep

/-! ## The text of an instruction -/

namespace Instruction

/-- An instruction that its text names unambiguously: a load, or a computation that reads the A
register or whose spelling mentions its second input. A computation of memory that does not read
it (`D` with the memory bit set) prints as the register form and reads back as that. -/
def Canonical : Instruction → Prop
  | load _ => True
  | compute input comp _ _ => input = .a ∨ comp.usesA = true

instance : DecidablePred Canonical
  | load _ => inferInstanceAs (Decidable True)
  | compute input comp _ _ => inferInstanceAs (Decidable (input = .a ∨ comp.usesA = true))

theorem toList_render_load (v : Address) :
    (load v).render.toList = '@' :: Nat.toDigits 10 v.val := by
  simp [render]

theorem toList_render_compute (input : AluInput) (comp : Comp) (dest : Dest) (jump : Jump) :
    (compute input comp dest jump).render.toList =
      ((if dest = .null then [] else dest.spelling.toList ++ ['=']) ++ (comp.mnemonic input).toList) ++
        (if jump = .null then [] else ';' :: jump.spelling.toList) := by
  simp only [render]
  split <;> split <;> simp

/-- Every character of a computation's text is a field character, `=` or `;`. -/
theorem mem_render_compute {input : AluInput} {comp : Comp} {dest : Dest} {jump : Jump} {c : Char}
    (h : c ∈ (compute input comp dest jump).render.toList) :
    isFieldChar c = true ∨ c = '=' ∨ c = ';' := by
  rw [toList_render_compute] at h
  simp only [List.mem_append] at h
  rcases h with (hdest | hcomp) | hjump
  · split at hdest
    · cases hdest
    · simp only [List.mem_append, List.mem_singleton] at hdest
      rcases hdest with hdest | rfl
      · exact .inl (dest.isFieldChar_spelling c hdest)
      · exact .inr (.inl rfl)
  · exact .inl (comp.isFieldChar_mnemonic input c hcomp)
  · split at hjump
    · cases hjump
    · rcases List.mem_cons.mp hjump with rfl | hjump
      · exact .inr (.inr rfl)
      · exact .inl (jump.isFieldChar_spelling c hjump)

/-- Every character of an instruction's text is a field character or one of `@ = ;`. -/
theorem mem_render {inst : Instruction} {c : Char} (h : c ∈ inst.render.toList) :
    isFieldChar c = true ∨ c = '@' ∨ c = '=' ∨ c = ';' := by
  cases inst with
  | load v =>
    rw [toList_render_load, List.mem_cons] at h
    rcases h with rfl | h
    · exact .inr (.inl rfl)
    · exact .inl (isFieldChar_of_isDigit (Nat.isDigit_of_mem_toDigits (by decide) (by decide) h))
  | compute input comp dest jump =>
    rcases mem_render_compute h with hc | hc
    · exact .inl hc
    · exact .inr (.inr hc)

/-- The text of an instruction holds no white space, no `/` and no `(`. -/
theorem plain_of_mem_render {inst : Instruction} {c : Char} (h : c ∈ inst.render.toList) :
    Text.isWhiteSpace c = false ∧ c ≠ '/' ∧ c ≠ '(' := by
  rcases mem_render h with hc | rfl | rfl | rfl
  · obtain ⟨hws, hslash, hparen, -⟩ := isFieldChar_iff.mp hc
    exact ⟨hws, hslash, hparen⟩
  all_goals decide

theorem render_ne_empty (inst : Instruction) : inst.render ≠ "" := by
  intro h
  have hnil : inst.render.toList = [] := by simp [h]
  cases inst with
  | load v => simp [toList_render_load] at hnil
  | compute input comp dest jump =>
    have hcomp : comp.mnemonic input ≠ "" := by cases comp <;> cases input <;> decide
    rw [toList_render_compute] at hnil
    simp only [List.append_eq_nil_iff, String.toList_eq_nil_iff] at hnil
    exact hcomp hnil.1.2

end Instruction

/-! ## Reading the line of one instruction -/

/-- A text that holds code and neither white space nor `/` is its own code. -/
theorem normalize_of_forall {s : String} (hne : s ≠ "")
    (h : ∀ c ∈ s.toList, Text.isWhiteSpace c = false ∧ c ≠ '/') : normalize s = some s := by
  have hkept : (beforeComment s.toList).filter (fun c => !Text.isWhiteSpace c) = s.toList := by
    have hall : beforeComment s.toList = s.toList := by
      simpa [beforeComment] using beforeComment_append_of_not_mem (fun hs => (h '/' hs).2 rfl) []
    rw [hall, List.filter_eq_self]
    intro c hc
    simp [(h c hc).1]
  unfold normalize
  rw [hkept]
  split
  · rename_i hnil
    exact absurd (String.toList_eq_nil_iff.mp hnil) hne
  · rw [String.ofList_toList]

/-- The line of an instruction's text is an instruction line whose code is that text. -/
theorem Line.read_render (k : Nat) (inst : Instruction) :
    (Line.read k inst.render).code = inst.render ∧
      (Line.read k inst.render).statement = .instruction := by
  have hnorm : normalize inst.render = some inst.render :=
    normalize_of_forall inst.render_ne_empty fun c hc =>
      ⟨(Instruction.plain_of_mem_render hc).1, (Instruction.plain_of_mem_render hc).2.1⟩
  simp only [Line.read, hnorm, Option.getD_some, true_and]
  rw [Statement.classify_eq_instruction_iff]
  -- a label line starts with `(`, which the text of an instruction does not hold
  refine ⟨inst.render_ne_empty, fun name _ heq => ?_⟩
  have hmem : '(' ∈ inst.render.toList := by simp [heq]
  exact (Instruction.plain_of_mem_render hmem).2.2 rfl

/-! ## Reading the code of one instruction -/

theorem splitAtFirst_eq_none {sep : Char} {cs : List Char} (h : sep ∉ cs) :
    splitAtFirst sep cs = none := by
  induction cs with
  | nil => rfl
  | cons c rest ih =>
    have hc : c ≠ sep := fun hc => h (hc ▸ List.mem_cons_self)
    simp [splitAtFirst, hc, ih fun hr => h (List.mem_cons_of_mem c hr)]

theorem splitAtFirst_append_cons {sep : Char} {a b : List Char} (h : sep ∉ a) :
    splitAtFirst sep (a ++ sep :: b) = some (a, b) := by
  induction a with
  | nil => simp [splitAtFirst]
  | cons c rest ih =>
    have hc : c ≠ sep := fun hc => h (hc ▸ List.mem_cons_self)
    simp [splitAtFirst, hc, ih fun hr => h (List.mem_cons_of_mem c hr)]

/-- The cuts at the first `=` and the first `;` of a computation's text fall between its fields,
whichever of the destination and the jump are absent. -/
theorem computeFields_render (input : AluInput) (comp : Comp) (dest : Dest) (jump : Jump) :
    computeFields (Instruction.compute input comp dest jump).render.toList =
      (dest.spelling.toList, (comp.mnemonic input).toList, jump.spelling.toList) := by
  have hfield := comp.isFieldChar_mnemonic input
  have heq : '=' ∉ (comp.mnemonic input).toList := not_mem_of_isFieldChar (by decide) hfield
  have hsemi : ';' ∉ (comp.mnemonic input).toList := not_mem_of_isFieldChar (by decide) hfield
  -- after the destination: the computation, then the jump
  have hrest : splitAtFirst ';' ((comp.mnemonic input).toList ++
      (if jump = .null then [] else ';' :: jump.spelling.toList)) =
        if jump = .null then none else some ((comp.mnemonic input).toList, jump.spelling.toList) := by
    split
    · rw [List.append_nil]
      exact splitAtFirst_eq_none hsemi
    · exact splitAtFirst_append_cons hsemi
  have hjumpEq : '=' ∉ (if jump = .null then [] else ';' :: jump.spelling.toList) := by
    split
    · simp
    · simp only [List.mem_cons, not_or]
      exact ⟨by decide, not_mem_of_isFieldChar (by decide) jump.isFieldChar_spelling⟩
  rw [Instruction.toList_render_compute, List.append_assoc]
  unfold computeFields
  by_cases hd : dest = .null
  · subst hd
    rw [if_pos rfl, List.nil_append,
      splitAtFirst_eq_none (by simp only [List.mem_append, not_or]; exact ⟨heq, hjumpEq⟩)]
    simp only [Option.getD_none, hrest]
    by_cases hj : jump = .null
    · subst hj
      simp [Dest.spelling, Jump.spelling]
    · simp [hj, Dest.spelling]
  · rw [if_neg hd, List.append_assoc, List.singleton_append,
      splitAtFirst_append_cons (not_mem_of_isFieldChar (by decide) dest.isFieldChar_spelling)]
    simp only [Option.getD_some, hrest]
    by_cases hj : jump = .null
    · subst hj
      simp [Jump.spelling]
    · simp [hj]

theorem Operand.numeral?_of_isDigit {cs : List Char} (hne : cs ≠ [])
    (h : ∀ c ∈ cs, c.isDigit = true) : Operand.numeral? cs = some (false, cs) := by
  obtain ⟨c, rest, rfl⟩ := List.exists_cons_of_ne_nil hne
  have hc : c ≠ '-' := by
    rintro rfl
    simpa using h '-' List.mem_cons_self
  unfold Operand.numeral?
  split
  next negative ds heq =>
    -- a numeral that does not start with a minus sign is positive and all digits
    have hsign : (false, c :: rest) = (negative, ds) := by
      rw [← heq]
      split
      · rename_i heq'
        exact absurd (List.cons.inj heq').1 hc
      · rfl
    cases hsign
    simp [List.all_eq_true.mpr h]

/-- A number's decimal numeral reads back as that number when it fits in fifteen bits. -/
theorem Operand.parse_toString (v : Address) :
    Operand.parse (toString v.val) = .ok (.literal v) := by
  have hdigits : ∀ c ∈ Nat.toDigits 10 v.val, c.isDigit = true :=
    fun c hc => Nat.isDigit_of_mem_toDigits (by decide) (by decide) hc
  have hvalue : Numeral.decimalValue (Nat.toDigits 10 v.val) = v.val :=
    Nat.ofDigitChars_ten_toDigits
  have hfit : v.val ≤ addressMax := by
    have := v.isLt
    unfold addressMax
    omega
  simp only [Operand.parse, Nat.toString_eq_ofList_toDigits, String.toList_ofList,
    Operand.numeral?_of_isDigit Nat.toDigits_ne_nil hdigits, hvalue]
  rw [dif_pos ⟨hfit, .inl trivial⟩]

/-- The text of a computation that names its input reads back field by field. -/
theorem Code.parse_render_compute {input : AluInput} {comp : Comp} {dest : Dest} {jump : Jump}
    (h : input = .a ∨ comp.usesA = true) :
    Code.parse (Instruction.compute input comp dest jump).render =
      .ok (.compute input comp dest jump) := by
  unfold Code.parse
  split
  · -- the text of a computation holds no `@`
    rename_i rest hcs
    have hat : '@' ∈ (Instruction.compute input comp dest jump).render.toList := by simp [hcs]
    rcases Instruction.mem_render_compute hat with hc | hc | hc
    · cases (isFieldChar_iff.mp hc).2.2.2.1 rfl
    · cases hc
    · cases hc
  · rw [computeFields_render]
    simp only [String.ofList_toList, Dest.parse?_spelling, Comp.parse?_mnemonic comp input h,
      Jump.parse?_spelling]

/-- The line of a canonical instruction's text assembles to that instruction, in any context,
and leaves the context as it was. -/
theorem encodeLine_read_render {inst : Instruction} (h : inst.Canonical) (k : Nat)
    (ctx : Context) : encodeLine (Line.read k inst.render) ctx = (.ok inst, ctx) := by
  unfold encodeLine
  rw [(Line.read_render k inst).1]
  cases inst with
  | load v =>
    rw [Instruction.render, Code.parse_load (Operand.parse_toString v)]
    rfl
  | compute input comp dest jump =>
    rw [Code.parse_render_compute h]
    rfl

/-! ## A printed program -/

/-- The first pass over instruction lines that fit in the ROM binds nothing and fails nowhere. -/
theorem collectLabelsFrom_of_instructions {pc : Nat} {t : Table} {lines : List Line}
    (hs : ∀ line ∈ lines, line.statement = .instruction) (hlen : pc + lines.length ≤ romSize) :
    collectLabelsFrom pc t lines = .ok t := by
  induction lines generalizing pc with
  | nil => rfl
  | cons line rest ih =>
    have hline : line.statement = .instruction := hs line List.mem_cons_self
    have hpc : pc < romSize := by
      simp only [List.length_cons] at hlen
      omega
    simp only [collectLabelsFrom, hline, if_pos hpc]
    exact ih (fun l hl => hs l (List.mem_cons_of_mem line hl))
      (by simp only [List.length_cons] at hlen; omega)

/-- The second pass over the printed lines of canonical instructions, the first of them with
index `n`, gives each its word at address `n` onwards, fails nowhere and allocates nothing. -/
theorem encodeFrom_read_render (ctx : Context) (n : Nat) {insts : List Instruction}
    (hc : ∀ inst ∈ insts, inst.Canonical) :
    encodeFrom n ctx #[] ((insts.map Instruction.render).mapIdx fun k s => Line.read (n + k) s) =
      { words := (insts.mapIdx fun k inst => (⟨n + k, n + k, inst⟩ : Word)).toArray,
        failure := none, context := ctx } := by
  induction insts generalizing n with
  | nil => rfl
  | cons inst rest ih =>
    have hinst : inst.Canonical := hc inst List.mem_cons_self
    -- the lines after the first are those of the rest, numbered from `n + 1`
    have hshift : ∀ {β : Type} (f : Nat → β),
        (fun k => f (n + (k + 1))) = fun k => f (n + 1 + k) := by
      intro β f
      funext k
      rw [Nat.add_comm k 1, Nat.add_assoc]
    rw [List.map_cons, List.mapIdx_cons, hshift fun m s => Line.read m s,
      encodeFrom_cons_ok (Line.read_render (n + 0) inst).2 (encodeLine_read_render hinst _ ctx),
      encodeFrom_eq_append, ih (n + 1) fun i hi => hc i (List.mem_cons_of_mem inst hi),
      List.mapIdx_cons, hshift fun m inst => (⟨m, m, inst⟩ : Word)]
    simp [Line.read]

/-- Printing canonical instructions one a line and assembling the text gives them back: the
`k`-th word is the `k`-th instruction, at address `k`, from line `k`, and no variable is
allocated. -/
theorem assemble_intercalate_render {insts : List Instruction} (hlen : insts.length ≤ romSize)
    (hc : ∀ inst ∈ insts, inst.Canonical) :
    assemble ("\n".intercalate (insts.map Instruction.render)) =
        .ok (insts.mapIdx fun k inst => (⟨k, k, inst⟩ : Word)).toArray ∧
      ∃ p, Program.read ("\n".intercalate (insts.map Instruction.render)) = .ok p ∧
        p.encode.context.vars.toList = [] := by
  have hlines : readLines ("\n".intercalate (insts.map Instruction.render)) =
      (insts.map Instruction.render).mapIdx fun k s => Line.read (0 + k) s := by
    -- each printed line is neither empty nor holds a line end, which are white space
    have hplain : ∀ s ∈ insts.map Instruction.render, s ≠ "" ∧ '\n' ∉ s.toList ∧ '\r' ∉ s.toList := by
      intro s hs
      obtain ⟨inst, -, rfl⟩ := List.mem_map.mp hs
      refine ⟨inst.render_ne_empty, fun hn => ?_, fun hr => ?_⟩
      · cases (Instruction.plain_of_mem_render hn).1
      · cases (Instruction.plain_of_mem_render hr).1
    simp only [readLines, Text.splitLines_intercalate hplain, Nat.zero_add]
  -- from here on only the lines of the text matter
  generalize "\n".intercalate (insts.map Instruction.render) = text at hlines ⊢
  have hfirst : collectLabels (readLines text) = .ok Table.empty := by
    refine collectLabelsFrom_of_instructions (fun line hl => ?_)
      (by rw [hlines, List.length_mapIdx, List.length_map, Nat.zero_add]; exact hlen)
    rw [hlines] at hl
    obtain ⟨k, hk, rfl⟩ := List.mem_mapIdx.mp hl
    obtain ⟨inst, -, hinst⟩ := List.mem_map.mp (List.getElem_mem hk)
    rw [← hinst]
    exact (Line.read_render _ inst).2
  have hread : Program.read text = .ok ⟨readLines text, Table.empty⟩ := by
    simp only [Program.read, hfirst]
    rfl
  have hencode : Program.encode ⟨readLines text, Table.empty⟩ =
      { words := (insts.mapIdx fun k inst => (⟨k, k, inst⟩ : Word)).toArray,
        failure := none, context := Context.ofLabels Table.empty } := by
    dsimp only [Program.encode]
    rw [hlines, encodeFrom_read_render _ 0 hc]
    simp only [Nat.zero_add]
  refine ⟨?_, _, hread, by rw [hencode]; rfl⟩
  simp [assemble, hread, hencode, bind, Except.bind]

/-- The round trip at a load, a computation of memory with all three fields, and a jump on a
constant. -/
theorem assemble_intercalate_render_three :
    [Instruction.load 7, .compute .m .decA .am .jne, .compute .a .zero .null .jmp].length ≤
        romSize ∧
      (∀ inst ∈ [Instruction.load 7, .compute .m .decA .am .jne, .compute .a .zero .null .jmp],
        inst.Canonical) ∧
      (assemble ("\n".intercalate
          ([Instruction.load 7, .compute .m .decA .am .jne, .compute .a .zero .null .jmp].map
            Instruction.render)) =
        .ok ([Instruction.load 7, .compute .m .decA .am .jne, .compute .a .zero .null .jmp].mapIdx
          fun k inst => (⟨k, k, inst⟩ : Word)).toArray ∧
      ∃ p, Program.read ("\n".intercalate
          ([Instruction.load 7, .compute .m .decA .am .jne, .compute .a .zero .null .jmp].map
            Instruction.render)) = .ok p ∧ p.encode.context.vars.toList = []) :=
  ⟨by decide, by decide, assemble_intercalate_render (by decide) (by decide)⟩

end HackAsm
