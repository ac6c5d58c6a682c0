import HackAsm.Listing
import HackAsm.Proofs.SecondPass

/-!
# The listing lines up with the encoding

The listing has a row for every source line, between a header and a footer, and each line's row
shows the word with the line's index (`Listing.wordOf`), the last such word when several carry it.
The words of a program's second pass come in increasing order of index (`Program.words_sorted`),
so the last word with an index is the only one (`Listing.wordOf_of_sorted`), and the word on the
`k`-th instruction line is the `k`-th word, or none once the words have run out
(`wordOf_codeLines`).

So the row of the `k`-th instruction line shows the address `k` in four upper-case hexadecimal
digits, which are all its digits because a program has at most `2^15` instruction lines
(`hex4_eq_hexWidth`), then the `k`-th word in binary; an instruction line after the words shows
`????` and its code; a label shows its name and a blank line no address (`listing_lines_up`).
-/

set_option autoImplicit false

namespace HackAsm

/-! ## Four hexadecimal digits -/

namespace Numeral

/-- The last `w` hexadecimal digits of `n`, most significant first, in upper case. -/
def hexWidth : Nat → Nat → List Char
  | 0, _ => []
  | w + 1, n => hexWidth w (n / 16) ++ [(Nat.digitChar (n % 16)).toUpper]

theorem hexWidth_zero (w : Nat) : hexWidth w 0 = List.replicate w '0' := by
  induction w with
  | zero => rfl
  | succ w ih =>
    rw [hexWidth, Nat.zero_div, ih, List.replicate_succ']
    rfl

theorem padLeft_append_singleton (c x : Char) (w : Nat) (cs : List Char) :
    padLeft c (w + 1) (cs ++ [x]) = padLeft c w cs ++ [x] := by
  have hpad : w + 1 - (cs ++ [x]).length = w - cs.length := by simp
  simp only [padLeft, hpad, List.append_assoc]

/-- A number below `16 ^ w` padded with zeros to `w` hexadecimal digits shows its last `w`
digits. -/
theorem padLeft_hexDigits {w n : Nat} (hw : 0 < w) (h : n < 16 ^ w) :
    padLeft '0' w (hexDigits n) = hexWidth w n := by
  induction w generalizing n with
  | zero => omega
  | succ w ih =>
    rw [hexDigits, Nat.toDigits_eq_if (by decide)]
    by_cases hn : n < 16
    · -- one digit, after `w` zeros
      have hdiv : n / 16 = 0 := Nat.div_eq_of_lt hn
      have hmod : n % 16 = n := Nat.mod_eq_of_lt hn
      rw [if_pos hn, hexWidth, hdiv, hmod, hexWidth_zero]
      simp [padLeft]
    · -- the digits of `n / 16`, then the last digit
      have hw' : 0 < w := by
        rcases Nat.eq_zero_or_pos w with rfl | hw'
        · simp at h
          omega
        · exact hw'
      have hdiv : n / 16 < 16 ^ w := by
        rw [Nat.pow_succ] at h
        omega
      rw [if_neg hn, List.map_append, List.map_singleton, padLeft_append_singleton,
        ← hexDigits, ih hw' hdiv, hexWidth]

/-- Below `16 ^ 4`, the address shape is exactly four upper-case hexadecimal digits. -/
theorem hex4_eq_hexWidth {n : Nat} (h : n < 16 ^ 4) : hex4 n = String.ofList (hexWidth 4 n) := by
  rw [hex4, padLeft_hexDigits (by decide) h]

end Numeral

/-! ## Words by the lines' indices -/

namespace Listing

/-- With words in increasing order of index, no two share an index, so the last word with an
index is the first. -/
theorem wordOf_of_sorted {ws : List Word} (hs : ws.Pairwise (·.idx < ·.idx)) (line : Line) :
    wordOf ws line = ws.find? fun w => w.idx == line.idx := by
  unfold wordOf
  induction ws with
  | nil => rfl
  | cons w ws ih =>
    rw [List.reverse_cons, List.find?_append, ih hs.of_cons, List.find?_singleton]
    by_cases hw : w.idx = line.idx
    · -- the words after `w` carry larger indices
      have hnone : ws.find? (fun w => w.idx == line.idx) = none := by
        rw [List.find?_eq_none]
        intro x hx
        have hlt : w.idx < x.idx := List.rel_of_pairwise_cons hs hx
        simp only [beq_iff_eq]
        omega
      simp [hnone, hw]
    · simp [hw]

/-- With words in increasing order of index, the word with the `k`-th word's index is the
`k`-th word. -/
theorem find?_idx_getElem {ws : List Word} (hs : ws.Pairwise (·.idx < ·.idx)) {k : Nat}
    (hk : k < ws.length) : ws.find? (fun w => w.idx == ws[k].idx) = some ws[k] := by
  rw [List.find?_eq_some_iff_getElem]
  refine ⟨by simp, k, hk, rfl, fun j hj => ?_⟩
  have hlt : ws[j].idx < ws[k].idx := List.pairwise_iff_getElem.mp hs j k (by omega) hk hj
  simp [Nat.ne_of_lt hlt]

/-- A coloured run is the change into its style, the text, and the change back to plain. -/
theorem paint_eq (st : Ansi.Style) (text : String) :
    Ansi.paint st text = Ansi.plain.change st ++ text ++ st.change Ansi.plain := by
  simp [Ansi.paint, Ansi.render, Ansi.renderFrom]

end Listing

/-! ## The lines and words of a program -/

theorem idx_of_getElem?_readLines {source : String} {i : Nat} {line : Line}
    (h : (readLines source)[i]? = some line) : line.idx = i := by
  rw [readLines, List.getElem?_mapIdx] at h
  obtain ⟨raw, -, rfl⟩ := Option.map_eq_some_iff.mp h
  rfl

/-- The lines of a source text come in the order of their indices. -/
theorem readLines_sorted (source : String) : (readLines source).Pairwise (·.idx < ·.idx) := by
  rw [List.pairwise_iff_getElem]
  intro i j hi hj hij
  rw [idx_of_getElem?_readLines (List.getElem?_eq_getElem hi),
    idx_of_getElem?_readLines (List.getElem?_eq_getElem hj)]
  exact hij

section Program

variable {source : String} {p : Program}

theorem Program.codeLines_sorted (h : Program.read source = .ok p) :
    (codeLines p.lines).Pairwise (·.idx < ·.idx) := by
  rw [(Program.read_eq_ok h).1]
  exact (readLines_sorted source).sublist List.filter_sublist

/-- The `k`-th word carries the index of the `k`-th instruction line. -/
theorem Program.idx_word (k : Nat) (hk : k < p.encode.words.size) :
    ∃ hk' : k < (codeLines p.lines).length, p.encode.words[k].idx = (codeLines p.lines)[k].idx := by
  obtain ⟨line, hl, hidx, -⟩ := p.encode_word k hk
  obtain ⟨hk', rfl⟩ := List.getElem?_eq_some_iff.mp hl
  exact ⟨hk', hidx⟩

/-- The words of a program's second pass come in increasing order of index. -/
theorem Program.words_sorted (h : Program.read source = .ok p) :
    p.encode.words.toList.Pairwise (·.idx < ·.idx) := by
  -- two words carry the indices of two instruction lines in the same order
  rw [List.pairwise_iff_getElem]
  intro i j hi hj hij
  simp only [Array.length_toList] at hi hj
  obtain ⟨hi', hidx⟩ := p.idx_word i hi
  obtain ⟨hj', hjdx⟩ := p.idx_word j hj
  simp only [Array.getElem_toList, hidx, hjdx]
  exact List.pairwise_iff_getElem.mp (Program.codeLines_sorted h) i j hi' hj' hij

/-- The word shown on the `k`-th instruction line is the `k`-th word, and none once the words have
run out. -/
theorem Program.wordOf_codeLines (h : Program.read source = .ok p) {k : Nat} {line : Line}
    (hl : (codeLines p.lines)[k]? = some line) :
    Listing.wordOf p.encode.words.toList line = p.encode.words.toList[k]? := by
  obtain ⟨hk', rfl⟩ := List.getElem?_eq_some_iff.mp hl
  rw [Listing.wordOf_of_sorted (Program.words_sorted h)]
  by_cases hk : k < p.encode.words.size
  · obtain ⟨_, hidx⟩ := p.idx_word k hk
    have hfind := Listing.find?_idx_getElem (Program.words_sorted h)
      (by simpa using hk : k < p.encode.words.toList.length)
    simp only [Array.getElem_toList, hidx] at hfind
    rw [hfind, List.getElem?_eq_getElem (by simpa using hk), Array.getElem_toList]
  · -- every word belongs to an earlier instruction line, so none has this line's index
    rw [List.getElem?_eq_none (by simpa using hk), List.find?_eq_none]
    intro w hw
    obtain ⟨j, hj, rfl⟩ := List.getElem_of_mem hw
    simp only [Array.length_toList] at hj
    obtain ⟨hj', hjdx⟩ := p.idx_word j hj
    have hlt := List.pairwise_iff_getElem.mp (Program.codeLines_sorted h) j k hj' hk' (by omega)
    simp only [Array.getElem_toList, hjdx, beq_iff_eq]
    omega

/-- A program has fewer words than `16 ^ 4`, so each address fits in four hexadecimal digits. -/
theorem Program.size_lt (h : Program.read source = .ok p) : p.encode.words.size < 16 ^ 4 := by
  have hsize := p.trace_encode.size_le
  have hrom := length_codeLines_le (Program.read_eq_ok h).2
  unfold romSize at hrom
  omega

/-- The `k`-th word is at address `k`. -/
theorem Program.pc_of_getElem? {k : Nat} {w : Word} (hw : p.encode.words.toList[k]? = some w) :
    w.pc = k ∧ k < p.encode.words.size := by
  obtain ⟨hk, rfl⟩ := List.getElem?_eq_some_iff.mp hw
  simp only [Array.length_toList] at hk
  obtain ⟨line, -, -, hpc, -⟩ := p.encode_word k hk
  exact ⟨by simpa using hpc, hk⟩

end Program

/-! ## What the listing shows -/

/-- What the listing of a program shows, given the words of its second pass: a header, a row for
each line and a footer; row `i + 1` is the row of line `i`, with the word of the line's index;
and each kind of line shows its number, right-aligned in four columns, and what it became. -/
structure LinesUp (p : Program) (ws : List Word) (rows : List String) : Prop where
  length : rows.length = p.lines.length + 2
  row : ∀ i line, p.lines[i]? = some line →
    line.idx = i ∧ rows[i + 1]? = some (Listing.row line (Listing.wordOf ws line))
  /-- The `k`-th instruction line, while there are words: the address `k` in four upper-case
  hexadecimal digits and the `k`-th word in binary. -/
  word : ∀ k i line w, p.lines[i]? = some line → (codeLines p.lines)[k]? = some line →
    ws[k]? = some w → ∃ rest, rows[i + 1]? = some ("[" ++ String.ofList (Numeral.hexWidth 4 k) ++
      "] " ++ w.inst.binary ++ " | " ++ Numeral.natRight 4 (i + 1) ++ ":   " ++ rest)
  /-- An instruction line after the words: `????` in place of the address, and the line's code. -/
  unassembled : ∀ k i line, p.lines[i]? = some line → (codeLines p.lines)[k]? = some line →
    ws.length ≤ k → ∃ mid rest, rows[i + 1]? = some ("[????] " ++ mid ++ " | " ++
      Numeral.natRight 4 (i + 1) ++ ":   " ++ line.code ++ rest)
  /-- A label: no address, and the label's name. -/
  label : ∀ i line name, p.lines[i]? = some line → line.statement = .label name →
    ∃ mid rest, rows[i + 1]? = some (repeatChar ' ' 24 ++ "| " ++ Numeral.natRight 4 (i + 1) ++
      ": " ++ mid ++ "(" ++ name ++ ")" ++ rest)
  /-- A blank line: no address. -/
  blank : ∀ i line, p.lines[i]? = some line → line.statement = .blank →
    ∃ rest, rows[i + 1]? = some (repeatChar ' ' 24 ++ "| " ++ Numeral.natRight 4 (i + 1) ++ ": " ++
      rest)

/-- The listing of a program that passes the first pass lines up with the words of its second
pass: every line has its own row, an instruction line that became a word shows the word and its
address, and every other line shows what it is. -/
theorem listing_lines_up {source : String} {p : Program} (h : Program.read source = .ok p)
    (path : String) : LinesUp p p.encode.words.toList (listing path p.lines p.encode.words.toList) := by
  have hrows : listing path p.lines p.encode.words.toList = Listing.header path ::
      p.lines.map (fun line => Listing.row line (Listing.wordOf p.encode.words.toList line)) ++
        [Listing.footer] := rfl
  have hlines := (Program.read_eq_ok h).1
  have hrow : ∀ i line, p.lines[i]? = some line → line.idx = i ∧
      (listing path p.lines p.encode.words.toList)[i + 1]? =
        some (Listing.row line (Listing.wordOf p.encode.words.toList line)) := by
    intro i line hi
    have hlt : i < p.lines.length := (List.getElem?_eq_some_iff.mp hi).1
    refine ⟨idx_of_getElem?_readLines (hlines ▸ hi), ?_⟩
    rw [hrows, List.getElem?_append_left (by simpa using hlt), List.getElem?_cons_succ,
      List.getElem?_map, hi]
    rfl
  refine ⟨by simp [hrows], hrow, ?_, ?_, ?_, ?_⟩
  · intro k i line w hi hk hw
    obtain ⟨hidx, hr⟩ := hrow i line hi
    have hs := statement_of_mem_codeLines (List.mem_of_getElem? hk)
    obtain ⟨hpc, hsize⟩ := Program.pc_of_getElem? hw
    have hhex := Numeral.hex4_eq_hexWidth (Nat.lt_trans hsize (Program.size_lt h))
    rw [hr, Program.wordOf_codeLines h hk, hw]
    refine ⟨w.inst.highlight ++ " " ++ Listing.commentPart line, ?_⟩
    simp only [Listing.row, hs, hpc, hhex, Line.no, hidx, String.append_assoc]
  · intro k i line hi hk hnone
    obtain ⟨hidx, hr⟩ := hrow i line hi
    have hs := statement_of_mem_codeLines (List.mem_of_getElem? hk)
    rw [hr, Program.wordOf_codeLines h hk, List.getElem?_eq_none hnone]
    refine ⟨Ansi.paint (Ansi.strong .red) (repeatChar '!' 16), " " ++ Listing.commentPart line, ?_⟩
    simp only [Listing.row, hs, Line.no, hidx, String.append_assoc]
  · intro i line name hi hs
    obtain ⟨hidx, hr⟩ := hrow i line hi
    rw [hr]
    refine ⟨Ansi.plain.change (Ansi.fg .green),
      (Ansi.fg .green).change Ansi.plain ++ " " ++ Listing.commentPart line, ?_⟩
    simp only [Listing.row, hs, Listing.paint_eq, Line.no, hidx, String.append_assoc]
  · intro i line hi hs
    obtain ⟨hidx, hr⟩ := hrow i line hi
    rw [hr]
    refine ⟨Listing.commentPart line, ?_⟩
    simp only [Listing.row, hs, Line.no, hidx, String.append_assoc]

/-- The listing at a program with a label row, a comment line and a blank line, whose third
instruction line does not assemble, so that it and the lines after it show no word. -/
theorem listing_lines_up_label_and_failing_tail :
    Program.read "(LOOP)\n@7\n// note\nD;JGT\n\n(1X)\n@LOOP\n0;JMP" =
        .ok ⟨readLines "(LOOP)\n@7\n// note\nD;JGT\n\n(1X)\n@LOOP\n0;JMP", Table.empty.insert "LOOP" 0⟩ ∧
      LinesUp ⟨readLines "(LOOP)\n@7\n// note\nD;JGT\n\n(1X)\n@LOOP\n0;JMP", Table.empty.insert "LOOP" 0⟩
        (Program.encode ⟨readLines "(LOOP)\n@7\n// note\nD;JGT\n\n(1X)\n@LOOP\n0;JMP", Table.empty.insert "LOOP" 0⟩).words.toList
        (listing "loop.asm" (readLines "(LOOP)\n@7\n// note\nD;JGT\n\n(1X)\n@LOOP\n0;JMP")
          (Program.encode ⟨readLines "(LOOP)\n@7\n// note\nD;JGT\n\n(1X)\n@LOOP\n0;JMP",
            Table.empty.insert "LOOP" 0⟩).words.toList) := by
  have hsplit : Text.splitLines "(LOOP)\n@7\n// note\nD;JGT\n\n(1X)\n@LOOP\n0;JMP" =
      ["(LOOP)", "@7", "// note", "D;JGT", "", "(1X)", "@LOOP", "0;JMP"] := by
    decide +kernel
  have h : Program.read "(LOOP)\n@7\n// note\nD;JGT\n\n(1X)\n@LOOP\n0;JMP" =
      .ok ⟨readLines "(LOOP)\n@7\n// note\nD;JGT\n\n(1X)\n@LOOP\n0;JMP", Table.empty.insert "LOOP" 0⟩ := by
    apply Program.read_of_collectLabels
    rw [readLines, hsplit]
    simp only [List.mapIdx_cons, List.mapIdx_nil]
    rw [collectLabels,
      collectLabelsFrom_cons_fresh "LOOP" _ (by decide +kernel) (by decide +kernel) (by simp)
        (by decide),
      collectLabelsFrom_cons_instruction _ (by decide +kernel) (by decide),
      collectLabelsFrom_cons_blank _ (by decide +kernel),
      collectLabelsFrom_cons_instruction _ (by decide +kernel) (by decide),
      collectLabelsFrom_cons_blank _ (by decide +kernel),
      collectLabelsFrom_cons_instruction _ (by decide +kernel) (by decide),
      collectLabelsFrom_cons_instruction _ (by decide +kernel) (by decide),
      collectLabelsFrom_cons_instruction _ (by decide +kernel) (by decide)]
    rfl
  exact ⟨h, listing_lines_up h "loop.asm"⟩

end HackAsm
