import Mathlib.Data.List.Forall2
import HackAsm.Proofs.SecondPass

/-!
# Layout does not change a program

A line reaches the two passes only through its code. Its statement is a function of the code,
blank lines take no address in either pass, and a line's index and text are read only to say
where an error stands. So two source texts whose non-blank lines have the same codes, in order,
assemble alike (`assembly_ignores_layout`): both first passes fail with one error at
corresponding lines, or both bind the same labels; and then both second passes give the same
instructions at the same addresses, stop with one error at corresponding lines or not at all,
and leave the same context. Comments, blank lines and white space inside code never matter.

The proof pairs the non-blank lines of the two texts by `Line.Alike` and runs each pass over
both lists at once: one induction on the pairing per pass (`collectLabelsFrom_alike`,
`encodeFrom_alike`).
-/

set_option autoImplicit false

namespace HackAsm

/-! ## Lines that hold code -/

/-- The lines of `lines` that hold code, in order. -/
def nonBlankLines (lines : List Line) : List Line :=
  lines.filter (·.statement != .blank)

theorem nonBlankLines_cons_of_eq {line : Line} (rest : List Line) (h : line.statement = .blank) :
    nonBlankLines (line :: rest) = nonBlankLines rest := by
  simp [nonBlankLines, h]

theorem nonBlankLines_cons_of_ne {line : Line} (rest : List Line) (h : line.statement ≠ .blank) :
    nonBlankLines (line :: rest) = line :: nonBlankLines rest := by
  simp [nonBlankLines, h]

/-- Only a line with no code is blank. -/
theorem Statement.classify_eq_blank_iff (code : String) :
    Statement.classify code = .blank ↔ code = "" := by
  constructor
  · intro h
    unfold Statement.classify at h
    split at h
    · rename_i hnil
      exact String.toList_eq_nil_iff.mp hnil
    · split at h
      · split at h <;> cases h
      · cases h
  · rintro rfl
    rfl

/-- A code, when there is one, is never empty. -/
theorem normalize_ne_some_empty (raw : String) : normalize raw ≠ some "" := by
  unfold normalize
  split
  · simp
  · rename_i cs hcs
    simpa [String.ofList_eq_empty_iff] using hcs

theorem read_of_mem_readLines {source : String} {line : Line} (h : line ∈ readLines source) :
    line = Line.read line.idx line.raw := by
  obtain ⟨i, _, hline⟩ := List.mem_mapIdx.mp h
  rw [← hline]
  rfl

theorem raw_readLines (source : String) :
    (readLines source).map (·.raw) = Text.splitLines source := by
  apply List.ext_getElem
  · simp [readLines]
  · intro i _ _
    simp [readLines, Line.read]

/-- The codes of the non-blank lines are the lines' normalised texts that are not `none`. -/
theorem code_nonBlankLines {lines : List Line}
    (hread : ∀ line ∈ lines, line = Line.read line.idx line.raw) :
    (nonBlankLines lines).map (·.code) = (lines.map (·.raw)).filterMap normalize := by
  induction lines with
  | nil => rfl
  | cons line rest ih =>
    have hline : line = Line.read line.idx line.raw := hread line (List.mem_cons_self ..)
    have hrest := ih fun l hl => hread l (List.mem_cons_of_mem line hl)
    rw [List.map_cons, List.filterMap_cons]
    cases hn : normalize line.raw with
    | none =>
      -- no code: the line is blank and both sides drop it
      have hblank : line.statement = .blank := by
        rw [hline]
        simp [Line.read, hn, Statement.classify_eq_blank_iff]
      rw [nonBlankLines_cons_of_eq rest hblank, hrest]
    | some code =>
      have hne : code ≠ "" := fun h => normalize_ne_some_empty line.raw (h ▸ hn)
      have hcode : line.code = code := by
        rw [hline]
        simp [Line.read, hn]
      have hstmt : line.statement ≠ .blank := by
        rw [hline]
        simpa [Line.read, hn, Statement.classify_eq_blank_iff] using hne
      rw [nonBlankLines_cons_of_ne rest hstmt, List.map_cons, hcode, hrest]

/-- The codes of a text's non-blank lines, in order. -/
theorem code_nonBlankLines_readLines (source : String) :
    (nonBlankLines (readLines source)).map (·.code) =
      (Text.splitLines source).filterMap normalize := by
  rw [code_nonBlankLines fun _ h => read_of_mem_readLines h, raw_readLines]

/-- The first pass skips blank lines. -/
theorem collectLabelsFrom_nonBlankLines (pc : Nat) (t : Table) (lines : List Line) :
    collectLabelsFrom pc t (nonBlankLines lines) = collectLabelsFrom pc t lines := by
  induction lines generalizing pc t with
  | nil => rfl
  | cons line rest ih =>
    by_cases hs : line.statement = .blank
    · rw [nonBlankLines_cons_of_eq rest hs, ih]
      simp [collectLabelsFrom, hs]
    · rw [nonBlankLines_cons_of_ne rest hs]
      simp only [collectLabelsFrom, ih]

theorem codeLines_nonBlankLines (lines : List Line) :
    codeLines (nonBlankLines lines) = codeLines lines := by
  simp only [codeLines, nonBlankLines, List.filter_filter]
  congr 1
  funext line
  cases line.statement <;> rfl

/-- The second pass skips blank lines. -/
theorem encodeFrom_nonBlankLines (pc : Nat) (ctx : Context) (words : Array Word)
    (lines : List Line) :
    encodeFrom pc ctx words (nonBlankLines lines) = encodeFrom pc ctx words lines := by
  rw [← encodeFrom_codeLines, codeLines_nonBlankLines, encodeFrom_codeLines]

/-! ## Lines that read alike -/

/-- Two lines read alike when they have one code, hence one statement. -/
def Line.Alike (l l' : Line) : Prop :=
  l.code = l'.code ∧ l.statement = l'.statement

/-- Read lines with the same codes, in order, are pairwise alike. -/
theorem forall₂_alike_of_code {ls ls' : List Line}
    (hs : ∀ l ∈ ls, l.statement = Statement.classify l.code)
    (hs' : ∀ l ∈ ls', l.statement = Statement.classify l.code)
    (h : ls.map (·.code) = ls'.map (·.code)) : List.Forall₂ Line.Alike ls ls' := by
  induction ls generalizing ls' with
  | nil =>
    cases ls' with
    | nil => exact .nil
    | cons _ _ => cases h
  | cons l rest ih =>
    cases ls' with
    | nil => cases h
    | cons l' rest' =>
      simp only [List.map_cons, List.cons.injEq] at h
      have hstmt : l.statement = l'.statement := by
        rw [hs l (List.mem_cons_self ..), hs' l' (List.mem_cons_self ..), h.1]
      refine .cons ⟨h.1, hstmt⟩ (ih ?_ ?_ h.2)
      · exact fun m hm => hs m (List.mem_cons_of_mem l hm)
      · exact fun m hm => hs' m (List.mem_cons_of_mem l' hm)

/-- `err` and `err'` are one error, raised by the lines at one position of `ls` and of `ls'`. -/
def SameErrorAt (ls ls' : List Line) (err err' : LineError) : Prop :=
  ∃ (j : Nat) (l l' : Line) (e : Error),
    ls[j]? = some l ∧ ls'[j]? = some l' ∧ err = l.fail e ∧ err' = l'.fail e

theorem SameErrorAt.head (l l' : Line) (ls ls' : List Line) (e : Error) :
    SameErrorAt (l :: ls) (l' :: ls') (l.fail e) (l'.fail e) :=
  ⟨0, l, l', e, rfl, rfl, rfl, rfl⟩

theorem SameErrorAt.cons {ls ls' : List Line} {err err' : LineError}
    (h : SameErrorAt ls ls' err err') (l l' : Line) :
    SameErrorAt (l :: ls) (l' :: ls') err err' := by
  obtain ⟨j, m, m', e, hm, hm', rfl, rfl⟩ := h
  exact ⟨j + 1, m, m', e, hm, hm', rfl, rfl⟩

/-! ## The first pass -/

/-- Two results agree: one value, or one error raised at corresponding lines. -/
def ResultsAlike {α : Type} (ls ls' : List Line) (r r' : Except LineError α) : Prop :=
  (∃ a, r = .ok a ∧ r' = .ok a) ∨
    ∃ err err', r = .error err ∧ r' = .error err' ∧ SameErrorAt ls ls' err err'

theorem ResultsAlike.cons {α : Type} {ls ls' : List Line} {r r' : Except LineError α}
    (h : ResultsAlike ls ls' r r') (l l' : Line) : ResultsAlike (l :: ls) (l' :: ls') r r' :=
  h.imp_right fun ⟨err, err', hr, hr', hsame⟩ => ⟨err, err', hr, hr', hsame.cons l l'⟩

theorem ResultsAlike.head {α : Type} (l l' : Line) (ls ls' : List Line) (e : Error) :
    ResultsAlike (α := α) (l :: ls) (l' :: ls') (.error (l.fail e)) (.error (l'.fail e)) :=
  .inr ⟨_, _, rfl, rfl, SameErrorAt.head l l' ls ls' e⟩

/-- The first pass over lines that read alike binds the same labels or fails at the same
position with the same error. -/
theorem collectLabelsFrom_alike {ls ls' : List Line} (h : List.Forall₂ Line.Alike ls ls')
    (pc : Nat) (t : Table) :
    ResultsAlike ls ls' (collectLabelsFrom pc t ls) (collectLabelsFrom pc t ls') := by
  induction h generalizing pc t with
  | nil => exact .inl ⟨t, rfl, rfl⟩
  | @cons l l' rest rest' hl _ ih =>
    obtain ⟨hcode, hstmt⟩ := hl
    -- both heads take the same branch: they have one statement and one code
    cases hs : l.statement with
    | blank =>
      simp only [collectLabelsFrom, ← hstmt, hs]
      exact (ih pc t).cons l l'
    | label name =>
      simp only [collectLabelsFrom, ← hstmt, hs]
      split
      · exact ResultsAlike.head l l' rest rest' _
      · split
        · exact (ih _ _).cons l l'
        · exact ResultsAlike.head l l' rest rest' _
    | instruction =>
      simp only [collectLabelsFrom, ← hstmt, ← hcode, hs]
      split
      · exact (ih _ _).cons l l'
      · exact ResultsAlike.head l l' rest rest' _

/-! ## The second pass -/

/-- Two second passes agree on all but the lines' indices and texts: the same instructions at
the same addresses, one error at corresponding lines or none, and the same final context. -/
structure Encoding.Alike (ls ls' : List Line) (enc enc' : Encoding) : Prop where
  words : enc.words.toList.map (fun w => (w.pc, w.inst)) =
    enc'.words.toList.map (fun w => (w.pc, w.inst))
  failure : Option.Rel (SameErrorAt ls ls') enc.failure enc'.failure
  context : enc.context = enc'.context

theorem Encoding.Alike.cons {ls ls' : List Line} {enc enc' : Encoding}
    (h : Encoding.Alike ls ls' enc enc') (l l' : Line) :
    Encoding.Alike (l :: ls) (l' :: ls') enc enc' := by
  obtain ⟨hwords, hfailure, hcontext⟩ := h
  refine ⟨hwords, ?_, hcontext⟩
  generalize enc.failure = f, enc'.failure = f' at hfailure ⊢
  cases hfailure with
  | none => exact .none
  | some hsame => exact .some (hsame.cons l l')

/-- A line's instruction is read from its code alone. -/
theorem encodeLine_of_code_eq {l l' : Line} (h : l.code = l'.code) (ctx : Context) :
    encodeLine l ctx = encodeLine l' ctx := by
  simp only [encodeLine, h]

/-- The second pass over lines that read alike gives the same instructions at the same
addresses, stops at the same position with the same error, and leaves the same context. -/
theorem encodeFrom_alike {ls ls' : List Line} (h : List.Forall₂ Line.Alike ls ls')
    (pc : Nat) (ctx : Context) :
    Encoding.Alike ls ls' (encodeFrom pc ctx #[] ls) (encodeFrom pc ctx #[] ls') := by
  induction h generalizing pc ctx with
  | nil => exact ⟨rfl, .none, rfl⟩
  | @cons l l' rest rest' hl _ ih =>
    obtain ⟨hcode, hstmt⟩ := hl
    by_cases hi : l.statement = .instruction
    · have hi' : l'.statement = .instruction := hstmt ▸ hi
      rcases hr : encodeLine l ctx with ⟨_ | inst, ctx'⟩
      case error e =>
        have hr' : encodeLine l' ctx = (.error e, ctx') := by
          rw [← encodeLine_of_code_eq hcode, hr]
        rw [encodeFrom_cons_error hi hr, encodeFrom_cons_error hi' hr']
        exact ⟨rfl, .some (SameErrorAt.head l l' rest rest' e), rfl⟩
      case ok =>
        have hr' : encodeLine l' ctx = (.ok inst, ctx') := by
          rw [← encodeLine_of_code_eq hcode, hr]
        rw [encodeFrom_cons_ok hi hr, encodeFrom_cons_ok hi' hr',
          encodeFrom_eq_append (pc + 1) ctx' _ rest, encodeFrom_eq_append (pc + 1) ctx' _ rest']
        -- the one new word stands in front of the words of the rest
        have hrest := (ih (pc + 1) ctx').cons l l'
        refine ⟨?_, hrest.failure, hrest.context⟩
        simp [hrest.words]
    · have hi' : l'.statement ≠ .instruction := hstmt ▸ hi
      rw [← encodeFrom_codeLines, codeLines_cons_of_ne rest hi, encodeFrom_codeLines,
        ← encodeFrom_codeLines pc ctx #[] (l' :: rest'), codeLines_cons_of_ne rest' hi',
        encodeFrom_codeLines]
      exact (ih pc ctx).cons l l'

/-! ## Two source texts -/

theorem Program.read_eq (source : String) :
    Program.read source =
      (collectLabels (readLines source)).map fun labels =>
        { lines := readLines source, labels } := by
  simp only [Program.read, bind, Except.bind, pure, Except.pure]
  cases collectLabels (readLines source) <;> rfl

/-- The non-blank lines of two texts with the same codes read alike, pairwise. -/
theorem forall₂_alike_nonBlankLines {s t : String}
    (h : (Text.splitLines s).filterMap normalize = (Text.splitLines t).filterMap normalize) :
    List.Forall₂ Line.Alike (nonBlankLines (readLines s)) (nonBlankLines (readLines t)) := by
  refine forall₂_alike_of_code ?_ ?_ ?_
  · exact fun l hl => statement_of_mem_readLines (List.mem_filter.mp hl).1
  · exact fun l hl => statement_of_mem_readLines (List.mem_filter.mp hl).1
  · rw [code_nonBlankLines_readLines s, code_nonBlankLines_readLines t, h]

/-- Two source texts whose non-blank lines have the same codes, in order, assemble alike. Both
first passes fail with one error at corresponding non-blank lines, or both bind the same labels;
and then both second passes give the same instructions at the same addresses, stop with one error
at corresponding non-blank lines or not at all, and leave the same context. -/
theorem assembly_ignores_layout {s t : String}
    (h : (Text.splitLines s).filterMap normalize = (Text.splitLines t).filterMap normalize) :
    (∃ err err', Program.read s = .error err ∧ Program.read t = .error err' ∧
        SameErrorAt (nonBlankLines (readLines s)) (nonBlankLines (readLines t)) err err') ∨
      ∃ p p', Program.read s = .ok p ∧ Program.read t = .ok p' ∧ p.labels = p'.labels ∧
        Encoding.Alike (nonBlankLines (readLines s)) (nonBlankLines (readLines t))
          p.encode p'.encode := by
  have hpair := forall₂_alike_nonBlankLines h
  have hfirst := collectLabelsFrom_alike hpair 0 Table.empty
  rw [collectLabelsFrom_nonBlankLines, collectLabelsFrom_nonBlankLines] at hfirst
  rw [Program.read_eq, Program.read_eq, collectLabels, collectLabels]
  rcases hfirst with ⟨labels, hs, ht⟩ | ⟨err, err', hs, ht, hsame⟩
  · right
    rw [hs, ht]
    refine ⟨_, _, rfl, rfl, rfl, ?_⟩
    have hsecond := encodeFrom_alike hpair 0 (Context.ofLabels labels)
    rwa [encodeFrom_nonBlankLines, encodeFrom_nonBlankLines] at hsecond
  · left
    rw [hs, ht]
    exact ⟨err, err', rfl, rfl, hsame⟩

/-- Comments, a blank line and white space inside code: the two texts below assemble alike. -/
theorem assembly_ignores_layout_loop :
    (Text.splitLines "(LOOP)\n@x // counter\nD=M\n\n@LOOP\n0;JMP").filterMap normalize =
        (Text.splitLines "( LOOP )  // top\n@ x\nD = M\n@LOOP\n0 ; JMP").filterMap normalize ∧
      ((∃ err err', Program.read "(LOOP)\n@x // counter\nD=M\n\n@LOOP\n0;JMP" = .error err ∧
          Program.read "( LOOP )  // top\n@ x\nD = M\n@LOOP\n0 ; JMP" = .error err' ∧
          SameErrorAt (nonBlankLines (readLines "(LOOP)\n@x // counter\nD=M\n\n@LOOP\n0;JMP"))
            (nonBlankLines (readLines "( LOOP )  // top\n@ x\nD = M\n@LOOP\n0 ; JMP")) err err') ∨
        ∃ p p', Program.read "(LOOP)\n@x // counter\nD=M\n\n@LOOP\n0;JMP" = .ok p ∧
          Program.read "( LOOP )  // top\n@ x\nD = M\n@LOOP\n0 ; JMP" = .ok p' ∧
          p.labels = p'.labels ∧
          Encoding.Alike (nonBlankLines (readLines "(LOOP)\n@x // counter\nD=M\n\n@LOOP\n0;JMP"))
            (nonBlankLines (readLines "( LOOP )  // top\n@ x\nD = M\n@LOOP\n0 ; JMP"))
            p.encode p'.encode) := by
  refine ⟨?codes, assembly_ignores_layout ?codes⟩
  decide +kernel

end HackAsm
