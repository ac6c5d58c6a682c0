import HackAsm.Assembly

/-!
# The first pass, characterised

`collectLabels` counts instruction lines and binds each label to the count so far. This file
says what a successful first pass produced, in terms of the lines alone:

* every label it binds is declared by a line, at the number of instruction lines before that
  line (`mem_toList_of_collectLabels`), and every declared label is bound there
  (`get?_of_collectLabels`);
* a name that no line declares stays unbound (`get?_eq_none_of_collectLabels`), and no declared
  label is predefined (`predefined?_eq_none_of_collectLabels`);
* the program has at most one ROM's worth of instruction lines (`length_codeLines_le`).

Each fact is an induction over the lines with the running address generalised, and every
induction step goes through one inversion lemma, `collectLabelsFrom_cons_eq_ok`, which says
what a line can have done in a pass that went on to succeed.
-/

set_option autoImplicit false

namespace HackAsm

/-- The instruction lines among `lines`, in order: the lines that take a ROM word in both passes. -/
def codeLines (lines : List Line) : List Line :=
  lines.filter (·.statement == .instruction)

@[simp]
theorem codeLines_nil : codeLines [] = [] :=
  rfl

theorem codeLines_cons (line : Line) (rest : List Line) :
    codeLines (line :: rest) =
      if line.statement = .instruction then line :: codeLines rest else codeLines rest := by
  by_cases h : line.statement = .instruction <;> simp [codeLines, h]

@[simp]
theorem codeLines_append (a b : List Line) : codeLines (a ++ b) = codeLines a ++ codeLines b :=
  List.filter_append ..

theorem codeLines_cons_of_ne {line : Line} (rest : List Line)
    (h : line.statement ≠ .instruction) : codeLines (line :: rest) = codeLines rest := by
  simp [codeLines_cons, h]

theorem codeLines_cons_of_eq {line : Line} (rest : List Line)
    (h : line.statement = .instruction) : codeLines (line :: rest) = line :: codeLines rest := by
  simp [codeLines_cons, h]

theorem statement_of_mem_codeLines {line : Line} {lines : List Line} (h : line ∈ codeLines lines) :
    line.statement = .instruction := by
  simpa [codeLines] using (List.mem_filter.mp h).2

/-- Whether one of `lines` declares the label `name`. -/
def Declares (lines : List Line) (name : String) : Prop :=
  ∃ line ∈ lines, line.statement = .label name

instance (lines : List Line) (name : String) : Decidable (Declares lines name) :=
  inferInstanceAs (Decidable (∃ line ∈ lines, line.statement = .label name))

theorem Table.contains_eq_false {t : Table} {name : String} :
    t.contains name = false ↔ t.get? name = none := by
  simp [Table.contains]

/-! ## Which lines take an address -/

theorem labelName?_eq_some_iff {cs name : List Char} :
    labelName? cs = some name ↔ cs = '(' :: (name ++ [')']) := by
  constructor
  · intro h
    unfold labelName? at h
    split at h
    · rename_i rest
      split at h
      · rename_i hlast
        obtain ⟨init, rfl⟩ := List.getLast?_eq_some_iff.mp hlast
        cases h
        simp
      · cases h
    · cases h
  · rintro rfl
    simp [labelName?]

/-- A code takes an address exactly when it is not empty and not `(name)` for a symbol `name`:
so `(1X)` and `(LOOP` are instructions, which take an address even though they do not
assemble. -/
theorem Statement.classify_eq_instruction_iff (code : String) :
    Statement.classify code = .instruction ↔
      code ≠ "" ∧ ∀ name, Symbol.isSymbol name = true → code ≠ "(" ++ name ++ ")" := by
  constructor
  · intro h
    refine ⟨?_, ?_⟩
    · rintro rfl
      simp [Statement.classify] at h
    · rintro name hsym rfl
      have hl : labelName? ('(' :: (name.toList ++ [')'])) = some name.toList :=
        labelName?_eq_some_iff.mpr rfl
      simp only [Symbol.isSymbol] at hsym
      simp [Statement.classify, hl, hsym] at h
  · rintro ⟨hne, hlabel⟩
    unfold Statement.classify
    split
    · rename_i hnil
      exact absurd (String.toList_eq_nil_iff.mp hnil) hne
    · split
      · rename_i nm hnm
        split
        · rename_i hsym
          refine absurd ?_ (hlabel (String.ofList nm) (by simpa [Symbol.isSymbol] using hsym))
          rw [← String.toList_inj, labelName?_eq_some_iff.mp hnm]
          simp
        · rfl
      · rfl

/-- A label's name is spelled as a symbol. -/
theorem Statement.isSymbol_of_classify_eq_label {code name : String}
    (h : Statement.classify code = .label name) : Symbol.isSymbol name = true := by
  unfold Statement.classify at h
  split at h
  · cases h
  · split at h
    · split at h
      · rename_i nm _ hsym
        cases h
        simpa [Symbol.isSymbol] using hsym
      · cases h
    · cases h

/-- Every line of a source text is classified by its code. -/
theorem statement_of_mem_readLines {source : String} {line : Line}
    (h : line ∈ readLines source) : line.statement = Statement.classify line.code := by
  obtain ⟨i, _, hline⟩ := List.mem_mapIdx.mp h
  rw [← hline]
  simp only [Line.read]

/-! ## One line of a successful pass -/

/-- What the head line did in a first pass that succeeded: nothing, bind a fresh label that is
not predefined to the current address, or take an address that the ROM still has. -/
theorem collectLabelsFrom_cons_eq_ok {pc : Nat} {t t' : Table} {line : Line}
    {rest : List Line} (h : collectLabelsFrom pc t (line :: rest) = .ok t') :
    (line.statement = .blank ∧ collectLabelsFrom pc t rest = .ok t') ∨
    (∃ name, ∃ a : Address, a.val = pc ∧ line.statement = .label name ∧
      Symbol.predefined? name = none ∧ t.get? name = none ∧
      collectLabelsFrom pc (t.insert name a) rest = .ok t') ∨
    (line.statement = .instruction ∧ pc < romSize ∧
      collectLabelsFrom (pc + 1) t rest = .ok t') := by
  simp only [collectLabelsFrom] at h
  split at h
  case h_1 hs => exact .inl ⟨hs, h⟩
  case h_2 name hs =>
    split at h
    case isTrue => cases h
    case isFalse hfresh =>
      split at h
      case isTrue hpc =>
        simp only [Bool.or_eq_true, Option.isSome_iff_ne_none, not_or, ne_eq,
          Decidable.not_not, Bool.not_eq_true, Table.contains_eq_false] at hfresh
        exact .inr (.inl ⟨name, _, rfl, hs, hfresh.1, hfresh.2, h⟩)
      case isFalse => cases h
  case h_3 hs =>
    split at h
    case isTrue hpc => exact .inr (.inr ⟨hs, hpc, h⟩)
    case isFalse => cases h

/-- A label line that the pass accepts binds its name, fresh and not predefined, at the current
address. -/
theorem collectLabelsFrom_cons_label {pc : Nat} {t t' : Table} {line : Line} {rest : List Line}
    {name : String} (hs : line.statement = .label name)
    (h : collectLabelsFrom pc t (line :: rest) = .ok t') :
    ∃ a : Address, a.val = pc ∧ Symbol.predefined? name = none ∧ t.get? name = none ∧
      collectLabelsFrom pc (t.insert name a) rest = .ok t' := by
  rcases collectLabelsFrom_cons_eq_ok h with ⟨hs', _⟩ | ⟨fresh, a, ha, hs', hpre, hfresh, hrest⟩ |
    ⟨hs', _, _⟩
  · simp [hs] at hs'
  · obtain rfl : fresh = name := by simpa [hs] using hs'.symm
    exact ⟨a, ha, hpre, hfresh, hrest⟩
  · simp [hs] at hs'

/-! ## Running the pass one line on -/

theorem collectLabelsFrom_cons_blank {pc : Nat} {t : Table} {line : Line} (rest : List Line)
    (hs : line.statement = .blank) :
    collectLabelsFrom pc t (line :: rest) = collectLabelsFrom pc t rest := by
  simp [collectLabelsFrom, hs]

theorem collectLabelsFrom_cons_instruction {pc : Nat} {t : Table} {line : Line}
    (rest : List Line) (hs : line.statement = .instruction) (hpc : pc < romSize) :
    collectLabelsFrom pc t (line :: rest) = collectLabelsFrom (pc + 1) t rest := by
  simp [collectLabelsFrom, hs, hpc]

/-- A label line with a fresh name that is not predefined binds it at the current address. The
table is read through `Table.get?` alone, so the pass runs over given lines with no hashing. -/
theorem collectLabelsFrom_cons_fresh {pc : Nat} {t : Table} {line : Line} (name : String)
    (rest : List Line) (hs : line.statement = .label name) (hpre : Symbol.predefined? name = none)
    (hfresh : t.get? name = none) (hpc : pc < 32768) :
    collectLabelsFrom pc t (line :: rest) =
      collectLabelsFrom pc (t.insert name ⟨pc, hpc⟩) rest := by
  have hle : pc ≤ addressMax := by unfold addressMax; omega
  simp [collectLabelsFrom, hs, hpre, Table.contains, hfresh, hle]

/-! ## What a whole pass produced -/

/-- A successful pass never runs past the ROM: with the instruction lines it counted, the
address stays within `romSize`. -/
theorem collectLabelsFrom_codeLines_le {pc : Nat} {t t' : Table} {lines : List Line}
    (hpc : pc ≤ romSize) (h : collectLabelsFrom pc t lines = .ok t') :
    pc + (codeLines lines).length ≤ romSize := by
  induction lines generalizing pc t with
  | nil => simpa using hpc
  | cons line rest ih =>
    rcases collectLabelsFrom_cons_eq_ok h with ⟨hs, hrest⟩ | ⟨_, _, _, hs, _, _, hrest⟩ |
      ⟨hs, hlt, hrest⟩
    · rw [codeLines_cons_of_ne rest (by simp [hs])]
      exact ih hpc hrest
    · rw [codeLines_cons_of_ne rest (by simp [hs])]
      exact ih hpc hrest
    · have := ih (Nat.succ_le_of_lt hlt) hrest
      rw [codeLines_cons_of_eq rest hs, List.length_cons]
      omega

/-- A binding, once made, survives the rest of the pass: a name bound again is refused. -/
theorem get?_collectLabelsFrom_of_get? {pc : Nat} {t t' : Table} {lines : List Line}
    {name : String} {a : Address} (h : collectLabelsFrom pc t lines = .ok t')
    (ha : t.get? name = some a) : t'.get? name = some a := by
  induction lines generalizing pc t with
  | nil =>
    simp only [collectLabelsFrom, Except.ok.injEq] at h
    exact h ▸ ha
  | cons line rest ih =>
    rcases collectLabelsFrom_cons_eq_ok h with ⟨_, hrest⟩ | ⟨fresh, b, _, _, _, hfresh, hrest⟩ |
      ⟨_, _, hrest⟩
    · exact ih hrest ha
    · refine ih hrest ?_
      have hne : (fresh == name) = false := by
        simp only [beq_eq_false_iff_ne]
        rintro rfl
        simp [hfresh] at ha
      rw [Table.get?_insert t fresh name b hfresh, hne]
      exact ha
    · exact ih hrest ha

/-- Every binding of a successful pass was there before it, or comes from a label line, at the
address after the instruction lines before that line. -/
theorem mem_toList_of_collectLabelsFrom {pc : Nat} {t t' : Table} {lines : List Line}
    {name : String} {a : Address} (h : collectLabelsFrom pc t lines = .ok t')
    (hmem : (name, a) ∈ t'.toList) :
    (name, a) ∈ t.toList ∨ ∃ before line after, lines = before ++ line :: after ∧
      line.statement = .label name ∧ a.val = pc + (codeLines before).length := by
  induction lines generalizing pc t with
  | nil =>
    simp only [collectLabelsFrom, Except.ok.injEq] at h
    exact .inl (h ▸ hmem)
  | cons line rest ih =>
    rcases collectLabelsFrom_cons_eq_ok h with ⟨hs, hrest⟩ | ⟨fresh, b, hb, hs, _, hfresh, hrest⟩ |
      ⟨hs, _, hrest⟩
    · refine (ih hrest).imp id ?_
      rintro ⟨before, l, after, rfl, hl, ha⟩
      exact ⟨line :: before, l, after, rfl, hl,
        by rw [codeLines_cons_of_ne before (by simp [hs])]; exact ha⟩
    · rcases ih hrest with hold | ⟨before, l, after, rfl, hl, ha⟩
      · rw [Table.toList_insert t fresh b hfresh, List.mem_append, List.mem_singleton] at hold
        rcases hold with hold | ⟨rfl, rfl⟩
        · exact .inl hold
        · exact .inr ⟨[], line, rest, rfl, hs, by simp [hb]⟩
      · exact .inr ⟨line :: before, l, after, rfl, hl,
          by rw [codeLines_cons_of_ne before (by simp [hs])]; exact ha⟩
    · refine (ih hrest).imp id ?_
      rintro ⟨before, l, after, rfl, hl, ha⟩
      refine ⟨line :: before, l, after, rfl, hl, ?_⟩
      rw [codeLines_cons_of_eq before hs, List.length_cons]
      omega

/-- Every label line of a successful pass binds its name at the address after the instruction
lines before it. -/
theorem get?_collectLabelsFrom_of_declared {pc : Nat} {t t' : Table} {before after : List Line}
    {line : Line} {name : String} (hs : line.statement = .label name)
    (h : collectLabelsFrom pc t (before ++ line :: after) = .ok t') :
    ∃ a : Address, t'.get? name = some a ∧ a.val = pc + (codeLines before).length := by
  induction before generalizing pc t with
  | nil =>
    obtain ⟨b, hb, -, hfresh, hrest⟩ := collectLabelsFrom_cons_label hs h
    refine ⟨b, get?_collectLabelsFrom_of_get? hrest ?_, by simp [hb]⟩
    simp [Table.get?_insert t name name b hfresh]
  | cons l before ih =>
    rcases collectLabelsFrom_cons_eq_ok h with ⟨hl, hrest⟩ | ⟨_, _, _, hl, _, _, hrest⟩ |
      ⟨hl, _, hrest⟩
    · rw [codeLines_cons_of_ne before (by simp [hl])]
      exact ih hrest
    · rw [codeLines_cons_of_ne before (by simp [hl])]
      exact ih hrest
    · obtain ⟨a, ha, hval⟩ := ih hrest
      refine ⟨a, ha, ?_⟩
      rw [codeLines_cons_of_eq before hl, List.length_cons]
      omega

/-- A successful pass declares no predefined name as a label. -/
theorem predefined?_eq_none_of_collectLabelsFrom {pc : Nat} {t t' : Table} {lines : List Line}
    {name : String} (h : collectLabelsFrom pc t lines = .ok t') (hdecl : Declares lines name) :
    Symbol.predefined? name = none := by
  induction lines generalizing pc t with
  | nil => simp [Declares] at hdecl
  | cons line rest ih =>
    obtain ⟨l, hl, hs⟩ := hdecl
    rcases List.mem_cons.mp hl with rfl | hl
    · obtain ⟨-, -, hpre, -⟩ := collectLabelsFrom_cons_label hs h
      exact hpre
    · rcases collectLabelsFrom_cons_eq_ok h with ⟨_, hrest⟩ | ⟨_, _, _, _, _, _, hrest⟩ |
        ⟨_, _, hrest⟩ <;> exact ih hrest ⟨l, hl, hs⟩

/-! ## The pass over a whole program -/

section Program

variable {lines : List Line} {t : Table}

theorem Table.mem_toList_of_get? {t : Table} {name : String} {a : Address}
    (h : t.get? name = some a) : (name, a) ∈ t.toList := by
  rw [Table.get?_eq_lookup, List.lookup_eq_some_iff] at h
  obtain ⟨l₁, l₂, hl, _⟩ := h
  simp [hl]

theorem length_codeLines_le (h : collectLabels lines = .ok t) :
    (codeLines lines).length ≤ romSize := by
  simpa using collectLabelsFrom_codeLines_le (Nat.zero_le _) h

theorem mem_toList_of_collectLabels {name : String} {a : Address} (h : collectLabels lines = .ok t)
    (hmem : (name, a) ∈ t.toList) :
    ∃ before line after, lines = before ++ line :: after ∧ line.statement = .label name ∧
      a.val = (codeLines before).length := by
  rcases mem_toList_of_collectLabelsFrom h hmem with hnil | hdecl
  · simp at hnil
  · simpa using hdecl

theorem get?_of_collectLabels {before after : List Line} {line : Line} {name : String}
    (hlines : lines = before ++ line :: after) (hs : line.statement = .label name)
    (h : collectLabels lines = .ok t) :
    ∃ a : Address, t.get? name = some a ∧ a.val = (codeLines before).length := by
  subst hlines
  simpa using get?_collectLabelsFrom_of_declared hs h

theorem get?_eq_none_of_collectLabels {name : String} (h : collectLabels lines = .ok t)
    (hdecl : ¬Declares lines name) : t.get? name = none := by
  cases hget : t.get? name with
  | none => rfl
  | some a =>
    obtain ⟨before, line, after, rfl, hs, -⟩ :=
      mem_toList_of_collectLabels h (Table.mem_toList_of_get? hget)
    exact absurd ⟨line, by simp, hs⟩ hdecl

theorem predefined?_eq_none_of_collectLabels {name : String} (h : collectLabels lines = .ok t)
    (hdecl : Declares lines name) : Symbol.predefined? name = none :=
  predefined?_eq_none_of_collectLabelsFrom h hdecl

end Program

theorem Program.read_of_collectLabels {source : String} {t : Table}
    (h : collectLabels (readLines source) = .ok t) :
    Program.read source = .ok ⟨readLines source, t⟩ := by
  simp only [Program.read, h]
  rfl

theorem Program.read_eq_ok {source : String} {p : Program} (h : Program.read source = .ok p) :
    p.lines = readLines source ∧ collectLabels p.lines = .ok p.labels := by
  simp only [Program.read, bind, Except.bind, pure, Except.pure] at h
  split at h
  · cases h
  · rename_i labels hlabels
    cases h
    exact ⟨rfl, hlabels⟩

end HackAsm
