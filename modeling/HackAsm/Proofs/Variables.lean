import HackAsm.Proofs.Iterator

/-!
# How the symbols of loads resolve

A load `@name` of a symbol means, in the second pass, a predefined address if `name` is
predefined, else a label's address if some line declares `(name)`, before or after the load, and
else a variable. Variables are numbered by first use: the first variable loaded gets `16`, the
next new one `17`, and so on, whatever labels, literals and computations stand between them.

The proof follows the run. `Allocated` says what the context holds after the loads of a list of
names: the first pass's labels, and the variables of those names (`variablesOf`) in order of
first load, at consecutive addresses from `16`. One instruction line that assembles keeps it,
with its loaded symbol added (`Allocated.encodeLine`), and so does every prefix of the
instruction lines that the second pass got through (`Program.allocated_contextBefore`). The
address a load gets is then read off the context: a predefined or label address as it stands
(`Context.resolve_of_predefined`, `Context.resolve_of_label`), a variable's at its position among
the variables (`Allocated.resolve_variable`). That position is the first-use count, by a fact about
`List.eraseDups` (`idxOf_variablesOf`). The context the iterator holds once it has stopped is the
one the second pass ends with (`Program.encoder_context_of_stopped`), so its variables are those
of the lines that assembled.
-/

set_option autoImplicit false

namespace HackAsm

/-- The symbol a line loads: `name` when its code is `@name` and `name` reads as a symbol. -/
def loadedSymbol? (line : Line) : Option String :=
  match line.code.toList with
  | '@' :: rest =>
    match Operand.parse (String.ofList rest) with
    | .ok (.symbol name) => some name
    | _ => none
  | _ => none

/-- Whether `name` stands for a variable in a program with these lines: it is neither predefined
nor a label that one of the lines declares. -/
def isVariable (lines : List Line) (name : String) : Bool :=
  (Symbol.predefined? name).isNone && !decide (Declares lines name)

/-- The variables that loads of `names` allocate in a program with these lines, in order of
first load. -/
def variablesOf (lines : List Line) (names : List String) : List String :=
  (names.filter (isVariable lines)).eraseDups

/-- The variables of a context with their addresses as numbers, in the order of allocation. -/
def Context.variableList (ctx : Context) : List (String × Nat) :=
  ctx.vars.toList.map fun b => (b.1, b.2.val)

@[simp]
theorem isVariable_iff {lines : List Line} {name : String} :
    isVariable lines name = true ↔ Symbol.predefined? name = none ∧ ¬Declares lines name := by
  simp [isVariable]

/-! ## Which lines load a symbol -/

theorem Operand.eq_of_parse_eq_symbol {s name : String}
    (h : Operand.parse s = .ok (.symbol name)) : name = s := by
  unfold Operand.parse at h
  split at h
  · simp only at h
    split at h <;> cases h
  · split at h
    · cases h
      rfl
    · cases h

/-- Only a code that starts with `@` reads as a load. -/
theorem Code.parse_eq_address {code : String} {operand : Operand}
    (h : Code.parse code = .ok (.address operand)) :
    ∃ rest, code.toList = '@' :: rest ∧ Operand.parse (String.ofList rest) = .ok operand := by
  unfold Code.parse at h
  split at h
  · rename_i rest hcs
    cases hop : Operand.parse (String.ofList rest) with
    | error e =>
      rw [hop] at h
      cases h
    | ok op =>
      simp only [hop] at h
      cases h
      exact ⟨rest, hcs, hop⟩
  · -- a computation: each field either fails or the result is a `compute`
    simp only at h
    split at h
    · cases h
    · split at h
      · cases h
      · split at h
        · cases h
        · cases h

theorem loadedSymbol?_eq_some_iff {line : Line} {name : String} :
    loadedSymbol? line = some name ↔ Code.parse line.code = .ok (.address (.symbol name)) := by
  constructor
  · intro h
    unfold loadedSymbol? at h
    split at h
    · rename_i rest hcs
      split at h
      · rename_i n hparse
        obtain rfl : n = name := Option.some.inj h
        have hname := Operand.eq_of_parse_eq_symbol hparse
        have hcode : line.code = "@" ++ n := by
          rw [← String.toList_inj, hcs, hname]
          simp
        rw [hcode]
        exact Code.parse_load (hname ▸ hparse)
      · cases h
    · cases h
  · intro h
    obtain ⟨rest, hcs, hparse⟩ := Code.parse_eq_address h
    simp [loadedSymbol?, hcs, hparse]

/-- A line changes the context only by resolving the symbol it loads. -/
theorem encodeLine_snd (line : Line) (ctx : Context) :
    (encodeLine line ctx).2 = match loadedSymbol? line with
      | some name => (ctx.resolve name).2
      | none => ctx := by
  have hnone : (∀ name, Code.parse line.code ≠ .ok (.address (.symbol name))) →
      loadedSymbol? line = none := by
    intro hne
    cases hl : loadedSymbol? line with
    | none => rfl
    | some name => exact absurd (loadedSymbol?_eq_some_iff.mp hl) (hne name)
  unfold encodeLine
  cases hparse : Code.parse line.code with
  | error e => simp [hnone (by simp [hparse])]
  | ok code =>
    cases code with
    | address operand =>
      cases operand with
      | literal v => simp [Code.resolve, hnone (by simp [hparse])]
      | symbol name => simp [Code.resolve, loadedSymbol?_eq_some_iff.mpr hparse]
    | compute => simp [Code.resolve, hnone (by simp [hparse])]

theorem encodeLine_of_loadedSymbol? {line : Line} {ctx : Context} {name : String}
    (h : loadedSymbol? line = some name) :
    encodeLine line ctx = ((ctx.resolve name).1.map .load, (ctx.resolve name).2) := by
  simp [encodeLine, loadedSymbol?_eq_some_iff.mp h, Code.resolve]

/-- A line that loads a symbol and assembles loads the address the symbol resolves to. -/
theorem resolve_of_encodeLine_eq_ok {line : Line} {ctx : Context} {name : String}
    {inst : Instruction} (h : loadedSymbol? line = some name)
    (hok : (encodeLine line ctx).1 = .ok inst) :
    ∃ a, (ctx.resolve name).1 = .ok a ∧ inst = .load a := by
  rw [encodeLine_of_loadedSymbol? h] at hok
  cases hres : (ctx.resolve name).1 with
  | error e => simp [hres, Except.map] at hok
  | ok a =>
    simp only [hres, Except.map, Except.ok.injEq] at hok
    exact ⟨a, rfl, hok.symm⟩

/-- A name that meant nothing and still resolved found a free address. -/
theorem Context.next_le_of_resolve_eq_ok {ctx : Context} {name : String} {a : Address}
    (hlookup : ctx.lookup name = none) (hres : (ctx.resolve name).1 = .ok a) :
    ctx.next ≤ addressMax := by
  refine Nat.le_of_not_lt fun hfull => ?_
  rw [ctx.resolve_of_addressMax_lt name hlookup hfull] at hres
  cases hres

/-! ## Looking up a variable -/

theorem lookup_map_val (l : List (String × Address)) (name : String) :
    (l.map fun b => (b.1, b.2.val)).lookup name = (l.lookup name).map Fin.val := by
  induction l with
  | nil => rfl
  | cons b rest ih =>
    obtain ⟨key, a⟩ := b
    cases h : name == key <;> simp [List.lookup_cons, h, ih]

/-- Names at consecutive addresses from `base`: a name's address is `base` plus the position of
its first occurrence. -/
theorem lookup_mapIdx_add (names : List String) (base : Nat) (name : String) :
    (names.mapIdx fun i n => (n, base + i)).lookup name =
      if name ∈ names then some (base + names.idxOf name) else none := by
  induction names generalizing base with
  | nil => simp
  | cons n rest ih =>
    have hshift : (rest.mapIdx fun i m => (m, base + (i + 1))) =
        rest.mapIdx fun i m => (m, base + 1 + i) := by
      congr
      funext i m
      rw [Nat.add_comm i 1, Nat.add_assoc]
    rw [List.mapIdx_cons, hshift, List.lookup_cons, ih]
    by_cases h : name = n
    · subst h
      simp
    · have hb : (name == n) = false := beq_false_of_ne h
      have hb' : (n == name) = false := beq_false_of_ne (Ne.symm h)
      simp only [hb, List.mem_cons, h, false_or, List.idxOf_cons, hb', cond_false]
      split <;> simp [Nat.add_assoc, Nat.add_comm 1]

/-- Adding one load to the names adds its symbol to the variables when it is a variable not
allocated yet. -/
theorem variablesOf_append_singleton (lines : List Line) (names : List String) (name : String) :
    variablesOf lines (names ++ [name]) =
      if isVariable lines name ∧ name ∉ variablesOf lines names then
        variablesOf lines names ++ [name]
      else variablesOf lines names := by
  unfold variablesOf
  rw [List.filter_append, List.eraseDups_append]
  by_cases hv : isVariable lines name
  · have hsingle : [name].filter (isVariable lines) = [name] := by simp [hv]
    rw [hsingle, List.cons_removeAll, List.nil_removeAll]
    by_cases hmem : name ∈ names.filter (isVariable lines)
    · have hc : (names.filter (isVariable lines)).contains name = true := by simpa using hmem
      have hmem' : name ∈ (names.filter (isVariable lines)).eraseDups := List.mem_eraseDups.mpr hmem
      rw [hc]
      simp [hmem']
    · have hc : (names.filter (isVariable lines)).contains name = false := by simpa using hmem
      have hmem' : name ∉ (names.filter (isVariable lines)).eraseDups :=
        fun h => hmem (List.mem_eraseDups.mp h)
      rw [hc, if_pos rfl]
      simp [hmem', hv, List.eraseDups_cons]
  · simp [hv]

/-- The position of a variable among the variables is the number of distinct variables loaded
before its first load. -/
theorem idxOf_variablesOf {lines : List Line} {names : List String} {name : String}
    (hv : isVariable lines name = true) (hmem : name ∈ names) :
    (variablesOf lines names).idxOf name =
      (variablesOf lines (names.takeWhile (· != name))).length := by
  have hbefore : ∀ x ∈ names.takeWhile (· != name), x ≠ name := by
    intro x hx
    simpa using List.all_eq_true.mp List.all_takeWhile x hx
  have hsplit := List.takeWhile_append_dropWhile (p := (· != name)) (l := names)
  -- cut the names at the first load of `name`
  obtain ⟨after, hafter⟩ : ∃ after, names.dropWhile (· != name) = name :: after := by
    cases hd : names.dropWhile (· != name) with
    | nil =>
      rw [← hsplit, hd, List.append_nil] at hmem
      exact absurd rfl (hbefore name hmem)
    | cons x after =>
      have hx := List.head_dropWhile_not (· != name) (by simp [hd] : names.dropWhile (· != name) ≠ [])
      simp only [hd, List.head_cons, bne_eq_false_iff_eq] at hx
      exact ⟨after, by rw [hx]⟩
  have hnot : name ∉ (names.takeWhile (· != name)).filter (isVariable lines) :=
    fun h => hbefore name (List.mem_filter.mp h).1 rfl
  have hc : ((names.takeWhile (· != name)).filter (isVariable lines)).contains name = false := by
    simpa using hnot
  unfold variablesOf
  conv => lhs; rw [← hsplit, hafter]
  rw [List.filter_append, List.filter_cons_of_pos hv, List.eraseDups_append,
    List.idxOf_append, if_neg fun h => hnot (List.mem_eraseDups.mp h), List.cons_removeAll,
    if_pos hc, List.eraseDups_cons, List.idxOf_cons_self, Nat.zero_add]

/-! ## Predefined names and labels -/

theorem Context.resolve_of_predefined {ctx : Context} {name : String} {a : Address}
    (h : Symbol.predefined? name = some a) : ctx.resolve name = (.ok a, ctx) :=
  ctx.resolve_of_lookup_eq_some name a (by simp [Context.lookup, h])

theorem Context.resolve_of_label {ctx : Context} {name : String} {a : Address}
    (hpre : Symbol.predefined? name = none) (h : ctx.labels.get? name = some a) :
    ctx.resolve name = (.ok a, ctx) :=
  ctx.resolve_of_lookup_eq_some name a (by simp [Context.lookup, hpre, h])

/-- The labels of a program as the first pass leaves them: a name has a label exactly when a
line declares it, and a declared name is not predefined. -/
structure LabelsOf (lines : List Line) (labels : Table) : Prop where
  get?_eq_none : ∀ name, ¬Declares lines name → labels.get? name = none
  get?_ne_none : ∀ name, Declares lines name → labels.get? name ≠ none
  predefined?_eq_none : ∀ name, Declares lines name → Symbol.predefined? name = none

theorem Program.labelsOf {source : String} {p : Program} (h : Program.read source = .ok p) :
    LabelsOf p.lines p.labels := by
  obtain ⟨-, hlabels⟩ := Program.read_eq_ok h
  refine ⟨fun _ hdecl => get?_eq_none_of_collectLabels hlabels hdecl, ?_,
    fun _ hdecl => predefined?_eq_none_of_collectLabels hlabels hdecl⟩
  rintro name ⟨line, hmem, hs⟩
  obtain ⟨before, after, hsplit⟩ := List.append_of_mem hmem
  obtain ⟨a, hget, -⟩ := get?_of_collectLabels hsplit hs hlabels
  simp [hget]

theorem LabelsOf.get?_eq_none_iff {lines : List Line} {labels : Table} (hl : LabelsOf lines labels)
    (name : String) : labels.get? name = none ↔ ¬Declares lines name :=
  ⟨fun h hdecl => hl.get?_ne_none name hdecl h, hl.get?_eq_none name⟩

/-! ## The context after a list of loads -/

/-- The context after the loads of `names` in a program with these lines and labels: the labels,
and the variables among the names in order of first load, at consecutive addresses from `16`. -/
structure Allocated (lines : List Line) (labels : Table) (names : List String) (ctx : Context) :
    Prop where
  labels_eq : ctx.labels = labels
  variables_eq : ctx.variableList =
    (variablesOf lines names).mapIdx fun i name => (name, variableBase + i)
  next_eq : ctx.next = variableBase + (variablesOf lines names).length

namespace Allocated

variable {lines : List Line} {labels : Table} {names : List String} {ctx : Context}

/-- The context depends on the names only through their variables. -/
theorem of_variablesOf_eq {names' : List String} (h : Allocated lines labels names ctx)
    (heq : variablesOf lines names' = variablesOf lines names) :
    Allocated lines labels names' ctx :=
  ⟨h.labels_eq, heq ▸ h.variables_eq, heq ▸ h.next_eq⟩

theorem ofLabels (lines : List Line) (labels : Table) :
    Allocated lines labels [] (Context.ofLabels labels) :=
  ⟨rfl, by simp [Context.variableList, Context.ofLabels, variablesOf],
    by simp [Context.ofLabels, variablesOf]⟩

/-- A variable's address is `16` plus its position among the variables. -/
theorem get?_variables (h : Allocated lines labels names ctx) (name : String) :
    (ctx.vars.get? name).map Fin.val =
      if name ∈ variablesOf lines names then
        some (variableBase + (variablesOf lines names).idxOf name)
      else none := by
  rw [Table.get?_eq_lookup, ← lookup_map_val]
  change ctx.variableList.lookup name = _
  rw [h.variables_eq, lookup_mapIdx_add]

theorem get?_variables_eq_none_iff (h : Allocated lines labels names ctx) (name : String) :
    ctx.vars.get? name = none ↔ name ∉ variablesOf lines names := by
  have := h.get?_variables name
  constructor
  · intro hnone hmem
    simp [hnone, hmem] at this
  · intro hnot
    simpa [hnot] using this

/-- A name means nothing yet exactly when it is a variable not allocated yet. -/
theorem lookup_eq_none_iff (hl : LabelsOf lines labels) (h : Allocated lines labels names ctx)
    (name : String) :
    ctx.lookup name = none ↔ isVariable lines name ∧ name ∉ variablesOf lines names := by
  have hlabel := hl.get?_eq_none_iff name
  rw [← h.labels_eq] at hlabel
  have hvar := h.get?_variables_eq_none_iff name
  cases hpre : Symbol.predefined? name <;>
    cases hget : ctx.labels.get? name <;>
      simp_all [Context.lookup, isVariable]

/-- A load of a variable gets `16` plus the variable's position once the load is counted. -/
theorem resolve_variable (hl : LabelsOf lines labels) (h : Allocated lines labels names ctx)
    {name : String} {a : Address} (hv : isVariable lines name = true)
    (hres : (ctx.resolve name).1 = .ok a) :
    a.val = variableBase + (variablesOf lines (names ++ [name])).idxOf name := by
  rw [variablesOf_append_singleton]
  by_cases hmem : name ∈ variablesOf lines names
  · -- allocated before: the context already binds it, as a variable
    obtain ⟨hpre, hdecl⟩ := isVariable_iff.mp hv
    have hlabel : ctx.labels.get? name = none := by
      rw [h.labels_eq]
      exact hl.get?_eq_none name hdecl
    obtain ⟨b, hb⟩ : ∃ b, ctx.vars.get? name = some b := by
      cases hget : ctx.vars.get? name with
      | none => exact absurd hmem ((h.get?_variables_eq_none_iff name).mp hget)
      | some b => exact ⟨b, rfl⟩
    have hlookup : ctx.lookup name = some b := by simp [Context.lookup, hpre, hlabel, hb]
    rw [ctx.resolve_of_lookup_eq_some name b hlookup] at hres
    obtain rfl := Except.ok.inj hres
    have := h.get?_variables name
    simp only [hb, Option.map_some, hmem, if_true, Option.some.injEq] at this
    simp [hmem, this]
  · -- new: it gets the next free address, which is `16` plus the number allocated before
    have hlookup := (h.lookup_eq_none_iff hl name).mpr ⟨hv, hmem⟩
    have hfree := Context.next_le_of_resolve_eq_ok hlookup hres
    rw [ctx.resolve_of_lookup_eq_none name hlookup hfree] at hres
    obtain rfl := Except.ok.inj hres
    rw [if_pos ⟨hv, hmem⟩, List.idxOf_append, if_neg hmem, List.idxOf_cons_self]
    show ctx.next = _
    rw [h.next_eq]
    omega

/-- An instruction line that assembles keeps the context allocated for the names loaded before
it, with its own loaded symbol added. -/
theorem encodeLine (hl : LabelsOf lines labels) (h : Allocated lines labels names ctx)
    {line : Line} {inst : Instruction} (hok : (HackAsm.encodeLine line ctx).1 = .ok inst) :
    Allocated lines labels (names ++ (loadedSymbol? line).toList)
      (HackAsm.encodeLine line ctx).2 := by
  rw [encodeLine_snd]
  cases hsym : loadedSymbol? line with
  | none => simpa using h
  | some name =>
    simp only [Option.toList_some]
    obtain ⟨a, hres, -⟩ := resolve_of_encodeLine_eq_ok hsym hok
    cases hlookup : ctx.lookup name with
    | some v =>
      -- a bound name allocates nothing
      have hnew : ¬(isVariable lines name = true ∧ name ∉ variablesOf lines names) := by
        rw [← h.lookup_eq_none_iff hl name, hlookup]
        simp
      rw [ctx.resolve_of_lookup_eq_some name v hlookup]
      exact h.of_variablesOf_eq (by rw [variablesOf_append_singleton, if_neg hnew])
    | none =>
      have hnew := (h.lookup_eq_none_iff hl name).mp hlookup
      have hfree := Context.next_le_of_resolve_eq_ok hlookup hres
      have hget : ctx.vars.get? name = none := (h.get?_variables_eq_none_iff name).mpr hnew.2
      rw [ctx.resolve_of_lookup_eq_none name hlookup hfree]
      refine ⟨h.labels_eq, ?_, ?_⟩ <;> rw [variablesOf_append_singleton, if_pos hnew]
      · have hvars := h.variables_eq
        simp only [Context.variableList] at hvars ⊢
        rw [Table.toList_insert _ _ _ hget, List.map_append, hvars, List.mapIdx_concat]
        simp [h.next_eq]
      · simp [h.next_eq, Nat.add_assoc]

end Allocated

/-! ## The loads of a program -/

/-- The symbols that the instruction lines of a program load, in order. -/
def Program.loads (p : Program) : List String :=
  (codeLines p.lines).filterMap loadedSymbol?

/-- The symbols that the first `k` instruction lines of a program load, in order. -/
def Program.loadsBefore (p : Program) (k : Nat) : List String :=
  ((codeLines p.lines).take k).filterMap loadedSymbol?

/-- Before the first occurrence of a name, a list reads as any list it starts. -/
theorem takeWhile_bne_append_of_mem {x : String} {l₁ : List String} (l₂ : List String)
    (h : x ∈ l₁) : (l₁ ++ l₂).takeWhile (· != x) = l₁.takeWhile (· != x) := by
  induction l₁ with
  | nil => cases h
  | cons y ys ih =>
    by_cases hy : y = x
    · simp [hy]
    · have hx : x ∈ ys := by simpa [Ne.symm hy] using h
      simp [hy, ih hx]

section Program

variable {p : Program} {k : Nat} {line : Line}

theorem Program.contextBefore_succ (h : (codeLines p.lines)[k]? = some line) :
    p.contextBefore (k + 1) = (encodeLine line (p.contextBefore k)).2 := by
  simp [Program.contextBefore, List.take_add_one, h, contextAfter_append]

theorem Program.loadsBefore_succ (h : (codeLines p.lines)[k]? = some line) :
    p.loadsBefore (k + 1) = p.loadsBefore k ++ (loadedSymbol? line).toList := by
  simp only [Program.loadsBefore, List.take_add_one, h, List.filterMap_append]
  cases hs : loadedSymbol? line <;> simp [hs]

/-- Up to the first load of a name, the program's loads are those of any prefix that contains
that load. -/
theorem Program.takeWhile_loads {name : String} (h : name ∈ p.loadsBefore k) :
    p.loads.takeWhile (· != name) = (p.loadsBefore k).takeWhile (· != name) := by
  have hsplit : p.loads = p.loadsBefore k ++ ((codeLines p.lines).drop k).filterMap loadedSymbol? := by
    rw [Program.loads, Program.loadsBefore, ← List.filterMap_append, List.take_append_drop]
  rw [hsplit, takeWhile_bne_append_of_mem _ h]

/-- Every prefix of the instruction lines that the second pass got through leaves the context
allocated for its loads. -/
theorem Program.allocated_contextBefore (hl : LabelsOf p.lines p.labels) (hk : k ≤ p.encode.words.size) :
    Allocated p.lines p.labels (p.loadsBefore k) (p.contextBefore k) := by
  induction k with
  | zero => exact Allocated.ofLabels _ _
  | succ k ih =>
    obtain ⟨line, hline, -, -, henc⟩ := p.encode_word k hk
    rw [Program.contextBefore_succ hline, Program.loadsBefore_succ hline]
    exact (ih (Nat.le_of_lt hk)).encodeLine hl henc

/-- The `k`-th word, made from a line that loads `name`, loads the address that `name` resolves
to in the context of the lines before it. -/
theorem Program.encode_word_load {name : String} (hk : k < p.encode.words.size)
    (hline : (codeLines p.lines)[k]? = some line) (hsym : loadedSymbol? line = some name) :
    ∃ a, ((p.contextBefore k).resolve name).1 = .ok a ∧ p.encode.words[k].inst = .load a := by
  obtain ⟨line', hline', -, -, henc⟩ := p.encode_word k hk
  obtain rfl : line' = line := Option.some.inj (hline'.symm.trans hline)
  exact resolve_of_encodeLine_eq_ok hsym henc

end Program

/-! ## Resolution by precedence -/

/-- How the symbols of a program's loads resolve in its second pass, and which variables the
pass allocates. -/
structure ResolvesSymbols (p : Program) : Prop where
  /-- A load of a predefined name loads its predefined address. -/
  predefined_load : ∀ k (hk : k < p.encode.words.size) line name a,
    (codeLines p.lines)[k]? = some line → line.code = "@" ++ name →
    Operand.parse name = .ok (.symbol name) → Symbol.predefined? name = some a →
    p.encode.words[k].inst = .load a
  /-- A load of any other name that a line declares as a label, before or after the load, loads
  the label's address. -/
  label_load : ∀ k (hk : k < p.encode.words.size) line name,
    (codeLines p.lines)[k]? = some line → line.code = "@" ++ name →
    Operand.parse name = .ok (.symbol name) → Symbol.predefined? name = none →
    Declares p.lines name → ∃ a, p.labels.get? name = some a ∧ p.encode.words[k].inst = .load a
  /-- A load of a variable loads `16` plus the number of distinct variables that the program
  loads before its first load of this one. -/
  variable_load : ∀ k (hk : k < p.encode.words.size) line name,
    (codeLines p.lines)[k]? = some line → line.code = "@" ++ name →
    Operand.parse name = .ok (.symbol name) → Symbol.predefined? name = none →
    ¬Declares p.lines name → ∃ a : Address, p.encode.words[k].inst = .load a ∧
      a.val = variableBase + (variablesOf p.lines (p.loads.takeWhile (· != name))).length
  /-- Once the iterator has yielded everything, its variables are those that the lines which
  assembled load, in order of first load, at `16`, `17`, `18` and so on. -/
  allocated : ∀ n, p.encode.items.length ≤ n →
    (p.encoder.steps n).2.context.variableList =
      (variablesOf p.lines (p.loadsBefore p.encode.words.size)).mapIdx
        fun i name => (name, variableBase + i)

/-- In every program that passes the first pass, a load means a predefined address, else a label,
else a variable numbered by first load. -/
theorem symbols_resolve_by_precedence {source : String} {p : Program}
    (h : Program.read source = .ok p) : ResolvesSymbols p := by
  have hl := Program.labelsOf h
  -- a load's line reads as loading its symbol
  have hsym : ∀ line name, line.code = "@" ++ name → Operand.parse name = .ok (.symbol name) →
      loadedSymbol? line = some name := fun line name hcode hparse =>
    loadedSymbol?_eq_some_iff.mpr (hcode ▸ Code.parse_load hparse)
  refine ⟨?_, ?_, ?_, ?_⟩
  · intro k hk line name a hline hcode hparse hpre
    obtain ⟨b, hres, hinst⟩ := p.encode_word_load hk hline (hsym line name hcode hparse)
    rw [Context.resolve_of_predefined hpre] at hres
    rw [hinst, ← Except.ok.inj hres]
  · intro k hk line name hline hcode hparse hpre hdecl
    obtain ⟨a, hget⟩ := Option.ne_none_iff_exists'.mp (hl.get?_ne_none name hdecl)
    obtain ⟨b, hres, hinst⟩ := p.encode_word_load hk hline (hsym line name hcode hparse)
    rw [Context.resolve_of_label hpre (by simpa using hget)] at hres
    exact ⟨a, hget, by rw [hinst, ← Except.ok.inj hres]⟩
  · intro k hk line name hline hcode hparse hpre hdecl
    have hload := hsym line name hcode hparse
    obtain ⟨a, hres, hinst⟩ := p.encode_word_load hk hline hload
    have hsucc : p.loadsBefore (k + 1) = p.loadsBefore k ++ [name] := by
      simp [Program.loadsBefore_succ hline, hload]
    have hmem : name ∈ p.loadsBefore (k + 1) := by simp [hsucc]
    have hv : isVariable p.lines name = true := isVariable_iff.mpr ⟨hpre, hdecl⟩
    refine ⟨a, hinst, ?_⟩
    rw [(p.allocated_contextBefore hl (Nat.le_of_lt hk)).resolve_variable hl hv hres, ← hsucc,
      Program.takeWhile_loads hmem, idxOf_variablesOf hv hmem]
  · intro n hn
    rw [Program.encoder_context_of_stopped hn, p.trace_encode.context]
    exact (p.allocated_contextBefore hl (Nat.le_refl _)).variables_eq

/-- The resolution at a program that declares a label, then loads a variable whose name contains
a predefined one, a predefined name, the label, and the variable again. -/
theorem symbols_resolve_by_precedence_label_and_variable :
    Program.read "(TOP)\n@R1X\n@SP\n@TOP\n@R1X\nD=M" =
        .ok ⟨readLines "(TOP)\n@R1X\n@SP\n@TOP\n@R1X\nD=M", Table.empty.insert "TOP" 0⟩ ∧
      ResolvesSymbols
        ⟨readLines "(TOP)\n@R1X\n@SP\n@TOP\n@R1X\nD=M", Table.empty.insert "TOP" 0⟩ := by
  have hsplit : Text.splitLines "(TOP)\n@R1X\n@SP\n@TOP\n@R1X\nD=M" =
      ["(TOP)", "@R1X", "@SP", "@TOP", "@R1X", "D=M"] := by
    decide +kernel
  have h : Program.read "(TOP)\n@R1X\n@SP\n@TOP\n@R1X\nD=M" =
      .ok ⟨readLines "(TOP)\n@R1X\n@SP\n@TOP\n@R1X\nD=M", Table.empty.insert "TOP" 0⟩ := by
    apply Program.read_of_collectLabels
    rw [readLines, hsplit]
    simp only [List.mapIdx_cons, List.mapIdx_nil]
    rw [collectLabels,
      collectLabelsFrom_cons_fresh "TOP" _ (by decide +kernel) (by decide +kernel) (by simp)
        (by decide),
      collectLabelsFrom_cons_instruction _ (by decide +kernel) (by decide),
      collectLabelsFrom_cons_instruction _ (by decide +kernel) (by decide),
      collectLabelsFrom_cons_instruction _ (by decide +kernel) (by decide),
      collectLabelsFrom_cons_instruction _ (by decide +kernel) (by decide),
      collectLabelsFrom_cons_instruction _ (by decide +kernel) (by decide)]
    rfl
  exact ⟨h, symbols_resolve_by_precedence h⟩

end HackAsm
