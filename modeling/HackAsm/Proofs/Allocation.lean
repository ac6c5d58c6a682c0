import HackAsm.Proofs.FirstPass

/-!
# The symbol context stays well formed

A symbol context holds the labels of the first pass, the variables allocated so far, and the next
free RAM address. This file states what every context the assembler can reach satisfies
(`Context.Invariant`) and proves it for any sequence of resolutions, of any names, from the labels
of any successful first pass (`resolveAll_invariant`):

* labels and variables each bind a name at most once, and no label is predefined;
* the variables, in order of allocation, hold exactly the addresses `16`, `17`, ... below the next
  free one, which lies between `16` and `2^15`, so counting it up never leaves sixteen bits;
* no variable is predefined or a label.

So predefined symbols, labels and variables are three disjoint namespaces, and the order in which
`Context.lookup` consults them hides no binding: every label and every variable is what its name
looks up to (`Context.Invariant.lookup_of_mem_labels`, `Context.Invariant.lookup_of_mem_vars`).

The proof is a step and a run. `Context.resolve_cases` says once what one resolution can do:
nothing, or bind a name that means nothing yet at the next free address. `Invariant.resolve`
checks that this step keeps the invariant, and `Invariant.resolveAll` chains the steps. The same
case lemma shows that a resolution only adds bindings (`Context.extends_resolve`): what a name
means, it keeps meaning in every later context.

`resolve_is_stable_and_atomic` says what one resolution does in any context, reachable or not: a
bound name answers and changes nothing, a fresh name takes the next free address and disturbs no
other name, and with no address left nothing changes at all, so no failure leaves a name half
bound. With `Context.extends_resolveAll`, a name that resolved answers alike for the rest of a run.
-/

set_option autoImplicit false

namespace HackAsm

/-! ## Tables whose names are distinct -/

namespace Table

/-- The bindings of a table name pairwise different names. -/
def Distinct (t : Table) : Prop :=
  (t.toList.map Prod.fst).Nodup

theorem distinct_empty : empty.Distinct := by
  simp [Distinct]

theorem not_mem_toList_of_get?_eq_none {t : Table} {name : String} (h : t.get? name = none)
    (a : Address) : (name, a) ∉ t.toList := by
  rw [get?_eq_lookup, List.lookup_eq_none_iff] at h
  intro hmem
  simpa using h _ hmem

theorem distinct_insert {t : Table} (h : t.Distinct) (name : String) (value : Address) :
    (t.insert name value).Distinct := by
  cases hget : t.get? name with
  | some v => rwa [insert_of_get?_eq_some t name value v hget]
  | none =>
    unfold Distinct
    rw [toList_insert t name value hget, List.map_append, List.nodup_append]
    refine ⟨h, by simp, ?_⟩
    -- the new name is none of the old ones
    intro x hx y hy
    obtain ⟨⟨_, a⟩, hmem, rfl⟩ := List.mem_map.mp hx
    rw [List.map_singleton, List.mem_singleton] at hy
    subst hy
    rintro rfl
    exact not_mem_toList_of_get?_eq_none hget a hmem

theorem mem_toList_insert {t : Table} {name key : String} {value a : Address}
    (h : (key, a) ∈ (t.insert name value).toList) :
    (key, a) ∈ t.toList ∨ (t.get? name = none ∧ key = name ∧ a = value) := by
  cases hget : t.get? name with
  | some v =>
    rw [insert_of_get?_eq_some t name value v hget] at h
    exact .inl h
  | none =>
    rw [toList_insert t name value hget, List.mem_append, List.mem_singleton] at h
    rcases h with h | h
    · exact .inl h
    · obtain ⟨rfl, rfl⟩ := Prod.mk.inj h
      exact .inr ⟨rfl, rfl, rfl⟩

theorem lookup_of_mem_of_nodup {l : List (String × Address)} (h : (l.map Prod.fst).Nodup)
    {name : String} {a : Address} (hmem : (name, a) ∈ l) : l.lookup name = some a := by
  induction l with
  | nil => cases hmem
  | cons b rest ih =>
    obtain ⟨key, v⟩ := b
    rw [List.map_cons, List.nodup_cons] at h
    rcases List.mem_cons.mp hmem with heq | hrest
    · obtain ⟨rfl, rfl⟩ := Prod.mk.inj heq
      simp
    · -- the name is bound further on, so it is not the first name
      have hne : (name == key) = false := by
        refine beq_false_of_ne fun heq => h.1 ?_
        rw [← heq]
        simpa using List.mem_map_of_mem (f := Prod.fst) hrest
      rw [List.lookup_cons, hne]
      exact ih h.2 hrest

/-- In a table of distinct names, a binding is what its name looks up to. -/
theorem get?_of_mem_toList {t : Table} (h : t.Distinct) {name : String} {a : Address}
    (hmem : (name, a) ∈ t.toList) : t.get? name = some a := by
  rw [get?_eq_lookup]
  exact lookup_of_mem_of_nodup h hmem

end Table

/-! ## What one resolution can do -/

namespace Context

theorem lookup_eq_none_iff {ctx : Context} {name : String} :
    ctx.lookup name = none ↔ Symbol.predefined? name = none ∧ ctx.labels.get? name = none ∧
      ctx.vars.get? name = none := by
  unfold lookup
  cases Symbol.predefined? name <;> cases ctx.labels.get? name <;> simp

/-- The context after resolving `names` one after another, whatever each resolution answered. -/
def resolveAll (ctx : Context) (names : List String) : Context :=
  names.foldl (fun c name => (c.resolve name).2) ctx

@[simp]
theorem resolveAll_nil (ctx : Context) : ctx.resolveAll [] = ctx :=
  rfl

@[simp]
theorem resolveAll_cons (ctx : Context) (name : String) (names : List String) :
    ctx.resolveAll (name :: names) = (ctx.resolve name).2.resolveAll names :=
  rfl

/-- A resolution leaves the context as it was, or binds a name that means nothing yet as a
variable at the next free address, which it then counts up. -/
theorem resolve_cases (ctx : Context) (name : String) :
    (ctx.resolve name).2 = ctx ∨
      ∃ v : Address, v.val = ctx.next ∧ ctx.lookup name = none ∧
        (ctx.resolve name).2 = { ctx with vars := ctx.vars.insert name v, next := ctx.next + 1 } := by
  cases hlookup : ctx.lookup name with
  | some v => exact .inl (by rw [ctx.resolve_of_lookup_eq_some name v hlookup])
  | none =>
    by_cases hfree : ctx.next ≤ addressMax
    · exact .inr ⟨_, rfl, rfl, by rw [ctx.resolve_of_lookup_eq_none name hlookup hfree]⟩
    · rw [ctx.resolve_of_addressMax_lt name hlookup (by omega)]
      exact .inl rfl

/-- Binding a name that means nothing as a variable changes what that name means and nothing
else. -/
theorem lookup_insert_var {ctx : Context} {name : String} (h : ctx.lookup name = none)
    (v : Address) (n : Nat) (key : String) :
    ({ ctx with vars := ctx.vars.insert name v, next := n } : Context).lookup key =
      if name == key then some v else ctx.lookup key := by
  obtain ⟨hpre, hlabel, hvar⟩ := lookup_eq_none_iff.mp h
  unfold lookup
  rw [Table.get?_insert _ _ _ _ hvar]
  by_cases hkey : name = key
  · subst hkey
    simp [hpre, hlabel]
  · simp [hkey]

/-- A resolution that succeeds leaves the name meaning what it answered. -/
theorem lookup_resolve_of_ok {ctx : Context} {name : String} {a : Address}
    (h : (ctx.resolve name).1 = .ok a) : (ctx.resolve name).2.lookup name = some a := by
  cases hlookup : ctx.lookup name with
  | some v =>
    rw [ctx.resolve_of_lookup_eq_some name v hlookup] at h ⊢
    rw [hlookup, ← Except.ok.inj h]
  | none =>
    by_cases hfree : ctx.next ≤ addressMax
    · rw [ctx.resolve_of_lookup_eq_none name hlookup hfree] at h ⊢
      rw [lookup_insert_var hlookup, beq_self_eq_true, if_pos rfl, ← Except.ok.inj h]
    · rw [ctx.resolve_of_addressMax_lt name hlookup (by omega)] at h
      cases h

/-- Every name that `before` answers, `after` answers alike. -/
def Extends (before after : Context) : Prop :=
  ∀ name a, before.lookup name = some a → after.lookup name = some a

theorem extends_refl (ctx : Context) : ctx.Extends ctx :=
  fun _ _ h => h

theorem Extends.trans {c d e : Context} (hcd : c.Extends d) (hde : d.Extends e) : c.Extends e :=
  fun name a h => hde name a (hcd name a h)

/-- A resolution forgets no binding: a name, once it means an address, keeps meaning it. -/
theorem extends_resolve (ctx : Context) (name : String) : ctx.Extends (ctx.resolve name).2 := by
  rcases ctx.resolve_cases name with hsame | ⟨v, -, hlookup, hnew⟩
  · rw [hsame]
    exact extends_refl ctx
  · intro key a hkey
    -- the new name meant nothing, so it is not `key`
    have hne : (name == key) = false := by
      refine beq_false_of_ne fun heq => ?_
      rw [heq, hkey] at hlookup
      cases hlookup
    rw [hnew, lookup_insert_var hlookup, hne]
    exact hkey

/-- A run of resolutions forgets no binding. -/
theorem extends_resolveAll (ctx : Context) (names : List String) :
    ctx.Extends (ctx.resolveAll names) := by
  induction names generalizing ctx with
  | nil => exact extends_refl ctx
  | cons name rest ih => exact (extends_resolve ctx name).trans (ih _)

/-- A name that means nothing, with an address left, is bound at the next free address, which
then counts up; every other name keeps its meaning. -/
theorem resolve_fresh {ctx : Context} {name : String} (h : ctx.lookup name = none)
    (hfree : ctx.next ≤ addressMax) :
    ∃ v : Address, v.val = ctx.next ∧ (ctx.resolve name).1 = .ok v ∧
      (ctx.resolve name).2.lookup name = some v ∧ (ctx.resolve name).2.next = ctx.next + 1 ∧
      ∀ key, key ≠ name → (ctx.resolve name).2.lookup key = ctx.lookup key := by
  rw [ctx.resolve_of_lookup_eq_none name h hfree]
  refine ⟨_, rfl, rfl, ?_, rfl, ?_⟩
  · rw [lookup_insert_var h, beq_self_eq_true, if_pos rfl]
  · intro key hkey
    have hne : (name == key) = false := beq_false_of_ne (Ne.symm hkey)
    rw [lookup_insert_var h, hne, if_neg Bool.false_ne_true]

/-- A name that resolved resolves to the same address, changing nothing, after any later
resolutions. -/
theorem resolve_resolveAll_of_ok {ctx : Context} {name : String} {v : Address}
    (h : (ctx.resolve name).1 = .ok v) (names : List String) :
    ((ctx.resolve name).2.resolveAll names).resolve name =
      (.ok v, (ctx.resolve name).2.resolveAll names) :=
  resolve_of_lookup_eq_some _ _ _ (extends_resolveAll _ names name v (lookup_resolve_of_ok h))

/-! ## The invariant -/

/-- What a symbol context keeps true while the assembler uses it. -/
structure Invariant (ctx : Context) : Prop where
  /-- No name is bound twice as a label. -/
  labels_distinct : ctx.labels.Distinct
  /-- No label is predefined. -/
  label_not_predefined : ∀ name a, (name, a) ∈ ctx.labels.toList → Symbol.predefined? name = none
  /-- No name is bound twice as a variable. -/
  vars_distinct : ctx.vars.Distinct
  /-- The variables, in order of allocation, hold the addresses from `16` up to the one before the
  next free address. -/
  vars_addresses : ctx.vars.toList.map (fun b => b.2.val) =
    List.range' variableBase (ctx.next - variableBase)
  /-- The next free address is at least `16` and at most `2^15`. -/
  base_le_next : variableBase ≤ ctx.next
  next_le : ctx.next ≤ addressMax + 1
  /-- No variable is predefined or a label. -/
  var_fresh : ∀ name a, (name, a) ∈ ctx.vars.toList →
    Symbol.predefined? name = none ∧ ctx.labels.get? name = none

namespace Invariant

variable {ctx : Context}

/-- A context with no variable is well formed when its labels are distinct and none of them
predefined. -/
theorem ofLabels {labels : Table} (hd : labels.Distinct)
    (hpre : ∀ name a, (name, a) ∈ labels.toList → Symbol.predefined? name = none) :
    (ofLabels labels).Invariant where
  labels_distinct := hd
  label_not_predefined := hpre
  vars_distinct := Table.distinct_empty
  vars_addresses := by simp [Context.ofLabels]
  base_le_next := Nat.le_refl _
  next_le := by simp [Context.ofLabels, variableBase, addressMax]
  var_fresh := by simp [Context.ofLabels]

/-- One resolution keeps the invariant. -/
theorem resolve (h : ctx.Invariant) (name : String) : (ctx.resolve name).2.Invariant := by
  rcases ctx.resolve_cases name with hsame | ⟨v, hv, hlookup, hnew⟩
  · rwa [hsame]
  · obtain ⟨hpre, hlabel, hvar⟩ := lookup_eq_none_iff.mp hlookup
    rw [hnew]
    have hbase := h.base_le_next
    have hfree : ctx.next ≤ addressMax := by
      have := v.isLt
      unfold addressMax
      omega
    refine ⟨h.labels_distinct, h.label_not_predefined, Table.distinct_insert h.vars_distinct _ _,
      ?_, show variableBase ≤ ctx.next + 1 by omega, show ctx.next + 1 ≤ addressMax + 1 by omega, ?_⟩
    · -- the new variable takes the next free address, one past the others
      show (ctx.vars.insert name _).toList.map (fun b => b.2.val) =
        List.range' variableBase (ctx.next + 1 - variableBase)
      rw [Table.toList_insert _ _ _ hvar, List.map_append, h.vars_addresses,
        show ctx.next + 1 - variableBase = ctx.next - variableBase + 1 by omega,
        List.range'_concat]
      simp only [List.map_cons, List.map_nil, Nat.one_mul]
      congr 2
      omega
    · intro key a hmem
      rcases Table.mem_toList_insert hmem with hold | ⟨-, rfl, -⟩
      · exact h.var_fresh key a hold
      · exact ⟨hpre, hlabel⟩

/-- Any sequence of resolutions keeps the invariant. -/
theorem resolveAll (h : ctx.Invariant) (names : List String) : (ctx.resolveAll names).Invariant := by
  induction names generalizing ctx with
  | nil => exact h
  | cons name rest ih => exact ih (h.resolve name)

/-- A label is what its name looks up to: no predefined symbol hides it. -/
theorem lookup_of_mem_labels (h : ctx.Invariant) {name : String} {a : Address}
    (hmem : (name, a) ∈ ctx.labels.toList) : ctx.lookup name = some a := by
  simp [Context.lookup, h.label_not_predefined name a hmem,
    Table.get?_of_mem_toList h.labels_distinct hmem]

/-- A variable is what its name looks up to: no predefined symbol and no label hides it. -/
theorem lookup_of_mem_vars (h : ctx.Invariant) {name : String} {a : Address}
    (hmem : (name, a) ∈ ctx.vars.toList) : ctx.lookup name = some a := by
  obtain ⟨hpre, hlabel⟩ := h.var_fresh name a hmem
  simp [Context.lookup, hpre, hlabel, Table.get?_of_mem_toList h.vars_distinct hmem]

end Invariant

theorem resolveAll_labels (ctx : Context) (names : List String) :
    (ctx.resolveAll names).labels = ctx.labels := by
  induction names generalizing ctx with
  | nil => rfl
  | cons name rest ih =>
    rw [resolveAll_cons, ih]
    rcases ctx.resolve_cases name with hsame | ⟨_, _, _, hnew⟩
    · rw [hsame]
    · rw [hnew]

end Context

/-! ## The labels of a first pass -/

/-- A successful first pass binds each name at most once. -/
theorem distinct_collectLabelsFrom {pc : Nat} {t t' : Table} {lines : List Line}
    (h : collectLabelsFrom pc t lines = .ok t') (ht : t.Distinct) : t'.Distinct := by
  induction lines generalizing pc t with
  | nil =>
    simp only [collectLabelsFrom, Except.ok.injEq] at h
    exact h ▸ ht
  | cons line rest ih =>
    rcases collectLabelsFrom_cons_eq_ok h with ⟨_, hrest⟩ | ⟨name, a, _, _, _, _, hrest⟩ |
      ⟨_, _, hrest⟩
    · exact ih hrest ht
    · exact ih hrest (Table.distinct_insert ht name a)
    · exact ih hrest ht

/-- The context of a first pass's labels is well formed. -/
theorem Context.invariant_ofLabels {lines : List Line} {labels : Table}
    (h : collectLabels lines = .ok labels) : (Context.ofLabels labels).Invariant := by
  refine Context.Invariant.ofLabels (distinct_collectLabelsFrom h Table.distinct_empty) ?_
  intro name a hmem
  obtain ⟨before, line, after, hsplit, hs, -⟩ := mem_toList_of_collectLabels h hmem
  exact predefined?_eq_none_of_collectLabels h ⟨line, by simp [hsplit], hs⟩

/-- Every sequence of resolutions, of any names, from the labels of a successful first pass leaves
a well-formed context that still holds those labels, in which every label and every variable is
what its name looks up to. -/
theorem resolveAll_invariant {lines : List Line} {labels : Table}
    (h : collectLabels lines = .ok labels) (names : List String) :
    ((Context.ofLabels labels).resolveAll names).Invariant ∧
      ((Context.ofLabels labels).resolveAll names).labels = labels ∧
      ∀ name a, (name, a) ∈ labels.toList ∨
          (name, a) ∈ ((Context.ofLabels labels).resolveAll names).vars.toList →
        ((Context.ofLabels labels).resolveAll names).lookup name = some a := by
  have hinv := (Context.invariant_ofLabels h).resolveAll names
  have hlabels : ((Context.ofLabels labels).resolveAll names).labels = labels :=
    Context.resolveAll_labels _ names
  refine ⟨hinv, hlabels, ?_⟩
  rintro name a (hlabel | hvar)
  · rw [← hlabels] at hlabel
    exact hinv.lookup_of_mem_labels hlabel
  · exact hinv.lookup_of_mem_vars hvar

/-- The invariant after resolving a variable, a label, a predefined name and the variable again,
from the labels of a program with one label. -/
theorem resolveAll_invariant_after_label :
    collectLabels (readLines "(LOOP)\n@i\nM=1\n@LOOP") = .ok (Table.empty.insert "LOOP" 0) ∧
      ((Context.ofLabels (Table.empty.insert "LOOP" 0)).resolveAll
        ["i", "LOOP", "SP", "i"]).Invariant ∧
      ((Context.ofLabels (Table.empty.insert "LOOP" 0)).resolveAll
        ["i", "LOOP", "SP", "i"]).labels = Table.empty.insert "LOOP" 0 ∧
      ∀ name a, (name, a) ∈ (Table.empty.insert "LOOP" 0).toList ∨
          (name, a) ∈ ((Context.ofLabels (Table.empty.insert "LOOP" 0)).resolveAll
            ["i", "LOOP", "SP", "i"]).vars.toList →
        ((Context.ofLabels (Table.empty.insert "LOOP" 0)).resolveAll
          ["i", "LOOP", "SP", "i"]).lookup name = some a := by
  have hsplit : Text.splitLines "(LOOP)\n@i\nM=1\n@LOOP" = ["(LOOP)", "@i", "M=1", "@LOOP"] := by
    decide +kernel
  have h : collectLabels (readLines "(LOOP)\n@i\nM=1\n@LOOP") =
      .ok (Table.empty.insert "LOOP" 0) := by
    rw [readLines, hsplit]
    simp only [List.mapIdx_cons, List.mapIdx_nil]
    rw [collectLabels,
      collectLabelsFrom_cons_fresh "LOOP" _ (by decide +kernel) (by decide +kernel) (by simp)
        (by decide),
      collectLabelsFrom_cons_instruction _ (by decide +kernel) (by decide),
      collectLabelsFrom_cons_instruction _ (by decide +kernel) (by decide),
      collectLabelsFrom_cons_instruction _ (by decide +kernel) (by decide)]
    rfl
  exact ⟨h, resolveAll_invariant h ["i", "LOOP", "SP", "i"]⟩

/-! ## One resolution, in any context -/

/-- Resolving a name, in any context: a name that means an address answers it and changes
nothing; a name that means nothing is bound, while an address is left, at the next free one, and
no other name changes meaning; with no address left it fails and changes nothing. A name that
resolved keeps resolving to its address, changing nothing, through every later resolution. -/
theorem resolve_is_stable_and_atomic (ctx : Context) (name : String) :
    (∀ v, ctx.lookup name = some v → ctx.resolve name = (.ok v, ctx)) ∧
    (ctx.lookup name = none → ctx.next ≤ addressMax →
      ∃ v : Address, v.val = ctx.next ∧ (ctx.resolve name).1 = .ok v ∧
        (ctx.resolve name).2.lookup name = some v ∧ (ctx.resolve name).2.next = ctx.next + 1 ∧
        ∀ key, key ≠ name → (ctx.resolve name).2.lookup key = ctx.lookup key) ∧
    (ctx.lookup name = none → addressMax < ctx.next →
      ctx.resolve name = (.error (.addressOutOfRange name), ctx)) ∧
    ∀ v, (ctx.resolve name).1 = .ok v → ∀ names,
      ((ctx.resolve name).2.resolveAll names).resolve name =
        (.ok v, (ctx.resolve name).2.resolveAll names) :=
  ⟨ctx.resolve_of_lookup_eq_some name, Context.resolve_fresh, ctx.resolve_of_addressMax_lt name,
    fun _ h => Context.resolve_resolveAll_of_ok h⟩

/-- The first variable of a program without labels is fresh, finds address 16 free, and is
bound there alone. -/
theorem resolve_is_stable_and_atomic_first_variable :
    (Context.ofLabels Table.empty).lookup "i" = none ∧
      (Context.ofLabels Table.empty).next ≤ addressMax ∧
      ∃ v : Address, v.val = (Context.ofLabels Table.empty).next ∧
        ((Context.ofLabels Table.empty).resolve "i").1 = .ok v ∧
        ((Context.ofLabels Table.empty).resolve "i").2.lookup "i" = some v ∧
        ((Context.ofLabels Table.empty).resolve "i").2.next =
          (Context.ofLabels Table.empty).next + 1 ∧
        ∀ key, key ≠ "i" → ((Context.ofLabels Table.empty).resolve "i").2.lookup key =
          (Context.ofLabels Table.empty).lookup key := by
  have hnone : (Context.ofLabels Table.empty).lookup "i" = none := by
    simp [Context.lookup, Context.ofLabels, Symbol.predefined?, Symbol.predefined]
  have hfree : (Context.ofLabels Table.empty).next ≤ addressMax := by
    simp [Context.ofLabels, variableBase, addressMax]
  exact ⟨hnone, hfree, (resolve_is_stable_and_atomic _ "i").2.1 hnone hfree⟩

end HackAsm
