import Mathlib.Data.List.Induction
import HackAsm.Proofs.FirstPass

/-!
# Where the first pass stops

The first pass accepts or refuses a program line by line. This file says, in terms of the lines
alone, which line it refuses and why. A line offends (`offence`), judged after the lines before
it, when it declares a label whose name is predefined or declared by an earlier line, or a label
after the last instruction address, or when it is an instruction line once the ROM is full. A
redefinition is reported as such even when no address is left for the label either.

`first_pass_verdict` is the whole characterisation: the pass succeeds exactly when no line
offends, and then its table binds every label line, in order, to the number of instruction lines
before it (`labelAddresses`); otherwise it fails with the error of the first offending line.

The proof runs the pass over a prefix in which no line offends, from the end of the prefix
(`collectLabels_append_of_noOffence`): the pass reaches the address after the prefix's instruction
lines with a table that agrees with the prefix (`Agrees`). Two step lemmas say what the next line
does: carry the agreement one line on, or stop with the line's offence.
-/

set_option autoImplicit false

namespace HackAsm

/-- Why `line`, after the lines `before`, stops the first pass, if it does. The address of a line
is the number of instruction lines before it. -/
def offence (before : List Line) (line : Line) : Option Error :=
  match line.statement with
  | .blank => none
  | .label name =>
    if (Symbol.predefined? name).isSome ∨ Declares before name then some (.redefinedLabel name)
    else if addressMax < (codeLines before).length then some (.addressOutOfRange name)
    else none
  | .instruction =>
    if romSize ≤ (codeLines before).length then some (.addressOutOfRange line.code) else none

/-- No line of `lines` offends, each judged after the lines before it. -/
def NoOffence (lines : List Line) : Prop :=
  ∀ before line after, lines = before ++ line :: after → offence before line = none

/-- The label lines among `lines`, in order, each with its address: `pc` plus the number of
instruction lines before it. -/
def labelAddresses (pc : Nat) : List Line → List (String × Nat)
  | [] => []
  | line :: rest =>
    match line.statement with
    | .blank => labelAddresses pc rest
    | .label name => (name, pc) :: labelAddresses pc rest
    | .instruction => labelAddresses (pc + 1) rest

/-! ## Lines added at the end -/

theorem labelAddresses_append (pc : Nat) (xs ys : List Line) :
    labelAddresses pc (xs ++ ys) =
      labelAddresses pc xs ++ labelAddresses (pc + (codeLines xs).length) ys := by
  induction xs generalizing pc with
  | nil => simp [labelAddresses]
  | cons x xs ih =>
    cases hx : x.statement with
    | blank =>
      have hne : x.statement ≠ .instruction := by simp [hx]
      simp [labelAddresses, hx, ih, codeLines_cons_of_ne xs hne]
    | label name =>
      have hne : x.statement ≠ .instruction := by simp [hx]
      simp [labelAddresses, hx, ih, codeLines_cons_of_ne xs hne]
    | instruction =>
      simp only [List.cons_append, labelAddresses, hx, ih, codeLines_cons_of_eq xs hx,
        List.length_cons]
      rw [Nat.add_assoc, Nat.add_comm 1]

theorem declares_append_singleton {before : List Line} {line : Line} {name : String} :
    Declares (before ++ [line]) name ↔ Declares before name ∨ line.statement = .label name := by
  simp [Declares]

theorem noOffence_append_singleton {before : List Line} {line : Line} :
    NoOffence (before ++ [line]) ↔ NoOffence before ∧ offence before line = none := by
  constructor
  · intro h
    exact ⟨fun b l a hb => h b l (a ++ [line]) (by simp [hb]), h before line [] rfl⟩
  · rintro ⟨hb, hl⟩ b l a heq
    -- the offending line is the last one, or lies in `before`
    rcases List.eq_nil_or_concat a with rfl | ⟨a', x, rfl⟩
    · obtain ⟨rfl, hlast⟩ := List.append_inj' heq rfl
      obtain rfl : line = l := by simpa using hlast
      exact hl
    · have heq' : before ++ [line] = (b ++ l :: a') ++ [x] := by simpa using heq
      obtain ⟨rfl, -⟩ := List.append_inj' heq' rfl
      exact hb b l a' rfl

/-! ## A table that agrees with its lines -/

/-- A table agrees with the lines it was built from: it binds exactly the names they declare, and
its bindings in order are their label lines with their addresses. -/
structure Agrees (lines : List Line) (t : Table) : Prop where
  contains_iff : ∀ name, t.contains name = true ↔ Declares lines name
  addresses : t.toList.map (fun b => (b.1, b.2.val)) = labelAddresses 0 lines

theorem agrees_nil : Agrees [] Table.empty where
  contains_iff name := by simp [Table.contains, Declares]
  addresses := rfl

/-- On a table that agrees with the lines before, the pass's test for a taken name is the one
`offence` makes. -/
theorem Agrees.taken_iff {before : List Line} {t : Table} (ht : Agrees before t) (name : String) :
    ((Symbol.predefined? name).isSome || t.contains name) = true ↔
      (Symbol.predefined? name).isSome ∨ Declares before name := by
  rw [Bool.or_eq_true, ht.contains_iff]

/-- A line that does not offend moves the pass one line on, to a table that agrees with the lines
so far. -/
theorem collectLabelsFrom_cons_of_offence_eq_none {before : List Line} {line : Line} {t : Table}
    (ht : Agrees before t) (h : offence before line = none) :
    ∃ t', Agrees (before ++ [line]) t' ∧ ∀ rest,
      collectLabelsFrom (codeLines before).length t (line :: rest) =
        collectLabelsFrom (codeLines (before ++ [line])).length t' rest := by
  have haddr := labelAddresses_append 0 before [line]
  rw [← ht.addresses, Nat.zero_add] at haddr
  cases hs : line.statement with
  | blank =>
    have hne : line.statement ≠ .instruction := by simp [hs]
    refine ⟨t, ⟨fun name => ?_, ?_⟩, fun rest => ?_⟩
    · simp [declares_append_singleton, hs, ht.contains_iff]
    · simp [haddr, labelAddresses, hs]
    · simp [collectLabelsFrom, hs, codeLines_cons_of_ne [] hne]
  | label name =>
    simp only [offence, hs] at h
    split at h
    · cases h
    rename_i hfresh
    split at h
    · cases h
    rename_i hpc
    have hpc' : (codeLines before).length ≤ addressMax := Nat.le_of_not_lt hpc
    have hbool : ((Symbol.predefined? name).isSome || t.contains name) = false :=
      Bool.eq_false_iff.mpr fun hc => hfresh ((ht.taken_iff name).mp hc)
    have hnew : t.get? name = none := Table.contains_eq_false.mp (Bool.or_eq_false_iff.mp hbool).2
    refine ⟨t.insert name ⟨(codeLines before).length, by unfold addressMax at hpc'; omega⟩,
      ⟨fun key => ?_, ?_⟩, fun rest => ?_⟩
    · -- the new label is the one name added
      rw [declares_append_singleton, hs, ← ht.contains_iff]
      simp only [Table.contains, Table.get?_insert t name key _ hnew, Statement.label.injEq]
      by_cases hkey : name = key <;> simp [hkey]
    · rw [Table.toList_insert t name _ hnew, List.map_append, haddr]
      simp [labelAddresses, hs]
    · have hne : line.statement ≠ .instruction := by simp [hs]
      simp only [collectLabelsFrom, hs, hbool, dif_pos hpc', codeLines_append,
        codeLines_cons_of_ne [] hne, codeLines_nil, List.append_nil]
      rfl
  | instruction =>
    simp only [offence, hs] at h
    split at h
    · cases h
    rename_i hrom
    refine ⟨t, ⟨fun name => ?_, ?_⟩, fun rest => ?_⟩
    · simp [declares_append_singleton, hs, ht.contains_iff]
    · simp [haddr, labelAddresses, hs]
    · simp [collectLabelsFrom, hs, Nat.lt_of_not_le hrom, codeLines_cons_of_eq [] hs]

/-- A line that offends stops the pass with its offence. -/
theorem collectLabelsFrom_cons_of_offence_eq_some {before rest : List Line} {line : Line}
    {t : Table} {e : Error} (ht : Agrees before t) (h : offence before line = some e) :
    collectLabelsFrom (codeLines before).length t (line :: rest) = .error (line.fail e) := by
  cases hs : line.statement with
  | blank => simp [offence, hs] at h
  | label name =>
    simp only [offence, hs] at h
    split at h
    · rename_i hredef
      cases h
      have hbool : ((Symbol.predefined? name).isSome || t.contains name) = true :=
        (ht.taken_iff name).mpr hredef
      simp [collectLabelsFrom, hs, hbool]
    · rename_i hfresh
      split at h
      · rename_i hpc
        cases h
        have hbool : ((Symbol.predefined? name).isSome || t.contains name) = false :=
          Bool.eq_false_iff.mpr fun hc => hfresh ((ht.taken_iff name).mp hc)
        simp [collectLabelsFrom, hs, hbool, Nat.not_le_of_lt hpc]
      · cases h
  | instruction =>
    simp only [offence, hs] at h
    split at h
    · rename_i hrom
      cases h
      simp [collectLabelsFrom, hs, Nat.not_lt_of_le hrom]
    · cases h

/-! ## The pass over a prefix -/

/-- The pass over lines none of which offends reaches the address after their instruction lines,
with a table that agrees with them, and goes on from there. -/
theorem collectLabels_append_of_noOffence {before : List Line} (h : NoOffence before) :
    ∃ t, Agrees before t ∧ ∀ rest,
      collectLabels (before ++ rest) = collectLabelsFrom (codeLines before).length t rest := by
  induction before using List.reverseRecOn with
  | nil => exact ⟨Table.empty, agrees_nil, fun _ => rfl⟩
  | append_singleton before line ih =>
    obtain ⟨hb, hl⟩ := noOffence_append_singleton.mp h
    obtain ⟨t, ht, hrun⟩ := ih hb
    obtain ⟨t', ht', hstep⟩ := collectLabelsFrom_cons_of_offence_eq_none ht hl
    refine ⟨t', ht', fun rest => ?_⟩
    rw [List.append_assoc, List.singleton_append, hrun, hstep]

/-- A pass that goes on past some lines found none of them offending. -/
theorem noOffence_of_collectLabels_append_eq_ok {before rest : List Line} {t : Table}
    (h : collectLabels (before ++ rest) = .ok t) : NoOffence before := by
  induction before using List.reverseRecOn generalizing rest with
  | nil =>
    intro b l a heq
    simp at heq
  | append_singleton before line ih =>
    rw [List.append_assoc, List.singleton_append] at h
    have hb := ih h
    refine noOffence_append_singleton.mpr ⟨hb, ?_⟩
    obtain ⟨t₀, ht₀, hrun⟩ := collectLabels_append_of_noOffence hb
    cases he : offence before line with
    | none => rfl
    | some e =>
      rw [hrun, collectLabelsFrom_cons_of_offence_eq_some ht₀ he] at h
      cases h

/-- A successful pass agrees with its lines. -/
theorem agrees_of_collectLabels_eq_ok {lines : List Line} {t : Table}
    (h : collectLabels lines = .ok t) : Agrees lines t := by
  have h' : collectLabels (lines ++ []) = .ok t := by rwa [List.append_nil]
  have hclean : NoOffence lines := noOffence_of_collectLabels_append_eq_ok h'
  obtain ⟨t₀, ht₀, hrun⟩ := collectLabels_append_of_noOffence hclean
  have : collectLabels lines = .ok t₀ := by simpa [collectLabelsFrom] using hrun []
  rw [this, Except.ok.injEq] at h
  exact h ▸ ht₀

/-! ## The verdict -/

/-- The first pass over any lines: it succeeds exactly when no line offends, and its table then
binds every label line, in order, to the number of instruction lines before it, each a fifteen-bit
address; a line that offends after lines that do not is where it fails, with its offence. -/
theorem first_pass_verdict (lines : List Line) :
    ((∃ t, collectLabels lines = .ok t) ↔ NoOffence lines) ∧
    (∀ t, collectLabels lines = .ok t →
      t.toList.map (fun b => (b.1, b.2.val)) = labelAddresses 0 lines ∧
        ∀ b ∈ t.toList, b.2.val ≤ addressMax) ∧
    (∀ before line after e, lines = before ++ line :: after → NoOffence before →
      offence before line = some e → collectLabels lines = .error (line.fail e)) := by
  refine ⟨⟨?_, ?_⟩, ?_, ?_⟩
  · rintro ⟨t, ht⟩
    have ht' : collectLabels (lines ++ []) = .ok t := by rwa [List.append_nil]
    exact noOffence_of_collectLabels_append_eq_ok ht'
  · intro hclean
    obtain ⟨t, -, hrun⟩ := collectLabels_append_of_noOffence hclean
    exact ⟨t, by simpa [collectLabelsFrom] using hrun []⟩
  · intro t ht
    refine ⟨(agrees_of_collectLabels_eq_ok ht).addresses, fun b _ => ?_⟩
    have := b.2.isLt
    unfold addressMax
    omega
  · rintro before line after e rfl hclean hoff
    obtain ⟨t, ht, hrun⟩ := collectLabels_append_of_noOffence hclean
    rw [hrun, collectLabelsFrom_cons_of_offence_eq_some ht hoff]

/-- A label declared again two lines later is refused on its second declaration, the third line. -/
theorem first_pass_verdict_redefined :
    readLines "(A1)\n@0\n(A1)" = [Line.read 0 "(A1)", Line.read 1 "@0"] ++
        Line.read 2 "(A1)" :: [] ∧
      NoOffence [Line.read 0 "(A1)", Line.read 1 "@0"] ∧
      offence [Line.read 0 "(A1)", Line.read 1 "@0"] (Line.read 2 "(A1)") =
        some (.redefinedLabel "A1") ∧
      collectLabels (readLines "(A1)\n@0\n(A1)") =
        .error ((Line.read 2 "(A1)").fail (.redefinedLabel "A1")) := by
  have hlines : readLines "(A1)\n@0\n(A1)" = [Line.read 0 "(A1)", Line.read 1 "@0"] ++
      Line.read 2 "(A1)" :: [] := rfl
  -- no line of the prefix offends, taken one line at a time from the end
  have hclean : NoOffence ([] ++ [Line.read 0 "(A1)"] ++ [Line.read 1 "@0"]) := by
    refine noOffence_append_singleton.mpr ⟨noOffence_append_singleton.mpr ⟨?_, by decide⟩, by decide⟩
    intro b l a heq
    simp at heq
  have hoff : offence [Line.read 0 "(A1)", Line.read 1 "@0"] (Line.read 2 "(A1)") =
      some (.redefinedLabel "A1") := by decide
  exact ⟨hlines, hclean, hoff, (first_pass_verdict _).2.2 _ _ _ _ hlines hclean hoff⟩

end HackAsm
