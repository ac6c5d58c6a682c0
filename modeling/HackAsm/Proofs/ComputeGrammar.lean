import HackAsm.Proofs.RoundTrip

/-!
# The grammar of computations

A code that does not start with `@` is read as a computation `dest=comp;jump`. This file says
exactly which texts are read, and how the others are refused (`compute_code_grammar`).

A text is a computation exactly when it is a destination written before its computation, the
computation's mnemonic for its input, and a jump written after it (`Dest.Written`,
`Jump.Written`). The absent destination and the absent jump may be written as nothing or as a
bare `=` or `;`, so `=D;` is the computation `D`. The memory input is chosen exactly when the
mnemonic holds an `M`, and only computations that read their second input have a memory form.

Any other text is cut into its fields (`ComputeFields`) and refused by the first field, in the
order destination, computation, jump, that spells nothing. A field that mixes `A` and `M` spells
no computation: reading `M` as `A` gives a spelling with two `A`s, and no spelling has two
(`Comp.eq_of_toRegister_eq`).
-/

set_option autoImplicit false

namespace HackAsm

/-! ## Reading one field -/

/-- A look-up by spelling finds only what is spelled so. -/
theorem eq_of_find?_spelling_eq_some {α : Type} {l : List α} {spelling : α → String}
    {s : String} {x : α} (h : l.find? (fun y => spelling y == s) = some x) : s = spelling x := by
  have hx := List.find?_some h
  simp only [beq_iff_eq] at hx
  exact hx.symm

theorem Dest.parse?_eq_some_iff {s : String} {x : Dest} : Dest.parse? s = some x ↔ s = x.spelling :=
  ⟨eq_of_find?_spelling_eq_some, fun h => h ▸ Dest.parse?_spelling x⟩

theorem Jump.parse?_eq_some_iff {s : String} {x : Jump} : Jump.parse? s = some x ↔ s = x.spelling :=
  ⟨eq_of_find?_spelling_eq_some, fun h => h ▸ Jump.parse?_spelling x⟩

theorem Dest.spelling_eq_empty {x : Dest} (h : x.spelling = "") : x = .null := by
  cases x <;> simp_all [Dest.spelling]

theorem Jump.spelling_eq_empty {x : Jump} (h : x.spelling = "") : x = .null := by
  cases x <;> simp_all [Jump.spelling]

namespace Comp

theorem ofSpelling?_eq_some_iff {s : String} {c : Comp} : ofSpelling? s = some c ↔ s = c.spelling :=
  ⟨eq_of_find?_spelling_eq_some, by rintro rfl; cases c <;> decide⟩

theorem usesA_iff (c : Comp) : c.usesA = true ↔ 'A' ∈ c.spelling.toList := by
  cases c <;> decide

theorem count_spelling_le (c : Comp) : c.spelling.toList.count 'A' ≤ 1 := by
  cases c <;> decide

/-- A computation's mnemonic holds an `M` exactly for the memory input. -/
theorem mem_mnemonic_iff {c : Comp} {i : AluInput} (h : i = .a ∨ c.usesA = true) :
    'M' ∈ (c.mnemonic i).toList ↔ i = .m := by
  rcases h with rfl | h
  · cases c <;> decide
  · cases i <;> cases c <;> simp_all [usesA] <;> decide

theorem toList_toRegister (s : String) :
    (toRegister s).toList = s.toList.map fun c => if c = 'M' then 'A' else c := by
  simp [toRegister]

theorem toList_toMemory (s : String) :
    (toMemory s).toList = s.toList.map fun c => if c = 'A' then 'M' else c := by
  simp [toMemory]

/-- A field with an `M` that reads, with `M` as `A`, as a spelling is that spelling's memory form:
the spelling has an `A`, and the field has no `A` of its own, or the spelling would have two. -/
theorem eq_of_toRegister_eq {field : String} {c : Comp} (hM : 'M' ∈ field.toList)
    (h : toRegister field = c.spelling) : c.usesA = true ∧ field = toMemory c.spelling := by
  have hlist : field.toList.map (fun ch => if ch = 'M' then 'A' else ch) = c.spelling.toList := by
    rw [← h, toList_toRegister]
  have hA : 'A' ∈ c.spelling.toList := by
    rw [← hlist]
    exact List.mem_map.mpr ⟨'M', hM, rfl⟩
  refine ⟨(usesA_iff c).mpr hA, ?_⟩
  have hnoA : 'A' ∉ field.toList := by
    intro hAf
    obtain ⟨l₁, l₂, hsplit⟩ := List.append_of_mem hM
    -- the `A` of the field and the `A` its `M` becomes are two `A`s of the spelling
    have htwo : 2 ≤ c.spelling.toList.count 'A' := by
      rw [← hlist, hsplit, List.map_append, List.map_cons, List.count_append, List.count_cons]
      rw [hsplit, List.mem_append, List.mem_cons] at hAf
      rcases hAf with hA₁ | hA₂ | hA₂
      · have : 0 < (l₁.map fun ch => if ch = 'M' then 'A' else ch).count 'A' :=
          List.count_pos_iff.mpr (List.mem_map.mpr ⟨'A', hA₁, rfl⟩)
        simp only [beq_self_eq_true, if_true]
        omega
      · cases hA₂
      · have : 0 < (l₂.map fun ch => if ch = 'M' then 'A' else ch).count 'A' :=
          List.count_pos_iff.mpr (List.mem_map.mpr ⟨'A', hA₂, rfl⟩)
        simp only [beq_self_eq_true, if_true]
        omega
    have := count_spelling_le c
    omega
  rw [← String.toList_inj, toList_toMemory, ← hlist, List.map_map]
  conv => lhs; rw [← List.map_id field.toList]
  refine List.map_congr_left fun ch hch => ?_
  -- a character other than `A` comes back from `M` read as `A`
  have hne : ch ≠ 'A' := fun he => hnoA (he ▸ hch)
  by_cases hm : ch = 'M'
  · simp [hm]
  · simp [hm, hne]

/-- A computation field reads as a computation and an input exactly when it is the computation's
mnemonic for that input, and only computations that read their second input have a memory form. -/
theorem parse?_eq_some_iff {field : String} {i : AluInput} {c : Comp} :
    parse? field = some (i, c) ↔ (i = .a ∨ c.usesA = true) ∧ field = c.mnemonic i := by
  constructor
  · intro h
    unfold parse? at h
    split at h
    · rename_i hM
      obtain ⟨c', hc', heq⟩ := Option.map_eq_some_iff.mp h
      cases heq
      obtain ⟨huses, hfield⟩ := eq_of_toRegister_eq hM (ofSpelling?_eq_some_iff.mp hc')
      exact ⟨.inr huses, by simp [mnemonic, huses, hfield]⟩
    · obtain ⟨c', hc', heq⟩ := Option.map_eq_some_iff.mp h
      cases heq
      exact ⟨.inl rfl, ofSpelling?_eq_some_iff.mp hc'⟩
  · rintro ⟨hi, rfl⟩
    exact parse?_mnemonic c i hi

end Comp

/-! ## Cutting a computation into its fields -/

/-- `dest`, `comp` and `jump` are the fields of the computation text `code`: the text before its
first `=`, or nothing without one; then the text up to the first `;` after that; and the rest
after that `;`, or nothing without one. -/
def ComputeFields (code dest comp jump : String) : Prop :=
  ∃ rest : List Char,
    (code.toList = dest.toList ++ '=' :: rest ∧ '=' ∉ dest.toList ∨
      '=' ∉ code.toList ∧ dest = "" ∧ rest = code.toList) ∧
    (rest = comp.toList ++ ';' :: jump.toList ∧ ';' ∉ comp.toList ∨
      ';' ∉ rest ∧ comp.toList = rest ∧ jump = "")

theorem eq_of_splitAtFirst_eq_some {sep : Char} {cs before after : List Char}
    (h : splitAtFirst sep cs = some (before, after)) : cs = before ++ sep :: after ∧ sep ∉ before := by
  induction cs generalizing before with
  | nil => cases h
  | cons c rest ih =>
    unfold splitAtFirst at h
    split at h
    · rename_i hc
      cases h
      exact ⟨by rw [hc]; rfl, List.not_mem_nil⟩
    · rename_i hc
      obtain ⟨⟨b, a⟩, hsome, heq⟩ := Option.map_eq_some_iff.mp h
      cases heq
      obtain ⟨rfl, hnot⟩ := ih hsome
      exact ⟨rfl, by simp [hnot, Ne.symm hc]⟩

theorem not_mem_of_splitAtFirst_eq_none {sep : Char} {cs : List Char}
    (h : splitAtFirst sep cs = none) : sep ∉ cs := by
  induction cs with
  | nil => exact List.not_mem_nil
  | cons c rest ih =>
    unfold splitAtFirst at h
    split at h
    · cases h
    · rename_i hc
      rw [Option.map_eq_none_iff] at h
      simp [Ne.symm hc, ih h]

/-- A cut at the first `sep`: the text before and after it, or the default when there is none. -/
theorem splitAtFirst_getD_cases (sep : Char) (cs : List Char) (dflt : List Char × List Char) :
    (cs = ((splitAtFirst sep cs).getD dflt).1 ++ sep :: ((splitAtFirst sep cs).getD dflt).2 ∧
        sep ∉ ((splitAtFirst sep cs).getD dflt).1) ∨
      (sep ∉ cs ∧ (splitAtFirst sep cs).getD dflt = dflt) := by
  cases h : splitAtFirst sep cs with
  | none => exact .inr ⟨not_mem_of_splitAtFirst_eq_none h, rfl⟩
  | some p => exact .inl (eq_of_splitAtFirst_eq_some h)

/-- The fields that reading finds are the fields of the text. -/
theorem computeFields_spec (code : String) :
    ComputeFields code (String.ofList (computeFields code.toList).1)
      (String.ofList (computeFields code.toList).2.1)
      (String.ofList (computeFields code.toList).2.2) := by
  have hdest := splitAtFirst_getD_cases '=' code.toList ([], code.toList)
  unfold computeFields
  generalize (splitAtFirst '=' code.toList).getD ([], code.toList) = p at hdest ⊢
  obtain ⟨d, rest⟩ := p
  dsimp only at hdest ⊢
  have hjump := splitAtFirst_getD_cases ';' rest (rest, [])
  generalize (splitAtFirst ';' rest).getD (rest, []) = q at hjump ⊢
  obtain ⟨c, j⟩ := q
  dsimp only at hjump ⊢
  refine ⟨rest, ?_, ?_⟩ <;> simp only [String.toList_ofList]
  · rcases hdest with ⟨hcode, hnot⟩ | ⟨hnot, heq⟩
    · exact .inl ⟨hcode, hnot⟩
    · cases heq
      exact .inr ⟨hnot, by simp, rfl⟩
  · rcases hjump with ⟨hrest, hnot⟩ | ⟨hnot, heq⟩
    · exact .inl ⟨hrest, hnot⟩
    · cases heq
      exact .inr ⟨hnot, rfl, by simp⟩

theorem computeFields_eq_of_computeFields {code dest comp jump : String}
    (h : ComputeFields code dest comp jump) :
    computeFields code.toList = (dest.toList, comp.toList, jump.toList) := by
  obtain ⟨rest, hd, hj⟩ := h
  have hcut : (splitAtFirst '=' code.toList).getD ([], code.toList) = (dest.toList, rest) := by
    rcases hd with ⟨hcode, hnot⟩ | ⟨hnot, rfl, rfl⟩
    · rw [hcode, splitAtFirst_append_cons hnot]
      rfl
    · rw [splitAtFirst_eq_none hnot]
      rfl
  have hcut' : (splitAtFirst ';' rest).getD (rest, []) = (comp.toList, jump.toList) := by
    rcases hj with ⟨hrest, hnot⟩ | ⟨hnot, hcomp, rfl⟩
    · rw [hrest, splitAtFirst_append_cons hnot]
      rfl
    · rw [splitAtFirst_eq_none hnot, hcomp]
      rfl
  simp only [computeFields, hcut, hcut']

/-- A computation text is read field by field, in the order destination, computation, jump: the
first field that spells nothing is the error, and with all three it is the computation. -/
theorem Code.parse_of_computeFields {code d c j : String} (h : code.toList.head? ≠ some '@')
    (hf : ComputeFields code d c j) :
    (Dest.parse? d = none → Code.parse code = .error (.unresolvedDest d)) ∧
    (∀ dest, Dest.parse? d = some dest → Comp.parse? c = none →
      Code.parse code = .error (.unresolvedComp c)) ∧
    (∀ dest input comp, Dest.parse? d = some dest → Comp.parse? c = some (input, comp) →
      Jump.parse? j = none → Code.parse code = .error (.unresolvedJump j)) ∧
    (∀ dest input comp jump, Dest.parse? d = some dest → Comp.parse? c = some (input, comp) →
      Jump.parse? j = some jump → Code.parse code = .ok (.compute input comp dest jump)) := by
  unfold Code.parse
  split
  · rename_i rest hcs
    simp [hcs] at h
  · rw [computeFields_eq_of_computeFields hf]
    simp only [String.ofList_toList]
    refine ⟨fun hd => ?_, fun _ hd hc => ?_, fun _ _ _ hd hc hj => ?_, fun _ _ _ _ hd hc hj => ?_⟩
    · simp only [hd]
    · simp only [hd, hc]
    · simp only [hd, hc, hj]
    · simp only [hd, hc, hj]

/-! ## Written forms -/

/-- How a destination is written before its computation: its letters and `=`, or, for no
destination, also nothing. -/
def Dest.Written (x : Dest) (text : String) : Prop :=
  text = x.spelling ++ "=" ∨ x = .null ∧ text = ""

/-- How a jump is written after its computation: `;` and its mnemonic, or, for no jump, also
nothing. -/
def Jump.Written (x : Jump) (text : String) : Prop :=
  text = ";" ++ x.spelling ∨ x = .null ∧ text = ""

/-- A destination, a mnemonic and a jump, each written in one of its forms, are the fields of
the text they make. -/
theorem computeFields_of_written {dest : Dest} {jump : Jump} {D J : String} (comp : Comp)
    (input : AluInput) (hD : dest.Written D) (hJ : jump.Written J) :
    ComputeFields (D ++ comp.mnemonic input ++ J) dest.spelling (comp.mnemonic input)
      jump.spelling := by
  have hfield := comp.isFieldChar_mnemonic input
  have hmEq : '=' ∉ (comp.mnemonic input).toList := not_mem_of_isFieldChar (by decide) hfield
  have hmSemi : ';' ∉ (comp.mnemonic input).toList := not_mem_of_isFieldChar (by decide) hfield
  have hjEq : '=' ∉ jump.spelling.toList :=
    not_mem_of_isFieldChar (by decide) jump.isFieldChar_spelling
  refine ⟨(comp.mnemonic input).toList ++ J.toList, ?_, ?_⟩
  · rcases hD with rfl | ⟨rfl, rfl⟩
    · refine .inl ⟨by simp, not_mem_of_isFieldChar (by decide) dest.isFieldChar_spelling⟩
    · -- without a destination the text has no `=` at all
      refine .inr ⟨?_, rfl, by simp⟩
      rcases hJ with rfl | ⟨-, rfl⟩ <;> simp [hmEq, hjEq]
  · rcases hJ with rfl | ⟨rfl, rfl⟩
    · exact .inl ⟨by simp, hmSemi⟩
    · exact .inr ⟨by simpa using hmSemi, by simp, rfl⟩

/-- A text is its fields put back together, with the `=` and the `;` that cut them. -/
theorem eq_append_of_computeFields {code d c j : String} (h : ComputeFields code d c j) :
    ∃ D J, (D = d ++ "=" ∨ d = "" ∧ D = "") ∧ (J = ";" ++ j ∨ j = "" ∧ J = "") ∧
      code = D ++ c ++ J := by
  obtain ⟨rest, hd, hj⟩ := h
  have hrest : ∃ J, (J = ";" ++ j ∨ j = "" ∧ J = "") ∧ rest = c.toList ++ J.toList := by
    rcases hj with ⟨hr, -⟩ | ⟨-, hc, rfl⟩
    · exact ⟨";" ++ j, .inl rfl, by simp [hr]⟩
    · exact ⟨"", .inr ⟨rfl, rfl⟩, by simp [hc]⟩
  obtain ⟨J, hJ, hr⟩ := hrest
  refine ⟨if '=' ∈ code.toList then d ++ "=" else "", J, ?_, hJ, ?_⟩
  · rcases hd with ⟨hcode, -⟩ | ⟨hnot, rfl, -⟩
    · exact .inl (if_pos (by simp [hcode]))
    · exact .inr ⟨rfl, if_neg hnot⟩
  · rw [← String.toList_inj]
    rcases hd with ⟨hcode, -⟩ | ⟨hnot, rfl, hcode⟩
    · rw [if_pos (by simp [hcode]), hcode, hr]
      simp
    · rw [if_neg hnot, ← hcode, hr]
      simp

/-! ## The grammar -/

/-- The computations that a code not starting with `@` reads as, and how it is refused otherwise.
It reads as a computation exactly when it is a destination written before the computation's
mnemonic for its input and a jump written after it, and only computations that read their second
input are read with memory, which their mnemonic then names. Any other code is refused by its
first field, in the order destination, computation, jump, that spells nothing, with that field. -/
theorem compute_code_grammar (code : String) (h : code.toList.head? ≠ some '@') :
    (∀ (input : AluInput) (comp : Comp), (input = .a ∨ comp.usesA = true) →
      ('M' ∈ (comp.mnemonic input).toList ↔ input = .m)) ∧
    (∀ (input : AluInput) (comp : Comp) (dest : Dest) (jump : Jump),
      Code.parse code = .ok (.compute input comp dest jump) ↔
      (input = .a ∨ comp.usesA = true) ∧
        ∃ D J, dest.Written D ∧ jump.Written J ∧ code = D ++ comp.mnemonic input ++ J) ∧
    ∀ d c j, ComputeFields code d c j →
      ((∀ x : Dest, x.spelling ≠ d) → Code.parse code = .error (.unresolvedDest d)) ∧
      ((∃ x : Dest, x.spelling = d) →
        (∀ (input : AluInput) (comp : Comp), (input = .a ∨ comp.usesA = true) →
          comp.mnemonic input ≠ c) →
        Code.parse code = .error (.unresolvedComp c)) ∧
      ((∃ x : Dest, x.spelling = d) →
        (∃ (input : AluInput) (comp : Comp), (input = .a ∨ comp.usesA = true) ∧
          comp.mnemonic input = c) →
        (∀ y : Jump, y.spelling ≠ j) → Code.parse code = .error (.unresolvedJump j)) := by
  refine ⟨fun _ _ hi => Comp.mem_mnemonic_iff hi, fun input comp dest jump => ⟨?_, ?_⟩, ?_⟩
  · -- a computation that reads back: every field spells, and the cuts put the text together
    intro hok
    obtain ⟨d, c, j, hf⟩ : ∃ d c j, ComputeFields code d c j := ⟨_, _, _, computeFields_spec code⟩
    obtain ⟨hdest, hcomp, hjump, hall⟩ := Code.parse_of_computeFields h hf
    obtain ⟨dest', hd⟩ := Option.ne_none_iff_exists'.mp fun hd => by
      rw [hdest hd] at hok
      cases hok
    obtain ⟨⟨input', comp'⟩, hc⟩ := Option.ne_none_iff_exists'.mp fun hc => by
      rw [hcomp dest' hd hc] at hok
      cases hok
    obtain ⟨jump', hj⟩ := Option.ne_none_iff_exists'.mp fun hj => by
      rw [hjump dest' input' comp' hd hc hj] at hok
      cases hok
    rw [hall dest' input' comp' jump' hd hc hj] at hok
    cases hok
    obtain ⟨hi, hc⟩ := Comp.parse?_eq_some_iff.mp hc
    refine ⟨hi, ?_⟩
    obtain ⟨D, J, hD, hJ, hcode⟩ := eq_append_of_computeFields hf
    rw [Dest.parse?_eq_some_iff.mp hd] at hD
    rw [Jump.parse?_eq_some_iff.mp hj] at hJ
    refine ⟨D, J, ?_, ?_, by rw [hcode, hc]⟩
    · rcases hD with hD | ⟨he, hD⟩
      · exact .inl hD
      · exact .inr ⟨Dest.spelling_eq_empty he, hD⟩
    · rcases hJ with hJ | ⟨he, hJ⟩
      · exact .inl hJ
      · exact .inr ⟨Jump.spelling_eq_empty he, hJ⟩
  · rintro ⟨hi, D, J, hD, hJ, rfl⟩
    exact (Code.parse_of_computeFields h (computeFields_of_written comp input hD hJ)).2.2.2 _ _ _ _
      (Dest.parse?_spelling dest) (Comp.parse?_mnemonic comp input hi) (Jump.parse?_spelling jump)
  · intro d c j hf
    obtain ⟨hdest, hcomp, hjump, -⟩ := Code.parse_of_computeFields h hf
    refine ⟨fun hd => ?_, fun ⟨x, hx⟩ hc => ?_, fun ⟨x, hx⟩ ⟨i, comp, hi, hc⟩ hj => ?_⟩
    · refine hdest (Option.eq_none_iff_forall_ne_some.mpr fun x hx => ?_)
      exact hd x (Dest.parse?_eq_some_iff.mp hx).symm
    · refine hcomp x (Dest.parse?_eq_some_iff.mpr hx.symm)
        (Option.eq_none_iff_forall_ne_some.mpr fun ⟨i, comp⟩ hsome => ?_)
      obtain ⟨hi, hfield⟩ := Comp.parse?_eq_some_iff.mp hsome
      exact hc i comp hi hfield.symm
    · refine hjump x i comp (Dest.parse?_eq_some_iff.mpr hx.symm)
        (Comp.parse?_eq_some_iff.mpr ⟨hi, hc.symm⟩) (Option.eq_none_iff_forall_ne_some.mpr ?_)
      exact fun y hy => hj y (Jump.parse?_eq_some_iff.mp hy).symm

/-- `=D;` writes the computation `D` with its absent destination and jump as a bare `=` and `;`. -/
theorem compute_code_grammar_bare_separators :
    "=D;".toList.head? ≠ some '@' ∧ Dest.null.Written "=" ∧ Jump.null.Written ";" ∧
      Code.parse "=D;" = .ok (.compute .a .d .null .null) := by
  have hat : "=D;".toList.head? ≠ some '@' := by decide
  have hD : Dest.null.Written "=" := .inl rfl
  have hJ : Jump.null.Written ";" := .inl rfl
  exact ⟨hat, hD, hJ, ((compute_code_grammar "=D;" hat).2.1 .a .d .null .null).mpr
    ⟨.inl rfl, "=", ";", hD, hJ, rfl⟩⟩

end HackAsm
