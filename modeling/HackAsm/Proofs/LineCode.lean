import HackAsm.Proofs.Layout

/-!
# The code of a line ignores spacing and comments

A line's code is what stands before its first `//`, with every white-space character dropped.
So white space of any kind put anywhere in a line leaves its code alone, unless it splits the
line's first `//` in two (`normalize_spacing`); and nothing after a `//` is ever read
(`normalize_comment`). Since a line's statement is read from its code, `Line.read` gives such
lines one code and one statement. The exception is exact: white space inside the first `//`
always changes the code (`normalize_spacing_of_cuts`).

The argument is about where the first `//` of `p ++ rest` stands: inside `p` when `p` holds one
(`beforeComment_append_of_infix`), and otherwise inside `rest`, unless `p` ends with a `/` that
`rest` completes (`beforeComment_append_of_not_infix`). White space holds no `/`, so inserting it
between `p` and `q` moves the first `//` only when the cut splits that `//`.
-/

set_option autoImplicit false

namespace HackAsm

/-- The cut of a line into `p` and `q` falls between the two characters of the line's first
`//`: `p` ends with its first `/`, `q` starts with its second, and `p` holds no `//` itself. -/
def CutsFirstComment (p q : List Char) : Prop :=
  p.getLast? = some '/' ∧ q.head? = some '/' ∧ ¬ ['/', '/'] <:+: p

/-- The characters of a line's code: those before the first `//` that are not white space. -/
def codeChars (cs : List Char) : List Char :=
  (beforeComment cs).filter fun c => !Text.isWhiteSpace c

theorem normalize_congr {r s : String} (h : codeChars r.toList = codeChars s.toList) :
    normalize r = normalize s := by
  unfold normalize
  unfold codeChars at h
  rw [h]

/-- A line's code is its code characters, `""` when there are none. -/
theorem Line.read_code (i : Nat) (raw : String) :
    (Line.read i raw).code = String.ofList (codeChars raw.toList) := by
  simp only [Line.read]
  unfold normalize codeChars
  split
  · rename_i h
    rw [h]
    rfl
  · rfl

theorem codeChars_eq_of_normalize {r s : String} (h : normalize r = normalize s) :
    codeChars r.toList = codeChars s.toList := by
  have hcode : (Line.read 0 r).code = (Line.read 0 s).code := by simp only [Line.read, h]
  rw [Line.read_code, Line.read_code] at hcode
  simpa using congrArg String.toList hcode

/-- Lines with one code read alike, whatever their indices. -/
theorem Line.read_alike_of_normalize {r s : String} (h : normalize r = normalize s) (i j : Nat) :
    Line.Alike (Line.read i r) (Line.read j s) := by
  simp [Line.Alike, Line.read, h]

/-! ## Where the first `//` stands -/

theorem beforeComment_cons (c : Char) (rest : List Char) :
    beforeComment (c :: rest) =
      if c = '/' ∧ rest.head? = some '/' then [] else c :: beforeComment rest := by
  cases rest with
  | nil => simp [beforeComment]
  | cons d r =>
    by_cases hc : c = '/' <;> by_cases hd : d = '/' <;> simp [beforeComment, hc, hd]

/-- When `p` holds a `//`, the first `//` of `p ++ rest` is in `p`. -/
theorem beforeComment_append_of_infix {p : List Char} (h : ['/', '/'] <:+: p)
    (rest : List Char) : beforeComment (p ++ rest) = beforeComment p := by
  induction p with
  | nil => exact absurd (List.eq_nil_of_infix_nil h) (by simp)
  | cons c p ih =>
    rcases List.infix_cons_iff.mp h with hpre | hin
    · -- the first `//` starts at `c`
      obtain ⟨t, ht⟩ := hpre
      simp only [List.cons_append, List.cons.injEq] at ht
      obtain ⟨rfl, rfl⟩ := ht
      simp [beforeComment]
    · have hne : p ≠ [] := by
        rintro rfl
        exact absurd (List.eq_nil_of_infix_nil hin) (by simp)
      rw [List.cons_append, beforeComment_cons, beforeComment_cons,
        List.head?_append_of_ne_nil _ hne, ih hin]

/-- When `p` holds no `//` and does not end with a `/` that `rest` completes, the first `//` of
`p ++ rest` is in `rest`. -/
theorem beforeComment_append_of_not_infix {p rest : List Char} (hp : ¬ ['/', '/'] <:+: p)
    (hcut : ¬ (p.getLast? = some '/' ∧ rest.head? = some '/')) :
    beforeComment (p ++ rest) = p ++ beforeComment rest := by
  induction p with
  | nil => rfl
  | cons c p ih =>
    have hp' : ¬ ['/', '/'] <:+: p := fun h => hp (List.infix_cons h)
    -- `c` starts no `//`: the next character is the first of `p`, or of `rest` when `p` is empty
    have hstart : ¬ (c = '/' ∧ (p ++ rest).head? = some '/') := by
      rintro ⟨rfl, hhead⟩
      cases p with
      | nil => exact hcut ⟨rfl, hhead⟩
      | cons d t =>
        simp only [List.cons_append, List.head?_cons, Option.some.injEq] at hhead
        subst hhead
        exact hp (List.prefix_append ['/', '/'] t).isInfix
    have hcut' : ¬ (p.getLast? = some '/' ∧ rest.head? = some '/') := by
      rintro ⟨hlast, hhead⟩
      cases p with
      | nil => simp at hlast
      | cons d t => exact hcut ⟨by simpa using hlast, hhead⟩
    rw [List.cons_append, beforeComment_cons, if_neg hstart, ih hp' hcut', List.cons_append]

/-- Characters with no `/` among them pass into the code whole. -/
theorem beforeComment_append_of_not_mem {w : List Char} (h : '/' ∉ w) (rest : List Char) :
    beforeComment (w ++ rest) = w ++ beforeComment rest := by
  refine beforeComment_append_of_not_infix (fun hw => h (hw.subset (by simp))) ?_
  rintro ⟨hlast, -⟩
  exact h (List.mem_of_getLast? hlast)

/-! ## Spacing and comments -/

/-- A run of white space, of any kind the Unicode `White_Space` property names. -/
def Text.IsSpacing (w : List Char) : Prop :=
  ∀ c ∈ w, Text.isWhiteSpace c = true

theorem Text.IsSpacing.slash_not_mem {w : List Char} (hw : Text.IsSpacing w) : '/' ∉ w :=
  fun h => absurd (hw '/' h) (by decide)

theorem Text.IsSpacing.filter_eq_nil {w : List Char} (hw : Text.IsSpacing w) :
    w.filter (fun c => !Text.isWhiteSpace c) = [] :=
  List.filter_eq_nil_iff.mpr fun c hc => by simp [hw c hc]

/-- White space starts no `//`: if what follows a cut starts with `/`, nothing was inserted. -/
theorem Text.IsSpacing.eq_nil_of_head? {w rest : List Char} (hw : Text.IsSpacing w)
    (h : (w ++ rest).head? = some '/') : w = [] := by
  cases w with
  | nil => rfl
  | cons c w =>
    simp only [List.cons_append, List.head?_cons, Option.some.injEq] at h
    exact absurd (h ▸ List.mem_cons_self) hw.slash_not_mem

/-- White space inserted into a line, anywhere but inside its first `//`, leaves its code
characters alone. -/
theorem codeChars_spacing {p q w : List Char} (hcut : ¬ CutsFirstComment p q)
    (hw : Text.IsSpacing w) : codeChars (p ++ w ++ q) = codeChars (p ++ q) := by
  by_cases hp : ['/', '/'] <:+: p
  · -- the first `//` is in `p`, before the insertion
    simp only [codeChars, List.append_assoc, beforeComment_append_of_infix hp]
  · have hpq : ¬ (p.getLast? = some '/' ∧ q.head? = some '/') :=
      fun h => hcut ⟨h.1, h.2, hp⟩
    have hpwq : ¬ (p.getLast? = some '/' ∧ (w ++ q).head? = some '/') := by
      rintro ⟨hl, hh⟩
      obtain rfl := hw.eq_nil_of_head? hh
      exact hpq ⟨hl, hh⟩
    simp only [codeChars, List.append_assoc, beforeComment_append_of_not_infix hp hpwq,
      beforeComment_append_of_not_mem hw.slash_not_mem, beforeComment_append_of_not_infix hp hpq,
      List.filter_append, hw.filter_eq_nil, List.nil_append]

/-- Inside the first `//` the exception is real: white space put there keeps the first `/` in
the code, where the line without it loses that `/` to the comment. -/
theorem codeChars_spacing_of_cuts {p q w : List Char} (hcut : CutsFirstComment p q)
    (hw : Text.IsSpacing w) (hne : w ≠ []) : codeChars (p ++ w ++ q) ≠ codeChars (p ++ q) := by
  obtain ⟨hlast, hhead, hp⟩ := hcut
  obtain ⟨p, rfl⟩ : ∃ p', p = p' ++ ['/'] :=
    ⟨_, (List.dropLast_append_getLast? '/' hlast).symm⟩
  obtain ⟨q, rfl⟩ : ∃ q', q = '/' :: q' := ⟨_, List.eq_cons_of_mem_head? hhead⟩
  have hp' : ¬ ['/', '/'] <:+: p := fun h => hp (h.trans (List.prefix_append p ['/']).isInfix)
  -- without the insertion the first `//` starts right after `p`
  have hend : ¬ (p.getLast? = some '/' ∧ ('/' :: '/' :: q).head? = some '/') := by
    rintro ⟨hl, -⟩
    obtain ⟨r, rfl⟩ : ∃ r, p = r ++ ['/'] :=
      ⟨_, (List.dropLast_append_getLast? '/' hl).symm⟩
    exact hp (by simpa using (List.suffix_append r ['/', '/']).isInfix)
  have hbefore : beforeComment (p ++ ['/'] ++ '/' :: q) = p := by
    rw [List.append_assoc, List.singleton_append, beforeComment_append_of_not_infix hp' hend]
    simp [beforeComment]
  -- with it, the first `/` stays in the code
  have hafter : beforeComment (p ++ ['/'] ++ w ++ '/' :: q) =
      p ++ ['/'] ++ w ++ beforeComment ('/' :: q) := by
    have hsep : ¬ ((p ++ ['/']).getLast? = some '/' ∧ (w ++ '/' :: q).head? = some '/') :=
      fun h => hne (hw.eq_nil_of_head? h.2)
    rw [List.append_assoc, beforeComment_append_of_not_infix hp hsep,
      beforeComment_append_of_not_mem hw.slash_not_mem]
    simp only [List.append_assoc]
  have hkept : Text.isWhiteSpace '/' = false := by decide
  intro h
  simp only [codeChars] at h
  rw [hafter, hbefore] at h
  simp [List.filter_append, hw.filter_eq_nil, hkept] at h

/-- What follows a `//` is never read. -/
theorem codeChars_comment (x y y' : List Char) :
    codeChars (x ++ '/' :: '/' :: y) = codeChars (x ++ '/' :: '/' :: y') := by
  have hx : ['/', '/'] <:+: x ++ ['/', '/'] := (List.suffix_append x _).isInfix
  have hy : ∀ z, x ++ '/' :: '/' :: z = x ++ ['/', '/'] ++ z := by simp
  simp only [codeChars]
  rw [hy y, hy y', beforeComment_append_of_infix hx, beforeComment_append_of_infix hx]

theorem normalize_spacing {p q w : String} (hcut : ¬ CutsFirstComment p.toList q.toList)
    (hw : Text.IsSpacing w.toList) : normalize (p ++ w ++ q) = normalize (p ++ q) :=
  normalize_congr (by simpa only [String.toList_append] using codeChars_spacing hcut hw)

/-- White space put between the two characters of a line's first `//` always changes its code:
the exception in `normalize_spacing` cannot be dropped. -/
theorem normalize_spacing_of_cuts {p q w : String} (hcut : CutsFirstComment p.toList q.toList)
    (hw : Text.IsSpacing w.toList) (hne : w ≠ "") :
    normalize (p ++ w ++ q) ≠ normalize (p ++ q) :=
  fun h => codeChars_spacing_of_cuts hcut hw (by simpa using hne)
    (by simpa only [String.toList_append] using codeChars_eq_of_normalize h)

example : normalize ("D=M/" ++ " " ++ "/x") ≠ normalize ("D=M/" ++ "/x") := by decide +kernel

theorem normalize_comment (x y y' : String) :
    normalize (x ++ "//" ++ y) = normalize (x ++ "//" ++ y') :=
  normalize_congr
    (by simpa [String.toList_append] using codeChars_comment x.toList y.toList y'.toList)

/-- The code of a line, hence its statement, ignores spacing and comment text. White space of
any kind inserted anywhere in a line, except between the two characters of its first `//`,
leaves the code as it was; and the text after a `//` is never read. -/
theorem normalize_ignores_spacing_and_comments :
    (∀ p q w : String, ¬ CutsFirstComment p.toList q.toList → Text.IsSpacing w.toList →
        normalize (p ++ w ++ q) = normalize (p ++ q) ∧
          ∀ i j, Line.Alike (Line.read i (p ++ w ++ q)) (Line.read j (p ++ q))) ∧
      ∀ x y y' : String, normalize (x ++ "//" ++ y) = normalize (x ++ "//" ++ y') ∧
        ∀ i j, Line.Alike (Line.read i (x ++ "//" ++ y)) (Line.read j (x ++ "//" ++ y')) := by
  refine ⟨fun p q w hcut hw => ?_, fun x y y' => ?_⟩
  · have h := normalize_spacing hcut hw
    exact ⟨h, Line.read_alike_of_normalize h⟩
  · have h := normalize_comment x y y'
    exact ⟨h, Line.read_alike_of_normalize h⟩

/-- An ideographic space put after the last `/` of a line whose comment holds a second `//`:
the cut is inside a `//`, but not inside the first one. -/
theorem normalize_ignores_spacing_after_comment :
    ¬ CutsFirstComment "D=A//a/".toList "/b".toList ∧ Text.IsSpacing "\u3000".toList ∧
      normalize ("D=A//a/" ++ "\u3000" ++ "/b") = normalize ("D=A//a/" ++ "/b") := by
  have hcut : ¬ CutsFirstComment "D=A//a/".toList "/b".toList := by
    unfold CutsFirstComment
    decide +kernel
  have hw : Text.IsSpacing "\u3000".toList := List.all_eq_true.mp (by decide +kernel)
  exact ⟨hcut, hw, (normalize_ignores_spacing_and_comments.1 _ _ _ hcut hw).1⟩

end HackAsm
