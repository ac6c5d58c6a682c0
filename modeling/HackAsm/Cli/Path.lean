/-!
# The default output path

Without `-o`, the output sits next to the input with its extension replaced by `hack`.

The file name of a path is its last component that is neither empty nor `.`; when that is `..`,
or there is none, the path has no file name. The extension of a file name is what follows its
last dot, unless that dot starts the name (`.hidden` has none); the stem is what precedes the
extension's dot, or the whole name.

Replacing the extension takes two steps. First an extension is cut from the end of the path,
keeping its dot, as many characters as it has. Then the path is cut right after the stem of its
file name and `.hack` is added; a path with no file name is kept as it is. So `a.b.asm` becomes
`a.b.hack`, `noext` becomes `noext.hack`, and `dir/x.asm/` becomes `dir/x.hack`. But `..asm`
becomes `..`, since cutting `asm` leaves a path that names no file.

For a file name after a directory part, the two cuts come to one (`withExtension_append`): the
name's extension goes, its stem stays, and the new extension follows, whenever the stem is not `.`.
-/

set_option autoImplicit false

namespace HackAsm.Cli

/-- The index of the last occurrence of `c`. -/
def lastIndexOf (c : Char) (cs : List Char) : Option Nat :=
  (cs.findIdx? (· == c) |>.map fun _ => cs.length - 1 - (cs.reverse.findIdx (· == c)))

/-- The file name of a path, with the index where it starts. -/
def fileName? (cs : List Char) : Option (List Char × Nat) :=
  let segments := cs.splitOn '/'
  let starts := segments.scanl (fun n s => n + s.length + 1) 0
  let named := (segments.zip starts).filter fun (s, _) => !s.isEmpty && s != ['.']
  match named.getLast? with
  | some (name, start) => if name == ['.', '.'] then none else some (name, start)
  | none => none

/-- The extension of a file name. -/
def extensionOf (name : List Char) : Option (List Char) :=
  match lastIndexOf '.' name with
  | some 0 => none
  | some i => some (name.drop (i + 1))
  | none => none

/-- A file name without its extension. -/
def stemOf (name : List Char) : List Char :=
  match lastIndexOf '.' name with
  | some 0 => name
  | some i => name.take i
  | none => name

/-- The path cut right after the stem of its file name, with `.ext` added; a path with no file
name is kept. -/
def setExtension (cs : List Char) (ext : List Char) : List Char :=
  match fileName? cs with
  | some (name, start) => cs.take (start + (stemOf name).length) ++ '.' :: ext
  | none => cs

/-- `path` with the extension of its file name replaced by `ext`. -/
def withExtension (path : String) (ext : String) : String :=
  let cs := path.toList
  let base := match (fileName? cs).bind fun (name, _) => extensionOf name with
    | some old => cs.take (cs.length - old.length)
    | none => cs
  String.ofList (setExtension base ext.toList)

/-! ## A file name after a directory -/

/-- The start of each segment, paired with it: one past the end of the segments before. -/
theorem zip_scanl_append_singleton (segs : List (List Char)) (x : List Char) (a : Nat) :
    (segs ++ [x]).zip ((segs ++ [x]).scanl (fun n s => n + s.length + 1) a) =
      segs.zip (segs.scanl (fun n s => n + s.length + 1) a) ++
        [(x, segs.foldl (fun n s => n + s.length + 1) a)] := by
  induction segs generalizing a with
  | nil => rfl
  | cons s segs ih =>
    simp only [List.cons_append, List.scanl_cons, List.zip_cons_cons, ih, List.foldl_cons]

/-- The segments of a split path and the separators between them make up the whole path. -/
theorem foldl_splitOn (cs : List Char) (a : Nat) :
    (cs.splitOn '/').foldl (fun n s => n + s.length + 1) a = a + cs.length + 1 := by
  induction cs generalizing a with
  | nil => rfl
  | cons c cs ih =>
    rw [List.splitOn_cons_eq_if_modifyHead]
    split
    · simp [ih]
      omega
    · obtain ⟨s, segs, hsegs⟩ := List.exists_cons_of_ne_nil (List.splitOn_ne_nil '/' cs)
      have hih := ih (a + 1)
      rw [hsegs] at hih ⊢
      simp only [List.modifyHead_cons, List.foldl_cons, List.length_cons] at hih ⊢
      rw [show a + (s.length + 1) + 1 = a + 1 + s.length + 1 by omega, hih]
      omega

theorem lastIndexOf_append_singleton (c : Char) (cs : List Char) :
    lastIndexOf c (cs ++ [c]) = some cs.length := by
  have hsome : (cs ++ [c]).findIdx? (· == c) ≠ none := by
    simp
  obtain ⟨j, hj⟩ := Option.ne_none_iff_exists'.mp hsome
  simp [lastIndexOf, hj, List.findIdx_cons]

theorem lastIndexOf_eq_some {c : Char} {cs : List Char} {i : Nat} (h : lastIndexOf c cs = some i) :
    ∃ hi : i < cs.length, cs[i] = c := by
  unfold lastIndexOf at h
  obtain ⟨j, hj, rfl⟩ := Option.map_eq_some_iff.mp h
  have hmem : ∃ x ∈ cs.reverse, (x == c) = true := by
    obtain ⟨hlt, hget, -⟩ := List.findIdx?_eq_some_iff_getElem.mp hj
    exact ⟨cs[j], List.mem_reverse.mpr (List.getElem_mem hlt), hget⟩
  have hlt := List.findIdx_lt_length_of_exists hmem
  have hget := List.findIdx_getElem (w := hlt)
  simp only [List.length_reverse, List.getElem_reverse, beq_iff_eq] at hlt hget
  refine ⟨by omega, ?_⟩
  simpa using hget

/-- A name that can end a path: not empty, without `/`, and neither `.` nor `..`. -/
def IsFileName (name : List Char) : Prop :=
  name ≠ [] ∧ '/' ∉ name ∧ name ≠ ['.'] ∧ name ≠ ['.', '.']

/-- A file name after a directory part, empty or ending in `/`, is the path's file name. -/
theorem fileName?_append {dir name : List Char} (hdir : dir = [] ∨ dir.getLast? = some '/')
    (hname : IsFileName name) : fileName? (dir ++ name) = some (name, dir.length) := by
  obtain ⟨hne, hslash, hdot, hdots⟩ := hname
  -- the path splits into the segments of the directory part, then the name
  obtain ⟨segs, hsplit, hstart⟩ : ∃ segs, (dir ++ name).splitOn '/' = segs ++ [name] ∧
      segs.foldl (fun n s => n + s.length + 1) 0 = dir.length := by
    rcases hdir with rfl | hlast
    · exact ⟨[], by simpa using List.splitOn_eq_singleton hslash, rfl⟩
    · obtain ⟨d, rfl⟩ := List.getLast?_eq_some_iff.mp hlast
      refine ⟨d.splitOn '/', ?_, ?_⟩
      · rw [List.append_assoc, List.singleton_append, List.splitOn_append_cons_self,
          List.splitOn_eq_singleton hslash]
      · rw [foldl_splitOn]
        simp
  have hkeep : (!name.isEmpty && name != ['.']) = true := by simp [hne, hdot]
  unfold fileName?
  simp only [hsplit, zip_scanl_append_singleton, hstart, List.filter_append, List.filter_cons,
    hkeep, if_true, List.filter_nil, List.getLast?_concat]
  simp [hdots]

/-- A name with no extension is its own stem. -/
theorem stemOf_of_extensionOf_eq_none {name : List Char} (h : extensionOf name = none) :
    stemOf name = name := by
  unfold extensionOf at h
  unfold stemOf
  -- a dot that starts the name, or no dot, leaves the name whole
  split at h
  · rfl
  · cases h
  · rfl

/-- The extension is what follows the dot that ends the stem, and that stem is not empty. -/
theorem eq_of_extensionOf_eq_some {name old : List Char} (h : extensionOf name = some old) :
    stemOf name ≠ [] ∧ name = stemOf name ++ '.' :: old := by
  unfold extensionOf at h
  split at h
  · cases h
  · rename_i i hne hi
    cases h
    obtain ⟨hlt, hdot⟩ := lastIndexOf_eq_some hi
    have hstem : stemOf name = name.take i := by
      unfold stemOf
      rw [hi]
      simp
    refine ⟨?_, ?_⟩
    · -- the dot is not the first character, so something stands before it
      rw [hstem, Ne, List.take_eq_nil_iff]
      rintro (h0 | hnil)
      · exact hne h0
      · simp [hnil] at hlt
    · rw [hstem, ← hdot, List.getElem_cons_drop, List.take_append_drop]
  · cases h

/-- A stem followed by a dot has that stem. -/
theorem stemOf_append_dot {stem : List Char} (hne : stem ≠ []) :
    stemOf (stem ++ ['.']) = stem := by
  -- the last dot is the one added, after the whole stem
  have hpos : 0 < stem.length := List.length_pos_iff.mpr hne
  obtain ⟨n, hn⟩ := Nat.exists_eq_succ_of_ne_zero (Nat.pos_iff_ne_zero.mp hpos)
  unfold stemOf
  rw [lastIndexOf_append_singleton, hn]
  show List.take n.succ (stem ++ ['.']) = stem
  rw [← hn, List.take_left]

/-- The path `dir ++ name`, where `name` is a file name after a directory part, with a new
extension: the extension of the name goes, its stem stays, and `.ext` follows. This needs a stem
other than `.`: cutting the extension of `..asm` leaves `..`, which names no file. -/
theorem withExtension_append {dir name : List Char} (hdir : dir = [] ∨ dir.getLast? = some '/')
    (hname : IsFileName name) (hstem : stemOf name ≠ ['.']) (ext : String) :
    withExtension (String.ofList (dir ++ name)) ext =
      String.ofList (dir ++ stemOf name ++ '.' :: ext.toList) := by
  have hfile := fileName?_append hdir hname
  unfold withExtension
  simp only [String.toList_ofList, hfile, Option.bind_some]
  cases hext : extensionOf name with
  | none =>
    -- nothing is cut, and the stem is the whole name
    have htake : (dir ++ name).take (dir.length + name.length) = dir ++ name :=
      List.take_of_length_le (by simp)
    simp only [setExtension, hfile, stemOf_of_extensionOf_eq_none hext, htake]
  | some old =>
    obtain ⟨hne, hsplit⟩ := eq_of_extensionOf_eq_some hext
    generalize stemOf name = stem at hne hsplit hstem ⊢
    subst hsplit
    -- the first cut keeps the dot after the stem
    have hcut : (dir ++ (stem ++ '.' :: old)).take
        ((dir ++ (stem ++ '.' :: old)).length - old.length) = dir ++ (stem ++ ['.']) := by
      have happ : dir ++ (stem ++ '.' :: old) = dir ++ (stem ++ ['.']) ++ old := by simp
      rw [happ, List.length_append, Nat.add_sub_cancel, List.take_left]
    have hdotted : IsFileName (stem ++ ['.']) := by
      obtain ⟨-, hslash, -, -⟩ := hname
      exact ⟨by simp, fun hmem => hslash (by simp at hmem; simp [hmem]), by simpa using hne,
        fun h => hstem (by simpa using congrArg List.dropLast h)⟩
    -- the second cut keeps the stem
    have htake : (dir ++ (stem ++ ['.'])).take (dir.length + stem.length) = dir ++ stem := by
      rw [← List.append_assoc, ← List.length_append, List.take_left]
    simp only [hcut, setExtension, fileName?_append hdir hdotted, stemOf_append_dot hne, htake]

example : withExtension "noext" "hack" = "noext.hack" := by decide
example : withExtension "a.b.asm" "hack" = "a.b.hack" := by decide
example : withExtension "dir.v1/Prog" "hack" = "dir.v1/Prog.hack" := by decide
example : withExtension "..asm" "hack" = ".." := by decide

end HackAsm.Cli
