import HackAsm.Machine.Instruction
import Mathlib.Tactic.SplitIfs

/-!
# The coloured text of an instruction is its plain text

The listing shows each instruction in colour (`Instruction.highlight`), and the plain text that
the assembler reads back is `Instruction.render`. The two are written by separate code: the
coloured form is a list of styled runs, and each of the two optional parts (the destination with
its `=`, the `;` with the jump) is decided on its own in both. This file proves that they agree:
deleting the SGR escape sequences from the coloured text leaves exactly the plain text
(`strip_highlight`).

The proof follows the layers of the coloured text. A change of style is written as SGR
sequences alone, so deleting them leaves nothing (`stripSgr_change_append`); text without an
escape character is kept as it stands (`stripSgr_append_of_not_mem`); so deleting the sequences
from styled runs leaves their texts joined (`stripSgr_renderFrom`). The runs of an instruction hold
no escape character, and their texts joined are its plain text (`render_eq_join`).
-/

set_option autoImplicit false

namespace HackAsm

namespace Ansi

/-- A character that may stand between `ESC [` and the final `m` of an SGR sequence. -/
def isSgrParam (c : Char) : Bool :=
  c.isDigit || c == ';'

/-- The text after the SGR sequence that `l` starts with, if it starts with one. -/
def afterSgr? : List Char → Option (List Char)
  | c :: '[' :: params =>
    if c = '\x1b' then
      match params.dropWhile isSgrParam with
      | 'm' :: after => some after
      | _ => none
    else none
  | _ => none

theorem length_afterSgr? {l after : List Char} (h : afterSgr? l = some after) :
    after.length < l.length := by
  unfold afterSgr? at h
  split at h
  next c params =>
    split_ifs at h
    split at h
    next after' hdrop =>
      cases h
      have : (params.dropWhile isSgrParam).length ≤ params.length :=
        (List.dropWhile_sublist isSgrParam).length_le
      rw [hdrop, List.length_cons] at this
      simp only [List.length_cons]
      omega
    all_goals cases h
  all_goals cases h

/-- Text with every SGR escape sequence, `ESC [` then digits and `;` then `m`, deleted. Every
other character is kept, an escape character that starts no such sequence included. -/
def stripSgr (l : List Char) : List Char :=
  match l with
  | [] => []
  | c :: rest =>
    match h : afterSgr? (c :: rest) with
    | some after =>
      have : after.length < (c :: rest).length := length_afterSgr? h
      stripSgr after
    | none => c :: stripSgr rest
termination_by l.length
decreasing_by
  · exact this
  · simp

/-- A string with its SGR escape sequences deleted. -/
def strip (s : String) : String :=
  String.ofList (stripSgr s.toList)

theorem stripSgr_nil : stripSgr [] = [] := by
  rw [stripSgr]

theorem stripSgr_of_afterSgr?_eq_some {l after : List Char} (h : afterSgr? l = some after) :
    stripSgr l = stripSgr after := by
  cases l with
  | nil => cases h
  | cons c rest =>
    rw [stripSgr]
    split
    next after' h' => rw [h] at h'; cases h'; rfl
    next h' => rw [h] at h'; cases h'

theorem stripSgr_of_afterSgr?_eq_none {c : Char} {rest : List Char}
    (h : afterSgr? (c :: rest) = none) : stripSgr (c :: rest) = c :: stripSgr rest := by
  rw [stripSgr]
  split
  next after' h' => rw [h] at h'; cases h'
  next => rfl

theorem afterSgr?_cons_of_ne {c : Char} (hc : c ≠ '\x1b') (rest : List Char) :
    afterSgr? (c :: rest) = none := by
  unfold afterSgr?
  split
  next c' params heq =>
    obtain ⟨rfl, -⟩ := List.cons.inj heq
    rw [if_neg hc]
  next => rfl

theorem stripSgr_cons_of_ne {c : Char} (hc : c ≠ '\x1b') (rest : List Char) :
    stripSgr (c :: rest) = c :: stripSgr rest :=
  stripSgr_of_afterSgr?_eq_none (afterSgr?_cons_of_ne hc rest)

/-- Text without an escape character is kept as it stands. -/
theorem stripSgr_append_of_not_mem {text : List Char} (h : '\x1b' ∉ text) (rest : List Char) :
    stripSgr (text ++ rest) = text ++ stripSgr rest := by
  induction text with
  | nil => rfl
  | cons c cs ih =>
    have hc : c ≠ '\x1b' := fun hc => h (hc ▸ List.mem_cons_self)
    rw [List.cons_append, stripSgr_cons_of_ne hc, ih fun hm => h (List.mem_cons_of_mem c hm),
      List.cons_append]

theorem toList_sgr (n : Nat) : (sgr n).toList = '\x1b' :: '[' :: (Nat.toDigits 10 n ++ ['m']) := by
  simp [sgr]

/-- One SGR sequence is deleted whole. -/
theorem stripSgr_sgr_append (n : Nat) (rest : List Char) :
    stripSgr ((sgr n).toList ++ rest) = stripSgr rest := by
  -- the parameters are the decimal digits of `n`, and the `m` after them ends the sequence
  have hparams : ∀ c ∈ Nat.toDigits 10 n, isSgrParam c = true := fun c hc => by
    simp [isSgrParam, Nat.isDigit_of_mem_toDigits (by decide) (by decide) hc]
  have hdrop : (Nat.toDigits 10 n ++ 'm' :: rest).dropWhile isSgrParam = 'm' :: rest := by
    rw [List.dropWhile_append_of_pos hparams, List.dropWhile_cons_of_neg (by decide)]
  have hafter : afterSgr? ((sgr n).toList ++ rest) = some rest := by
    rw [toList_sgr, List.cons_append, List.cons_append, List.append_assoc, List.singleton_append,
      afterSgr?, if_pos rfl, hdrop]
    rfl
  exact stripSgr_of_afterSgr?_eq_some hafter

/-- A change of style is SGR sequences alone, so it leaves nothing behind. -/
theorem stripSgr_change_append (s t : Style) (rest : List Char) :
    stripSgr ((s.change t).toList ++ rest) = stripSgr rest := by
  simp only [Style.change, String.toList_append, List.append_assoc]
  -- each of the five parts, colour, weight off, bold, faint and underline, is empty or one sequence
  split_ifs <;> simp only [String.toList_empty, List.nil_append, stripSgr_sgr_append]

/-- Deleting the SGR sequences from styled runs leaves their texts joined, when the texts hold no
escape character. -/
theorem stripSgr_renderFrom (s : Style) (runs : List (Style × String))
    (h : ∀ run ∈ runs, '\x1b' ∉ run.2.toList) :
    stripSgr (renderFrom s runs).toList = (String.join (runs.map Prod.snd)).toList := by
  induction runs generalizing s with
  | nil =>
    have hend := stripSgr_change_append s plain []
    rw [List.append_nil, stripSgr_nil] at hend
    simpa [renderFrom] using hend
  | cons run rest ih =>
    obtain ⟨t, text⟩ := run
    have htext : '\x1b' ∉ text.toList := h (t, text) List.mem_cons_self
    have hrest : ∀ r ∈ rest, '\x1b' ∉ r.2.toList := fun r hr => h r (List.mem_cons_of_mem _ hr)
    rw [renderFrom, String.toList_append, String.toList_append, List.append_assoc,
      stripSgr_change_append, stripSgr_append_of_not_mem htext, ih t hrest]
    simp [String.join_cons]

end Ansi

namespace Instruction

/-- The texts of an instruction's coloured runs, joined, are its plain text. -/
theorem render_eq_join (inst : Instruction) : inst.render = String.join (inst.runs.map Prod.snd) := by
  cases inst with
  | load v => simp [render, runs, String.join_cons, String.join_nil]
  | compute input comp dest jump =>
    simp only [render, runs]
    split_ifs <;> simp [String.join_cons, String.join_nil, String.append_assoc]

/-- No run of an instruction holds an escape character. -/
theorem esc_not_mem_runs (inst : Instruction) : ∀ run ∈ inst.runs, '\x1b' ∉ run.2.toList := by
  cases inst with
  | load v =>
    have hdigits : '\x1b' ∉ Nat.toDigits 10 v.val := fun h => by
      simpa using Nat.isDigit_of_mem_toDigits (by decide) (by decide) h
    simp [runs, hdigits]
  | compute input comp dest jump =>
    have hdest : '\x1b' ∉ dest.spelling.toList := by cases dest <;> decide
    have hjump : '\x1b' ∉ jump.spelling.toList := by cases jump <;> decide
    have hcomp : '\x1b' ∉ (comp.mnemonic input).toList := by
      cases comp <;> cases input <;> decide
    simp only [runs]
    split_ifs <;> simp [hdest, hjump, hcomp]

/-- Deleting the escape sequences from an instruction's coloured text leaves its plain text. -/
theorem strip_highlight (inst : Instruction) : Ansi.strip inst.highlight = inst.render := by
  rw [Ansi.strip, highlight, Ansi.render, Ansi.stripSgr_renderFrom _ _ inst.esc_not_mem_runs,
    String.ofList_toList, render_eq_join]

end Instruction

end HackAsm
