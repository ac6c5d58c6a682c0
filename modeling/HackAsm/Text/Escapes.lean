/-!
# Text for a stream that is not a terminal

Complaints about the command line carry emphasis as escape sequences, and the arguments they
quote may carry control characters and escape sequences of their own. Standard error is not a
terminal, so what reaches it is filtered: only the bytes that print are kept.

The filter runs the parser of a video terminal over the UTF-8 bytes of the text. The parser has
one table of transitions per state: a byte may move it to another state, and comes with an
action. Three bytes act the same from every state: CAN and SUB end any sequence, and ESC starts
a new one. A byte prints when its action prints it (every character from space to `~`), when it
starts a character of more than one byte, or when it is a control that is white space (tab, line
feed, form feed, carriage return). DEL and the other controls do not print, nor does anything
inside a sequence.

The filter alternates two phases, and the parser's state carries from one to the next:

* `skip` drops bytes, each read from the current state, up to the first that prints;
* `keep` keeps bytes up to the first that does not print. Here each byte is read as if from the
  ground state, though a move to another state is still recorded; the bytes of a character of
  more than one byte are kept together.

So a byte that ends a sequence prints nothing, while a tab read inside a sequence prints; and
text kept in one phase is never swallowed by a sequence that only starts in the next.
-/

set_option autoImplicit false

namespace HackAsm.Escapes

/-- Where the parser stands. -/
inductive State where
  /-- Between sequences. -/
  | ground
  /-- After ESC. -/
  | escape
  /-- After ESC and an intermediate byte. -/
  | escapeIntermediate
  /-- After ESC `[`, the start of a control sequence. -/
  | csiEntry
  /-- Reading a control sequence's parameters. -/
  | csiParam
  /-- Reading a control sequence's intermediate bytes. -/
  | csiIntermediate
  /-- In a malformed control sequence, up to its final byte. -/
  | csiIgnore
  /-- After ESC `P`, the start of a device control string. -/
  | dcsEntry
  /-- Reading a device control string's parameters. -/
  | dcsParam
  /-- Reading a device control string's intermediate bytes. -/
  | dcsIntermediate
  /-- In a malformed device control string, up to its terminator. -/
  | dcsIgnore
  /-- In the data of a device control string, up to its terminator. -/
  | dcsPassthrough
  /-- In a string started by ESC `X`, ESC `^` or ESC `_`, up to its terminator. -/
  | sosPmApcString
  /-- In an operating system command, started by ESC `]`, up to BEL. -/
  | oscString
  /-- Inside a character of more than one byte. -/
  | utf8
  deriving DecidableEq, Repr

/-- What a transition does, as far as printing goes. -/
inductive Action where
  /-- Shows a character. -/
  | print
  /-- Performs a control function. -/
  | execute
  /-- Starts a character of more than one byte. -/
  | beginUtf8
  /-- Anything that shows nothing: collecting, ignoring, dispatching a sequence. -/
  | quiet
  deriving DecidableEq, Repr

/-- A transition: the state it moves to, `none` to stay, and its action. -/
abbrev Transition := Option State × Action

/-- `lo ≤ b ≤ hi`. -/
def within (lo hi b : Nat) : Bool :=
  lo ≤ b && b ≤ hi

/-- The controls a state handles itself: every C0 control except CAN, SUB and ESC. -/
def isControl (b : Nat) : Bool :=
  b ≤ 0x17 || b == 0x19 || within 0x1c 0x1f b

/-- The transitions that apply in every state. -/
def anywhere (b : Nat) : Option Transition :=
  if b == 0x18 || b == 0x1a then some (some .ground, .execute)
  else if b == 0x1b then some (some .escape, .quiet)
  else none

/-- A control in one of the two kinds of state: executed in ground, escapes and control
sequences, left alone in strings. -/
def control (executes : Bool) : Transition :=
  (none, if executes then .execute else .quiet)

/-- The transitions of each state; a byte missing from a state's table stays there quietly. -/
def table : State → Nat → Transition
  | .ground, b =>
    if isControl b then control true
    else if within 0x20 0x7f b then (none, .print)
    else if within 0x80 0x8f b || within 0x91 0x9a b || b == 0x9c then (none, .execute)
    else if within 0xc2 0xf4 b then (some .utf8, .beginUtf8)
    else (none, .quiet)
  | .escape, b =>
    if isControl b then control true
    else if within 0x20 0x2f b then (some .escapeIntermediate, .quiet)
    else if b == 0x5b then (some .csiEntry, .quiet)
    else if b == 0x5d then (some .oscString, .quiet)
    else if b == 0x50 then (some .dcsEntry, .quiet)
    else if b == 0x58 || b == 0x5e || b == 0x5f then (some .sosPmApcString, .quiet)
    else if within 0x30 0x7e b then (some .ground, .quiet)
    else (none, .quiet)
  | .escapeIntermediate, b =>
    if isControl b then control true
    else if within 0x30 0x7e b then (some .ground, .quiet)
    else (none, .quiet)
  | .csiEntry, b =>
    if isControl b then control true
    else if within 0x20 0x2f b then (some .csiIntermediate, .quiet)
    else if within 0x30 0x3f b then (some .csiParam, .quiet)
    else if within 0x40 0x7e b then (some .ground, .quiet)
    else (none, .quiet)
  | .csiParam, b =>
    if isControl b then control true
    else if within 0x3c 0x3f b then (some .csiIgnore, .quiet)
    else if within 0x20 0x2f b then (some .csiIntermediate, .quiet)
    else if within 0x40 0x7e b then (some .ground, .quiet)
    else (none, .quiet)
  | .csiIntermediate, b =>
    if isControl b then control true
    else if within 0x30 0x3f b then (some .csiIgnore, .quiet)
    else if within 0x40 0x7e b then (some .ground, .quiet)
    else (none, .quiet)
  | .csiIgnore, b =>
    if isControl b then control true
    else if within 0x40 0x7e b then (some .ground, .quiet)
    else (none, .quiet)
  | .dcsEntry, b =>
    if within 0x20 0x2f b then (some .dcsIntermediate, .quiet)
    else if within 0x30 0x3f b then (some .dcsParam, .quiet)
    else if within 0x40 0x7e b then (some .dcsPassthrough, .quiet)
    else control false
  | .dcsParam, b =>
    if within 0x3c 0x3f b then (some .dcsIgnore, .quiet)
    else if within 0x20 0x2f b then (some .dcsIntermediate, .quiet)
    else if within 0x40 0x7e b then (some .dcsPassthrough, .quiet)
    else control false
  | .dcsIntermediate, b =>
    if within 0x30 0x3f b then (some .dcsIgnore, .quiet)
    else if within 0x40 0x7e b then (some .dcsPassthrough, .quiet)
    else control false
  | .dcsIgnore, b | .dcsPassthrough, b | .sosPmApcString, b =>
    if b == 0x9c then (some .ground, .quiet) else control false
  | .oscString, b =>
    if b == 0x07 then (some .ground, .quiet) else control false
  | .utf8, _ => (none, .quiet)

/-- The transition a byte takes from a state: the transitions of every state first. -/
def change (s : State) (b : Nat) : Transition :=
  (anywhere b).getD (table s b)

/-- The state after a transition. -/
def Transition.target (t : Transition) (s : State) : State :=
  t.1.getD s

/-- Whether a byte prints under the action it comes with. -/
def prints (a : Action) (b : Nat) : Bool :=
  match a with
  | .print => b != 0x7f
  | .beginUtf8 => true
  | .execute => b == 0x09 || b == 0x0a || b == 0x0c || b == 0x0d || b == 0x20
  | .quiet => false

/-- The bytes that follow the first byte of a character of more than one byte. -/
def continuations (lead : Nat) : Nat :=
  if lead < 0xe0 then 1 else if lead < 0xf0 then 2 else 3

/-- The filter between two bytes: the parser's state, and how many bytes the character being
kept still needs (`0` before its first byte). -/
structure Filter where
  state : State := .ground
  owed : Nat := 0
  deriving DecidableEq, Repr

/-- Takes in one byte of a character of more than one byte; the state goes back to ground when
the character is complete. -/
def Filter.takeChar (f : Filter) (b : Nat) : Filter :=
  match f.owed with
  | 0 => { state := .utf8, owed := continuations b }
  | 1 => { state := .ground, owed := 0 }
  | n + 2 => { state := .utf8, owed := n + 1 }

/-- The first phase: drops bytes up to the first that prints, and returns the filter and the
bytes from that one on. -/
def skip (f : Filter) : List Nat → Filter × List Nat
  | [] => (f, [])
  | b :: bs =>
    if f.state = .utf8 then (f, b :: bs)
    else
      let t := change f.state b
      let f := { f with state := t.target f.state }
      if prints t.2 b then (f, b :: bs) else skip f bs

/-- What the second phase leaves: the filter, the bytes kept, and the bytes after them. -/
structure Kept where
  filter : Filter
  kept : List Nat
  rest : List Nat

/-- The second phase: keeps bytes up to the first that does not print, each read from ground. -/
def keep (f : Filter) : List Nat → Kept
  | [] => ⟨f, [], []⟩
  | b :: bs =>
    if f.state = .utf8 then
      let r := keep (f.takeChar b) bs
      { r with kept := b :: r.kept }
    else
      let t := change .ground b
      let g := { f with state := t.target f.state }
      if g.state = .utf8 then
        let r := keep (g.takeChar b) bs
        { r with kept := b :: r.kept }
      else if prints t.2 b then
        let r := keep g bs
        { r with kept := b :: r.kept }
      else ⟨g, [], b :: bs⟩

theorem length_skip (f : Filter) (bs : List Nat) : (skip f bs).2.length ≤ bs.length := by
  induction bs generalizing f with
  | nil => simp [skip]
  | cons b bs ih =>
    simp only [skip]
    split
    · simp
    · split
      · simp
      · exact Nat.le_succ_of_le (ih _)

theorem length_keep (f : Filter) (bs : List Nat) :
    (keep f bs).kept.length + (keep f bs).rest.length = bs.length := by
  induction bs generalizing f with
  | nil => simp [keep]
  | cons b bs ih =>
    simp only [keep]
    split
    · simp only [List.length_cons]
      rw [Nat.add_right_comm, ih]
    · split
      · simp only [List.length_cons]
        rw [Nat.add_right_comm, ih]
      · split
        · simp only [List.length_cons]
          rw [Nat.add_right_comm, ih]
        · simp

/-- Runs the two phases in turn until one keeps nothing. A round that keeps something consumes
at least the bytes it keeps, so the rounds end. -/
def rounds (f : Filter) (bytes : List Nat) : List Nat :=
  match h : keep (skip f bytes).1 (skip f bytes).2 with
  | ⟨_, [], _⟩ => []
  | ⟨g, b :: kept, rest⟩ =>
    have : rest.length < bytes.length := by
      have h1 := length_skip f bytes
      have h2 := length_keep (skip f bytes).1 (skip f bytes).2
      rw [h] at h2
      simp only [List.length_cons] at h2
      omega
    b :: kept ++ rounds g rest
termination_by bytes.length

/-- The bytes of a text that print. -/
def stripBytes (bytes : List Nat) : List Nat :=
  rounds {} bytes

/-- A text as it reaches a stream that is not a terminal. The bytes kept are whole characters,
so they decode. -/
def strip (text : String) : String :=
  let bytes := text.toUTF8.toList.map UInt8.toNat
  (String.fromUTF8? ⟨(stripBytes bytes).toArray.map Nat.toUInt8⟩).getD ""

example : stripBytes [0x61, 0x1b, 0x5b, 0x33, 0x31, 0x6d, 0x62] = [0x61, 0x62] := by decide +kernel
example : stripBytes [0x61, 0x07, 0x0b, 0x09, 0x62] = [0x61, 0x09, 0x62] := by decide +kernel
example : stripBytes [0x1b, 0x5d, 0x61, 0x07, 0x62] = [0x62] := by decide +kernel
example : stripBytes [0xc3, 0xa9, 0x1b, 0xc3, 0xa9, 0x5a, 0xc3, 0xa9] = [0xc3, 0xa9, 0xc3, 0xa9] := by
  decide +kernel

end HackAsm.Escapes
