import HackAsm.Proofs.Variables
import HackAsm.Proofs.Allocation

/-!
# Running the second pass again

An `Assembler` keeps its symbol context between runs of the second pass. A run that is dropped
early, or after its end, leaves the variables it allocated behind, and the next run starts at
address zero in that context. This file proves that this is harmless: however far the first run
got, a second run yields exactly the items of a run on a fresh assembler, and once it has ended
it leaves exactly that run's context (`rerun_repeats_fresh_run`).

Two facts carry the proof.

* A run reaches only the contexts of the fresh run before some instruction line that the fresh
  run got through (`Encoder.Follows`, kept by every call of `next`).
* Lines that assembled in a context assemble to the same words in any context that extends the
  one they left, and change nothing (`encodeLine_of_extends`): every symbol they load is already
  bound there, to the same address. So a run from the context before the `m`-th instruction
  line repeats the first `m` words without allocating, and from there on is the fresh run
  (`encodeFrom_contextAfter_take`).

The last step is a simulation of iterators: two states with the same pending items and the same
final context yield the same items call by call and end in the same context
(`Encoder.steps_eq_of_pending_eq`).
-/

set_option autoImplicit false

namespace HackAsm

/-! ## One line in a larger context -/

/-- A line that loads no symbol reads no context and changes none. -/
theorem encodeLine_of_loadedSymbol?_eq_none {line : Line} (h : loadedSymbol? line = none)
    (ctx ctx' : Context) : encodeLine line ctx' = ((encodeLine line ctx).1, ctx') := by
  unfold encodeLine
  cases hparse : Code.parse line.code with
  | error e => rfl
  | ok code =>
    cases code with
    | address operand =>
      cases operand with
      | literal v => rfl
      | symbol name =>
        have := loadedSymbol?_eq_some_iff.mpr hparse
        rw [h] at this
        cases this
    | compute => rfl

/-- A line forgets no binding. -/
theorem Context.extends_encodeLine (line : Line) (ctx : Context) :
    ctx.Extends (encodeLine line ctx).2 := by
  rw [encodeLine_snd]
  cases loadedSymbol? line with
  | none => exact ctx.extends_refl
  | some name => exact ctx.extends_resolve name

theorem Context.extends_contextAfter (ctx : Context) (lines : List Line) :
    ctx.Extends (contextAfter ctx lines) := by
  induction lines generalizing ctx with
  | nil => exact ctx.extends_refl
  | cons line rest ih =>
    exact (ctx.extends_encodeLine line).trans (ih _)

/-- A line that assembled in `ctx` assembles to the same instruction in every context that
extends the one it left, and changes nothing there. -/
theorem encodeLine_of_extends {line : Line} {ctx ctx' d : Context} {inst : Instruction}
    (h : encodeLine line ctx = (.ok inst, ctx')) (hd : ctx'.Extends d) :
    encodeLine line d = (.ok inst, d) := by
  cases hsym : loadedSymbol? line with
  | none =>
    rw [encodeLine_of_loadedSymbol?_eq_none hsym ctx d, h]
  | some name =>
    have hok : (encodeLine line ctx).1 = .ok inst := by rw [h]
    obtain ⟨a, hres, rfl⟩ := resolve_of_encodeLine_eq_ok hsym hok
    -- the symbol is bound where the line left the context, so it is bound in `d` too
    have hctx' : ctx' = (ctx.resolve name).2 := by
      have hsnd := congrArg Prod.snd h
      rw [encodeLine_of_loadedSymbol? hsym] at hsnd
      exact hsnd.symm
    have hbound : d.lookup name = some a :=
      hd name a (hctx' ▸ Context.lookup_resolve_of_ok hres)
    rw [encodeLine_of_loadedSymbol? hsym, d.resolve_of_lookup_eq_some name a hbound]
    rfl

/-! ## A run from a later context -/

/-- A pass from the context that the first `m` of its lines reach, where these lines assemble,
repeats the pass from the start: those lines find their symbols bound and give the same words,
and the lines after them meet the same context. -/
theorem encodeFrom_contextAfter_take {pc : Nat} {ctx : Context} {cl : List Line} {m : Nat}
    (hs : ∀ line ∈ cl, line.statement = .instruction)
    (hm : m ≤ (encodeFrom pc ctx #[] cl).words.size) :
    encodeFrom pc (contextAfter ctx (cl.take m)) #[] cl = encodeFrom pc ctx #[] cl := by
  induction cl generalizing pc ctx m with
  | nil => simp
  | cons line rest ih =>
    have hline : line.statement = .instruction := hs line List.mem_cons_self
    have hrest : ∀ l ∈ rest, l.statement = .instruction :=
      fun l hl => hs l (List.mem_cons_of_mem line hl)
    cases m with
    | zero => simp
    | succ m =>
      match henc : encodeLine line ctx with
      | (.error e, ctx') =>
        rw [encodeFrom_cons_error hline henc] at hm
        simp at hm
      | (.ok inst, ctx₁) =>
        have hm' : m ≤ (encodeFrom (pc + 1) ctx₁ #[] rest).words.size := by
          rw [encodeFrom_cons_ok hline henc, encodeFrom_eq_append] at hm
          simp only [Array.size_append, Array.size_push, Array.size_empty] at hm
          omega
        -- the context the first `m + 1` lines reach, from which the first line changes nothing
        have hctx : contextAfter ctx ((line :: rest).take (m + 1)) =
            contextAfter ctx₁ (rest.take m) := by
          simp [henc]
        have hagain : encodeLine line (contextAfter ctx₁ (rest.take m)) =
            (.ok inst, contextAfter ctx₁ (rest.take m)) :=
          encodeLine_of_extends henc (ctx₁.extends_contextAfter _)
        rw [hctx, encodeFrom_cons_ok hline hagain, encodeFrom_cons_ok hline henc,
          encodeFrom_eq_append (pc + 1) (contextAfter ctx₁ (rest.take m)),
          encodeFrom_eq_append (pc + 1) ctx₁, ih hrest hm']

/-- A pass over a program from the context before any of its instruction lines up to the
number of its words repeats the pass from the labels alone. -/
theorem Program.encodeFrom_contextBefore {p : Program} {m : Nat}
    (hm : m ≤ p.encode.words.size) : encodeFrom 0 (p.contextBefore m) #[] p.lines = p.encode := by
  have hencode : p.encode = encodeFrom 0 (Context.ofLabels p.labels) #[] (codeLines p.lines) := by
    rw [encodeFrom_codeLines]
    rfl
  rw [hencode] at hm
  rw [← encodeFrom_codeLines, Program.contextBefore,
    encodeFrom_contextAfter_take (fun _ => statement_of_mem_codeLines) hm, hencode]

/-! ## Where a run can stand -/

/-- A state of a run over `p` that stands where the fresh run stood after some `m` of its words:
it holds the context before the `m`-th instruction line and, until it halts, the address `m` and
the instruction lines from the `m`-th on. -/
def Encoder.Follows (p : Program) (e : Encoder) : Prop :=
  ∃ m ≤ p.encode.words.size, e.context = p.contextBefore m ∧
    (e.halted = false → e.pc = m ∧ codeLines e.lines = (codeLines p.lines).drop m)

theorem Program.encoder_follows (p : Program) : p.encoder.Follows p :=
  ⟨0, Nat.zero_le _, rfl, fun _ => ⟨rfl, rfl⟩⟩

/-- One call of `next` keeps a run where the fresh run stood: a word moves it one line on, an
error or the end leaves its context as it was. -/
theorem Encoder.Follows.next {p : Program} {e : Encoder} (h : e.Follows p) : e.next.2.Follows p := by
  obtain ⟨m, hm, hctx, hrun⟩ := h
  rcases e.next_cases with ⟨-, hnext⟩ | ⟨hh, hnil, hnext⟩ |
      ⟨line, rest, inst, ctx, hh, hcons, henc, hnext⟩ | ⟨line, rest, err, ctx, hh, hcons, henc, hnext⟩
  · rw [hnext]
    exact ⟨m, hm, hctx, hrun⟩
  · -- no instruction line is left, and none will be
    obtain ⟨hpc, hlines⟩ := hrun hh
    rw [← codeLines_dropWhile, hnil] at hlines
    rw [hnext]
    exact ⟨m, hm, hctx, fun _ => ⟨hpc, hlines⟩⟩
  · obtain ⟨hpc, hlines⟩ := hrun hh
    rw [← codeLines_dropWhile, hcons,
      codeLines_cons_of_eq rest (statement_of_dropWhile_eq_cons hcons)] at hlines
    -- the line read is the `m`-th instruction line of the program
    have hline : (codeLines p.lines)[m]? = some line := by
      have h0 := congrArg (fun l => l[0]?) hlines
      simp only [List.getElem?_cons_zero, List.getElem?_drop, Nat.add_zero] at h0
      exact h0.symm
    have hok : (encodeLine line (p.contextBefore m)).1 = .ok inst := by rw [← hctx, henc]
    -- it assembled, so it is not the line the fresh run stopped at
    have hlt : m < p.encode.words.size := by
      refine Nat.lt_of_le_of_ne hm fun heq => ?_
      obtain ⟨e', he', -⟩ := p.trace_encode.stop line (heq ▸ hline)
      have hfail : (encodeLine line (p.contextBefore m)).1 = .error e' := by
        rw [heq]
        exact he'
      rw [hok] at hfail
      cases hfail
    refine ⟨m + 1, hlt, ?_, fun _ => ⟨?_, ?_⟩⟩
    · rw [hnext, Program.contextBefore_succ hline, ← hctx, henc]
    · rw [hnext, hpc]
    · rw [hnext]
      show codeLines rest = (codeLines p.lines).drop (m + 1)
      rw [← List.drop_drop, ← hlines, List.drop_one, List.tail_cons]
  · -- a failing line leaves the context as it was
    have hsame : ctx = e.context := by
      have := encodeLine_snd_of_error (show (encodeLine line e.context).1 = .error err by rw [henc])
      rwa [henc] at this
    rw [hnext]
    exact ⟨m, hm, hsame ▸ hctx, fun hfalse => by cases hfalse⟩

theorem Encoder.Follows.steps {p : Program} {e : Encoder} (h : e.Follows p) (n : Nat) :
    (e.steps n).2.Follows p := by
  induction n generalizing e with
  | zero => exact h
  | succ n ih => exact ih h.next

/-! ## Two runs that yield alike -/

/-- Two states with the same pending items and the same final context yield the same items call
by call, and once the items have run out they hold the same context. -/
theorem Encoder.steps_eq_of_pending_eq {e e' : Encoder} (hp : e'.pending = e.pending)
    (hf : e'.finalContext = e.finalContext) (n : Nat) :
    (e'.steps n).1 = (e.steps n).1 ∧
      (none ∈ (e.steps n).1 → (e'.steps n).2.context = (e.steps n).2.context) := by
  refine ⟨by rw [Encoder.steps_fst, Encoder.steps_fst, hp], fun hnone => ?_⟩
  -- a call yielded nothing, so no item is left after `n` calls
  have hlen : e.pending.length ≤ n := by
    rw [Encoder.steps_fst] at hnone
    obtain ⟨j, hj, hjnone⟩ := List.mem_map.mp hnone
    have := List.getElem?_eq_none_iff.mp hjnone
    have := List.mem_range.mp hj
    omega
  have hdone : ∀ s : Encoder, s.pending = e.pending → (s.steps n).2.context = s.finalContext := by
    intro s hs
    rw [Encoder.context_of_pending_eq_nil (by rw [Encoder.steps_snd_pending, hs,
      List.drop_eq_nil_of_le hlen]), Encoder.steps_finalContext]
  rw [hdone e' hp, hdone e rfl, hf]

/-! ## Running the second pass again -/

theorem Assembler.new_eq_ok {source : String} {asm : Assembler}
    (h : Assembler.new source = .ok asm) :
    ∃ p, Program.read source = .ok p ∧ asm = { lines := p.lines, idents := Context.ofLabels p.labels } := by
  simp only [Assembler.new, bind, Except.bind, pure, Except.pure] at h
  split at h
  · cases h
  · rename_i p hp
    cases h
    exact ⟨p, hp, rfl⟩

/-- However many items a first run of the second pass yielded before it was dropped, a second
run on the same assembler yields call by call the items of a run on a fresh assembler, and once
it has yielded nothing it leaves the context that run leaves. -/
theorem rerun_repeats_fresh_run {source : String} {asm : Assembler}
    (h : Assembler.new source = .ok asm) (k n : Nat) :
    ((asm.release (asm.encode.steps k).2).encode.steps n).1 = (asm.encode.steps n).1 ∧
      (none ∈ (asm.encode.steps n).1 →
        ((asm.release (asm.encode.steps k).2).encode.steps n).2.context =
          (asm.encode.steps n).2.context) := by
  obtain ⟨p, -, rfl⟩ := Assembler.new_eq_ok h
  have hfresh : ({ lines := p.lines, idents := Context.ofLabels p.labels } : Assembler).encode =
      p.encoder := rfl
  rw [hfresh]
  -- the first run stopped in the context before some instruction line the fresh run got through
  obtain ⟨m, hm, hctx, -⟩ := p.encoder_follows.steps k
  have hagain : encodeFrom 0 (p.contextBefore m) #[] p.lines = p.encode :=
    Program.encodeFrom_contextBefore hm
  have hrerun : (Assembler.release { lines := p.lines, idents := Context.ofLabels p.labels }
      (p.encoder.steps k).2).encode =
        { lines := p.lines, context := p.contextBefore m, pc := 0, halted := false } := by
    simp only [Assembler.release, Assembler.encode, hctx]
  rw [hrerun]
  refine Encoder.steps_eq_of_pending_eq ?_ ?_ n
  · simp only [Encoder.pending, Bool.false_eq_true, if_false, hagain]
    rfl
  · simp only [Encoder.finalContext, Bool.false_eq_true, if_false, hagain]
    rfl

/-- A second run after a first one dropped after two items, at a program that loads two
variables, one of them twice. -/
theorem rerun_repeats_fresh_run_two_variables :
    Assembler.new "@x\nM=0\n@y\n@x" = .ok ⟨readLines "@x\nM=0\n@y\n@x", Context.ofLabels Table.empty⟩ ∧
      ((Assembler.release ⟨readLines "@x\nM=0\n@y\n@x", Context.ofLabels Table.empty⟩
          ((Assembler.encode ⟨readLines "@x\nM=0\n@y\n@x", Context.ofLabels Table.empty⟩).steps 2).2).encode.steps 6).1 =
        ((Assembler.encode ⟨readLines "@x\nM=0\n@y\n@x", Context.ofLabels Table.empty⟩).steps 6).1 ∧
      (none ∈ ((Assembler.encode ⟨readLines "@x\nM=0\n@y\n@x", Context.ofLabels Table.empty⟩).steps 6).1 →
        ((Assembler.release ⟨readLines "@x\nM=0\n@y\n@x", Context.ofLabels Table.empty⟩
          ((Assembler.encode ⟨readLines "@x\nM=0\n@y\n@x", Context.ofLabels Table.empty⟩).steps 2).2).encode.steps 6).2.context =
          ((Assembler.encode ⟨readLines "@x\nM=0\n@y\n@x", Context.ofLabels Table.empty⟩).steps 6).2.context) := by
  have h : Assembler.new "@x\nM=0\n@y\n@x" =
      .ok ⟨readLines "@x\nM=0\n@y\n@x", Context.ofLabels Table.empty⟩ := rfl
  exact ⟨h, rerun_repeats_fresh_run h 2 6⟩

end HackAsm
