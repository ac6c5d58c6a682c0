import HackAsm.Cli.Session
import HackAsm.Cli.Disk
import HackAsm.Proofs.Iterator

/-!
# What a run of the command line commits

A run asked to assemble a file reads it, creates the output file before the first pass, streams
the words through an 8 KiB buffer, flushes the buffer also when a line fails, and ends with the
error's code. This file proves, on the model machine, that the run commits exactly what the
library assembles (`run_commits_assembly`): the output file holds the numerals of the words the
second pass makes before its first error, one a line, and nothing when the first pass fails; the
run exits with status zero exactly when `assemble` succeeds, the file then being its numerals;
and otherwise with the code of the error `assemble` returns, modulo 256.

The output path is assumed to name a file that can be made (`Disk.Creatable`): no directory and
no device, in a directory that exists. Every write to such a file succeeds, so a run that reads
its input stops only where the assembly stops.

The proof follows the file through the run. Only the location the output path names changes
(`Disk.get?_set_self`, `Disk.get?_set_of_ne`), so the path keeps naming it (`Disk.locate_set`),
and every write appends to what it holds (`Disk.Holds`). The buffer keeps the file and its waiting
text together equal to all that was written (`Buffer.Filled`): a write that does not fit first
sends the waiting text on, and a write sent on at once finds nothing waiting (`Buffer.write_run`).
-/

set_option autoImplicit false

namespace HackAsm.Cli

/-! ## One location of the disk changes -/

namespace Disk

theorem get?_set_self (d : Disk) (loc : Location) (node : Node) :
    (d.set loc node).get? loc = some node := by
  obtain ⟨nodes⟩ := d
  unfold set get?
  split
  · rename_i hsome
    simp only [beq_iff_eq] at hsome ⊢
    -- the first binding of `loc` is replaced
    induction nodes with
    | nil => simp at hsome
    | cons p rest ih =>
      obtain ⟨k, n⟩ := p
      by_cases hk : k = loc
      · subst hk
        simp
      · have hk' : (loc == k) = false := beq_false_of_ne (Ne.symm hk)
        simp only [List.lookup_cons, hk'] at hsome
        simp [List.lookup_cons, hk, hk', ih hsome]
  · rename_i hnone
    have hnone' : nodes.lookup loc = none := Option.not_isSome_iff_eq_none.mp hnone
    simp [List.lookup_append, hnone']

theorem get?_set_of_ne (d : Disk) {loc l : Location} (node : Node) (h : l ≠ loc) :
    (d.set loc node).get? l = d.get? l := by
  obtain ⟨nodes⟩ := d
  unfold set get?
  split
  · rename_i hsome
    clear hsome
    simp only [beq_iff_eq]
    -- the bindings of other locations keep their place and their node
    induction nodes with
    | nil => rfl
    | cons p rest ih =>
      obtain ⟨k, n⟩ := p
      by_cases hk : k = loc
      · subst hk
        have hl : (l == k) = false := beq_false_of_ne h
        simp [List.lookup_cons, hl, ih]
      · by_cases hl : l = k
        · subst hl
          simp [hk]
        · have hl' : (l == k) = false := beq_false_of_ne hl
          simp [List.lookup_cons, hk, hl', ih]
  · have hl : (l == loc) = false := beq_false_of_ne h
    simp [List.lookup_append, List.lookup_cons, hl]

/-- Putting something other than a directory at a location that is no directory leaves every
location a directory or not as it was. -/
theorem isDirectory_set {d : Disk} {loc : Location} {node : Node}
    (hloc : d.isDirectory loc = false) (hnode : node ≠ .directory) (l : Location) :
    (d.set loc node).isDirectory l = d.isDirectory l := by
  by_cases hl : l = loc
  · subst hl
    simp only [isDirectory, Bool.or_eq_false_iff] at hloc
    have hne : (node == Node.directory) = false := beq_false_of_ne hnode
    simp [isDirectory, hloc.1.1.1, hloc.1.1.2, hloc.1.2, hloc.2, get?_set_self, hne]
  · simp [isDirectory, get?_set_of_ne d node hl]

/-- A path is followed through directories alone. -/
theorem walk_congr {d d' : Disk} (h : ∀ l, d'.isDirectory l = d.isDirectory l)
    (loc : Location) (parts : List String) : d'.walk loc parts = d.walk loc parts := by
  induction parts generalizing loc with
  | nil => rfl
  | cons c rest ih => simp [walk, h, ih]

theorem locate_set {d : Disk} {loc : Location} {node : Node}
    (hloc : d.isDirectory loc = false) (hnode : node ≠ .directory) (path : String) :
    (d.set loc node).locate path = d.locate path := by
  simp only [locate, walk_congr (isDirectory_set hloc hnode)]

/-- `path` names a location that is no directory and holds a file with `text`. -/
def Holds (d : Disk) (path text : String) : Prop :=
  ∃ loc, d.locate path = some (loc, false) ∧ d.isDirectory loc = false ∧
    d.get? loc = some (.file (.text text))

/-- A file can be made at `path`: the path names a location in an existing directory that is
neither a directory nor a device. -/
def Creatable (d : Disk) (path : String) : Prop :=
  ∃ loc, d.locate path = some (loc, false) ∧ d.isDirectory loc = false ∧
    ∀ kind, d.get? loc ≠ some (.device kind)

theorem Holds.set {d : Disk} {path : String} {loc : Location}
    (hloc : d.locate path = some (loc, false)) (hdir : d.isDirectory loc = false) (text : String) :
    (d.set loc (.file (.text text))).Holds path text := by
  have hfile : Node.file (.text text) ≠ .directory := nofun
  exact ⟨loc, by rw [locate_set hdir hfile, hloc], by rw [isDirectory_set hdir hfile, hdir],
    get?_set_self d loc _⟩

theorem Holds.readText {d : Disk} {path text : String} (h : d.Holds path text) :
    d.readText path = some text := by
  obtain ⟨loc, hloc, -, hget⟩ := h
  simp [Disk.readText, hloc, hget]

/-- Creating a file that can be made leaves it there, empty. -/
theorem Creatable.create {d : Disk} {path : String} (h : d.Creatable path) :
    ∃ d', d.create path = some d' ∧ d'.Holds path "" := by
  obtain ⟨loc, hloc, hdir, hdev⟩ := h
  refine ⟨d.set loc (.file (.text "")), ?_, Holds.set hloc hdir ""⟩
  unfold Disk.create
  rw [hloc]
  simp only [hdir, Bool.false_eq_true, if_false]
  split
  · rename_i hterm
    exact absurd hterm (hdev _)
  · rename_i kind _ hkind
    exact absurd hkind (hdev kind)
  · rfl

end Disk

/-- Appending to a file adds the text at its end. -/
theorem Machine.append_of_holds {mc : Machine} {path c : String} (h : mc.disk.Holds path c)
    (text : String) :
    ∃ mc', mc.append path text = some mc' ∧ mc'.disk.Holds path (c ++ text) := by
  obtain ⟨loc, hloc, hdir, hget⟩ := h
  refine ⟨{ mc with disk := mc.disk.set loc (.file (.text (c ++ text))) }, ?_,
    Disk.Holds.set hloc hdir _⟩
  simp [Machine.append, hloc, hget]

/-! ## The host's effects on the model machine -/

theorem stateRun_bind {α β : Type} {x : StateM Machine α} {f : α → StateM Machine β}
    {mc mc' : Machine} {a : α} (h : x.run mc = (a, mc')) : (x >>= f).run mc = (f a).run mc' := by
  rw [StateT.run_bind, h]
  rfl

theorem appendFile_run {mc : Machine} {path c : String} (h : mc.disk.Holds path c)
    (text : String) :
    ∃ mc', (Host.appendFile path text : StateM Machine Bool).run mc = (true, mc') ∧
      mc'.disk.Holds path (c ++ text) := by
  obtain ⟨mc', happ, hholds⟩ := Machine.append_of_holds h text
  refine ⟨mc', ?_, hholds⟩
  simp only [Host.appendFile, StateT.run_modifyGet, happ]
  rfl

/-! ## The output buffer -/

namespace Buffer

/-- The file at the buffer's path holds a text, and with the text waiting in the buffer it makes
`text`. -/
def Filled (b : Buffer) (mc : Machine) (text : String) : Prop :=
  ∃ c, mc.disk.Holds b.path c ∧ c ++ b.waiting = text

theorem drain_run {b : Buffer} {mc : Machine} {c : String} (h : mc.disk.Holds b.path c) :
    ∃ mc', (b.drain : StateM Machine Bool).run mc = (true, mc') ∧
      mc'.disk.Holds b.path (c ++ b.waiting) := by
  unfold drain
  split
  · rename_i hempty
    rw [String.isEmpty_iff.mp hempty, String.append_empty]
    exact ⟨mc, rfl, h⟩
  · exact appendFile_run h b.waiting

/-- A write through the buffer succeeds on a file and adds its text to what was written. -/
theorem write_run {b : Buffer} {mc : Machine} {t : String} (h : b.Filled mc t) (text : String) :
    ∃ b' mc', (b.write text : StateM Machine (Option Buffer)).run mc = (some b', mc') ∧
      b'.path = b.path ∧ b'.Filled mc' (t ++ text) := by
  obtain ⟨c, hc, rfl⟩ := h
  unfold write
  simp only
  split
  · -- the text fits and waits
    exact ⟨_, mc, rfl, rfl, c, hc, by rw [String.append_assoc]⟩
  rename_i hfit
  split
  · -- the text does not fit: the waiting text is sent on first
    obtain ⟨mc₁, hdrain, hc₁⟩ := drain_run hc
    rw [stateRun_bind hdrain]
    simp only [if_true, pure_bind]
    split
    · obtain ⟨mc₂, happ, hc₂⟩ := appendFile_run hc₁ text
      refine ⟨{ b with waiting := "" }, mc₂, ?_, rfl, _, hc₂, String.append_empty⟩
      rw [stateRun_bind happ]
      rfl
    · exact ⟨{ b with waiting := "" ++ text }, mc₁, rfl, rfl, _, hc₁,
        by rw [String.empty_append, String.append_assoc]⟩
  · -- the text fills the free space exactly
    rename_i hnotover
    simp only [pure_bind]
    split
    · rename_i hbig
      -- a text as large as the buffer fills it only when nothing waits
      have hempty : b.waiting = "" := by
        refine String.utf8ByteSize_eq_zero_iff.mp ?_
        simp only [bufferCapacity] at hfit hnotover hbig
        omega
      obtain ⟨mc₂, happ, hc₂⟩ := appendFile_run hc text
      refine ⟨b, mc₂, ?_, rfl, _, hc₂, by rw [hempty, String.append_empty, String.append_empty]⟩
      rw [stateRun_bind happ]
      rfl
    · exact ⟨{ b with waiting := b.waiting ++ text }, mc, rfl, rfl, c, hc,
        by rw [String.append_assoc]⟩

theorem flush_run {b : Buffer} {mc : Machine} {t : String} (h : b.Filled mc t) :
    ∃ mc', (b.flush : StateM Machine Bool).run mc = (true, mc') ∧ mc'.disk.Holds b.path t := by
  obtain ⟨c, hc, rfl⟩ := h
  exact drain_run hc

end Buffer

/-! ## A session on the model machine -/

section Session

variable {α β : Type}

theorem run_bind (x : ExceptT Error (StateM Machine) α) (f : α → ExceptT Error (StateM Machine) β)
    (mc : Machine) :
    ((x >>= f).run).run mc =
      match (x.run).run mc with
      | (.ok a, mc') => ((f a).run).run mc'
      | (.error e, mc') => (.error e, mc') := by
  simp only [ExceptT.run_bind, StateT.run_bind]
  rcases (x.run).run mc with ⟨_ | a, mc'⟩ <;> rfl

@[simp]
theorem pure_run (a : α) (mc : Machine) :
    ((pure a : ExceptT Error (StateM Machine) α).run).run mc = (.ok a, mc) :=
  rfl

@[simp]
theorem throw_run (e : Error) (mc : Machine) :
    ((throw e : ExceptT Error (StateM Machine) α).run).run mc = (.error e, mc) :=
  rfl

@[simp]
theorem liftM_run (x : StateM Machine α) (mc : Machine) :
    ((liftM x : ExceptT Error (StateM Machine) α).run).run mc = (.ok (x.run mc).1, (x.run mc).2) :=
  rfl

@[simp]
theorem readText_run (path : String) (mc : Machine) :
    (Host.readText path : StateM Machine (Option String)).run mc = (mc.disk.readText path, mc) :=
  rfl

@[simp]
theorem createFile_run (path : String) (mc : Machine) :
    (Host.createFile path : StateM Machine Bool).run mc =
      (mc.disk.create path).elim (false, mc) fun d => (true, { mc with disk := d }) := by
  cases h : mc.disk.create path <;>
    simp only [Host.createFile, StateT.run_modifyGet, h, Option.elim_none, Option.elim_some] <;> rfl

@[simp]
theorem say_run (line : String) (mc : Machine) :
    ((say line : ExceptT Error (StateM Machine) Unit).run).run mc =
      (.ok (), { mc with stdout := mc.stdout ++ (line ++ "\n") }) :=
  rfl

@[simp]
theorem sayAll_run (lines : List String) (mc : Machine) :
    ((sayAll lines : ExceptT Error (StateM Machine) Unit).run).run mc =
      (.ok (), { mc with stdout := mc.stdout ++ String.join (lines.map (· ++ "\n")) }) := by
  induction lines generalizing mc with
  | nil => simp only [List.map_nil, String.join_nil, String.append_empty]; rfl
  | cons line rest ih =>
    change (((say line >>= fun _ => sayAll rest : ExceptT Error (StateM Machine) Unit)).run).run mc = _
    rw [run_bind, say_run]
    simp [ih, String.append_assoc]

/-- Writing words through a buffer on a file succeeds and adds their numerals, one a line. -/
theorem writeWords_run {b : Buffer} {mc mc' : Machine} {t : String} {r : Except Error Buffer}
    (h : b.Filled mc t) {ws : List Word}
    (hrun : ((writeWords b ws : ExceptT Error (StateM Machine) Buffer).run).run mc = (r, mc')) :
    ∃ b', r = .ok b' ∧ b'.path = b.path ∧
      b'.Filled mc' (t ++ String.join (ws.map fun w => w.inst.binary ++ "\n")) := by
  -- the buffer carries `Filled` from word to word
  induction ws generalizing b mc t with
  | nil =>
    simp only [writeWords, pure_run] at hrun
    obtain ⟨rfl, rfl⟩ := hrun
    simpa using h
  | cons w ws ih =>
    obtain ⟨b₁, mc₁, hwrite, hpath₁, h₁⟩ := Buffer.write_run h (w.inst.binary ++ "\n")
    simp only [writeWords, run_bind, liftM_run, hwrite] at hrun
    obtain ⟨b', hr, hpath', h'⟩ := ih h₁ hrun
    refine ⟨b', hr, hpath'.trans hpath₁, ?_⟩
    simpa [String.append_assoc] using h'

/-- The path a run writes its words to. -/
def Invocation.outputPath (inv : Invocation) : String :=
  inv.output.getD (withExtension inv.input "hack")

/-- What the output file holds after a run on `source` that writes every byte it is given:
the numerals of the words the second pass makes before its first error, one a line, and nothing
when the first pass fails. -/
def outputText (source : String) : String :=
  match Program.read source with
  | .ok p => String.join (p.encode.words.toList.map fun w => w.inst.binary ++ "\n")
  | .error _ => ""

theorem assemble_eq_of_read_error {source : String} {e : LineError}
    (h : Program.read source = .error e) : assemble source = .error e := by
  simp [assemble, h, bind, Except.bind]

theorem outputText_of_assemble_eq_ok {source : String} {ws : Array Word}
    (h : assemble source = .ok ws) :
    outputText source = String.join (ws.toList.map fun w => w.inst.binary ++ "\n") := by
  rcases hp : Program.read source with e | p
  · rw [assemble_eq_of_read_error hp] at h
    cases h
  · rcases hf : p.encode.failure with _ | err
    · rw [assemble_eq_of_failure_none hp hf, Except.ok.injEq] at h
      simp [outputText, hp, h]
    · rw [assemble_eq_of_failure_some hp hf] at h
      cases h

theorem assembleFiles_run {inv : Invocation} {source : String} {mc : Machine}
    (hsym : inv.symbols = none) (hread : mc.disk.readText inv.input = some source)
    (hout : mc.disk.Creatable inv.outputPath) :
    (((assembleFiles inv : ExceptT Error (StateM Machine) Unit).run).run mc).2.disk.Holds
        inv.outputPath (outputText source) ∧
      (∀ ws, assemble source = .ok ws →
        (((assembleFiles inv : ExceptT Error (StateM Machine) Unit).run).run mc).1 = .ok ()) ∧
      ∀ e, assemble source = .error e →
        (((assembleFiles inv : ExceptT Error (StateM Machine) Unit).run).run mc).1 =
          .error e.error := by
  obtain ⟨d, hcreate, hd⟩ := hout.create
  unfold Invocation.outputPath at hcreate hd ⊢
  unfold assembleFiles
  rcases hp : Program.read source with e | p
  · -- the first pass fails: the file was created and stays empty
    simp only [run_bind, say_run, liftM_run, readText_run, hread, createFile_run, hcreate,
      Option.elim_some, if_true, hp, sayAll_run, throw_run]
    simp [outputText, hp, hd, assemble_eq_of_read_error hp]
  · simp only [run_bind, say_run, liftM_run, readText_run, hread, createFile_run, hcreate,
      Option.elim_some, if_true, hp, pure_run]
    split
    · rename_i b₁ mc₁ hw
      obtain ⟨b', hb', hpath, hfill⟩ := writeWords_run (by exact ⟨"", hd, String.append_empty⟩) hw
      cases hb'
      obtain ⟨mc₂, hflush, hholds⟩ := Buffer.flush_run hfill
      rw [hpath] at hholds
      simp only [hflush, if_true]
      rw [String.empty_append] at hholds
      rcases hf : p.encode.failure with _ | err
      · -- the second pass succeeds
        simp only [hsym, run_bind, say_run]
        -- with `-d` the listing is printed; either way the file stays as flushed
        cases inv.dump <;>
          simp only [Bool.false_eq_true, if_true, if_false, sayAll_run,
            pure_run] <;>
          simp [outputText, hp, hholds, assemble_eq_of_failure_none hp hf]
      · -- a line fails in the second pass, after the words before it are flushed
        simp only [run_bind, sayAll_run, throw_run]
        simp [outputText, hp, hholds, assemble_eq_of_failure_some hp hf]
    · rename_i e mc₁ hw
      obtain ⟨b', hb', -⟩ := writeWords_run (by exact ⟨"", hd, String.append_empty⟩) hw
      cases hb'

@[simp]
theorem conclude_ok_code (mc : Machine) :
    ((conclude (.ok ()) : StateM Machine Int).run mc).1 = 0 :=
  rfl

@[simp]
theorem conclude_error_code (e : Error) (mc : Machine) :
    ((conclude (.error e) : StateM Machine Int).run mc).1 = e.code :=
  rfl

/-- The last line of a run is printed, and leaves the files alone. -/
@[simp]
theorem conclude_disk (r : Except Error Unit) (mc : Machine) :
    ((conclude r : StateM Machine Int).run mc).2.disk = mc.disk := by
  rcases r with e | ⟨⟩ <;> rfl

/-- A run asked to assemble prints its banner, runs the session and concludes with its result. -/
theorem run_of_assemble {args : List String} {inv : Invocation}
    (hargs : readArguments args = .assemble inv) (author : String) (mc : Machine) :
    (run author args : StateM Machine Int).run mc =
      let session := ((assembleFiles inv : ExceptT Error (StateM Machine) Unit).run).run
        { mc with stdout := mc.stdout ++ "Hack Assembler\n" }
      (conclude session.1 : StateM Machine Int).run session.2 := by
  simp only [run, hargs]
  rfl

/-- Every error exits with a nonzero status. -/
theorem exitStatus_code_pos (e : Error) : 0 < exitStatus e.code := by
  cases e <;> simp [exitStatus, Error.code]

end Session

/-! ## What a run commits -/

/-- A run asked to assemble a readable input, without a symbol table and into a file that can be
made, leaves in that file the numerals of the words the second pass makes before its first error
(nothing when the first pass fails); it exits with status zero exactly when `assemble` succeeds,
the file then holding the numerals `assembleToStrings` gives, one a line, and otherwise with the
code of the error `assemble` returns, modulo 256. -/
theorem run_commits_assembly (author : String) {args : List String} {inv : Invocation} {source : String}
    {mc : Machine} (hargs : readArguments args = .assemble inv) (hsym : inv.symbols = none)
    (hread : mc.disk.readText inv.input = some source)
    (hout : mc.disk.Creatable inv.outputPath) :
    let final := (run author args : StateM Machine Int).run mc
    final.2.disk.readText inv.outputPath = some (outputText source) ∧
      (exitStatus final.1 = 0 ↔ ∃ ws, assemble source = .ok ws) ∧
      (∀ strs, assembleToStrings source = .ok strs →
        final.2.disk.readText inv.outputPath = some (String.join (strs.map (· ++ "\n")))) ∧
      ∀ e, assemble source = .error e → exitStatus final.1 = (e.error.code % 256).toNat := by
  intro final
  obtain ⟨hholds, hok, herr⟩ := @assembleFiles_run inv source
    { mc with stdout := mc.stdout ++ "Hack Assembler\n" } hsym hread hout
  generalize hs : ((assembleFiles inv : ExceptT Error (StateM Machine) Unit).run).run
    { mc with stdout := mc.stdout ++ "Hack Assembler\n" } = session at hholds hok herr
  have hfinal : final = (conclude session.1 : StateM Machine Int).run session.2 := by
    rw [← hs]
    exact run_of_assemble hargs author mc
  -- `conclude` writes no file, so the file is as the session left it
  have hfile : final.2.disk.readText inv.outputPath = some (outputText source) := by
    rw [hfinal, conclude_disk]
    exact hholds.readText
  -- and it turns the session's result into the exit code
  have hzero : ∀ ws, assemble source = .ok ws → final.1 = 0 := by
    intro ws h
    rw [hfinal, hok ws h, conclude_ok_code]
  have hcode : ∀ e, assemble source = .error e → final.1 = e.error.code := by
    intro e h
    rw [hfinal, herr e h, conclude_error_code]
  refine ⟨hfile, ⟨fun h0 => ?_, fun hws => ?_⟩, fun strs hstrs => ?_,
    fun e h => by rw [hcode e h]; rfl⟩
  · -- status zero: no error can have given it
    rcases h : assemble source with e | ws
    · have hpos := exitStatus_code_pos e.error
      rw [hcode e h] at h0
      omega
    · exact ⟨ws, rfl⟩
  · obtain ⟨ws, h⟩ := hws
    rw [hzero ws h]
    rfl
  · rcases h : assemble source with e | ws
    · simp [assembleToStrings, h, Except.map] at hstrs
    · simp only [assembleToStrings, h, Except.map, Except.ok.injEq] at hstrs
      subst hstrs
      rw [hfile, outputText_of_assemble_eq_ok h, List.map_map]
      rfl

theorem run_commits_assembly_single_load :
    readArguments ["a", "-o", "b"] = .assemble { input := "a", output := some "b" } ∧
      ({ input := "a", output := some "b" } : Invocation).symbols = none ∧
      (({} : Disk).set ["a"] (.file (.text "@5\n"))).readText "a" = some "@5\n" ∧
      (({} : Disk).set ["a"] (.file (.text "@5\n"))).Creatable
        ({ input := "a", output := some "b" } : Invocation).outputPath ∧
      let final := (run "" ["a", "-o", "b"] : StateM Machine Int).run
        { disk := ({} : Disk).set ["a"] (.file (.text "@5\n")) }
      final.2.disk.readText "b" = some (outputText "@5\n") ∧
        (exitStatus final.1 = 0 ↔ ∃ ws, assemble "@5\n" = .ok ws) ∧
        (∀ strs, assembleToStrings "@5\n" = .ok strs →
          final.2.disk.readText "b" = some (String.join (strs.map (· ++ "\n")))) ∧
        ∀ e, assemble "@5\n" = .error e → exitStatus final.1 = (e.error.code % 256).toNat := by
  -- a one-letter path names the entry of that name in the working directory
  have hsplit : ∀ s ∈ ["a", "b"], s.splitOn "/" = [s] := by
    simp only [List.mem_cons, List.not_mem_nil, or_false]
    rintro s (rfl | rfl) <;>
      rw [String.splitOn, if_neg (by decide), String.splitOnAux.eq_1, if_neg (by decide),
        if_neg (by decide), String.splitOnAux.eq_1, if_pos (by decide)] <;> decide
  have hargs : readArguments ["a", "-o", "b"] = .assemble { input := "a", output := some "b" } := by
    decide +kernel
  have hread : (({} : Disk).set ["a"] (.file (.text "@5\n"))).readText "a" = some "@5\n" := by
    simp [Disk.readText, Disk.locate, Disk.startOf, hsplit "a" (by simp), Disk.walk, Disk.get?,
      Disk.set, Disk.isDirectory]
  have hout : (({} : Disk).set ["a"] (.file (.text "@5\n"))).Creatable
      ({ input := "a", output := some "b" } : Invocation).outputPath := by
    refine ⟨["b"], ?_, by decide, fun kind => by simp [Disk.set, Disk.get?, List.lookup_cons]⟩
    simp [Invocation.outputPath, Disk.locate, Disk.startOf, hsplit "b" (by simp), Disk.walk,
      Disk.isDirectory]
  exact ⟨hargs, rfl, hread, hout, run_commits_assembly "" hargs rfl hread hout⟩

end HackAsm.Cli
