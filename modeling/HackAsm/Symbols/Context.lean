import HackAsm.Error
import HackAsm.Symbols.Table

/-!
# The symbol context

While instructions are encoded, a symbol means, in order of precedence, a predefined address,
a label's address, or a variable's. A symbol that means nothing yet becomes a variable at the
next free RAM address, counting up from 16; when the fifteen-bit addresses run out it is an
error and nothing changes. So a name, once it means an address, keeps meaning it. The three
cases of `resolve` are its lemmas: a bound name (`resolve_of_lookup_eq_some`), a fresh name with
an address left (`resolve_of_lookup_eq_none`), and a fresh name with none (`resolve_of_addressMax_lt`).
-/

set_option autoImplicit false

namespace HackAsm

/-- The symbols of one assembly run: its labels, the variables allocated so far, and the next
free RAM address. -/
structure Context where
  labels : Table
  vars : Table
  next : Nat

namespace Context

/-- The context before any variable is allocated. -/
def ofLabels (labels : Table) : Context :=
  { labels, vars := Table.empty, next := variableBase }

/-- What a symbol means now: predefined, then label, then variable. -/
def lookup (ctx : Context) (name : String) : Option Address :=
  (Symbol.predefined? name).orElse fun _ =>
    (ctx.labels.get? name).orElse fun _ => ctx.vars.get? name

/-- What a symbol means, allocating it as the next variable if it means nothing yet, with the
context after. When no address is left the context is returned as it was. -/
def resolve (ctx : Context) (name : String) : Except Error Address × Context :=
  match ctx.lookup name with
  | some v => (.ok v, ctx)
  | none =>
    if h : ctx.next ≤ addressMax then
      let v : Address := ⟨ctx.next, by unfold addressMax at h; omega⟩
      (.ok v, { ctx with vars := ctx.vars.insert name v, next := ctx.next + 1 })
    else
      (.error (.addressOutOfRange name), ctx)

theorem resolve_of_lookup_eq_some (ctx : Context) (name : String) (v : Address)
    (h : ctx.lookup name = some v) : ctx.resolve name = (.ok v, ctx) := by
  simp [resolve, h]

theorem resolve_of_lookup_eq_none (ctx : Context) (name : String) (h : ctx.lookup name = none)
    (hfree : ctx.next ≤ addressMax) :
    ctx.resolve name = (.ok ⟨ctx.next, by unfold addressMax at hfree; omega⟩,
      { ctx with vars := ctx.vars.insert name ⟨ctx.next, by unfold addressMax at hfree; omega⟩,
                 next := ctx.next + 1 }) := by
  simp [resolve, h, hfree]

theorem resolve_of_addressMax_lt (ctx : Context) (name : String) (h : ctx.lookup name = none)
    (hfull : addressMax < ctx.next) :
    ctx.resolve name = (.error (.addressOutOfRange name), ctx) := by
  have : ¬ctx.next ≤ addressMax := by omega
  simp [resolve, h, this]

end Context

/-- Every bound symbol, by kind, each kind in binding order. -/
structure SymbolTable where
  predefined : List (String × Address)
  labels : List (String × Address)
  vars : List (String × Address)

/-- The symbols a context binds. -/
def Context.symbols (ctx : Context) : SymbolTable :=
  { predefined := Symbol.predefined, labels := ctx.labels.toList,
    vars := ctx.vars.toList }

end HackAsm
