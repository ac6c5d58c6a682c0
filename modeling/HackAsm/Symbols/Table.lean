import Std.Data.HashMap
import HackAsm.Machine.Symbol

/-!
# Tables of bindings

Labels and variables are kept in tables that remember the order in which names were bound,
since the symbol table is written out in that order, and that answer a look-up without walking
the whole table. A `Table` holds both: the bindings in order and a hash index over them, with a
proof that the index answers as the first binding of a name does (`index_eq`).

A name is bound at most once: `insert` leaves a bound name as it is. So the bindings in order
are the one view of a table: `get?_eq_lookup` reads a look-up off them, `toList_insert` says that
binding a new name appends it, and `get?_insert` that it changes the answer for that name alone.
-/

set_option autoImplicit false

namespace HackAsm

/-- A binding appended after a list that does not bind its name answers for that name alone. -/
theorem lookup_append_of_lookup_eq_none (l : List (String × Address)) (name key : String)
    (value : Address) (h : l.lookup name = none) :
    (l ++ [(name, value)]).lookup key = if name == key then some value else l.lookup key := by
  rw [List.lookup_append]
  by_cases hk : name = key
  · subst hk
    simp [h]
  · have hb : (key == name) = false := beq_false_of_ne fun e => hk e.symm
    simp [List.lookup_cons, hb, hk]

/-- Names bound to addresses, in binding order, with an index for look-up. -/
structure Table where
  entries : Array (String × Address)
  index : Std.HashMap String Address
  /-- The index answers as the first binding of a name. -/
  index_eq : ∀ name, index[name]? = entries.toList.lookup name

namespace Table

/-- The table with no bindings. -/
def empty : Table :=
  ⟨#[], {}, by simp⟩

/-- The address bound to `name`. -/
def get? (t : Table) (name : String) : Option Address :=
  t.index[name]?

/-- Whether `name` is bound. -/
def contains (t : Table) (name : String) : Bool :=
  (t.get? name).isSome

/-- The bindings in the order they were made. -/
def toList (t : Table) : List (String × Address) :=
  t.entries.toList

/-- The number of bindings. -/
def size (t : Table) : Nat :=
  t.entries.size

theorem get?_eq_lookup (t : Table) (name : String) : t.get? name = t.toList.lookup name :=
  t.index_eq name

/-- Binds `name` after every earlier binding; a name already bound keeps its binding. -/
def insert (t : Table) (name : String) (value : Address) : Table :=
  match h : t.get? name with
  | some _ => t
  | none =>
    ⟨t.entries.push (name, value), t.index.insert name value, fun key => by
      rw [Std.HashMap.getElem?_insert, Array.toList_push,
        lookup_append_of_lookup_eq_none _ _ _ _ (by rw [← t.index_eq]; exact h), t.index_eq]⟩

@[simp]
theorem toList_empty : empty.toList = [] :=
  rfl

@[simp]
theorem get?_empty (key : String) : empty.get? key = none := by
  simp [get?_eq_lookup]

theorem toList_insert (t : Table) (name : String) (value : Address) (h : t.get? name = none) :
    (t.insert name value).toList = t.toList ++ [(name, value)] := by
  unfold insert
  split
  · simp_all
  · simp [toList]

theorem get?_insert (t : Table) (name key : String) (value : Address) (h : t.get? name = none) :
    (t.insert name value).get? key = if name == key then some value else t.get? key := by
  rw [get?_eq_lookup, toList_insert t name value h, get?_eq_lookup]
  exact lookup_append_of_lookup_eq_none _ _ _ _ (by rw [← get?_eq_lookup]; exact h)

theorem insert_of_get?_eq_some (t : Table) (name : String) (value v : Address)
    (h : t.get? name = some v) : t.insert name value = t := by
  unfold insert
  split
  · rfl
  · simp_all

theorem size_eq_length (t : Table) : t.size = t.toList.length := by
  simp [size, toList]

end Table

end HackAsm
