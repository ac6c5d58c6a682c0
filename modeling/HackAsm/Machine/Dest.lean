/-!
# Destinations

A compute instruction stores its result into any subset of the registers A and D and the memory
word M. The subset is three bits, `A D M` from high to low, and it is spelled by the registers'
letters in that fixed order (`AMD`, never `MDA`); the empty subset is spelled by nothing.
`parse?_spelling` says that each spelling reads back as its subset.
-/

set_option autoImplicit false

namespace HackAsm

/-- Where a compute instruction stores its result. -/
inductive Dest where
  | null
  | m
  | d
  | md
  | a
  | am
  | ad
  | amd
  deriving DecidableEq, Repr, Inhabited

namespace Dest

/-- Every destination, by code. -/
def all : List Dest :=
  [null, m, d, md, a, am, ad, amd]

/-- The letters of the stored registers in the order `A`, `M`, `D` of the manual's table. -/
def spelling : Dest → String
  | null => ""
  | m => "M"
  | d => "D"
  | md => "MD"
  | a => "A"
  | am => "AM"
  | ad => "AD"
  | amd => "AMD"

/-- The three destination bits `A D M`. -/
def code : Dest → Nat
  | null => 0
  | m => 1
  | d => 2
  | md => 3
  | a => 4
  | am => 5
  | ad => 6
  | amd => 7

/-- The destination spelled exactly `s`. -/
def parse? (s : String) : Option Dest :=
  all.find? fun x => x.spelling == s

theorem code_lt (x : Dest) : x.code < 8 := by
  cases x <;> decide

theorem code_injective {x y : Dest} (h : x.code = y.code) : x = y := by
  cases x <;> cases y <;> simp_all [code]

theorem parse?_spelling (x : Dest) : parse? x.spelling = some x := by
  cases x <;> decide

end Dest

end HackAsm
