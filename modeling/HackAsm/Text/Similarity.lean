/-!
# Jaro similarity

The Jaro similarity of two words is `(m/|a| + m/|b| + (m - t)/m) / 3`, where `m` counts the
characters of `a` matched, in order, with equal characters of `b` no further than
`max(|a|, |b|) / 2 - 1` positions away (each character of `b` matched at most once, the first
free one in range), and `t` is half the number of places where the matched characters of `a`
and of `b`, read in order, differ. Two words with no match have similarity `0`.

The similarity is computed in double precision, each step rounded to the nearest double: the
three ratios, their sum from the left, and the division by three. Rounding decides the close
calls. `outms` against `output` has similarity `7/10` exactly, yet `(0.6 + 0.5 + 1) / 3` rounds to
a double above the one nearest `0.7`, so it passes a threshold of `0.7`. Likewise two words that
are equally similar as fractions may compare unequal as doubles.
-/

set_option autoImplicit false

namespace HackAsm.Text

/-- The first free position of `b` in `[lo, hi)` holding `x`. -/
def firstFree (x : Char) (b : List Char) (taken : Array Bool) (lo hi : Nat) : Option Nat :=
  (List.range' lo (hi - lo)).find? fun j => b[j]? == some x && !taken.getD j false

/-- Which characters of `a` and of `b` are matched. -/
def jaroFlags (a b : List Char) : List Bool × Array Bool :=
  let range := max a.length b.length / 2 - 1
  let step := fun (acc : List Bool × Array Bool) (p : Char × Nat) =>
    let (x, i) := p
    match firstFree x b acc.2 (i - range) (min b.length (i + range + 1)) with
    | some j => (acc.1 ++ [true], acc.2.setIfInBounds j true)
    | none => (acc.1 ++ [false], acc.2)
  a.zipIdx.foldl step ([], Array.replicate b.length false)

/-- The matched characters of a word, in order. -/
def matched (cs : List Char) (flags : List Bool) : List Char :=
  (cs.zip flags).filterMap fun (c, f) => if f then some c else none

/-- The number of matches and of transpositions. -/
def jaroCounts (a b : List Char) : Nat × Nat :=
  let (fa, fb) := jaroFlags a b
  let ma := matched a fa
  let mb := matched b fb.toList
  (ma.length, ((ma.zip mb).filter fun (x, y) => x != y).length / 2)

/-- The Jaro similarity of two words, in double precision. -/
def jaro (a b : List Char) : Float :=
  if a.isEmpty && b.isEmpty then 1
  else
    let (m, t) := jaroCounts a b
    if m = 0 then 0
    else (m.toFloat / a.length.toFloat + m.toFloat / b.length.toFloat +
      (m - t).toFloat / m.toFloat) / 3

/-- The least similarity that does not count as similar: the double nearest `0.7`, which is the
correctly rounded quotient `7 / 10`. -/
def similarityThreshold : Float :=
  7 / 10

/-- The candidate most similar to `word` among those with similarity above the threshold; of
equally similar ones, the last. -/
def mostSimilar (word : String) (candidates : List String) : Option String :=
  let scored := candidates.filterMap fun c =>
    let s := jaro word.toList c.toList
    if s > similarityThreshold then some (c, s) else none
  let best := scored.foldl (fun (acc : Option (String × Float)) (c, s) =>
    match acc with
    | some (_, t) => if s ≥ t then some (c, s) else acc
    | none => some (c, s)) none
  best.map Prod.fst

example : jaroCounts "outms".toList "output".toList = (3, 0) := by decide

end HackAsm.Text
