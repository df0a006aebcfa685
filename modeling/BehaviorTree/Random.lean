/-!
# Reproducible randomness

A generator of 64-bit words whose state steps by a fixed odd constant and whose output is a
mixture of the state, together with what is drawn from it: words, numbers below a bound, unit
fractions and shuffles. Seeds of separate streams are derived from one seed and a name.
-/

namespace BehaviorTree

/-- Mixes the bits of a word. -/
def mix64 (x : UInt64) : UInt64 :=
  let x := (x ^^^ (x >>> 30)) * 0xBF58476D1CE4E5B9
  let x := (x ^^^ (x >>> 27)) * 0x94D049BB133111EB
  x ^^^ (x >>> 31)

/-- The constant by which the state of a generator steps. -/
def stride : UInt64 := 0x9E3779B97F4A7C15

/-- The seed of a stream under a common seed. -/
def deriveSeed (seed stream : UInt64) : UInt64 := mix64 (seed ^^^ mix64 (stream + stride))

/-- The stream that a name stands for: a hash of its bytes. -/
def streamOf (name : String) : UInt64 :=
  name.toUTF8.toList.foldl (fun hash byte => (hash ^^^ byte.toUInt64) * 0x100000001B3)
    0xCBF29CE484222325

/-- A generator, given by its state. -/
structure Generator where
  state : UInt64
deriving DecidableEq, Inhabited

namespace Generator

/-- The generator after one draw. -/
def advance (g : Generator) : Generator := ⟨g.state + stride⟩

/-- Draws a 64-bit word: the state steps, and its bits are mixed. -/
def nextWord (g : Generator) : UInt64 × Generator :=
  let g := g.advance
  let z := (g.state ^^^ (g.state >>> 30)) * 0xBF58476D1CE4E5B9
  let z := (z ^^^ (z >>> 27)) * 0x94D049BB133111EB
  (z ^^^ (z >>> 31), g)

theorem nextWord_eq (g : Generator) : g.nextWord = (mix64 g.advance.state, g.advance) := rfl

/-- Draws a 32-bit word: the lower half of a 64-bit one. -/
def nextHalf (g : Generator) : UInt32 × Generator :=
  let (word, g) := g.nextWord
  (word.toUInt32, g)

/-- Where a 32-bit draw falls when the range of draws is cut into `bound` even parts: the upper half
of a 64-bit product. For bounds above `2 ^ 32 + 1` the product can wrap, where a checked product
would break off the draw. -/
def scaleBelow (bound : Nat) (draw : UInt32) : Nat :=
  ((draw.toUInt64 * .ofNat bound) >>> 32).toNat

/-- Draws a number below a bound; nothing is drawn for the bound zero. -/
def nextBelow (bound : Nat) (g : Generator) : Nat × Generator :=
  if bound = 0 then (0, g)
  else
    let (half, g) := g.nextHalf
    (scaleBelow bound half, g)

/-- Draws a fraction from zero up to below one, a multiple of `2 ^ -24`. -/
def nextUnit (g : Generator) : Float32 × Generator :=
  let (half, g) := g.nextHalf
  ((half >>> 8).toFloat32 / 16777216, g)

def swap {α : Type} (order : List α) (i j : Nat) : List α :=
  match order[i]?, order[j]? with
  | some a, some b => (order.set i b).set j a
  | _, _ => order

/-- Exchanges positions `i`, `i - 1`, down to 1 each with a drawn position not above it. -/
def shuffleFrom : Nat → List Nat → Generator → List Nat × Generator
  | 0, order, g => (order, g)
  | i + 1, order, g =>
    let (j, g) := nextBelow (i + 2) g
    shuffleFrom i (swap order (i + 1) j) g

/-- Draws an order of the numbers below `n`. -/
def shuffle (n : Nat) (g : Generator) : List Nat × Generator :=
  shuffleFrom (n - 1) (List.range n) g

end Generator

end BehaviorTree
