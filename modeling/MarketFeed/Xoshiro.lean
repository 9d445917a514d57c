/-!
# The random generator

`Xoshiro256pp` of `include/server/tick_generator.h` and `src/server/tick_generator.cpp`: the SplitMix64 seeding, `next`, `jump`, and
the loop at the start of `box_muller`. A `double` of `uniform01` is its mantissa, of which it is the multiple by `2 ^ (-53)`.
-/

namespace MarketFeed

/-- `Xoshiro256pp`: `s_`. -/
@[ext]
structure Xoshiro256pp where
  s0 : UInt64
  s1 : UInt64
  s2 : UInt64
  s3 : UInt64
  deriving DecidableEq, Repr

namespace Xoshiro256pp

/-! ## Seeding -/

/-- `z ^ (z >> k)`. -/
def xorShift (z k : UInt64) : UInt64 := z ^^^ z >>> k

/-- What `splitmix` makes of its counter. -/
def mix (x : UInt64) : UInt64 :=
  let z := x
  let z := xorShift z 30 * 0xbf58476d1ce4e5b9
  let z := xorShift z 27 * 0x94d049bb133111eb
  xorShift z 31

/-- `splitmix`: the counter after it, and the value it returns. -/
def splitmix (x : UInt64) : UInt64 × UInt64 :=
  let x := x + 0x9e3779b97f4a7c15
  (x, mix x)

/-- The constructor. -/
def ofSeed (seed : UInt64) : Xoshiro256pp :=
  let (seed, s0) := splitmix seed
  let (seed, s1) := splitmix seed
  let (seed, s2) := splitmix seed
  let (_, s3) := splitmix seed
  { s0, s1, s2, s3 }

/-- All bits of the state are zero. -/
def zero : Xoshiro256pp := { s0 := 0, s1 := 0, s2 := 0, s3 := 0 }

/-! ## Drawing -/

/-- `rotl`. -/
def rotl (x : UInt64) (k : Nat) : UInt64 := x <<< UInt64.ofNat k ||| x >>> UInt64.ofNat (64 - k)

/-- `next`: the value it returns, and the generator after it. -/
def next (g : Xoshiro256pp) : UInt64 × Xoshiro256pp :=
  let { s0, s1, s2, s3 } := g
  let result := rotl (s0 + s3) 23 + s0
  let t := s1 <<< 17
  let s2 := s2 ^^^ s0
  let s3 := s3 ^^^ s1
  let s1 := s1 ^^^ s2
  let s0 := s0 ^^^ s3
  let s2 := s2 ^^^ t
  let s3 := rotl s3 45
  (result, { s0, s1, s2, s3 })

/-- The generator after `next`. -/
def advance (g : Xoshiro256pp) : Xoshiro256pp := g.next.2

/-- `uniform01`, by its mantissa. -/
def uniform01 (g : Xoshiro256pp) : UInt64 × Xoshiro256pp :=
  let (result, g) := g.next
  (result >>> 11, g)

/-- Whether the loop of `box_muller` draws `u1` again: `u1` is at most `1e-300`, which of the multiples of `2 ^ (-53)` only zero is. -/
def rejected (mantissa : UInt64) : Bool := mantissa == 0

/-- `do { u1 = rng.uniform01(); } while (u1 <= 1e-300);` with at most `fuel` draws: the mantissa of `u1`. -/
def drawU1 : Nat → Xoshiro256pp → Option (UInt64 × Xoshiro256pp)
  | 0, _ => none
  | fuel + 1, g =>
    let (u1, g) := g.uniform01
    if rejected u1 then drawU1 fuel g else some (u1, g)

/-! ## Jumping -/

/-- `JUMP`. -/
def jumpTable : List UInt64 := [0x180ec6d33cfd0aba, 0xd5a61266f0c9392c, 0xa9582618e03fc9aa, 0x39abdc4529b1661c]

/-- Word by word. -/
def xor (g g' : Xoshiro256pp) : Xoshiro256pp :=
  { s0 := g.s0 ^^^ g'.s0, s1 := g.s1 ^^^ g'.s1, s2 := g.s2 ^^^ g'.s2, s3 := g.s3 ^^^ g'.s3 }

/-- The body of the loops of `jump`, on the accumulators and the generator. -/
def jumpBit (word : UInt64) (p : Xoshiro256pp × Xoshiro256pp) (b : Nat) : Xoshiro256pp × Xoshiro256pp :=
  let (acc, g) := p
  let acc := if word &&& 1 <<< UInt64.ofNat b ≠ 0 then acc.xor g else acc
  (acc, g.advance)

/-- The inner loop. -/
def jumpWord (p : Xoshiro256pp × Xoshiro256pp) (word : UInt64) : Xoshiro256pp × Xoshiro256pp :=
  (List.range 64).foldl (jumpBit word) p

/-- `jump`. -/
def jump (g : Xoshiro256pp) : Xoshiro256pp := (jumpTable.foldl jumpWord (zero, g)).1

end Xoshiro256pp

end MarketFeed
