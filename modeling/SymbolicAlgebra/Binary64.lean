/-!
# Doubles as exact numbers

A finite double is `(-1)^s * m * 2^q`. `parts` reads `s`, `m` and `q` off its bits, and `ofRatio`
goes the other way: it rounds any quotient of naturals to the nearest double, a tie to the even
mantissa, so integers, rationals and decimal texts are all rounded once. `same` is the equality
under which every NaN is one value and the two zeros are one value; it is an equivalence, being
equality of `key`.
-/

namespace SymbolicAlgebra.Binary64

structure Parts where
  negative : Bool
  mantissa : Nat
  exponent : Int

def signWeight : Nat := Nat.pow 2 63
def fractionWeight : Nat := Nat.pow 2 52
def infinityBits : Nat := 2047 * fractionWeight

def minExponent : Int := -1074

/-- Meaningful for finite doubles; the others read as numbers beyond the largest finite one. -/
def parts (x : Float) : Parts :=
  let bits := x.toBits.toNat
  let fraction := bits % fractionWeight
  let biased := bits / fractionWeight % 2048
  { negative := signWeight ≤ bits
    mantissa := if biased = 0 then fraction else fractionWeight + fraction
    exponent := if biased = 0 then minExponent else minExponent + biased - 1 }

/-- `n / d` to the nearest natural, a half to the even neighbour. -/
def roundHalfEven (n d : Nat) : Nat :=
  let q := n / d
  let r := n % d
  if d < 2 * r ∨ (d = 2 * r ∧ q % 2 = 1) then q + 1 else q

def roundScaled (n d : Nat) (e : Int) : Nat :=
  roundHalfEven (n * Nat.pow 2 (-e).toNat) (d * Nat.pow 2 e.toNat)

def ratioBelow (n d : Nat) (e : Int) : Bool :=
  n * Nat.pow 2 (-e).toNat < d * Nat.pow 2 e.toNat

/-- The exponent at which `n / d` has a mantissa of 53 bits, or the least one. -/
def unitExponent (n d : Nat) : Int :=
  let e : Int := (n.log2 : Int) - d.log2 - 53
  let e := if ratioBelow n d (e + 53) then e else e + 1
  if e < minExponent then minExponent else e

/-- The double nearest to `n / d` with the given sign. A mantissa that rounds up to `2^53` carries
into the exponent field, and from there into infinity. -/
def ofRatio (negative : Bool) (n d : Nat) : Float :=
  let sign := if negative then signWeight else 0
  if n = 0 then Float.ofBits sign.toUInt64
  else
    let e := unitExponent n d
    let bits := (e - minExponent).toNat * fractionWeight + roundScaled n d e
    Float.ofBits (sign + if infinityBits ≤ bits then infinityBits else bits).toUInt64

def ofInt (n : Int) : Float := ofRatio (n < 0) n.natAbs 1

def ofRat (q : Rat) : Float := ofRatio (q.num < 0) q.num.natAbs q.den

def nan : Float := Float.ofBits 0x7FF8000000000000
def infinity : Float := Float.ofBits 0x7FF0000000000000
def pi : Float := Float.ofBits 0x400921FB54442D18
def euler : Float := Float.ofBits 0x4005BF0A8B145769

/-- One key for all NaNs, one for both zeros, the bits of any other double. -/
def key (x : Float) : UInt64 :=
  if x.isNaN then 0x7FF8000000000000 else if x == 0 then 0 else x.toBits

def same (x y : Float) : Bool := key x == key y

theorem same_iff {x y : Float} : same x y = true ↔ key x = key y := beq_iff_eq

def isNegative (x : Float) : Bool := (parts x).negative

/-- Whether a finite double is an integer; NaN and the infinities are not. -/
def isIntegral (x : Float) : Bool :=
  let p := parts x
  x.isFinite && (p.mantissa = 0 || p.mantissa % Nat.pow 2 (-p.exponent).toNat = 0)

def isOdd (x : Float) : Bool := isIntegral x && !isIntegral (x / 2)

/-- A power of one of the zeros; an odd exponent keeps its sign. -/
def zeroPow (zero y : Float) : Float :=
  if y == 0 then 1
  else if 0 < y then if isOdd y then zero else 0
  else if y < 0 then if isOdd y then 1 / zero else infinity
  else nan

def pow (x y : Float) : Float := if x == 0 then zeroPow x y else x.pow y

end SymbolicAlgebra.Binary64
