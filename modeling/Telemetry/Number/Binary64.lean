/-!
IEEE 754 double precision as words. A finite double is `significand * 2 ^ unit` with a sign;
everything here is exact arithmetic on naturals followed by one rounding to nearest,
ties to even. Equality and order are those of the standard: the two zeros are equal and
NaN is neither equal to nor ordered with anything.
-/

namespace Telemetry

/-- A double-precision number, given by its 64 bits. -/
structure Binary64 where
  bits : UInt64

namespace Binary64

def word (x : Binary64) : Nat :=
  x.bits.toNat

def isNegative (x : Binary64) : Bool :=
  1 <<< 63 ≤ x.word

/-- The word without its sign bit; it grows with the magnitude. -/
def magnitude (x : Binary64) : Nat :=
  x.word % 1 <<< 63

def exponentField (x : Binary64) : Nat :=
  x.magnitude >>> 52

def fraction (x : Binary64) : Nat :=
  x.magnitude % 1 <<< 52

def isFinite (x : Binary64) : Bool :=
  x.exponentField < 2047

def isNaN (x : Binary64) : Bool :=
  2047 <<< 52 < x.magnitude

def isZero (x : Binary64) : Bool :=
  x.magnitude = 0

/-- The integer significand of a finite number. -/
def significand (x : Binary64) : Nat :=
  if x.exponentField = 0 then x.fraction else 1 <<< 52 + x.fraction

def unit (x : Binary64) : Int :=
  (max x.exponentField 1 : Nat) - 1075

/-- The place of a number on the line, the two zeros at 0. -/
def rank (x : Binary64) : Int :=
  if x.isNegative then -(x.magnitude : Int) else x.magnitude

def equal (x y : Binary64) : Bool :=
  !x.isNaN && !y.isNaN && x.rank == y.rank

instance : BEq Binary64 := ⟨equal⟩

/-- Numeric order; false when either side is NaN. -/
def less (x y : Binary64) : Bool :=
  !x.isNaN && !y.isNaN && x.rank < y.rank

def ofMagnitude (negative : Bool) (magnitude : Nat) : Binary64 :=
  ⟨UInt64.ofNat (if negative then 1 <<< 63 + magnitude else magnitude)⟩

def zero (negative : Bool) : Binary64 :=
  ofMagnitude negative 0

def infinity (negative : Bool) : Binary64 :=
  ofMagnitude negative (2047 <<< 52)

def nan : Binary64 :=
  ofMagnitude false (2047 <<< 52 + 1 <<< 51)

def neg (x : Binary64) : Binary64 :=
  ofMagnitude (!x.isNegative) x.magnitude

/-- `num / den` rounded to the nearest natural number, a half going to the even one. -/
def divNearestEven (num den : Nat) : Nat :=
  let q := num / den
  let r := num % den
  if 2 * r < den then q
  else if den < 2 * r then q + 1
  else if q % 2 = 0 then q else q + 1

def scaled (num den : Nat) (e : Int) : Nat × Nat :=
  if e < 0 then (num <<< (-e).toNat, den) else (num, den <<< e.toNat)

def unitFor (num den : Nat) : Int :=
  let e : Int := (num.log2 : Int) - den.log2 - 53
  let (n, d) := scaled num den e
  max (if n / d < 1 <<< 53 then e else e + 1) (-1074)

/-- The double nearest to `num / den`, ties to even, infinity when it is out of range. -/
def ofRatio (negative : Bool) (num den : Nat) : Binary64 :=
  if num = 0 then zero negative
  else
    let e := unitFor num den
    let (n, d) := scaled num den e
    let q := divNearestEven n d
    ofMagnitude negative (min ((e + 1074).toNat <<< 52 + q) (2047 <<< 52))

def ofNat (n : Nat) : Binary64 :=
  ofRatio false n 1

def ofInt (i : Int) : Binary64 :=
  ofRatio (i < 0) i.natAbs 1

def ratio (x : Binary64) : Nat × Nat :=
  if x.unit < 0 then (x.significand, 1 <<< (-x.unit).toNat) else (x.significand <<< x.unit.toNat, 1)

def mul (x y : Binary64) : Binary64 :=
  ofRatio (x.isNegative != y.isNegative) (x.ratio.1 * y.ratio.1) (x.ratio.2 * y.ratio.2)

def div (x y : Binary64) : Binary64 :=
  ofRatio (x.isNegative != y.isNegative) (x.ratio.1 * y.ratio.2) (x.ratio.2 * y.ratio.1)

/-- The double nearest to `digits * 10 ^ exponent`. Exponents that lie beyond every double
are settled without forming the power. -/
def ofDecimal (negative : Bool) (digits : Nat) (exponent : Int) : Binary64 :=
  if digits = 0 then zero negative
  else if 310 < exponent then infinity negative
  else if exponent + ((digits.log2 : Int) + 1) < -1080 then zero negative
  else if exponent < 0 then ofRatio negative digits (Nat.pow 10 (-exponent).toNat)
  else ofRatio negative (digits * Nat.pow 10 exponent.toNat) 1

def powerOfTen (n : Nat) : Binary64 :=
  ofNat (Nat.pow 10 n)

/-- The integer nearest to a finite number, a half going away from zero. -/
def roundHalfAway (x : Binary64) : Int :=
  let (n, d) := x.ratio
  let q : Int := ((2 * n + d) / (2 * d) : Nat)
  if x.isNegative then -q else q

end Binary64

/-- A single-precision number, given by its 32 bits. -/
structure Binary32 where
  bits : UInt32

namespace Binary32

def word (x : Binary32) : Nat :=
  x.bits.toNat

def isNegative (x : Binary32) : Bool :=
  1 <<< 31 ≤ x.word

def exponentField (x : Binary32) : Nat :=
  (x.word % 1 <<< 31) >>> 23

def fraction (x : Binary32) : Nat :=
  x.word % 1 <<< 23

/-- The same value in double precision. Infinities keep their sign and a NaN its fraction,
made quiet. -/
def toBinary64 (x : Binary32) : Binary64 :=
  if x.exponentField = 255 then
    if x.fraction = 0 then Binary64.infinity x.isNegative
    else Binary64.ofMagnitude x.isNegative
      (2047 <<< 52 + x.fraction <<< 29 % 1 <<< 51 + 1 <<< 51)
  else if x.exponentField = 0 then Binary64.ofRatio x.isNegative x.fraction (1 <<< 149)
  else Binary64.ofRatio x.isNegative ((1 <<< 23 + x.fraction) <<< x.exponentField) (1 <<< 150)

end Binary32

end Telemetry
