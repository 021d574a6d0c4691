import Telemetry.Number.Binary64

/-!
Decimal text of double-precision numbers. Writing takes the fewest digits that read back as the
same number, nearest to it among those, and lays them out by a `Layout`. Reading accepts
plain and scientific notation and rounds correctly.
-/

namespace Telemetry

/-- The number `digits * 10 ^ exponent`. -/
structure Decimal where
  digits : Nat
  exponent : Int
deriving DecidableEq, Repr

namespace Decimal

def gridFactors (a k : Int) : Nat × Nat :=
  (Nat.pow 10 (-k).toNat <<< a.toNat, Nat.pow 10 k.toNat <<< (-a).toNat)

/-- A multiple of `10 ^ k` that reads back as the finite positive `x`: of the two multiples
next to `x` the nearer one that does, and of two equally near ones the larger if `tieUp`, else the
even one. -/
def onGrid? (tieUp : Bool) (x : Binary64) (k : Int) : Option Nat :=
  let m := x.significand
  let (p, q) := gridFactors (x.unit - 2) k
  let below := if x.fraction = 0 ∧ 1 < x.exponentField then 1 else 2
  let value := 4 * m * p
  let inside (c : Nat) : Bool :=
    if m % 2 = 0 then (4 * m - below) * p ≤ c * q && c * q ≤ (4 * m + 2) * p
    else (4 * m - below) * p < c * q && c * q < (4 * m + 2) * p
  let low := value / q
  let high := low + 1
  let towardHigh : Bool :=
    let dLow := value - low * q
    let dHigh := high * q - value
    dHigh < dLow || (dHigh == dLow && (tieUp || high % 2 = 0))
  match inside low, inside high with
  | true, true => some (if towardHigh then high else low)
  | true, false => some low
  | false, true => some high
  | false, false => none

def searchGrid (tieUp : Bool) (x : Binary64) : Nat → Int → Decimal
  | 0, k => ⟨0, k⟩
  | fuel + 1, k =>
    match onGrid? tieUp x k with
    | some c => ⟨c, k⟩
    | none => searchGrid tieUp x fuel (k - 1)

/-- The shortest decimal that reads back as the magnitude of a finite `x`. The search starts
above the magnitude; seventeen digits always suffice. -/
def shortest (tieUp : Bool) (x : Binary64) : Decimal :=
  if x.isZero then ⟨0, 0⟩
  else
    let bits : Int := x.significand.log2 + 1 + x.unit
    searchGrid tieUp x 24 (bits * 30103 / 100000 + 2)

end Decimal

structure Layout where
  /-- Of two equally near shortest decimals the larger one is written, else the even one. -/
  tieUp : Bool
  /-- Decimal exponents (of the leading digit) written without an exponent mark. -/
  isPositional : Int → Bool
  /-- What follows a whole number in positional notation. -/
  wholeMark : String
  infinityText : String
  nanText : String

namespace Layout

/-- Digits alone: never an exponent, no mark on whole numbers. -/
def plain : Layout where
  tieUp := true
  isPositional := fun _ => true
  wholeMark := ""
  infinityText := "inf"
  nanText := "NaN"

/-- JSON: positional from `1e-5` up to below `1e16`, whole numbers with `.0`. -/
def json : Layout where
  tieUp := false
  isPositional := fun e => -5 ≤ e && e < 16
  wholeMark := ".0"
  infinityText := "null"
  nanText := "null"

def positional (layout : Layout) (d : Decimal) : String :=
  let text := (toString d.digits).toList
  if 0 ≤ d.exponent then
    String.ofList (text ++ List.replicate d.exponent.toNat '0') ++ layout.wholeMark
  else
    let places := (-d.exponent).toNat
    let padded := List.replicate (places + 1 - text.length) '0' ++ text
    let cut := padded.length - places
    String.ofList (padded.take cut ++ '.' :: padded.drop cut)

def scientific (d : Decimal) : String :=
  let text := (toString d.digits).toList
  let e : Int := d.exponent + (text.length - 1 : Nat)
  let tail := text.drop 1
  String.ofList (text.take 1 ++ (if tail.isEmpty then [] else '.' :: tail))
    ++ (if e < 0 then "e-" else "e+") ++ toString e.natAbs

def render (layout : Layout) (x : Binary64) : String :=
  if x.isNaN then layout.nanText
  else
    let body :=
      if x.isFinite then
        let d := Decimal.shortest layout.tieUp x
        let e : Int := d.exponent + ((toString d.digits).length - 1 : Nat)
        if layout.isPositional e then layout.positional d else scientific d
      else layout.infinityText
    if x.isNegative then "-" ++ body else body

end Layout

namespace Decimal

def takeDigits (text : List Char) : Nat × Nat × List Char :=
  let digits := text.takeWhile (·.isDigit)
  (digits.foldl (fun n c => 10 * n + (c.toNat - '0'.toNat)) 0, digits.length,
    text.dropWhile (·.isDigit))

def takeSign (text : List Char) : Bool × List Char :=
  match text with
  | '-' :: rest => (true, rest)
  | '+' :: rest => (false, rest)
  | rest => (false, rest)

/-- Reads the exponent part, which must take up all of `text`; absent means 0. -/
def exponentPart? (text : List Char) : Option Int :=
  match text with
  | [] => some 0
  | c :: rest =>
    if c = 'e' ∨ c = 'E' then
      let (negative, rest) := takeSign rest
      let (n, count, rest) := takeDigits rest
      if count = 0 ∨ !rest.isEmpty then none
      else some (if negative then -(n : Int) else n)
    else none

/-- Reads an unsigned decimal: digits with an optional point among or beside them, and an
optional exponent. -/
def ofText? (text : List Char) : Option Decimal :=
  let (whole, wholeCount, rest) := takeDigits text
  let (fraction, places, rest) :=
    match rest with
    | '.' :: rest => takeDigits rest
    | rest => (0, 0, rest)
  if wholeCount + places = 0 then none
  else (exponentPart? rest).map fun e => ⟨whole * Nat.pow 10 places + fraction, e - places⟩

end Decimal

namespace Binary64

/-- Reads a signed decimal, `inf`, `infinity` or `nan` (in any case), rounding to nearest. -/
def ofText? (text : String) : Option Binary64 :=
  let (negative, body) := Decimal.takeSign text.toList
  match Decimal.ofText? body with
  | some d => some (ofDecimal negative d.digits d.exponent)
  | none =>
    let word := body.map (·.toLower)
    if word = "inf".toList ∨ word = "infinity".toList then some (infinity negative)
    else if word = "nan".toList then some (if negative then nan.neg else nan)
    else none

end Binary64

end Telemetry
