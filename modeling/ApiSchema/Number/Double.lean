/-!
Binary floating point numbers of double precision as exact values: a finite number is a sign, a
whole significand below 2^53 and a power of two. Every operation computes the exact rational result
and rounds it once, to the nearest representable number and to the even one in a tie.
-/
namespace ApiSchema

/-- A double precision number. A finite one is `significand * 2 ^ exponent`, up to its sign. -/
inductive Double where
  | finite (negative : Bool) (significand : Nat) (exponent : Int)
  | infinite (negative : Bool)
  | nan
deriving DecidableEq, Repr, Inhabited

namespace Double

/-- The quotient rounded to the nearest whole number, a tie to the even one. -/
def roundDiv (num den : Nat) : Nat :=
  let q := num / den
  let r := num % den
  if den < 2 * r || (2 * r == den && q % 2 == 1) then q + 1 else q

def minExponent : Int := -1074

def maxExponent : Int := 971

def zero (negative : Bool) : Double := .finite negative 0 minExponent

/-- The fraction `num / den` in units of `2 ^ e`, as a fraction of whole numbers. -/
def inUnits (num den : Nat) (e : Int) : Nat × Nat :=
  if 0 ≤ e then (num, den * Nat.pow 2 e.toNat) else (num * Nat.pow 2 (-e).toNat, den)

/-- The exponent that gives the fraction a significand of 53 bits, or the least exponent. -/
def exponentFor (num den : Nat) : Int :=
  let e := max minExponent ((num.log2 : Int) - den.log2 - 53)
  let (n, d) := inUnits num den e
  if n / d < Nat.pow 2 53 then e else e + 1

def ofRatio (negative : Bool) (num den : Nat) : Double :=
  if num == 0 then zero negative
  else
    let e := exponentFor num den
    let (n, d) := inUnits num den e
    let m := roundDiv n d
    let (m, e) := if m == Nat.pow 2 53 then (Nat.pow 2 52, e + 1) else (m, e)
    if maxExponent < e then .infinite negative else .finite negative m e

def magnitude (significand : Nat) (exponent : Int) : Nat × Nat :=
  if 0 ≤ exponent then (significand * Nat.pow 2 exponent.toNat, 1)
  else (significand, Nat.pow 2 (-exponent).toNat)

/-- A fraction with its sign in the numerator. -/
structure Ratio where
  num : Int
  den : Nat

def ratio (negative : Bool) (significand : Nat) (exponent : Int) : Ratio :=
  let (n, d) := magnitude significand exponent
  ⟨if negative then -(n : Int) else n, d⟩

/-- The number nearest to a whole number; none when that is beyond the range. -/
def ofInt? (n : Int) : Option Double :=
  match ofRatio (n < 0) n.natAbs 1 with
  | .infinite _ => none
  | x => some x

def negate : Double → Double
  | .finite s m e => .finite (!s) m e
  | .infinite s => .infinite (!s)
  | .nan => .nan

def isNegative : Double → Bool
  | .finite s _ _ | .infinite s => s
  | .nan => false

def isZero : Double → Bool
  | .finite _ m _ => m == 0
  | _ => false

/-- The sum. Two zeros of opposite signs, and two opposite numbers, give the positive zero. -/
def add : Double → Double → Double
  | .nan, _ | _, .nan => .nan
  | .infinite s, .infinite t => if s == t then .infinite s else .nan
  | .infinite s, _ => .infinite s
  | _, .infinite t => .infinite t
  | .finite s m e, .finite t n f =>
    if m == 0 && n == 0 then zero (s && t)
    else
      let a := ratio s m e
      let b := ratio t n f
      let sum := a.num * b.den + b.num * a.den
      ofRatio (sum < 0) sum.natAbs (a.den * b.den)

def half : Double → Double
  | .finite s m e =>
    let (n, d) := magnitude m e
    ofRatio s n (d * 2)
  | x => x

/-- The number rounded to a count of decimal places, a tie to the even digit. -/
def roundPlaces (places : Nat) : Double → Double
  | .finite s m e =>
    let (n, d) := magnitude m e
    ofRatio s (roundDiv (n * Nat.pow 10 places) d) (Nat.pow 10 places)
  | x => x

inductive WholeError where
  | infinite
  | notANumber
deriving DecidableEq, Repr

private def signedNat (negative : Bool) (n : Nat) : Int := if negative then -(n : Int) else n

def round : Double → Except WholeError Int
  | .finite s m e =>
    let (n, d) := magnitude m e
    .ok (signedNat s (roundDiv n d))
  | .infinite _ => .error .infinite
  | .nan => .error .notANumber

def truncate : Double → Except WholeError Int
  | .finite s m e =>
    let (n, d) := magnitude m e
    .ok (signedNat s (n / d))
  | .infinite _ => .error .infinite
  | .nan => .error .notANumber

def toInt? : Double → Option Int
  | .finite s m e =>
    let (n, d) := magnitude m e
    if n % d == 0 then some (signedNat s (n / d)) else none
  | _ => none

/-- Equality as numbers: the two zeros are equal, and a NaN equals nothing. -/
def same : Double → Double → Bool
  | .finite s m e, .finite t n f =>
    let a := ratio s m e
    let b := ratio t n f
    a.num * b.den == b.num * a.den
  | .infinite s, .infinite t => s == t
  | _, _ => false

def sameInt (x : Double) (n : Int) : Bool := x.toInt? == some n

/-- Whether a number lies below another; nothing lies below or above a NaN. -/
def less : Double → Double → Bool
  | .nan, _ | _, .nan => false
  | .infinite s, .infinite t => s && !t
  | .infinite s, _ => s
  | _, .infinite t => !t
  | .finite s m e, .finite t n f =>
    let a := ratio s m e
    let b := ratio t n f
    a.num * b.den < b.num * a.den

def belowInt (x : Double) (n : Int) : Bool :=
  match x with
  | .finite s m e =>
    let a := ratio s m e
    a.num < n * a.den
  | .infinite s => s
  | .nan => false

def aboveInt (x : Double) (n : Int) : Bool :=
  match x with
  | .finite s m e =>
    let a := ratio s m e
    n * a.den < a.num
  | .infinite s => !s
  | .nan => false

end Double
end ApiSchema
