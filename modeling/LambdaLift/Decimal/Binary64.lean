/-
  LambdaLift.Decimal.Binary64
  **DOUBLE-PRECISION NUMBERS AND THEIR SHORTEST DECIMALS.**

  A decimal is read as the nearest number with 53 significant bits, an
  exact half going to the even neighbour.  It is written with the fewest
  digits that read back as the same number, and among those with the ones
  nearest to it; of two that are equally near, the larger is written.  All
  arithmetic is exact.
-/
namespace LambdaLift.Decimal

/-! ## §1. Reading. -/

/-- A number without a sign: `mantissa · 2 ^ exponent`. -/
structure Binary64 where
  mantissa : Nat
  exponent : Int
  deriving DecidableEq, Repr

/-- A fraction of natural numbers. -/
structure Ratio where
  num : Nat
  den : Nat

namespace Ratio

/-- `mantissa · base ^ exponent`. -/
def power (mantissa base : Nat) : (exponent : Int) → Ratio
  | .ofNat e => ⟨mantissa * base.pow e, 1⟩
  | .negSucc e => ⟨mantissa, base.pow (e + 1)⟩

/-- The quotient of two fractions. -/
def div (a b : Ratio) : Ratio := ⟨a.num * b.den, a.den * b.num⟩

/-- The integral part. -/
def floor (a : Ratio) : Nat := a.num / a.den

/-- The nearest integer; an exact half goes to the even one. -/
def roundHalfEven (a : Ratio) : Nat :=
  let q := a.num / a.den
  let twice := 2 * (a.num % a.den)
  if twice < a.den || (twice = a.den && q % 2 = 0) then q else q + 1

/-- The nearest integer; an exact half goes up. -/
def roundHalfUp (a : Ratio) : Nat :=
  let q := a.num / a.den
  if 2 * (a.num % a.den) < a.den then q else q + 1

/-- Whether one fraction is below another. -/
def lt (a b : Ratio) : Bool := a.num * b.den < b.num * a.den

/-- Whether one fraction is at most another. -/
def le (a b : Ratio) : Bool := a.num * b.den ≤ b.num * a.den

/-- The exponent of the leading bit of a positive fraction. -/
def leadingBit (a : Ratio) : Int :=
  let guess : Int := (Nat.log2 a.num : Int) - Nat.log2 a.den
  if (power 1 2 guess).le a then guess else guess - 1

end Ratio

namespace Binary64

/-- Zero. -/
def zero : Binary64 := ⟨0, 0⟩

/-- The least exponent of a bit. -/
def minExponent : Int := -1074

/-- The nearest number to a positive fraction; `none` beyond the largest one. -/
def ofRatio? (a : Ratio) : Option Binary64 :=
  let exponent := max (a.leadingBit - 52) minExponent
  let mantissa := (a.div (.power 1 2 exponent)).roundHalfEven
  -- rounding up may carry into one bit more
  let (mantissa, exponent) :=
    if mantissa = Nat.pow 2 53 then (Nat.pow 2 52, exponent + 1) else (mantissa, exponent)
  if exponent > 971 then none else some ⟨mantissa, exponent⟩

/-- The nearest number to `digits · 10 ^ exponent`; `none` beyond the largest one. -/
def ofDecimal? (digits : Nat) (exponent : Int) : Option Binary64 :=
  -- far out of range the answer is known without the power of ten
  let magnitude := (Nat.toDigits 10 digits).length + exponent
  if digits = 0 || magnitude < -400 then some zero
  else if magnitude > 400 then none
  else ofRatio? (.power digits 10 exponent)

/-! ## §2. Writing. -/

/-- The decimals that read back as a number lie between two fractions; the ends count if the
mantissa is even. -/
structure Neighbourhood where
  low : Ratio
  high : Ratio
  closed : Bool

/-- The decimals that read back as a positive number. -/
def neighbourhood (x : Binary64) : Neighbourhood where
  low := .power
    (4 * x.mantissa - (if x.mantissa = Nat.pow 2 52 && x.exponent > minExponent then 1 else 2)) 2
    (x.exponent - 2)
  high := .power (4 * x.mantissa + 2) 2 (x.exponent - 2)
  closed := x.mantissa % 2 = 0

/-- Whether a fraction reads back as the number. -/
def Neighbourhood.contains (n : Neighbourhood) (a : Ratio) : Bool :=
  if n.closed then n.low.le a && a.le n.high else n.low.lt a && a.lt n.high

/-- A decimal `value · 10 ^ exponent`. -/
structure Digits where
  value : Nat
  exponent : Int

/-- The number of digits before the point of a positive number; not positive for small ones. -/
def pointPosition (x : Binary64) : Int :=
  let scaled := (Ratio.power (x.mantissa * Nat.pow 10 400) 2 x.exponent).floor
  (Nat.toDigits 10 scaled).length - 400

/-- The decimal with so many digits that is nearest to a positive number, if one of them reads back.
Of two that are equally near it is the larger. -/
def withDigits? (x : Binary64) (count : Nat) : Option Digits :=
  let exponent := x.pointPosition - count
  let scaled := (Ratio.power x.mantissa 2 x.exponent).div (.power 1 10 exponent)
  let below := scaled.floor
  let reads (n : Nat) : Bool := x.neighbourhood.contains (.power n 10 exponent)
  let nearer := if scaled.roundHalfUp = below then [below, below + 1] else [below + 1, below]
  (nearer.find? reads).map (⟨·, exponent⟩)

/-- The shortest decimal that reads back as a positive number; seventeen digits always do. -/
def shortest (x : Binary64) : Digits :=
  ((List.range' 1 17).findSome? x.withDigits?).getD ⟨x.mantissa, 0⟩

/-- A number in positional notation, with at least one digit on each side of the point. -/
def display (x : Binary64) : String :=
  if x.mantissa = 0 then "0.0"
  else
    let d := x.shortest
    let digits := Nat.toDigits 10 d.value
    let zeros (n : Nat) := List.replicate n '0'
    let chars := match d.exponent with
      | .ofNat e => digits ++ zeros e ++ ['.', '0']
      | .negSucc e =>
        let padded := zeros (e + 2 - digits.length) ++ digits
        let places := (padded.drop (padded.length - (e + 1))).reverse.dropWhile (· = '0')
        padded.take (padded.length - (e + 1)) ++ ['.']
          ++ (if places.isEmpty then ['0'] else places.reverse)
    String.ofList chars

end Binary64

/-- A double-precision number. -/
inductive Number where
  | finite (negative : Bool) (magnitude : Binary64)
  | infinite (negative : Bool)
  /-- no number -/
  | undefined
  deriving DecidableEq, Repr

/-- The number as messages show it. -/
def Number.display : Number → String
  | .finite negative magnitude => (if negative then "-" else "") ++ magnitude.display
  | .infinite negative => (if negative then "-" else "") ++ "inf"
  | .undefined => "NaN"

end LambdaLift.Decimal
