namespace QueryTypes

/-- A binary floating-point number of 64 bits, other than a NaN. A finite one is
    `mantissa * 2 ^ exponent` with `mantissa < 2 ^ 53` and `-1074 ≤ exponent ≤ 971`. -/
inductive Binary64 where
  | finite (negative : Bool) (mantissa : Nat) (exponent : Int)
  | infinite (negative : Bool)
  deriving DecidableEq, Repr, Inhabited

namespace Binary64

def leastExponent : Int := -1074

def greatestExponent : Int := 971

def mantissaBound : Nat := Nat.pow 2 53

/-- The quotient rounded to the nearest integer, a half to the even neighbour. -/
def roundDiv (numerator denominator : Nat) : Nat :=
  let quotient := numerator / denominator
  let twice := 2 * (numerator % denominator)
  if twice < denominator then quotient
  else if denominator < twice then quotient + 1
  else quotient + quotient % 2

def powFraction (base : Nat) (exponent : Int) : Nat × Nat :=
  if 0 ≤ exponent then (base.pow exponent.toNat, 1) else (1, base.pow (-exponent).toNat)

def scaleOf (numerator denominator : Nat) : Int :=
  let low : Int := (numerator.log2 : Int) - denominator.log2 - 53
  let (up, down) := powFraction 2 low
  let scale := if mantissaBound * (denominator * up) ≤ numerator * down then low + 1 else low
  if scale < leastExponent then leastExponent else scale

def ofFraction (negative : Bool) (numerator denominator : Nat) : Binary64 :=
  if numerator = 0 then .finite negative 0 leastExponent
  else
    let scale := scaleOf numerator denominator
    let (up, down) := powFraction 2 scale
    let rounded := roundDiv (numerator * down) (denominator * up)
    let (mantissa, exponent) :=
      if rounded = mantissaBound then (mantissaBound / 2, scale + 1) else (rounded, scale)
    if greatestExponent < exponent then .infinite negative else .finite negative mantissa exponent

/-- The number nearest to `digits * 10 ^ scale`, where `digits` is written with `width` figures.
    Decimals far outside the finite range are decided by their magnitude alone. -/
def ofDecimal (negative : Bool) (digits width : Nat) (scale : Int) : Binary64 :=
  if digits = 0 then .finite negative 0 leastExponent
  else if (400 : Int) + width < scale then .infinite negative
  else if scale + width < -400 then .finite negative 0 leastExponent
  else
    let (up, down) := powFraction 10 scale
    ofFraction negative (digits * up) down

/-- The shortest decimal `digits * 10 ^ scale` that rounds to `mantissa * 2 ^ exponent`, searched
    from the coarse grid `10 ^ scale` to the finer ones. Of two hits on one grid the nearer wins, and
    the greater if both are as near. -/
def shortestFrom (mantissa : Nat) (exponent : Int) (scale : Int) : Nat → Nat × Int
  | 0 => (0, scale)
  | grids + 1 =>
    let (two, half) := powFraction 2 (exponent - 2)
    let (ten, tenth) := powFraction 10 scale
    let measure (quarters : Nat) := quarters * two * tenth
    let step := ten * half
    let value := measure (4 * mantissa)
    let below := if mantissa = mantissaBound / 2 ∧ leastExponent < exponent then 1 else 2
    let least := measure (4 * mantissa - below)
    let greatest := measure (4 * mantissa + 2)
    let inside (x : Nat) : Bool :=
      if mantissa % 2 = 0 then least ≤ x && x ≤ greatest else least < x && x < greatest
    let low := value / step
    let lowHit := low != 0 && inside (low * step)
    let highHit := inside ((low + 1) * step)
    if lowHit && (!highHit || 2 * (value - low * step) < step) then (low, scale)
    else if highHit then (low + 1, scale)
    else shortestFrom mantissa exponent (scale - 1) grids

def shortest (mantissa : Nat) (exponent : Int) : Nat × Int :=
  let magnitude := (((mantissa.log2 : Int) + exponent) * 30103).fdiv 100000 + 2
  shortestFrom mantissa exponent magnitude 24

def positional (digits : Nat) (scale : Int) : String :=
  let figures := (Nat.toDigits 10 digits)
  if 0 ≤ scale then String.ofList (figures ++ List.replicate scale.toNat '0')
  else
    let places := (-scale).toNat
    if places < figures.length then
      String.ofList (figures.take (figures.length - places) ++
        '.' :: figures.drop (figures.length - places))
    else String.ofList ('0' :: '.' :: List.replicate (places - figures.length) '0' ++ figures)

/-- The fewest digits that read back, never with an exponent; a whole number has no point. -/
def toText : Binary64 → String
  | .infinite negative => if negative then "-inf" else "inf"
  | .finite negative mantissa exponent =>
    let sign := if negative then "-" else ""
    if mantissa = 0 then sign ++ "0"
    else
      let (digits, scale) := shortest mantissa exponent
      sign ++ positional digits scale

end Binary64

end QueryTypes
