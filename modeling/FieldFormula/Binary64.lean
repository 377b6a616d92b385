/-!
Binary64 numbers, exactly. A finite number is a whole count of least units, a unit being
`2 ^ -1074`, so sums, products and comparisons are those of integers, and rounding sends a fraction
of units to the nearest count that a 53-bit significand can hold.
-/
namespace FieldFormula

/-- The integer nearest to `n / d`; halfway the even neighbour is taken. -/
def nearestEven (n d : Nat) : Nat :=
  let q := n / d
  let r := n % d
  if 2 * r < d then q
  else if d < 2 * r then q + 1
  else if q % 2 = 0 then q else q + 1

/-- The distance between neighbouring counts at `n`: 53 binary digits are kept. -/
def spacing (n : Nat) : Nat := Nat.pow 2 (n.log2 - 52)

/-- A count of units is a number when it lies on the grid of its own binade, and that
is no binade past the largest. -/
def Fits (n : Nat) : Prop := n % spacing n = 0 ∧ n.log2 < 2098

instance (n : Nat) : Decidable (Fits n) := inferInstanceAs (Decidable (_ ∧ _))

theorem fits_zero : Fits 0 := ⟨Nat.zero_mod _, by decide⟩

inductive Binary64 where
  | nan
  | infinity (negative : Bool)
  | finite (negative : Bool) (units : Nat) (fits : Fits units)
  deriving DecidableEq

namespace Binary64

def one : Nat := Nat.pow 2 1074

def roundUnits (n d : Nat) : Nat :=
  let s := spacing (n / d)
  nearestEven n (d * s) * s

def zero (negative : Bool) : Binary64 := finite negative 0 fits_zero

/-- The number nearest to `n / d` units; past the largest number it is an infinity. -/
def ofUnits (negative : Bool) (n d : Nat) : Binary64 :=
  let u := roundUnits n d
  if h : Fits u then finite negative u h else infinity negative

def ofScaled (zeroNegative : Bool) (s : Int) : Binary64 :=
  if s = 0 then zero zeroNegative else ofUnits (s < 0) s.natAbs 1

def ofNat (n : Nat) : Binary64 := ofUnits false (n * one) 1
def ofInt (i : Int) : Binary64 := ofScaled false (i * one)

def isNaN : Binary64 → Bool
  | nan => true
  | _ => false

def isFinite : Binary64 → Bool
  | finite .. => true
  | _ => false

def isZero : Binary64 → Bool
  | finite _ n _ => n = 0
  | _ => false

def isNegative : Binary64 → Bool
  | nan => false
  | infinity s => s
  | finite s _ _ => s

def scaled (negative : Bool) (n : Nat) : Int := if negative then -n else n

/- The interchange format: from the top a sign, an exponent of eleven bits, a fraction of fifty-two.
   Below `leading` units there is no leading digit to leave out, and the exponent is zero. -/

def leading : Nat := 0x10000000000000

def ofBits (b : UInt64) : Binary64 :=
  let b := b.toNat
  let negative := b / (0x800 * leading) = 1
  let exponent := b / leading % 0x800
  let fraction := b % leading
  if exponent = 0x7ff then
    if fraction = 0 then infinity negative else nan
  else if exponent = 0 then ofUnits negative fraction 1
  else ofUnits negative ((leading + fraction) * Nat.pow 2 (exponent - 1)) 1

def toBits : Binary64 → UInt64
  | nan => 0x7ff8000000000000
  | infinity s => .ofNat ((if s then 0x800 * leading else 0) + 0x7ff * leading)
  | finite s n _ =>
    let sign := if s then 0x800 * leading else 0
    if n < leading then .ofNat (sign + n)
    else .ofNat (sign + (n.log2 - 52) * leading + n / spacing n)

end Binary64
end FieldFormula
