import FieldFormula.Binary64.Arithmetic
import FieldFormula.Decimal.Numeral
import FieldFormula.Json

/-!
Numbers of JSON texts. Whole numbers of 64 bits are kept as they are. Any other number is
worked out in binary64: the digits that fit into 64 bits make a whole number, and that is
multiplied or divided by the power of ten still due. Each of these steps rounds, so now and
then a neighbour of the nearest number comes out.
-/
namespace FieldFormula.Json

/-- A number as written; a number without point and exponent is integral. -/
structure Figure where
  negative : Bool
  numeral : Numeral
  isIntegral : Bool

/-- Appends digits to `n` as long as it stays within 64 bits; also how many digits are left over. -/
def appendDigits (n : Nat) : List Char → Nat × Nat
  | [] => (n, 0)
  | c :: r =>
    let m := n * 10 + (c.toNat - '0'.toNat)
    if m < UInt64.size then appendDigits m r else (n, r.length + 1)

/-- The decimal of the digits that fit. A digit left over before the point still counts ten; those
behind the point are tried anew, also after one before it has been left over. -/
def cut (n : Numeral) : Decimal :=
  let (w, left) := appendDigits 0 n.whole
  let (c, unused) := appendDigits w n.fraction
  ⟨c, left - (n.fraction.length - unused : Nat) + n.power⟩

def maxPower : Nat := 308

def tenTo (k : Nat) : Binary64 := .ofNat (Nat.pow 10 k)

def lower (x : Binary64) (k : Nat) : Binary64 :=
  if x.isZero then x
  else if k ≤ maxPower then x.div (tenTo k)
  else lower (x.div (tenTo maxPower)) (k - maxPower)
termination_by k
decreasing_by
  exact Nat.sub_lt (Nat.lt_of_le_of_lt (Nat.zero_le _) (Nat.lt_of_not_le ‹_›)) (by decide)

def raise? (x : Binary64) (k : Nat) : Option Binary64 :=
  if x.isZero then some x
  else if k ≤ maxPower && (x.mul (tenTo k)).isFinite then some (x.mul (tenTo k))
  else none

def scale? (x : Binary64) : Int → Option Binary64
  | .ofNat k => raise? x k
  | .negSucc k => some (lower x (k + 1))

def Figure.number? (f : Figure) : Option JsonNumber :=
  let c := f.numeral.value.coefficient
  if f.isIntegral && !f.negative && c < UInt64.size then some (.integer c)
  else if f.isIntegral && f.negative && 0 < c && 2 * c ≤ UInt64.size then some (.integer (-c))
  else
    let d := cut f.numeral
    (scale? (.ofNat d.coefficient) d.exponent).map fun x => .float (if f.negative then x.neg else x)

end FieldFormula.Json
