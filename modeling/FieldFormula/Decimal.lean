import FieldFormula.Binary64

/-!
Decimals `coefficient · 10 ^ exponent`, and the binary64 number nearest to one. In the
other direction the shortest decimal that reads back as a given positive number is
found, and of those the nearest: for one digit, two digits and so on the two decimals of
that length next to the number are tried.
-/
namespace FieldFormula

structure Decimal where
  coefficient : Nat
  exponent : Int
  deriving DecidableEq

namespace Decimal

def ratio (d : Decimal) : Nat × Nat :=
  (d.coefficient * Nat.pow 10 d.exponent.toNat, Nat.pow 10 (-d.exponent).toNat)

def roundedUnits (d : Decimal) : Nat := Binary64.roundUnits (d.ratio.1 * Binary64.one) d.ratio.2

/- An exponent may be written with any number of digits. Far outside the range of
   binary64 the answer is known before any power is taken: below `10 ^ (-330)` zero,
   above `10 ^ 310` infinity. -/
def toBinary64 (negative : Bool) (d : Decimal) : Binary64 :=
  let top := (Nat.toDigits 10 d.coefficient).length + d.exponent
  if d.coefficient = 0 || top < -330 then .zero negative
  else if 310 < top then .infinity negative
  else .ofUnits negative (d.ratio.1 * Binary64.one) d.ratio.2

def readsBack (n : Nat) (d : Decimal) : Bool := d.roundedUnits = n

def scale (n : Nat) : Int :=
  if Binary64.one ≤ n then (Nat.toDigits 10 (n / Binary64.one)).length
  else 1 - (Nat.toDigits 10 (Binary64.one / n)).length

/-- The decimal of `n` units itself: a unit is `5 ^ 1074 · 10 ^ (-1074)`. -/
def exact (n : Nat) : Decimal := ⟨n * Nat.pow 5 1074, -1074⟩

/-- Of two candidates one that reads back. Where both do, the order of twice the number and the sum
of both candidates tells which is nearer. -/
def choose (low high : Decimal) (lowReads highReads : Bool) (order : Ordering) (tieLow : Bool) :
    Option Decimal :=
  match lowReads, highReads with
  | true, false => some low
  | false, true => some high
  | false, false => none
  | true, true =>
    match order with
    | .lt => some low
    | .gt => some high
    | .eq => some (if tieLow then low else high)

/-- Of the two decimals next to `n` units on the grid `10 ^ g`, the nearer that reads back. Halfway
between them the upper one is taken, or the even one. -/
def onGrid (tieUp : Bool) (n : Nat) (g : Int) : Option Decimal :=
  let num := n * Nat.pow 10 (-g).toNat
  let den := Binary64.one * Nat.pow 10 g.toNat
  let c := num / den
  let low : Decimal := ⟨c, g⟩
  let high : Decimal := ⟨c + 1, g⟩
  choose low high (low.readsBack n) (high.readsBack n) (compare (2 * num) ((2 * c + 1) * den))
    (!tieUp && c % 2 = 0)

def strip (d : Decimal) : Decimal :=
  if h : d.coefficient ≠ 0 ∧ d.coefficient % 10 = 0 then strip ⟨d.coefficient / 10, d.exponent + 1⟩
  else d
termination_by d.coefficient
decreasing_by exact Nat.div_lt_self (Nat.pos_of_ne_zero h.1) (by decide)

/- Seventeen digits are always enough, so the exact decimal is never reached. -/
def shortest (tieUp : Bool) (n : Nat) : Decimal :=
  let s := scale n
  (((List.range 17).findSome? fun (k : Nat) => onGrid tieUp n (s - (k + 1))).getD (exact n)).strip

end Decimal
end FieldFormula
