import FieldFormula.Binary64

/-!
Arithmetic of binary64: every operation is the exact result, rounded once. What has no exact result
(infinity less infinity, zero by zero) is NaN, and a quotient by zero is an infinity.
-/
namespace FieldFormula.Binary64

def neg : Binary64 → Binary64
  | nan => nan
  | infinity s => infinity (!s)
  | finite s n h => finite (!s) n h

def abs : Binary64 → Binary64
  | nan => nan
  | infinity _ => infinity false
  | finite _ n h => finite false n h

def add : Binary64 → Binary64 → Binary64
  | nan, _ => nan
  | _, nan => nan
  | infinity s, infinity t => if s = t then infinity s else nan
  | infinity s, finite .. => infinity s
  | finite .., infinity t => infinity t
  | finite s m _, finite t n _ => ofScaled (s && t) (scaled s m + scaled t n)

def sub (x y : Binary64) : Binary64 := x.add y.neg

def mul : Binary64 → Binary64 → Binary64
  | nan, _ => nan
  | _, nan => nan
  | infinity s, infinity t => infinity (s != t)
  | infinity s, finite t n _ => if n = 0 then nan else infinity (s != t)
  | finite s m _, infinity t => if m = 0 then nan else infinity (s != t)
  | finite s m _, finite t n _ => ofUnits (s != t) (m * n) one

def div : Binary64 → Binary64 → Binary64
  | nan, _ => nan
  | _, nan => nan
  | infinity _, infinity _ => nan
  | infinity s, finite t _ _ => infinity (s != t)
  | finite s _ _, infinity t => zero (s != t)
  | finite s m _, finite t n _ =>
    if n = 0 then if m = 0 then nan else infinity (s != t)
    else ofUnits (s != t) (m * one) n

/-- What is left of `x` after taking away whole multiples of `y`; the sign is that of `x`. -/
def rem : Binary64 → Binary64 → Binary64
  | nan, _ => nan
  | _, nan => nan
  | infinity _, _ => nan
  | finite s m h, infinity _ => finite s m h
  | finite s m _, finite _ n _ => if n = 0 then nan else ofUnits s (m % n) 1

def floorSqrt (n : Nat) : Nat :=
  if n = 0 then 0
  else
    let r := 2 * floorSqrt (n / 4)
    if (r + 1) * (r + 1) ≤ n then r + 1 else r
termination_by n

/- The root of `m` units is the root of `m * one` in units. It has more than 500
   binary digits, so when it is not whole, half a unit above its whole part lies on
   the same side of every halfway point. -/
def sqrt : Binary64 → Binary64
  | nan => nan
  | infinity s => if s then nan else infinity false
  | finite s m h =>
    if m = 0 then finite s m h
    else if s then nan
    else
      let r := floorSqrt (m * one)
      if r * r = m * one then ofUnits false r 1 else ofUnits false (2 * r + 1) 2

/- Powers are left to the platform's own function: its last digit follows no simpler rule. -/
def pow (x y : Binary64) : Binary64 :=
  ofBits (Float.pow (Float.ofBits x.toBits) (Float.ofBits y.toBits)).toBits

/-- The product of `n` factors `a`, by squaring: `r` gathers the powers whose digit
in `n` is one. -/
def powNatFrom (r a : Binary64) (n : Nat) : Binary64 :=
  let r := if n % 2 = 1 then r.mul a else r
  if n < 2 then r else powNatFrom r (a.mul a) (n / 2)
termination_by n

def powNat (a : Binary64) (n : Nat) : Binary64 := powNatFrom (ofNat 1) a n

def powInt (a : Binary64) : Int → Binary64
  | .ofNat n => a.powNat n
  | .negSucc n => (ofNat 1).div (a.powNat (n + 1))

/- Rounding to whole numbers keeps the sign, also of a zero. -/

def floor : Binary64 → Binary64
  | finite s n _ => ofUnits s ((if s then (n + (one - 1)) / one else n / one) * one) 1
  | x => x

def ceil : Binary64 → Binary64
  | finite s n _ => ofUnits s ((if s then n / one else (n + (one - 1)) / one) * one) 1
  | x => x

def round : Binary64 → Binary64
  | finite s n _ => ofUnits s ((2 * n + one) / (2 * one) * one) 1
  | x => x

/-- The whole part, kept between `lo` and `hi`; NaN has none and counts as zero. -/
def toIntClamped (lo hi : Int) : Binary64 → Int
  | nan => 0
  | infinity s => if s then lo else hi
  | finite s n _ => max lo (min hi (scaled s (n / one)))

/-- Order by value: the two zeros are equal, and NaN compares with nothing. -/
def compare? : Binary64 → Binary64 → Option Ordering
  | nan, _ => none
  | _, nan => none
  | infinity s, infinity t => some (if s = t then .eq else if s then .lt else .gt)
  | infinity s, finite .. => some (if s then .lt else .gt)
  | finite .., infinity t => some (if t then .gt else .lt)
  | finite s m _, finite t n _ => some (compare (scaled s m) (scaled t n))

def lt (x y : Binary64) : Bool := x.compare? y = some .lt
def le (x y : Binary64) : Bool := x.compare? y = some .lt || x.compare? y = some .eq
def eq (x y : Binary64) : Bool := x.compare? y = some .eq

def max (x y : Binary64) : Binary64 := if x.lt y then y else x
def min (x y : Binary64) : Binary64 := if y.lt x then y else x

end FieldFormula.Binary64
