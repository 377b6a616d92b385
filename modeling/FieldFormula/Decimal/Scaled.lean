import FieldFormula.Binary64.Arithmetic

/-!
Rounding to decimal places through a scaled decimal: a mantissa below `2 ^ 96` over a
power of ten of at most 28. A binary64 number is brought into that form by trading twos
and fives for tens, is rounded there with halves going away from zero, and goes back. A
number too large for the form stays as it is.
-/
namespace FieldFormula

/-- `mantissa / 10 ^ scale`. -/
structure ScaledDecimal where
  mantissa : Nat
  scale : Nat
  deriving DecidableEq

namespace ScaledDecimal

def limit : Nat := Nat.pow 2 96

/- `m · 2 ^ e` is `m · 10 ^ e · 5 ^ (-e)`. First the power of five is worked into the mantissa `m`,
   five being ten halves and a fifth two tenths, while `t` counts the tens. Digits that do not fit
   into the mantissa fall off. -/

@[simp]
def timesFives : Nat → Nat → Int → Nat × Int
  | 0, m, t => (m, t)
  | k + 1, m, t =>
    if m % 2 ≠ 0 ∧ m * 5 < limit then timesFives k (m * 5) t else timesFives k (m / 2) (t + 1)

/-- Divides by `5 ^ k`. There is no form for a number with too many tens. -/
@[simp]
def overFives : Nat → Nat → Int → Option (Nat × Int)
  | 0, m, t => some (m, t)
  | k + 1, m, t =>
    if m * 2 < limit then overFives k (m * 2) (t - 1)
    else if (k + 1 : Int) < t * 2 then none
    else overFives k (m / 5) t

def timesTens : Nat → Nat → Option Nat
  | 0, m => some m
  | k + 1, m => if m * 10 < limit then timesTens k (m * 10) else none

/-- Drops `k` digits from a mantissa over `10 ^ (scale + k)`, each time rounding half up. A mantissa
that runs out is zero. -/
@[simp]
def dropDigits (scale : Nat) : Nat → Nat → ScaledDecimal
  | 0, m => ⟨m, scale⟩
  | k + 1, m =>
    if m / 10 = 0 then ⟨0, 0⟩
    else dropDigits scale k (if 5 ≤ m % 10 then m / 10 + 1 else m / 10)

def ofTens (m : Nat) (t : Int) : Option ScaledDecimal :=
  if 0 < t then (timesTens t.toNat m).map (⟨·, 0⟩)
  else if t < -28 then some (dropDigits 28 (-28 - t).toNat m)
  else some ⟨m, (-t).toNat⟩

def ofUnits? (n : Nat) : Option ScaledDecimal :=
  let m := n / spacing n
  let e : Int := (n.log2 - 52 : Nat) - 1074
  if n = 0 then some ⟨0, 0⟩
  else if e ≤ 0 then
    let (m, t) := timesFives (-e).toNat m e
    ofTens m t
  else (overFives e.toNat m e).bind fun (m, t) => ofTens m t

/-- At most `places` decimal places; a half goes away from zero. -/
def round (places : Nat) (d : ScaledDecimal) : ScaledDecimal :=
  if d.scale ≤ places then d
  else
    let p := Nat.pow 10 (d.scale - places)
    ⟨d.mantissa / p + (if p ≤ 2 * (d.mantissa % p) then 1 else 0), places⟩

/- Whole part and fraction are added as binary64 numbers, and the sum is once more rounded to
   as many places as the decimal has. -/
def toBinary64 (d : ScaledDecimal) : Binary64 :=
  let p := Nat.pow 10 d.scale
  let whole := Binary64.ofNat (d.mantissa / p)
  let fraction := (Binary64.ofNat (d.mantissa % p)).div (.ofNat p)
  if fraction.isZero then whole
  else
    let t := (Binary64.ofNat 10).powNat d.scale
    (((whole.add fraction).mul t).round).div t

end ScaledDecimal

namespace Binary64

/-- The number rounded to decimal places; a zero comes out positive. -/
def roundPlaces (places : Nat) : Binary64 → Binary64
  | finite s n h =>
    match ScaledDecimal.ofUnits? n with
    | none => finite s n h
    | some d =>
      let r := (d.round places).toBinary64
      if r.isZero then zero false else if s then r.neg else r
  | x => x

def roundCents (x : Binary64) : Binary64 := x.roundPlaces 2

end Binary64
end FieldFormula
