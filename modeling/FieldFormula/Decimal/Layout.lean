import FieldFormula.Decimal

/-!
Numbers as text. The digits are the shortest that read back; a style says where positional notation
ends and how the special values are spelled. Only with a fixed number of decimal places the exact
value decides, and halfway the even last digit is taken.
-/
namespace FieldFormula

namespace Decimal

def zeros (n : Nat) : List Char := List.replicate n '0'

/-- The digits `ds`, with the point before the digit number `p`; `p` may lie outside the digits. -/
def positional (ds : List Char) (p : Int) : List Char :=
  if p ≤ 0 then '0' :: '.' :: (zeros (-p).toNat ++ ds)
  else if ds.length ≤ p then ds ++ zeros (p.toNat - ds.length)
  else ds.take p.toNat ++ '.' :: ds.drop p.toNat

def signed (i : Int) : List Char :=
  (if i < 0 then '-' else '+') :: Nat.toDigits 10 i.natAbs

def scientific (ds : List Char) (x : Int) : List Char :=
  let mantissa := match ds with
    | d :: [] => [d]
    | d :: r => d :: '.' :: r
    | [] => []
  mantissa ++ 'e' :: signed x

def pointed (places k : Nat) : List Char :=
  let ds := Nat.toDigits 10 k
  let ds := List.replicate (places + 1 - ds.length) '0' ++ ds
  if places = 0 then ds else ds.take (ds.length - places) ++ '.' :: ds.drop (ds.length - places)

def fixed (places n : Nat) : List Char :=
  pointed places (nearestEven (n * Nat.pow 10 places) Binary64.one)

end Decimal

structure NumberStyle where
  /-- powers of ten of the leading digit that are written positionally -/
  isPositional : Int → Bool
  wholeEnding : List Char
  /-- of two equally near shortest decimals the upper one is taken -/
  tieUp : Bool
  signedZero : Bool
  nan : List Char
  /-- by sign -/
  infinity : Bool → List Char

namespace NumberStyle

def formula : NumberStyle where
  isPositional x := -6 ≤ x && x ≤ 20
  wholeEnding := []
  tieUp := true
  signedZero := false
  nan := "NaN".toList
  infinity s := if s then "-Infinity".toList else "Infinity".toList

def message : NumberStyle where
  isPositional _ := true
  wholeEnding := []
  tieUp := true
  signedZero := true
  nan := "NaN".toList
  infinity s := if s then "-inf".toList else "inf".toList

def json : NumberStyle where
  isPositional x := -5 ≤ x && x ≤ 15
  wholeEnding := ['.', '0']
  tieUp := false
  signedZero := true
  nan := "null".toList
  infinity _ := "null".toList

def magnitude (style : NumberStyle) (n : Nat) : List Char :=
  if n = 0 then '0' :: style.wholeEnding
  else
    let d := Decimal.shortest style.tieUp n
    let ds := Nat.toDigits 10 d.coefficient
    let p := ds.length + d.exponent
    if style.isPositional (p - 1) then
      Decimal.positional ds p ++ if 0 ≤ d.exponent then style.wholeEnding else []
    else Decimal.scientific ds (p - 1)

def write (style : NumberStyle) : Binary64 → List Char
  | .nan => style.nan
  | .infinity s => style.infinity s
  | .finite s n _ =>
    if s && (n ≠ 0 || style.signedZero) then '-' :: style.magnitude n else style.magnitude n

end NumberStyle

def Binary64.text (x : Binary64) : List Char := NumberStyle.formula.write x

end FieldFormula
