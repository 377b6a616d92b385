import FieldFormula.Decimal

/-!
Numerals: digits with an optional point among them (at least one digit), then an optional
exponent (a mark, an optional sign, at least one digit). What counts as a digit is a parameter of
the scan; only the ASCII digits have a value.
-/
namespace FieldFormula

structure Numeral where
  whole : List Char
  fraction : List Char
  exponentNegative : Bool
  exponent : List Char

namespace Numeral

def power (n : Numeral) : Int :=
  let e := Nat.ofDigitChars 10 n.exponent 0
  if n.exponentNegative then -e else e

def value (n : Numeral) : Decimal where
  coefficient := Nat.ofDigitChars 10 (n.whole ++ n.fraction) 0
  exponent := n.power - n.fraction.length

def isAscii (n : Numeral) : Bool := (n.whole ++ n.fraction ++ n.exponent).all Char.isDigit

/-- A sign at the head of the text, and the rest; no sign counts as plus. -/
def splitSign : List Char → Bool × List Char
  | '-' :: cs => (true, cs)
  | '+' :: cs => (false, cs)
  | cs => (false, cs)

def isMark (c : Char) : Bool := c = 'e' || c = 'E'

def splitFraction (digit : Char → Bool) : List Char → List Char × List Char
  | '.' :: cs => cs.span digit
  | cs => ([], cs)

/-- An exponent at the head of the text: its sign and digits, and the rest. A mark without digits is
none, and stays in the rest. -/
def splitExponent (digit : Char → Bool) (cs : List Char) : (Bool × List Char) × List Char :=
  match cs with
  | c :: r =>
    let (negative, r) := splitSign r
    let (ds, rest) := r.span digit
    if isMark c && !ds.isEmpty then ((negative, ds), rest) else ((false, []), cs)
  | [] => ((false, []), [])

def scan (digit : Char → Bool) (cs : List Char) : Option (Numeral × List Char) :=
  let (whole, r) := cs.span digit
  let (fraction, r) := splitFraction digit r
  if whole.isEmpty && fraction.isEmpty then none
  else
    let ((negative, ds), rest) := splitExponent digit r
    some (⟨whole, fraction, negative, ds⟩, rest)

def ofText? (cs : List Char) : Option Numeral :=
  match scan Char.isDigit cs with
  | some (n, []) => some n
  | _ => none

def number? (cs : List Char) : Option Binary64 :=
  let (negative, r) := splitSign cs
  (ofText? r).map fun n => n.value.toBinary64 negative

end Numeral
end FieldFormula
