import FieldFormula.Decimal.Layout
import FieldFormula.Decimal.Numeral
import FieldFormula.Binary64.Arithmetic
import FieldFormula.Text

/-!
Values of formulas, and how each kind is seen as a number, as a text and as a condition.
-/
namespace FieldFormula

inductive Value where
  | number (n : Binary64)
  | boolean (b : Bool)
  | text (s : String)
  deriving DecidableEq

/-- The number that a whole text stands for. Blanks around it do not count, a blank text
is zero, and what is no number is NaN. -/
def numberOfText (s : List Char) : Binary64 :=
  let t := Text.trim s
  if t.isEmpty then .zero false
  else if t = "Infinity".toList || t = "+Infinity".toList then .infinity false
  else if t = "-Infinity".toList then .infinity true
  else (Numeral.number? t).getD .nan

namespace Value

def toNumber : Value → Binary64
  | number n => n
  | boolean b => if b then .ofNat 1 else .zero false
  | text s => numberOfText s.toList

/-- Zero, NaN, false and the empty text do not hold. -/
def isTruthy : Value → Bool
  | number n => !n.isZero && !n.isNaN
  | boolean b => b
  | text s => s != ""

def toText : Value → String
  | number n => String.ofList n.text
  | boolean b => if b then "true" else "false"
  | text s => s

def asNumber? : Value → Option Binary64
  | number n => some n
  | _ => none

def isText : Value → Bool
  | text _ => true
  | _ => false

/-- Two texts compare by their characters, all else by number. -/
def compare? : Value → Value → Option Ordering
  | text s, text t => some (if s < t then .lt else if s = t then .eq else .gt)
  | v, w => v.toNumber.compare? w.toNumber

end Value
end FieldFormula
