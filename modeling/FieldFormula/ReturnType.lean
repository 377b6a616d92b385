import FieldFormula.Decimal.Scaled
import FieldFormula.FormulaError
import FieldFormula.Record
import FieldFormula.Value

/-!
Return types of formulas, and the shape that each gives to a value.
-/
namespace FieldFormula

inductive ReturnType where
  | currency | number | boolean | text | date
  deriving DecidableEq

namespace ReturnType

def all : List ReturnType := [currency, number, boolean, text, date]

def name : ReturnType → String
  | currency => "currency"
  | number => "number"
  | boolean => "boolean"
  | text => "text"
  | date => "date"

/-- The return type of this name; white space around it and the case of its letters do not count. -/
def ofName (s : String) : Except ArgumentError ReturnType :=
  let t := Text.trim s.toList
  match all.find? fun r => Token.sameLetters r.name.toList t with
  | some r => .ok r
  | none => .error (.unknownReturnType (String.ofList t))

def ofNameLenient (s : String) : ReturnType :=
  match ofName s with
  | .ok r => r
  | .error _ => number

/-- A value as its return type shows it: amounts rounded to cents, numbers read from the text of
other values, conditions and texts; dates stay as they are. -/
def shape (r : ReturnType) (v : Value) : Value :=
  match r, v with
  | currency, .number n => .number n.roundCents
  | currency, v => v
  | number, .number n => .number n
  | number, v => .number ((leadingNumber? v.toText.toList).getD (.zero false))
  | boolean, v => .boolean v.isTruthy
  | text, v => .text v.toText
  | date, v => v

end ReturnType
end FieldFormula
