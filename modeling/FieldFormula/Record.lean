import FieldFormula.Binary64.Arithmetic
import FieldFormula.Json.Reader
import FieldFormula.Text

/-!
Records: raw field values by name, and the number that a field value counts as.
-/
namespace FieldFormula

/-- The number that a text begins with, white space aside. Digits of all scripts make up the
numeral, but one with a digit that is not ASCII has no value. -/
def leadingNumber? (s : List Char) : Option Binary64 :=
  let (negative, r) := Numeral.splitSign (Text.skipBlanks s)
  if "Infinity".toList.isPrefixOf r then some (.infinity negative)
  else
    match Numeral.scan Text.isDecimalDigit r with
    | some (n, _) => if n.isAscii then some (n.value.toBinary64 negative) else none
    | none => none

inductive FieldValue where
  | null
  | boolean (b : Bool)
  | number (n : Binary64)
  | text (s : String)
  | unsupported (v : Json)

namespace FieldValue

def ofJson : Json → FieldValue
  | .null => null
  | .boolean b => boolean b
  | .number n => number n.toBinary64
  | .text s => text s
  | v => unsupported v

def toJson : FieldValue → Json
  | null => .null
  | boolean b => .boolean b
  | number n => if n.isFinite then .number (.float n) else .null
  | text s => .text s
  | unsupported v => v

def coerce : FieldValue → Option Binary64
  | null => some (.zero false)
  | boolean b => some (if b then .ofNat 1 else .zero false)
  | number n => some n
  | text s => leadingNumber? s.toList
  | unsupported _ => none

end FieldValue

abbrev Record := Table FieldValue

namespace Record

def ofMembers (members : List (String × Json)) : Record :=
  Table.ofList (members.map fun (name, v) => (name, .ofJson v))

def ofForm? (levels : Nat) (f : Json.Form) : Option Record :=
  match f.value? levels with
  | some (.object members) => some (ofMembers members)
  | _ => none

end Record

def Json.maxLevels : Nat := 127

def Record.ofText? (s : List Char) : Option Record :=
  (Json.Form.ofText? s).bind (Record.ofForm? Json.maxLevels)

end FieldFormula
