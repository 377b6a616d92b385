import FieldFormula.Outcome.Json

/-!
Formulas as they are kept: which field of which kind of entity they compute, and how it is shown.
-/
namespace FieldFormula

structure Definition where
  entity : String
  field : String
  expression : String
  returnType : ReturnType
  decimalPlaces : Option UInt32
  active : Bool
  description : Option String
  deriving DecidableEq

namespace Definition

def name (d : Definition) : String := d.entity ++ "." ++ d.field

def places (d : Definition) : Option Nat := d.decimalPlaces.map UInt32.toNat

def members (d : Definition) : List (String × Json) :=
  [("entity", .text d.entity), ("field", .text d.field), ("expression", .text d.expression),
    ("returnType", .text d.returnType.name)] ++
  (d.decimalPlaces.map fun p => ("decimalPlaces", Json.number (.integer p.toNat))).toList ++
  [("active", .boolean d.active)] ++
  (d.description.map fun s => ("description", Json.text s)).toList

def toJson (d : Definition) : Json := .object d.members

def write (d : Definition) : List Char := d.toJson.write

/-- A definition that does not say so is active; that member alone may be left out
but not be null. -/
def ofForm? (f : Json.Form) : Option Definition := do
  match ← f.fields? ["entity", "field", "expression", "returnType", "decimalPlaces", "active",
    "description"] 3 with
  | [some entity, some field, some expression, returnType, decimalPlaces, active, description] =>
    return {
      entity := ← entity.text?
      field := ← field.text?
      expression := ← expression.text?
      returnType := ← ReturnType.ofForm? returnType
      decimalPlaces :=
        (← Json.Form.optional (Json.Form.natural? UInt32.size) decimalPlaces).map UInt32.ofNat
      active := ← (match active with
        | some a => a.boolean?
        | none => some true)
      description := ← Json.Form.optional Json.Form.text? description }
  | _ => none

def ofText? (s : List Char) : Option Definition := (Json.Form.ofText? s).bind ofForm?

def listOfText? (s : List Char) : Option (List Definition) := do
  match ← Json.Form.ofText? s with
  | .array items => items.mapM ofForm?
  | _ => none

end Definition
end FieldFormula
