import FieldFormula.Json.Reader
import FieldFormula.Outcome

/-!
Outcomes as JSON objects: `value`, `error` if there is one, `returnType`.
-/
namespace FieldFormula

/-- Numbers that are not finite have no JSON text and become null. -/
def Value.toJson : Value → Json
  | number n => if n.isFinite then .number (.float n) else .null
  | boolean b => .boolean b
  | text s => .text s

def Value.ofForm? : Json.Form → Option Value
  | .number n => n.number?.map fun n => number n.toBinary64
  | .boolean b => some (boolean b)
  | .text s => (Json.Form.string? s).map text
  | _ => none

/-- A return type may be left out; a name that is unknown means numbers. -/
def ReturnType.ofForm? (f : Option Json.Form) : Option ReturnType :=
  (Json.Form.optional Json.Form.text? f).map fun name => (name.map ofNameLenient).getD number

namespace Outcome

def members (o : Outcome) : List (String × Json) :=
  ("value", (o.value.map Value.toJson).getD .null) ::
    ((o.error.map fun e => ("error", Json.text e)).toList ++
      [("returnType", .text o.returnType.name)])

def toJson (o : Outcome) : Json := .object o.members

def ofForm? (f : Json.Form) : Option Outcome := do
  match ← f.fields? ["value", "error", "returnType"] 3 with
  | [value, error, returnType] =>
    return {
      value := ← Json.Form.optional Value.ofForm? value
      error := ← Json.Form.optional Json.Form.text? error
      returnType := ← ReturnType.ofForm? returnType }
  | _ => none

def ofText? (s : List Char) : Option Outcome := (Json.Form.ofText? s).bind ofForm?

end Outcome
end FieldFormula
