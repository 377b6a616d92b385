import FieldFormula.Eval
import FieldFormula.Record
import FieldFormula.Reference
import FieldFormula.ReturnType

/-!
Evaluating a formula text against a record: the outcome is a value of the return type, or a
message. A name that the formula uses and the record lacks is zero; a field that counts as no
number stays unbound, also when the formula uses it.
-/
namespace FieldFormula

namespace Bindings

def seeds (used : List String) (r : Record) : Bindings :=
  (used.filter fun name => !r.contains name).foldl
    (fun b name => b.insert name (.zero false)) Table.empty

def bindFields (b : Bindings) (fields : List (String × FieldValue)) : Bindings :=
  fields.foldl (fun b (name, v) =>
    match v.coerce with
    | some n => b.insert name n
    | none => b) b

def ofRecord (formula : String) (r : Record) : Bindings :=
  bindFields (seeds (Reference.used formula) r) r.entries

end Bindings

structure Outcome where
  value : Option Value
  error : Option String
  returnType : ReturnType
  deriving DecidableEq

namespace Outcome

def isOk (o : Outcome) : Bool := o.error.isNone

def success (v : Value) (r : ReturnType) : Outcome := ⟨some v, none, r⟩

def failure (e : FormulaError) (r : ReturnType) : Outcome := ⟨none, some e.message, r⟩

end Outcome

namespace Formula

def value (formula : String) (record : Record) : Except FormulaError Value := do
  let e ← (Expr.parse formula).mapError .parse
  e.eval (Bindings.ofRecord formula record)

def evaluate (formula : String) (record : Record) (r : ReturnType) : Outcome :=
  match value formula record with
  | .ok v => .success (r.shape v) r
  | .error e => .failure e r

def validate (formula : String) : Option FormulaError :=
  match Expr.parse formula with
  | .ok _ => none
  | .error e => some (.parse e)

end Formula
end FieldFormula
