import FieldFormula.Definition
import FieldFormula.Display
import FieldFormula.Samples

/-!
Checking definitions on samples: one line for each definition, and a summary.
-/
namespace FieldFormula

structure Check where
  name : String
  outcome : Outcome
  display : String

namespace Check

def ofDefinition (s : Samples) (d : Definition) : Check :=
  let o := Formula.evaluate d.expression ((s.recordFor d.entity).getD Table.empty) d.returnType
  ⟨d.name, o, o.display d.places⟩

def passed (c : Check) : Bool := c.outcome.isOk

def line (c : Check) : String :=
  match c.outcome.error with
  | none => "PASS " ++ c.name ++ " = " ++ c.display
  | some e => "FAIL " ++ c.name ++ ": " ++ e

end Check

structure Report where
  checks : List Check

namespace Report

def ofDefinitions (ds : List Definition) (s : Samples) : Report := ⟨ds.map (Check.ofDefinition s)⟩

def passed (r : Report) : Nat := r.checks.countP Check.passed

def failed (r : Report) : Nat := r.checks.countP fun c => !c.passed

def isSuccess (r : Report) : Bool := r.failed = 0

def summary (r : Report) : String :=
  r.checks.length.repr ++ " formulas: " ++ r.passed.repr ++ " passed, " ++ r.failed.repr ++
    " failed"

def lines (r : Report) : List String := r.checks.map Check.line ++ [r.summary]

def text (r : Report) : String := "\n".intercalate r.lines

end Report
end FieldFormula
