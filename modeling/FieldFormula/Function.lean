import FieldFormula.FormulaError
import FieldFormula.Table
import FieldFormula.Value

/-!
Functions that formulas may call, and registries of them. Names are looked up in upper case. The
built-in functions are conditions, and arithmetic of single numbers and of lists.
-/
namespace FieldFormula

/-- The arity is checked by whoever calls; a function called with fewer arguments
says what it misses. -/
structure Function where
  name : String
  arity : Arity
  apply : List Value → Except ArgumentError Value

abbrev Registry := Table Function

namespace Registry

def key (name : String) : String := String.ofList (Text.upper name.toList)

def get? (r : Registry) (name : String) : Option Function := r.find? (key name)

def register (r : Registry) (f : Function) : Registry := r.insert (key f.name) f

end Registry

namespace Function

def argument (function : String) (args : List Value) (i : Nat) : Except ArgumentError Value :=
  match args[i]? with
  | some v => .ok v
  | none => .error (.missing function (i + 1))

def onlyArgument (function : String) (args : List Value) : Except ArgumentError Value :=
  match args with
  | v :: _ => .ok v
  | [] => .error (.needsOne function)

def ofNumber (name : String) (f : Binary64 → Binary64) : Function where
  name := name
  arity := ⟨1, some 1⟩
  apply args := do
    let v ← onlyArgument name args
    return .number (f v.toNumber)

def if' : Function where
  name := "IF"
  arity := ⟨3, some 3⟩
  apply args := do
    let condition ← argument "IF" args 0
    let thenValue ← argument "IF" args 1
    let elseValue ← argument "IF" args 2
    return if condition.isTruthy then thenValue else elseValue

/-- `IFGT(value, bound, then, otherwise)`; a value that does not hold counts as zero. -/
def ifGreater : Function where
  name := "IFGT"
  arity := ⟨4, some 4⟩
  apply args := do
    let value ← argument "IFGT" args 0
    let bound ← argument "IFGT" args 1
    let thenValue ← argument "IFGT" args 2
    let elseValue ← argument "IFGT" args 3
    let n := if value.isTruthy then value.toNumber else .zero false
    return if bound.toNumber.lt n then thenValue else elseValue

/-- `COALESCE(value, default)`; the number zero counts as missing. -/
def coalesce : Function where
  name := "COALESCE"
  arity := ⟨2, some 2⟩
  apply args := do
    let value ← argument "COALESCE" args 0
    let default ← argument "COALESCE" args 1
    return match value with
      | .number n => if n.isZero then default else value
      | _ => value

def abs : Function := ofNumber "ABS" Binary64.abs
def ceil : Function := ofNumber "CEIL" Binary64.ceil
def floor : Function := ofNumber "FLOOR" Binary64.floor
def sqrt : Function := ofNumber "SQRT" Binary64.sqrt

/-- Rounded to `digits` decimal places, or to tens and hundreds when negative; halves go away from
zero. A number so large that it has no such digits stays as it is. -/
def roundTo (digits : Int) (x : Binary64) : Binary64 :=
  let factor := (Binary64.ofNat 10).powInt digits
  let half := (Binary64.ofNat 1).div (.ofNat 2)
  if !x.isFinite then x
  else if (Binary64.ofNat Binary64.leading).le (x.mul factor).abs then x
  else if factor.isZero then .zero false
  else if (Binary64.zero false).le x then (((x.mul factor).add half).floor).div factor
  else (((x.mul factor).sub half).ceil).div factor

def round : Function where
  name := "ROUND"
  arity := ⟨1, some 2⟩
  apply args := do
    let v ← onlyArgument "ROUND" args
    let digits := match args[1]? with
      | some d => d.toNumber.toIntClamped (-308) 308
      | none => 0
    return .number (roundTo digits v.toNumber)

def gather (pick : Binary64 → Binary64 → Binary64) (acc : Binary64) : List Value → Binary64
  | [] => acc
  | v :: vs => if v.toNumber.isNaN then .nan else gather pick (pick acc v.toNumber) vs

def max : Function where
  name := "MAX"
  arity := ⟨1, none⟩
  apply args := .ok (.number (gather Binary64.max (.infinity true) args))

def min : Function where
  name := "MIN"
  arity := ⟨1, none⟩
  apply args := .ok (.number (gather Binary64.min (.infinity false) args))

def len : Function where
  name := "LEN"
  arity := ⟨1, some 1⟩
  apply args := do
    let v ← onlyArgument "LEN" args
    return .number (.ofNat v.toText.length)

end Function

def Registry.builtin : Registry :=
  [Function.if', Function.ifGreater, Function.coalesce, Function.abs, Function.ceil, Function.floor,
    Function.round, Function.max, Function.min, Function.sqrt,
    Function.len].foldl Registry.register Table.empty

end FieldFormula
