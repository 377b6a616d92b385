import FieldFormula.Expr
import FieldFormula.Function

/-!
Evaluation. `&&` and `||` skip their right operand when the left one decides;
everything else evaluates all operands from left to right, the arguments of a call
after its name and their number have been checked.
-/
namespace FieldFormula

abbrev Bindings := Table Binary64

namespace BinaryOp

def join (v w : Value) : Value :=
  if v.isText || w.isText then .text (v.toText ++ w.toText) else .number (v.toNumber.add w.toNumber)

def apply (op : BinaryOp) (v w : Value) : Value :=
  match op with
  | add => join v w
  | subtract => .number (v.toNumber.sub w.toNumber)
  | multiply => .number (v.toNumber.mul w.toNumber)
  | divide => .number (v.toNumber.div w.toNumber)
  | remainder => .number (v.toNumber.rem w.toNumber)
  | power => .number (v.toNumber.pow w.toNumber)
  | equal => .boolean (v.compare? w = some .eq)
  | notEqual => .boolean (v.compare? w ≠ some .eq)
  | less => .boolean (v.compare? w = some .lt)
  | lessEqual => .boolean (v.compare? w = some .lt || v.compare? w = some .eq)
  | greater => .boolean (v.compare? w = some .gt)
  | greaterEqual => .boolean (v.compare? w = some .gt || v.compare? w = some .eq)
  | and => .boolean (v.isTruthy && w.isTruthy)
  | or => .boolean (v.isTruthy || w.isTruthy)

/-- The left operand decides alone. -/
def decides (op : BinaryOp) (v : Value) : Bool :=
  match op with
  | and => !v.isTruthy
  | or => v.isTruthy
  | _ => false

end BinaryOp

def UnaryOp.apply (op : UnaryOp) (v : Value) : Value :=
  match op with
  | negate => .number v.toNumber.neg
  | plus => .number v.toNumber
  | not => .boolean !v.isTruthy

def Registry.resolve (r : Registry) (name : String) (arguments : Nat) :
    Except FormulaError Function :=
  match r.get? name with
  | none => .error (.unknownFunction name)
  | some f =>
    if f.arity.admits arguments then .ok f else .error (.argumentCount name f.arity arguments)

namespace Expr

mutual

def eval (b : Bindings) : Expr → Except FormulaError Value
  | number n => .ok (.number n)
  | text s => .ok (.text s)
  | boolean t => .ok (.boolean t)
  | field name =>
    match b.find? name with
    | some n => .ok (.number n)
    | none => .error (.undefinedVariable name)
  | unary op e => do
    let v ← e.eval b
    return op.apply v
  | binary op l r => do
    let v ← l.eval b
    if op.decides v then return .boolean v.isTruthy
    let w ← r.eval b
    return op.apply v w
  | call name args => do
    let f ← Registry.builtin.resolve name args.length
    let vs ← evalAll b args
    (f.apply vs).mapError .argument

def evalAll (b : Bindings) : List Expr → Except FormulaError (List Value)
  | [] => .ok []
  | e :: es => do
    let v ← e.eval b
    let vs ← evalAll b es
    return v :: vs

end

end Expr
end FieldFormula
