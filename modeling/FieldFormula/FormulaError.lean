import FieldFormula.Expr

/-!
Why a formula has no value.
-/
namespace FieldFormula

/-- How many arguments a function takes; without `most` there is no limit. -/
structure Arity where
  least : Nat
  most : Option Nat
  deriving DecidableEq

namespace Arity

def admits (a : Arity) (n : Nat) : Bool := a.least ≤ n && a.most.all (n ≤ ·)

def describe (a : Arity) : String :=
  match a.most with
  | some most => if most = a.least then most.repr else a.least.repr ++ " to " ++ most.repr
  | none => "at least " ++ a.least.repr

end Arity

inductive ArgumentError where
  /-- the argument with this position, counted from one, is not there -/
  | missing (function : String) (position : Nat)
  | needsOne (function : String)
  | unknownReturnType (name : String)
  deriving DecidableEq

def ArgumentError.message : ArgumentError → String
  | missing function position => function ++ " is missing argument " ++ position.repr
  | needsOne function => function ++ " requires 1 argument"
  | unknownReturnType name => "Unknown return type: " ++ name

/-- Why a formula fails. A kind for evaluations that fail otherwise, with a message that begins
`Evaluation error: `, is left out, since nothing would raise it: operators and functions take values
of every kind, and only names and numbers of arguments can be wrong. -/
inductive FormulaError where
  | parse (e : ParseError)
  | undefinedVariable (name : String)
  | unknownFunction (name : String)
  | argumentCount (function : String) (arity : Arity) (actual : Nat)
  | argument (e : ArgumentError)
  deriving DecidableEq

def FormulaError.message : FormulaError → String
  | parse e => "Parse error: " ++ e.message
  | undefinedVariable name => "Undefined variable: " ++ name
  | unknownFunction name => "Unknown function: " ++ name
  | argumentCount function arity actual =>
    "Wrong number of arguments for " ++ function ++ ": expected " ++ arity.describe ++ ", got " ++
      actual.repr
  | argument e => "Invalid argument: " ++ e.message

end FieldFormula
