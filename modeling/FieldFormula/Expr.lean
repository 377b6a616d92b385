import FieldFormula.Token.Lexer

/-!
Expressions: literals, names of fields, operators and calls. Parentheses leave no trace. They are
read from tokens: binary operators come in five tiers and group to the left; a prefix operator binds
tighter than they do, and `^` tighter still, grouping to the right. Nesting and the number of
operators are limited, so that whoever walks over the expression does not go too deep.
-/
namespace FieldFormula

inductive BinaryOp where
  | add | subtract | multiply | divide | remainder | power
  | equal | notEqual | less | lessEqual | greater | greaterEqual
  | and | or
  deriving DecidableEq

inductive UnaryOp where
  | negate | plus | not
  deriving DecidableEq

inductive Expr where
  | number (n : Binary64)
  | text (s : String)
  | boolean (b : Bool)
  | field (name : String)
  | binary (op : BinaryOp) (left right : Expr)
  | unary (op : UnaryOp) (operand : Expr)
  | call (name : String) (args : List Expr)

namespace Expr

def maxDepth : Nat := 64

def maxOperators : Nat := 500

end Expr

inductive ParseError where
  | empty
  | fault (f : LexicalFault)
  | trailing (found : Token)
  /-- a value is missing; the end of the text is `none` -/
  | noValue (found : Option Token)
  | unclosed (found : Option Token)
  | tooDeep
  | tooManyOperators
  deriving DecidableEq

namespace ParseError

def describe : Option Token → String
  | some t => t.describe
  | none => "end of expression"

def message : ParseError → String
  | empty => "Empty expression"
  | fault f => f.message
  | trailing t => "Unexpected " ++ t.describe ++ " after expression"
  | noValue t => "Unexpected " ++ describe t ++ ", expected a value"
  | unclosed t => "Unexpected " ++ describe t ++ ", expected ')'"
  | tooDeep => "Expression nested deeper than " ++ Expr.maxDepth.repr ++ " levels"
  | tooManyOperators => "Expression has more than " ++ Expr.maxOperators.repr ++ " operators"

/-- The error at the head of `ts`; an invalid token is reported as what is wrong with it. -/
def found (error : Option Token → ParseError) (ts : List Token) : ParseError :=
  match ts.head? with
  | some (.invalid f) => fault f
  | t => error t

end ParseError

namespace Expr

/-- What was read, the fewer than `n` tokens that follow, and how many operators are
still allowed. -/
structure Parsed (α : Type) (n : Nat) where
  value : α
  rest : List Token
  spare : Nat
  shorter : rest.length < n

abbrev Reader := (ts : List Token) → (spare : Nat) → Except ParseError (Parsed Expr ts.length)

def countOperator : Nat → Except ParseError Nat
  | 0 => .error .tooManyOperators
  | spare + 1 => .ok spare

def orOp? : Token → Option BinaryOp
  | .orOr => some .or
  | _ => none

def andOp? : Token → Option BinaryOp
  | .andAnd => some .and
  | _ => none

def comparison? : Token → Option BinaryOp
  | .equalEqual => some .equal
  | .notEqual => some .notEqual
  | .less => some .less
  | .lessEqual => some .lessEqual
  | .greater => some .greater
  | .greaterEqual => some .greaterEqual
  | _ => none

def sumOp? : Token → Option BinaryOp
  | .plus => some .add
  | .minus => some .subtract
  | _ => none

def productOp? : Token → Option BinaryOp
  | .star => some .multiply
  | .slash => some .divide
  | .percent => some .remainder
  | _ => none

def tiers : List (Token → Option BinaryOp) := [orOp?, andOp?, comparison?, sumOp?, productOp?]

def sign? : Token → Option UnaryOp
  | .minus => some .negate
  | .plus => some .plus
  | .bang => some .not
  | _ => none

/-- Takes operators of one tier into `left`, each with its right operand, as long as
there are any. -/
def extend (op? : Token → Option BinaryOp) (operand : Reader) (left : Expr) (ts : List Token)
    (spare : Nat) :
    Except ParseError (Parsed Expr (ts.length + 1)) :=
  match ts with
  | [] => .ok ⟨left, [], spare, by simp⟩
  | t :: ts =>
    match op? t with
    | none => .ok ⟨left, t :: ts, spare, by simp⟩
    | some op => do
      let spare ← countOperator spare
      let p ← operand ts spare
      have := p.shorter
      let q ← extend op? operand (.binary op left p.value) p.rest p.spare
      return ⟨q.value, q.rest, q.spare, by have := q.shorter; simp only [List.length_cons]; omega⟩
termination_by ts.length

def chain (op? : Token → Option BinaryOp) (operand : Reader) : Reader := fun ts spare => do
  let p ← operand ts spare
  let q ← extend op? operand p.value p.rest p.spare
  return ⟨q.value, q.rest, q.spare, by have := p.shorter; have := q.shorter; omega⟩

def expression (operand : Reader) : Reader := tiers.foldr chain operand

def moreArgs (operand : Reader) (ts : List Token) (spare : Nat) :
    Except ParseError (Parsed (List Expr) (ts.length + 1)) :=
  match ts with
  | .comma :: ts => do
    let p ← expression operand ts spare
    have := p.shorter
    let q ← moreArgs operand p.rest p.spare
    return ⟨p.value :: q.value, q.rest, q.spare,
      by have := q.shorter; simp only [List.length_cons]; omega⟩
  | ts => .ok ⟨[], ts, spare, by simp⟩
termination_by ts.length

def close {α : Type} {n : Nat} (p : Parsed α n) : Except ParseError (Parsed α n) :=
  match h : p.rest with
  | .closeParen :: rest =>
    .ok ⟨p.value, rest, p.spare, by have := p.shorter; rw [h, List.length_cons] at this; omega⟩
  | ts => .error (.found .unclosed ts)

def arguments (operand : Reader) (ts : List Token) (spare : Nat) :
    Except ParseError (Parsed (List Expr) (ts.length + 1)) :=
  match ts with
  | .closeParen :: ts => .ok ⟨[], ts, spare, by simp only [List.length_cons]; omega⟩
  | ts => do
    let p ← expression operand ts spare
    let q ← moreArgs operand p.rest p.spare
    close ⟨p.value :: q.value, q.rest, q.spare, by have := p.shorter; have := q.shorter; omega⟩

def primary (operand : Reader) : Reader := fun ts spare =>
  match ts with
  | .number n :: ts => .ok ⟨.number n, ts, spare, by simp⟩
  | .text s :: ts => .ok ⟨.text s, ts, spare, by simp⟩
  | .boolean b :: ts => .ok ⟨.boolean b, ts, spare, by simp⟩
  | .word name :: .openParen :: ts => do
    let spare ← countOperator spare
    let p ← arguments operand ts spare
    return ⟨.call name p.value, p.rest, p.spare,
      by have := p.shorter; simp only [List.length_cons]; omega⟩
  | .word name :: ts => .ok ⟨.field name, ts, spare, by simp⟩
  | .openParen :: ts => do
    let p ← expression operand ts spare
    close ⟨p.value, p.rest, p.spare, by have := p.shorter; simp only [List.length_cons]; omega⟩
  | ts => .error (.found .noValue ts)

def power (operand : Reader) : Reader := fun ts spare => do
  let p ← primary operand ts spare
  match h : p.rest with
  | .caret :: rest =>
    let spare ← countOperator p.spare
    let q ← operand rest spare
    return ⟨.binary .power p.value q.value, q.rest, q.spare, by
      have := p.shorter; have := q.shorter; rw [h, List.length_cons] at *; omega⟩
  | _ => return p

def operandAt : (levels : Nat) → Reader
  | 0 => fun _ _ => .error .tooDeep
  | levels + 1 => fun ts spare =>
    match ts with
    | t :: rest =>
      match sign? t with
      | some op => do
        let spare ← countOperator spare
        let p ← operandAt levels rest spare
        return ⟨.unary op p.value, p.rest, p.spare,
          by have := p.shorter; simp only [List.length_cons]; omega⟩
      | none => power (operandAt levels) (t :: rest) spare
    | [] => power (operandAt levels) [] spare

def ofTokens (ts : List Token) : Except ParseError Expr :=
  match ts with
  | [] => .error .empty
  | ts => do
    let p ← expression (operandAt maxDepth) ts maxOperators
    match p.rest with
    | [] => return p.value
    | .invalid f :: _ => throw (.fault f)
    | t :: _ => throw (.trailing t)

def parse (formula : String) : Except ParseError Expr := ofTokens (Token.scan formula.toList)

end Expr

end FieldFormula
