import FieldFormula.Proofs.Nodes
import FieldFormula.Token
import Mathlib.Data.List.Chain

/-!
The grammar of expressions as a type of derivation trees. A tree is indexed by its nonterminal, by
the tokens at its leaves and by the expression that they form.
-/
namespace FieldFormula

/-- Tiers of binary operators, loosest first. -/
inductive Tier where
  | disjunction | conjunction | comparison | sum | product

inductive Nonterminal where
  | tier (t : Tier)
  | unary | power | primary

abbrev Nonterminal.expression : Nonterminal := tier .disjunction

namespace Tier

def operand : Tier → Nonterminal
  | disjunction => .tier conjunction
  | conjunction => .tier comparison
  | comparison => .tier sum
  | sum => .tier product
  | product => .unary

inductive Operator : Tier → Token → BinaryOp → Prop
  | or : Operator disjunction .orOr .or
  | and : Operator conjunction .andAnd .and
  | equal : Operator comparison .equalEqual .equal
  | notEqual : Operator comparison .notEqual .notEqual
  | less : Operator comparison .less .less
  | lessEqual : Operator comparison .lessEqual .lessEqual
  | greater : Operator comparison .greater .greater
  | greaterEqual : Operator comparison .greaterEqual .greaterEqual
  | add : Operator sum .plus .add
  | subtract : Operator sum .minus .subtract
  | multiply : Operator product .star .multiply
  | divide : Operator product .slash .divide
  | remainder : Operator product .percent .remainder

end Tier

inductive Sign : Token → UnaryOp → Prop
  | negate : Sign .minus .negate
  | plus : Sign .plus .plus
  | not : Sign .bang .not

mutual

inductive Derivation : Nonterminal → List Token → Expr → Type
  | tier {t : Tier} {u v : List Token} {e f : Expr} :
      Derivation t.operand u e → Repetition t e v f → Derivation (.tier t) (u ++ v) f
  | signed {s : Token} {op : UnaryOp} {u : List Token} {e : Expr} :
      Sign s op → Derivation .unary u e → Derivation .unary (s :: u) (.unary op e)
  | unsigned {u : List Token} {e : Expr} : Derivation .power u e → Derivation .unary u e
  | base {u : List Token} {e : Expr} : Derivation .primary u e → Derivation .power u e
  | raised {u v : List Token} {e f : Expr} :
      Derivation .primary u e → Derivation .unary v f →
      Derivation .power (u ++ .caret :: v) (.binary .power e f)
  | number (n : Binary64) : Derivation .primary [.number n] (.number n)
  | text (s : String) : Derivation .primary [.text s] (.text s)
  | boolean (b : Bool) : Derivation .primary [.boolean b] (.boolean b)
  | field (name : String) : Derivation .primary [.word name] (.field name)
  | call (name : String) {u : List Token} {es : List Expr} :
      Arguments u es →
      Derivation .primary (.word name :: .openParen :: (u ++ [.closeParen])) (.call name es)
  | group {u : List Token} {e : Expr} :
      Derivation .expression u e → Derivation .primary (.openParen :: (u ++ [.closeParen])) e

/-- Operators of a tier with their right operands, taken one by one into the
expression on the left. -/
inductive Repetition : Tier → Expr → List Token → Expr → Type
  | done {t : Tier} {e : Expr} : Repetition t e [] e
  | more {t : Tier} {s : Token} {op : BinaryOp} {u v : List Token} {e f g : Expr} :
      t.Operator s op → Derivation t.operand u f → Repetition t (.binary op e f) v g →
      Repetition t e (s :: (u ++ v)) g

inductive Arguments : List Token → List Expr → Type
  | none : Arguments [] []
  | some {u v : List Token} {e : Expr} {es : List Expr} :
      Derivation .expression u e → MoreArguments v es → Arguments (u ++ v) (e :: es)

inductive MoreArguments : List Token → List Expr → Type
  | done : MoreArguments [] []
  | more {u v : List Token} {e : Expr} {es : List Expr} :
      Derivation .expression u e → MoreArguments v es → MoreArguments (.comma :: (u ++ v)) (e :: es)

end

mutual

@[simp]
def Derivation.operators {n : Nonterminal} {u : List Token} {e : Expr} : Derivation n u e → Nat
  | .tier d r => d.operators + r.operators
  | .signed _ d => d.operators + 1
  | .unsigned d => d.operators
  | .base d => d.operators
  | .raised d d' => d.operators + d'.operators + 1
  | .number _ => 0
  | .text _ => 0
  | .boolean _ => 0
  | .field _ => 0
  | .call _ a => a.operators + 1
  | .group d => d.operators

@[simp]
def Repetition.operators {t : Tier} {e f : Expr} {u : List Token} : Repetition t e u f → Nat
  | .done => 0
  | .more _ d r => d.operators + r.operators + 1

@[simp]
def Arguments.operators {u : List Token} {es : List Expr} : Arguments u es → Nat
  | .none => 0
  | .some d m => d.operators + m.operators

@[simp]
def MoreArguments.operators {u : List Token} {es : List Expr} : MoreArguments u es → Nat
  | .done => 0
  | .more d m => d.operators + m.operators

end

mutual

/-- The most unary nonterminals on a path from the root to a leaf. -/
def Derivation.depth {n : Nonterminal} {u : List Token} {e : Expr} : Derivation n u e → Nat
  | .tier d r => max d.depth r.depth
  | .signed _ d => d.depth + 1
  | .unsigned d => d.depth + 1
  | .base d => d.depth
  | .raised d d' => max d.depth d'.depth
  | .number _ => 0
  | .text _ => 0
  | .boolean _ => 0
  | .field _ => 0
  | .call _ a => a.depth
  | .group d => d.depth

def Repetition.depth {t : Tier} {e f : Expr} {u : List Token} : Repetition t e u f → Nat
  | .done => 0
  | .more _ d r => max d.depth r.depth

def Arguments.depth {u : List Token} {es : List Expr} : Arguments u es → Nat
  | .none => 0
  | .some d m => max d.depth m.depth

def MoreArguments.depth {u : List Token} {es : List Expr} : MoreArguments u es → Nat
  | .done => 0
  | .more d m => max d.depth m.depth

end

namespace Token

def isMark : Token → Bool
  | number _ => false
  | text _ => false
  | boolean _ => false
  | word _ => false
  | invalid _ => false
  | _ => true

def word? : Token → Option String
  | word name => some name
  | _ => none

def text? : Token → Option String
  | text s => some s
  | _ => none

theorem word?_of_isMark {s : Token} (h : s.isMark = true) : s.word? = none := by
  cases s <;> simp_all [isMark, word?]

theorem text?_eq_some {t : Token} {s : String} (h : t.text? = some s) : t = text s := by
  cases t with
  | text s' => exact congrArg text (Option.some.inj h)
  | _ => cases h

theorem word?_eq_some {t : Token} {name : String} (h : t.word? = some name) : t = word name := by
  cases t with
  | word name' => exact congrArg word (Option.some.inj h)
  | _ => cases h

def words (ts : List Token) : List String := ts.filterMap word?

def Apart (s s' : Token) : Prop := s.isMark = true ∨ s'.isMark = true

structure Tidy (u : List Token) : Prop where
  apart : u.IsChain Apart
  valid : ∀ f, invalid f ∉ u

theorem Tidy.nil : Tidy [] := ⟨.nil, by simp⟩

theorem Tidy.mark {s : Token} {u : List Token} (h : s.isMark = true) (hu : Tidy u) :
    Tidy (s :: u) := by
  refine ⟨List.isChain_cons.2 ⟨fun s' _ => Or.inl h, hu.apart⟩, fun f hf => ?_⟩
  cases List.mem_cons.1 hf with
  | inl e =>
    subst e
    exact absurd h Bool.false_ne_true
  | inr hf => exact hu.valid f hf

theorem Tidy.append {u v : List Token} (hu : Tidy u) (hv : Tidy v)
    (h : ∀ s ∈ v.head?, s.isMark = true) : Tidy (u ++ v) := by
  refine ⟨List.isChain_append.2 ⟨hu.apart, hv.apart, fun s _ s' hs' => Or.inr (h s' hs')⟩,
    fun f hf => ?_⟩
  cases List.mem_append.1 hf with
  | inl hf => exact hu.valid f hf
  | inr hf => exact hv.valid f hf

theorem Tidy.operand {s : Token} (h : ∀ f, s ≠ invalid f) : Tidy [s] :=
  ⟨.singleton s, fun f hf => h f (List.mem_singleton.1 hf).symm⟩

theorem Tidy.enclosed {u : List Token} (hu : Tidy u) : Tidy (openParen :: (u ++ [closeParen])) := by
  have hc : Tidy [closeParen] := Tidy.nil.mark rfl
  exact (hu.append hc (by simp [isMark])).mark rfl

end Token

open Token

theorem Tier.Operator.isMark {t : Tier} {s : Token} {op : BinaryOp} (h : t.Operator s op) :
    s.isMark = true := by
  cases h <;> rfl

theorem Sign.isMark {s : Token} {op : UnaryOp} (h : Sign s op) : s.isMark = true := by
  cases h <;> rfl

/-- What is found in the nodes of an expression and in its tokens is the same where operators and
marks count for nothing, and a call for as much as its name. -/
structure Finds {α : Type} (f : Expr → Option α) (g : Token → Option α) : Prop where
  unary : ∀ op e, f (.unary op e) = none
  binary : ∀ op l r, f (.binary op l r) = none
  mark : ∀ s : Token, s.isMark = true → g s = none
  number : ∀ n, f (.number n) = g (.number n)
  text : ∀ s, f (.text s) = g (.text s)
  boolean : ∀ b, f (.boolean b) = g (.boolean b)
  field : ∀ name, f (.field name) = g (.word name)
  call : ∀ name args, f (.call name args) = g (.word name)

section
variable {α : Type} {f : Expr → Option α} {g : Token → Option α}

theorem filterMap_leaf {t : Token} {e : Expr} (hn : e.nodes = [e]) (he : f e = g t) :
    [t].filterMap g = e.collect f := by
  rw [Expr.collect, hn, List.filterMap_cons, List.filterMap_cons, he]
  rfl

theorem Finds.filterMap_mark (h : Finds f g) {s : Token} (hs : s.isMark = true) (u : List Token) :
    (s :: u).filterMap g = u.filterMap g :=
  List.filterMap_cons_none (h.mark s hs)

theorem Finds.filterMap_enclosed (h : Finds f g) (u : List Token) :
    (openParen :: (u ++ [closeParen])).filterMap g = u.filterMap g := by
  rw [h.filterMap_mark rfl, List.filterMap_append, h.filterMap_mark rfl]
  exact List.append_nil _

theorem Finds.collect_unary (h : Finds f g) (op : UnaryOp) (e : Expr) :
    (Expr.unary op e).collect f = e.collect f := by
  rw [Expr.collect_unary, h.unary]
  rfl

theorem Finds.collect_binary (h : Finds f g) (op : BinaryOp) (l r : Expr) :
    (Expr.binary op l r).collect f = l.collect f ++ r.collect f := by
  rw [Expr.collect_binary, h.binary]
  rfl

mutual

theorem Derivation.filterMap_eq (h : Finds f g) {n : Nonterminal} {u : List Token} {e : Expr} :
    Derivation n u e → u.filterMap g = e.collect f
  | .tier d r => by rw [r.collect_eq h, List.filterMap_append, d.filterMap_eq h]
  | .signed hs d => by rw [h.filterMap_mark hs.isMark, d.filterMap_eq h, h.collect_unary]
  | .unsigned d => d.filterMap_eq h
  | .base d => d.filterMap_eq h
  | .raised d d' => by
    rw [List.filterMap_append, h.filterMap_mark rfl, d.filterMap_eq h, d'.filterMap_eq h,
      h.collect_binary]
  | .number n => filterMap_leaf rfl (h.number n)
  | .text s => filterMap_leaf rfl (h.text s)
  | .boolean b => filterMap_leaf rfl (h.boolean b)
  | .field name => filterMap_leaf rfl (h.field name)
  | .call name a => by
    rw [Expr.collect_call, ← a.filterMap_eq h, h.call, List.filterMap_cons, h.filterMap_enclosed]
    cases g (.word name) <;> rfl
  | .group d => by rw [h.filterMap_enclosed, d.filterMap_eq h]

theorem Repetition.collect_eq (h : Finds f g) {t : Tier} {u : List Token} {e e' : Expr} :
    Repetition t e u e' → e'.collect f = e.collect f ++ u.filterMap g
  | .done => (List.append_nil _).symm
  | .more hs d r => by
    rw [r.collect_eq h, h.collect_binary, h.filterMap_mark hs.isMark, List.filterMap_append,
      d.filterMap_eq h, List.append_assoc]

theorem Arguments.filterMap_eq (h : Finds f g) {u : List Token} {es : List Expr} :
    Arguments u es → u.filterMap g = es.flatMap (Expr.collect f)
  | .none => rfl
  | .some d m => by
    rw [List.filterMap_append, d.filterMap_eq h, m.filterMap_eq h, List.flatMap_cons]

theorem MoreArguments.filterMap_eq (h : Finds f g) {u : List Token} {es : List Expr} :
    MoreArguments u es → u.filterMap g = es.flatMap (Expr.collect f)
  | .done => rfl
  | .more d m => by
    rw [h.filterMap_mark rfl, List.filterMap_append, d.filterMap_eq h, m.filterMap_eq h,
      List.flatMap_cons]

end

end

theorem Derivation.words_eq {n : Nonterminal} {u : List Token} {e : Expr} (d : Derivation n u e) :
    words u = e.names :=
  d.filterMap_eq ⟨fun _ _ => rfl, fun _ _ _ => rfl,
    fun _ => word?_of_isMark, fun _ => rfl, fun _ => rfl,
    fun _ => rfl, fun _ => rfl, fun _ _ => rfl⟩

theorem Derivation.texts_eq {n : Nonterminal} {u : List Token} {e : Expr} (d : Derivation n u e) :
    u.filterMap Token.text? = e.texts := by
  refine d.filterMap_eq ⟨fun _ _ => rfl,
    fun _ _ _ => rfl, fun t ht => ?_, fun _ => rfl, fun _ => rfl, fun _ => rfl,
    fun _ => rfl, fun _ _ => rfl⟩
  cases t with
  | text s => cases ht
  | _ => rfl

theorem Repetition.head_isMark {t : Tier} {u : List Token} {e f : Expr} (r : Repetition t e u f) :
    ∀ s ∈ u.head?, s.isMark = true := by
  cases r with
  | done => simp
  | more h d r => simpa using h.isMark

theorem MoreArguments.head_isMark {u : List Token} {es : List Expr} (m : MoreArguments u es) :
    ∀ s ∈ u.head?, s.isMark = true := by
  cases m with
  | done => simp
  | more d m => simp [isMark]

theorem Derivation.head {n : Nonterminal} {u : List Token} {e : Expr} :
    Derivation n u e → ∃ s v, u = s :: v ∧ s ≠ closeParen
  | .tier d r => by
    obtain ⟨s, v, rfl, h⟩ := d.head
    exact ⟨s, _, rfl, h⟩
  | .signed h d => by
    refine ⟨_, _, rfl, fun hs => ?_⟩
    subst hs
    cases h
  | .unsigned d => d.head
  | .base d => d.head
  | .raised d d' => by
    obtain ⟨s, v, rfl, h⟩ := d.head
    exact ⟨s, _, rfl, h⟩
  | .number _ => ⟨_, _, rfl, nofun⟩
  | .text _ => ⟨_, _, rfl, nofun⟩
  | .boolean _ => ⟨_, _, rfl, nofun⟩
  | .field _ => ⟨_, _, rfl, nofun⟩
  | .call _ _ => ⟨_, _, rfl, nofun⟩
  | .group _ => ⟨_, _, rfl, nofun⟩

mutual

theorem Derivation.tidy {n : Nonterminal} {u : List Token} {e : Expr} : Derivation n u e → Tidy u
  | .tier d r => d.tidy.append r.tidy r.head_isMark
  | .signed h d => d.tidy.mark h.isMark
  | .unsigned d => d.tidy
  | .base d => d.tidy
  | .raised d d' => d.tidy.append (d'.tidy.mark rfl) (by simp [isMark])
  | .number _ => .operand nofun
  | .text _ => .operand nofun
  | .boolean _ => .operand nofun
  | .field _ => .operand nofun
  | .call name a => by
    have hw : Tidy [word name] := .operand nofun
    exact hw.append a.tidy.enclosed (by simp [isMark])
  | .group d => d.tidy.enclosed

theorem Repetition.tidy {t : Tier} {u : List Token} {e f : Expr} : Repetition t e u f → Tidy u
  | .done => .nil
  | .more h d r => (d.tidy.append r.tidy r.head_isMark).mark h.isMark

theorem Arguments.tidy {u : List Token} {es : List Expr} : Arguments u es → Tidy u
  | .none => .nil
  | .some d m => d.tidy.append m.tidy m.head_isMark

theorem MoreArguments.tidy {u : List Token} {es : List Expr} : MoreArguments u es → Tidy u
  | .done => .nil
  | .more d m => (d.tidy.append m.tidy m.head_isMark).mark rfl

end

end FieldFormula
