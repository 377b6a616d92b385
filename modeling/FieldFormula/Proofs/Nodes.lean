import FieldFormula.Expr

/-!
The nodes of an expression, and the names and texts that stand in them.
-/
namespace FieldFormula.Expr

mutual

/-- The expression and everything in it, each node before its operands. -/
def nodes : Expr → List Expr
  | number n => [number n]
  | text s => [text s]
  | boolean b => [boolean b]
  | field name => [field name]
  | unary op e => unary op e :: e.nodes
  | binary op l r => binary op l r :: (l.nodes ++ r.nodes)
  | call name args => call name args :: nodesAll args

def nodesAll : List Expr → List Expr
  | [] => []
  | e :: es => e.nodes ++ nodesAll es

end

theorem mem_nodes (e : Expr) : e ∈ e.nodes := by
  cases e <;> exact List.mem_cons_self

/- The recursor speaks of lists of arguments by a second motive. Here a call has its
arguments' cases. -/
@[elab_as_elim]
theorem inductOn {motive : Expr → Prop} (e : Expr) (number : ∀ n, motive (number n))
    (text : ∀ s, motive (text s)) (boolean : ∀ b, motive (boolean b))
    (field : ∀ name, motive (field name)) (unary : ∀ op e, motive e → motive (unary op e))
    (binary : ∀ op l r, motive l → motive r → motive (binary op l r))
    (call : ∀ name args, (∀ e ∈ args, motive e) → motive (call name args)) : motive e :=
  Expr.rec (motive_1 := motive) (motive_2 := fun args => ∀ e ∈ args, motive e)
    number text boolean field binary unary call (by simp)
    (fun e es he hes => by simpa using ⟨he, hes⟩) e

section
variable {α : Type} (f : Expr → Option α)

def collect (e : Expr) : List α := e.nodes.filterMap f

/- What is found at the node itself comes first. -/
theorem collect_of_nodes {e : Expr} {es : List Expr} (h : e.nodes = e :: es) :
    e.collect f = (f e).toList ++ es.filterMap f := by
  rw [collect, h, List.filterMap_cons]
  cases f e <;> rfl

theorem collect_unary (op : UnaryOp) (e : Expr) :
    (unary op e).collect f = (f (unary op e)).toList ++ e.collect f := collect_of_nodes f rfl

theorem collect_binary (op : BinaryOp) (l r : Expr) :
    (binary op l r).collect f = (f (binary op l r)).toList ++ (l.collect f ++ r.collect f) := by
  rw [collect_of_nodes f rfl, List.filterMap_append]
  rfl

theorem nodesAll_eq (es : List Expr) : nodesAll es = es.flatMap nodes := by
  induction es with
  | nil => rfl
  | cons e es ih => exact congrArg (e.nodes ++ ·) ih

theorem collect_call (name : String) (args : List Expr) :
    (call name args).collect f = (f (call name args)).toList ++ args.flatMap (collect f) := by
  rw [collect_of_nodes f rfl, nodesAll_eq, List.filterMap_flatMap]
  rfl

end

def name? : Expr → Option String
  | field name => some name
  | call name _ => some name
  | _ => none

def field? : Expr → Option String
  | field name => some name
  | _ => none

def call? : Expr → Option (String × Nat)
  | call name args => some (name, args.length)
  | _ => none

def text? : Expr → Option String
  | text s => some s
  | _ => none

def names (e : Expr) : List String := e.collect name?

def fields (e : Expr) : List String := e.collect field?

def calls (e : Expr) : List (String × Nat) := e.collect call?

def texts (e : Expr) : List String := e.collect text?

theorem fields_unary (op : UnaryOp) (e : Expr) : (unary op e).fields = e.fields := collect_unary ..

theorem fields_binary (op : BinaryOp) (l r : Expr) :
    (binary op l r).fields = l.fields ++ r.fields :=
  collect_binary ..

theorem fields_call (name : String) (args : List Expr) :
    (call name args).fields = args.flatMap fields :=
  collect_call ..

theorem calls_unary (op : UnaryOp) (e : Expr) : (unary op e).calls = e.calls := collect_unary ..

theorem calls_binary (op : BinaryOp) (l r : Expr) : (binary op l r).calls = l.calls ++ r.calls :=
  collect_binary ..

theorem calls_call (name : String) (args : List Expr) :
    (call name args).calls = (name, args.length) :: args.flatMap calls := collect_call ..

theorem texts_binary (op : BinaryOp) (l r : Expr) : (binary op l r).texts = l.texts ++ r.texts :=
  collect_binary ..

theorem texts_call (name : String) (args : List Expr) :
    (call name args).texts = args.flatMap texts :=
  collect_call ..

theorem fields_subset_names (e : Expr) : e.fields ⊆ e.names := by
  intro x hx
  obtain ⟨a, ha, h⟩ := List.mem_filterMap.1 hx
  refine List.mem_filterMap.2 ⟨a, ha, ?_⟩
  cases a <;> simp_all [field?, name?]

end FieldFormula.Expr
