import FieldFormula.Eval
import FieldFormula.Proofs.Nodes
import FieldFormula.Proofs.Readers

/-!
How deep evaluation nests. A gauge counts the calls that are active; evaluation with a
gauge gives what evaluation gives, and has at most as many calls active as the
expression is high, and exactly so many where no operand is skipped. The height is at
most one more than the number of operators and calls.
-/
namespace FieldFormula

/-- A computation with a state, which is there after a failure, too. -/
def Run (σ ε α : Type) := σ → Except ε α × σ

namespace Run
variable {σ ε α : Type}

instance : Monad (Run σ ε) where
  pure a s := (.ok a, s)
  bind x f s :=
    match x s with
    | (.ok a, s) => f a s
    | (.error err, s) => (.error err, s)

def lift (x : Except ε α) : Run σ ε α := fun s => (x, s)

variable {β : Type} {x : Run σ ε α} {f : α → Run σ ε β} {s s' : σ}

theorem lift_ok_bind (a : α) (f : α → Run σ ε β) : lift (.ok a) >>= f = f a := rfl

theorem bind_of_ok {a : α} (h : x s = (.ok a, s')) : (x >>= f) s = f a s' := by
  change (match x s with
    | (.ok a, s) => f a s
    | (.error err, s) => (.error err, s)) = _
  rw [h]

theorem bind_of_error {err : ε} (h : x s = (.error err, s')) : (x >>= f) s = (.error err, s') := by
  change (match x s with
    | (.ok a, s) => f a s
    | (.error err, s) => (.error err, s)) = _
  rw [h]

end Run

/-- How many calls of a function are active, and how many of them have been so far. -/
structure Gauge where
  active : Nat
  deepest : Nat

namespace Gauge
variable {ε α β : Type} {j k : Nat}

def enter (g : Gauge) : Gauge := ⟨g.active + 1, max g.deepest (g.active + 1)⟩

def leave (g : Gauge) : Gauge := ⟨g.active - 1, g.deepest⟩

def call (body : Run Gauge ε α) : Run Gauge ε α := fun g =>
  let (r, g) := body g.enter
  (r, g.leave)

/-- The run gives this result, has at most `k` calls active beyond those that were,
and ends with none of them. -/
def Nests (k : Nat) (x : Run Gauge ε α) (r : Except ε α) : Prop :=
  ∀ g, (x g).1 = r ∧ (x g).2.active = g.active ∧ (x g).2.deepest ≤ max g.deepest (g.active + k)

theorem Nests.mono {x : Run Gauge ε α} {r : Except ε α} (h : Nests j x r) (hk : j ≤ k) :
    Nests k x r := by
  intro g
  obtain ⟨hr, ha, hd⟩ := h g
  exact ⟨hr, ha, by omega⟩

theorem nests_lift (r : Except ε α) : Nests k (Run.lift r) r :=
  fun _ => ⟨rfl, rfl, Nat.le_max_left ..⟩

theorem Nests.bind {x : Run Gauge ε α} {r : Except ε α} {f : α → Run Gauge ε β} {s : α → Except ε β}
    (hx : Nests k x r) (hf : ∀ a, Nests k (f a) (s a)) : Nests k (x >>= f) (r >>= s) := by
  intro g
  obtain ⟨rfl, ha, hd⟩ := hx g
  cases h : x g with
  | mk r g' =>
    rw [h] at ha hd
    cases r with
    | ok a =>
      obtain ⟨hr', ha', hd'⟩ := hf a g'
      rw [Run.bind_of_ok h]
      refine ⟨hr', ha'.trans ha, ?_⟩
      dsimp only at ha hd
      omega
    | error err =>
      rw [Run.bind_of_error h]
      exact ⟨rfl, ha, hd⟩

theorem Nests.call {x : Run Gauge ε α} {r : Except ε α} (h : Nests k x r) :
    Nests (k + 1) (call x) r := by
  intro g
  obtain ⟨hr, ha, hd⟩ := h g.enter
  refine ⟨hr, ?_, ?_⟩
  · change (x g.enter).2.active - 1 = g.active
    rw [ha]
    rfl
  · change (x g.enter).2.deepest ≤ _
    simp only [enter] at hd ⊢
    omega

/-- The run gives this value, and at some moment it has `k` calls active beyond those
that were, and never more. -/
def Reaches (k : Nat) (x : Run Gauge ε α) (a : α) : Prop :=
  ∀ g, g.active ≤ g.deepest → x g = (.ok a, ⟨g.active, max g.deepest (g.active + k)⟩)

theorem reaches_lift (a : α) : Reaches 0 (Run.lift (.ok a) : Run Gauge ε α) a := by
  intro g hg
  rw [Nat.add_zero, Nat.max_eq_left hg]
  rfl

theorem Reaches.bind {x : Run Gauge ε α} {a : α} {f : α → Run Gauge ε β} {b : β}
    (hx : Reaches j x a) (hf : Reaches k (f a) b) : Reaches (max j k) (x >>= f) b := by
  intro g hg
  have hf' := hf ⟨g.active, max g.deepest (g.active + j)⟩ (Nat.le_trans hg (Nat.le_max_left ..))
  rw [Nat.max_assoc, Nat.add_max_add_left] at hf'
  exact (Run.bind_of_ok (hx g hg)).trans hf'

theorem Reaches.then_lift {x : Run Gauge ε α} {a : α} {f : α → Run Gauge ε β} {b : β}
    (h : Reaches k x a) (hf : f a = Run.lift (.ok b)) : Reaches k (x >>= f) b := by
  have hb : Reaches 0 (f a) b := hf ▸ reaches_lift b
  have hx := h.bind hb
  rwa [Nat.max_zero] at hx

/- What a call adds is the one activation that `enter` records. -/
theorem Reaches.call {x : Run Gauge ε α} {a : α} (h : Reaches k x a) :
    Reaches (k + 1) (call x) a := by
  intro g hg
  have hx := h g.enter (Nat.le_max_right ..)
  have hdeepest : max (max g.deepest (g.active + 1)) (g.active + 1 + k) =
      max g.deepest (g.active + (k + 1)) := by
    omega
  rw [Gauge.call, hx]
  simp only [enter, leave, Nat.add_sub_cancel, hdeepest]

end Gauge

namespace Expr

mutual

def height : Expr → Nat
  | unary _ e => e.height + 1
  | binary _ l r => max l.height r.height + 1
  | call _ args => heightAll args + 1
  | _ => 1

def heightAll : List Expr → Nat
  | [] => 0
  | e :: es => max e.height (heightAll es)

end

def isOperator : Expr → Bool
  | unary .. => true
  | binary .. => true
  | call .. => true
  | _ => false

def operators (e : Expr) : Nat := e.nodes.countP isOperator

theorem operators_unary (op : UnaryOp) (e : Expr) : (unary op e).operators = e.operators + 1 :=
  List.countP_cons_of_pos rfl

theorem operators_binary (op : BinaryOp) (l r : Expr) :
    (binary op l r).operators = l.operators + r.operators + 1 := by
  rw [operators, nodes, List.countP_cons_of_pos rfl, List.countP_append]
  rfl

def operatorsAll (es : List Expr) : Nat := (nodesAll es).countP isOperator

theorem operatorsAll_cons (e : Expr) (es : List Expr) :
    operatorsAll (e :: es) = e.operators + operatorsAll es :=
  List.countP_append

theorem operators_call (name : String) (args : List Expr) :
    (call name args).operators = operatorsAll args + 1 :=
  List.countP_cons_of_pos rfl

theorem height_le (e : Expr) : e.height ≤ e.operators + 1 := by
  induction e using inductOn with
  | number n => exact Nat.le_add_left ..
  | text s => exact Nat.le_add_left ..
  | boolean b => exact Nat.le_add_left ..
  | field name => exact Nat.le_add_left ..
  | unary op e ih =>
    rw [height, operators_unary]
    omega
  | binary op l r hl hr =>
    rw [height, operators_binary]
    omega
  | call name args ih =>
    have hall : heightAll args ≤ operatorsAll args + 1 := by
      induction args with
      | nil => exact Nat.zero_le _
      | cons e es ihs =>
        obtain ⟨he, hes⟩ := List.forall_mem_cons.1 ih
        have := ihs hes
        rw [heightAll, operatorsAll_cons]
        omega
    rw [height, operators_call]
    omega

mutual

def evalGauged (functions : Registry) (b : Bindings) : Expr → Run Gauge FormulaError Value
  | number n => Gauge.call (return .number n)
  | text s => Gauge.call (return .text s)
  | boolean t => Gauge.call (return .boolean t)
  | field name => Gauge.call <|
    match b.find? name with
    | some n => return .number n
    | none => .lift (.error (.undefinedVariable name))
  | unary op e => Gauge.call do
    let v ← e.evalGauged functions b
    return op.apply v
  | binary op l r => Gauge.call do
    let v ← l.evalGauged functions b
    if op.decides v then return .boolean v.isTruthy
    let w ← r.evalGauged functions b
    return op.apply v w
  | call name args => Gauge.call do
    let f ← .lift (functions.resolve name args.length)
    let vs ← evalAllGauged functions b args
    .lift ((f.apply vs).mapError .argument)

def evalAllGauged (functions : Registry) (b : Bindings) :
    List Expr → Run Gauge FormulaError (List Value)
  | [] => return []
  | e :: es => do
    let v ← e.evalGauged functions b
    let vs ← evalAllGauged functions b es
    return v :: vs

end

open Gauge

section
variable {k : Nat} (b : Bindings)

theorem evalAllGauged_nests {es : List Expr}
    (h : ∀ e ∈ es, Nests k (e.evalGauged .builtin b) (e.eval b)) :
    Nests k (evalAllGauged .builtin b es) (evalAll b es) := by
  induction es with
  | nil => exact nests_lift _
  | cons e es ih =>
    obtain ⟨he, hes⟩ := List.forall_mem_cons.1 h
    rw [evalAllGauged, evalAll]
    exact he.bind fun v => (ih hes).bind fun vs => nests_lift _

theorem height_le_heightAll {es : List Expr} : ∀ e ∈ es, e.height ≤ heightAll es := by
  induction es with
  | nil => exact List.forall_mem_nil _
  | cons e es ih =>
    refine List.forall_mem_cons.2 ⟨Nat.le_max_left .., fun e' he => ?_⟩
    exact Nat.le_trans (ih e' he) (Nat.le_max_right ..)

/-- With a gauge the value is the same, and a call of the evaluation is active for at
most every node of a path. -/
theorem evalGauged_nests (e : Expr) : Nests e.height (e.evalGauged .builtin b) (e.eval b) := by
  induction e using inductOn with
  | number n => exact (nests_lift (k := 0) _).call
  | text s => exact (nests_lift (k := 0) _).call
  | boolean t => exact (nests_lift (k := 0) _).call
  | field name =>
    rw [evalGauged, eval]
    refine Nests.call (k := 0) ?_
    cases b.find? name with
    | none => exact nests_lift _
    | some n => exact nests_lift _
  | unary op e ih =>
    rw [evalGauged, eval, height]
    exact (ih.bind fun v => nests_lift _).call
  | binary op l r hl hr =>
    rw [evalGauged, eval, height]
    refine Nests.call ((hl.mono (Nat.le_max_left ..)).bind fun v => ?_)
    split
    · exact nests_lift _
    · exact (hr.mono (Nat.le_max_right ..)).bind fun w => nests_lift _
  | call name args ih =>
    rw [evalGauged, eval, height]
    have hargs := evalAllGauged_nests b fun e he => (ih e he).mono (height_le_heightAll e he)
    exact ((nests_lift _).bind fun f => hargs.bind fun vs => nests_lift _).call

def SkipsNothing (e : Expr) : Prop :=
  ∀ op l r, binary op l r ∈ e.nodes → ∀ v, l.eval b = .ok v → op.decides v = false

variable {b} in
theorem SkipsNothing.of_subset {e e' : Expr} (hs : e.SkipsNothing b) (h : e'.nodes ⊆ e.nodes) :
    e'.SkipsNothing b :=
  fun op l r hb => hs op l r (h hb)

theorem evalAllGauged_reaches {es : List Expr} {vs : List Value}
    (h : ∀ e ∈ es, ∀ v, e.eval b = .ok v → Reaches e.height (e.evalGauged .builtin b) v)
    (hvs : evalAll b es = .ok vs) : Reaches (heightAll es) (evalAllGauged .builtin b es) vs := by
  induction es generalizing vs with
  | nil =>
    cases hvs
    exact reaches_lift _
  | cons e es ih =>
    obtain ⟨he, hes⟩ := List.forall_mem_cons.1 h
    obtain ⟨v, hv, hvs⟩ := bind_eq_ok.1 hvs
    obtain ⟨ws, hws, hvs⟩ := bind_eq_ok.1 hvs
    cases hvs
    exact (he v hv).bind ((ih hes hws).then_lift rfl)

/-- Where an expression has a value and skips nothing, the gauge records every node
of a longest path. -/
theorem evalGauged_reaches {e : Expr} {v : Value} (hs : e.SkipsNothing b) (hv : e.eval b = .ok v) :
    Reaches e.height (e.evalGauged .builtin b) v := by
  induction e using inductOn generalizing v with
  | number n =>
    cases hv
    exact (reaches_lift _).call
  | text s =>
    cases hv
    exact (reaches_lift _).call
  | boolean t =>
    cases hv
    exact (reaches_lift _).call
  | field name =>
    rw [eval] at hv
    rw [evalGauged]
    cases hn : b.find? name with
    | none =>
      rw [hn] at hv
      cases hv
    | some n =>
      rw [hn] at hv
      cases hv
      exact (reaches_lift _).call
  | unary op e ih =>
    have he := hs.of_subset (List.subset_cons_self _ e.nodes)
    obtain ⟨w, hw, hv⟩ := bind_eq_ok.1 hv
    cases hv
    rw [evalGauged, height]
    exact ((ih he hw).then_lift rfl).call
  | binary op l r ihl ihr =>
    have hl := hs.of_subset (List.subset_cons_of_subset _ (List.subset_append_left ..))
    have hr := hs.of_subset (List.subset_cons_of_subset _ (List.subset_append_right ..))
    obtain ⟨w, hw, hv⟩ := bind_eq_ok.1 hv
    have hd := hs op l r (mem_nodes _) w hw
    rw [hd] at hv
    obtain ⟨w', hw', hv⟩ := bind_eq_ok.1 hv
    cases hv
    rw [evalGauged, height]
    refine ((ihl hl hw).bind ?_).call
    rw [hd]
    exact (ihr hr hw').then_lift rfl
  | call name args ih =>
    obtain ⟨f, hf, hv⟩ := bind_eq_ok.1 hv
    obtain ⟨vs, hvs, hv⟩ := bind_eq_ok.1 hv
    have hargs : ∀ e ∈ args, e.SkipsNothing b := by
      intro e he
      refine hs.of_subset (List.subset_cons_of_subset _ ?_)
      rw [nodesAll_eq]
      exact fun m hm => List.mem_flatMap.2 ⟨e, he, hm⟩
    have hall := evalAllGauged_reaches b (fun e he _ => ih e he (hargs e he)) hvs
    rw [evalGauged, height, hf, Run.lift_ok_bind]
    exact (hall.then_lift (congrArg Run.lift hv)).call

end

end Expr
end FieldFormula
