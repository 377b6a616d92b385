import FieldFormula.Expr
import FieldFormula.Proofs.NestedCalls

/-!
The parser with its limits as counters. A counter of depth goes up and down with the nesting of
operands, a counter of operators only up, and what exceeds a limit is refused when it is counted. A
gauge keeps how many prefix calls are active. The readers give the same as those that are told how
much is left, and the gauge never goes beyond the levels that are left.
-/
namespace FieldFormula.Expr

structure Counters where
  depth : Nat
  operators : Nat
  prefixes : Gauge

namespace Counters

def start : Counters := ⟨0, 0, ⟨0, 0⟩⟩

/-- Reading goes on with these counters: the depth is back, no call is left, none that was recorded
is forgotten, and as many operators are refused. -/
structure Kept (levels : Nat) (c c' : Counters) : Prop where
  depth : c'.depth = c.depth
  active : c'.prefixes.active = c.prefixes.active
  rises : c.prefixes.deepest ≤ c'.prefixes.deepest
  deepest : c'.prefixes.deepest ≤ max c.prefixes.deepest (c.prefixes.active + levels)
  operators : max c'.operators maxOperators = max c.operators maxOperators

theorem Kept.refl (levels : Nat) (c : Counters) : Kept levels c c :=
  ⟨rfl, rfl, Nat.le_refl _, Nat.le_max_left .., rfl⟩

theorem Kept.trans {levels : Nat} {c c' c'' : Counters} (h : Kept levels c c')
    (h' : Kept levels c' c'') : Kept levels c c'' := by
  have hd := h.deepest
  have hd' := h'.deepest
  rw [h.active] at hd'
  exact ⟨h'.depth.trans h.depth, h'.active.trans h.active, Nat.le_trans h.rises h'.rises, by omega,
    h'.operators.trans h.operators⟩

end Counters

structure Taken (α : Type) (n : Nat) where
  value : α
  rest : List Token
  shorter : rest.length < n

theorem Taken.shorter_tail {α : Type} {n : Nat} {p : Taken α n} {t : Token} {rest : List Token}
    (h : p.rest = t :: rest) : rest.length < n := by
  have hp := p.shorter
  rw [h] at hp
  exact Nat.lt_of_succ_lt hp

namespace Counted

abbrev Reading (α : Type) (n : Nat) := Run Counters ParseError (Taken α n)

abbrev Reader (n : Nat) := (ts : List Token) → ts.length < n → Reading Expr ts.length

def count : Run Counters ParseError Unit := fun c =>
  if maxOperators < c.operators + 1 then
    (.error .tooManyOperators, { c with operators := c.operators + 1 })
  else (.ok (), { c with operators := c.operators + 1 })

/-- A prefix call one level deeper. The depth that was too much is not taken back. -/
def nest {α : Type} (body : Run Counters ParseError α) : Run Counters ParseError α := fun c =>
  if maxDepth < c.depth + 1 then (.error .tooDeep, { c with depth := c.depth + 1 })
  else
    let (r, c) := body { c with depth := c.depth + 1, prefixes := c.prefixes.enter }
    (r, { c with depth := c.depth - 1, prefixes := c.prefixes.leave })

section
variable {n : Nat}

def extend (op? : Token → Option BinaryOp) (operand : Reader n) (left : Expr) (ts : List Token)
    (h : ts.length ≤ n) : Reading Expr (ts.length + 1) :=
  match ts with
  | [] => return ⟨left, [], Nat.lt_succ_self _⟩
  | t :: ts =>
    match op? t with
    | none => return ⟨left, t :: ts, Nat.lt_succ_self _⟩
    | some op => do
      count
      let p ← operand ts h
      have hp := Nat.lt_succ_of_lt p.shorter
      let q ← extend op? operand (.binary op left p.value) p.rest
        (Nat.le_of_lt (Nat.lt_of_lt_of_le hp h))
      return ⟨q.value, q.rest, Nat.lt_trans q.shorter (Nat.succ_lt_succ hp)⟩
termination_by ts.length
decreasing_by exact hp

def chain (op? : Token → Option BinaryOp) (operand : Reader n) : Reader n := fun ts h => do
  let p ← operand ts h
  let q ← extend op? operand p.value p.rest (Nat.le_of_lt (Nat.lt_trans p.shorter h))
  return ⟨q.value, q.rest, Nat.lt_of_lt_of_le q.shorter p.shorter⟩

def expression (operand : Reader n) : Reader n := tiers.foldr chain operand

def moreArgs (operand : Reader n) (ts : List Token) (h : ts.length ≤ n) :
    Reading (List Expr) (ts.length + 1) :=
  match ts with
  | .comma :: ts => do
    let p ← expression operand ts h
    have hp := Nat.lt_succ_of_lt p.shorter
    let q ← moreArgs operand p.rest (Nat.le_of_lt (Nat.lt_of_lt_of_le hp h))
    return ⟨p.value :: q.value, q.rest, Nat.lt_trans q.shorter (Nat.succ_lt_succ hp)⟩
  | ts => return ⟨[], ts, Nat.lt_succ_self _⟩
termination_by ts.length
decreasing_by exact hp

def close {α : Type} {n : Nat} (p : Taken α n) : Reading α n :=
  match h : p.rest with
  | .closeParen :: rest => return ⟨p.value, rest, Taken.shorter_tail h⟩
  | ts => .lift (.error (.found .unclosed ts))

def arguments (operand : Reader n) (ts : List Token) (h : ts.length < n) :
    Reading (List Expr) (ts.length + 1) :=
  match ts with
  | .closeParen :: ts => return ⟨[], ts, Nat.lt_succ_of_lt (Nat.lt_succ_self _)⟩
  | ts => do
    let p ← expression operand ts h
    let q ← moreArgs operand p.rest (Nat.le_of_lt (Nat.lt_trans p.shorter h))
    close ⟨p.value :: q.value, q.rest, Nat.lt_trans q.shorter (Nat.succ_lt_succ p.shorter)⟩

def primary (operand : Reader n) (ts : List Token) (h : ts.length ≤ n) : Reading Expr ts.length :=
  match ts with
  | .number x :: ts => return ⟨.number x, ts, Nat.lt_succ_self _⟩
  | .text s :: ts => return ⟨.text s, ts, Nat.lt_succ_self _⟩
  | .boolean b :: ts => return ⟨.boolean b, ts, Nat.lt_succ_self _⟩
  | .word name :: .openParen :: ts => do
    count
    let p ← arguments operand ts (Nat.lt_of_succ_lt h)
    return ⟨.call name p.value, p.rest, Nat.lt_succ_of_lt p.shorter⟩
  | .word name :: ts => return ⟨.field name, ts, Nat.lt_succ_self _⟩
  | .openParen :: ts => do
    let p ← expression operand ts h
    close ⟨p.value, p.rest, Nat.lt_succ_of_lt p.shorter⟩
  | ts => .lift (.error (.found .noValue ts))

def power (operand : Reader n) (ts : List Token) (h : ts.length ≤ n) : Reading Expr ts.length := do
  let p ← primary operand ts h
  match hr : p.rest with
  | .caret :: rest =>
    have hp := Taken.shorter_tail hr
    count
    let q ← operand rest (Nat.lt_of_lt_of_le hp h)
    return ⟨.binary .power p.value q.value, q.rest, Nat.lt_trans q.shorter hp⟩
  | _ => return p

end

def unary (ts : List Token) : Reading Expr ts.length := nest <|
  match ts with
  | t :: rest =>
    match sign? t with
    | some op => do
      count
      let p ← unary rest
      return ⟨.unary op p.value, p.rest, Nat.lt_succ_of_lt p.shorter⟩
    | none => power (fun ts _ => unary ts) (t :: rest) (Nat.le_refl _)
  | [] => power (fun _ h => absurd h (Nat.not_lt_zero _)) [] (Nat.le_refl _)
termination_by ts.length
decreasing_by
  · exact Nat.lt_succ_self _
  · assumption

def ofTokens (ts : List Token) : Run Counters ParseError Expr :=
  match ts with
  | [] => .lift (.error .empty)
  | ts => do
    let p ← expression (fun ts _ => unary ts) ts (Nat.lt_succ_self _)
    match p.rest with
    | [] => return p.value
    | .invalid f :: _ => .lift (.error (.fault f))
    | t :: _ => .lift (.error (.trailing t))

def parse (formula : String) : Run Counters ParseError Expr := ofTokens (Token.scan formula.toList)

open Counters

/-- A counted reading beside a reading that is told what is left: both take the same or refuse with
the same error, and the number that is left is the limit without what was counted. -/
inductive Agrees {α : Type} {n : Nat} (levels : Nat) (c : Counters) :
    Except ParseError (Taken α n) × Counters → Except ParseError (Parsed α n) → Prop
  | ok {v : α} {rest : List Token} {h : rest.length < n} {c' : Counters} :
      Kept levels c c' →
      Agrees levels c (.ok ⟨v, rest, h⟩, c') (.ok ⟨v, rest, maxOperators - c'.operators, h⟩)
  | error {err : ParseError} {c' : Counters} : c.prefixes.deepest ≤ c'.prefixes.deepest →
      c'.prefixes.deepest ≤ max c.prefixes.deepest (c.prefixes.active + levels) →
      Agrees levels c (.error err, c') (.error err)

def Mirrors {n : Nat} (levels : Nat) (r : Reader n) (r' : Expr.Reader) : Prop :=
  ∀ ts h c, maxDepth - c.depth = levels →
    Agrees levels c (r ts h c) (r' ts (maxOperators - c.operators))

section
variable {α β : Type} {m n levels : Nat} {c c' : Counters}

theorem Agrees.after {x : Except ParseError (Taken α n) × Counters}
    {y : Except ParseError (Parsed α n)} (hc : Kept levels c c') (h : Agrees levels c' x y) :
    Agrees levels c x y := by
  cases h with
  | ok hk => exact .ok (hc.trans hk)
  | error hr hd =>
    have hd' := hc.deepest
    rw [hc.active] at hd
    exact .error (Nat.le_trans hc.rises hr) (by omega)

theorem agrees_pure {v : α} {rest : List Token} {h : rest.length < n} :
    Agrees levels c ((pure ⟨v, rest, h⟩ : Reading α n) c)
      (.ok ⟨v, rest, maxOperators - c.operators, h⟩) :=
  .ok (.refl levels c)

theorem agrees_lift {err : ParseError} :
    Agrees levels c ((Run.lift (.error err) : Reading α n) c) (.error err) :=
  .error (Nat.le_refl _) (Nat.le_max_left ..)

theorem Agrees.bind {x : Reading α m} {y : Except ParseError (Parsed α m)}
    {f : Taken α m → Reading β n} {g : Parsed α m → Except ParseError (Parsed β n)}
    (h : Agrees levels c (x c) y)
    (hf : ∀ v rest hr c', Kept levels c c' →
      Agrees levels c' (f ⟨v, rest, hr⟩ c') (g ⟨v, rest, maxOperators - c'.operators, hr⟩)) :
    Agrees levels c ((x >>= f) c) (y >>= g) := by
  generalize hx : x c = r at h
  cases h with
  | ok hk =>
    rw [Run.bind_of_ok hx]
    exact .after hk (hf _ _ _ _ hk)
  | error hr hd =>
    rw [Run.bind_of_error hx]
    exact .error hr hd

theorem agrees_count {f : Unit → Reading α n} {g : Nat → Except ParseError (Parsed α n)}
    (hf : ∀ c', Kept levels c c' → Agrees levels c' (f () c') (g (maxOperators - c'.operators))) :
    Agrees levels c ((count >>= f) c) (countOperator (maxOperators - c.operators) >>= g) := by
  by_cases hmax : maxOperators < c.operators + 1
  · have hcount : count c = (.error .tooManyOperators, { c with operators := c.operators + 1 }) :=
      if_pos hmax
    have hleft : maxOperators - c.operators = 0 := by omega
    rw [Run.bind_of_error hcount, hleft]
    exact .error (Nat.le_refl _) (Nat.le_max_left ..)
  · have hcount : count c = (.ok (), { c with operators := c.operators + 1 }) := if_neg hmax
    have hleft : maxOperators - c.operators = maxOperators - (c.operators + 1) + 1 := by omega
    have hk : Kept levels c { c with operators := c.operators + 1 } :=
      ⟨rfl, rfl, Nat.le_refl _, Nat.le_max_left .., by dsimp only; omega⟩
    rw [Run.bind_of_ok hcount, hleft]
    exact .after hk (hf _ hk)

theorem agrees_close {v : α} {rest : List Token} {h : rest.length < n} :
    Agrees levels c (close ⟨v, rest, h⟩ c)
      (Expr.close ⟨v, rest, maxOperators - c.operators, h⟩) := by
  cases rest with
  | nil => exact agrees_lift
  | cons t rest =>
    cases t with
    | closeParen => exact agrees_pure
    | _ => exact agrees_lift

end

section
variable {n levels : Nat} {operand : Reader n} {operand' : Expr.Reader}
    {op? : Token → Option BinaryOp}

theorem extend_agrees (ho : Mirrors levels operand operand') (left : Expr) (ts : List Token)
    (h : ts.length ≤ n) (c : Counters) (hc : maxDepth - c.depth = levels) :
    Agrees levels c (extend op? operand left ts h c)
      (Expr.extend op? operand' left ts (maxOperators - c.operators)) := by
  obtain ⟨k, hk⟩ : ∃ k, ts.length = k := ⟨_, rfl⟩
  induction k using Nat.strongRecOn generalizing left ts c with
  | ind k ih =>
    rw [extend.eq_def, Expr.extend.eq_def]
    cases ts with
    | nil => exact agrees_pure
    | cons t ts =>
      dsimp only
      cases op? t with
      | none => exact agrees_pure
      | some op =>
        refine agrees_count fun c₁ h₁ => ?_
        have hc₁ := h₁.depth ▸ hc
        refine Agrees.bind (ho ts h c₁ hc₁) fun v rest hr c₂ h₂ => ?_
        have hc₂ := h₂.depth ▸ hc₁
        rw [List.length_cons] at hk h
        exact Agrees.bind (ih rest.length (by omega) _ rest (by omega) c₂ hc₂ rfl)
          fun v rest hr c₃ h₃ => agrees_pure

theorem chain_mirrors (ho : Mirrors levels operand operand') :
    Mirrors levels (chain op? operand) (Expr.chain op? operand') := by
  intro ts h c hc
  refine Agrees.bind (ho ts h c hc) fun v rest hr c₁ h₁ => ?_
  exact Agrees.bind (extend_agrees ho v rest _ c₁ (h₁.depth ▸ hc)) fun v rest hr c₂ h₂ =>
    agrees_pure

theorem expression_mirrors (ho : Mirrors levels operand operand') :
    Mirrors levels (expression operand) (Expr.expression operand') :=
  chain_mirrors (chain_mirrors (chain_mirrors (chain_mirrors (chain_mirrors ho))))

theorem moreArgs_agrees (ho : Mirrors levels operand operand') (ts : List Token) (h : ts.length ≤ n)
    (c : Counters) (hc : maxDepth - c.depth = levels) :
    Agrees levels c (moreArgs operand ts h c)
      (Expr.moreArgs operand' ts (maxOperators - c.operators)) := by
  obtain ⟨k, hk⟩ : ∃ k, ts.length = k := ⟨_, rfl⟩
  induction k using Nat.strongRecOn generalizing ts c with
  | ind k ih =>
    rw [moreArgs.eq_def, Expr.moreArgs.eq_def]
    split
    · next _ ts h =>
      refine Agrees.bind (expression_mirrors ho ts h c hc) fun v rest hr c₁ h₁ => ?_
      rw [List.length_cons] at hk h
      refine Agrees.bind (ih rest.length (by omega) rest (by omega) c₁ (h₁.depth ▸ hc) rfl)
        fun v rest hr c₂ h₂ => ?_
      exact agrees_pure
    · next hne =>
      split
      · exact (hne _ h rfl HEq.rfl).elim
      · exact agrees_pure

theorem arguments_agrees (ho : Mirrors levels operand operand') (ts : List Token)
    (h : ts.length < n) (c : Counters) (hc : maxDepth - c.depth = levels) :
    Agrees levels c (arguments operand ts h c)
      (Expr.arguments operand' ts (maxOperators - c.operators)) := by
  rw [arguments.eq_def, Expr.arguments.eq_def]
  split
  · exact agrees_pure
  · next hne =>
    split
    · exact (hne _ h rfl HEq.rfl).elim
    · refine Agrees.bind (expression_mirrors ho ts h c hc) fun v rest hr c₁ h₁ => ?_
      refine Agrees.bind (moreArgs_agrees ho rest _ c₁ (h₁.depth ▸ hc)) fun vs rest hr c₂ h₂ => ?_
      exact agrees_close

theorem primary_agrees (ho : Mirrors levels operand operand') (ts : List Token) (h : ts.length ≤ n)
    (c : Counters) (hc : maxDepth - c.depth = levels) :
    Agrees levels c (primary operand ts h c)
      (Expr.primary operand' ts (maxOperators - c.operators)) := by
  cases ts with
  | nil => exact agrees_lift
  | cons t ts =>
    cases t with
    | number x => exact agrees_pure
    | text s => exact agrees_pure
    | boolean b => exact agrees_pure
    | openParen =>
      refine Agrees.bind (expression_mirrors ho ts h c hc) fun v rest hr c₁ h₁ => ?_
      exact agrees_close
    | word name =>
      cases ts with
      | nil => exact agrees_pure
      | cons t ts =>
        cases t with
        | openParen =>
          refine agrees_count fun c₁ h₁ => ?_
          have hargs := arguments_agrees ho ts (Nat.lt_of_succ_lt h) c₁ (h₁.depth ▸ hc)
          exact Agrees.bind hargs fun vs rest hr c₂ h₂ => agrees_pure
        | _ => exact agrees_pure
    | _ => exact agrees_lift

theorem power_agrees (ho : Mirrors levels operand operand') (ts : List Token) (h : ts.length ≤ n)
    (c : Counters) (hc : maxDepth - c.depth = levels) :
    Agrees levels c (power operand ts h c)
      (Expr.power operand' ts (maxOperators - c.operators)) := by
  refine Agrees.bind (primary_agrees ho ts h c hc) fun v rest hr c₁ h₁ => ?_
  cases rest with
  | nil => exact agrees_pure
  | cons t rest =>
    cases t with
    | caret =>
      refine agrees_count fun c₂ h₂ => ?_
      have hc₂ := h₂.depth ▸ h₁.depth ▸ hc
      exact Agrees.bind (ho rest _ c₂ hc₂) fun w rest hr c₃ h₃ => agrees_pure
    | _ => exact agrees_pure

end

section
variable {α : Type} {n levels : Nat} {c : Counters}

theorem nest_of_lt {body : Run Counters ParseError α} (h : maxDepth < c.depth + 1) :
    nest body c = (.error .tooDeep, { c with depth := c.depth + 1 }) := if_pos h

theorem nest_agrees {body : Reading α n} {y : Except ParseError (Parsed α n)}
    (hd : c.depth < maxDepth)
    (h : ∀ c', c'.depth = c.depth + 1 → c'.operators = c.operators → Agrees levels c' (body c') y) :
    Agrees (levels + 1) c (nest body c) y ∧
      c.prefixes.active < (nest body c).2.prefixes.deepest := by
  have hbody := h { c with depth := c.depth + 1, prefixes := c.prefixes.enter } rfl rfl
  rw [nest, if_neg (by omega)]
  generalize body { c with depth := c.depth + 1, prefixes := c.prefixes.enter } = r at hbody
  cases hbody with
  | ok hk =>
    have hrises := hk.rises
    have hdeep := hk.deepest
    simp only [Gauge.enter] at hrises hdeep
    refine ⟨.ok ⟨?_, ?_, ?_, ?_, hk.operators⟩, ?_⟩
    · exact congrArg (· - 1) hk.depth
    · exact congrArg (· - 1) hk.active
    all_goals
      simp only [Gauge.leave]
      omega
  | error hrises hdeep =>
    simp only [Gauge.enter] at hrises hdeep
    refine ⟨.error ?_ ?_, ?_⟩
    all_goals
      simp only [Gauge.leave]
      omega

/- Operands are read one level deeper, where one less is left. -/
theorem unary_agrees (hr : ∀ n, Mirrors (n := n) levels (fun ts _ => unary ts) (operandAt levels))
    (ts : List Token) (c : Counters) (hc : maxDepth - c.depth = levels + 1) :
    Agrees (levels + 1) c (unary ts c) (operandAt (levels + 1) ts (maxOperators - c.operators)) ∧
      c.prefixes.active < (unary ts c).2.prefixes.deepest := by
  rw [unary.eq_def]
  refine nest_agrees (by omega) fun c₁ hdepth hoperators => ?_
  have hc₁ : maxDepth - c₁.depth = levels := by omega
  rw [← hoperators]
  cases ts with
  | nil => exact power_agrees (fun _ h => absurd h (Nat.not_lt_zero _)) [] _ c₁ hc₁
  | cons t ts =>
    rw [operandAt]
    dsimp only
    cases sign? t with
    | none => exact power_agrees (hr _) (t :: ts) _ c₁ hc₁
    | some op =>
      refine agrees_count fun c₂ h₂ => ?_
      have hc₂ := h₂.depth ▸ hc₁
      exact Agrees.bind (hr _ ts (Nat.lt_succ_self _) c₂ hc₂) fun v rest hr c₃ h₃ => agrees_pure

/- The induction is on the levels that are left. -/
theorem unary_mirrors (n levels : Nat) :
    Mirrors (n := n) levels (fun ts _ => unary ts) (operandAt levels) := by
  induction levels generalizing n with
  | zero =>
    intro ts h c hc
    dsimp only
    rw [unary.eq_def, nest_of_lt (by omega)]
    exact .error (Nat.le_refl _) (Nat.le_max_left ..)
  | succ levels ih => exact fun ts h c hc => (unary_agrees ih ts c hc).1

theorem active_lt_deepest_unary (ts : List Token) (c : Counters) (h : c.depth < maxDepth) :
    c.prefixes.active < (unary ts c).2.prefixes.deepest := by
  obtain ⟨levels, hl⟩ : ∃ levels, maxDepth - c.depth = levels + 1 :=
    ⟨maxDepth - c.depth - 1, by omega⟩
  exact (unary_agrees (fun n => unary_mirrors n levels) ts c hl).2

theorem depth_unary {ts : List Token} {c c' : Counters} {p : Taken Expr ts.length}
    (h : unary ts c = (.ok p, c')) : c'.depth = c.depth := by
  have hm := unary_mirrors (ts.length + 1) _ ts (Nat.lt_succ_self _) c rfl
  dsimp only at hm
  rw [h] at hm
  generalize operandAt (maxDepth - c.depth) ts (maxOperators - c.operators) = y at hm
  cases hm with
  | ok hk => exact hk.depth

end

end Counted

end FieldFormula.Expr
