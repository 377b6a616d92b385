import FieldFormula.Proofs.Evaluation
import FieldFormula.Proofs.Parser
import FieldFormula.Proofs.ParserCounters
import FieldFormula.Proofs.Scan

/-!
The limits of the parser bound the recursion of whoever reads or walks over an expression. The
counter of depth bounds the nesting of prefix calls on every text, and the counter of operators,
which is never compared with the expression, is in the end the number of its operators and calls. So
an expression that was accepted is not high, and its evaluation does not nest deeply.
-/
namespace FieldFormula

mutual

theorem Derivation.operators_eq {n : Nonterminal} {u : List Token} {e : Expr} :
    (d : Derivation n u e) → d.operators = e.operators
  | .tier d r => by rw [Derivation.operators, d.operators_eq, r.operators_eq]
  | .signed _ d => by rw [Derivation.operators, d.operators_eq, Expr.operators_unary]
  | .unsigned d => d.operators_eq
  | .base d => d.operators_eq
  | .raised d d' => by
    rw [Derivation.operators, d.operators_eq, d'.operators_eq, Expr.operators_binary]
  | .number _ => rfl
  | .text _ => rfl
  | .boolean _ => rfl
  | .field _ => rfl
  | .call _ a => by rw [Derivation.operators, a.operators_eq, Expr.operators_call]
  | .group d => d.operators_eq

theorem Repetition.operators_eq {t : Tier} {u : List Token} {e f : Expr} :
    (r : Repetition t e u f) → e.operators + r.operators = f.operators
  | .done => rfl
  | .more _ d r => by
    have h := r.operators_eq
    rw [Expr.operators_binary] at h
    rw [Repetition.operators, d.operators_eq]
    omega

theorem Arguments.operators_eq {u : List Token} {es : List Expr} :
    (a : Arguments u es) → a.operators = Expr.operatorsAll es
  | .none => rfl
  | .some d m => by rw [Arguments.operators, d.operators_eq, m.operators_eq, Expr.operatorsAll_cons]

theorem MoreArguments.operators_eq {u : List Token} {es : List Expr} :
    (m : MoreArguments u es) → m.operators = Expr.operatorsAll es
  | .done => rfl
  | .more d m => by
    rw [MoreArguments.operators, d.operators_eq, m.operators_eq, Expr.operatorsAll_cons]

end

namespace Expr
open Counted

theorem operators_of_reads {ts : List Token} {e : Expr} {s : Nat}
    (h : Reads (expression (operandAt maxDepth) ts maxOperators) e [] s) :
    maxOperators = e.operators + s := by
  obtain ⟨u, d, -, hs, -⟩ := expression_sound (operandAt_sound maxDepth) h
  rw [hs, d.operators_eq]

theorem ofTokens_counted (ts : List Token) :
    (Counted.ofTokens ts .start).1 = ofTokens ts ∧
    (Counted.ofTokens ts .start).2.prefixes.deepest ≤ maxDepth ∧
      ∀ e, ofTokens ts = .ok e → (Counted.ofTokens ts .start).2.operators = e.operators := by
  cases ts with
  | nil => exact ⟨rfl, Nat.zero_le _, nofun⟩
  | cons t ts =>
    have hm : Agrees maxDepth .start (Counted.expression _ (t :: ts) _ .start)
        (expression (operandAt maxDepth) (t :: ts) maxOperators) :=
      expression_mirrors (unary_mirrors _ maxDepth) (t :: ts) (Nat.lt_succ_self _) .start rfl
    generalize hx : Counted.expression _ (t :: ts) _ .start = x at hm
    generalize hy : expression (operandAt maxDepth) (t :: ts) maxOperators = y at hm
    cases hm with
    | error hrises hdeep =>
      have hc : Counted.ofTokens (t :: ts) .start = _ := Run.bind_of_error hx
      have hp : ofTokens (t :: ts) = _ := congrArg (· >>= _) hy
      rw [hc, hp]
      refine ⟨rfl, ?_, nofun⟩
      rwa [Counters.start, Nat.zero_add, Nat.zero_max] at hdeep
    | @ok v rest h c hk =>
      have hc : Counted.ofTokens (t :: ts) .start = _ := Run.bind_of_ok hx
      have hp : ofTokens (t :: ts) = _ := congrArg (· >>= _) hy
      have hdeep := hk.deepest
      rw [Counters.start, Nat.zero_add, Nat.zero_max] at hdeep
      rw [hc, hp]
      cases rest with
      | nil =>
        refine ⟨rfl, hdeep, ?_⟩
        rintro _ ⟨⟩
        have hs := operators_of_reads ⟨_, hy, rfl, rfl, rfl⟩
        have ho : max c.operators maxOperators = max 0 maxOperators := hk.operators
        change c.operators = v.operators
        dsimp only at hs
        omega
      | cons t' rest =>
        cases t' with
        | _ => exact ⟨rfl, hdeep, nofun⟩

/-- What the limits bound. On every text at most 64 prefix calls are active, and a prefix
call that succeeds leaves the counter of depth where it was. The counter of operators ends,
for a formula that is accepted, at the number of its operators and calls. So there are at
most 500 of these, the expression has at most 501 nodes on a path, and its evaluation has at
most 501 calls active, with any bindings. -/
theorem parse_limits (formula : String) :
    (Counted.parse formula .start).1 = parse formula ∧
    (Counted.parse formula .start).2.prefixes.deepest ≤ 64 ∧
    (∀ ts c p c', Counted.unary ts c = (.ok p, c') → c'.depth = c.depth) ∧
    ∀ e, parse formula = .ok e →
      (Counted.parse formula .start).2.operators = e.operators ∧
      e.operators ≤ 500 ∧ e.height ≤ 501 ∧
      ∀ b, (e.evalGauged .builtin b ⟨0, 0⟩).1 = e.eval b ∧
        (e.evalGauged .builtin b ⟨0, 0⟩).2.deepest ≤ 501 := by
  obtain ⟨hresult, hdeep, hcount⟩ := ofTokens_counted (Token.scan formula.toList)
  refine ⟨hresult, hdeep, fun _ _ _ _ h => depth_unary h, fun e he => ?_⟩
  obtain ⟨s, hr⟩ := ofTokens_eq_ok.1 he
  have hoperators : e.operators ≤ 500 := Nat.le.intro (operators_of_reads hr).symm
  have hheight := e.height_le
  refine ⟨hcount e he, hoperators, by omega, fun b => ?_⟩
  obtain ⟨hvalue, -, hnests⟩ := evalGauged_nests b e ⟨0, 0⟩
  rw [Nat.zero_add, Nat.zero_max] at hnests
  exact ⟨hvalue, hnests.trans (by omega)⟩

theorem parse_limits_of_four_operators :
    ∃ e b, parse "-(a + c) ^ Max(b)" = .ok e ∧ e.height = 4 ∧
      (Counted.parse "-(a + c) ^ Max(b)" .start).2.operators = 4 ∧
      (e.evalGauged .builtin b ⟨0, 0⟩).2.deepest ≤ 501 ∧
      (e.evalGauged .builtin b ⟨0, 0⟩).2.deepest = 4 := by
  have hscan : Token.scan "-(a + c) ^ Max(b)".toList =
      [.minus, .openParen, .word "a", .plus, .word "c", .closeParen, .caret, .word "Max",
        .openParen, .word "b", .closeParen] := by
    rw [Token.scan_eq_scanWithin (n := 20) (by decide)]
    decide +kernel
  obtain ⟨e, he, hparse⟩ :
      ∃ e, e = .unary .negate (.binary .power (.binary .add (.field "a") (.field "c"))
        (.call "Max" [.field "b"])) ∧ parse "-(a + c) ^ Max(b)" = .ok e := by
    refine ⟨_, rfl, ?_⟩
    rw [parse, hscan]
    cbv
  obtain ⟨-, -, -, accepted⟩ := parse_limits "-(a + c) ^ Max(b)"
  obtain ⟨hoperators, -, -, hnests⟩ := accepted e hparse
  have hheight : e.height = 4 := he ▸ rfl
  obtain ⟨b, hb⟩ : ∃ b : Bindings, ∀ x ∈ ["a", "c", "b"], ∃ n, b.find? x = some n := by
    refine ⟨Table.ofList [("a", .ofNat 1), ("b", .ofNat 2), ("c", .ofNat 3)], ?_⟩
    simp only [List.forall_mem_cons, List.not_mem_nil, false_implies, implies_true, and_true]
    exact ⟨⟨_, rfl⟩, ⟨_, rfl⟩, ⟨_, rfl⟩⟩
  have hskips : e.SkipsNothing b := by
    intro op l r h v hv
    subst he
    simp only [nodes, nodesAll, List.mem_cons, List.mem_append, reduceCtorEq, List.not_mem_nil,
      or_false, false_or, binary.injEq] at h
    rcases h with ⟨rfl, -⟩ | ⟨rfl, -⟩
    · rfl
    · rfl
  have hcalls : ∀ c ∈ [("Max", 1)], Callable c := by
    intro c h
    rw [List.mem_singleton.1 h]
    exact (Option.any_eq_true _ _).1 (by decide +kernel)
  obtain ⟨v, hv⟩ : ∃ v, e.eval b = .ok v := eval_total e (he ▸ hb) (he ▸ hcalls)
  refine ⟨e, b, hparse, hheight, hoperators.trans (he ▸ rfl), (hnests b).2, ?_⟩
  rw [evalGauged_reaches b hskips hv ⟨0, 0⟩ (Nat.le_refl _), hheight]
  rfl

/- Three signs are four prefix calls inside one another. -/
example : (Counted.ofTokens [.minus, .minus, .bang, .word "a"] .start).2.prefixes.deepest = 4 := by
  decide +kernel

end Expr
end FieldFormula
