import FieldFormula.Proofs.Evaluation

/-!
Which error an evaluation reports. A node is at fault by itself; whether it counts depends on its
being demanded, from the root down. The error is that of the first demanded node at fault, where a
node comes before its operands and these come from left to right.
-/
namespace FieldFormula.Expr
variable {b : Bindings} {e f m n : Expr} {i j : Nat} {p q : List Nat} {err : FormulaError}

/-- What is wrong with a node, apart from its operands. -/
inductive Fault (b : Bindings) : Expr → FormulaError → Prop
  | unbound {name : String} : b.find? name = none → Fault b (.field name) (.undefinedVariable name)
  | unregistered {name : String} {args : List Expr} :
      Registry.builtin.get? name = none → Fault b (.call name args) (.unknownFunction name)
  | count {name : String} {args : List Expr} {f : Function} :
      Registry.builtin.get? name = some f → f.arity.admits args.length = false →
      Fault b (.call name args) (.argumentCount name f.arity args.length)

inductive Demands (b : Bindings) : Expr → Nat → Expr → Prop
  | operand {op : UnaryOp} {e : Expr} : Demands b (.unary op e) 0 e
  | left {op : BinaryOp} {l r : Expr} : Demands b (.binary op l r) 0 l
  | right {op : BinaryOp} {l r : Expr} : op ≠ .and → op ≠ .or → Demands b (.binary op l r) 1 r
  | rightOfAnd {l r : Expr} {v : Value} :
      l.eval b = .ok v → v.isTruthy = true → Demands b (.binary .and l r) 1 r
  | rightOfOr {l r : Expr} {v : Value} :
      l.eval b = .ok v → v.isTruthy = false → Demands b (.binary .or l r) 1 r
  | argument {name : String} {args : List Expr} {f : Function} {i : Nat} {e : Expr} :
      Registry.builtin.get? name = some f → f.arity.admits args.length = true → args[i]? = some e →
      Demands b (.call name args) i e

/-- The demanded nodes of `root`, each with the places that lead to it. -/
inductive Demanded (b : Bindings) (root : Expr) : List Nat → Expr → Prop
  | root : Demanded b root [] root
  | child {p : List Nat} {n m : Expr} {i : Nat} :
      Demanded b root p n → Demands b n i m → Demanded b root (p ++ [i]) m

theorem Demanded.cons (h : Demands b e i m) (hm : Demanded b m p n) : Demanded b e (i :: p) n := by
  induction hm with
  | root => exact Demanded.root.child h
  | child _ hd ih => exact ih.child hd

theorem demanded_iff :
    Demanded b e p n ↔
      (p = [] ∧ n = e) ∨ ∃ i q m, p = i :: q ∧ Demands b e i m ∧ Demanded b m q n := by
  constructor
  · intro h
    induction h with
    | root => exact Or.inl ⟨rfl, rfl⟩
    | child _ hd ih =>
      cases ih with
      | inl hr =>
        obtain ⟨rfl, rfl⟩ := hr
        exact Or.inr ⟨_, [], _, rfl, hd, .root⟩
      | inr hc =>
        obtain ⟨j, q, k, rfl, hj, hk⟩ := hc
        exact Or.inr ⟨j, _, k, rfl, hj, hk.child hd⟩
  · intro h
    cases h with
    | inl hr =>
      obtain ⟨rfl, rfl⟩ := hr
      exact .root
    | inr hc =>
      obtain ⟨i, q, k, rfl, hi, hk⟩ := hc
      exact hk.cons hi

theorem Demands.unique (h : Demands b e i m) (h' : Demands b e i n) : m = n := by
  cases h with
  | argument _ _ hm =>
    cases h' with
    | argument _ _ hn => exact Option.some.inj (hm.symm.trans hn)
  | _ => cases h' <;> rfl

theorem Demands.of_binary {op : BinaryOp} {l r : Expr} (h : Demands b (.binary op l r) i m) :
    (i = 0 ∧ m = l) ∨ (i = 1 ∧ m = r) := by
  cases h with
  | left => exact Or.inl ⟨rfl, rfl⟩
  | _ => exact Or.inr ⟨rfl, rfl⟩

theorem demands_right_iff {op : BinaryOp} {l r : Expr} {v : Value} (h : l.eval b = .ok v) :
    Demands b (.binary op l r) 1 m ↔ m = r ∧ op.decides v = false := by
  constructor
  · intro hd
    cases hd with
    | right hand hor => cases op <;> simp_all [BinaryOp.decides]
    | rightOfAnd hl ht =>
      cases h.symm.trans hl
      exact ⟨rfl, by rw [BinaryOp.decides, ht]; rfl⟩
    | rightOfOr hl ht =>
      cases h.symm.trans hl
      exact ⟨rfl, ht⟩
  · intro hd
    obtain ⟨rfl, hd⟩ := hd
    by_cases hand : op = .and
    · subst hand
      exact .rightOfAnd h (by simpa [BinaryOp.decides] using hd)
    · by_cases hor : op = .or
      · subst hor
        exact .rightOfOr h hd
      · exact .right hand hor

/-- The order of the text: a node comes before its operands, and these from left to right. -/
def NoLater : List Nat → List Nat → Prop
  | [], _ => True
  | _ :: _, [] => False
  | i :: p, j :: q => i < j ∨ (i = j ∧ NoLater p q)

theorem NoLater.antisymm (h : NoLater p q) (h' : NoLater q p) : p = q := by
  induction p generalizing q with
  | nil =>
    cases q with
    | nil => rfl
    | cons j q => exact h'.elim
  | cons i p ih =>
    cases q with
    | nil => exact h.elim
    | cons j q =>
      rcases h with hij | ⟨rfl, hpq⟩
      · rcases h' with hji | ⟨rfl, -⟩
        · exact absurd hji (Nat.lt_asymm hij)
        · exact absurd hij (Nat.lt_irrefl _)
      · rcases h' with hii | ⟨-, hqp⟩
        · exact absurd hii (Nat.lt_irrefl _)
        · rw [ih hpq hqp]

def Faultless (b : Bindings) (e : Expr) : Prop := ∀ p n err, Demanded b e p n → ¬ Fault b n err

def FirstFault (b : Bindings) (e : Expr) (err : FormulaError) : Prop :=
  ∃ p n, Demanded b e p n ∧ Fault b n err ∧
    ∀ q m err', Demanded b e q m → Fault b m err' → NoLater p q

theorem faultless_of_operands (he : ∀ err, ¬ Fault b e err)
    (h : ∀ i m, Demands b e i m → Faultless b m) : Faultless b e := by
  intro p n err hd hf
  cases demanded_iff.1 hd with
  | inl hr =>
    obtain ⟨-, rfl⟩ := hr
    exact he err hf
  | inr hc =>
    obtain ⟨i, q, m, -, hi, hm⟩ := hc
    exact h i m hi q n err hm hf

theorem firstFault_self (h : Fault b e err) : FirstFault b e err :=
  ⟨[], e, .root, h, fun _ _ _ _ _ => trivial⟩

/- Demanded nodes left of the operand are without a fault, and all of those right of
it come later. -/
theorem FirstFault.of_operand (hm : FirstFault b m err) (hd : Demands b e i m)
    (he : ∀ err, ¬ Fault b e err) (hl : ∀ j k, j < i → Demands b e j k → Faultless b k) :
    FirstFault b e err := by
  obtain ⟨p, n, hn, hf, hp⟩ := hm
  refine ⟨i :: p, n, hn.cons hd, hf, ?_⟩
  intro q k err' hk hf'
  cases demanded_iff.1 hk with
  | inl hr =>
    obtain ⟨-, rfl⟩ := hr
    exact absurd hf' (he err')
  | inr hc =>
    obtain ⟨j, q, m', rfl, hj, hm'⟩ := hc
    rcases Nat.lt_trichotomy i j with hij | rfl | hij
    · exact Or.inl hij
    · cases hd.unique hj
      exact Or.inr ⟨rfl, hp q k err' hm' hf'⟩
    · exact absurd hf' (hl j m' hij hj q k err' hm')

/- A definition by cases on the result would be unfolded, and the result with it,
wherever it is a goal. -/

inductive Reports (b : Bindings) (e : Expr) : Except FormulaError Value → Prop
  | ok {v : Value} : Faultless b e → Reports b e (.ok v)
  | error {err : FormulaError} : FirstFault b e err → Reports b e (.error err)

theorem reports_unary {op : UnaryOp} (h : Reports b e (e.eval b)) :
    Reports b (.unary op e) ((Expr.unary op e).eval b) := by
  have he : ∀ err, ¬ Fault b (.unary op e) err := by
    intro err hf
    cases hf
  rw [eval]
  cases hv : e.eval b with
  | error err =>
    rw [hv] at h
    cases h with
    | error h => exact .error (h.of_operand .operand he fun j _ hj => absurd hj (Nat.not_lt_zero j))
  | ok v =>
    rw [hv] at h
    cases h with
    | ok h =>
      refine .ok (faultless_of_operands he ?_)
      intro i m hd
      cases hd
      exact h

theorem reports_binary {op : BinaryOp} {l r : Expr} (hl : Reports b l (l.eval b))
    (hr : Reports b r (r.eval b)) : Reports b (.binary op l r) ((Expr.binary op l r).eval b) := by
  have he : ∀ err, ¬ Fault b (.binary op l r) err := by
    intro err hf
    cases hf
  rw [eval]
  cases hv : l.eval b with
  | error err =>
    rw [hv] at hl
    cases hl with
    | error hl => exact .error (hl.of_operand .left he fun j _ hj => absurd hj (Nat.not_lt_zero j))
  | ok v =>
    rw [hv] at hl
    cases hl with | ok hl =>
    change Reports b _ (if op.decides v = true then _ else _)
    by_cases hd : op.decides v = true
    · rw [if_pos hd]
      refine .ok (faultless_of_operands he ?_)
      intro i m hm
      rcases hm.of_binary with ⟨rfl, rfl⟩ | ⟨rfl, rfl⟩
      · exact hl
      · obtain ⟨-, hn⟩ := (demands_right_iff hv).1 hm
        exact absurd hd (by rw [hn]; exact Bool.false_ne_true)
    · rw [if_neg hd]
      cases hw : r.eval b with
      | error err =>
        rw [hw] at hr
        cases hr with | error hr =>
        have hright : Demands b (.binary op l r) 1 r :=
          (demands_right_iff hv).2 ⟨rfl, Bool.eq_false_iff.2 hd⟩
        refine .error (hr.of_operand hright he ?_)
        intro j k hj hk
        rcases hk.of_binary with ⟨-, rfl⟩ | ⟨rfl, -⟩
        · exact hl
        · exact absurd hj (Nat.lt_irrefl 1)
      | ok w =>
        rw [hw] at hr
        cases hr with | ok hr =>
        refine .ok (faultless_of_operands he ?_)
        intro i m hm
        rcases hm.of_binary with ⟨-, rfl⟩ | ⟨-, rfl⟩
        · exact hl
        · exact hr

inductive ReportsAll (b : Bindings) (es : List Expr) : Except FormulaError (List Value) → Prop
  | ok {vs : List Value} : (∀ e ∈ es, Faultless b e) → vs.length = es.length →
      ReportsAll b es (.ok vs)
  | error {i : Nat} {m : Expr} {err : FormulaError} : es[i]? = some m → FirstFault b m err →
      (∀ (j : Nat) k, j < i → es[j]? = some k → Faultless b k) → ReportsAll b es (.error err)

theorem reportsAll {es : List Expr} (h : ∀ e ∈ es, Reports b e (e.eval b)) :
    ReportsAll b es (evalAll b es) := by
  induction es with
  | nil => exact .ok nofun rfl
  | cons e es ih =>
    obtain ⟨he, hes⟩ := List.forall_mem_cons.1 h
    have ih := ih hes
    rw [evalAll]
    cases hv : e.eval b with
    | error err =>
      rw [hv] at he
      cases he with
      | error he => exact .error (i := 0) rfl he fun j _ hj => absurd hj (Nat.not_lt_zero j)
    | ok v =>
      rw [hv] at he
      cases he with | ok he =>
      cases hvs : evalAll b es with
      | error err =>
        rw [hvs] at ih
        cases ih with | @error i m _ hm hf hl =>
        refine .error (i := i + 1) hm hf ?_
        intro j k hj hk
        cases j with
        | zero =>
          cases hk
          exact he
        | succ j => exact hl j k (Nat.lt_of_succ_lt_succ hj) hk
      | ok vs =>
        rw [hvs] at ih
        cases ih with
        | ok hes hlength => exact .ok (List.forall_mem_cons.2 ⟨he, hes⟩) (congrArg (· + 1) hlength)

theorem reports_call {name : String} {args : List Expr} (h : ∀ e ∈ args, Reports b e (e.eval b)) :
    Reports b (.call name args) ((Expr.call name args).eval b) := by
  rw [eval]
  cases hg : Registry.builtin.get? name with
  | none =>
    rw [Registry.resolve, hg]
    exact .error (firstFault_self (.unregistered hg))
  | some f =>
    cases ha : f.arity.admits args.length with
    | false =>
      rw [Registry.resolve, hg]
      change Reports b _ ((if f.arity.admits args.length = true then _ else _) >>= _)
      rw [if_neg (by rw [ha]; exact Bool.false_ne_true)]
      exact .error (firstFault_self (.count hg ha))
    | true =>
      have he : ∀ err, ¬ Fault b (.call name args) err := by
        intro err hf
        cases hf with
        | unregistered hn => simp_all
        | count hs hn => simp_all
      rw [Registry.resolve_eq_ok hg ha]
      have hall := reportsAll h
      cases hvs : evalAll b args with
      | error err =>
        rw [hvs] at hall
        cases hall with | error hm hf hl =>
        refine .error (hf.of_operand (.argument hg ha hm) he ?_)
        intro j k hj hk
        cases hk with
        | argument _ _ hk => exact hl j k hj hk
      | ok vs =>
        rw [hvs] at hall
        cases hall with | ok hfaultless hlength =>
        obtain ⟨v, hv⟩ := Registry.builtin_total _ _ hg vs (hlength ▸ ha)
        change Reports b _ ((f.apply vs).mapError FormulaError.argument)
        rw [hv]
        refine .ok (faultless_of_operands he ?_)
        intro i m hm
        cases hm with
        | argument _ _ hm => exact hfaultless m (List.mem_of_getElem? hm)

theorem reports_eval (e : Expr) : Reports b e (e.eval b) := by
  induction e using inductOn with
  | number n =>
    rw [eval]
    exact .ok (faultless_of_operands (fun _ hf => by cases hf) (fun _ _ hd => by cases hd))
  | text s =>
    rw [eval]
    exact .ok (faultless_of_operands (fun _ hf => by cases hf) (fun _ _ hd => by cases hd))
  | boolean t =>
    rw [eval]
    exact .ok (faultless_of_operands (fun _ hf => by cases hf) (fun _ _ hd => by cases hd))
  | field name =>
    rw [eval]
    cases hx : b.find? name with
    | none => exact .error (firstFault_self (.unbound hx))
    | some n =>
      refine .ok (faultless_of_operands ?_ (fun _ _ hd => by cases hd))
      intro err hf
      cases hf with
      | unbound hn => simp_all
  | unary op e ih => exact reports_unary ih
  | binary op l r ihl ihr => exact reports_binary ihl ihr
  | call name args ih => exact reports_call ih

theorem Fault.unique {err' : FormulaError} (h : Fault b e err) (h' : Fault b e err') :
    err = err' := by
  cases h <;> cases h' <;> simp_all

theorem Demanded.unique (h : Demanded b e p m) (h' : Demanded b e p n) : m = n := by
  induction p generalizing e with
  | nil =>
    rcases demanded_iff.1 h with ⟨-, rfl⟩ | ⟨_, _, _, hp, -⟩
    · rcases demanded_iff.1 h' with ⟨-, rfl⟩ | ⟨_, _, _, hp, -⟩
      · rfl
      · cases hp
    · cases hp
  | cons i p ih =>
    rcases demanded_iff.1 h with ⟨hp, -⟩ | ⟨_, _, k, hp, hd, hm⟩
    · cases hp
    · cases hp
      rcases demanded_iff.1 h' with ⟨hp, -⟩ | ⟨_, _, k', hp, hd', hn⟩
      · cases hp
      · cases hp
        cases hd.unique hd'
        exact ih hm hn

theorem FirstFault.unique {err' : FormulaError} (h : FirstFault b e err)
    (h' : FirstFault b e err') : err = err' := by
  obtain ⟨p, n, hn, hf, hp⟩ := h
  obtain ⟨p', n', hn', hf', hp'⟩ := h'
  obtain rfl : p = p' := (hp p' n' err' hn' hf').antisymm (hp' p n err hn hf)
  obtain rfl := hn.unique hn'
  exact hf.unique hf'

theorem eval_eq_error_iff : e.eval b = .error err ↔ FirstFault b e err := by
  have h := reports_eval (b := b) e
  constructor
  · intro he
    rw [he] at h
    cases h with
    | error h => exact h
  · intro hf
    cases hv : e.eval b with
    | ok v =>
      rw [hv] at h
      cases h with | ok h =>
      obtain ⟨p, n, hn, hf, -⟩ := hf
      exact absurd hf (h p n err hn)
    | error err' =>
      rw [hv] at h
      cases h with
      | error h => rw [h.unique hf]

theorem exists_fault_of_eval (h : e.eval b = .error err) : ∃ n, Fault b n err := by
  obtain ⟨-, n, -, hf, -⟩ := eval_eq_error_iff.1 h
  exact ⟨n, hf⟩

theorem exists_error (hd : Demanded b e p n) (hf : Fault b n err) :
    ∃ err', e.eval b = .error err' := by
  have h := reports_eval (b := b) e
  cases hv : e.eval b with
  | ok v =>
    rw [hv] at h
    cases h with
    | ok h => exact absurd hf (h p n err hd)
  | error err' => exact ⟨err', rfl⟩

theorem error_of_argument {name : String} {args : List Expr} {f : Function}
    (hg : Registry.builtin.get? name = some f) (ha : f.arity.admits args.length = true) {a : Expr}
    (hm : a ∈ args) (h : a.eval b = .error err) :
    ∃ err', (Expr.call name args).eval b = .error err' := by
  obtain ⟨i, hi⟩ := List.mem_iff_getElem?.1 hm
  obtain ⟨p, n, hd, hf, -⟩ := eval_eq_error_iff.1 h
  exact exists_error (hd.cons (.argument hg ha hi)) hf

/-- An evaluation fails exactly when a demanded node is at fault, and with the error of the first
such node. So its error is about an unbound name, an unknown function or a number of arguments; a
call with a wrong number of them hides what is wrong inside them, one with a right number fails with
any of them, whichever it would choose, and an operand that `&&` or `||` skips does no harm. -/
theorem eval_reports_first_fault (b : Bindings) (e : Expr) :
    (∀ err, e.eval b = .error err ↔ FirstFault b e err) ∧
    ((∃ err, e.eval b = .error err) ↔ ∃ p n err, Demanded b e p n ∧ Fault b n err) ∧
    (∀ err, e.eval b = .error err →
      (∃ name, err = .undefinedVariable name) ∨ (∃ name, err = .unknownFunction name) ∨
        ∃ name arity actual, err = .argumentCount name arity actual) ∧
    (∀ name args f, e = .call name args → Registry.builtin.get? name = some f →
      (f.arity.admits args.length = false →
        e.eval b = .error (.argumentCount name f.arity args.length)) ∧
      (f.arity.admits args.length = true →
        ∀ a ∈ args, (∃ err, a.eval b = .error err) → ∃ err, e.eval b = .error err)) ∧
    (∀ l r v, l.eval b = .ok v →
      (e = .binary .and l r → v.isTruthy = false → e.eval b = .ok (.boolean false)) ∧
      (e = .binary .or l r → v.isTruthy = true → e.eval b = .ok (.boolean true))) := by
  refine ⟨fun err => eval_eq_error_iff, ⟨?_, ?_⟩, ?_, ?_, ?_⟩
  · intro h
    obtain ⟨err, h⟩ := h
    obtain ⟨p, n, hd, hf, -⟩ := eval_eq_error_iff.1 h
    exact ⟨p, n, err, hd, hf⟩
  · intro h
    obtain ⟨p, n, err, hd, hf⟩ := h
    exact exists_error hd hf
  · intro err h
    obtain ⟨n, hf⟩ := exists_fault_of_eval h
    cases hf with
    | unbound => exact Or.inl ⟨_, rfl⟩
    | unregistered => exact Or.inr (Or.inl ⟨_, rfl⟩)
    | count => exact Or.inr (Or.inr ⟨_, _, _, rfl⟩)
  · intro name args f he hg
    subst he
    constructor
    · intro ha
      exact eval_eq_error_iff.2 (firstFault_self (.count hg ha))
    · intro ha a hm h
      obtain ⟨err, h⟩ := h
      exact error_of_argument hg ha hm h
  · intro l r v hv
    constructor
    · intro he ht
      rw [he, eval, hv]
      change (if (!v.isTruthy) = true then _ else _) = _
      rw [ht]
      rfl
    · intro he ht
      rw [he, eval, hv]
      change (if v.isTruthy = true then _ else _) = _
      rw [if_pos ht, ht]
      rfl

theorem eval_reports_first_fault_of_untaken_branch :
    ∃ b : Bindings, ∃ e : Expr,
      b = Table.empty.insert "a" (.zero false) ∧
      e = .call "IF" [.binary .and (.field "a") (.field "b"), .call "Foo" [.field "b"],
        .field "a"] ∧
      e.eval b = .error (.unknownFunction "Foo") ∧ FirstFault b e (.unknownFunction "Foo") := by
  have h : (Expr.call "IF" [.binary .and (.field "a") (.field "b"), .call "Foo" [.field "b"],
      .field "a"]).eval (Table.empty.insert "a" (.zero false)) =
        .error (.unknownFunction "Foo") := by
    decide +kernel
  exact ⟨_, _, rfl, rfl, h, ((eval_reports_first_fault _ _).1 _).1 h⟩

end FieldFormula.Expr
