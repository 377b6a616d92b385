import FieldFormula.Outcome
import FieldFormula.Proofs.Bindings
import FieldFormula.Proofs.Functions
import FieldFormula.Proofs.Mentions

/-!
What an evaluation reads of the record, and when it cannot fail.
-/
namespace FieldFormula

theorem Registry.resolve_eq_ok {r : Registry} {name : String} {n : Nat} {f : Function}
    (hf : r.get? name = some f) (ha : f.arity.admits n = true) : r.resolve name n = .ok f := by
  rw [Registry.resolve, hf]
  exact if_pos ha

namespace Expr
variable {b b' : Bindings}

theorem evalAll_congr {es : List Expr} (h : ∀ e ∈ es, e.eval b = e.eval b') :
    evalAll b es = evalAll b' es := by
  induction es with
  | nil => rfl
  | cons e es ih =>
    obtain ⟨he, hes⟩ := List.forall_mem_cons.1 h
    rw [evalAll, evalAll, he, ih hes]

theorem eval_congr (e : Expr) (h : ∀ x ∈ e.fields, b.find? x = b'.find? x) :
    e.eval b = e.eval b' := by
  induction e using inductOn with
  | number n => rfl
  | text s => rfl
  | boolean t => rfl
  | field name =>
    have hx := h name (by simp [fields, collect, nodes, field?])
    rw [eval, eval, hx]
  | unary op e ih =>
    rw [fields_unary] at h
    rw [eval, eval, ih h]
  | binary op l r ihl ihr =>
    rw [fields_binary] at h
    obtain ⟨hl, hr⟩ := List.forall_mem_append.1 h
    rw [eval, eval, ihl hl, ihr hr]
  | call name args ih =>
    rw [fields_call] at h
    have hes : evalAll b args = evalAll b' args :=
      evalAll_congr fun e he => ih e he fun x hx => h x (List.mem_flatMap.2 ⟨e, he, hx⟩)
    rw [eval, eval, hes]

theorem evalAll_total {es : List Expr} (h : ∀ e ∈ es, ∃ v, e.eval b = .ok v) :
    ∃ vs, evalAll b es = .ok vs ∧ vs.length = es.length := by
  induction es with
  | nil => exact ⟨[], rfl, rfl⟩
  | cons e es ih =>
    obtain ⟨⟨v, hv⟩, hes⟩ := List.forall_mem_cons.1 h
    obtain ⟨vs, hvs, hl⟩ := ih hes
    refine ⟨v :: vs, ?_, congrArg (· + 1) hl⟩
    rw [evalAll, hv, hvs]
    rfl

def Callable (c : String × Nat) : Prop :=
  ∃ f, Registry.builtin.get? c.1 = some f ∧ f.arity.admits c.2 = true

theorem resolve_eq_ok {name : String} {n : Nat} (h : Callable (name, n)) :
    ∃ f, Registry.builtin.resolve name n = .ok f ∧ f.arity.admits n = true ∧ f.Total := by
  obtain ⟨f, hf, ha⟩ := h
  exact ⟨f, Registry.resolve_eq_ok hf ha, ha, Registry.builtin_total _ _ hf⟩

theorem eval_total (e : Expr) (hf : ∀ x ∈ e.fields, ∃ n, b.find? x = some n)
    (hc : ∀ c ∈ e.calls, Callable c) : ∃ v, e.eval b = .ok v := by
  induction e using inductOn with
  | number n => exact ⟨_, rfl⟩
  | text s => exact ⟨_, rfl⟩
  | boolean t => exact ⟨_, rfl⟩
  | field name =>
    obtain ⟨n, hn⟩ := hf name (by simp [fields, collect, nodes, field?])
    exact ⟨.number n, by rw [eval, hn]⟩
  | unary op e ih =>
    rw [fields_unary] at hf
    rw [calls_unary] at hc
    obtain ⟨v, hv⟩ := ih hf hc
    exact ⟨op.apply v, by rw [eval, hv]; rfl⟩
  | binary op l r ihl ihr =>
    rw [fields_binary, List.forall_mem_append] at hf
    rw [calls_binary, List.forall_mem_append] at hc
    obtain ⟨v, hv⟩ := ihl hf.1 hc.1
    obtain ⟨w, hw⟩ := ihr hf.2 hc.2
    rw [eval, hv, hw]
    by_cases hd : op.decides v = true
    · exact ⟨.boolean v.isTruthy, if_pos hd⟩
    · exact ⟨op.apply v w, if_neg hd⟩
  | call name args ih =>
    rw [fields_call] at hf
    rw [calls_call, List.forall_mem_cons] at hc
    obtain ⟨f, hr, ha, ht⟩ := resolve_eq_ok hc.1
    have hargs : ∀ e ∈ args, ∃ v, e.eval b = .ok v := fun e he =>
      ih e he (fun x hx => hf x (List.mem_flatMap.2 ⟨e, he, hx⟩))
        (fun c hx => hc.2 c (List.mem_flatMap.2 ⟨e, he, hx⟩))
    obtain ⟨vs, hvs, hl⟩ := evalAll_total hargs
    obtain ⟨v, hv⟩ := ht vs (hl ▸ ha)
    refine ⟨v, ?_⟩
    rw [eval, hr, hvs]
    change (f.apply vs).mapError FormulaError.argument = _
    rw [hv]
    rfl

end Expr

/-- A formula may read the name: the record has a number under it, or lacks it and it
counts as zero. -/
def Record.Supplies (r : Record) (x : String) : Prop :=
  (∃ v, r.find? x = some v ∧ v.coerce.isSome = true) ∨
    (r.find? x = none ∧ x ∉ Reference.functionNames ∧ x ≠ "Infinity")

theorem Bindings.exists_find? {formula : String} {e : Expr} {record : Record} {x : String}
    (hp : Expr.parse formula = .ok e) (hx : x ∈ e.fields) (h : record.Supplies x) :
    ∃ n, (ofRecord formula record).find? x = some n := by
  rw [find?_ofRecord]
  cases h with
  | inl h =>
    obtain ⟨v, hv, hc⟩ := h
    obtain ⟨n, hn⟩ := Option.isSome_iff_exists.1 hc
    exact ⟨n, by rw [hv, Option.map_some, Option.getD_some, hn]⟩
  | inr h =>
    obtain ⟨hn, hf, hi⟩ := h
    have hu : x ∈ Reference.used formula :=
      Reference.mem_used.2 ⟨Reference.mem_mentions_of_mem_fields hp hx, hf, hi⟩
    exact ⟨.zero false, by rw [hn, Option.map_none, Option.getD_none, if_pos hu]⟩

namespace ReturnType

theorem shape_number (v : Value) : ∃ n, number.shape v = .number n := by
  cases v <;> exact ⟨_, rfl⟩

theorem shape_boolean (v : Value) : ∃ b, boolean.shape v = .boolean b := ⟨v.isTruthy, rfl⟩

theorem shape_text (v : Value) : ∃ s, text.shape v = .text s := ⟨v.toText, rfl⟩

end ReturnType

namespace Formula
variable {formula : String} {r₁ r₂ : Record}

theorem value_of_parse {e : Expr} (h : Expr.parse formula = .ok e) (r : Record) :
    value formula r = e.eval (Bindings.ofRecord formula r) := by
  rw [value, h]
  rfl

theorem value_of_parse_error {err : ParseError} (h : Expr.parse formula = .error err) (r : Record) :
    value formula r = .error (.parse err) := by
  rw [value, h]
  rfl

theorem evaluate_congr (h : value formula r₁ = value formula r₂) (r : ReturnType) :
    evaluate formula r₁ r = evaluate formula r₂ r := by
  rw [evaluate, evaluate, h]

theorem evaluate_of_value {v : Value} (h : value formula r₁ = .ok v) (r : ReturnType) :
    evaluate formula r₁ r = .success (r.shape v) r := by
  rw [evaluate, h]

theorem value_congr
    (h : ∀ e, Expr.parse formula = .ok e →
      ∀ x ∈ e.fields, (r₁.find? x).map FieldValue.coerce = (r₂.find? x).map FieldValue.coerce) :
    value formula r₁ = value formula r₂ := by
  cases hp : Expr.parse formula with
  | error err => rw [value_of_parse_error hp, value_of_parse_error hp]
  | ok e =>
    rw [value_of_parse hp, value_of_parse hp]
    apply Expr.eval_congr
    intro x hx
    rw [Bindings.find?_ofRecord, Bindings.find?_ofRecord, h e hp x hx]

theorem value_total {e : Expr} {record : Record} (hp : Expr.parse formula = .ok e)
    (hc : ∀ c ∈ e.calls, Expr.Callable c) (hf : ∀ x ∈ e.fields, record.Supplies x) :
    ∃ v, value formula record = .ok v := by
  rw [value_of_parse hp]
  exact Expr.eval_total e (fun x hx => Bindings.exists_find? hp hx (hf x hx)) hc

/-- The outcome depends on nothing but the numbers that the record has for the fields
of the formula: not on other entries, nor on the order of the entries, nor on
anything where the formula is refused. -/
theorem evaluate_eq_of_fields (formula : String) (r : ReturnType) :
    (∀ r₁ r₂ : Record,
      (∀ e, Expr.parse formula = .ok e →
        ∀ x ∈ e.fields, (r₁.find? x).map FieldValue.coerce = (r₂.find? x).map FieldValue.coerce) →
      evaluate formula r₁ r = evaluate formula r₂ r) ∧
    (∀ err, Expr.parse formula = .error err →
      ∀ r₁ r₂ : Record, evaluate formula r₁ r = evaluate formula r₂ r) ∧
    (∀ (r₁ r₂ : Record) (x : String), (∀ e, Expr.parse formula = .ok e → x ∉ e.fields) →
      (∀ y, y ≠ x → r₁.find? y = r₂.find? y) → evaluate formula r₁ r = evaluate formula r₂ r) ∧
    (∀ r₁ r₂ : Record, r₁.entries.Perm r₂.entries →
      evaluate formula r₁ r = evaluate formula r₂ r) := by
  refine ⟨?_, ?_, ?_, ?_⟩
  · intro r₁ r₂ h
    exact evaluate_congr (value_congr h) r
  · intro err hp r₁ r₂
    have hv : value formula r₁ = value formula r₂ := by
      rw [value_of_parse_error hp, value_of_parse_error hp]
    exact evaluate_congr hv r
  · intro r₁ r₂ x hx h
    have hv : value formula r₁ = value formula r₂ := by
      apply value_congr
      intro e hp y hy
      have hyx : y ≠ x := fun he => hx e hp (he ▸ hy)
      rw [h y hyx]
    exact evaluate_congr hv r
  · intro r₁ r₂ h
    have hv : value formula r₁ = value formula r₂ := by
      apply value_congr
      intro e hp y hy
      rw [Table.find?_eq_of_perm h]
    exact evaluate_congr hv r

theorem parse_text_times_call :
    ∃ n, Expr.parse "'n/a' * iF(a / 0, b, c)" =
      .ok (.binary .multiply (.text "n/a")
        (.call "iF" [.binary .divide (.field "a") (.number n), .field "b", .field "c"])) := by
  have hs : Token.scan "'n/a' * iF(a / 0, b, c)".toList =
      [.text "n/a", .star, .word "iF", .openParen, .word "a", .slash, .number (.zero false), .comma,
        .word "b", .comma, .word "c", .closeParen] := by
    rw [Token.scan_eq_scanWithin (n := 30) (by decide)]
    decide +kernel
  have ht : ∀ n, Expr.ofTokens [.text "n/a", .star, .word "iF", .openParen, .word "a", .slash,
      .number n, .comma, .word "b", .comma, .word "c", .closeParen] =
        .ok (.binary .multiply (.text "n/a")
          (.call "iF" [.binary .divide (.field "a") (.number n), .field "b", .field "c"])) := by
    intro n
    cbv
  exact ⟨_, (congrArg Expr.ofTokens hs).trans (ht _)⟩

theorem evaluate_eq_of_null_of_false :
    evaluate "'n/a' * iF(a / 0, b, c)" (Table.ofList [("a", .null), ("b", .text "12 pcs")]) .text =
      evaluate "'n/a' * iF(a / 0, b, c)"
        (Table.ofList [("n", .text "none"), ("iF", .unsupported (.array [])),
          ("b", .number (.ofNat 12)), ("a", .boolean false)]) .text := by
  obtain ⟨n, hp⟩ := parse_text_times_call
  apply (evaluate_eq_of_fields _ _).1
  intro e he
  rw [hp] at he
  cases he
  change ∀ x ∈ ["a", "b", "c"], _ = _
  decide +kernel

/-- A formula whose calls are admitted and whose fields are supplied has an outcome without an
error, whatever its texts and numbers are and whatever else the record holds. -/
theorem evaluate_ok (formula : String) (e : Expr) (record : Record) (r : ReturnType)
    (hp : Expr.parse formula = .ok e) (hc : ∀ c ∈ e.calls, Expr.Callable c)
    (hf : ∀ x ∈ e.fields, record.Supplies x) :
    (evaluate formula record r).error = none ∧ ∃ v, (evaluate formula record r).value = some v ∧
      (r = .number → ∃ n, v = .number n) ∧ (r = .boolean → ∃ b, v = .boolean b) ∧
      (r = .text → ∃ s, v = .text s) := by
  obtain ⟨v, hv⟩ := value_total hp hc hf
  rw [evaluate_of_value hv]
  refine ⟨rfl, r.shape v, rfl, ?_, ?_, ?_⟩
  · intro hr
    rw [hr]
    exact ReturnType.shape_number v
  · intro hr
    rw [hr]
    exact ReturnType.shape_boolean v
  · intro hr
    rw [hr]
    exact ReturnType.shape_text v

theorem evaluate_ok_of_division_by_zero :
    ∃ formula e record, formula = "'n/a' * iF(a / 0, b, c)" ∧
      record = Table.ofList [("a", .null), ("b", .text "12 pcs"), ("iF", .unsupported (.array [])),
        ("n", .text "none")] ∧
      Expr.parse formula = .ok e ∧ e.fields = ["a", "b", "c"] ∧ e.calls = [("iF", 3)] ∧
      (evaluate formula record .number).error = none ∧
      ∃ n, (evaluate formula record .number).value = some (.number n) := by
  obtain ⟨_, hp⟩ := parse_text_times_call
  have hc : ∀ c ∈ [("iF", 3)], Expr.Callable c := by
    intro c h
    rw [List.mem_singleton.1 h]
    exact (Option.any_eq_true _ _).1 (by decide +kernel)
  have hf : ∀ x ∈ ["a", "b", "c"],
      Record.Supplies (Table.ofList [("a", .null), ("b", .text "12 pcs"),
        ("iF", .unsupported (.array [])), ("n", .text "none")]) x := by
    simp only [List.forall_mem_cons, List.not_mem_nil, false_implies, implies_true, and_true]
    exact ⟨Or.inl ⟨.null, by rfl, by decide⟩, Or.inl ⟨.text "12 pcs", by rfl, by decide +kernel⟩,
      Or.inr ⟨by rfl, by decide, by decide⟩⟩
  obtain ⟨he, v, hv, hn, -⟩ := evaluate_ok _ _ _ .number hp hc hf
  obtain ⟨n, rfl⟩ := hn rfl
  exact ⟨_, _, _, rfl, rfl, hp, rfl, rfl, he, n, hv⟩

end Formula
end FieldFormula
