import FieldFormula.Proofs.Faults

/-!
Validation and evaluation agree: what is wrong with the form of a formula is reported alike by both,
and no other message looks like such a report.
-/
namespace FieldFormula

namespace FormulaError

theorem head?_append {s : String} {c : Char} (h : s.toList.head? = some c) (t : String) :
    (s ++ t).toList.head? = some c := by
  rw [String.toList_append, List.head?_append, h, Option.some_or]

/- The first letter already tells the kinds of messages apart, whatever names they quote. -/
theorem head?_message (e : FormulaError) :
    e.message.toList.head? = some 'P' ↔ ∃ p, e = .parse p := by
  have other : ∀ {c : Char}, e.message.toList.head? = some c → c ≠ 'P' →
      e.message.toList.head? ≠ some 'P' := by
    intro c h hc h'
    exact hc (Option.some.inj (h.symm.trans h'))
  cases e with
  | parse p => exact ⟨fun _ => ⟨p, rfl⟩, fun _ => head?_append rfl _⟩
  | undefinedVariable name =>
    exact ⟨fun h => absurd h (other (head?_append rfl _) (by decide)), nofun⟩
  | unknownFunction name =>
    exact ⟨fun h => absurd h (other (head?_append rfl _) (by decide)), nofun⟩
  | argumentCount function arity actual =>
    have h : (argumentCount function arity actual).message.toList.head? = some 'W' :=
      head?_append (head?_append (head?_append (head?_append (head?_append rfl _) _) _) _) _
    exact ⟨fun h' => absurd h' (other h (by decide)), nofun⟩
  | argument p => exact ⟨fun h => absurd h (other (head?_append rfl _) (by decide)), nofun⟩

theorem isPrefix_message_iff (e : FormulaError) :
    "Parse error: ".toList <+: e.message.toList ↔ ∃ p, e = .parse p := by
  constructor
  · intro h
    obtain ⟨rest, hr⟩ := h
    rw [← head?_message, ← hr]
    rfl
  · intro h
    obtain ⟨p, rfl⟩ := h
    exact ⟨p.message.toList, (String.toList_append ..).symm⟩

end FormulaError

namespace Formula
variable {formula : String} {record : Record} {r : ReturnType} {e : FormulaError} {err : ParseError}

theorem validate_eq_some_iff :
    validate formula = some e ↔ ∃ err, Expr.parse formula = .error err ∧ e = .parse err := by
  rw [validate]
  cases Expr.parse formula <;> simp [eq_comm]

theorem value_eq_parse_error_iff :
    value formula record = .error (.parse err) ↔ Expr.parse formula = .error err := by
  cases hp : Expr.parse formula with
  | error err' => simp [value_of_parse_error hp]
  | ok t =>
    rw [value_of_parse hp]
    constructor
    · intro h
      obtain ⟨n, hf⟩ := Expr.exists_fault_of_eval h
      cases hf
    · nofun

theorem error_evaluate_eq_some_iff {m : String} :
    (evaluate formula record r).error = some m ↔
      ∃ e, value formula record = .error e ∧ e.message = m := by
  rw [evaluate]
  cases value formula record <;> simp [Outcome.success, Outcome.failure]

/-- Where validation finds something wrong, evaluation has no value and the same message, for every
record and return type; where it finds nothing, no message of evaluation reports the form of the
formula. So both report it alike, and whatever else they are given does not count. -/
theorem evaluate_agrees_with_validate (formula : String) :
    (∀ e, validate formula = some e →
      ∀ record r, evaluate formula record r = ⟨none, some e.message, r⟩) ∧
    (validate formula = none →
      ∀ record r m, (evaluate formula record r).error = some m →
        ¬ "Parse error: ".toList <+: m.toList) ∧
    (∀ record r m, "Parse error: ".toList <+: m.toList →
      ((evaluate formula record r).error = some m ↔
        (validate formula).map FormulaError.message = some m)) := by
  refine ⟨?_, ?_, ?_⟩
  · intro e h record r
    obtain ⟨err, hp, rfl⟩ := validate_eq_some_iff.1 h
    rw [evaluate, value_of_parse_error hp]
    rfl
  · intro h record r m hm hpre
    obtain ⟨e, he, rfl⟩ := error_evaluate_eq_some_iff.1 hm
    obtain ⟨err, rfl⟩ := e.isPrefix_message_iff.1 hpre
    have hv := validate_eq_some_iff.2 ⟨err, value_eq_parse_error_iff.1 he, rfl⟩
    rw [h] at hv
    cases hv
  · intro record r m hpre
    rw [error_evaluate_eq_some_iff, Option.map_eq_some_iff]
    constructor
    · intro h
      obtain ⟨e, he, rfl⟩ := h
      obtain ⟨err, rfl⟩ := e.isPrefix_message_iff.1 hpre
      exact ⟨_, validate_eq_some_iff.2 ⟨err, value_eq_parse_error_iff.1 he, rfl⟩, rfl⟩
    · intro h
      obtain ⟨e, he, rfl⟩ := h
      obtain ⟨err, hp, rfl⟩ := validate_eq_some_iff.1 he
      exact ⟨_, value_eq_parse_error_iff.2 hp, rfl⟩

theorem parse_eq_of_scanWithin {formula : String} {n : Nat} {ts : List Token}
    (hn : formula.toList.length ≤ n) (hs : Token.scanWithin n formula.toList = ts) :
    Expr.parse formula = Expr.ofTokens ts := by
  rw [Expr.parse, Token.scan_eq_scanWithin hn, hs]

theorem evaluate_agrees_with_validate_of_missing_operand :
    validate "fee +" = some (.parse (.noValue none)) ∧
      evaluate "fee +" (Table.ofList [("fee", .text "n/a")]) .date =
        ⟨none, some "Parse error: Unexpected end of expression, expected a value", .date⟩ ∧
      validate "Max()" = none ∧
      (evaluate "Max()" Table.empty .text).error =
        some "Wrong number of arguments for Max: expected at least 1, got 0" ∧
      ¬ "Parse error: ".toList <+:
        "Wrong number of arguments for Max: expected at least 1, got 0".toList := by
  have hs : Token.scanWithin 6 "fee +".toList = [.word "fee", .plus] := by decide +kernel
  have hp : Expr.parse "fee +" = .error (.noValue none) := by
    rw [parse_eq_of_scanWithin (by decide) hs]
    cbv
  have hs' : Token.scanWithin 6 "Max()".toList = [.word "Max", .openParen, .closeParen] := by
    decide +kernel
  have hp' : Expr.parse "Max()" = .ok (.call "Max" []) := by
    rw [parse_eq_of_scanWithin (by decide) hs']
    cbv
  have hv : validate "fee +" = some (.parse (.noValue none)) := validate_eq_some_iff.2 ⟨_, hp, rfl⟩
  have hv' : validate "Max()" = none := by rw [validate, hp']
  have he : (evaluate "Max()" Table.empty .text).error =
      some "Wrong number of arguments for Max: expected at least 1, got 0" := by
    refine error_evaluate_eq_some_iff.2 ⟨.argumentCount "Max" ⟨1, none⟩ 0, ?_, by decide⟩
    rw [value_of_parse hp']
    decide +kernel
  obtain ⟨refused, -, -⟩ := evaluate_agrees_with_validate "fee +"
  obtain ⟨-, accepted, -⟩ := evaluate_agrees_with_validate "Max()"
  exact ⟨hv, refused _ hv _ _, hv', he, accepted hv' _ _ _ he⟩

end Formula
end FieldFormula
