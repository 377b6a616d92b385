import FieldFormula.Outcome.Json
import FieldFormula.Proofs.JsonText
import FieldFormula.Proofs.Validation

/-!
Outcomes written as JSON and read back. Texts, conditions, messages and return types come back as
they were; a number that is not finite is lost.
-/
namespace FieldFormula
open Json Lexeme

namespace Value

/-- The number is read from its JSON text again. Reading rounds more than once, so
not every finite number is. -/
def ReadsBack (x : Binary64) : Prop :=
  (Form.ofText? (Json.number (.float x)).write).bind ofForm? = some (number x)

instance (x : Binary64) : Decidable (ReadsBack x) := inferInstanceAs (Decidable (_ = _))

def kept? : Value → Option Value
  | number n => if n.isFinite then some (number n) else none
  | v => some v

end Value

namespace Json

theorem ofText?_of_scans {v : Json} {f : Figure} (h : Scans v (.number f)) :
    Form.ofText? v.write = some (.number f) := by
  have hs := h [] nofun
  rw [List.append_nil, scan] at hs
  rw [Form.ofText?, hs]
  change (Form.read [.number f] >>= _) = _
  rw [Form.read]
  rfl

theorem exists_part (v : Option Value)
    (hv : ∀ x, v = some (.number x) → x.isFinite = true → Value.ReadsBack x) :
    ∃ p : Part, p.value = (v.map Value.toJson).getD .null ∧
      Form.optional Value.ofForm? (some p.form) = some (v.bind Value.kept?) := by
  match v with
  | none => exact ⟨.null, rfl, rfl⟩
  | some (.boolean b) => exact ⟨.boolean b, rfl, rfl⟩
  | some (.text s) =>
    have h : Value.ofForm? (.text (pieces s)) = some (.text s) := by
      rw [Value.ofForm?, string?_pieces]; rfl
    exact ⟨.text s, rfl, congrArg (Option.map some) h⟩
  | some (.number x) =>
    cases hx : x.isFinite with
    | false =>
      exact ⟨.null, by simp [Value.toJson, hx, Part.null],
        by simp [Value.kept?, hx, Part.null, Form.optional]⟩
    | true =>
      obtain ⟨f, hf⟩ := exists_scans_number hx
      have hb := hv x rfl hx
      rw [Value.ReadsBack, ofText?_of_scans hf, Option.bind_some] at hb
      have h := congrArg (Option.map some) hb
      exact ⟨.number (.float x) f hf, by simp [Value.toJson, hx, Part.number],
        by simpa [Value.kept?, hx, Part.number, Form.optional] using h⟩

theorem mapM_forms (ms : List (String × Part)) :
    (forms ms).mapM (fun (k, f) => (Form.string? k).map (·, f)) =
      some (ms.map fun m => (m.1, m.2.form)) := by
  induction ms with
  | nil => rfl
  | cons m ms ih =>
    have hm : (Form.string? (pieces m.1)).map (·, m.2.form) = some (m.1, m.2.form) := by
      rw [string?_pieces, Option.map_some]
    rw [forms] at ih
    simp [forms, hm, ih]

end Json

namespace Outcome

def OneSet (o : Outcome) : Prop := o.value.isSome = true ↔ o.error = none

def IsFinite (o : Outcome) : Prop := ∀ x, o.value = some (.number x) → x.isFinite = true

def kept (o : Outcome) : Outcome := { o with value := o.value.bind Value.kept? }

theorem kept_eq_self_iff {o : Outcome} : o.kept = o ↔ o.IsFinite := by
  obtain ⟨v, e, r⟩ := o
  cases v with
  | none => simp [kept, IsFinite]
  | some v => cases v <;> simp [kept, IsFinite, Value.kept?]

theorem kept_of_not_isFinite {o : Outcome} (h : ¬ o.IsFinite) :
    o.kept = ⟨none, o.error, o.returnType⟩ := by
  simp only [IsFinite, not_forall] at h
  obtain ⟨x, hx, hf⟩ := h
  simp [kept, hx, Value.kept?, hf]

def parts (p : Part) (error : Option String) (r : ReturnType) : List (String × Part) :=
  ("value", p) ::
    ((error.map fun m => ("error", Part.text m)).toList ++ [("returnType", .text r.name)])

section
variable (p : Part) (error : Option String) (r : ReturnType)

theorem members_parts : Json.members (parts p error r) =
    ("value", p.value) ::
      ((error.map fun m => ("error", Json.text m)).toList ++ [("returnType", .text r.name)]) := by
  cases error <;> rfl

theorem fields?_parts :
    Form.fields? ["value", "error", "returnType"] 3 (.object (forms (parts p error r))) =
      some [some p.form, error.map fun m => .text (pieces m), some (.text (pieces r.name))] := by
  rw [Form.fields?, mapM_forms]
  cases error <;> rfl

theorem optional_text? :
    Form.optional Form.text? (error.map fun m => .text (pieces m)) = some error := by
  cases error with
  | none => rfl
  | some m => exact congrArg (Option.map some) (string?_pieces m)

theorem ofForm?_returnType : ReturnType.ofForm? (some (.text (pieces r.name))) = some r := by
  have hs := optional_text? (some r.name)
  rw [Option.map_some] at hs
  rw [ReturnType.ofForm?, hs]
  cases r <;> decide +kernel

end

theorem ofText?_toJson (o : Outcome)
    (hv : ∀ x, o.value = some (.number x) → x.isFinite = true → Value.ReadsBack x) :
    ofText? o.toJson.write = some o.kept := by
  obtain ⟨p, hp, hf⟩ := exists_part o.value hv
  have hm : o.members = Json.members (parts p o.error o.returnType) := by
    rw [members_parts, hp, members]
  have hw :
      Form.ofText? o.toJson.write = some (.object (forms (parts p o.error o.returnType))) := by
    rw [toJson, hm]
    exact ofText?_write_object "value" p _
  rw [ofText?, hw, Option.bind_some, ofForm?, fields?_parts]
  change (do
    return ({
      value := ← Form.optional Value.ofForm? (some p.form)
      error := ← Form.optional Form.text? (o.error.map fun m => .text (pieces m))
      returnType := ← ReturnType.ofForm? (some (.text (pieces o.returnType.name))) } : Outcome)) = _
  rw [hf, optional_text?, ofForm?_returnType]
  rfl

end Outcome

namespace Formula

theorem oneSet_evaluate (formula : String) (record : Record) (r : ReturnType) :
    (evaluate formula record r).OneSet := by
  rw [evaluate]
  cases value formula record <;> simp [Outcome.OneSet, Outcome.success, Outcome.failure]

theorem error_evaluate_of_not_isFinite {formula : String} {record : Record} {r : ReturnType}
    (h : ¬ (evaluate formula record r).IsFinite) : (evaluate formula record r).error = none := by
  simp only [Outcome.IsFinite, not_forall] at h
  obtain ⟨x, hx, -⟩ := h
  exact (oneSet_evaluate formula record r).1 (by rw [hx]; rfl)

theorem returnType_evaluate (formula : String) (record : Record) (r : ReturnType) :
    (evaluate formula record r).returnType = r := by
  rw [evaluate]
  cases value formula record <;> rfl

/-- An outcome has a value or a message, and comes back from JSON as it was if its value is finite.
One with a value that is not finite comes back with neither a value nor a message. -/
theorem ofText?_toJson_evaluate (formula : String) (record : Record) (r : ReturnType)
    (hv : ∀ x, (evaluate formula record r).value = some (.number x) → x.isFinite = true →
      Value.ReadsBack x) :
    (evaluate formula record r).OneSet ∧
    ∃ o, Outcome.ofText? (evaluate formula record r).toJson.write = some o ∧
      (o = evaluate formula record r ↔ (evaluate formula record r).IsFinite) ∧
      (o.OneSet ↔ (evaluate formula record r).IsFinite) ∧
      (¬ (evaluate formula record r).IsFinite → o = ⟨none, none, r⟩) := by
  have hlost : ¬ (evaluate formula record r).IsFinite →
      (evaluate formula record r).kept = ⟨none, none, r⟩ := by
    intro h
    rw [Outcome.kept_of_not_isFinite h, error_evaluate_of_not_isFinite h, returnType_evaluate]
  refine ⟨oneSet_evaluate formula record r, _, Outcome.ofText?_toJson _ hv,
    Outcome.kept_eq_self_iff, ?_, hlost⟩
  constructor
  · intro h
    by_contra hf
    rw [hlost hf] at h
    simp [Outcome.OneSet] at h
  · intro h
    rw [Outcome.kept_eq_self_iff.2 h]
    exact oneSet_evaluate formula record r

def tenths : Record :=
  Table.ofList [("a", .number (.ofBits 0x3fb999999999999a)),
    ("b", .number (.ofBits 0x3fc999999999999a))]

theorem ofText?_toJson_evaluate_of_sum :
    (evaluate "a + b" tenths .number).toJson.write =
        "\x7b\"value\":0.30000000000000004,\"returnType\":\"number\"\x7d".toList ∧
      Outcome.ofText? (evaluate "a + b" tenths .number).toJson.write =
        some (evaluate "a + b" tenths .number) := by
  have hs : Token.scanWithin 5 "a + b".toList = [.word "a", .plus, .word "b"] := by decide +kernel
  have hp : Expr.parse "a + b" = .ok (.binary .add (.field "a") (.field "b")) := by
    rw [parse_eq_of_scanWithin (by decide) hs]
    cbv
  have he : evaluate "a + b" tenths .number =
      ⟨some (.number (.ofBits 0x3fd3333333333334)), none, .number⟩ := by
    rw [evaluate, value_of_parse hp]
    decide +kernel
  have hx : (evaluate "a + b" tenths .number).IsFinite := by
    rw [he]
    intro x h
    rw [← Value.number.inj (Option.some.inj h)]
    decide +kernel
  have hv : ∀ x, (evaluate "a + b" tenths .number).value = some (.number x) → x.isFinite = true →
      Value.ReadsBack x := by
    rw [he]
    intro x h _
    rw [← Value.number.inj (Option.some.inj h)]
    decide +kernel
  obtain ⟨-, o, ho, hsame, -⟩ := ofText?_toJson_evaluate "a + b" tenths .number hv
  refine ⟨?_, ?_⟩
  · rw [he]
    decide +kernel
  · rw [ho, hsame.2 hx]

theorem ofText?_toJson_evaluate_of_quotient_by_zero :
    (evaluate "1 / 0" Table.empty .number).error = none ∧
      (evaluate "1 / 0" Table.empty .number).value = some (.number (.infinity false)) ∧
      (evaluate "1 / 0" Table.empty .number).toJson.write =
        "\x7b\"value\":null,\"returnType\":\"number\"\x7d".toList ∧
      Outcome.ofText? (evaluate "1 / 0" Table.empty .number).toJson.write =
        some ⟨none, none, .number⟩ ∧
      ¬ Outcome.OneSet ⟨none, none, .number⟩ := by
  have hs :
      Token.scanWithin 5 "1 / 0".toList = [.number (.ofNat 1), .slash, .number (.zero false)] := by
    decide +kernel
  have ht : ∀ m n, Expr.ofTokens [.number m, .slash, .number n] =
      .ok (.binary .divide (.number m) (.number n)) := by
    intro m n
    cbv
  have hp :
      Expr.parse "1 / 0" = .ok (.binary .divide (.number (.ofNat 1)) (.number (.zero false))) := by
    rw [parse_eq_of_scanWithin (by decide) hs, ht]
  have he :
      evaluate "1 / 0" Table.empty .number = ⟨some (.number (.infinity false)), none, .number⟩ := by
    rw [evaluate, value_of_parse hp]
    decide +kernel
  have hw : (Outcome.toJson ⟨some (.number (.infinity false)), none, .number⟩).write =
      "\x7b\"value\":null,\"returnType\":\"number\"\x7d".toList := by decide +kernel
  have hback : Outcome.ofText? "\x7b\"value\":null,\"returnType\":\"number\"\x7d".toList =
      some ⟨none, none, .number⟩ := by decide +kernel
  rw [he]
  exact ⟨rfl, rfl, hw, hw ▸ hback, by simp [Outcome.OneSet]⟩

end Formula
end FieldFormula
