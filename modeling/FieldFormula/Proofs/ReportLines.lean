import FieldFormula.Proofs.Messages
import FieldFormula.Proofs.Validation
import FieldFormula.Report

/-!
The lines of a report. Names, values and messages stand in them as they are, so a line break in one
of them breaks the line of its definition; nothing else does.
-/
namespace FieldFormula

open Text

/- Lists cut at a separator. -/

theorem flatMap_splitOn {α : Type} [BEq α] [LawfulBEq α] (x : α) {ls : List (List α)}
    (h : ls ≠ []) : ([x].intercalate ls).splitOn x = ls.flatMap (List.splitOn x) := by
  induction ls with
  | nil => exact absurd rfl h
  | cons l ls ih =>
    cases ls with
    | nil => simp
    | cons l' ls =>
      rw [List.intercalate_cons_cons, List.append_assoc, List.singleton_append,
        List.splitOn_append_cons_self, ih (List.cons_ne_nil _ _)]
      exact List.flatMap_cons.symm

theorem flatMap_splitOn_of_notMem {α : Type} [BEq α] [LawfulBEq α] {x : α} {ls : List (List α)}
    (h : ∀ l ∈ ls, x ∉ l) : ls.flatMap (List.splitOn x) = ls := by
  induction ls with
  | nil => rfl
  | cons l ls ih =>
    obtain ⟨hl, hls⟩ := List.forall_mem_cons.1 h
    rw [List.flatMap_cons, List.splitOn_eq_singleton hl, ih hls, List.singleton_append]

theorem notMem_of_length_splitOn {α : Type} [BEq α] [LawfulBEq α] {x : α} {l : List α}
    (h : (l.splitOn x).length = 1) : x ∉ l := by
  intro hx
  obtain ⟨u, v, rfl⟩ := List.append_of_mem hx
  rw [List.splitOn_append_cons_self, List.length_append] at h
  have hu := List.length_pos_of_ne_nil (List.splitOn_ne_nil x u)
  have hv := List.length_pos_of_ne_nil (List.splitOn_ne_nil x v)
  omega

/- Lists that are not empty, and no more elements than lists. -/
theorem length_eq_one_of_flatMap {α β : Type} {f : α → List β} (hf : ∀ a, f a ≠ []) {l : List α}
    (h : (l.flatMap f).length ≤ l.length) : ∀ a ∈ l, (f a).length = 1 := by
  have le : ∀ l : List α, l.length ≤ (l.flatMap f).length := by
    intro l
    induction l with
    | nil => exact Nat.zero_le _
    | cons a l ih =>
      have ha := List.length_pos_of_ne_nil (hf a)
      rw [List.flatMap_cons, List.length_append, List.length_cons]
      omega
  induction l with
  | nil => simp
  | cons a l ih =>
    have ha := List.length_pos_of_ne_nil (hf a)
    have hl := le l
    rw [List.flatMap_cons, List.length_append, List.length_cons] at h
    exact List.forall_mem_cons.2 ⟨by omega, ih (by omega)⟩

theorem Samples.recordFor_eq (s : Samples) (entity : String) :
    s.recordFor entity = (s.byEntity.find? entity).or s.fallback := by
  rw [recordFor]
  cases s.byEntity.find? entity <;> rfl

/-- The line begins with `PASS ` if the definition has an outcome without an error on its
record, which is the sample for its kind of entity, or the common one, or an empty
record; otherwise it begins with `FAIL `. -/
def Definition.Announced (s : Samples) (d : Definition) (l : List Char) : Prop :=
  let record := ((s.byEntity.find? d.entity).or s.fallback).getD Table.empty
  let o := Formula.evaluate d.expression record d.returnType
  ("PASS ".toList <+: l ↔ o.error = none) ∧ ("FAIL ".toList <+: l ↔ o.error ≠ none)

structure Definition.Unbroken (d : Definition) : Prop where
  entity : Text.Unbroken d.entity.toList
  field : Text.Unbroken d.field.toList
  expression : Formula.Unbroken d.expression

namespace Check
variable {s : Samples} {d : Definition}

theorem line_of_none {c : Check} (h : c.outcome.error = none) :
    c.line.toList = "PASS ".toList ++ (c.name ++ (" = " ++ c.display)).toList := by
  rw [line, h]
  simp only [String.toList_append, List.append_assoc]

theorem line_of_some {c : Check} {e : String} (h : c.outcome.error = some e) :
    c.line.toList = "FAIL ".toList ++ (c.name ++ (": " ++ e)).toList := by
  rw [line, h]
  simp only [String.toList_append, List.append_assoc]

theorem isPrefix_line (c : Check) :
    ("PASS ".toList <+: c.line.toList ↔ c.outcome.error = none) ∧
      ("FAIL ".toList <+: c.line.toList ↔ c.outcome.error ≠ none) := by
  cases h : c.outcome.error with
  | none =>
    rw [line_of_none h]
    simp
  | some e =>
    rw [line_of_some h]
    simp

theorem outcome_ofDefinition (s : Samples) (d : Definition) :
    (ofDefinition s d).outcome =
      Formula.evaluate d.expression
      (((s.byEntity.find? d.entity).or s.fallback).getD Table.empty) d.returnType := by
  rw [← Samples.recordFor_eq]
  rfl

theorem announced (s : Samples) (d : Definition) :
    d.Announced s (ofDefinition s d).line.toList := by
  have h := (ofDefinition s d).isPrefix_line
  rw [outcome_ofDefinition] at h
  exact h

theorem unbroken_name (h : d.Unbroken) : Text.Unbroken d.name.toList :=
  .append (.append h.entity (by decide)) h.field

theorem unbroken_line (s : Samples) (h : d.Unbroken) :
    Text.Unbroken (ofDefinition s d).line.toList := by
  have hn : Text.Unbroken (ofDefinition s d).name.toList := unbroken_name h
  cases hv : Formula.value d.expression ((s.recordFor d.entity).getD Table.empty) with
  | ok v =>
    have ho : (ofDefinition s d).outcome = .success (d.returnType.shape v) d.returnType :=
      Formula.evaluate_of_value hv _
    have hd := d.returnType.unbroken_shape (Formula.unbroken_value h.expression hv)
    have hs : Text.Unbroken (ofDefinition s d).display.toList := by
      change Text.Unbroken ((ofDefinition s d).outcome.display d.places).toList
      rw [ho]
      exact Display.unbroken_value d.places d.returnType hd
    rw [line_of_none (by rw [ho]; rfl), unbroken_append]
    exact ⟨by decide, .append hn (.append (by decide) hs)⟩
  | error err =>
    have ho : (ofDefinition s d).outcome = .failure err d.returnType := by
      change Formula.evaluate _ _ _ = _
      rw [Formula.evaluate, hv]
    have hm := Formula.unbroken_message h.expression hv
    rw [line_of_some (by rw [ho]; rfl), unbroken_append]
    exact ⟨by decide, .append hn (.append (by decide) hm)⟩

end Check

def Report.summaryOf (ls : List (List Char)) : String :=
  ls.length.repr ++ " formulas: " ++ (ls.countP "PASS ".toList.isPrefixOf).repr ++ " passed, " ++
    (ls.countP "FAIL ".toList.isPrefixOf).repr ++ " failed"

/-- The text has one line for each definition, in their order, and then one with the
numbers of these lines. -/
def Report.LineForEach (s : Samples) (ds : List Definition) (text : String) : Prop :=
  ∃ ls, List.Forall₂ (Definition.Announced s) ds ls ∧
    text.toList.splitOn '\n' = ls ++ [(Report.summaryOf ls).toList]

namespace Report

theorem countP_passed (s : Samples) (ds : List Definition) :
    (ofDefinitions ds s).passed =
      (ds.map fun d => (Check.ofDefinition s d).line.toList).countP "PASS ".toList.isPrefixOf := by
  rw [passed, ofDefinitions, List.countP_map, List.countP_map]
  refine List.countP_congr fun d _ => ?_
  rw [Function.comp_apply, Function.comp_apply, List.isPrefixOf_iff_prefix,
    (Check.isPrefix_line _).1]
  exact Option.isNone_iff_eq_none

theorem countP_failed (s : Samples) (ds : List Definition) :
    (ofDefinitions ds s).failed =
      (ds.map fun d => (Check.ofDefinition s d).line.toList).countP "FAIL ".toList.isPrefixOf := by
  rw [failed, ofDefinitions, List.countP_map, List.countP_map]
  refine List.countP_congr fun d _ => ?_
  rw [Function.comp_apply, Function.comp_apply, List.isPrefixOf_iff_prefix,
    (Check.isPrefix_line _).2]
  simp [Check.passed, Outcome.isOk, Option.isSome_iff_ne_none]

theorem summary_eq (s : Samples) (ds : List Definition) :
    (ofDefinitions ds s).summary =
      summaryOf (ds.map fun d => (Check.ofDefinition s d).line.toList) := by
  rw [summary, summaryOf, countP_passed, countP_failed, ofDefinitions, List.length_map,
    List.length_map]

theorem unbroken_summaryOf (ls : List (List Char)) : Text.Unbroken (summaryOf ls).toList := by
  have passed : Text.Unbroken
      (ls.length.repr ++ " formulas: " ++ (ls.countP "PASS ".toList.isPrefixOf).repr).toList :=
    .append (.append (unbroken_repr _) (by decide)) (unbroken_repr _)
  exact .append (.append (.append passed (by decide)) (unbroken_repr _)) (by decide)

theorem splitOn_text (s : Samples) (ds : List Definition) :
    (ofDefinitions ds s).text.toList.splitOn '\n' =
      (ds.map fun d => (Check.ofDefinition s d).line.toList).flatMap (List.splitOn '\n') ++
        [(summaryOf (ds.map fun d => (Check.ofDefinition s d).line.toList)).toList] := by
  have hl : (ofDefinitions ds s).lines.map String.toList =
      (ds.map fun d => (Check.ofDefinition s d).line.toList) ++
        [(summaryOf (ds.map fun d => (Check.ofDefinition s d).line.toList)).toList] := by
    rw [lines, summary_eq, ofDefinitions, List.map_append, List.map_map, List.map_map]
    rfl
  have hn : "\n".toList = ['\n'] := rfl
  rw [text, String.toList_intercalate, hl, hn, flatMap_splitOn _ (by simp), List.flatMap_append,
    List.flatMap_singleton, List.splitOn_eq_singleton (unbroken_summaryOf _)]

theorem forall₂_announced (s : Samples) (ds : List Definition) :
    List.Forall₂ (Definition.Announced s) ds (ds.map fun d =>
      (Check.ofDefinition s d).line.toList) := by
  induction ds with
  | nil => exact .nil
  | cons d ds ih => exact .cons (Check.announced s d) ih

theorem lineForEach_iff (s : Samples) (ds : List Definition) :
    LineForEach s ds (ofDefinitions ds s).text ↔
      ∀ d ∈ ds, Text.Unbroken (Check.ofDefinition s d).line.toList := by
  rw [LineForEach, splitOn_text]
  constructor
  · intro h
    obtain ⟨ls, hls, he⟩ := h
    have hl := congrArg List.length he
    rw [List.length_append, List.length_append, List.length_singleton, List.length_singleton,
      ← hls.length_eq, Nat.add_right_cancel_iff] at hl
    have h1 :=
      length_eq_one_of_flatMap (List.splitOn_ne_nil '\n') (hl.le.trans (List.length_map _).ge)
    exact fun d hd => notMem_of_length_splitOn (h1 _ (List.mem_map_of_mem hd))
  · intro h
    refine ⟨_, forall₂_announced s ds, ?_⟩
    rw [flatMap_splitOn_of_notMem (List.forall_mem_map.2 h)]

/-- In the text of a report each line of a check begins as its definition is announced and the
summary has the numbers of these lines, but every line break in them begins another line. So
there is one line for each definition exactly when no check has a line break in its line. No
check has one where there are none in the names of its definition and in the texts that its
formula quotes, whatever the samples are. -/
theorem text_lines (s : Samples) (ds : List Definition) :
    (∃ ls, List.Forall₂ (Definition.Announced s) ds ls ∧
      (ofDefinitions ds s).text.toList.splitOn '\n' =
        ls.flatMap (List.splitOn '\n') ++ [(summaryOf ls).toList]) ∧
    (LineForEach s ds (ofDefinitions ds s).text ↔
      ∀ d ∈ ds, Text.Unbroken (Check.ofDefinition s d).line.toList) ∧
    ((∀ d ∈ ds, d.Unbroken) → LineForEach s ds (ofDefinitions ds s).text) := by
  refine ⟨⟨_, forall₂_announced s ds, splitOn_text s ds⟩, lineForEach_iff s ds, fun h => ?_⟩
  exact (lineForEach_iff s ds).2 fun d hd => Check.unbroken_line s (h d hd)

/- The second formula is refused, and it is broken between its tokens. -/
theorem text_lines_of_broken_formula :
    ∃ ds : List Definition, ds = [⟨"agent", "note", "'a' + \"b\"", .text, none, true, none⟩,
        ⟨"", "", "'a' +\n", .number, some 2, true, none⟩] ∧
      (∀ d ∈ ds, d.Unbroken) ∧
        LineForEach Samples.builtin ds (ofDefinitions ds Samples.builtin).text := by
  have hs : Token.scan "'a' + \"b\"".toList = [.text "a", .plus, .text "b"] := by
    rw [Token.scan_eq_scanWithin (n := 12) (by decide)]
    decide +kernel
  have hs' : Token.scan "'a' +\n".toList = [.text "a", .plus] := by
    rw [Token.scan_eq_scanWithin (n := 12) (by decide)]
    decide +kernel
  have hu : ∀ d ∈ [(⟨"agent", "note", "'a' + \"b\"", .text, none, true, none⟩ : Definition),
      ⟨"", "", "'a' +\n", .number, some 2, true, none⟩], d.Unbroken := by
    refine List.forall_mem_cons.2 ⟨⟨by decide, by decide, ?_⟩,
      List.forall_mem_singleton.2 ⟨by decide, by decide, ?_⟩⟩
    · intro s h
      rw [hs] at h
      simp only [List.mem_cons, Token.text.injEq, reduceCtorEq, List.not_mem_nil, or_false,
        false_or] at h
      rcases h with rfl | rfl <;> decide
    · intro s h
      rw [hs'] at h
      simp only [List.mem_cons, Token.text.injEq, reduceCtorEq, List.not_mem_nil, or_false] at h
      rw [h]
      decide
  exact ⟨_, rfl, hu, (text_lines Samples.builtin _).2.2 hu⟩

/-- A quoted text with a line break prints a line that looks like the one of another definition. -/
theorem not_lineForEach_of_quoted_break :
    ∃ d : Definition, d = ⟨"agent", "note", "'ok\nFAIL agent.total: x'", .text, none, true, none⟩ ∧
      (ofDefinitions [d] Samples.builtin).text =
        "PASS agent.note = ok\nFAIL agent.total: x\n1 formulas: 1 passed, 0 failed" ∧
      ¬ LineForEach Samples.builtin [d] (ofDefinitions [d] Samples.builtin).text := by
  have hs : Token.scanWithin 30 "'ok\nFAIL agent.total: x'".toList =
      [.text "ok\nFAIL agent.total: x"] := by
    decide +kernel
  have hp : Expr.parse "'ok\nFAIL agent.total: x'" = .ok (.text "ok\nFAIL agent.total: x") := by
    rw [Formula.parse_eq_of_scanWithin (by decide) hs]
    cbv
  have hv : ∀ r, Formula.value "'ok\nFAIL agent.total: x'" r =
      .ok (.text "ok\nFAIL agent.total: x") :=
    fun r => Formula.value_of_parse hp r
  have hc : Check.ofDefinition Samples.builtin ⟨"agent", "note", "'ok\nFAIL agent.total: x'", .text,
      none, true, none⟩ =
        ⟨"agent.note", .success (.text "ok\nFAIL agent.total: x") .text,
          "ok\nFAIL agent.total: x"⟩ := by
    rw [Check.ofDefinition, Formula.evaluate_of_value (hv _)]
    rfl
  refine ⟨_, rfl, ?_, fun h => ?_⟩
  · rw [ofDefinitions, List.map_singleton, hc]
    decide +kernel
  · have hb := (lineForEach_iff _ _).1 h _ (List.mem_singleton_self _)
    rw [hc] at hb
    exact absurd hb (by decide +kernel)

end Report
end FieldFormula
