import FieldFormula.Proofs.Evaluation

/-!
Names of functions up to the case of their letters. Functions are looked up in upper case, so the
value of an expression does not depend on it, and errors differ only in the name that they quote.
-/
namespace FieldFormula

/- Only the capital letters from A to Z have another lower case here. -/
theorem Text.map_toLower {α : Type} (f : Char → α)
    (h : ∀ n < 26, f (Char.ofNat (65 + n)).toLower = f (Char.ofNat (65 + n))) (c : Char) :
    f c.toLower = f c := by
  by_cases hc : 65 ≤ c.toNat ∧ c.toNat ≤ 90
  · have hf := h (c.toNat - 65) (by omega)
    rwa [Nat.add_sub_cancel' hc.1, Char.ofNat_toNat] at hf
  · have hv : c.val.toNat = c.toNat := rfl
    delta Char.toLower
    rw [dif_neg]
    rw [ge_iff_le, UInt32.le_iff_toNat_le, UInt32.le_iff_toNat_le, hv]
    exact hc

theorem Text.upperChar_toLower : ∀ c : Char, upperChar c.toLower = upperChar c :=
  map_toLower _ (by decide +kernel)

theorem Token.isWordChar_toLower : ∀ c : Char, isWordChar c.toLower = isWordChar c :=
  Text.map_toLower _ (by decide +kernel)

theorem Token.isWordStart_toLower : ∀ c : Char, isWordStart c.toLower = isWordStart c :=
  Text.map_toLower _ (by decide +kernel)

theorem Text.toList_toLower (s : String) : s.toLower.toList = s.toList.map Char.toLower :=
  String.toList_map

theorem Token.toLower_eq_of_sameLetters {cs ds : List Char} (h : sameLetters cs ds = true) :
    (String.ofList cs).toLower = (String.ofList ds).toLower := by
  refine String.toList_inj.1 ?_
  rw [Text.toList_toLower, Text.toList_toLower, String.toList_ofList, String.toList_ofList]
  exact of_decide_eq_true h

theorem Registry.key_toLower (name : String) : key name.toLower = key name := by
  simp only [key, Text.toList_toLower, Text.upper, List.flatMap_map, Text.upperChar_toLower]

def FormulaError.lowerCall : FormulaError → FormulaError
  | unknownFunction name => unknownFunction name.toLower
  | argumentCount function arity actual => argumentCount function.toLower arity actual
  | e => e

/- The two are the same, or both are errors that differ at most in the name of a called function. -/
theorem FormulaError.eq_or_of_mapError_eq {α : Type} {x y : Except FormulaError α}
    (h : x.mapError lowerCall = y.mapError lowerCall) :
    x = y ∨ ∃ err err', x = .error err ∧ y = .error err' ∧ err.lowerCall = err'.lowerCall := by
  cases x with
  | ok a =>
    cases y with
    | ok b => exact Or.inl h
    | error err => cases h
  | error err =>
    cases y with
    | ok b => cases h
    | error err' => exact Or.inr ⟨err, err', rfl, rfl, Except.error.inj h⟩

theorem Registry.resolve_toLower (r : Registry) (name : String) (n : Nat) :
    r.resolve name.toLower n = (r.resolve name n).mapError FormulaError.lowerCall := by
  rw [resolve, resolve, get?, get?, key_toLower]
  cases r.find? (key name) with
  | none => rfl
  | some f => cases hf : f.arity.admits n <;> simp [hf, Except.mapError, FormulaError.lowerCall]

namespace Expr

mutual

def lowerCalls : Expr → Expr
  | number n => number n
  | text s => text s
  | boolean b => boolean b
  | field name => field name
  | unary op e => unary op e.lowerCalls
  | binary op l r => binary op l.lowerCalls r.lowerCalls
  | call name args => call name.toLower (lowerCallsAll args)

def lowerCallsAll : List Expr → List Expr
  | [] => []
  | e :: es => e.lowerCalls :: lowerCallsAll es

end

theorem lowerCallsAll_eq (es : List Expr) : lowerCallsAll es = es.map lowerCalls := by
  induction es with
  | nil => rfl
  | cons e es ih => rw [lowerCallsAll, ih, List.map_cons]

theorem lowerCalls_call (name : String) (args : List Expr) :
    (call name args).lowerCalls = call name.toLower (args.map lowerCalls) := by
  rw [lowerCalls, lowerCallsAll_eq]

theorem lowerCalls_binary (op : BinaryOp) {l l' r r' : Expr} (hl : l'.lowerCalls = l.lowerCalls)
    (hr : r'.lowerCalls = r.lowerCalls) :
    (binary op l' r').lowerCalls = (binary op l r).lowerCalls :=
  congrArg₂ (binary op) hl hr

theorem fields_lowerCalls (e : Expr) : e.lowerCalls.fields = e.fields := by
  induction e using inductOn with
  | number n => rfl
  | text s => rfl
  | boolean b => rfl
  | field name => rfl
  | unary op e ih => rw [lowerCalls, fields_unary, fields_unary, ih]
  | binary op l r ihl ihr => rw [lowerCalls, fields_binary, fields_binary, ihl, ihr]
  | call name args ih =>
    rw [lowerCalls_call, fields_call, fields_call, List.flatMap_map]
    exact List.flatMap_congr ih

theorem evalAll_lowerCalls {b : Bindings} {es : List Expr}
    (h : ∀ e ∈ es, e.lowerCalls.eval b = (e.eval b).mapError FormulaError.lowerCall) :
    evalAll b (es.map lowerCalls) = (evalAll b es).mapError FormulaError.lowerCall := by
  induction es with
  | nil => rfl
  | cons e es ih =>
    obtain ⟨he, hes⟩ := List.forall_mem_cons.1 h
    rw [List.map_cons, evalAll, evalAll, he, ih hes]
    cases e.eval b with
    | error err => rfl
    | ok v => cases evalAll b es <;> rfl

theorem eval_lowerCalls (b : Bindings) (e : Expr) :
    e.lowerCalls.eval b = (e.eval b).mapError FormulaError.lowerCall := by
  induction e using inductOn with
  | number n => rfl
  | text s => rfl
  | boolean t => rfl
  | field name =>
    rw [lowerCalls, eval]
    cases b.find? name <;> rfl
  | unary op e ih =>
    rw [lowerCalls, eval, eval, ih]
    cases e.eval b <;> rfl
  | binary op l r ihl ihr =>
    rw [lowerCalls, eval, eval, ihl, ihr]
    cases l.eval b with
    | error err => rfl
    | ok v =>
      cases hd : op.decides v with
      | true => simp [bind, Except.bind, Except.mapError, pure, Except.pure, hd]
      | false => cases r.eval b <;> simp [bind, Except.bind, Except.mapError, pure, Except.pure, hd]
  | call name args ih =>
    rw [lowerCalls_call, eval, eval, Registry.resolve_toLower, List.length_map,
      evalAll_lowerCalls ih]
    cases Registry.builtin.resolve name args.length with
    | error err => rfl
    | ok f =>
      cases evalAll b args with
      | error err => rfl
      | ok vs =>
        change (f.apply vs).mapError _ = ((f.apply vs).mapError _).mapError _
        cases f.apply vs <;> rfl

theorem mapError_eval_eq {b : Bindings} {e e' : Expr} (h : e'.lowerCalls = e.lowerCalls) :
    (e'.eval b).mapError FormulaError.lowerCall = (e.eval b).mapError FormulaError.lowerCall := by
  rw [← eval_lowerCalls, h, eval_lowerCalls]

theorem fields_eq_of_lowerCalls {e e' : Expr} (h : e'.lowerCalls = e.lowerCalls) :
    e'.fields = e.fields := by
  rw [← fields_lowerCalls, h, fields_lowerCalls]

end Expr
end FieldFormula
