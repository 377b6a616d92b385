import FieldFormula.Eval
import FieldFormula.Proofs.NumberOrder
import Mathlib.Data.String.Basic

/-!
The six comparisons. Each of them asks one comparison of the two values, which is turned round with
its operands and has an answer unless one of two values that are not both texts is NaN as a number.
-/
namespace FieldFormula

namespace Text
variable {s t : String}

def codePoints (s : String) : List Nat := s.toList.map Char.toNat

theorem codePoints_lt_of_lt (h : s < t) : codePoints s < codePoints t := by
  refine List.map_lt (fun c d hcd => ?_) (String.lt_iff_toList_lt.1 h)
  exact UInt32.lt_iff_toNat_lt.1 (Char.lt_def.1 hcd)

theorem lt_iff_codePoints : s < t ↔ codePoints s < codePoints t := by
  refine ⟨codePoints_lt_of_lt, fun h => ?_⟩
  rcases lt_trichotomy s t with hlt | heq | hgt
  · exact hlt
  · rw [heq] at h
    exact absurd h (lt_irrefl _)
  · exact absurd h (lt_asymm (codePoints_lt_of_lt hgt))

end Text

namespace Value
variable {v w : Value}

theorem compare?_text (s t : String) : (text s).compare? (text t) = some (compare s t) := rfl

theorem exists_text (h : v.isText = true) : ∃ s, v = text s := by
  cases v with
  | number n => cases h
  | boolean b => cases h
  | text s => exact ⟨s, rfl⟩

theorem compare?_number (h : (v.isText && w.isText) = false) :
    v.compare? w = v.toNumber.compare? w.toNumber := by
  cases v with
  | number n => rfl
  | boolean b => rfl
  | text s =>
    cases w with
    | number n => rfl
    | boolean b => rfl
    | text t => cases h

theorem compare?_swap (v w : Value) : w.compare? v = (v.compare? w).map Ordering.swap := by
  cases h : v.isText && w.isText with
  | false =>
    rw [compare?_number h, compare?_number ((Bool.and_comm ..).trans h)]
    exact Binary64.compare?_swap _ _
  | true =>
    obtain ⟨hv, hw⟩ := Bool.and_eq_true_iff.1 h
    obtain ⟨s, rfl⟩ := exists_text hv
    obtain ⟨t, rfl⟩ := exists_text hw
    rw [compare?_text, compare?_text, Option.map_some, Std.OrientedOrd.eq_swap]

theorem compare?_eq_swap {o : Ordering} : w.compare? v = some o ↔ v.compare? w = some o.swap := by
  rw [compare?_swap v w]
  cases v.compare? w with
  | none => exact ⟨nofun, nofun⟩
  | some p => cases o <;> cases p <;> decide

end Value

namespace BinaryOp

def comparisons : List BinaryOp := [equal, notEqual, less, lessEqual, greater, greaterEqual]

def ofOrdering : Ordering → BinaryOp
  | .lt => less
  | .eq => equal
  | .gt => greater

theorem less_apply_swap (v w : Value) : less.apply v w = greater.apply w v := by
  simp only [apply, Value.compare?_eq_swap (v := v) (w := w)]
  rfl

theorem lessEqual_apply_swap (v w : Value) : lessEqual.apply v w = greaterEqual.apply w v := by
  simp only [apply, Value.compare?_eq_swap (v := v) (w := w)]
  rfl

theorem equal_apply_swap (v w : Value) : equal.apply v w = equal.apply w v := by
  simp only [apply, Value.compare?_eq_swap (v := v) (w := w)]
  rfl

end BinaryOp

namespace Expr
variable {b : Bindings} {l r : Expr} {v w : Value} {op : BinaryOp}

theorem eval_binary (hv : l.eval b = .ok v) (hw : r.eval b = .ok w) (hd : op.decides v = false) :
    (binary op l r).eval b = .ok (op.apply v w) := by
  rw [eval, hv, hw]
  change (if op.decides v = true then _ else _) = _
  rw [hd]
  rfl

theorem eval_or {s t : Bool} (hl : l.eval b = .ok (.boolean s)) (hr : r.eval b = .ok (.boolean t)) :
    (binary .or l r).eval b = .ok (.boolean (s || t)) := by
  rw [eval, hl, hr]
  cases s <;> rfl

theorem eval_not {t : Bool} (h : l.eval b = .ok (.boolean t)) :
    (unary .not l).eval b = .ok (.boolean !t) := by
  rw [eval, h]
  rfl

structure Coherent (b : Bindings) (l r : Expr) : Prop where
  boolean : ∀ op ∈ BinaryOp.comparisons, ∃ t, (binary op l r).eval b = .ok (.boolean t)
  less_swap : (binary .less l r).eval b = (binary .greater r l).eval b
  lessEqual_swap : (binary .lessEqual l r).eval b = (binary .greaterEqual r l).eval b
  equal_swap : (binary .equal l r).eval b = (binary .equal r l).eval b
  lessEqual_or :
    (binary .lessEqual l r).eval b = (binary .or (binary .less l r) (binary .equal l r)).eval b
  greaterEqual_or :
    (binary .greaterEqual l r).eval b =
      (binary .or (binary .greater l r) (binary .equal l r)).eval b
  notEqual_not : (binary .notEqual l r).eval b = (unary .not (binary .equal l r)).eval b

theorem coherent (hv : l.eval b = .ok v) (hw : r.eval b = .ok w) : Coherent b l r where
  boolean op hop := by
    simp only [BinaryOp.comparisons, List.mem_cons, List.not_mem_nil, or_false] at hop
    rcases hop with rfl | rfl | rfl | rfl | rfl | rfl <;> exact ⟨_, eval_binary hv hw rfl⟩
  less_swap := by rw [eval_binary hv hw rfl, eval_binary hw hv rfl, BinaryOp.less_apply_swap]
  lessEqual_swap := by
    rw [eval_binary hv hw rfl, eval_binary hw hv rfl, BinaryOp.lessEqual_apply_swap]
  equal_swap := by rw [eval_binary hv hw rfl, eval_binary hw hv rfl, BinaryOp.equal_apply_swap]
  lessEqual_or := by
    rw [eval_binary hv hw rfl, eval_or (eval_binary hv hw rfl) (eval_binary hv hw rfl)]
    rfl
  greaterEqual_or := by
    rw [eval_binary hv hw rfl, eval_or (eval_binary hv hw rfl) (eval_binary hv hw rfl)]
    rfl
  notEqual_not := by
    rw [eval_binary hv hw rfl, eval_not (eval_binary hv hw rfl), BinaryOp.apply, decide_not]

theorem holds_iff (hv : l.eval b = .ok v) (hw : r.eval b = .ok w) (o : Ordering) :
    (binary (.ofOrdering o) l r).eval b = .ok (.boolean true) ↔ v.compare? w = some o := by
  rw [eval_binary hv hw (by cases o <;> rfl)]
  cases o <;> simp [BinaryOp.ofOrdering, BinaryOp.apply]

def OneHolds (b : Bindings) (l r : Expr) : Prop :=
  ∃! op, op ∈ [BinaryOp.less, .equal, .greater] ∧ (binary op l r).eval b = .ok (.boolean true)

theorem oneHolds {o : Ordering} (hv : l.eval b = .ok v) (hw : r.eval b = .ok w)
    (h : v.compare? w = some o) : OneHolds b l r := by
  refine ⟨.ofOrdering o, ⟨by cases o <;> decide, (holds_iff hv hw o).2 h⟩, ?_⟩
  rintro op ⟨hop, ht⟩
  obtain ⟨p, rfl⟩ : ∃ p, op = .ofOrdering p := by
    rcases List.mem_cons.1 hop with rfl | hop
    · exact ⟨.lt, rfl⟩
    · rcases List.mem_pair.1 hop with rfl | rfl
      · exact ⟨.eq, rfl⟩
      · exact ⟨.gt, rfl⟩
  rw [holds_iff hv hw, h] at ht
  rw [Option.some.inj ht]

theorem eval_of_none (hv : l.eval b = .ok v) (hw : r.eval b = .ok w) (h : v.compare? w = none) :
    (∀ op ∈ [BinaryOp.less, .lessEqual, .equal, .greater, .greaterEqual],
      (binary op l r).eval b = .ok (.boolean false)) ∧
    (binary .notEqual l r).eval b = .ok (.boolean true) := by
  constructor
  · intro op hop
    have happly : op.decides v = false ∧ op.apply v w = .boolean false := by
      simp only [List.mem_cons, List.not_mem_nil, or_false] at hop
      rcases hop with rfl | rfl | rfl | rfl | rfl <;> simp [BinaryOp.decides, BinaryOp.apply, h]
    rw [eval_binary hv hw happly.1, happly.2]
  · rw [eval_binary hv hw rfl, BinaryOp.apply, h]
    rfl

/-- Whatever two expressions stand for, their six comparisons agree with each other. Of `<`, `==`
and `>` just one is true, for two texts by their code points, unless NaN is met, which is
different from all numbers and in no order. -/
theorem comparisons_coherent (hv : l.eval b = .ok v) (hw : r.eval b = .ok w) :
    Coherent b l r ∧
    (∀ s t, v = .text s → w = .text t → OneHolds b l r ∧
      ((binary .less l r).eval b = .ok (.boolean true) ↔ Text.codePoints s < Text.codePoints t) ∧
      ((binary .equal l r).eval b = .ok (.boolean true) ↔ s = t)) ∧
    ((v.isText && w.isText) = false →
      (v.toNumber.isNaN = false → w.toNumber.isNaN = false → OneHolds b l r) ∧
      (v.toNumber.isNaN = true ∨ w.toNumber.isNaN = true →
        (∀ op ∈ [BinaryOp.less, .lessEqual, .equal, .greater, .greaterEqual],
          (binary op l r).eval b = .ok (.boolean false)) ∧
        (binary .notEqual l r).eval b = .ok (.boolean true))) := by
  refine ⟨coherent hv hw, ?_, fun h => ⟨fun hvn hwn => ?_, fun hn => ?_⟩⟩
  · rintro s t rfl rfl
    have hless := holds_iff hv hw .lt
    have hequal := holds_iff hv hw .eq
    rw [Value.compare?_text, Option.some.injEq] at hless hequal
    rw [compare_lt_iff_lt, Text.lt_iff_codePoints] at hless
    rw [compare_eq_iff_eq] at hequal
    exact ⟨oneHolds hv hw (Value.compare?_text s t), hless, hequal⟩
  · obtain ⟨a, ha⟩ := Binary64.exists_place hvn
    obtain ⟨c, hc⟩ := Binary64.exists_place hwn
    exact oneHolds hv hw ((Value.compare?_number h).trans (Binary64.compare?_of_place ha hc))
  · exact eval_of_none hv hw ((Value.compare?_number h).trans (Binary64.compare?_of_isNaN hn))

theorem comparisons_coherent_of_quantity :
    ∃ b l r, b = Table.empty.insert "stock" (.ofNat 12) ∧ l = .text "12 pcs" ∧ r = .field "stock" ∧
      l.eval b = .ok (.text "12 pcs") ∧ r.eval b = .ok (.number (.ofNat 12)) ∧ Coherent b l r ∧
      (binary .equal l r).eval b = .ok (.boolean false) ∧
      (binary .notEqual l r).eval b = .ok (.boolean true) := by
  have hl : (text "12 pcs").eval (Table.empty.insert "stock" (.ofNat 12)) = .ok (.text "12 pcs") :=
    rfl
  have hr : (field "stock").eval (Table.empty.insert "stock" (.ofNat 12)) =
      .ok (.number (.ofNat 12)) := by
    decide +kernel
  have hnan : (Value.text "12 pcs").toNumber.isNaN = true := by decide +kernel
  obtain ⟨hc, -, hmixed⟩ := comparisons_coherent hl hr
  obtain ⟨hfalse, hdiffer⟩ := (hmixed rfl).2 (.inl hnan)
  exact ⟨_, _, _, rfl, rfl, rfl, hl, hr, hc, hfalse .equal (by decide), hdiffer⟩

end Expr
end FieldFormula
