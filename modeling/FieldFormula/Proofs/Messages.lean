import FieldFormula.Proofs.Faults
import FieldFormula.Proofs.LineBreaks
import FieldFormula.Proofs.ReaderErrors
import FieldFormula.Proofs.TokenEnds

/-!
Values and messages of a formula. All text in them comes from the formula, so they have no line
break unless a text that the formula quotes has one.
-/
namespace FieldFormula

open Text

/- Tokens. -/
namespace Token

theorem unbroken_take_digits (cs : List Char) :
    Unbroken (cs.take (cs.takeWhile Char.isDigit).length) := by
  rw [← List.prefix_iff_eq_take.1 (List.takeWhile_prefix _)]
  exact unbroken_takeWhile rfl cs

theorem unbroken_take_fractionRun (cs : List Char) : Unbroken (cs.take (fractionRun cs)) := by
  rw [fractionRun.eq_def]
  split
  · next r => simp [Nat.add_comm 1, unbroken_take_digits]
  · exact unbroken_nil

theorem unbroken_take_exponentRun (cs : List Char) : Unbroken (cs.take (exponentRun cs)) := by
  have mark : ∀ {m : Char}, Numeral.isMark m = true → m ≠ '\n' := by
    rintro m hm rfl
    cases hm
  rcases exponentRun_cases cs with ⟨-, h⟩ | ⟨m, r, rfl, hm, ⟨c, v, rfl, hc, h⟩ | ⟨-, -, h⟩⟩
  · rw [h]
    exact unbroken_nil
  · have hc : c ≠ '\n' := by rcases hc with rfl | rfl <;> decide
    simp [h, Nat.add_comm 2, mark hm, hc, unbroken_take_digits]
  · simp [h, Nat.add_comm 1, mark hm, unbroken_take_digits]

theorem unbroken_take_numberRun (cs : List Char) : Unbroken (cs.take (numberRun cs)) := by
  rw [numberRun, List.take_add, List.take_add]
  exact unbroken_append.2 ⟨unbroken_append.2 ⟨unbroken_take_digits _, unbroken_take_fractionRun _⟩,
    unbroken_take_exponentRun _⟩

theorem unbroken_scanMark {c : Char} (hc : c ∈ markChars) (r : List Char) :
    Unbroken (scanFrom c r).1.describe.toList := by
  rw [scanFrom.eq_def]
  split
  case h_23 =>
    simp only [markChars, List.mem_cons, List.not_mem_nil, or_false] at hc
    rcases hc with rfl | rfl | rfl | rfl | rfl | rfl | rfl | rfl | rfl | rfl | rfl | rfl | rfl |
      rfl | rfl
    all_goals contradiction
  all_goals
    dsimp only
    decide

theorem unbroken_scanText {quote : Char} {r : List Char}
    (h : ∀ s, (scanText quote r).1 = text s → Unbroken s.toList) :
    Unbroken (scanText quote r).1.describe.toList := by
  rw [scanText] at h ⊢
  split
  · next s rest hq =>
    rw [hq] at h
    exact .append (.append (by decide) (h _ rfl)) (by decide)
  · decide

theorem unbroken_scanNumber (cs : List Char) : Unbroken (scanNumber cs).1.describe.toList := by
  rw [scanNumber]
  dsimp only
  split
  · exact .append (by decide) (unbroken_ofList (NumberStyle.unbroken_message _))
  · exact .append (.append (by decide) (unbroken_ofList (unbroken_take_numberRun cs))) (by decide)

theorem unbroken_scanWord (cs : List Char) : Unbroken (scanWord cs).1.describe.toList := by
  rw [scanWord]
  dsimp only
  split
  · decide
  · split
    · decide
    · exact .append (.append (by decide) (unbroken_ofList (unbroken_takeWhile rfl cs))) (by decide)

theorem unbroken_scanFrom {c : Char} {r : List Char} (hc : Text.isBlank c = false)
    (h : ∀ s, (scanFrom c r).1 = text s → Unbroken s.toList) :
    Unbroken (scanFrom c r).1.describe.toList := by
  by_cases hm : c ∈ markChars
  · exact unbroken_scanMark hm r
  rw [scanFrom_of_notMem hm] at h ⊢
  split
  · next hq =>
    rw [if_pos hq] at h
    exact unbroken_scanText h
  · split
    · exact unbroken_scanNumber _
    · split
      · exact unbroken_scanWord _
      · have hb : c ≠ '\n' := by
          rintro rfl
          cases hc
        have hs : Unbroken c.toString.toList := unbroken_ofList (unbroken_cons.2 ⟨hb, unbroken_nil⟩)
        exact .append (.append (by decide) hs) (by decide)

theorem unbroken_describe_of_mem_scan {cs : List Char}
    (h : ∀ s, text s ∈ scan cs → Unbroken s.toList) :
    ∀ t ∈ scan cs, Unbroken t.describe.toList := by
  induction hn : cs.length using Nat.strong_induction_on generalizing cs with
  | _ n ih =>
    cases hx : next? cs with
    | none => simp [scan_of_next?_none hx]
    | some x =>
      obtain ⟨t, r⟩ := x
      rw [scan_of_next?_some hx] at h ⊢
      refine List.forall_mem_cons.2 ⟨?_,
        ih _ (hn ▸ next?_length hx) (fun s hs => h s (List.mem_cons_of_mem _ hs)) rfl⟩
      obtain ⟨c, v, hv, hs⟩ := next?_eq_some.1 hx
      have hc := List.head?_dropWhile_not Text.isBlank cs
      rw [skipBlanks] at hv
      rw [hv] at hc
      have ht := unbroken_scanFrom (c := c) (r := v) (by simpa using hc)
      rw [hs] at ht
      exact ht fun s e => h s (e ▸ List.mem_cons_self)

end Token

theorem ParseError.unbroken_message {err : ParseError}
    (h : ∀ t ∈ err.tokens, Unbroken t.describe.toList) : Unbroken err.message.toList := by
  have hd : ∀ {t : Option Token}, (∀ t' ∈ t.toList, Unbroken t'.describe.toList) →
      Unbroken (describe t).toList := by
    intro t ht
    cases t with
    | none => decide
    | some t => exact ht t (by simp)
  cases err with
  | empty => decide
  | fault f => exact h (.invalid f) (List.mem_singleton_self _)
  | trailing t => exact .append (.append (by decide) (h t (List.mem_singleton_self t))) (by decide)
  | noValue t => exact .append (.append (by decide) (hd h)) (by decide)
  | unclosed t => exact .append (.append (by decide) (hd h)) (by decide)
  | tooDeep => decide
  | tooManyOperators => decide

/- Values. -/

namespace Value

theorem unbroken_number (n : Binary64) : Unbroken (number n).toText.toList :=
  unbroken_ofList n.unbroken_text

theorem unbroken_boolean (b : Bool) : Unbroken (boolean b).toText.toList := by
  cases b <;> decide

end Value

theorem UnaryOp.unbroken_apply (op : UnaryOp) (v : Value) :
    Unbroken (op.apply v).toText.toList := by
  cases op with
  | negate => exact Value.unbroken_number _
  | plus => exact Value.unbroken_number _
  | not => exact Value.unbroken_boolean _

theorem BinaryOp.unbroken_apply (op : BinaryOp) {v w : Value} (hv : Unbroken v.toText.toList)
    (hw : Unbroken w.toText.toList) : Unbroken (op.apply v w).toText.toList := by
  cases op
  case add =>
    rw [apply, join]
    split
    · exact hv.append hw
    · exact Value.unbroken_number _
  case subtract | multiply | divide | remainder | power => exact Value.unbroken_number _
  all_goals exact Value.unbroken_boolean _

theorem Arity.unbroken_describe (a : Arity) : Unbroken a.describe.toList := by
  rw [describe]
  split
  · split
    · exact unbroken_repr _
    · exact .append (.append (unbroken_repr _) (by decide)) (unbroken_repr _)
  · exact .append (by decide) (unbroken_repr _)

namespace Expr
variable {b : Bindings}

theorem eq_ok_of_mapError {ε η α : Type} {f : ε → η} {x : Except ε α} {a : α}
    (h : x.mapError f = .ok a) : x = .ok a := by
  cases x with
  | error err => cases h
  | ok b =>
    cases h
    rfl

theorem mem_evalAll {es : List Expr} {vs : List Value} (h : evalAll b es = .ok vs) :
    ∀ v ∈ vs, ∃ e ∈ es, e.eval b = .ok v := by
  induction es generalizing vs with
  | nil =>
    cases h
    simp
  | cons e es ih =>
    obtain ⟨v, hv, h⟩ := bind_eq_ok.1 h
    obtain ⟨ws, hws, h⟩ := bind_eq_ok.1 h
    cases h
    refine List.forall_mem_cons.2 ⟨⟨e, List.mem_cons_self, hv⟩, fun w hw => ?_⟩
    obtain ⟨e', he', hw⟩ := ih hws w hw
    exact ⟨e', List.mem_cons_of_mem _ he', hw⟩

theorem get?_of_resolve {r : Registry} {name : String} {n : Nat} {f : Function}
    (h : r.resolve name n = .ok f) : r.get? name = some f := by
  rw [Registry.resolve] at h
  split at h
  · cases h
  · next hg =>
    split at h
    · cases h
      exact hg
    · cases h

theorem unbroken_eval (e : Expr) (h : ∀ s ∈ e.texts, Unbroken s.toList) {v : Value}
    (hv : e.eval b = .ok v) : Unbroken v.toText.toList := by
  induction e using inductOn generalizing v with
  | number n =>
    cases hv
    exact Value.unbroken_number n
  | text s =>
    cases hv
    exact h s (by simp [texts, collect, nodes, text?])
  | boolean t =>
    cases hv
    exact Value.unbroken_boolean t
  | field name =>
    rw [eval] at hv
    split at hv
    · cases hv
      exact Value.unbroken_number _
    · cases hv
  | unary op e ih =>
    obtain ⟨w, -, hv⟩ := bind_eq_ok.1 hv
    cases hv
    exact op.unbroken_apply w
  | binary op l r ihl ihr =>
    rw [texts_binary, List.forall_mem_append] at h
    obtain ⟨v₁, h₁, hv⟩ := bind_eq_ok.1 hv
    split at hv
    · cases hv
      exact Value.unbroken_boolean _
    · obtain ⟨v₂, h₂, hv⟩ := bind_eq_ok.1 hv
      cases hv
      exact op.unbroken_apply (ihl h.1 h₁) (ihr h.2 h₂)
  | call name args ih =>
    rw [texts_call] at h
    obtain ⟨f, hf, hv⟩ := bind_eq_ok.1 hv
    obtain ⟨vs, hvs, hv⟩ := bind_eq_ok.1 hv
    rcases Registry.builtin_selects _ f (get?_of_resolve hf) vs v (eq_ok_of_mapError hv) with
        ⟨n, rfl⟩ | hm
    · exact Value.unbroken_number n
    · obtain ⟨e, he, hv⟩ := mem_evalAll hvs v hm
      exact ih e he (fun s hs => h s (List.mem_flatMap.2 ⟨e, he, hs⟩)) hv

/- Messages. -/

theorem Demands.nodes_subset {e m : Expr} {i : Nat} (h : Demands b e i m) : m.nodes ⊆ e.nodes := by
  cases h with
  | operand => exact List.subset_cons_self ..
  | left => exact List.subset_cons_of_subset _ (List.subset_append_left ..)
  | right | rightOfAnd | rightOfOr =>
    exact List.subset_cons_of_subset _ (List.subset_append_right ..)
  | argument hf ha hm =>
    intro n hn
    rw [nodes, nodesAll_eq]
    exact List.mem_cons_of_mem _ (List.mem_flatMap.2 ⟨m, List.mem_of_getElem? hm, hn⟩)

theorem Demanded.nodes_subset {e n : Expr} {p : List Nat} (h : Demanded b e p n) :
    n.nodes ⊆ e.nodes := by
  induction h with
  | root => exact List.Subset.refl _
  | child _ hd ih => exact List.Subset.trans hd.nodes_subset ih

theorem Fault.quotes {n : Expr} {err : FormulaError} (h : Fault b n err) :
    ∃ name, n.name? = some name ∧
      (err = .undefinedVariable name ∨ err = .unknownFunction name ∨
        ∃ arity k, err = .argumentCount name arity k) := by
  cases h with
  | unbound => exact ⟨_, rfl, Or.inl rfl⟩
  | unregistered => exact ⟨_, rfl, Or.inr (Or.inl rfl)⟩
  | count => exact ⟨_, rfl, Or.inr (Or.inr ⟨_, _, rfl⟩)⟩

theorem quotes_name_of_eval {e : Expr} {err : FormulaError} (h : e.eval b = .error err) :
    ∃ name ∈ e.names,
      err = .undefinedVariable name ∨ err = .unknownFunction name ∨
      ∃ arity k, err = .argumentCount name arity k := by
  obtain ⟨p, n, hd, hf, -⟩ := eval_eq_error_iff.1 h
  obtain ⟨name, hn, hq⟩ := hf.quotes
  exact ⟨name, List.mem_filterMap.2 ⟨n, hd.nodes_subset n.mem_nodes, hn⟩, hq⟩

theorem unbroken_message_of_eval (e : Expr) (hn : ∀ x ∈ e.names, Unbroken x.toList)
    {err : FormulaError} (h : e.eval b = .error err) : Unbroken err.message.toList := by
  obtain ⟨name, hm, rfl | rfl | ⟨arity, n, rfl⟩⟩ := quotes_name_of_eval h
  · exact .append (by decide) (hn name hm)
  · exact .append (by decide) (hn name hm)
  · exact .append (.append
      (.append (.append (.append (by decide) (hn name hm)) (by decide)) arity.unbroken_describe)
      (by decide)) (unbroken_repr n)

end Expr

theorem ReturnType.unbroken_shape (r : ReturnType) {v : Value} (h : Unbroken v.toText.toList) :
    Unbroken (r.shape v).toText.toList := by
  cases r with
  | currency =>
    cases v with
    | number n => exact Value.unbroken_number _
    | boolean b => exact h
    | text s => exact h
  | number => cases v <;> exact Value.unbroken_number _
  | boolean => exact Value.unbroken_boolean _
  | text => exact h
  | date => exact h

namespace Formula
variable {formula : String} {record : Record}

def Unbroken (formula : String) : Prop :=
  ∀ s, .text s ∈ Token.scan formula.toList → Text.Unbroken s.toList

theorem unbroken_value (h : Unbroken formula) {v : Value} (hv : value formula record = .ok v) :
    Text.Unbroken v.toText.toList := by
  cases hp : Expr.parse formula with
  | error err =>
    rw [value_of_parse_error hp] at hv
    cases hv
  | ok e =>
    rw [value_of_parse hp] at hv
    obtain ⟨d⟩ := Expr.exists_derivation hp
    refine e.unbroken_eval (fun s hs => h s ?_) hv
    rw [← d.texts_eq] at hs
    obtain ⟨t, ht, hs⟩ := List.mem_filterMap.1 hs
    rwa [← Token.text?_eq_some hs]

theorem unbroken_message (h : Unbroken formula) {err : FormulaError}
    (he : value formula record = .error err) : Text.Unbroken err.message.toList := by
  have ht := Token.unbroken_describe_of_mem_scan h
  cases hp : Expr.parse formula with
  | error err' =>
    rw [value_of_parse_error hp] at he
    cases he
    have hm := ParseError.unbroken_message fun t hm => ht t (Expr.tokens_subset_of_error hp hm)
    exact .append (by decide) hm
  | ok e =>
    rw [value_of_parse hp] at he
    obtain ⟨d⟩ := Expr.exists_derivation hp
    refine e.unbroken_message_of_eval (fun x hx => ?_) he
    rw [← d.words_eq] at hx
    obtain ⟨t, hm, hw⟩ := List.mem_filterMap.1 hx
    have hd := ht t hm
    rw [Token.word?_eq_some hw, Token.describe, String.toList_append, String.toList_append,
      unbroken_append, unbroken_append] at hd
    exact hd.1.2

end Formula
end FieldFormula
