import FieldFormula.Proofs.Digits
import FieldFormula.Proofs.LetterCase
import FieldFormula.Proofs.TokenEnds
import FieldFormula.Proofs.Validation

/-!
Formulas that differ in the case of letters in names of calls. Such a change passes from the text to
its tokens, from the tokens to the derivation, and from there to the expression; fields keep their
names, so both formulas find the same numbers.
-/
namespace FieldFormula

namespace Token

/- The text of a name. -/

def isName (cs : List Char) : Bool := cs.head?.any isWordStart && cs.all isWordChar

theorem isName_toLower (cs : List Char) : isName (cs.map Char.toLower) = isName cs := by
  have hc : isWordChar ∘ Char.toLower = isWordChar := funext isWordChar_toLower
  rw [isName, isName, List.head?_map, Option.any_map, List.all_map, hc]
  simp only [isWordStart_toLower]

theorem isName_of_sameLetters {cs ds : List Char} (h : sameLetters cs ds = true)
    (hc : isName cs = true) : isName ds = true := by
  have hm : cs.map Char.toLower = ds.map Char.toLower := of_decide_eq_true h
  rw [← isName_toLower, ← hm, isName_toLower, hc]

theorem isName_cases {cs : List Char} (h : isName cs = true) :
    ∃ c r, cs = c :: r ∧ isWordStart c = true ∧ Text.isBlank c = false ∧
      ∀ d ∈ cs, isWordChar d = true := by
  obtain ⟨hs, ha⟩ := Bool.and_eq_true_iff.1 h
  cases cs with
  | nil => cases hs
  | cons c r =>
    exact ⟨c, r, rfl, hs, isBlank_of_isWordChar (isWordChar_of_isWordStart hs),
      List.all_eq_true.1 ha⟩

theorem not_isDigit_of_isWordStart {c : Char} (h : isWordStart c = true) : c.isDigit = false := by
  have hv : c.val.toNat = c.toNat := rfl
  by_contra hd
  rw [Bool.not_eq_false] at hd
  simp only [isWordStart] at h
  delta Char.isAlpha Char.isUpper Char.isLower at h
  simp only [Char.isDigit, Bool.or_eq_true, Bool.and_eq_true, decide_eq_true_eq,
    UInt32.le_iff_toNat_le, ge_iff_le, hv] at h hd
  obtain (h | h) | rfl := h
  · exact absurd (h.1.trans hd.2) (by decide)
  · exact absurd (h.1.trans hd.2) (by decide)
  · exact absurd hd.2 (by decide)

theorem scanFrom_of_isWordStart {c : Char} (h : isWordStart c = true) (r : List Char) :
    scanFrom c r = scanWord (c :: r) := by
  have ne : ∀ d, isWordStart d = false → c ≠ d := by
    intro d hd e
    rw [e, hd] at h
    cases h
  have hm : c ∉ markChars := by
    intro hc
    have hm : (markChars.all fun d => !isWordStart d) = true := by decide
    exact ne c (by simpa using List.all_eq_true.1 hm c hc) rfl
  have hq : ¬ (decide (c = '"') || decide (c = '\'')) = true := by simp [ne '"' rfl, ne '\'' rfl]
  have hn : ¬ startsNumber (c :: r) = true := by
    rw [startsNumber_cons (ne '.' rfl), not_isDigit_of_isWordStart h]
    exact Bool.false_ne_true
  rw [scanFrom_of_notMem hm, if_neg hq, if_neg hn, if_pos h]

theorem not_isWordChar_of_opensCall {r : List Char} (h : opensCall r = true) :
    ∀ c ∈ r.head?, isWordChar c = false := by
  intro c hc
  obtain ⟨r, rfl⟩ := List.head?_eq_some_iff.1 hc
  by_cases hb : Text.isBlank c = true
  · exact isWordChar_of_isBlank hb
  · rw [opensCall, Text.skipBlanks, List.dropWhile_cons_of_neg hb] at h
    obtain rfl : c = '(' := by simpa using h
    rfl

def ofName (called : Bool) (name : List Char) : Token :=
  if !called && sameLetters name "true".toList then boolean true
  else if !called && sameLetters name "false".toList then boolean false
  else word (String.ofList name)

theorem scanWord_name {name r : List Char} (hn : isName name = true)
    (hr : ∀ c ∈ r.head?, isWordChar c = false) :
    scanWord (name ++ r) = (ofName (opensCall r) name, r) := by
  obtain ⟨-, -, -, -, -, hw⟩ := isName_cases hn
  obtain ⟨ht, hd⟩ := takeWhile_append_of_head hw hr
  rw [scanWord, ht, hd, ofName]

theorem next?_called {b name r : List Char} (hb : ∀ c ∈ b, Text.isBlank c = true)
    (hn : isName name = true) (ho : opensCall r = true) :
    next? (b ++ (name ++ r)) = some (.word (String.ofList name), r) := by
  have hscan := scanWord_name hn (not_isWordChar_of_opensCall ho)
  obtain ⟨c, v, rfl, hs, hc, -⟩ := isName_cases hn
  refine next?_eq_some.2 ⟨c, v ++ r, skipBlanks_append hb hc _, ?_⟩
  rw [scanFrom_of_isWordStart hs, ← List.cons_append, hscan, ho]
  rfl

/-- The second text is the first one with other cases of letters in names that are called: token by
token it is the same, or blanks and a name that a parenthesis follows, with the same letters. -/
inductive Recased : List Char → List Char → Prop
  | done {cs : List Char} : next? cs = none → Recased cs cs
  | kept {u r r' : List Char} {t : Token} :
      next? (u ++ r) = some (t, r) → Recased r r' → Recased (u ++ r) (u ++ r')
  | called {b name name' r r' : List Char} :
      (∀ c ∈ b, Text.isBlank c = true) → isName name = true → opensCall r = true →
      sameLetters name name' = true → Recased r r' → Recased (b ++ (name ++ r)) (b ++ (name' ++ r'))

theorem Recased.refl (cs : List Char) : Recased cs cs := by
  induction hn : cs.length using Nat.strong_induction_on generalizing cs with
  | _ n ih =>
    cases hx : next? cs with
    | none => exact .done hx
    | some x =>
      obtain ⟨u, rfl⟩ := next?_suffix hx
      exact .kept hx (ih _ (hn ▸ next?_length hx) _ rfl)

theorem Recased.head {cs cs' : List Char} (h : Recased cs cs') :
    cs'.head? = cs.head? ∨
      ∃ c c', cs.head? = some c ∧ cs'.head? = some c' ∧ isWordChar c = true ∧
        isWordChar c' = true := by
  cases h with
  | done h => exact Or.inl rfl
  | kept h hr =>
    obtain ⟨b, c, w, rfl, -⟩ := next?_split h
    cases b <;> exact Or.inl rfl
  | @called b name name' r r' hb hn ho hs hr =>
    cases b with
    | cons c b => exact Or.inl rfl
    | nil =>
      obtain ⟨c, w, rfl, hc, -⟩ := isName_cases hn
      obtain ⟨c', w', rfl, hc', -⟩ := isName_cases (isName_of_sameLetters hs hn)
      exact Or.inr ⟨c, c', rfl, rfl, isWordChar_of_isWordStart hc, isWordChar_of_isWordStart hc'⟩

theorem opensCall_append {b : List Char} {c : Char} (hb : ∀ d ∈ b, Text.isBlank d = true)
    (hc : Text.isBlank c = false) (r : List Char) : opensCall (b ++ c :: r) = decide (c = '(') := by
  rw [opensCall, skipBlanks_append hb hc, List.head?_cons]
  exact decide_eq_decide.2 (Option.some_inj)

theorem opensCall_name {b name : List Char} (hb : ∀ d ∈ b, Text.isBlank d = true)
    (hn : isName name = true) (r : List Char) : opensCall (b ++ (name ++ r)) = false := by
  obtain ⟨c, v, rfl, hs, hc, -⟩ := isName_cases hn
  rw [List.cons_append, opensCall_append hb hc]
  refine decide_eq_false fun e => ?_
  rw [e] at hs
  cases hs

theorem Recased.opensCall_eq {cs cs' : List Char} (h : Recased cs cs') :
    opensCall cs' = opensCall cs := by
  cases h with
  | done h => rfl
  | kept h hr =>
    obtain ⟨b, c, w, rfl, hb, hc, -⟩ := next?_split h
    rw [List.append_assoc, List.append_assoc, List.cons_append, List.cons_append,
      opensCall_append hb hc, opensCall_append hb hc]
  | called hb hn ho hs hr =>
    rw [opensCall_name hb hn, opensCall_name hb (isName_of_sameLetters hs hn)]

theorem Recased.follows {t : Token} {r r' : List Char} (h : Recased r r')
    (ht : t.isMark = false → ∀ c ∈ r.head?, isWordChar c = false) : Follows t r r' := by
  intro d hd
  rcases h.head with e | ⟨c, c', hc, hc', hw, hw'⟩
  · exact Or.inl (e ▸ hd)
  · obtain rfl : c' = d := Option.some.inj (hc'.symm.trans hd)
    refine Or.inr (Or.inr ⟨?_, hw'⟩)
    by_contra hm
    rw [ht (Bool.not_eq_true _ ▸ hm) c hc] at hw
    cases hw

inductive Respelled : List Token → List Token → Prop
  | nil : Respelled [] []
  | same (t : Token) {u u' : List Token} : Respelled u u' → Respelled (t :: u) (t :: u')
  | called {name name' : String} {u u' : List Token} :
      name'.toLower = name.toLower → Respelled u u' →
      Respelled (word name :: openParen :: u) (word name' :: openParen :: u')

theorem Respelled.of_mark {t : Token} {u w : List Token} (ht : t.isMark = true)
    (h : Respelled (t :: u) w) : ∃ u', w = t :: u' ∧ Respelled u u' := by
  cases h with
  | same _ h => exact ⟨_, rfl, h⟩
  | called => cases ht

theorem Respelled.of_called {name : String} {u w : List Token}
    (h : Respelled (word name :: openParen :: u) w) :
    ∃ name' u', w = word name' :: openParen :: u' ∧ name'.toLower = name.toLower ∧
      Respelled u u' := by
  cases h with
  | same _ h =>
    obtain ⟨u', rfl, hu⟩ := h.of_mark rfl
    exact ⟨name, u', rfl, rfl, hu⟩
  | called hn h => exact ⟨_, _, rfl, hn, h⟩

/- A call must not be cut in two. -/
theorem Respelled.append {u v w : List Token} (h : Respelled (u ++ v) w)
    (hv : v.head? ≠ some openParen) : ∃ u' v', w = u' ++ v' ∧ Respelled u u' ∧ Respelled v v' := by
  generalize hx : u ++ v = x at h
  induction h generalizing u with
  | nil =>
    obtain ⟨rfl, rfl⟩ := List.append_eq_nil_iff.1 hx
    exact ⟨[], [], rfl, .nil, .nil⟩
  | same t h ih =>
    cases u with
    | nil =>
      subst hx
      exact ⟨[], _, rfl, .nil, .same t h⟩
    | cons s u =>
      obtain ⟨rfl, hr⟩ := List.cons.inj hx
      obtain ⟨u', v', rfl, hu, hv'⟩ := ih hr
      exact ⟨s :: u', v', rfl, .same s hu, hv'⟩
  | @called name name' r r' hn h ih =>
    cases u with
    | nil =>
      subst hx
      exact ⟨[], _, rfl, .nil, .called hn h⟩
    | cons s u =>
      obtain ⟨rfl, hs⟩ := List.cons.inj hx
      cases u with
      | nil => exact absurd (congrArg List.head? hs) hv
      | cons s u =>
        obtain ⟨rfl, hr⟩ := List.cons.inj hs
        obtain ⟨u', v', rfl, hu, hv'⟩ := ih hr
        exact ⟨word name' :: openParen :: u', v', rfl, .called hn hu, hv'⟩

/- In parentheses. -/
theorem Respelled.enclosed {u w : List Token} (h : Respelled (u ++ [closeParen]) w) :
    ∃ u', w = u' ++ [closeParen] ∧ Respelled u u' := by
  obtain ⟨u', v', rfl, hu, hv⟩ := h.append (by simp)
  obtain ⟨x, rfl, hx⟩ := hv.of_mark rfl
  cases hx
  exact ⟨u', rfl, hu⟩

theorem scan_of_opensCall {cs : List Char} (h : opensCall cs = true) :
    ∃ u, scan cs = openParen :: u := by
  rw [opensCall] at h
  obtain ⟨r, hr⟩ := List.head?_eq_some_iff.1 (of_decide_eq_true h)
  have hn : next? cs = some (openParen, r) := next?_eq_some.2 ⟨_, r, hr, rfl⟩
  exact ⟨_, scan_of_next?_some hn⟩

theorem Tidy.tail {t : Token} {u : List Token} (h : Tidy (t :: u)) : Tidy u :=
  ⟨h.apart.tail, fun f hf => h.valid f (List.mem_cons_of_mem _ hf)⟩

theorem Recased.respelled {cs cs' : List Char} (h : Recased cs cs') (ht : Tidy (scan cs)) :
    Respelled (scan cs) (scan cs') := by
  induction h with
  | done h =>
    rw [scan_of_next?_none h]
    exact .nil
  | @kept u r r' t h hr ih =>
    rw [scan_of_next?_some h] at ht ⊢
    have hv : t ≠ .invalid .openText := fun e => ht.valid _ (List.mem_cons.2 (Or.inl e.symm))
    have hf := hr.follows fun hm => head_of_apart ht.apart hm
    rw [scan_of_next?_some (next?_append h hv hr.opensCall_eq hf)]
    exact .same t (ih ht.tail)
  | @called b name name' r r' hb hn ho hs hr ih =>
    have ho' : opensCall r' = true := hr.opensCall_eq.trans ho
    rw [scan_of_next?_some (next?_called hb hn ho)] at ht ⊢
    rw [scan_of_next?_some (next?_called hb (isName_of_sameLetters hs hn) ho')]
    have hu := ih ht.tail
    obtain ⟨u, e⟩ := scan_of_opensCall ho
    rw [e] at hu ⊢
    obtain ⟨u', e', hu⟩ := hu.of_mark rfl
    rw [e']
    exact .called (toLower_eq_of_sameLetters hs).symm hu

end Token

open Token

theorem Repetition.head_ne_openParen {t : Tier} {u : List Token} {e f : Expr}
    (r : Repetition t e u f) : u.head? ≠ some openParen := by
  cases r with
  | done => nofun
  | more h d r => cases h <;> nofun

theorem MoreArguments.head_ne_openParen {u : List Token} {es : List Expr} (m : MoreArguments u es) :
    u.head? ≠ some openParen := by
  cases m <;> nofun

/- The derivation of the respelled tokens has the shape of the given one, so its
counts are the same. -/
mutual

theorem Derivation.respell {n : Nonterminal} {u w : List Token} {e : Expr} :
    (d : Derivation n u e) → Respelled u w → ∃ e', ∃ d' : Derivation n w e',
      e'.lowerCalls = e.lowerCalls ∧ d'.operators = d.operators ∧ d'.depth = d.depth
  | .tier d r, h => by
    obtain ⟨v, w, rfl, hv, hw⟩ := h.append r.head_ne_openParen
    obtain ⟨e', d', he, ho, hd⟩ := d.respell hv
    obtain ⟨f', r', hf, ho', hd'⟩ := r.respell he hw
    exact ⟨f', .tier d' r', hf, congrArg₂ (· + ·) ho ho', congrArg₂ max hd hd'⟩
  | .signed hs d, h => by
    obtain ⟨w, rfl, hw⟩ := h.of_mark hs.isMark
    obtain ⟨e', d', he, ho, hd⟩ := d.respell hw
    exact ⟨.unary _ e', .signed hs d', congrArg (Expr.unary _) he, congrArg (· + 1) ho,
      congrArg (· + 1) hd⟩
  | .unsigned d, h => by
    obtain ⟨e', d', he, ho, hd⟩ := d.respell h
    exact ⟨e', .unsigned d', he, ho, congrArg (· + 1) hd⟩
  | .base d, h => by
    obtain ⟨e', d', he, ho, hd⟩ := d.respell h
    exact ⟨e', .base d', he, ho, hd⟩
  | .raised d₁ d₂, h => by
    obtain ⟨v, w, rfl, hv, hw⟩ := h.append nofun
    obtain ⟨x, rfl, hx⟩ := hw.of_mark rfl
    obtain ⟨e', d₁', he, ho, hd⟩ := d₁.respell hv
    obtain ⟨f', d₂', hf, ho', hd'⟩ := d₂.respell hx
    exact ⟨.binary .power e' f', .raised d₁' d₂', Expr.lowerCalls_binary .power he hf,
      congrArg (· + 1) (congrArg₂ (· + ·) ho ho'), congrArg₂ max hd hd'⟩
  | .number n, h => by
    cases h with | same _ h => cases h; exact ⟨_, .number n, rfl, rfl, rfl⟩
  | .text s, h => by
    cases h with | same _ h => cases h; exact ⟨_, .text s, rfl, rfl, rfl⟩
  | .boolean b, h => by
    cases h with | same _ h => cases h; exact ⟨_, .boolean b, rfl, rfl, rfl⟩
  | .field name, h => by
    cases h with | same _ h => cases h; exact ⟨_, .field name, rfl, rfl, rfl⟩
  | .call name a, h => by
    obtain ⟨name', w, rfl, hn, hw⟩ := h.of_called
    obtain ⟨x, rfl, hx⟩ := hw.enclosed
    obtain ⟨es', a', he, ho, hd⟩ := a.respell hx
    refine ⟨.call name' es', .call name' a', ?_, congrArg (· + 1) ho, hd⟩
    rw [Expr.lowerCalls_call, Expr.lowerCalls_call, hn, he]
  | .group d, h => by
    obtain ⟨w, rfl, hw⟩ := h.of_mark rfl
    obtain ⟨x, rfl, hx⟩ := hw.enclosed
    obtain ⟨e', d', he, ho, hd⟩ := d.respell hx
    exact ⟨e', .group d', he, ho, hd⟩

theorem Repetition.respell {t : Tier} {u w : List Token} {e e' f : Expr} :
    (r : Repetition t e u f) → e'.lowerCalls = e.lowerCalls → Respelled u w →
    ∃ f', ∃ r' : Repetition t e' w f',
      f'.lowerCalls = f.lowerCalls ∧ r'.operators = r.operators ∧ r'.depth = r.depth
  | .done, he, h => by
    cases h
    exact ⟨e', .done, he, rfl, rfl⟩
  | .more hs d r, he, h => by
    obtain ⟨x, rfl, hx⟩ := h.of_mark hs.isMark
    obtain ⟨v, w, rfl, hv, hw⟩ := hx.append r.head_ne_openParen
    obtain ⟨g', d', hg, ho, hd⟩ := d.respell hv
    obtain ⟨f', r', hf, ho', hd'⟩ := r.respell (Expr.lowerCalls_binary _ he hg) hw
    exact ⟨f', .more hs d' r', hf, congrArg (· + 1) (congrArg₂ (· + ·) ho ho'),
      congrArg₂ max hd hd'⟩

theorem Arguments.respell {u w : List Token} {es : List Expr} :
    (a : Arguments u es) → Respelled u w → ∃ es', ∃ a' : Arguments w es',
      es'.map Expr.lowerCalls = es.map Expr.lowerCalls ∧ a'.operators = a.operators ∧
      a'.depth = a.depth
  | .none, h => by
    cases h
    exact ⟨[], .none, rfl, rfl, rfl⟩
  | .some d m, h => by
    obtain ⟨v, w, rfl, hv, hw⟩ := h.append m.head_ne_openParen
    obtain ⟨e', d', he, ho, hd⟩ := d.respell hv
    obtain ⟨es', m', hes, ho', hd'⟩ := m.respell hw
    exact ⟨e' :: es', .some d' m', congrArg₂ List.cons he hes, congrArg₂ (· + ·) ho ho',
      congrArg₂ max hd hd'⟩

theorem MoreArguments.respell {u w : List Token} {es : List Expr} :
    (m : MoreArguments u es) → Respelled u w → ∃ es', ∃ m' : MoreArguments w es',
      es'.map Expr.lowerCalls = es.map Expr.lowerCalls ∧ m'.operators = m.operators ∧
      m'.depth = m.depth
  | .done, h => by
    cases h
    exact ⟨[], .done, rfl, rfl, rfl⟩
  | .more d m, h => by
    obtain ⟨x, rfl, hx⟩ := h.of_mark rfl
    obtain ⟨v, w, rfl, hv, hw⟩ := hx.append m.head_ne_openParen
    obtain ⟨e', d', he, ho, hd⟩ := d.respell hv
    obtain ⟨es', m', hes, ho', hd'⟩ := m.respell hw
    exact ⟨e' :: es', .more d' m', congrArg₂ List.cons he hes, congrArg₂ (· + ·) ho ho',
      congrArg₂ max hd hd'⟩

end

theorem Expr.parse_recased {formula formula' : String} {e : Expr} (hp : parse formula = .ok e)
    (h : Recased formula.toList formula'.toList) :
    ∃ e', parse formula' = .ok e' ∧ e'.lowerCalls = e.lowerCalls := by
  obtain ⟨d, ho, hd⟩ := ofTokens_eq_ok_iff.1 hp
  obtain ⟨e', d', he, ho', hd'⟩ := d.respell (h.respelled d.tidy)
  exact ⟨e', ofTokens_eq_ok_iff.2 ⟨d', ho' ▸ ho, hd' ▸ hd⟩, he⟩

/- Whether a field counts as used depends on its name alone. -/
theorem Bindings.find?_ofRecord_congr {formula formula' x : String} {e e' : Expr}
    (hp : Expr.parse formula = .ok e) (hp' : Expr.parse formula' = .ok e') (hx : x ∈ e.fields)
    (hx' : x ∈ e'.fields) (record : Record) :
    (ofRecord formula' record).find? x = (ofRecord formula record).find? x := by
  have hm := Reference.mem_mentions_of_mem_fields hp hx
  have hm' := Reference.mem_mentions_of_mem_fields hp' hx'
  have hu : x ∈ Reference.used formula' ↔ x ∈ Reference.used formula := by
    rw [Reference.mem_used, Reference.mem_used, and_iff_right hm, and_iff_right hm']
  rw [find?_ofRecord, find?_ofRecord]
  simp only [hu]

namespace Formula
variable {formula formula' : String} {e e' : Expr}

theorem mapError_value_eq (hp : Expr.parse formula = .ok e) (hp' : Expr.parse formula' = .ok e')
    (he : e'.lowerCalls = e.lowerCalls) (record : Record) :
    (value formula' record).mapError FormulaError.lowerCall =
      (value formula record).mapError FormulaError.lowerCall := by
  have hf := Expr.fields_eq_of_lowerCalls he
  have hb :
      e'.eval (Bindings.ofRecord formula' record) = e'.eval (Bindings.ofRecord formula record) :=
    e'.eval_congr fun x hx => Bindings.find?_ofRecord_congr hp hp' (hf ▸ hx) hx record
  rw [value_of_parse hp, value_of_parse hp', hb, Expr.mapError_eval_eq he]

/-- Where names of calls are written with other cases of letters, a formula is accepted as before
and its expression differs in these names only. Whatever the record is, the outcome is the same, or
both outcomes report an error that differs in the name of the called function only. -/
theorem evaluate_recased (formula formula' : String) (e : Expr) (hp : Expr.parse formula = .ok e)
    (h : Recased formula.toList formula'.toList) :
    ∃ e', Expr.parse formula' = .ok e' ∧ e'.lowerCalls = e.lowerCalls ∧
      ∀ record r, evaluate formula' record r = evaluate formula record r ∨
        ∃ err err', evaluate formula record r = .failure err r ∧
          evaluate formula' record r = .failure err' r ∧
          err'.lowerCall = err.lowerCall := by
  obtain ⟨e', hp', he⟩ := Expr.parse_recased hp h
  refine ⟨e', hp', he, fun record r => ?_⟩
  have hv := mapError_value_eq hp hp' he record
  rcases FormulaError.eq_or_of_mapError_eq hv with h | ⟨err', err, h', h, hl⟩
  · exact Or.inl (by rw [evaluate, evaluate, h])
  · exact Or.inr ⟨err, err', by rw [evaluate, h], by rw [evaluate, h'], hl⟩

/- A field is called like the function, and only one of the two spellings of the
function counts as used. -/
theorem evaluate_recased_of_max :
    ∃ formula formula' e e', formula = "max(Max, n)" ∧ formula' = "Max(Max, n)" ∧
      "max" ∈ Reference.used formula ∧ "Max" ∉ Reference.used formula' ∧
      Expr.parse formula = .ok e ∧ Recased formula.toList formula'.toList ∧
      Expr.parse formula' = .ok e' ∧ e'.lowerCalls = e.lowerCalls ∧
      ∀ record r, evaluate formula' record r = evaluate formula record r ∨
        ∃ err err', evaluate formula record r = .failure err r ∧
          evaluate formula' record r = .failure err' r ∧
          err'.lowerCall = err.lowerCall := by
  have hs : Token.scanWithin 11 "max(Max, n)".toList =
      [.word "max", .openParen, .word "Max", .comma, .word "n", .closeParen] := by decide +kernel
  have hp : Expr.parse "max(Max, n)" = .ok (.call "max" [.field "Max", .field "n"]) := by
    rw [parse_eq_of_scanWithin (by decide) hs]
    cbv
  have hr :
      Recased ([] ++ ("max".toList ++ "(Max, n)".toList))
      ([] ++ ("Max".toList ++ "(Max, n)".toList)) :=
    .called (List.forall_mem_nil _) (by decide) (by decide) (by decide) (.refl _)
  have hm : "max" ∈ Reference.mentions "max(Max, n)".toList :=
    (Reference.names_sublist_mentions hp).subset (by decide +kernel)
  obtain ⟨e', hp', he, hv⟩ := evaluate_recased "max(Max, n)" "Max(Max, n)" _ hp hr
  refine ⟨_, _, _, e', rfl, rfl, Reference.mem_used.2 ⟨hm, by decide⟩,
    fun h => ?_, hp, hr, hp', he, hv⟩
  exact (Reference.mem_used.1 h).2.1 (by decide)

end Formula
end FieldFormula
