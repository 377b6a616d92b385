import FieldFormula.Proofs.Grammar
import FieldFormula.Proofs.Readers

/-!
The parser accepts what the grammar derives within the limits, and nothing else. Both
directions go by the levels of nesting: the readers of one level are built from the
operand reader of the level below.
-/
namespace FieldFormula

/- A reader goes on as long as it can, so what it takes is a whole phrase only if the
   next token does not belong to the phrase. Ranks say which tokens do: a phrase goes on
   with tokens of at least its own rank. -/

def Token.rank : Token → Nat
  | .orOr => 1
  | .andAnd => 2
  | .equalEqual | .notEqual | .less | .lessEqual | .greater | .greaterEqual => 3
  | .plus | .minus => 4
  | .star | .slash | .percent => 5
  | .caret => 6
  | .openParen => 7
  | _ => 0

namespace Tier

def op? : Tier → Token → Option BinaryOp
  | disjunction => Expr.orOp?
  | conjunction => Expr.andOp?
  | comparison => Expr.comparison?
  | sum => Expr.sumOp?
  | product => Expr.productOp?

theorem op?_eq_some {t : Tier} {s : Token} {op : BinaryOp} :
    t.op? s = some op ↔ t.Operator s op := by
  constructor
  · intro h
    cases t <;> cases s <;> cases h <;> constructor
  · intro h
    cases h <;> rfl

end Tier

namespace Nonterminal

def rank : Nonterminal → Nat
  | tier .disjunction => 1
  | tier .conjunction => 2
  | tier .comparison => 3
  | tier .sum => 4
  | tier .product => 5
  | unary | power => 6
  | primary => 7

def Stops (n : Nonterminal) (rest : List Token) : Prop := ∀ s ∈ rest.head?, s.rank < n.rank

theorem Stops.mono {n n' : Nonterminal} {rest : List Token} (h : n.Stops rest)
    (hn : n.rank ≤ n'.rank) :
    n'.Stops rest := fun s hs => Nat.lt_of_lt_of_le (h s hs) hn

end Nonterminal

theorem Tier.rank_operand (t : Tier) : (Nonterminal.tier t).rank < t.operand.rank := by
  cases t <;> decide

theorem Tier.Operator.rank_eq {t : Tier} {s : Token} {op : BinaryOp} (h : t.Operator s op) :
    s.rank = (Nonterminal.tier t).rank := by
  cases h <;> rfl

theorem Tier.op?_of_rank {t : Tier} {s : Token} (h : s.rank < (Nonterminal.tier t).rank) :
    t.op? s = none := by
  cases ho : t.op? s with
  | none => rfl
  | some op =>
    have := (Tier.op?_eq_some.1 ho).rank_eq
    omega

theorem sign?_eq_some {s : Token} {op : UnaryOp} : Expr.sign? s = some op ↔ Sign s op := by
  constructor
  · intro h
    cases s <;> cases h <;> constructor
  · intro h
    cases h <;> rfl

theorem Derivation.head_primary {u : List Token} {e : Expr} (d : Derivation .primary u e) :
    ∃ s v, u = s :: v ∧ s ≠ .closeParen ∧ Expr.sign? s = none := by
  cases d <;> exact ⟨_, _, rfl, nofun, rfl⟩

theorem Derivation.head_power {u : List Token} {e : Expr} (d : Derivation .power u e) :
    ∃ s v, u = s :: v ∧ s ≠ .closeParen ∧ Expr.sign? s = none := by
  cases d with
  | base d => exact d.head_primary
  | raised d d' =>
    obtain ⟨s, v, rfl, h⟩ := d.head_primary
    exact ⟨s, _, rfl, h⟩

namespace Expr

def Sound (n : Nonterminal) (levels : Nat) (r : Reader) : Prop :=
  ∀ ⦃ts rest : List Token⦄ ⦃s spare : Nat⦄ ⦃e : Expr⦄, Reads (r ts s) e rest spare →
    ∃ (u : List Token) (d : Derivation n u e),
      ts = u ++ rest ∧ s = d.operators + spare ∧ d.depth ≤ levels

/-- The reader takes all that has a derivation within the limits and ends where the
derivation ends. -/
def Complete (n : Nonterminal) (levels : Nat) (r : Reader) : Prop :=
  ∀ ⦃u : List Token⦄ ⦃e : Expr⦄ (d : Derivation n u e) (rest : List Token) (spare : Nat),
    d.depth ≤ levels → n.Stops rest → Reads (r (u ++ rest) (d.operators + spare)) e rest spare

variable {levels : Nat} {operand : Reader} {t : Tier}

theorem extend_sound (h : Sound t.operand levels operand) {ts rest : List Token} {s spare : Nat}
    {e f : Expr} (hr : Reads (extend t.op? operand e ts s) f rest spare) :
    ∃ (v : List Token) (r : Repetition t e v f), ts = v ++ rest ∧ s = r.operators + spare ∧
      r.depth ≤ levels := by
  induction hn : ts.length using Nat.strong_induction_on generalizing ts s e with
  | _ n ih =>
    cases ts with
    | nil =>
      obtain ⟨rfl, rfl, rfl⟩ := reads_extend_nil.1 hr
      exact ⟨[], .done, rfl, by simp, Nat.zero_le _⟩
    | cons s₀ ts =>
      cases ho : t.op? s₀ with
      | none =>
        obtain ⟨rfl, rfl, rfl⟩ := (reads_extend_none ho).1 hr
        exact ⟨[], .done, rfl, by simp, Nat.zero_le _⟩
      | some op =>
        obtain ⟨s', rfl, e₁, ts₁, s₁, h₁, h₂⟩ := (reads_extend_some ho).1 hr
        have hl := h₁.shorter
        obtain ⟨u, d, rfl, rfl, hd⟩ := h h₁
        obtain ⟨v, r, rfl, rfl, hr'⟩ :=
          ih ts₁.length (by simp only [List.length_cons] at hn; omega) h₂ rfl
        refine ⟨s₀ :: (u ++ v), .more (Tier.op?_eq_some.1 ho) d r, by simp, ?_,
          Nat.max_le.2 ⟨hd, hr'⟩⟩
        simp only [Repetition.operators]
        omega

theorem stops_operand {v rest : List Token} {e f : Expr} (r : Repetition t e v f)
    (h : (Nonterminal.tier t).Stops rest) : t.operand.Stops (v ++ rest) := by
  cases r with
  | done => exact h.mono (Nat.le_of_lt t.rank_operand)
  | more ho d r =>
    intro s hs
    cases hs
    rw [ho.rank_eq]
    exact t.rank_operand

theorem extend_complete (h : Complete t.operand levels operand) {v : List Token} {e f : Expr} :
    (r : Repetition t e v f) → (rest : List Token) → (spare : Nat) → r.depth ≤ levels →
      (Nonterminal.tier t).Stops rest →
      Reads (extend t.op? operand e (v ++ rest) (r.operators + spare)) f rest spare
  | .done, [], spare, _, _ => by
    simp [reads_extend_nil]
  | .done, s :: rest, spare, _, hs => by
    have ho : t.op? s = none := Tier.op?_of_rank (hs s rfl)
    simp [reads_extend_none ho]
  | .more ho d r, rest, spare, hd, hs => by
    obtain ⟨hd, hr⟩ := Nat.max_le.1 hd
    have h₁ := h d _ (r.operators + spare) hd (stops_operand r hs)
    have h₂ := extend_complete h r rest spare hr hs
    rw [List.cons_append, List.append_assoc]
    exact (reads_extend_some (Tier.op?_eq_some.2 ho)).2
      ⟨_, by simp only [Repetition.operators]; omega, _, _, _, h₁, h₂⟩

theorem chain_sound (h : Sound t.operand levels operand) :
    Sound (.tier t) levels (chain t.op? operand) := by
  intro ts rest s spare e hr
  obtain ⟨e₁, ts₁, s₁, h₁, h₂⟩ := reads_chain.1 hr
  obtain ⟨u, d, rfl, rfl, hd⟩ := h h₁
  obtain ⟨v, r, rfl, rfl, hr'⟩ := extend_sound h h₂
  exact ⟨u ++ v, .tier d r, by simp, by simp only [Derivation.operators]; omega,
    Nat.max_le.2 ⟨hd, hr'⟩⟩

theorem chain_complete (h : Complete t.operand levels operand) :
    Complete (.tier t) levels (chain t.op? operand) := by
  intro u e d rest spare hd hs
  cases d with
  | tier d r =>
    obtain ⟨hd, hr⟩ := Nat.max_le.1 hd
    have h₁ := h d _ (r.operators + spare) hd (stops_operand r hs)
    have h₂ := extend_complete h r rest spare hr hs
    rw [← Nat.add_assoc] at h₁
    rw [List.append_assoc]
    exact reads_chain.2 ⟨_, _, _, h₁, h₂⟩

theorem expression_sound (h : Sound .unary levels operand) :
    Sound .expression levels (expression operand) := by
  have hp : Sound (.tier .product) levels _ := chain_sound h
  have hs : Sound (.tier .sum) levels _ := chain_sound hp
  have hc : Sound (.tier .comparison) levels _ := chain_sound hs
  have ha : Sound (.tier .conjunction) levels _ := chain_sound hc
  exact chain_sound (t := .disjunction) ha

theorem expression_complete (h : Complete .unary levels operand) :
    Complete .expression levels (expression operand) := by
  have hp : Complete (.tier .product) levels _ := chain_complete h
  have hs : Complete (.tier .sum) levels _ := chain_complete hp
  have hc : Complete (.tier .comparison) levels _ := chain_complete hs
  have ha : Complete (.tier .conjunction) levels _ := chain_complete hc
  exact chain_complete (t := .disjunction) ha

theorem moreArgs_sound (h : Sound .expression levels (expression operand)) {ts rest : List Token}
    {s spare : Nat} {es : List Expr} (hr : Reads (moreArgs operand ts s) es rest spare) :
    ∃ (v : List Token) (m : MoreArguments v es), ts = v ++ rest ∧ s = m.operators + spare ∧
      m.depth ≤ levels := by
  induction hn : ts.length using Nat.strong_induction_on generalizing ts s es with
  | _ n ih =>
    by_cases hc : ts.head? = some .comma
    · obtain ⟨ts, rfl⟩ := List.head?_eq_some_iff.1 hc
      obtain ⟨e, ts₁, s₁, h₁, es', h₂, rfl⟩ := reads_moreArgs_comma.1 hr
      have hl := h₁.shorter
      obtain ⟨u, d, rfl, rfl, hd⟩ := h h₁
      obtain ⟨v, m, rfl, rfl, hm⟩ :=
        ih ts₁.length (by simp only [List.length_cons] at hn; omega) h₂ rfl
      refine ⟨.comma :: (u ++ v), .more d m, by simp, ?_, Nat.max_le.2 ⟨hd, hm⟩⟩
      simp only [MoreArguments.operators]
      omega
    · obtain ⟨rfl, rfl, rfl⟩ := (reads_moreArgs_other hc).1 hr
      exact ⟨[], .done, rfl, by simp, Nat.zero_le _⟩

theorem stops_expression {v : List Token} {es : List Expr} (m : MoreArguments v es)
    (rest : List Token) : Nonterminal.expression.Stops (v ++ .closeParen :: rest) := by
  intro s hs
  cases m <;> cases hs <;> decide

theorem moreArgs_complete (h : Complete .expression levels (expression operand)) {v : List Token}
    {es : List Expr} :
    (m : MoreArguments v es) → (rest : List Token) → (spare : Nat) → m.depth ≤ levels →
      Reads (moreArgs operand (v ++ .closeParen :: rest) (m.operators + spare)) es
      (.closeParen :: rest) spare
  | .done, rest, spare, _ => by
    refine (reads_moreArgs_other (by simp)).2 ⟨rfl, rfl, ?_⟩
    simp
  | .more d m, rest, spare, hd => by
    obtain ⟨hd, hm⟩ := Nat.max_le.1 hd
    have h₁ := h d _ (m.operators + spare) hd (stops_expression m rest)
    have h₂ := moreArgs_complete h m rest spare hm
    rw [← Nat.add_assoc] at h₁
    rw [MoreArguments.operators, List.cons_append, List.append_assoc]
    exact reads_moreArgs_comma.2 ⟨_, _, _, h₁, _, h₂, rfl⟩

theorem arguments_sound (h : Sound .expression levels (expression operand)) {ts rest : List Token}
    {s spare : Nat} {es : List Expr} (hr : Reads (arguments operand ts s) es rest spare) :
    ∃ (u : List Token) (a : Arguments u es),
      ts = u ++ .closeParen :: rest ∧ s = a.operators + spare ∧ a.depth ≤ levels := by
  by_cases hc : ts.head? = some .closeParen
  · obtain ⟨ts, rfl⟩ := List.head?_eq_some_iff.1 hc
    obtain ⟨rfl, rfl, rfl⟩ := reads_arguments_closed.1 hr
    exact ⟨[], .none, rfl, by simp, Nat.zero_le _⟩
  · obtain ⟨e, ts₁, s₁, h₁, es', h₂, rfl⟩ := (reads_arguments_open hc).1 hr
    obtain ⟨u, d, rfl, rfl, hd⟩ := h h₁
    obtain ⟨v, m, rfl, rfl, hm⟩ := moreArgs_sound h h₂
    refine ⟨u ++ v, .some d m, by simp, ?_, Nat.max_le.2 ⟨hd, hm⟩⟩
    simp only [Arguments.operators]
    omega

theorem arguments_complete (h : Complete .expression levels (expression operand)) {u : List Token}
    {es : List Expr} (a : Arguments u es) (rest : List Token) (spare : Nat)
    (hd : a.depth ≤ levels) :
    Reads (arguments operand (u ++ .closeParen :: rest) (a.operators + spare)) es rest spare := by
  cases a with
  | none =>
    refine reads_arguments_closed.2 ⟨rfl, rfl, ?_⟩
    simp
  | @some u v e es d m =>
    obtain ⟨hd, hm⟩ := Nat.max_le.1 hd
    have h₁ := h d _ (m.operators + spare) hd (stops_expression m rest)
    have h₂ := moreArgs_complete h m rest spare hm
    have hc : (u ++ (v ++ .closeParen :: rest)).head? ≠ some .closeParen := by
      obtain ⟨s, u', rfl, hs⟩ := d.head
      simpa using hs
    rw [← Nat.add_assoc] at h₁
    rw [Arguments.operators, List.append_assoc]
    exact (reads_arguments_open hc).2 ⟨_, _, _, h₁, _, h₂, rfl⟩

theorem primary_sound (h : Sound .expression levels (expression operand)) :
    Sound .primary levels (primary operand) := by
  intro ts rest s spare e hr
  rw [primary.eq_def] at hr
  split at hr
  · obtain ⟨rfl, rfl, rfl⟩ := reads_ok.1 hr
    exact ⟨_, .number _, rfl, (Nat.zero_add _).symm, Nat.zero_le _⟩
  · obtain ⟨rfl, rfl, rfl⟩ := reads_ok.1 hr
    exact ⟨_, .text _, rfl, (Nat.zero_add _).symm, Nat.zero_le _⟩
  · obtain ⟨rfl, rfl, rfl⟩ := reads_ok.1 hr
    exact ⟨_, .boolean _, rfl, (Nat.zero_add _).symm, Nat.zero_le _⟩
  · obtain ⟨s', rfl, es, ha, rfl⟩ := reads_primary_call.1 hr
    obtain ⟨u, a, rfl, rfl, hd⟩ := arguments_sound h ha
    exact ⟨_, .call _ a, by simp, by simp only [Derivation.operators]; omega, hd⟩
  · obtain ⟨rfl, rfl, rfl⟩ := reads_ok.1 hr
    exact ⟨_, .field _, rfl, (Nat.zero_add _).symm, Nat.zero_le _⟩
  · obtain ⟨u, d, rfl, rfl, hd⟩ := h (reads_primary_group.1 hr)
    exact ⟨_, .group d, by simp, rfl, hd⟩
  · exact absurd hr not_reads_error

theorem primary_complete (h : Complete .expression levels (expression operand)) :
    Complete .primary levels (primary operand) := by
  intro u e d rest spare hd hs
  cases d with
  | number n => exact reads_ok.2 ⟨rfl, rfl, Nat.zero_add _⟩
  | text s => exact reads_ok.2 ⟨rfl, rfl, Nat.zero_add _⟩
  | boolean b => exact reads_ok.2 ⟨rfl, rfl, Nat.zero_add _⟩
  | field name =>
    have hc : rest.head? ≠ some .openParen := fun hc => Nat.lt_irrefl _ (hs _ hc)
    exact (reads_primary_field hc).2 ⟨rfl, rfl, Nat.zero_add _⟩
  | call name a =>
    have ha := arguments_complete h a rest spare hd
    rw [Derivation.operators, List.cons_append, List.cons_append, List.append_assoc]
    exact reads_primary_call.2 ⟨_, by omega, _, ha, rfl⟩
  | group d =>
    have h₁ := h d (.closeParen :: rest) spare hd (stops_expression .done rest)
    rw [List.cons_append, List.append_assoc]
    exact reads_primary_group.2 h₁

theorem power_sound (hp : Sound .primary levels (primary operand))
    (h : Sound .unary levels operand) : Sound .power levels (power operand) := by
  intro ts rest s spare e hr
  obtain ⟨e₁, ts₁, s₁, h₁, hc⟩ := reads_power.1 hr
  obtain ⟨u, d, rfl, rfl, hd⟩ := hp h₁
  obtain ⟨-, rfl, rfl, rfl⟩ | ⟨ts₂, s₂, rfl, rfl, e₂, h₂, rfl⟩ := hc
  · exact ⟨u, .base d, rfl, rfl, hd⟩
  · obtain ⟨v, d', rfl, rfl, hd'⟩ := h h₂
    exact ⟨_, .raised d d', by simp, by simp only [Derivation.operators]; omega,
      Nat.max_le.2 ⟨hd, hd'⟩⟩

theorem power_complete (hp : Complete .primary levels (primary operand))
    (h : Complete .unary levels operand) : Complete .power levels (power operand) := by
  intro u e d rest spare hd hs
  cases d with
  | base d =>
    have h₁ := hp d rest spare hd (hs.mono (by decide))
    have hc : rest.head? ≠ some .caret := fun hc => Nat.lt_irrefl _ (hs _ hc)
    exact reads_power.2 ⟨_, _, _, h₁, Or.inl ⟨hc, rfl, rfl, rfl⟩⟩
  | @raised u v e f d d' =>
    obtain ⟨hd, hd'⟩ := Nat.max_le.1 hd
    have hs' : Nonterminal.primary.Stops (.caret :: (v ++ rest)) := by
      intro s hs
      cases hs
      decide
    have h₁ := hp d (.caret :: (v ++ rest)) (d'.operators + spare + 1) hd hs'
    have h₂ := h d' rest spare hd' (hs.mono (Nat.le_refl _))
    have ho :
        (Derivation.raised d d').operators + spare = d.operators + (d'.operators + spare + 1) := by
      simp only [Derivation.operators]
      omega
    rw [ho, List.append_assoc]
    exact reads_power.2 ⟨_, _, _, h₁, Or.inr ⟨_, _, rfl, rfl, _, h₂, rfl⟩⟩

theorem operandAt_sound (levels : Nat) : Sound .unary levels (operandAt levels) := by
  induction levels with
  | zero => exact fun _ _ _ _ _ hr => absurd hr not_reads_error
  | succ levels ih =>
    have hp := power_sound (primary_sound (expression_sound ih)) ih
    intro ts rest s spare e hr
    by_cases hs : ∀ t ∈ ts.head?, sign? t = none
    · rw [operandAt_power hs] at hr
      obtain ⟨u, d, hu, ho, hd⟩ := hp hr
      exact ⟨u, .unsigned d, hu, ho, Nat.succ_le_succ hd⟩
    · cases ts with
      | nil => exact absurd hs (by simp)
      | cons t ts =>
        cases ho : sign? t with
        | none => exact absurd hs (by simpa using ho)
        | some op =>
          obtain ⟨s', rfl, e₁, h₁, rfl⟩ := (reads_operandAt_sign ho).1 hr
          obtain ⟨u, d, rfl, rfl, hd⟩ := ih h₁
          refine ⟨t :: u, .signed (sign?_eq_some.1 ho) d, rfl, ?_, Nat.succ_le_succ hd⟩
          simp only [Derivation.operators]
          omega

theorem operandAt_complete (levels : Nat) : Complete .unary levels (operandAt levels) := by
  induction levels with
  | zero =>
    intro u e d rest spare hd hs
    cases d <;> exact absurd hd (Nat.not_succ_le_zero _)
  | succ levels ih =>
    intro u e d rest spare hd hs
    cases d with
    | signed ho d =>
      have h₁ := ih d rest spare (Nat.le_of_succ_le_succ hd) hs
      refine (reads_operandAt_sign (sign?_eq_some.2 ho)).2 ⟨_, ?_, _, h₁, rfl⟩
      simp only [Derivation.operators]
      omega
    | unsigned d =>
      have hp := power_complete (primary_complete (expression_complete ih)) ih
      have h₁ := hp d rest spare (Nat.le_of_succ_le_succ hd) hs
      obtain ⟨s, u', rfl, -, ho⟩ := d.head_power
      rw [operandAt_power]
      · exact h₁
      · intro t ht
        cases ht
        exact ho

theorem ofTokens_eq_ok_iff {ts : List Token} {e : Expr} :
    ofTokens ts = .ok e ↔
      ∃ d : Derivation .expression ts e, d.operators ≤ maxOperators ∧ d.depth ≤ maxDepth := by
  rw [ofTokens_eq_ok]
  constructor
  · intro h
    obtain ⟨s, hr⟩ := h
    obtain ⟨u, d, hu, ho, hd⟩ := expression_sound (operandAt_sound maxDepth) hr
    rw [List.append_nil] at hu
    subst hu
    exact ⟨d, Nat.le.intro ho.symm, hd⟩
  · intro h
    obtain ⟨d, ho, hd⟩ := h
    have hr :=
      expression_complete (operandAt_complete maxDepth) d [] (maxOperators - d.operators) hd nofun
    rw [List.append_nil, Nat.add_sub_cancel' ho] at hr
    exact ⟨_, hr⟩

/- Both derivations lie within some limits, and under these the parser gives one answer. -/
theorem derivation_unique {ts : List Token} {e f : Expr} (d : Derivation .expression ts e)
    (d' : Derivation .expression ts f) : e = f := by
  have hc := expression_complete (operandAt_complete (max d.depth d'.depth))
  have hr := hc d [] d'.operators (Nat.le_max_left ..) nofun
  have hr' := hc d' [] d.operators (Nat.le_max_right ..) nofun
  rw [Nat.add_comm] at hr'
  obtain ⟨p, hp, rfl, -⟩ := hr
  obtain ⟨p', hp', rfl, -⟩ := hr'
  rw [hp] at hp'
  cases hp'
  rfl

theorem exists_derivation {formula : String} {e : Expr} (h : parse formula = .ok e) :
    Nonempty (Derivation .expression (Token.scan formula.toList) e) := by
  obtain ⟨d, -⟩ := ofTokens_eq_ok_iff.1 h
  exact ⟨d⟩

/-- A formula is accepted when its tokens have a derivation with at most 500 operators and calls and
at most 64 operands inside one another, and then it stands for the only expression that its tokens
derive. A text with an invalid token is refused. -/
theorem parse_eq_ok_iff_derivation (formula : String) :
    (∀ e, parse formula = .ok e ↔
      ∃ d : Derivation .expression (Token.scan formula.toList) e,
        d.operators ≤ 500 ∧ d.depth ≤ 64) ∧
    (∀ e f, Derivation .expression (Token.scan formula.toList) e →
      Derivation .expression (Token.scan formula.toList) f → e = f) ∧
    (∀ fault, .invalid fault ∈ Token.scan formula.toList → ∃ err, parse formula = .error err) := by
  refine ⟨fun e => ofTokens_eq_ok_iff, fun e f d d' => derivation_unique d d', fun fault hf => ?_⟩
  cases hp : parse formula with
  | error err => exact ⟨err, rfl⟩
  | ok e =>
    obtain ⟨d⟩ := exists_derivation hp
    exact absurd hf (d.tidy.valid fault)

example : ofTokens [.minus, .word "a", .caret, .word "b", .caret, .word "c", .plus, .word "d"] =
    .ok (.binary .add
      (.unary .negate (.binary .power (.field "a") (.binary .power (.field "b") (.field "c"))))
      (.field "d")) := by
  cbv

end Expr
end FieldFormula
