import FieldFormula.Expr

/-!
What each reader of the parser takes from the tokens, as a relation between the tokens and operators
allowed before it and after it. The proofs that a reader's result is shorter play no part in it.
-/
namespace FieldFormula.Expr

variable {α β : Type} {n : Nat} {rest : List Token} {spare : Nat}

/-- The reader yields this value, and leaves these tokens and so many operators. -/
def Reads (x : Except ParseError (Parsed α n)) (v : α) (rest : List Token) (spare : Nat) : Prop :=
  ∃ p, x = .ok p ∧ p.value = v ∧ p.rest = rest ∧ p.spare = spare

theorem Reads.shorter {x : Except ParseError (Parsed α n)} {v : α} (h : Reads x v rest spare) :
    rest.length < n := by
  obtain ⟨p, -, -, rfl, -⟩ := h
  exact p.shorter

theorem not_reads_error {err : ParseError} {v : α} :
    ¬ Reads (.error err : Except ParseError (Parsed α n)) v rest spare := by
  intro h
  obtain ⟨p, h, _⟩ := h
  cases h

theorem reads_ok {p : Parsed α n} {v : α} :
    Reads (.ok p) v rest spare ↔ p.value = v ∧ p.rest = rest ∧ p.spare = spare := by
  constructor
  · intro h
    obtain ⟨q, h, hq⟩ := h
    cases h
    exact hq
  · exact fun h => ⟨p, rfl, h⟩

theorem bind_eq_ok {ε γ : Type} {x : Except ε β} {f : β → Except ε γ} {c : γ} :
    x >>= f = .ok c ↔ ∃ b, x = .ok b ∧ f b = .ok c := by
  cases x with
  | error err => exact ⟨nofun, nofun⟩
  | ok b =>
    refine ⟨fun h => ⟨b, rfl, h⟩, fun ⟨b', h, h'⟩ => ?_⟩
    cases h
    exact h'

theorem reads_bind {x : Except ParseError β} {f : β → Except ParseError (Parsed α n)} {v : α} :
    Reads (x >>= f) v rest spare ↔ ∃ b, x = .ok b ∧ Reads (f b) v rest spare := by
  simp only [Reads, bind_eq_ok]
  constructor
  · intro h
    obtain ⟨p, ⟨b, hb, hp⟩, h⟩ := h
    exact ⟨b, hb, p, hp, h⟩
  · intro h
    obtain ⟨b, hb, p, hp, h⟩ := h
    exact ⟨p, ⟨b, hb, hp⟩, h⟩

section
variable {m : Nat} {x : Except ParseError (Parsed β m)} {v : α} {g : β → α}

theorem reads_then {f : Parsed β m → Except ParseError (Parsed α n)}
    {P : β → List Token → Nat → Prop}
    (h : ∀ p, Reads (f p) v rest spare ↔ P p.value p.rest p.spare) :
    Reads (x >>= f) v rest spare ↔ ∃ w ts s, Reads x w ts s ∧ P w ts s := by
  rw [reads_bind]
  constructor
  · intro h'
    obtain ⟨p, hp, hf⟩ := h'
    exact ⟨p.value, p.rest, p.spare, ⟨p, hp, rfl, rfl, rfl⟩, (h p).1 hf⟩
  · intro h'
    obtain ⟨w, ts, s, ⟨p, hp, hv, hr, hs⟩, hP⟩ := h'
    subst hv hr hs
    exact ⟨p, hp, (h p).2 hP⟩

theorem reads_map {h : ∀ q : Parsed β m, q.rest.length < n} :
    Reads (x >>= fun q => pure ⟨g q.value, q.rest, q.spare, h q⟩) v rest spare ↔
      ∃ w, Reads x w rest spare ∧ g w = v := by
  rw [reads_bind]
  constructor
  · intro h'
    obtain ⟨q, hq, hr⟩ := h'
    obtain ⟨hv, hr⟩ := reads_ok.1 hr
    exact ⟨q.value, ⟨q, hq, rfl, hr⟩, hv⟩
  · intro h'
    obtain ⟨w, ⟨q, hq, hw, hr⟩, hv⟩ := h'
    subst hw
    exact ⟨q, hq, reads_ok.2 ⟨hv, hr⟩⟩

theorem reads_widen {x : Except ParseError (Parsed α m)} {h : ∀ q : Parsed α m, q.rest.length < n} :
    Reads (x >>= fun q => pure ⟨q.value, q.rest, q.spare, h q⟩) v rest spare ↔
      Reads x v rest spare := by
  refine (reads_map (g := id)).trans ?_
  simp

theorem reads_close {p : Parsed α n} :
    Reads (close p) v rest spare ↔ p.value = v ∧ p.rest = .closeParen :: rest ∧
    p.spare = spare := by
  rw [close]
  split
  · next r hr => simp [reads_ok, hr]
  · next hr => exact ⟨fun h => absurd h not_reads_error, fun h => absurd h.2.1 (hr _)⟩

theorem reads_map_close {h : ∀ q : Parsed β m, q.rest.length < n} :
    Reads (x >>= fun q => close ⟨g q.value, q.rest, q.spare, h q⟩) v rest spare ↔
      ∃ w, Reads x w (.closeParen :: rest) spare ∧ g w = v := by
  rw [reads_bind]
  constructor
  · intro h'
    obtain ⟨q, hq, hr⟩ := h'
    obtain ⟨hv, hr⟩ := reads_close.1 hr
    exact ⟨q.value, ⟨q, hq, rfl, hr⟩, hv⟩
  · intro h'
    obtain ⟨w, ⟨q, hq, hw, hr⟩, hv⟩ := h'
    subst hw
    exact ⟨q, hq, reads_close.2 ⟨hv, hr⟩⟩

end

theorem countOperator_eq_ok {s s' : Nat} : countOperator s = .ok s' ↔ s = s' + 1 := by
  cases s <;> simp [countOperator]

theorem reads_count {s : Nat} {f : Nat → Except ParseError (Parsed α n)} {v : α} :
    Reads (countOperator s >>= f) v rest spare ↔ ∃ s', s = s' + 1 ∧ Reads (f s') v rest spare := by
  rw [reads_bind]
  simp only [countOperator_eq_ok]

variable {op? : Token → Option BinaryOp} {operand : Reader} {t : Token} {ts : List Token} {s : Nat}
  {e f : Expr} {es : List Expr}

theorem reads_chain :
    Reads (chain op? operand ts s) e rest spare ↔
      ∃ e₁ ts₁ s₁, Reads (operand ts s) e₁ ts₁ s₁ ∧
        Reads (extend op? operand e₁ ts₁ s₁) e rest spare :=
  reads_then fun _ => reads_widen

theorem reads_extend_nil :
    Reads (extend op? operand e [] s) f rest spare ↔ e = f ∧ [] = rest ∧ s = spare := by
  rw [extend, reads_ok]

theorem reads_extend_none (h : op? t = none) :
    Reads (extend op? operand e (t :: ts) s) f rest spare ↔ e = f ∧ t :: ts = rest ∧ s = spare := by
  rw [extend]
  simp only [h, reads_ok]

theorem reads_extend_some {op : BinaryOp} (h : op? t = some op) :
    Reads (extend op? operand e (t :: ts) s) f rest spare ↔
      ∃ s', s = s' + 1 ∧ ∃ e₁ ts₁ s₁, Reads (operand ts s') e₁ ts₁ s₁ ∧
        Reads (extend op? operand (.binary op e e₁) ts₁ s₁) f rest spare := by
  rw [extend]
  simp only [h, reads_count]
  exact exists_congr fun s' => and_congr_right fun _ => reads_then fun _ => reads_widen

theorem reads_moreArgs_comma :
    Reads (moreArgs operand (.comma :: ts) s) es rest spare ↔
      ∃ e ts₁ s₁, Reads (expression operand ts s) e ts₁ s₁ ∧
        ∃ es', Reads (moreArgs operand ts₁ s₁) es' rest spare ∧ e :: es' = es := by
  rw [moreArgs]
  exact reads_then fun _ => reads_map

theorem reads_moreArgs_other (h : ts.head? ≠ some .comma) :
    Reads (moreArgs operand ts s) es rest spare ↔ [] = es ∧ ts = rest ∧ s = spare := by
  rw [moreArgs.eq_def]
  split
  · simp at h
  · rw [reads_ok]

theorem reads_arguments_closed :
    Reads (arguments operand (.closeParen :: ts) s) es rest spare ↔
      [] = es ∧ ts = rest ∧ s = spare := by
  rw [arguments, reads_ok]

theorem reads_arguments_open (h : ts.head? ≠ some .closeParen) :
    Reads (arguments operand ts s) es rest spare ↔
      ∃ e ts₁ s₁, Reads (expression operand ts s) e ts₁ s₁ ∧
        ∃ es', Reads (moreArgs operand ts₁ s₁) es' (.closeParen :: rest) spare ∧ e :: es' = es := by
  rw [arguments.eq_def]
  split
  · simp at h
  · exact reads_then fun _ => reads_map_close

theorem reads_primary_call {name : String} :
    Reads (primary operand (.word name :: .openParen :: ts) s) e rest spare ↔
      ∃ s', s = s' + 1 ∧ ∃ es, Reads (arguments operand ts s') es rest spare ∧
        .call name es = e := by
  simp only [primary, reads_count]
  exact exists_congr fun s' => and_congr_right fun _ => reads_map

theorem reads_primary_field {name : String} (h : ts.head? ≠ some .openParen) :
    Reads (primary operand (.word name :: ts) s) e rest spare ↔
      .field name = e ∧ ts = rest ∧ s = spare := by
  cases ts with
  | nil => simp [primary, reads_ok]
  | cons t ts => simp_all [primary, reads_ok]

theorem reads_primary_group :
    Reads (primary operand (.openParen :: ts) s) e rest spare ↔
      Reads (expression operand ts s) e (.closeParen :: rest) spare := by
  rw [primary]
  refine (reads_map_close (g := id)).trans ?_
  simp

theorem reads_power :
    Reads (power operand ts s) e rest spare ↔
      ∃ e₁ ts₁ s₁, Reads (primary operand ts s) e₁ ts₁ s₁ ∧
        ((ts₁.head? ≠ some .caret ∧ e₁ = e ∧ ts₁ = rest ∧ s₁ = spare) ∨
          ∃ ts₂ s₂, ts₁ = .caret :: ts₂ ∧ s₁ = s₂ + 1 ∧
            ∃ e₂, Reads (operand ts₂ s₂) e₂ rest spare ∧ .binary .power e₁ e₂ = e) := by
  apply reads_then
  intro p
  split
  · next ts₂ hr =>
    simp only [reads_count, reads_map]
    simp [hr]
  · next hc =>
    have hh : p.rest.head? ≠ some .caret := by
      intro h
      obtain ⟨ts₂, hr⟩ := List.head?_eq_some_iff.1 h
      exact hc ts₂ hr
    constructor
    · intro h
      exact Or.inl ⟨hh, reads_ok.1 h⟩
    · intro h
      cases h with
      | inl h => exact reads_ok.2 h.2
      | inr h =>
        obtain ⟨ts₂, _, hr, _⟩ := h
        exact absurd hr (hc ts₂)

theorem reads_operandAt_sign {levels : Nat} {op : UnaryOp} (h : sign? t = some op) :
    Reads (operandAt (levels + 1) (t :: ts) s) e rest spare ↔
      ∃ s', s = s' + 1 ∧ ∃ e₁, Reads (operandAt levels ts s') e₁ rest spare ∧ .unary op e₁ = e := by
  rw [operandAt]
  simp only [h, reads_count]
  exact exists_congr fun s' => and_congr_right fun _ => reads_map

theorem operandAt_power {levels : Nat} (h : ∀ t ∈ ts.head?, sign? t = none) :
    operandAt (levels + 1) ts s = power (operandAt levels) ts s := by
  cases ts with
  | nil => rfl
  | cons t ts => simp only [operandAt, h t rfl]

theorem ofTokens_eq_ok :
    ofTokens ts = .ok e ↔ ∃ s, Reads (expression (operandAt maxDepth) ts maxOperators) e [] s := by
  cases ts with
  | nil => exact ⟨nofun, fun ⟨_, h⟩ => absurd h.shorter (Nat.not_lt_zero _)⟩
  | cons t ts =>
    simp only [ofTokens, bind_eq_ok]
    constructor
    · intro h
      obtain ⟨p, hp, h⟩ := h
      split at h
      · next hr =>
        cases h
        exact ⟨_, p, hp, rfl, hr, rfl⟩
      · cases h
      · cases h
    · intro h
      obtain ⟨_, p, hp, hv, hr, _⟩ := h
      refine ⟨p, hp, ?_⟩
      rw [hr, ← hv]
      rfl

end FieldFormula.Expr
