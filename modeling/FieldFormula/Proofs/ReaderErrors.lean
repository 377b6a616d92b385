import FieldFormula.Proofs.Readers

/-!
The errors of the parser speak of tokens of the text, and what a reader leaves is
part of what it was given.
-/
namespace FieldFormula

def ParseError.tokens : ParseError → List Token
  | fault f => [.invalid f]
  | trailing t => [t]
  | noValue t => t.toList
  | unclosed t => t.toList
  | empty | tooDeep | tooManyOperators => []

theorem ParseError.tokens_found {error : Option Token → ParseError}
    (h : ∀ t, (error t).tokens ⊆ t.toList) (ts : List Token) : (found error ts).tokens ⊆ ts := by
  have hs : (error ts.head?).tokens ⊆ ts := by
    cases ts with
    | nil => exact h none
    | cons t ts =>
      exact List.Subset.trans (h (some t)) (List.cons_subset_cons t (List.nil_subset ts))
  rw [found]
  split
  · next f hf =>
    obtain ⟨ts, rfl⟩ := List.head?_eq_some_iff.1 hf
    exact List.cons_subset_cons _ (List.nil_subset ts)
  · exact hs

namespace Expr
variable {α β : Type} {n m : Nat} {ts ts' : List Token}

/-- What is left is part of `ts`, and an error names tokens of `ts` only. -/
def Within (ts : List Token) (x : Except ParseError (Parsed α n)) : Prop :=
  match x with
  | .ok p => p.rest ⊆ ts
  | .error err => err.tokens ⊆ ts

theorem Within.mono {x : Except ParseError (Parsed α n)} (h : Within ts x) (hts : ts ⊆ ts') :
    Within ts' x := by
  cases x with
  | ok p => exact List.Subset.trans h hts
  | error err => exact List.Subset.trans h hts

theorem Within.tail {t : Token} {x : Except ParseError (Parsed α n)} (h : Within ts x) :
    Within (t :: ts) x :=
  h.mono (List.subset_cons_self t ts)

theorem Within.bind {x : Except ParseError (Parsed β m)}
    {f : Parsed β m → Except ParseError (Parsed α n)} (hx : Within ts x)
    (hf : ∀ p, p.rest ⊆ ts → Within ts (f p)) : Within ts (x >>= f) := by
  cases x with
  | ok p => exact hf p hx
  | error err => exact hx

theorem within_count {s : Nat} {f : Nat → Except ParseError (Parsed α n)}
    (hf : ∀ s', Within ts (f s')) : Within ts (countOperator s >>= f) := by
  cases s with
  | zero => exact List.nil_subset _
  | succ s => exact hf s

theorem within_close {p : Parsed α n} (h : p.rest ⊆ ts) : Within ts (close p) := by
  rw [close]
  split
  · next rest hr =>
    rw [hr] at h
    exact List.Subset.trans (List.subset_cons_self ..) h
  · exact List.Subset.trans (ParseError.tokens_found (fun _ => List.Subset.refl _) _) h

def Stays (r : Reader) : Prop := ∀ ts s, Within ts (r ts s)

variable {operand : Reader}

theorem extend_within (op? : Token → Option BinaryOp) (h : Stays operand) (e : Expr)
    (ts : List Token) (s : Nat) : Within ts (extend op? operand e ts s) := by
  cases ts with
  | nil =>
    rw [extend]
    exact List.Subset.refl _
  | cons t ts =>
    rw [extend]
    split
    · exact List.Subset.refl _
    · refine within_count fun s' => (h ts s').tail.bind fun p hp => ?_
      have hl := p.shorter
      exact ((extend_within op? h _ p.rest p.spare).mono hp).bind fun q hq => hq
termination_by ts.length
decreasing_by
  rw [List.length_cons]
  omega

theorem chain_stays (op? : Token → Option BinaryOp) (h : Stays operand) :
    Stays (chain op? operand) :=
  fun ts s => (h ts s).bind fun p hp =>
    ((extend_within op? h p.value p.rest p.spare).mono hp).bind fun _ hq => hq

theorem expression_stays (h : Stays operand) : Stays (expression operand) := by
  have ht : ∀ ops : List (Token → Option BinaryOp), Stays (ops.foldr chain operand) := by
    intro ops
    induction ops with
    | nil => exact h
    | cons op? ops ih => exact chain_stays op? ih
  exact ht tiers

theorem moreArgs_within (h : Stays operand) (ts : List Token) (s : Nat) :
    Within ts (moreArgs operand ts s) := by
  by_cases hc : ts.head? = some .comma
  · obtain ⟨r, hr⟩ := List.head?_eq_some_iff.1 hc
    rw [hr, moreArgs]
    refine (expression_stays h r s).tail.bind fun p hp => ?_
    have hl := p.shorter
    exact ((moreArgs_within h p.rest p.spare).mono hp).bind fun q hq => hq
  · rw [moreArgs.eq_def]
    split
    · exact absurd rfl hc
    · exact List.Subset.refl _
termination_by ts.length
decreasing_by
  rw [hr, List.length_cons]
  omega

theorem arguments_within (h : Stays operand) (ts : List Token) (s : Nat) :
    Within ts (arguments operand ts s) := by
  rw [arguments.eq_def]
  split
  · exact List.subset_cons_self ..
  · exact (expression_stays h ts s).bind fun p hp =>
      ((moreArgs_within h p.rest p.spare).mono hp).bind fun q hq => within_close hq

theorem primary_stays (h : Stays operand) : Stays (primary operand) := by
  intro ts s
  rw [primary.eq_def]
  split
  · exact List.subset_cons_self ..
  · exact List.subset_cons_self ..
  · exact List.subset_cons_self ..
  · exact within_count fun s' => (arguments_within h _ s').tail.tail.bind fun p hp => hp
  · exact List.subset_cons_self ..
  · exact (expression_stays h _ s).tail.bind fun p hp => within_close hp
  · exact ParseError.tokens_found (fun _ => List.Subset.refl _) _

theorem power_stays (h : Stays operand) : Stays (power operand) := by
  intro ts s
  refine (primary_stays h ts s).bind fun p hp => ?_
  split
  · next rest hr =>
    rw [hr] at hp
    exact within_count fun s' => ((h rest s').tail.mono hp).bind fun q hq => hq
  · exact hp

theorem operandAt_stays (levels : Nat) : Stays (operandAt levels) := by
  induction levels with
  | zero => exact fun ts s => List.nil_subset _
  | succ levels ih =>
    intro ts s
    cases ts with
    | nil => exact power_stays ih [] s
    | cons t ts =>
      simp only [operandAt]
      split
      · exact within_count fun s' => (ih ts s').tail.bind fun p hp => hp
      · exact power_stays ih (t :: ts) s

theorem tokens_subset_of_error {ts : List Token} {err : ParseError} (h : ofTokens ts = .error err) :
    err.tokens ⊆ ts := by
  cases ts with
  | nil =>
    cases h
    exact List.nil_subset _
  | cons t ts =>
    have hw := expression_stays (operandAt_stays maxDepth) (t :: ts) maxOperators
    simp only [ofTokens] at h
    cases hp : expression (operandAt maxDepth) (t :: ts) maxOperators with
    | error err' =>
      rw [hp] at h hw
      cases h
      exact hw
    | ok p =>
      rw [hp] at h hw
      replace hw : p.rest ⊆ t :: ts := hw
      have head : ∀ {f : Token} {r : List Token}, p.rest = f :: r → [f] ⊆ t :: ts := fun hr =>
        List.Subset.trans (List.cons_subset_cons _ (List.nil_subset _)) (hr ▸ hw)
      simp only [bind, Except.bind] at h
      split at h
      · cases h
      · next hr =>
        cases h
        exact head hr
      · cases h
        exact head ‹p.rest = _ :: _›

end Expr
end FieldFormula
