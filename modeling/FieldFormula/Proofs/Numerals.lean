import FieldFormula.Decimal.Numeral
import FieldFormula.Proofs.Digits
import Mathlib.Data.List.TakeDrop

/-!
How numerals are written, apart from how they are scanned: the scan finds what is written so, where
the text does not go on in the same way, and finds nothing else.
-/
namespace FieldFormula.Numeral

inductive Mantissa : List Char → List Char → List Char → Prop
  | whole {ds : List Char} : ds ≠ [] → Mantissa ds [] ds
  | pointed {ds fs : List Char} : ds ≠ [] ∨ fs ≠ [] → Mantissa ds fs (ds ++ '.' :: fs)

inductive Exponent : Bool → List Char → List Char → Prop
  | none : Exponent false [] []
  | unsigned {m : Char} {ds : List Char} : isMark m = true → ds ≠ [] → Exponent false ds (m :: ds)
  | signed {m : Char} {ds : List Char} (negative : Bool) :
      isMark m = true → ds ≠ [] → Exponent negative ds (m :: (if negative then '-' else '+') :: ds)

/-- The text is a way to write the numeral, in digits of the class. -/
inductive Spells (digit : Char → Bool) : Numeral → List Char → Prop
  | intro {w f x m e : List Char} {negative : Bool} :
      (∀ c ∈ w, digit c = true) → (∀ c ∈ f, digit c = true) → (∀ c ∈ x, digit c = true) →
      Mantissa w f m → Exponent negative x e → Spells digit ⟨w, f, negative, x⟩ (m ++ e)

def joints : List Char := ['.', 'e', 'E', '+', '-']

def Ends (digit : Char → Bool) (rest : List Char) : Prop :=
  ∀ c ∈ rest.head?, digit c = false ∧ c ≠ '.' ∧ isMark c = false

theorem ends_nil (digit : Char → Bool) : Ends digit [] := nofun

section
variable {digit : Char → Bool} {ds cs r rest : List Char} {n : Numeral}

theorem span_append (hds : ∀ c ∈ ds, digit c = true) (hr : ∀ c ∈ r.head?, digit c = false) :
    (ds ++ r).span digit = (ds, r) := by
  obtain ⟨ht, hd⟩ := takeWhile_append_of_head hds hr
  rw [List.span_eq_takeWhile_dropWhile, ht, hd]

theorem span_spec (digit : Char → Bool) (cs : List Char) :
    ∃ ds r, cs.span digit = (ds, r) ∧ cs = ds ++ r ∧
    (∀ c ∈ ds, digit c = true) ∧ ∀ c ∈ r.head?, digit c = false := by
  refine ⟨cs.takeWhile digit, cs.dropWhile digit, List.span_eq_takeWhile_dropWhile .., ?_, ?_, ?_⟩
  · exact List.takeWhile_append_dropWhile.symm
  · exact List.all_eq_true.1 List.all_takeWhile
  · intro c hc
    have h := List.head?_dropWhile_not digit cs
    rw [Option.mem_def.1 hc] at h
    simpa using h

theorem splitSign_cons {c : Char} (hp : c ≠ '+') (hn : c ≠ '-') (r : List Char) :
    splitSign (c :: r) = (false, c :: r) := by
  rw [splitSign.eq_def]
  split <;> simp_all

theorem splitSign_signed (negative : Bool) (cs : List Char) :
    splitSign ((if negative then '-' else '+') :: cs) = (negative, cs) := by
  cases negative <;> rfl

theorem splitFraction_of_head (h : r.head? ≠ some '.') : splitFraction digit r = ([], r) := by
  rw [splitFraction.eq_def]
  split <;> simp_all

theorem splitExponent_of_head (h : ∀ c ∈ r.head?, isMark c = false) :
    splitExponent digit r = ((false, []), r) := by
  cases r with
  | nil => rfl
  | cons c r => simp [splitExponent, h c rfl]

theorem isMark_cases {c : Char} (h : isMark c = true) : c = 'e' ∨ c = 'E' := by
  simpa [isMark] using h

/- The scan takes what is written so. -/

theorem Exponent.head {negative : Bool} {e x : List Char} (h : Exponent negative x e)
    (hj : ∀ c ∈ joints, digit c = false) (hr : Ends digit rest) :
    ∀ c ∈ (e ++ rest).head?, digit c = false ∧ c ≠ '.' := by
  have mark : ∀ c, isMark c = true → digit c = false ∧ c ≠ '.' := by
    intro c hc
    rcases isMark_cases hc with rfl | rfl
    · exact ⟨hj _ (by decide), by decide⟩
    · exact ⟨hj _ (by decide), by decide⟩
  intro c hc
  cases h with
  | none => exact ⟨(hr c hc).1, (hr c hc).2.1⟩
  | unsigned hm hds =>
    cases hc
    exact mark _ hm
  | signed negative hm hds =>
    cases hc
    exact mark _ hm

theorem splitExponent_append {negative : Bool} {e x : List Char} (h : Exponent negative x e)
    (hx : ∀ c ∈ x, digit c = true) (hj : ∀ c ∈ joints, digit c = false) (hr : Ends digit rest) :
    splitExponent digit (e ++ rest) = ((negative, x), rest) := by
  have hs := span_append hx fun c hc => (hr c hc).1
  cases h with
  | none => exact splitExponent_of_head fun c hc => (hr c hc).2.2
  | unsigned hm hds =>
    obtain ⟨d, ds, rfl⟩ := List.exists_cons_of_ne_nil hds
    have ne : ∀ c ∈ joints, d ≠ c := by
      rintro c hc rfl
      simp [hj d hc] at hx
    have hsign := splitSign_cons (ne '+' (by decide)) (ne '-' (by decide)) (ds ++ rest)
    rw [List.cons_append] at hs ⊢
    rw [List.cons_append, splitExponent]
    simp only [hsign, hs, hm]
    rfl
  | signed negative hm hds =>
    have hne : x.isEmpty = false := by simpa using hds
    rw [List.cons_append, List.cons_append, splitExponent]
    simp only [splitSign_signed, hs, hm, hne]
    rfl

theorem scan_append (h : Spells digit n cs) (hj : ∀ c ∈ joints, digit c = false)
    (hr : Ends digit rest) : scan digit (cs ++ rest) = some (n, rest) := by
  cases h with
  | @intro w f x m e negative hw hf hx hm he =>
    have hhead := he.head hj hr
    have hexp := splitExponent_append he hx hj hr
    cases hm with
    | whole hne =>
      have hs := span_append hw fun c hc => (hhead c hc).1
      have hfr : splitFraction digit (e ++ rest) = ([], e ++ rest) :=
        splitFraction_of_head fun hc => (hhead _ hc).2 rfl
      have hnone : (w.isEmpty && List.isEmpty ([] : List Char)) = false := by simpa using hne
      rw [List.append_assoc]
      simp only [scan, hs, hfr, hexp, hnone]
      rfl
    | pointed hne =>
      have hp : ∀ c ∈ ('.' :: (f ++ (e ++ rest))).head?, digit c = false := by
        simpa using hj '.' (by decide)
      have hs := span_append hw hp
      have hfr : splitFraction digit ('.' :: (f ++ (e ++ rest))) = (f, e ++ rest) :=
        span_append hf fun c hc => (hhead c hc).1
      have hnone : (w.isEmpty && f.isEmpty) = false := by simpa [imp_iff_not_or] using hne
      rw [List.append_assoc, List.append_assoc, List.cons_append]
      simp only [scan, hs, hfr, hexp, hnone]
      rfl

/- And nothing else. -/

theorem splitSign_spec (cs : List Char) :
    splitSign cs = (false, cs) ∨
      ∃ negative r, cs = (if negative then '-' else '+') :: r ∧ splitSign cs = (negative, r) := by
  rw [splitSign.eq_def]
  split
  · exact Or.inr ⟨true, _, rfl, rfl⟩
  · exact Or.inr ⟨false, _, rfl, rfl⟩
  · exact Or.inl rfl

theorem splitFraction_spec (digit : Char → Bool) (r : List Char) :
    (splitFraction digit r = ([], r) ∧ r.head? ≠ some '.') ∨
      ∃ fs r', splitFraction digit r = (fs, r') ∧ r = '.' :: (fs ++ r') ∧
        ∀ c ∈ fs, digit c = true := by
  by_cases h : r.head? = some '.'
  · obtain ⟨r, rfl⟩ := List.head?_eq_some_iff.1 h
    obtain ⟨fs, r', hs, rfl, hfs, -⟩ := span_spec digit r
    exact Or.inr ⟨fs, r', hs, rfl, hfs⟩
  · exact Or.inl ⟨splitFraction_of_head h, h⟩

theorem splitExponent_spec (digit : Char → Bool) (r : List Char) :
    ∃ negative x e rest, splitExponent digit r = ((negative, x), rest) ∧ r = e ++ rest ∧
      Exponent negative x e ∧ ∀ c ∈ x, digit c = true := by
  cases r with
  | nil => exact ⟨false, [], [], [], rfl, rfl, .none, nofun⟩
  | cons c r =>
    obtain ⟨ds, rest, hs, hv, hds, -⟩ := span_spec digit (splitSign r).2
    by_cases h : (isMark c && !ds.isEmpty) = true
    · obtain ⟨hm, hne⟩ : isMark c = true ∧ ds ≠ [] := by simpa using h
      have he : splitExponent digit (c :: r) = (((splitSign r).1, ds), rest) := by
        rw [splitExponent]
        simp only [hs]
        exact if_pos h
      rcases splitSign_spec r with hr | ⟨negative, r', rfl, hr⟩
      · rw [hr] at he hv
        exact ⟨_, _, c :: ds, rest, he, by rw [List.cons_append, ← hv], .unsigned hm hne, hds⟩
      · rw [hr] at he hv
        refine ⟨_, _, c :: _ :: ds, rest, he, ?_, .signed negative hm hne, hds⟩
        rw [List.cons_append, List.cons_append, ← hv]
    · have he : splitExponent digit (c :: r) = ((false, []), c :: r) := by
        rw [splitExponent]
        simp only [hs]
        exact if_neg h
      exact ⟨false, [], [], c :: r, he, rfl, .none, nofun⟩

theorem spells_of_scan (h : scan digit cs = some (n, rest)) :
    ∃ w, cs = w ++ rest ∧ Spells digit n w := by
  obtain ⟨w, r, hs, rfl, hw, -⟩ := span_spec digit cs
  obtain ⟨negative, x, e, rest', he, hr, hexp, hx⟩ :=
    splitExponent_spec digit (splitFraction digit r).2
  simp only [scan, hs, he] at h
  split at h
  · cases h
  · next hne =>
    cases h
    rcases splitFraction_spec digit r with ⟨hf, -⟩ | ⟨fs, r', hf, rfl, hfs⟩
    · rw [hf] at hr hne ⊢
      subst hr
      exact ⟨w ++ e, by simp, .intro hw nofun hx (.whole (by simpa using hne)) hexp⟩
    · rw [hf] at hr hne ⊢
      subst hr
      exact ⟨w ++ '.' :: fs ++ e, by simp,
        .intro hw hfs hx (.pointed (by simpa [imp_iff_not_or] using hne)) hexp⟩

theorem not_mem_joints_of_isDigit : ∀ c ∈ joints, c.isDigit = false := by
  have h : (joints.all fun c => !c.isDigit) = true := by decide
  simpa using h

theorem ofText?_eq_some_iff : ofText? cs = some n ↔ Spells Char.isDigit n cs := by
  constructor
  · intro h
    unfold ofText? at h
    split at h
    · next m hs =>
      cases h
      obtain ⟨w, rfl, hw⟩ := spells_of_scan hs
      simpa using hw
    · cases h
  · intro h
    have hs := scan_append h not_mem_joints_of_isDigit (ends_nil _)
    rw [List.append_nil] at hs
    rw [ofText?, hs]

end

end FieldFormula.Numeral
