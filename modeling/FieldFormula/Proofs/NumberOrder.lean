import FieldFormula.Proofs.NumberText
import Mathlib.Order.Compare

/-!
The order of numbers. Every number but NaN has a place among the integers, an infinity
beyond all counts of units, and two numbers compare as their places do. So the numbers at
one place differ at most in the sign of a zero.
-/
namespace FieldFormula.Binary64
variable {x y z : Binary64} {a b : Int}

def beyond : Nat := Nat.pow 2 2098

theorem lt_beyond {n : Nat} (h : Fits n) : n < beyond := by
  obtain ⟨k, hk, hb⟩ : ∃ k, k = 2098 ∧ beyond = 2 ^ k := ⟨2098, rfl, by decide +kernel⟩
  rw [hb]
  by_cases h0 : n = 0
  · rw [h0]
    exact Nat.two_pow_pos k
  · exact (Nat.log2_lt h0).1 (hk ▸ h.2)

theorem scaled_bounds (s : Bool) {n : Nat} (h : Fits n) :
    -(beyond : Int) < scaled s n ∧ scaled s n < beyond := by
  have hlt := lt_beyond h
  cases s <;> simp only [scaled, Bool.false_eq_true, if_true, if_false] <;> omega

/-- The place of a number in the order; the two zeros share theirs. -/
def place? : Binary64 → Option Int
  | nan => none
  | infinity s => some (scaled s beyond)
  | finite s n _ => some (scaled s n)

theorem exists_place (h : x.isNaN = false) : ∃ a, x.place? = some a := by
  cases x with
  | nan => cases h
  | infinity s => exact ⟨_, rfl⟩
  | finite s n hn => exact ⟨_, rfl⟩

theorem eq_nan (h : x.isNaN = true) : x = nan := by
  cases x with
  | nan => rfl
  | infinity s => cases h
  | finite s n hn => cases h

theorem compare?_of_place (hx : x.place? = some a) (hy : y.place? = some b) :
    x.compare? y = some (compare a b) := by
  have hneg : -(beyond : Int) < beyond := by
    have hpos := lt_beyond fits_zero
    omega
  cases x with
  | nan => cases hx
  | infinity s =>
    cases hx
    cases y with
    | nan => cases hy
    | infinity t =>
      cases hy
      cases s <;> cases t <;> refine congrArg some (Eq.symm ?_)
      · exact compare_eq_iff_eq.2 rfl
      · exact compare_gt_iff_gt.2 hneg
      · exact compare_lt_iff_lt.2 hneg
      · exact compare_eq_iff_eq.2 rfl
    | finite t n hn =>
      cases hy
      cases s with
      | false => exact congrArg some (compare_gt_iff_gt.2 (scaled_bounds t hn).2).symm
      | true => exact congrArg some (compare_lt_iff_lt.2 (scaled_bounds t hn).1).symm
  | finite s m hm =>
    cases hx
    cases y with
    | nan => cases hy
    | infinity t =>
      cases hy
      cases t with
      | false => exact congrArg some (compare_lt_iff_lt.2 (scaled_bounds s hm).2).symm
      | true => exact congrArg some (compare_gt_iff_gt.2 (scaled_bounds s hm).1).symm
    | finite t n hn =>
      cases hy
      rfl

theorem compare?_of_isNaN (h : x.isNaN = true ∨ y.isNaN = true) : x.compare? y = none := by
  cases h with
  | inl h =>
    rw [eq_nan h]
    rfl
  | inr h =>
    rw [eq_nan h]
    cases x <;> rfl

theorem compare?_swap (x y : Binary64) : y.compare? x = (x.compare? y).map Ordering.swap := by
  by_cases h : x.isNaN = true ∨ y.isNaN = true
  · rw [compare?_of_isNaN h, compare?_of_isNaN h.symm]
    rfl
  · simp only [not_or, Bool.not_eq_true] at h
    obtain ⟨a, ha⟩ := exists_place h.1
    obtain ⟨b, hb⟩ := exists_place h.2
    rw [compare?_of_place ha hb, compare?_of_place hb ha, Option.map_some, Std.OrientedOrd.eq_swap]

theorem lt_iff (hx : x.place? = some a) (hy : y.place? = some b) : x.lt y = true ↔ a < b := by
  rw [lt, compare?_of_place hx hy, decide_eq_true_iff, Option.some.injEq, compare_lt_iff_lt]

theorem le_iff (hx : x.place? = some a) (hy : y.place? = some b) : x.le y = true ↔ a ≤ b := by
  rw [le, compare?_of_place hx hy, Bool.or_eq_true, decide_eq_true_iff, decide_eq_true_iff,
    Option.some.injEq, Option.some.injEq, compare_lt_iff_lt, compare_eq_iff_eq, Int.le_iff_lt_or_eq]

theorem scaled_beyond_ne (s t : Bool) {n : Nat} (h : Fits n) : scaled s beyond ≠ scaled t n := by
  intro he
  have hb := scaled_bounds t h
  rw [← he] at hb
  cases s with
  | false => exact Int.lt_irrefl _ hb.2
  | true => exact Int.lt_irrefl _ hb.1

theorem dropZeroSign_of_place (hx : x.place? = some a) (hy : y.place? = some a) :
    x.dropZeroSign = y.dropZeroSign := by
  have he := hx.trans hy.symm
  cases x with
  | nan => cases hx
  | infinity s =>
    cases y with
    | nan => cases hy
    | infinity t =>
      have hpos := lt_beyond fits_zero
      simp only [place?, Option.some.injEq, scaled] at he
      cases s <;> cases t <;> simp only [Bool.false_eq_true, if_true, if_false] at he ⊢ <;> omega
    | finite t n hn => exact absurd (Option.some.inj he) (scaled_beyond_ne s t hn)
  | finite s m hm =>
    cases y with
    | nan => cases hy
    | infinity t => exact absurd (Option.some.inj he).symm (scaled_beyond_ne t s hm)
    | finite t n hn =>
      simp only [place?, Option.some.injEq, scaled] at he
      cases s <;> cases t <;> simp [dropZeroSign] at he ⊢ <;> omega

/-- A total order of all numbers but NaN, up to the sign of a zero. -/
structure Orders (below : Binary64 → Binary64 → Bool) : Prop where
  total : ∀ {x y}, x.isNaN = false → y.isNaN = false → below x y = true ∨ below y x = true
  trans : ∀ {x y z}, below x y = true → below y z = true → below x z = true
  antisymm : ∀ {x y}, below x y = true → below y x = true → x.dropZeroSign = y.dropZeroSign

theorem Orders.reverse {below : Binary64 → Binary64 → Bool} (h : Orders below) :
    Orders fun x y => below y x where
  total hx hy := h.total hy hx
  trans hxy hyz := h.trans hyz hxy
  antisymm hxy hyx := h.antisymm hyx hxy

theorem exists_places_of_le (h : x.le y = true) :
    ∃ a b, x.place? = some a ∧ y.place? = some b ∧ a ≤ b := by
  by_cases hn : x.isNaN = true ∨ y.isNaN = true
  · rw [le, compare?_of_isNaN hn] at h
    cases h
  · simp only [not_or, Bool.not_eq_true] at hn
    obtain ⟨a, ha⟩ := exists_place hn.1
    obtain ⟨b, hb⟩ := exists_place hn.2
    exact ⟨a, b, ha, hb, (le_iff ha hb).1 h⟩

theorem orders_le : Orders le where
  total hx hy := by
    obtain ⟨a, ha⟩ := exists_place hx
    obtain ⟨b, hb⟩ := exists_place hy
    rw [le_iff ha hb, le_iff hb ha]
    exact Int.le_total a b
  trans hxy hyz := by
    obtain ⟨a, b, ha, hb, hab⟩ := exists_places_of_le hxy
    obtain ⟨b', c, hb', hc, hbc⟩ := exists_places_of_le hyz
    cases hb.symm.trans hb'
    exact (le_iff ha hc).2 (Int.le_trans hab hbc)
  antisymm hxy hyx := by
    obtain ⟨a, b, ha, hb, hab⟩ := exists_places_of_le hxy
    cases Int.le_antisymm hab ((le_iff hb ha).1 hyx)
    exact dropZeroSign_of_place ha hb

theorem eq_infinity_of_le (h : x.le (infinity true) = true) : x = infinity true := by
  cases x with
  | nan => cases h
  | infinity s =>
    cases s with
    | false => exact absurd h (by decide)
    | true => rfl
  | finite s n hn => exact absurd h Bool.false_ne_true

theorem eq_infinity_of_ge (h : (infinity false).le x = true) : x = infinity false := by
  cases x with
  | nan => cases h
  | infinity s =>
    cases s with
    | false => rfl
    | true => exact absurd h (by decide)
  | finite s n hn => exact absurd h Bool.false_ne_true

theorem le_of_lt (h : x.lt y = true) : x.le y = true := by
  rw [le, ← lt, h, Bool.true_or]

theorem le_refl (hx : x.isNaN = false) : x.le x = true := by
  obtain ⟨a, ha⟩ := exists_place hx
  exact (le_iff ha ha).2 (Int.le_refl a)

theorem le_of_not_lt (hx : x.isNaN = false) (hy : y.isNaN = false) (h : ¬ x.lt y = true) :
    y.le x = true := by
  obtain ⟨a, ha⟩ := exists_place hx
  obtain ⟨b, hb⟩ := exists_place hy
  rw [lt_iff ha hb] at h
  exact (le_iff hb ha).2 (Int.not_lt.1 h)

def Picks (below : Binary64 → Binary64 → Bool) (pick : Binary64 → Binary64 → Binary64) : Prop :=
  ∀ {x y}, x.isNaN = false → y.isNaN = false →
    (pick x y = x ∨ pick x y = y) ∧ below x (pick x y) = true ∧ below y (pick x y) = true

theorem picks_max : Picks le max := by
  intro x y hx hy
  by_cases h : x.lt y = true
  · rw [max, if_pos h]
    exact ⟨Or.inr rfl, le_of_lt h, le_refl hy⟩
  · rw [max, if_neg h]
    exact ⟨Or.inl rfl, le_refl hx, le_of_not_lt hx hy h⟩

theorem picks_min : Picks (fun x y => y.le x) min := by
  intro x y hx hy
  by_cases h : y.lt x = true
  · rw [min, if_pos h]
    exact ⟨Or.inr rfl, le_of_lt h, le_refl hy⟩
  · rw [min, if_neg h]
    exact ⟨Or.inl rfl, le_refl hx, le_of_not_lt hy hx h⟩

end FieldFormula.Binary64
