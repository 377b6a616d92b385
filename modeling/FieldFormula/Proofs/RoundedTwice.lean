import FieldFormula.Proofs.CentSteps
import FieldFormula.Proofs.RoundedRange
import FieldFormula.ReturnType

/-!
Values shaped twice. A shape once given stays, but for some amounts between a tenth of `2 ^ 53` and
`2 ^ 50`. There the numbers are eighths; halves are rounded to an eighth beside them, and some
eighths to the half that they lie beside.
-/
namespace FieldFormula

namespace CentSteps
open Binary64

/- The last six binary digits of a count of steps decide, or as many as lie behind the point: a
multiple `x` of both powers of two is added behind each rounding. -/

section
variable {c d h j k t u x : Nat}

theorem halfUp_add (c m : Nat) : halfUp j (2 ^ j * c + m) = c + halfUp j m := by
  have hnum : 2 * (2 ^ j * c + m) + 2 ^ j = 2 * 2 ^ j * c + (2 * m + 2 ^ j) := by ring
  rw [halfUp, hnum, Nat.mul_add_div (by positivity), halfUp]

theorem cents_add (c k : Nat) : cents j (2 ^ j * c + k) = 100 * c + cents j k := by
  rw [cents, Nat.mul_add, Nat.mul_left_comm, halfUp_add, cents]

theorem nearest_add (hx : x = 2 ^ j * c) (hx' : x = 64 * d) (k : Nat) :
    nearest j (x + k) = x + nearest j k := by
  have hnum : 2 ^ j * (100 * c + cents j k) = 2 * (32 * d) * 100 + 2 ^ j * cents j k := by
    linarith
  have heven : 2 * (32 * d) = x := by omega
  rw [nearest, nearest, hx, cents_add, hnum, nearestEven_add_even _ _ (by decide), heven, hx]

theorem quotient_add (hx : x = 2 ^ j * c) (hx' : x = 64 * d) (ht : 2 * 2 ^ h ∣ t * 64)
    (ht' : 0 < t) (k : Nat) : quotient j h t (x + k) = x + quotient j h t k := by
  obtain ⟨m, hm⟩ := ht
  have hshift : 2 ^ j * (t * c) = 2 * (m * d) * 2 ^ h := by
    rw [Nat.mul_left_comm, ← hx, hx', ← Nat.mul_assoc t, hm]
    ring
  have hprod : t * (x + k) = 2 * (m * d) * 2 ^ h + t * k := by
    rw [← hshift, hx, Nat.mul_add, Nat.mul_left_comm]
  have hproduct : product j h t (x + k) = t * c + product j h t k := by
    rw [product, hprod, nearestEven_add_even _ _ (by positivity), Nat.add_mul, ← hshift, halfUp_add,
      product]
  have hnum : 2 ^ j * (t * c + product j h t k) = 2 * (32 * d) * t + 2 ^ j * product j h t k := by
    rw [Nat.mul_add, Nat.mul_left_comm, ← hx, hx']
    ring
  have heven : 2 * (32 * d) = x := by omega
  rw [quotient, quotient, hproduct, hnum, nearestEven_add_even _ _ ht', heven]

theorem step_add (hx : x = 2 ^ j * c) (hx' : x = 64 * d) (hu : u ≤ 1) (k : Nat) :
    step j u (x + k) = x + step j u k := by
  have hdvd : 2 ^ j ∣ x := ⟨c, hx⟩
  have hten : 2 * 2 ^ (3 + u) ∣ 10 * 64 := by
    rcases Nat.le_one_iff_eq_zero_or_eq_one.1 hu with rfl | rfl <;> decide
  have hhundred : 2 * 2 ^ (6 + u) ∣ 100 * 64 := by
    rcases Nat.le_one_iff_eq_zero_or_eq_one.1 hu with rfl | rfl <;> decide
  have hwhole : 2 ^ j ∣ x + k ↔ 2 ^ j ∣ k := Nat.dvd_add_right hdvd
  have hhalf : 2 ^ j ∣ 2 * (x + k) ↔ 2 ^ j ∣ 2 * k := by
    rw [Nat.mul_add]
    exact Nat.dvd_add_right (Nat.dvd_mul_left_of_dvd hdvd 2)
  have hmod : cents j (x + k) % 100 = cents j k % 100 := by rw [hx, cents_add, Nat.mul_add_mod]
  have hdiv : 2 ^ j * (cents j (x + k) / 100) = x + 2 ^ j * (cents j k / 100) := by
    rw [hx, cents_add, Nat.mul_add_div (by decide), Nat.mul_add]
  unfold step
  simp only [hwhole, hhalf, hmod, hdiv, nearest_add hx hx', quotient_add hx hx' hten (by decide),
    quotient_add hx hx' hhundred (by decide)]
  split_ifs <;> rfl

end

/-- Once rounded, `k` steps stay: they have not moved, or they would stay in either binade, or the
product remains in the upper one because the sum is the same. -/
def Stays (j u k : Nat) : Prop :=
  step j u k = k ∨ (∀ v < 2, step j v (step j u k) = step j u k) ∨
    u = 1 ∧ ¬ 2 ^ j ∣ 2 * k ∧ ¬ 2 ^ j ∣ 2 * step j u k ∧ nearest j (step j u k) = nearest j k ∧
      step j 1 (step j u k) = step j u k

instance (j u k : Nat) : Decidable (Stays j u k) := inferInstanceAs (Decidable (_ ∨ _))

/-- Eighths beside a half, which are rounded to it when the product is in the upper binade. -/
def Astray (j k : Nat) : Prop := j = 3 ∧ (k % 32 = 11 ∨ k % 32 = 21)

instance (j k : Nat) : Decidable (Astray j k) := inferInstanceAs (Decidable (_ ∧ _))

/- The digits that decide leave finitely many cases, which are computed. -/

theorem stays_of_lt : ∀ j < 10, ∀ u < 2, ∀ k < 64 * 2 ^ (j - 6), ¬ Astray j k → Stays j u k := by
  decide +kernel

theorem eighths_of_lt : ∀ k < 64, (Astray 3 k → nearest 3 k = k ∧ step 3 0 k = k ∧
      (step 3 1 k = k + 1 ∧ k % 32 = 11 ∨ step 3 1 k + 1 = k ∧ k % 32 = 21)) ∧
    (k % 8 = 4 → step 3 0 k = k ∧ step 3 1 k ≠ k) := by
  decide +kernel

section
variable {j k u : Nat}

theorem Stays.add {c d x : Nat} (hx : x = 2 ^ j * c) (hx' : x = 64 * d) (hu : u ≤ 1)
    (h : Stays j u k) : Stays j u (x + k) := by
  have hdvd : 2 ^ j ∣ x := ⟨c, hx⟩
  have hhalf : ∀ m, 2 ^ j ∣ 2 * (x + m) ↔ 2 ^ j ∣ 2 * m := by
    intro m
    rw [Nat.mul_add]
    exact Nat.dvd_add_right (Nat.dvd_mul_left_of_dvd hdvd 2)
  have hstep := step_add hx hx' hu k
  rcases h with h | h | ⟨rfl, hk, hs, hn, h⟩
  · exact Or.inl (by rw [hstep, h])
  · refine Or.inr (Or.inl fun v hv => ?_)
    rw [hstep, step_add hx hx' (by omega), h v hv]
  · refine Or.inr (Or.inr ⟨rfl, ?_, ?_, ?_, ?_⟩)
    · rwa [hhalf]
    · rwa [hstep, hhalf]
    · rw [hstep, nearest_add hx hx', nearest_add hx hx', hn]
    · rw [hstep, step_add hx hx' (by omega), h]

theorem stays (hj : j < 10) (hu : u < 2) (h : ¬ Astray j k) : Stays j u k := by
  have hperiod : 64 * 2 ^ (j - 6) = 2 ^ j * 2 ^ (6 - j) := by
    rw [← pow_add, show 64 = 2 ^ 6 from rfl, ← pow_add, show 6 + (j - 6) = j + (6 - j) by omega]
  have hx : 64 * 2 ^ (j - 6) * (k / (64 * 2 ^ (j - 6))) =
      2 ^ j * (2 ^ (6 - j) * (k / (64 * 2 ^ (j - 6)))) := by
    rw [hperiod, Nat.mul_assoc]
  have hx' := Nat.mul_assoc 64 (2 ^ (j - 6)) (k / (64 * 2 ^ (j - 6)))
  have hlow : k % (64 * 2 ^ (j - 6)) < 64 * 2 ^ (j - 6) := Nat.mod_lt _ (by positivity)
  rw [← Nat.div_add_mod k (64 * 2 ^ (j - 6))] at h ⊢
  refine (stays_of_lt j hj u hu _ hlow fun hlost => h ?_).add hx hx' (by omega)
  have hmod : ∀ m, (64 * 2 ^ (j - 6) * m + k % (64 * 2 ^ (j - 6))) % 32 =
      k % (64 * 2 ^ (j - 6)) % 32 := by
    intro m
    rw [show 64 * 2 ^ (j - 6) * m = 32 * (2 * 2 ^ (j - 6) * m) by ring, Nat.mul_add_mod]
  rwa [Astray, hmod]

theorem eighths (k : Nat) : (Astray 3 k → nearest 3 k = k ∧ step 3 0 k = k ∧
      (step 3 1 k = k + 1 ∧ k % 32 = 11 ∨ step 3 1 k + 1 = k ∧ k % 32 = 21)) ∧
    (k % 8 = 4 → step 3 0 k = k ∧ step 3 1 k ≠ k) := by
  have hx : 64 * (k / 64) = 2 ^ 3 * (8 * (k / 64)) := by omega
  have hk := Nat.div_add_mod k 64
  have hlow := eighths_of_lt (k % 64) (Nat.mod_lt _ (by decide))
  have h0 := step_add (u := 0) hx rfl (by decide) (k % 64)
  have h1 := step_add (u := 1) hx rfl (by decide) (k % 64)
  have hn := nearest_add hx rfl (k % 64)
  rw [hk] at h0 h1 hn
  unfold Astray at hlow ⊢
  omega

/-- Rounding steps a second time. From `2 ^ 55 / 5` eighths on the product with ten does not fit a
significand, so the half that an eighth beside it was rounded to is not kept. -/
theorem step_step_iff (hj : j < 10) :
    step j (upper j (step j (upper j k) k)) (step j (upper j k) k) = step j (upper j k) k ↔
      ¬ (Astray j k ∧ 2 ^ 55 < 5 * k) := by
  by_cases hk : Astray j k
  · obtain ⟨rfl, hmod⟩ := hk
    obtain ⟨hn, h0, h1⟩ := (eighths k).1 ⟨rfl, hmod⟩
    have hu : upper 3 k = if 100 * k < 2 ^ 59 then 0 else 1 := by rw [upper, if_neg (by omega), hn]
    have hnext : step 3 1 k % 8 = 4 ∧ (10 * step 3 1 k < 2 ^ 56 ↔ ¬ 2 ^ 55 < 5 * k) := by omega
    obtain ⟨hc0, hc1⟩ := (eighths (step 3 1 k)).2 hnext.1
    have hupper' : upper 3 (step 3 1 k) = if 10 * step 3 1 k < 2 ^ 56 then 0 else 1 := by
      rw [upper, if_pos (by omega)]
    by_cases hbig : 2 ^ 55 < 5 * k
    · refine iff_of_false ?_ fun h => h ⟨⟨rfl, hmod⟩, hbig⟩
      rw [hu, if_neg (by omega), hupper', if_neg (by omega)]
      exact hc1
    · refine iff_of_true ?_ fun h => hbig h.2
      rw [hu]
      split
      · next hlow' => rw [h0, hu, if_pos hlow', h0]
      · rw [hupper', if_pos (by omega), hc0]
  · refine iff_of_true ?_ fun h => hk h.1
    rcases stays hj (upper_lt j k) hk with h | h | ⟨hu, hhalf, hhalf', hn, h⟩
    · rw [h, h]
    · exact h _ (upper_lt _ _)
    · rw [upper, if_neg hhalf] at hu
      have hu' : upper j (step j (upper j k) k) = 1 := by
        rw [upper, if_neg hhalf', hn, hu]
      rw [hu', h]

end

end CentSteps

namespace Binary64

section
variable {n u v : Nat}

theorem RoundsTo.unique (hu : RoundsTo n u) (hv : RoundsTo n v) : u = v := by
  obtain ⟨h, hu', he⟩ := hu
  obtain ⟨_, hv', he'⟩ := hv
  rw [he, finite.injEq] at he'
  exact he'.2

theorem exists_roundsTo (h : Fits n) : ∃ u, RoundsTo n u := by
  obtain ⟨u, hu, he⟩ := exists_roundPlaces_eq_finite (p := 2) (by decide) h
  exact ⟨u, h, hu, he⟩

theorem decimals_of_nearest {c : Nat} (hc : c ≤ 2 ^ 50) (h0 : c ≠ 0) :
    decimals 2 (roundUnits (c * one) (10 ^ 2)) = c := by
  have hone := cast_one_pos
  have hlow : 2 ^ 52 ≤ c * one / 10 ^ 2 := by
    refine (Nat.le_div_iff_mul_le (by decide)).2
      ((mul_two_pow_le_one (by decide : 2 ≤ 22)).trans ?_)
    exact Nat.le_mul_of_pos_left one (Nat.pos_of_ne_zero h0)
  obtain ⟨hl, hr⟩ := abs_le.1 (abs_roundUnits_sub_le (by decide : 0 < 10 ^ 2) hlow)
  generalize roundUnits (c * one) (10 ^ 2) = u at *
  have hbound : (c : ℚ) * one ≤ 2 ^ 50 * one :=
    mul_le_mul_of_nonneg_right (by exact_mod_cast hc) hone.le
  push_cast at hl hr
  refine Nat.div_eq_of_lt_le ?_ ?_
  · have h : (c : ℚ) * (2 * one) ≤ 2 * (10 ^ 2 * u) + one := by linarith
    exact_mod_cast h
  · have h : (2 : ℚ) * (10 ^ 2 * u) + one < (c + 1) * (2 * one) := by linarith
    exact_mod_cast h

theorem roundsTo_zero : RoundsTo 0 0 := ⟨fits_zero, fits_zero, by decide +kernel⟩

theorem RoundsTo.again_of_few (hc : decimals 2 n ≤ 2 ^ 50) (hu : RoundsTo n u) : RoundsTo u u := by
  obtain ⟨h, hu', he⟩ := hu
  rw [roundCents, roundPlaces_of_decimals (by decide) hc (Or.inl (by decide))] at he
  split at he
  · rw [zero, finite.injEq] at he
    rw [← he.2]
    exact roundsTo_zero
  · next h0 =>
    have hcount : decimals 2 u = decimals 2 n := by
      rw [eq_roundUnits_of_ofUnits he, decimals_of_nearest hc h0]
    refine ⟨hu', hu', ?_⟩
    rw [roundCents, roundPlaces_of_decimals (by decide) (by rwa [hcount]) (Or.inl (by decide)),
      hcount, if_neg h0, he]

theorem exists_steps (h : Fits n) (hlow : 2 ^ 43 * one ≤ n) (hhigh : n < 2 ^ 52 * one) :
    ∃ i j k, one = 2 ^ j * 2 ^ i ∧ 1 ≤ j ∧ j ≤ 9 ∧ n = k * 2 ^ i ∧ 2 ^ 52 ≤ k ∧ k < 2 ^ 53 := by
  obtain ⟨o, ho, h1⟩ := exists_one
  have hlarge : 2 ^ 52 ≤ n := by
    rw [h1] at hlow
    calc 2 ^ 52 ≤ 2 ^ (43 + o) := Nat.pow_le_pow_right (by decide) (by omega)
      _ ≤ n := by rwa [pow_add]
  obtain ⟨i, hs, hl, hr⟩ := exists_spacing hlarge
  have hn := eq_mul_spacing h.1
  rw [hs] at hn
  have hp : 0 < 2 ^ i := by positivity
  rw [h1, ← pow_add] at hlow hhigh
  rw [← pow_add] at hl hr
  have hji := (Nat.pow_lt_pow_iff_right (by decide : 1 < 2)).1 (hlow.trans_lt hr)
  have hio := (Nat.pow_lt_pow_iff_right (by decide : 1 < 2)).1 (hl.trans_lt hhigh)
  refine ⟨i, o - i, n / 2 ^ i, ?_, by omega, by omega, hn, ?_, ?_⟩
  · rw [h1, ← pow_add, Nat.sub_add_cancel (by omega)]
  · rwa [Nat.le_div_iff_mul_le hp, ← pow_add]
  · rwa [Nat.div_lt_iff_lt_mul hp, ← pow_add]

/-- Eighths between a tenth of `2 ^ 53` and `2 ^ 50` that lie beside a half and are
rounded to it. -/
def BesideHalf (n : Nat) : Prop :=
  ∃ k, n = k * (one / 8) ∧ 2 ^ 55 < 5 * k ∧ k < 2 ^ 53 ∧ (k % 32 = 11 ∨ k % 32 = 21)

theorem exists_eighth : ∃ i, one = 2 ^ 3 * 2 ^ i ∧ one / 8 = 2 ^ i := by
  obtain ⟨o, ho, h1⟩ := exists_one
  have h8 : one = 2 ^ 3 * 2 ^ (o - 3) := by rw [h1, ← pow_add, Nat.add_sub_cancel' (by omega)]
  exact ⟨o - 3, h8, by rw [h8]; exact Nat.mul_div_cancel_left _ (by decide)⟩

theorem besideHalf_iff {i j k : Nat} (hone : one = 2 ^ j * 2 ^ i) (hlow : 2 ^ 52 ≤ k)
    (hhigh : k < 2 ^ 53) : BesideHalf (k * 2 ^ i) ↔ CentSteps.Astray j k ∧ 2 ^ 55 < 5 * k := by
  obtain ⟨e, he, h8⟩ := exists_eighth
  have hspacing : ∀ m f, 2 ^ 52 ≤ m → m < 2 ^ 53 → spacing (m * 2 ^ f) = 2 ^ f := fun m f hm hm' =>
    spacing_eq_two_pow (Nat.mul_le_mul_right _ hm) (Nat.mul_lt_mul_of_pos_right hm' (by positivity))
  rw [BesideHalf, h8]
  constructor
  · rintro ⟨m, hm, hfive, hlt, hmod⟩
    have hs := hspacing k i hlow hhigh
    rw [hm, hspacing m e (by omega) hlt] at hs
    rw [← hs] at hm hone
    obtain rfl := Nat.eq_of_mul_eq_mul_right (by positivity) hm
    rw [he] at hone
    have hj :=
      Nat.pow_right_injective (Nat.le_refl 2) (Nat.eq_of_mul_eq_mul_right (by positivity) hone)
    exact ⟨⟨hj.symm, hmod⟩, hfive⟩
  · rintro ⟨⟨rfl, hmod⟩, hfive⟩
    rw [he] at hone
    have hi := Nat.eq_of_mul_eq_mul_left (by decide) hone
    exact ⟨k, by rw [hi], hfive, hhigh, hmod⟩

theorem RoundsTo.again_iff (hu : RoundsTo n u) (hv : RoundsTo u v) : v = u ↔ ¬ BesideHalf n := by
  have h := hu.1
  have hone := Binary64.one_pos
  obtain ⟨e, he, h8⟩ := exists_eighth
  by_cases hlow : n < 2 ^ 43 * one
  · have hc : decimals 2 n ≤ 2 ^ 50 := by
      refine Nat.lt_succ_iff.1 ((Nat.div_lt_iff_lt_mul two_one_pos).2 ?_)
      omega
    refine iff_of_true ((hu.again_of_few hc).unique hv).symm ?_
    rintro ⟨k, hk, hfive, -⟩
    have hle := Nat.mul_le_mul_right (one / 8) (by omega : 2 ^ 52 ≤ k)
    omega
  · by_cases hhigh : 2 ^ 52 * one ≤ n
    · have hq : n / one * one = n := Nat.div_mul_cancel (one_dvd_of_le h.1 hhigh)
      have hwhole : RoundsTo n n := by
        rw [← hq] at h ⊢
        exact roundsTo_mul_one h
      obtain rfl := hu.unique hwhole
      refine iff_of_true (hv.unique hwhole) ?_
      rintro ⟨k, hk, -, hlt, -⟩
      have hle := Nat.mul_le_mul_right (one / 8) hlt.le
      omega
    · obtain ⟨i, j, k, hji, hj, hj', rfl, hkl, hkr⟩ :=
        exists_steps h (Nat.not_lt.1 hlow) (Nat.not_le.1 hhigh)
      have hfull : CentSteps.Full k := ⟨hkl, hkr.le⟩
      obtain rfl := hu.unique (CentSteps.roundsTo_step hji hj hj' hfull)
      have hnext := CentSteps.full_step (by omega : j ≤ 52) (CentSteps.upper_lt j k) hfull
      obtain rfl := hv.unique (CentSteps.roundsTo_step hji hj hj' hnext)
      rw [besideHalf_iff hji hkl hkr, ← CentSteps.step_step_iff (by omega)]
      exact Nat.mul_left_inj (by positivity)

theorem RoundsTo.signed (hu : RoundsTo n u) (s : Bool) (h : Fits n) :
    ∃ hu', (finite s n h).roundCents = if u = 0 then zero false else finite s u hu' := by
  obtain ⟨_, hu', he⟩ := hu
  rw [roundCents] at he ⊢
  refine ⟨hu', ?_⟩
  rw [roundPlaces_signed, he, isZero, neg, Bool.not_false]
  simp only [decide_eq_true_eq]
  cases s <;> rfl

theorem roundCents_roundCents_iff (x : Binary64) :
    x.roundCents.roundCents = x.roundCents ↔ ¬ ∃ s n h, x = finite s n h ∧ BesideHalf n := by
  cases x with
  | nan => exact iff_of_true rfl (by rintro ⟨s, n, h, hx, -⟩; cases hx)
  | infinity t => exact iff_of_true rfl (by rintro ⟨s, n, h, hx, -⟩; cases hx)
  | finite s n h =>
    obtain ⟨u, hu⟩ := exists_roundsTo h
    obtain ⟨hu', he⟩ := hu.signed s h
    obtain ⟨v, hv⟩ := exists_roundsTo hu'
    have hexists : (∃ s' n' h', finite s n h = finite s' n' h' ∧ BesideHalf n') ↔ BesideHalf n := by
      constructor
      · rintro ⟨s', n', h', hx, hb⟩
        rwa [(finite.inj hx).2]
      · exact fun hb => ⟨s, n, h, rfl, hb⟩
    rw [hexists, ← hu.again_iff hv, he]
    by_cases h0 : u = 0
    · subst h0
      rw [if_pos rfl]
      exact iff_of_true (by decide +kernel) (hv.unique roundsTo_zero)
    · obtain ⟨hv', hev⟩ := hv.signed s hu'
      rw [if_neg h0, hev]
      by_cases hv0 : v = 0
      · rw [if_pos hv0, zero, finite.injEq]
        exact iff_of_false (fun hz => h0 hz.2.symm) (fun hz => h0 (hz.symm.trans hv0))
      · rw [if_neg hv0, finite.injEq]
        exact and_iff_right rfl

end

end Binary64

namespace ReturnType
open Binary64

/-- Shaping a value twice is shaping it once, for every return type and every value
but the amounts beside a half. -/
theorem shape_shape_iff (r : ReturnType) (v : Value) : r.shape (r.shape v) = r.shape v ↔
    ¬ ∃ s n h, r = currency ∧ v = .number (finite s n h) ∧ BesideHalf n := by
  by_cases hr : r = currency
  · subst hr
    cases v with
    | number x =>
      have hshape : currency.shape (currency.shape (.number x)) = currency.shape (.number x) ↔
          x.roundCents.roundCents = x.roundCents := Iff.of_eq (Value.number.injEq ..)
      rw [hshape, roundCents_roundCents_iff]
      simp only [true_and, Value.number.injEq]
    | boolean b => exact iff_of_true rfl (by rintro ⟨s, n, h, -, hv, -⟩; cases hv)
    | text t => exact iff_of_true rfl (by rintro ⟨s, n, h, -, hv, -⟩; cases hv)
  · refine iff_of_true ?_ (by rintro ⟨s, n, h, hcurrency, -⟩; exact hr hcurrency)
    cases r with
    | currency => exact absurd rfl hr
    | number => cases v <;> rfl
    | boolean => rfl
    | text => rfl
    | date => rfl

/-- A thousand trillion, one and three eighths: rounded to the half, and from there
to five eighths. -/
theorem shape_shape_ne : ∃ v, v = .number (ofBits 0x430c6bf52634000b) ∧
    currency.shape v = .number (ofBits 0x430c6bf52634000c) ∧
    currency.shape (currency.shape v) = .number (ofBits 0x430c6bf52634000d) ∧
    currency.shape (currency.shape v) ≠ currency.shape v :=
  ⟨_, rfl, by decide +kernel, by decide +kernel, by decide +kernel⟩

end ReturnType

end FieldFormula
