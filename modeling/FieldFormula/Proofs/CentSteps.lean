import FieldFormula.Proofs.RoundPlaces

/-!
Rounding to cents where numbers have up to nine binary digits behind the point. Each rounding
on the way is one of whole numbers of steps, a step being the distance to the next number, so
the last digits of the significand decide.
-/
namespace FieldFormula

namespace CentSteps
open Binary64

/- Counts of steps, `2 ^ j` of which make one. -/

def halfUp (j m : Nat) : Nat := (2 * m + 2 ^ j) / (2 * 2 ^ j)

def cents (j k : Nat) : Nat := halfUp j (100 * k)

def nearest (j k : Nat) : Nat := nearestEven (2 ^ j * cents j k) 100

def product (j h t k : Nat) : Nat := halfUp j (nearestEven (t * k) (2 ^ h) * 2 ^ h)

def quotient (j h t k : Nat) : Nat := nearestEven (2 ^ j * product j h t k) t

/-- A significand with all its digits, or the power of two behind these. -/
structure Full (k : Nat) : Prop where
  low : 2 ^ 52 ≤ k
  high : k ≤ 2 ^ 53

section
variable {a h j k m p t : Nat}

theorem le_halfUp (h : a * 2 ^ j ≤ m) : a ≤ halfUp j m := by
  have hp : 0 < 2 ^ j := by positivity
  refine (Nat.le_div_iff_mul_le (by positivity)).2 ?_
  linarith

theorem halfUp_le (h : m ≤ a * 2 ^ j) : halfUp j m ≤ a := by
  have hp : 0 < 2 ^ j := by positivity
  refine Nat.lt_succ_iff.1 ((Nat.div_lt_iff_lt_mul (by positivity)).2 ?_)
  linarith

/- Powers of two on the way are not passed. -/

theorem cents_bounds (hj : j ≤ 52) (hk : Full k) :
    100 * 2 ^ (52 - j) ≤ cents j k ∧ cents j k ≤ 100 * 2 ^ (53 - j) := by
  refine ⟨le_halfUp ?_, halfUp_le ?_⟩
  · rw [Nat.mul_assoc, pow_sub_mul_pow 2 hj]
    exact Nat.mul_le_mul_left 100 hk.low
  · rw [Nat.mul_assoc, pow_sub_mul_pow 2 (by omega)]
    exact Nat.mul_le_mul_left 100 hk.high

theorem product_bounds (hh : h ≤ 52) (hj : j ≤ 52) (hk : Full k) :
    t * 2 ^ (52 - j) ≤ product j h t k ∧ product j h t k ≤ t * 2 ^ (53 - j) := by
  have hdvd : ∀ e, 52 ≤ e → 2 ^ h ∣ t * 2 ^ e := fun e he =>
    Nat.dvd_mul_left_of_dvd (Nat.pow_dvd_pow 2 (hh.trans he)) t
  refine ⟨le_halfUp ?_, halfUp_le ?_⟩
  · rw [Nat.mul_assoc, pow_sub_mul_pow 2 hj]
    exact le_nearestEven_mul (by positivity) (hdvd 52 (by decide)) (Nat.mul_le_mul_left t hk.low)
  · rw [Nat.mul_assoc, pow_sub_mul_pow 2 (by omega)]
    exact nearestEven_mul_le (by positivity) (hdvd 53 (by decide)) (Nat.mul_le_mul_left t hk.high)

theorem mul_bounds (hj : j ≤ 52) (hp : t * 2 ^ (52 - j) ≤ p ∧ p ≤ t * 2 ^ (53 - j)) :
    2 ^ 52 * t ≤ 2 ^ j * p ∧ 2 ^ j * p ≤ 2 ^ 53 * t := by
  rw [← pow_mul_pow_sub 2 hj, ← pow_mul_pow_sub 2 (by omega : j ≤ 53), Nat.mul_assoc, Nat.mul_assoc,
    Nat.mul_comm _ t, Nat.mul_comm _ t]
  exact ⟨Nat.mul_le_mul_left _ hp.1, Nat.mul_le_mul_left _ hp.2⟩

theorem full_nearestEven (ht : 0 < t) (hj : j ≤ 52)
    (hp : t * 2 ^ (52 - j) ≤ p ∧ p ≤ t * 2 ^ (53 - j)) :
    Full (nearestEven (2 ^ j * p) t) :=
  ⟨le_nearestEven_of_le ht (mul_bounds hj hp).1, nearestEven_le_of_le ht (mul_bounds hj hp).2⟩

theorem full_nearest (hj : j ≤ 52) (hk : Full k) : Full (nearest j k) :=
  full_nearestEven (by decide) hj (cents_bounds hj hk)

theorem full_quotient (ht : 0 < t) (hh : h ≤ 52) (hj : j ≤ 52) (hk : Full k) :
    Full (quotient j h t k) :=
  full_nearestEven ht hj (product_bounds hh hj hk)

end

section
variable {h i j k t : Nat} (hone : one = 2 ^ j * 2 ^ i)
include hone

theorem halfUp_eq (m : Nat) : (2 * (m * 2 ^ i) + one) / (2 * one) = halfUp j m := by
  have hnum : 2 * (m * 2 ^ i) + one = (2 * m + 2 ^ j) * 2 ^ i := by
    rw [hone]
    ring
  rw [hnum, hone, ← Nat.mul_assoc, Nat.mul_div_mul_right _ _ (by positivity), halfUp]

theorem decimals_mul (k : Nat) : decimals 2 (k * 2 ^ i) = cents j k := by
  rw [decimals, ← Nat.mul_assoc (10 ^ 2), halfUp_eq hone]
  rfl

theorem round_product (hlow : 2 ^ 52 * 2 ^ h ≤ t * k) (hhigh : t * k < 2 ^ 53 * 2 ^ h) :
    (2 * roundUnits (t * (k * 2 ^ i)) 1 + one) / (2 * one) = product j h t k := by
  have hp : 0 < 2 ^ i := by positivity
  have hs : spacing (t * (k * 2 ^ i)) = 2 ^ i * 2 ^ h := by
    rw [← pow_add]
    refine spacing_eq_two_pow ?_ ?_
    · calc 2 ^ 52 * 2 ^ (i + h) = 2 ^ 52 * 2 ^ h * 2 ^ i := by ring
        _ ≤ t * k * 2 ^ i := Nat.mul_le_mul_right _ hlow
        _ = t * (k * 2 ^ i) := Nat.mul_assoc ..
    · calc t * (k * 2 ^ i) = t * k * 2 ^ i := (Nat.mul_assoc ..).symm
        _ < 2 ^ 53 * 2 ^ h * 2 ^ i := Nat.mul_lt_mul_of_pos_right hhigh hp
        _ = 2 ^ 53 * 2 ^ (i + h) := by ring
  have hr : roundUnits (t * (k * 2 ^ i)) 1 = nearestEven (t * k) (2 ^ h) * 2 ^ h * 2 ^ i := by
    rw [roundUnits, Nat.div_one, hs, Nat.one_mul, show t * (k * 2 ^ i) = 2 ^ i * (t * k) by ring,
      nearestEven_mul_mul _ hp]
    ring
  rw [hr, halfUp_eq hone, product]

theorem roundUnits_quotient {p : Nat} (ht : 0 < t) (hlow : 2 ^ 52 * t ≤ 2 ^ j * p)
    (hhigh : 2 ^ j * p ≤ 2 ^ 53 * t) :
    roundUnits (p * one) t = nearestEven (2 ^ j * p) t * 2 ^ i := by
  have hp : 0 < 2 ^ i := by positivity
  have hn : p * one = 2 ^ i * (2 ^ j * p) := by
    rw [hone]
    ring
  rcases Nat.lt_or_eq_of_le hhigh with hlt | he
  · have hs : spacing (p * one / t) = 2 ^ i := by
      refine spacing_eq_two_pow ((Nat.le_div_iff_mul_le ht).2 ?_) ((Nat.div_lt_iff_lt_mul ht).2 ?_)
      · calc 2 ^ 52 * 2 ^ i * t = 2 ^ i * (2 ^ 52 * t) := by ring
          _ ≤ 2 ^ i * (2 ^ j * p) := Nat.mul_le_mul_left _ hlow
          _ = p * one := hn.symm
      · calc p * one = 2 ^ i * (2 ^ j * p) := hn
          _ < 2 ^ i * (2 ^ 53 * t) := Nat.mul_lt_mul_of_pos_left hlt hp
          _ = 2 ^ 53 * 2 ^ i * t := by ring
    rw [roundUnits, hs, hn, Nat.mul_comm t, nearestEven_mul_mul _ hp]
  · -- the power of two belongs to the next binade already, and is exact
    have hn' : p * one = 2 ^ 53 * 2 ^ i * t := by
      rw [hn, he]
      ring
    rw [he, hn', roundUnits_mul (mod_spacing_mul_pow (Nat.le_refl _) i) ht, nearestEven_mul _ ht]

end

end CentSteps

namespace Binary64

theorem fits_round {n : Nat} (h : Fits n) : Fits ((2 * n + one) / (2 * one) * one) := by
  have hpos := Binary64.one_pos
  by_cases hbig : 2 ^ 52 * one ≤ n
  · have hdvd := Nat.mul_div_cancel' (one_dvd_of_le h.1 hbig)
    have hdiv : (2 * (one * (n / one)) + one) / (2 * one) = n / one := by
      rw [← Nat.mul_assoc, Nat.mul_add_div two_one_pos, Nat.div_eq_of_lt (by omega : one < 2 * one),
        Nat.add_zero]
    rw [hdvd] at hdiv
    rwa [hdiv, Nat.mul_comm, hdvd]
  · refine fits_mul_one (Nat.lt_succ_iff.1 ((Nat.div_lt_iff_lt_mul two_one_pos).2 ?_))
    omega

theorem toBinary64_of_sum {e m v : Nat} {hv : Fits v} (he : e ≤ 22) (hle : v ≤ 2 ^ 53 * one)
    (hz : ((ofNat (m % 10 ^ e)).div (ofNat (10 ^ e))).isZero = false)
    (hsum : (ofNat (m / 10 ^ e)).add ((ofNat (m % 10 ^ e)).div (ofNat (10 ^ e))) =
      finite false v hv) :
    ScaledDecimal.toBinary64 ⟨m, e⟩ =
      ofUnits false ((2 * roundUnits (10 ^ e * v) 1 + one) / (2 * one) * one) (10 ^ e) := by
  obtain ⟨o, ho, h1⟩ := exists_one
  have hten : 10 ^ e ≤ 2 ^ 74 := (Nat.pow_le_pow_right (by decide) he).trans (by decide)
  have hq : Fits (roundUnits (10 ^ e * v) 1) := by
    refine fits_roundUnits (log2_lt_of_le_pow (j := 127 + o) ?_ (by omega))
    calc 10 ^ e * v / 1 = 10 ^ e * v := Nat.div_one _
      _ ≤ 2 ^ 74 * (2 ^ 53 * one) := Nat.mul_le_mul hten hle
      _ = 2 ^ (127 + o) := by
        rw [h1]
        ring
  have hproduct :
      (finite false v hv).mul (ofNat (10 ^ e)) = finite false (roundUnits (10 ^ e * v) 1) hq := by
    have hmul : v * (10 ^ e * one) = one * (10 ^ e * v) := by ring
    have hscale := ofUnits_mul_mul false (10 ^ e * v) 1 Binary64.one_pos
    rw [Nat.mul_one] at hscale
    rw [ofNat_of_fits (fits_ten_pow he), mul, hmul, bne_self_eq_false, hscale, ofUnits_eq_finite]
  have hround :
      (finite false (roundUnits (10 ^ e * v) 1) hq).round = finite false _ (fits_round hq) := by
    have hwhole := ofUnits_of_fits false (fits_round hq) Nat.one_pos
    rwa [Nat.mul_one] at hwhole
  unfold ScaledDecimal.toBinary64
  dsimp only
  rw [Nat.pow_eq, powNat_ten he, hz, if_neg Bool.false_ne_true, hsum, hproduct, hround,
    ofNat_of_fits (fits_ten_pow he), div_finite (by positivity)]

theorem floor_decimals (p n : Nat) : ⌊(10 : ℚ) ^ p * (n / one) + 1 / 2⌋₊ = decimals p n := by
  have h0 := share_nonneg p n
  have h1 := share_lt_one p n
  have hc : (0 : ℚ) ≤ decimals p n := Nat.cast_nonneg _
  rw [ten_pow_mul_add_half, Nat.floor_eq_iff (by linarith)]
  constructor <;> linarith

def RoundsTo (n u : Nat) : Prop := ∃ h hu, (finite false n h).roundCents = finite false u hu

theorem roundsTo_of_toBinary64 {n u : Nat} {d : ScaledDecimal} {hu : Fits u} (hn : Fits n)
    (hof : ScaledDecimal.ofUnits? n = some d) (hto : (d.round 2).toBinary64 = finite false u hu)
    (h0 : u ≠ 0) : RoundsTo n u := by
  refine ⟨hn, hu, ?_⟩
  rw [roundCents, roundPlaces_of_some hof hto, isZero, decide_eq_false h0,
    if_neg Bool.false_ne_true, if_neg Bool.false_ne_true]

theorem roundsTo_mul_one {q : Nat} (h : Fits (q * one)) : RoundsTo (q * one) (q * one) := by
  refine ⟨h, h, ?_⟩
  rw [roundCents, roundPlaces_whole]
  split
  · next hq =>
    have h0 : q * one = 0 := by rw [hq, Nat.zero_mul]
    generalize q * one = n at *
    subst h0
    rfl
  · rfl

end Binary64

namespace ScaledDecimal
open Binary64

theorem round_of_exact {c e n p : Nat} (hp : p ≤ e) (hn : n * 2 ^ e = c * one) :
    round p ⟨c * 5 ^ e, e⟩ = ⟨decimals p n, p⟩ := by
  have hone := cast_one_pos
  have hvalue : (⟨c * 5 ^ e, e⟩ : ScaledDecimal).value = n / one := by
    have hn' : (n : ℚ) * 2 ^ e = c * one := by exact_mod_cast hn
    have hten : (10 : ℚ) ^ e = 2 ^ e * 5 ^ e := by rw [← mul_pow]; norm_num
    rw [value, hten, div_eq_div_iff (by positivity) hone.ne', Nat.cast_mul, Nat.cast_pow,
      Nat.cast_ofNat]
    calc (c : ℚ) * 5 ^ e * one = c * one * 5 ^ e := mul_right_comm ..
      _ = n * (2 ^ e * 5 ^ e) := by rw [← hn', mul_assoc]
  have hscale : (round p ⟨c * 5 ^ e, e⟩).scale = p := by
    unfold round
    split
    · exact Nat.le_antisymm ‹_› hp
    · rfl
  have hmantissa := (round_spec p ⟨c * 5 ^ e, e⟩).2
  rw [hscale, Nat.sub_self, Nat.pow_zero, Nat.mul_one, hvalue, floor_decimals] at hmantissa
  rw [← hmantissa]
  exact congrArg (ScaledDecimal.mk _) hscale

end ScaledDecimal

namespace CentSteps
open Binary64

section
variable {h i j k : Nat} (hone : one = 2 ^ j * 2 ^ i)
include hone

theorem add_eq : j + i = 1074 := by
  obtain ⟨o, ho, h1⟩ := exists_one
  rw [h1, ← pow_add] at hone
  rw [← Nat.pow_right_injective (Nat.le_refl 2) hone, ho]

theorem fits_steps (hk : k ≤ 2 ^ 53) : Fits (k * 2 ^ i) := by
  have hi := add_eq hone
  exact fits_mul_pow hk (by omega)

theorem log2_steps_le (hj : 1 ≤ j) (hk : k ≤ 2 ^ 53) : (k * 2 ^ i).log2 ≤ 1126 := by
  have hi := add_eq hone
  have hle : k * 2 ^ i ≤ 2 ^ (53 + i) := by
    rw [pow_add]
    exact Nat.mul_le_mul_right _ hk
  exact Nat.le_of_lt_succ (log2_lt_of_le_pow hle (by omega))

theorem roundsTo_of_sum {e m n : Nat} {d : ScaledDecimal} {hk : Fits (k * 2 ^ i)} (hn : Fits n)
    (hof : ScaledDecimal.ofUnits? n = some d) (hd : d.round 2 = ⟨m, e⟩) (he : e ≤ 22) (hj : j ≤ 52)
    (hh : h ≤ 52)
    (hfull : Full k)
    (hslow : 2 ^ 52 * 2 ^ h ≤ 10 ^ e * k) (hshigh : 10 ^ e * k < 2 ^ 53 * 2 ^ h)
    (hz : ((ofNat (m % 10 ^ e)).div (ofNat (10 ^ e))).isZero = false)
    (hsum : (ofNat (m / 10 ^ e)).add ((ofNat (m % 10 ^ e)).div (ofNat (10 ^ e))) =
      finite false (k * 2 ^ i) hk) :
    RoundsTo n (quotient j h (10 ^ e) k * 2 ^ i) := by
  have hten : 0 < 10 ^ e := by positivity
  have hquotient := full_quotient hten hh hj hfull
  obtain ⟨hpl, hpu⟩ := mul_bounds hj (product_bounds (t := 10 ^ e) hh hj hfull)
  have hfit := fits_steps hone hquotient.high
  have hle : k * 2 ^ i ≤ 2 ^ 53 * one := by
    rw [hone]
    exact Nat.mul_le_mul hfull.high (Nat.le_mul_of_pos_left _ (by positivity))
  have hto : (d.round 2).toBinary64 = finite false (quotient j h (10 ^ e) k * 2 ^ i) hfit := by
    rw [hd, toBinary64_of_sum he hle hz hsum, round_product hone hslow hshigh]
    exact ofUnits_eq_of_roundUnits false hfit (roundUnits_quotient hone hten hpl hpu)
  have hpos : 0 < quotient j h (10 ^ e) k := Nat.lt_of_lt_of_le (by decide) hquotient.low
  exact roundsTo_of_toBinary64 hn hof hto (Nat.mul_ne_zero hpos.ne' (by positivity))

theorem roundsTo_of_half (hj : 1 ≤ j) (hj' : j ≤ 52) (hh : h ≤ 52) (hk : Full k)
    (hhalf : 2 ^ j ∣ 2 * k) (hwhole : ¬ 2 ^ j ∣ k)
    (hslow : 2 ^ 52 * 2 ^ h ≤ 10 * k) (hshigh : 10 * k < 2 ^ 53 * 2 ^ h) :
    RoundsTo (k * 2 ^ i) (quotient j h 10 k * 2 ^ i) := by
  have hlow := hk.low
  have hhigh := hk.high
  have hfit := fits_steps hone hhigh
  obtain ⟨c, hc⟩ := hhalf
  obtain ⟨w, rfl⟩ : Odd c := by
    rw [← Nat.not_even_iff_odd]
    rintro ⟨b, rfl⟩
    exact hwhole ⟨b, by linarith⟩
  have hn : k * 2 ^ i * 2 ^ 1 = (2 * w + 1) * one := by
    calc k * 2 ^ i * 2 ^ 1 = 2 * k * 2 ^ i := by ring
      _ = (2 * w + 1) * one := by
        rw [hc, hone]
        ring
  have hw : 2 * w + 1 ≤ 2 ^ 53 := by
    have hle := Nat.le_mul_of_pos_left (2 * w + 1) (by positivity : 0 < 2 ^ (j - 1))
    have hpow : 2 ^ j = 2 * 2 ^ (j - 1) := by rw [← pow_succ', Nat.sub_add_cancel hj]
    rw [hpow] at hc
    linarith
  have hlim : ScaledDecimal.limit = 2 ^ 96 := rfl
  have hof :=
    ScaledDecimal.ofUnits?_odd hfit.1 (log2_steps_le hone hj hhigh) (by decide : 1 ≤ 28) (by omega)
    (by omega) hn
  have hround : ScaledDecimal.round 2 ⟨(2 * w + 1) * 5 ^ 1, 1⟩ = ⟨(2 * w + 1) * 5 ^ 1, 1⟩ :=
    if_pos (show 1 ≤ 2 by decide)
  have hfraction : (ofNat 5).div (ofNat (10 ^ 1)) = finite false (one / 2) (by decide +kernel) := by
    decide +kernel
  have heven : one = 2 * (2 ^ (j - 1) * 2 ^ i) := by
    rw [← Nat.mul_assoc, ← pow_succ', Nat.sub_add_cancel hj, hone]
  have hsum : w * one + one / 2 = k * 2 ^ i * 1 := by
    have htwice : 2 * (k * 2 ^ i) = 2 * (w * one) + one := by linarith
    omega
  have hpos : 0 < w * one + one / 2 := by
    rw [hsum, Nat.mul_one]
    exact Nat.mul_pos (by omega) (by positivity)
  have hmod : (2 * w + 1) * 5 ^ 1 % 10 ^ 1 = 5 := by omega
  have hdiv : (2 * w + 1) * 5 ^ 1 / 10 ^ 1 = w := by omega
  have hz : ((ofNat ((2 * w + 1) * 5 ^ 1 % 10 ^ 1)).div (ofNat (10 ^ 1))).isZero = false := by
    rw [hmod]
    decide +kernel
  have hadd : (ofNat ((2 * w + 1) * 5 ^ 1 / 10 ^ 1)).add
      ((ofNat ((2 * w + 1) * 5 ^ 1 % 10 ^ 1)).div (ofNat (10 ^ 1))) =
        finite false (k * 2 ^ i) hfit := by
    rw [hmod, hdiv, hfraction, ofNat_of_fits (fits_mul_one (by omega)), add_finite hpos, hsum]
    exact ofUnits_of_fits false hfit Nat.one_pos
  have hresult := roundsTo_of_sum hone (h := h) hfit hof hround (by decide) hj' hh hk
    (by rwa [pow_one]) (by rwa [pow_one]) hz hadd
  rwa [pow_one] at hresult

theorem exists_digits (h : ¬ 2 ^ j ∣ 2 * k) :
    ∃ e c, 2 ≤ e ∧ e ≤ j ∧ c % 2 = 1 ∧ c ≤ k ∧ k * 2 ^ i * 2 ^ e = c * one := by
  have hk : k ≠ 0 := by
    rintro rfl
    exact h (Nat.dvd_zero _)
  obtain ⟨a, c, hc, rfl⟩ := Nat.exists_eq_two_pow_mul_odd hk
  have ha : a + 1 < j := by
    by_contra hle
    rw [← Nat.mul_assoc, ← pow_succ'] at h
    exact h (Nat.dvd_mul_right_of_dvd (Nat.pow_dvd_pow 2 (Nat.not_lt.1 hle)) c)
  have hpow : 2 ^ j = 2 ^ a * 2 ^ (j - a) := by rw [← pow_add, Nat.add_sub_cancel' (by omega)]
  refine ⟨j - a, c, by omega, by omega, Nat.odd_iff.1 hc,
    Nat.le_mul_of_pos_left c (by positivity), ?_⟩
  rw [hone, hpow]
  ring

theorem exists_round (hj : j ≤ 9) (hhigh : k ≤ 2 ^ 53) (h : ¬ 2 ^ j ∣ 2 * k) :
    ∃ d, ScaledDecimal.ofUnits? (k * 2 ^ i) = some d ∧ d.round 2 = ⟨cents j k, 2⟩ := by
  obtain ⟨e, c, he, hej, hodd, hc, hn⟩ := exists_digits hone h
  have hlim : c * 5 ^ e < ScaledDecimal.limit :=
    (Nat.mul_le_mul (hc.trans hhigh) (Nat.pow_le_pow_right (by decide) (hej.trans hj))).trans_lt
      (by decide)
  have hfit := fits_steps hone hhigh
  refine ⟨_, ScaledDecimal.ofUnits?_odd hfit.1 (log2_steps_le hone (by omega) hhigh)
    (by omega) hodd hlim hn, ?_⟩
  rw [ScaledDecimal.round_of_exact he hn, decimals_mul hone]

theorem roundsTo_of_whole (hj : j ≤ 9) (hk : Full k) (h : ¬ 2 ^ j ∣ 2 * k)
    (hc : cents j k % 100 = 0) : RoundsTo (k * 2 ^ i) (2 ^ j * (cents j k / 100) * 2 ^ i) := by
  obtain ⟨d, hof, hd⟩ := exists_round hone hj hk.high h
  obtain ⟨hl, hu⟩ := cents_bounds (by omega : j ≤ 52) hk
  have hle : cents j k / 100 ≤ 2 ^ 53 :=
    (Nat.div_le_of_le_mul hu).trans (Nat.pow_le_pow_right (by decide) (Nat.sub_le _ _))
  have hge : 2 ^ (52 - j) ≤ cents j k / 100 := (Nat.le_div_iff_mul_le (by decide)).2 (by linarith)
  have hunits : 2 ^ j * (cents j k / 100) * 2 ^ i = cents j k / 100 * one := by
    rw [hone]
    ring
  have hfit : Fits (cents j k / 100 * one) := fits_mul_one hle
  have hto : (d.round 2).toBinary64 = finite false (cents j k / 100 * one) hfit := by
    rw [hd]
    have hz := ScaledDecimal.isZero_div (k := 2) (by decide)
    unfold ScaledDecimal.toBinary64
    dsimp only
    rw [Nat.pow_eq, show 10 ^ 2 = 100 from rfl] at *
    rw [hc, hz, if_pos rfl, ofNat_of_fits hfit]
  have hpos : 0 < 2 ^ (52 - j) := by positivity
  have hne : cents j k / 100 * one ≠ 0 := Nat.mul_ne_zero (by omega) Binary64.one_pos.ne'
  rw [hunits]
  exact roundsTo_of_toBinary64 (fits_steps hone hk.high) hof hto hne

theorem exists_fraction {f : Nat} (hj : j ≤ 9) (h0 : f ≠ 0) (hlt : f < 100) :
    ∃ u h, (ofNat f).div (ofNat 100) = finite false u h ∧ u ≠ 0 ∧ 100 * u ≤ f * one + 2 ^ i ∧
      f * one ≤ 100 * u + 2 ^ i := by
  obtain ⟨u, hu, he, hlarge, hnear⟩ :=
    ScaledDecimal.exists_fraction (k := 2) (by decide) (Nat.pos_of_ne_zero h0) hlt (by omega)
  have hpow : 2 ^ j ≤ 2 ^ 9 := Nat.pow_le_pow_right (by decide) hj
  have hsmall : f * one ≤ 100 * (2 ^ 9 * 2 ^ i) := by
    rw [hone]
    exact Nat.mul_le_mul hlt.le (Nat.mul_le_mul_right _ hpow)
  have hsmall' : (f : ℚ) * one ≤ 100 * (2 ^ 9 * 2 ^ i) := by exact_mod_cast hsmall
  have hpos : (0 : ℚ) < 2 ^ i := by positivity
  obtain ⟨hl, hr⟩ := abs_le.1 hnear
  refine ⟨u, hu, he, by omega, ?_, ?_⟩
  · have h : (100 : ℚ) * u ≤ f * one + 2 ^ i := by linarith
    exact_mod_cast h
  · have h : (f : ℚ) * one ≤ 100 * u + 2 ^ i := by linarith
    exact_mod_cast h

/-- No cents lie halfway between two numbers, so the sum of whole part and fraction
is the number nearest to them. -/
theorem roundUnits_sum {u : Nat} (hj : 2 ≤ j) (hj' : j ≤ 9) (hk : Full k)
    (hc : cents j k % 100 ≠ 0) (hu : 100 * u ≤ cents j k % 100 * one + 2 ^ i)
    (hu' : cents j k % 100 * one ≤ 100 * u + 2 ^ i) :
    roundUnits (cents j k / 100 * one + u) 1 = nearest j k * 2 ^ i := by
  obtain ⟨hl, hr⟩ := cents_bounds (by omega : j ≤ 52) hk
  obtain ⟨hnl, hnr⟩ := two_mul_nearestEven_mul_bounds (2 ^ j * cents j k) (by decide : 0 < 100)
  rw [← nearest] at hnl hnr
  generalize cents j k = c at *
  generalize nearest j k = s at *
  have hdiv := Nat.div_add_mod c 100
  have hmod : c % 100 < 100 := Nat.mod_lt c (Nat.succ_pos 99)
  generalize c / 100 = w at *
  generalize c % 100 = f at *
  obtain ⟨a, ha⟩ : ∃ a, 2 ^ j = 4 * a := Nat.pow_dvd_pow 2 hj
  have hpos : 0 < 2 ^ i := by positivity
  have hgap : 4 * 2 ^ i ≤ one := by
    rw [hone]
    exact Nat.mul_le_mul_right _ (Nat.pow_le_pow_right (n := 2) (by decide) hj)
  -- a multiple of four is not halfway between multiples of a hundred
  have hnear : 100 * s ≤ 2 ^ j * c + 48 ∧ 2 ^ j * c ≤ 100 * s + 48 := by
    rw [ha, Nat.mul_assoc] at hnl hnr ⊢
    omega
  have hunits : 2 ^ j * c * 2 ^ i = 100 * (w * one) + f * one := by
    rw [← hdiv, hone]
    ring
  have hsl := Nat.mul_le_mul_right (2 ^ i) hnear.1
  have hsr := Nat.mul_le_mul_right (2 ^ i) hnear.2
  rw [Nat.add_mul, hunits, Nat.mul_assoc] at hsl hsr
  have hwl : 2 ^ 52 * 2 ^ i ≤ w * one := by
    have hw : 2 ^ (52 - j) ≤ w := by omega
    calc 2 ^ 52 * 2 ^ i = 2 ^ (52 - j) * one := by
          rw [hone, ← Nat.mul_assoc, pow_sub_mul_pow 2 (by omega : j ≤ 52)]
      _ ≤ w * one := Nat.mul_le_mul_right _ hw
  have hwr : (w + 1) * one ≤ 2 ^ 53 * 2 ^ i := by
    have hw : w + 1 ≤ 2 ^ (53 - j) := by omega
    calc (w + 1) * one ≤ 2 ^ (53 - j) * one := Nat.mul_le_mul_right _ hw
      _ = 2 ^ 53 * 2 ^ i := by rw [hone, ← Nat.mul_assoc, pow_sub_mul_pow 2 (by omega : j ≤ 53)]
  have hfone : f * one ≤ 99 * one := Nat.mul_le_mul_right _ (by omega)
  rw [Nat.add_one_mul] at hwr
  have hs : spacing (w * one + u) = 2 ^ i := spacing_eq_two_pow (by omega) (by omega)
  rw [roundUnits, Nat.div_one, hs, Nat.one_mul, nearestEven_of_near (a := s) (by omega) (by omega)]

theorem exists_sum (hj : 2 ≤ j) (hj' : j ≤ 9) (hk : Full k) (hc : cents j k % 100 ≠ 0) :
    ((ofNat (cents j k % 10 ^ 2)).div (ofNat (10 ^ 2))).isZero = false ∧
      ∃ h, (ofNat (cents j k / 10 ^ 2)).add ((ofNat (cents j k % 10 ^ 2)).div (ofNat (10 ^ 2))) =
        finite false (nearest j k * 2 ^ i) h := by
  obtain ⟨u, hu, he, h0, hl, hr⟩ := exists_fraction hone hj' hc (Nat.mod_lt _ (by decide))
  have hfit := fits_steps hone (full_nearest (by omega : j ≤ 52) hk).high
  have hw : cents j k / 100 ≤ 2 ^ 53 :=
    (Nat.div_le_of_le_mul (cents_bounds (by omega : j ≤ 52) hk).2).trans
      (Nat.pow_le_pow_right (by decide) (Nat.sub_le _ _))
  rw [show 10 ^ 2 = 100 from rfl, he, isZero, decide_eq_false h0, ofNat_of_fits (fits_mul_one hw),
    add_finite (by omega)]
  exact ⟨rfl, hfit, ofUnits_eq_of_roundUnits false hfit (roundUnits_sum hone hj hj' hk hc hl hr)⟩

theorem roundsTo_of_cents (hj : 2 ≤ j) (hj' : j ≤ 9) (hh : h ≤ 52) (hk : Full k)
    (hhalf : ¬ 2 ^ j ∣ 2 * k) (hc : cents j k % 100 ≠ 0)
    (hslow : 2 ^ 52 * 2 ^ h ≤ 100 * nearest j k) (hshigh : 100 * nearest j k < 2 ^ 53 * 2 ^ h) :
    RoundsTo (k * 2 ^ i) (quotient j h 100 (nearest j k) * 2 ^ i) := by
  obtain ⟨d, hof, hd⟩ := exists_round hone hj' hk.high hhalf
  obtain ⟨hz, hfit, hsum⟩ := exists_sum hone hj hj' hk hc
  have hnearest := full_nearest (by omega : j ≤ 52) hk
  have hten : 10 ^ 2 = 100 := rfl
  have hresult := roundsTo_of_sum hone (h := h) (fits_steps hone hk.high) hof hd (by decide)
    (by omega) hh hnearest (by rwa [hten]) (by rwa [hten]) hz hsum
  rwa [hten] at hresult

end

/-- The steps that `k` steps are rounded to; `u` is one if the product with a power of ten reaches
the upper of the two binades that it can lie in. -/
def step (j u k : Nat) : Nat :=
  if 2 ^ j ∣ k then k
  else if 2 ^ j ∣ 2 * k then quotient j (3 + u) 10 k
  else if cents j k % 100 = 0 then 2 ^ j * (cents j k / 100)
  else quotient j (6 + u) 100 (nearest j k)

def upper (j k : Nat) : Nat :=
  if 2 ^ j ∣ 2 * k then if 10 * k < 2 ^ 56 then 0 else 1
  else if 100 * nearest j k < 2 ^ 59 then 0 else 1

section
variable {i j k : Nat}

theorem upper_lt (j k : Nat) : upper j k < 2 := by
  unfold upper
  split_ifs <;> decide

theorem full_step {u : Nat} (hj : j ≤ 52) (hu : u < 2) (hk : Full k) : Full (step j u k) := by
  unfold step
  split_ifs
  · exact hk
  · exact full_quotient (by decide) (by omega) hj hk
  · obtain ⟨hl, hr⟩ := cents_bounds hj hk
    refine ⟨?_, ?_⟩
    · rw [← pow_mul_pow_sub 2 hj]
      exact Nat.mul_le_mul_left _ (by omega)
    · rw [← pow_mul_pow_sub 2 (by omega : j ≤ 53)]
      exact Nat.mul_le_mul_left _ (by omega)
  · exact full_quotient (by decide) (by omega) hj (full_nearest hj hk)

theorem roundsTo_step (hone : one = 2 ^ j * 2 ^ i) (hj : 1 ≤ j) (hj' : j ≤ 9) (hk : Full k) :
    RoundsTo (k * 2 ^ i) (step j (upper j k) k * 2 ^ i) := by
  have hlow := hk.low
  have hhigh := hk.high
  unfold step
  split_ifs with hwhole hhalf hc
  · obtain ⟨a, rfl⟩ := hwhole
    have hunits : 2 ^ j * a * 2 ^ i = a * one := by
      rw [hone]
      ring
    have hfit := fits_steps hone hhigh
    rw [hunits] at hfit ⊢
    exact roundsTo_mul_one hfit
  · rw [upper, if_pos hhalf]
    split
    · exact roundsTo_of_half hone hj (by omega) (by decide) hk hhalf hwhole (by omega) (by omega)
    · exact roundsTo_of_half hone hj (by omega) (by decide) hk hhalf hwhole (by omega) (by omega)
  · exact roundsTo_of_whole hone hj' hk hhalf hc
  · have hj2 : 2 ≤ j := by
      by_contra hlt
      obtain rfl : j = 1 := by omega
      exact hhalf (Nat.dvd_mul_right 2 k)
    obtain ⟨hl, hr⟩ := full_nearest (by omega : j ≤ 52) hk
    rw [upper, if_neg hhalf]
    split
    · exact roundsTo_of_cents hone hj2 hj' (by decide) hk hhalf hc (by omega) (by omega)
    · exact roundsTo_of_cents hone hj2 hj' (by decide) hk hhalf hc (by omega) (by omega)

end

end CentSteps

end FieldFormula
