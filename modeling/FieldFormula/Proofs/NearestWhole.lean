import FieldFormula.Function
import FieldFormula.Proofs.NumberText
import FieldFormula.Proofs.ScaledRounding

/-!
Rounding to whole numbers by adding a half. The sum is rounded itself, but its whole part is that of
the exact sum, except at the number just below a half, where the sum is rounded to one.
-/
namespace FieldFormula

namespace Binary64

def belowHalf : Nat := one / 2 - one / 2 ^ 54

/- One in the last binary digits of the number just below a half. -/
theorem exists_one_eq_mul : ∃ k, k = 1020 ∧ one = 2 ^ 54 * 2 ^ k := ⟨1020, rfl, by decide +kernel⟩

section
variable {n : Nat}

/-- From a half up to `2 ^ 52` a half is added exactly, unless the sum reaches the next binade.
There the whole part is the power of two between. -/
theorem roundUnits_add_half_of_le (hn : n % spacing n = 0) (hlow : one / 2 ≤ n)
    (hhigh : n < 2 ^ 52 * one) : roundUnits (n + one / 2) 1 / one = (n + one / 2) / one := by
  obtain ⟨k, -, h1⟩ := exists_one_eq_mul
  have hpos : 0 < 2 ^ k := by positivity
  obtain ⟨j, hs, hjlow, hjhigh⟩ := exists_spacing (n := n) (by omega)
  rw [hs] at hn
  have hkj : k < j := by
    by_contra hle
    have hpow : 2 ^ j ≤ 2 ^ k := Nat.pow_le_pow_right (by decide) (Nat.not_lt.1 hle)
    omega
  have hjk : j < 54 + k := by
    have hlt : 2 ^ j < 2 ^ (54 + k) := by
      rw [pow_add]
      omega
    exact (Nat.pow_lt_pow_iff_right (by decide)).1 hlt
  have hhalf : 2 ^ j ∣ one / 2 := by
    have hpow : one / 2 = 2 ^ (53 + k) := by
      rw [h1, pow_add]
      omega
    rw [hpow]
    exact Nat.pow_dvd_pow 2 (by omega)
  by_cases hsame : n + one / 2 < 2 ^ 53 * 2 ^ j
  · have hgrid : (n + one / 2) % spacing (n + one / 2) = 0 := by
      rw [spacing_eq_two_pow (by omega) hsame]
      exact Nat.mod_eq_zero_of_dvd (Nat.dvd_add (Nat.dvd_of_mod_eq_zero hn) hhalf)
    have hround := roundUnits_mul hgrid Nat.one_pos
    rw [Nat.mul_one] at hround
    rw [hround]
  · have hspace : spacing (n + one / 2) = 2 ^ (j + 1) := by
      refine spacing_eq_two_pow ?_ ?_
      all_goals
        rw [pow_succ]
        omega
    have hnext : 2 ^ 53 * 2 ^ j = 2 ^ (j - (k + 1)) * one := by
      have he : 53 + j = j - (k + 1) + (54 + k) := by omega
      rw [h1, ← pow_add, ← pow_add, ← pow_add, he]
    have hge : 2 ^ 53 * 2 ^ j ≤ roundUnits (n + one / 2) 1 :=
      le_roundUnits Nat.one_pos (mod_spacing_mul_pow (Nat.le_refl _) j) (by omega)
    have hle := (two_mul_roundUnits_mul_bounds (n + one / 2) Nat.one_pos).1
    rw [Nat.div_one, hspace, pow_succ] at hle
    have hstep : 2 ^ j ≤ one / 2 := Nat.le_of_dvd (by omega) hhalf
    have hwhole :
        ∀ m, 2 ^ 53 * 2 ^ j ≤ m → m < 2 ^ 53 * 2 ^ j + one → m / one = 2 ^ (j - (k + 1)) := by
      intro m hm hm'
      rw [hnext] at hm hm'
      exact Nat.div_eq_of_lt_le hm (by rwa [Nat.succ_mul])
    rw [hwhole _ hge (by omega), hwhole _ (by omega) (by omega)]

/-- Below a half the sum stays below one, for the last number before one is as far
from it as two before a half. -/
theorem roundUnits_add_half_of_lt (hn : n % spacing n = 0) (hlt : n < one / 2)
    (hne : n ≠ belowHalf) : roundUnits (n + one / 2) 1 / one = (n + one / 2) / one := by
  obtain ⟨k, -, h1⟩ := exists_one_eq_mul
  have hpos : 0 < 2 ^ k := by positivity
  have hle : n + one / 2 ≤ (2 ^ 53 - 1) * 2 ^ (k + 1) := by
    rw [pow_succ']
    by_contra hgt
    have hs : spacing n = 2 ^ k := spacing_eq_two_pow (by omega) (by omega)
    rw [hs] at hn
    obtain ⟨j, rfl⟩ := Nat.dvd_of_mod_eq_zero hn
    have hj : 2 ^ k * (2 ^ 53 - 2) < 2 ^ k * j := by omega
    have hj' : 2 ^ k * j < 2 ^ k * 2 ^ 53 := by omega
    have hlast : j = 2 ^ 53 - 1 := by
      have hmore := Nat.lt_of_mul_lt_mul_left hj
      have hless := Nat.lt_of_mul_lt_mul_left hj'
      omega
    apply hne
    rw [belowHalf, hlast]
    omega
  have hround : roundUnits (n + one / 2) 1 ≤ (2 ^ 53 - 1) * 2 ^ (k + 1) :=
    roundUnits_le Nat.one_pos (mod_spacing_mul_pow (by decide) (k + 1)) (by rwa [Nat.mul_one])
  rw [pow_succ'] at hround hle
  rw [Nat.div_eq_of_lt (by omega), Nat.div_eq_of_lt (by omega)]

end

section
variable {m n : Nat} {s : Bool}

theorem ofNat_one : ofNat 1 = finite false (1 * one) (fits_mul_one (by decide)) := ofNat_of_fits _

theorem mul_ofNat_one (h : Fits n) : (finite s n h).mul (ofNat 1) = finite s n h := by
  rw [ofNat_one, mul, Nat.one_mul, Bool.bne_false]
  exact ofUnits_of_fits s h Binary64.one_pos

theorem div_ofNat_one (h : Fits n) : (finite s n h).div (ofNat 1) = finite s n h := by
  have h1 : 1 * one ≠ 0 := Nat.mul_ne_zero Nat.one_ne_zero Binary64.one_pos.ne'
  rw [ofNat_one, div, if_neg h1, Nat.one_mul, Bool.bne_false]
  exact ofUnits_of_fits s h Binary64.one_pos

theorem add_of_sign (hm : Fits m) (hn : Fits n) (h : 0 < m + n) :
    (finite s m hm).add (finite s n hn) = ofUnits s (m + n) 1 := by
  cases s with
  | false => exact add_finite h
  | true =>
    have hs : scaled true m + scaled true n = -((m + n : Nat) : Int) := by simp [scaled]; omega
    have h0 : -((m + n : Nat) : Int) ≠ 0 := by omega
    have hneg : decide (-((m + n : Nat) : Int) < 0) = true := decide_eq_true (by omega)
    rw [add, hs, ofScaled, if_neg h0, hneg, Int.natAbs_neg, Int.natAbs_natCast]

end

end Binary64

namespace Function
open Binary64

theorem half_eq : (ofNat 1).div (ofNat 2) = finite false (one / 2) (by decide +kernel) := by
  decide +kernel

theorem factor_eq : (ofNat 10).powInt 0 = ofNat 1 := powNat_ten (Nat.zero_le _)

section
variable {n : Nat} {s : Bool}

theorem le_leading (h : Fits n) :
    (ofNat leading).le (finite s n h).abs = decide (2 ^ 52 * one ≤ n) := by
  have hl : leading = 2 ^ 52 := rfl
  rw [hl, ofNat_of_fits (fits_mul_one (by decide)), Bool.eq_iff_iff]
  simp only [le, Binary64.abs, compare?, scaled, Option.some.injEq, Bool.or_eq_true,
    decide_eq_true_eq, compare_lt_iff_lt, compare_eq_iff_eq, Bool.false_eq_true, if_false,
    Nat.cast_lt, Nat.cast_inj]
  exact Nat.le_iff_lt_or_eq.symm

theorem zero_le_finite (h : Fits n) (h0 : n ≠ 0) :
    (Binary64.zero false).le (finite s n h) = !s := by
  rw [Bool.eq_iff_iff]
  cases s <;> simp [le, Binary64.zero, compare?, scaled, compare_lt_iff_lt] <;> omega

theorem roundTo_zero_eq (h : Fits n) (h0 : n ≠ 0) (hn : n < 2 ^ 52 * one) :
    ∃ hq, roundTo 0 (finite s n h) = finite s (roundUnits (n + one / 2) 1 / one * one) hq := by
  have hone := Binary64.one_pos
  obtain ⟨o, ho, h1⟩ := exists_one
  have hsum : n + one / 2 ≤ 2 ^ 53 * one := by omega
  have hround : roundUnits (n + one / 2) 1 ≤ 2 ^ 53 * one := by
    refine roundUnits_le Nat.one_pos ?_ (by rwa [Nat.mul_one])
    rw [h1]
    exact mod_spacing_mul_pow (Nat.le_refl _) o
  have hfits : Fits (roundUnits (n + one / 2) 1) := by
    rw [h1, ← pow_add] at hsum
    refine fits_roundUnits (log2_lt_of_le_pow ?_ (by omega : 53 + o < 2045))
    rwa [Nat.div_one, h1]
  have hq : Fits (roundUnits (n + one / 2) 1 / one * one) :=
    fits_mul_one (Nat.div_le_of_le_mul (by rwa [Nat.mul_comm]))
  have hwhole : ∀ t, ofUnits t (roundUnits (n + one / 2) 1 / one * one) 1 = finite t _ hq := by
    intro t
    have hu := ofUnits_of_fits t hq Nat.one_pos
    rwa [Nat.mul_one] at hu
  refine ⟨hq, ?_⟩
  have hz : (ofNat 1).isZero = false := by decide +kernel
  unfold roundTo
  dsimp only
  rw [factor_eq, half_eq, mul_ofNat_one, le_leading, zero_le_finite h h0, hz,
    decide_eq_false (by omega : ¬ 2 ^ 52 * one ≤ n), isFinite]
  cases s with
  | false =>
    simp only [Bool.not_true, Bool.not_false, Bool.false_eq_true, if_false, if_true]
    rw [add_of_sign h _ (by omega), ofUnits_eq_finite false hfits, Binary64.floor]
    simp only [Bool.false_eq_true, if_false]
    rw [hwhole, div_ofNat_one]
  | true =>
    simp only [Bool.not_true, Bool.false_eq_true, if_false]
    rw [sub, neg, Bool.not_false, add_of_sign h _ (by omega), ofUnits_eq_finite true hfits,
      Binary64.ceil]
    simp only [if_true]
    rw [hwhole, div_ofNat_one]

theorem roundTo_zero_of_le (h : Fits n) (hn : 2 ^ 52 * one ≤ n) :
    roundTo 0 (finite s n h) = finite s n h := by
  unfold roundTo
  dsimp only
  rw [factor_eq, mul_ofNat_one, le_leading, decide_eq_true hn]
  rfl

end

/-- No whole number is nearer to `n` units than `q`, and none that is as near is larger. -/
def NearestWhole (q n : Nat) : Prop :=
  ∀ k : Nat, |(q : ℚ) - n / one| ≤ |(k : ℚ) - n / one| ∧
    (|(q : ℚ) - n / one| = |(k : ℚ) - n / one| → k ≤ q)

theorem NearestWhole.unique {p q n : Nat} (hp : NearestWhole p n) (hq : NearestWhole q n) :
    p = q := by
  have hpq := (hp q).1.antisymm (hq p).1
  exact Nat.le_antisymm ((hq p).2 hpq.symm) ((hp q).2 hpq)

section
variable {n : Nat}

theorem nearestWhole_add_half (n : Nat) : NearestWhole ((n + one / 2) / one) n := by
  have hpos := cast_one_pos
  obtain ⟨m, -, h1⟩ := exists_one_eq_mul
  have hmod := Nat.mod_lt (n + one / 2) Binary64.one_pos
  have hdiv := Nat.div_add_mod (n + one / 2) one
  generalize (n + one / 2) / one = q at hdiv
  have hlow : (q : ℚ) ≤ n / one + 1 / 2 := by
    have h : 2 * (one * q) ≤ 2 * n + one := by omega
    have h' : (2 : ℚ) * (one * q) ≤ 2 * n + one := by exact_mod_cast h
    rw [div_add_div _ _ hpos.ne' two_ne_zero, le_div_iff₀ (mul_pos hpos two_pos)]
    linarith
  have hhigh : (n : ℚ) / one + 1 / 2 < q + 1 := by
    have h : 2 * n + one < 2 * (one * q) + 2 * one := by omega
    have h' : (2 : ℚ) * n + one < 2 * (one * q) + 2 * one := by exact_mod_cast h
    rw [div_add_div _ _ hpos.ne' two_ne_zero, div_lt_iff₀ (mul_pos hpos two_pos)]
    linarith
  have hnear : |(q : ℚ) - n / one| ≤ 1 / 2 := abs_le.2 ⟨by linarith, by linarith⟩
  intro k
  rcases Nat.lt_trichotomy k q with hk | rfl | hk
  · have hk' : (k : ℚ) + 1 ≤ q := by exact_mod_cast hk
    have hfar : 1 / 2 ≤ |(k : ℚ) - n / one| := le_abs.2 (Or.inr (by linarith))
    exact ⟨hnear.trans hfar, fun _ => hk.le⟩
  · exact ⟨le_rfl, fun _ => le_rfl⟩
  · have hk' : (q : ℚ) + 1 ≤ k := by exact_mod_cast hk
    have hfar : 1 / 2 < |(k : ℚ) - n / one| := lt_abs.2 (Or.inl (by linarith))
    exact ⟨hnear.trans hfar.le, fun h => absurd h (hnear.trans_lt hfar).ne⟩

end

/-- Rounding without digits gives the nearest whole number, halves going away from
zero, for all numbers but the one just below a half, which becomes one. Numbers from
`2 ^ 52` on stay as they are. -/
theorem round_nearest_whole (s : Bool) (n : Nat) (h : Fits n) :
    ∃ t q hq, round.apply [.number (finite s n h)] = .ok (.number (finite t (q * one) hq)) ∧
      (q ≠ 0 → t = s) ∧ (n ≠ belowHalf → NearestWhole q n) ∧ (n = belowHalf → q = 1) ∧
      (2 ^ 52 * one ≤ n → q * one = n) := by
  have hround : round.apply [.number (finite s n h)] = .ok (.number (roundTo 0 (finite s n h))) :=
    rfl
  rw [hround]
  have hone := Binary64.one_pos
  have hgrid := h.1
  obtain ⟨k, -, h1⟩ := exists_one_eq_mul
  have hk : 0 < 2 ^ k := by positivity
  have hb : 0 < belowHalf ∧ belowHalf < one / 2 := by
    rw [belowHalf]
    omega
  by_cases h0 : n = 0
  · subst h0
    have hzero : ∀ t, round.apply [.number (Binary64.zero t)] =
        .ok (.number (finite false (0 * one) (fits_mul_one (Nat.zero_le _)))) := by
      decide +kernel
    have hnearest := nearestWhole_add_half 0
    rw [Nat.zero_add, Nat.div_eq_of_lt (by omega)] at hnearest
    refine ⟨false, 0, _, hzero s, fun hq => absurd rfl hq,
      fun _ => hnearest, ?_, fun _ => Nat.zero_mul one⟩
    omega
  by_cases hbig : 2 ^ 52 * one ≤ n
  · have hdvd := Nat.div_mul_cancel (one_dvd_of_le hgrid hbig)
    have hwhole : (n + one / 2) / one = n / one := by
      rw [← hdvd, Nat.mul_comm (n / one), Nat.mul_add_div hone,
        Nat.div_eq_of_lt (by omega : one / 2 < one), Nat.add_zero, Nat.mul_div_cancel_left _ hone]
    have hnearest := nearestWhole_add_half n
    rw [hwhole] at hnearest
    refine ⟨s, n / one, by rwa [hdvd], ?_,
      fun _ => rfl, fun _ => hnearest, fun hn => ?_, fun _ => hdvd⟩
    · rw [roundTo_zero_of_le h hbig]
      simp only [hdvd]
    · omega
  obtain ⟨hq, hr⟩ := roundTo_zero_eq (s := s) h h0 (Nat.not_le.1 hbig)
  refine ⟨s, _, hq, by rw [hr], fun _ => rfl, fun hn => ?_, fun hn => ?_, fun hn => absurd hn hbig⟩
  · have hsum : roundUnits (n + one / 2) 1 / one = (n + one / 2) / one := by
      by_cases hlow : one / 2 ≤ n
      · exact roundUnits_add_half_of_le hgrid hlow (Nat.not_le.1 hbig)
      · exact roundUnits_add_half_of_lt hgrid (Nat.not_le.1 hlow) hn
    rw [hsum]
    exact nearestWhole_add_half n
  · rw [hn]
    decide +kernel

theorem round_nearest_whole_of_minus_five_halves : ∃ h h',
    round.apply [.number (finite true (5 * (one / 2)) h)] =
      .ok (.number (finite true (3 * one) h')) := by
  have h5 : Fits (5 * (one / 2)) := by decide +kernel
  obtain ⟨t, q, hq, hr, ht, hnear, -, -⟩ := round_nearest_whole true (5 * (one / 2)) h5
  have h3 : (5 * (one / 2) + one / 2) / one = 3 := by decide +kernel
  have hthree := nearestWhole_add_half (5 * (one / 2))
  rw [h3] at hthree
  obtain rfl := (hnear (by decide +kernel)).unique hthree
  obtain rfl := ht (by decide)
  exact ⟨h5, hq, hr⟩

/-- The number just below a half is nearer to zero, and rounded to one. -/
theorem round_below_half_not_nearest :
    ∃ h : Fits belowHalf, ofBits 0x3fdfffffffffffff = finite false belowHalf h ∧
    round.apply [.number (finite false belowHalf h)] = .ok (.number (ofNat 1)) ∧
      NearestWhole 0 belowHalf ∧ ¬ NearestWhole 1 belowHalf := by
  have h0 : (belowHalf + one / 2) / one = 0 := by decide +kernel
  have hzero := nearestWhole_add_half belowHalf
  rw [h0] at hzero
  refine ⟨by decide +kernel, by decide +kernel, by decide +kernel, hzero, fun hone => ?_⟩
  exact absurd (hone.unique hzero) (by decide)

end Function
end FieldFormula
