import FieldFormula.Proofs.ScaledDecimal
import Mathlib.Data.Rat.Floor

/-!
Rounding a scaled decimal, and the way back to binary64. Whole part and fraction are put together
in three roundings; up to `2 ^ 50` decimals these together stay below half a decimal, so the
number nearest to the decimal comes out.
-/
namespace FieldFormula

namespace ScaledDecimal
open Binary64

theorem floor_add_half (n : Nat) {d : Nat} (hd : 0 < d) :
    ⌊(n : ℚ) / d + 1 / 2⌋₊ = n / d + if d ≤ 2 * (n % d) then 1 else 0 := by
  have hd' : (0 : ℚ) < d := by exact_mod_cast hd
  have hlt : ((n % d : Nat) : ℚ) / d < 1 := by
    rw [div_lt_one hd']
    exact_mod_cast Nat.mod_lt n hd
  have hpos : (0 : ℚ) ≤ (n % d : Nat) / d := by positivity
  rw [cast_div_eq n hd, Nat.floor_eq_iff (by positivity), Nat.cast_add]
  split
  · next h =>
    have hr : (1 : ℚ) / 2 ≤ (n % d : Nat) / d := by
      rw [div_le_div_iff₀ two_pos hd']
      exact_mod_cast (by omega : 1 * d ≤ n % d * 2)
    rw [Nat.cast_one]
    constructor <;> linarith
  · next h =>
    have hr : ((n % d : Nat) : ℚ) / d < 1 / 2 := by
      rw [div_lt_div_iff₀ hd' two_pos]
      exact_mod_cast (by omega : n % d * 2 < 1 * d)
    rw [Nat.cast_zero]
    constructor <;> linarith

theorem round_spec (p : Nat) (d : ScaledDecimal) : (d.round p).scale ≤ p ∧
    (d.round p).mantissa * 10 ^ (p - (d.round p).scale) = ⌊10 ^ p * d.value + 1 / 2⌋₊ := by
  unfold round
  split
  · next h =>
    refine ⟨h, ?_⟩
    have hv : (10 : ℚ) ^ p * d.value = (d.mantissa * 10 ^ (p - d.scale) : Nat) / (1 : Nat) := by
      have hp : (10 : ℚ) ^ p = 10 ^ (p - d.scale) * 10 ^ d.scale := by
        rw [← pow_add, Nat.sub_add_cancel h]
      rw [value, hp]
      push_cast
      field_simp
    rw [hv, floor_add_half _ Nat.one_pos]
    simp [Nat.mod_one]
  · next h =>
    refine ⟨le_rfl, ?_⟩
    have hv : (10 : ℚ) ^ p * d.value = d.mantissa / (10 ^ (d.scale - p) : Nat) := by
      have hp : (10 : ℚ) ^ d.scale = 10 ^ (d.scale - p) * 10 ^ p := by
        rw [← pow_add, Nat.sub_add_cancel (by omega)]
      rw [value, hp]
      push_cast
      field_simp
    rw [hv, floor_add_half _ (by positivity), Nat.sub_self, Nat.pow_zero, Nat.mul_one]
    rfl

end ScaledDecimal

namespace Binary64

theorem powNat_ten {k : Nat} (h : k ≤ 22) : (ofNat 10).powNat k = ofNat (10 ^ k) := by
  have hall : ∀ k < 23, (ofNat 10).powNat k = ofNat (10 ^ k) := by decide +kernel
  exact hall k (by omega)

theorem fits_ten_pow {k : Nat} (h : k ≤ 22) : Fits (10 ^ k * one) := by
  obtain ⟨o, ho, h1⟩ := exists_one
  have hfive : 5 ^ k ≤ 2 ^ 53 := Nat.le_trans (Nat.pow_le_pow_right (by decide) h) (by decide)
  have hten : 10 ^ k * one = 5 ^ k * 2 ^ (k + o) := by
    rw [h1, Nat.pow_add, ← Nat.mul_assoc, ← Nat.mul_pow]
  rw [hten]
  exact fits_mul_pow hfive (by omega)

theorem mul_two_pow_le_one {k : Nat} (h : k ≤ 22) : 2 ^ 52 * 10 ^ k ≤ one := by
  obtain ⟨o, ho, h1⟩ := exists_one
  calc 2 ^ 52 * 10 ^ k
    _ ≤ 2 ^ 52 * 10 ^ 22 := Nat.mul_le_mul_left _ (Nat.pow_le_pow_right (by decide) h)
    _ ≤ 2 ^ 200 := by norm_num
    _ ≤ one := by
      rw [h1]
      exact Nat.pow_le_pow_right (by decide) (by omega)

theorem exists_ofUnits {n d : Nat} (s : Bool) (hd : 0 < d) (hn : 2 ^ 52 * d ≤ n)
    (hbound : n ≤ 2 ^ 100 * one * d) :
    ∃ u h, ofUnits s n d = finite s u h ∧ 2 ^ 52 ≤ u ∧ |(u : ℚ) - n / d| ≤ n / d / 2 ^ 53 := by
  obtain ⟨o, ho, h1⟩ := exists_one
  have hlow : 2 ^ 52 ≤ n / d := (Nat.le_div_iff_mul_le hd).2 hn
  have hhigh : n / d ≤ 2 ^ (100 + o) := by
    rw [pow_add, ← h1]
    rw [Nat.mul_comm (2 ^ 100 * one)] at hbound
    exact Nat.div_le_of_le_mul hbound
  have hf := fits_roundUnits (log2_lt_of_le_pow (k := 2045) hhigh (by omega))
  have he := abs_roundUnits_sub_le hd hlow
  have hu : 2 ^ 52 < roundUnits n d + 1 := by
    have hx : ((2 ^ 52 : Nat) : ℚ) ≤ n / d := le_trans (by exact_mod_cast hlow) Nat.cast_div_le
    have hr : ((2 ^ 52 : Nat) : ℚ) < roundUnits n d + 1 := by
      push_cast at hx ⊢
      rw [abs_le] at he
      linarith
    exact_mod_cast hr
  exact ⟨_, hf, ofUnits_eq_finite s hf, Nat.le_of_lt_succ hu, he⟩

theorem add_finite {m n : Nat} {hm : Fits m} {hn : Fits n} (h : 0 < m + n) :
    (finite false m hm).add (finite false n hn) = ofUnits false (m + n) 1 := by
  have hs : scaled false m + scaled false n = ((m + n : Nat) : Int) := by simp [scaled]
  have h0 : ((m + n : Nat) : Int) ≠ 0 := by omega
  have hneg : decide (((m + n : Nat) : Int) < 0) = false := decide_eq_false (by omega)
  rw [add, hs, ofScaled, if_neg h0, hneg, Int.natAbs_natCast]

theorem div_finite {m n : Nat} {hm : Fits (m * one)} {hn : Fits (n * one)} (h : 0 < n) :
    (finite false (m * one) hm).div (finite false (n * one) hn) = ofUnits false (m * one) n := by
  have h0 : n * one ≠ 0 := Nat.mul_ne_zero h.ne' Binary64.one_pos.ne'
  rw [div, if_neg h0, Nat.mul_comm (m * one), Nat.mul_comm n]
  exact ofUnits_mul_mul _ _ _ Binary64.one_pos

end Binary64

namespace ScaledDecimal
open Binary64

section
variable {k w f u v m : Nat}

theorem exists_fraction (hk : k ≤ 22) (hf : 0 < f) (hlt : f < 10 ^ k) (hfit : f ≤ 2 ^ 53) :
    ∃ u h, (ofNat f).div (ofNat (10 ^ k)) = finite false u h ∧ 2 ^ 52 ≤ u ∧
      |(u : ℚ) - f * one / 10 ^ k| ≤ f * one / 10 ^ k / 2 ^ 53 := by
  have hpos : 0 < 10 ^ k := by positivity
  have hone := mul_two_pow_le_one hk
  have hlow : 2 ^ 52 * 10 ^ k ≤ f * one := Nat.le_trans hone (Nat.le_mul_of_pos_left _ hf)
  have hhigh : f * one ≤ 2 ^ 100 * one * 10 ^ k := by
    rw [Nat.mul_right_comm]
    exact Nat.mul_le_mul_right _ (Nat.le_trans hlt.le (Nat.le_mul_of_pos_left _ (by decide)))
  obtain ⟨u, h, hu, hlarge, he⟩ := exists_ofUnits false hpos hlow hhigh
  refine ⟨u, h, ?_, hlarge, by exact_mod_cast he⟩
  rw [ofNat_of_fits (fits_mul_one hfit), ofNat_of_fits (fits_ten_pow hk), div_finite hpos, hu]

theorem exists_sum (hw : w ≤ 2 ^ 50) (hlt : f < 10 ^ k) (hlarge : 2 ^ 52 ≤ u) {h : Fits u}
    (he : |(u : ℚ) - f * one / 10 ^ k| ≤ f * one / 10 ^ k / 2 ^ 53) :
    ∃ v h', (ofNat w).add (finite false u h) = finite false v h' ∧ 2 ^ 52 ≤ v ∧
      |(v : ℚ) * 10 ^ k - (w * 10 ^ k + f : Nat) * one| ≤
        9 / 4 * ((w * 10 ^ k + f : Nat) * one) / 2 ^ 53 := by
  have hten : (0 : ℚ) < 10 ^ k := by positivity
  have hone := cast_one_pos
  have hfrac : (f : ℚ) * one / 10 ^ k ≤ one := by
    have hf : (f : ℚ) ≤ 10 ^ k := by exact_mod_cast hlt.le
    rw [div_le_iff₀ hten, mul_comm]
    exact mul_le_mul_of_nonneg_left hf hone.le
  have hfrac0 : (0 : ℚ) ≤ f * one / 10 ^ k :=
    div_nonneg (mul_nonneg (Nat.cast_nonneg f) hone.le) hten.le
  have hwhole0 : (0 : ℚ) ≤ w * one := mul_nonneg (Nat.cast_nonneg w) hone.le
  have htotal : ((w * 10 ^ k + f : Nat) : ℚ) * one = (w * one + f * one / 10 ^ k) * 10 ^ k := by
    push_cast
    field_simp
  rw [abs_le] at he
  have hu : u ≤ 2 * one := by
    have hu' : (u : ℚ) ≤ 2 * one := by linarith
    exact_mod_cast hu'
  have hhigh : w * one + u ≤ 2 ^ 100 * one * 1 := by
    have hw' := Nat.mul_le_mul_right one hw
    omega
  obtain ⟨v, h', hv, hvlarge, hve⟩ :=
    exists_ofUnits false Nat.one_pos (by omega : 2 ^ 52 * 1 ≤ w * one + u) hhigh
  have hsum :
      |(v : ℚ) - (w * one + f * one / 10 ^ k)| ≤ 9 / 4 * (w * one + f * one / 10 ^ k) / 2 ^ 53 := by
    push_cast at hve
    rw [div_one, abs_le] at hve
    rw [abs_le]
    constructor <;> linarith
  refine ⟨v, h', ?_, hvlarge, ?_⟩
  · rw [ofNat_of_fits (fits_mul_one (by omega)), add_finite (by omega), hv]
  · rw [htotal, ← sub_mul, abs_mul, abs_of_pos hten]
    calc |(v : ℚ) - (w * one + f * one / 10 ^ k)| * 10 ^ k
      _ ≤ 9 / 4 * (w * one + f * one / 10 ^ k) / 2 ^ 53 * 10 ^ k :=
        mul_le_mul_of_nonneg_right hsum hten.le
      _ = 9 / 4 * ((w * one + f * one / 10 ^ k) * 10 ^ k) / 2 ^ 53 := by ring

theorem exists_product (hk : k ≤ 22) (hm : m ≤ 2 ^ 50) {h : Fits u} (hlarge : 2 ^ 52 ≤ u)
    (he : |(u : ℚ) * 10 ^ k - m * one| ≤ 9 / 4 * (m * one) / 2 ^ 53) :
    ∃ v h', (finite false u h).mul (ofNat (10 ^ k)) = finite false v h' ∧
      |(v : ℚ) - m * one| ≤ 7 / 2 * (m * one) / 2 ^ 53 := by
  have hone := cast_one_pos
  have htotal0 : (0 : ℚ) ≤ m * one := mul_nonneg (Nat.cast_nonneg m) hone.le
  have htotal : (m : ℚ) * one ≤ 2 ^ 50 * one :=
    mul_le_mul_of_nonneg_right (by exact_mod_cast hm) hone.le
  rw [abs_le] at he
  have hbound : u * 10 ^ k ≤ 2 ^ 100 * one := by
    have hb : (u : ℚ) * 10 ^ k ≤ 2 ^ 100 * one := by linarith
    exact_mod_cast hb
  have hlow : 2 ^ 52 * one ≤ u * (10 ^ k * one) := by
    rw [← Nat.mul_assoc]
    exact Nat.mul_le_mul_right _ (Nat.le_trans hlarge (Nat.le_mul_of_pos_right _ (by positivity)))
  have hhigh : u * (10 ^ k * one) ≤ 2 ^ 100 * one * one := by
    rw [← Nat.mul_assoc]
    exact Nat.mul_le_mul_right _ hbound
  obtain ⟨v, h', hv, -, hve⟩ := exists_ofUnits false Binary64.one_pos hlow hhigh
  have hq : ((u * (10 ^ k * one) : Nat) : ℚ) / one = u * 10 ^ k := by
    push_cast
    field_simp
  refine ⟨v, h', ?_, ?_⟩
  · rw [ofNat_of_fits (fits_ten_pow hk)]
    exact hv
  · rw [hq, abs_le] at hve
    rw [abs_le]
    constructor <;> linarith

theorem round_of_near (hm : m ≤ 2 ^ 50) {h : Fits v}
    (he : |(v : ℚ) - m * one| ≤ 7 / 2 * (m * one) / 2 ^ 53) :
    (finite false v h).round = ofNat m := by
  have hone := cast_one_pos
  have htotal : (m : ℚ) * one ≤ 2 ^ 50 * one :=
    mul_le_mul_of_nonneg_right (by exact_mod_cast hm) hone.le
  rw [abs_le] at he
  have hlow : m * (2 * one) ≤ 2 * v + one := by
    have hl : (m : ℚ) * (2 * one) ≤ 2 * v + one := by linarith
    exact_mod_cast hl
  have hhigh : 2 * v + one < (m + 1) * (2 * one) := by
    have hh : (2 : ℚ) * v + one < (m + 1) * (2 * one) := by linarith
    exact_mod_cast hh
  rw [Binary64.round, Nat.div_eq_of_lt_le hlow hhigh]
  rfl

theorem isZero_div (hk : k ≤ 22) : ((ofNat 0).div (ofNat (10 ^ k))).isZero = true := by
  have hpos : 0 < 10 ^ k := by positivity
  have hz : 0 * one = 0 * 10 ^ k := by rw [Nat.zero_mul, Nat.zero_mul]
  have h0 : Fits (0 * one) := fits_mul_one (by decide)
  rw [ofNat_of_fits h0, ofNat_of_fits (fits_ten_pow hk), div_finite hpos, hz,
    ofUnits_of_fits false fits_zero hpos]
  rfl

theorem toBinary64_eq {d : ScaledDecimal} (hk : d.scale ≤ 22) (hm : d.mantissa ≤ 2 ^ 50) :
    d.toBinary64 = ofUnits false (d.mantissa * one) (10 ^ d.scale) := by
  have hpos : 0 < 10 ^ d.scale := by positivity
  have hsplit : d.mantissa / 10 ^ d.scale * 10 ^ d.scale + d.mantissa % 10 ^ d.scale = d.mantissa :=
    Nat.div_add_mod' d.mantissa (10 ^ d.scale)
  have hwhole : d.mantissa / 10 ^ d.scale ≤ 2 ^ 50 := Nat.le_trans (Nat.div_le_self _ _) hm
  unfold toBinary64
  dsimp only
  rw [Nat.pow_eq]
  by_cases hf : d.mantissa % 10 ^ d.scale = 0
  · have hm' : d.mantissa * one = d.mantissa / 10 ^ d.scale * one * 10 ^ d.scale := by
      rw [Nat.mul_right_comm]
      exact congrArg (· * one) (by omega)
    have hfit : Fits (d.mantissa / 10 ^ d.scale * one) := fits_mul_one (by omega)
    rw [hf, isZero_div hk, if_pos rfl, hm', ofUnits_of_fits false hfit hpos, ofNat_of_fits hfit]
  · have hlt : d.mantissa % 10 ^ d.scale < 10 ^ d.scale := Nat.mod_lt _ hpos
    have hfit : d.mantissa % 10 ^ d.scale ≤ 2 ^ 53 := by
      have := Nat.mod_le d.mantissa (10 ^ d.scale)
      omega
    obtain ⟨u, hu, hfrac, hlarge, he⟩ := exists_fraction hk (by omega) hlt hfit
    obtain ⟨v, hv, hsum, hvlarge, hve⟩ := exists_sum hwhole hlt hlarge (h := hu) he
    rw [hsplit] at hve
    obtain ⟨x, hx, hprod, hxe⟩ := exists_product hk hm (h := hv) hvlarge hve
    have hz : (finite false u hu).isZero = false := by
      rw [isZero]
      exact decide_eq_false (by omega)
    rw [hfrac, hz, if_neg Bool.false_ne_true, powNat_ten hk, hsum, hprod, round_of_near hm hxe,
      ofNat_of_fits (fits_mul_one (by omega)), ofNat_of_fits (fits_ten_pow hk), div_finite hpos]

end

end ScaledDecimal

end FieldFormula
