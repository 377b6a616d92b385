import FieldFormula.Decimal.Scaled
import FieldFormula.Proofs.Rounding
import Mathlib.Algebra.Order.Field.Power
import Mathlib.Data.Nat.Factorization.Basic

/-!
Binary64 numbers as scaled decimals. Whole numbers and halves of decimals are
converted exactly. Elsewhere the digits that fall off on the way, and those behind the
last decimal place, make for a small error.
-/
namespace FieldFormula.ScaledDecimal
open Binary64

def value (d : ScaledDecimal) : ℚ := d.mantissa / 10 ^ d.scale

/-- `y` is `x`, or less than `x` by up to a share `e` of it. -/
def Short (e x y : ℚ) : Prop := y ≤ x ∧ x - y ≤ e * x

section
variable {a b x y z : ℚ}

theorem Short.trans (hb : 0 ≤ b) (h : Short a x y) (h' : Short b y z) : Short (a + b) x z := by
  have hshare : b * y ≤ b * x := mul_le_mul_of_nonneg_left h.1 hb
  have hxy := h.2
  have hyz := h'.2
  refine ⟨h'.1.trans h.1, ?_⟩
  rw [add_mul]
  linarith

end

section
variable {m k : Nat} {t : Int}

/-- The share of a mantissa that a digit may have which no longer fits. -/
def loss : ℚ := 5 / limit

theorem loss_nonneg : 0 ≤ loss := by
  unfold loss
  positivity

theorem short_half (h : ¬ (m % 2 ≠ 0 ∧ m * 5 < limit)) (k : Nat) (t : Int) :
    Short loss (m * 5 ^ (k + 1) * 10 ^ t) ((m / 2 : Nat) * 5 ^ k * 10 ^ (t + 1)) := by
  have hten : (10 : ℚ) ^ (t + 1) = 10 ^ t * 10 := zpow_add_one₀ (by norm_num) t
  have hm : (m : ℚ) = 2 * (m / 2 : Nat) + (m % 2 : Nat) := by
    exact_mod_cast (Nat.div_add_mod m 2).symm
  have hdiff : (m : ℚ) * 5 ^ (k + 1) * 10 ^ t - (m / 2 : Nat) * 5 ^ k * 10 ^ (t + 1) =
      (m % 2 : Nat) * (5 ^ (k + 1) * 10 ^ t) := by
    rw [hten, hm]
    ring
  have hr : ((m % 2 : Nat) : ℚ) ≤ loss * m := by
    have hlim : (0 : ℚ) < limit := by
      exact_mod_cast (by decide : 0 < limit)
    rw [loss, div_mul_eq_mul_div, le_div_iff₀ hlim]
    rcases Nat.mod_two_eq_zero_or_one m with h0 | h1
    · rw [h0, Nat.cast_zero, zero_mul]
      positivity
    · rw [h1]
      exact_mod_cast (by omega : 1 * limit ≤ 5 * m)
  have hpow : (0 : ℚ) ≤ 5 ^ (k + 1) * 10 ^ t := by positivity
  constructor
  · rw [← sub_nonneg, hdiff]
    positivity
  · rw [hdiff]
    calc _ ≤ loss * m * (5 ^ (k + 1) * 10 ^ t) := mul_le_mul_of_nonneg_right hr hpow
      _ = _ := by ring

/- The induction is on the fives still due; every one of them may cost a digit. -/
theorem timesFives_spec (k m : Nat) (t : Int) :
    (timesFives k m t).2 ≤ t + k ∧
      Short (k * loss) (m * 5 ^ k * 10 ^ t) ((timesFives k m t).1 * 10 ^ (timesFives k m t).2) := by
  induction k generalizing m t with
  | zero => simp [Short]
  | succ k ih =>
    rw [timesFives]
    have hloss := loss_nonneg
    split
    · obtain ⟨ht, hs⟩ := ih (m * 5) t
      have hx : ((m * 5 : Nat) : ℚ) * 5 ^ k * 10 ^ t = m * 5 ^ (k + 1) * 10 ^ t := by
        push_cast
        ring
      rw [hx] at hs
      have hk : (k : ℚ) * loss ≤ (k + 1 : Nat) * loss := by
        gcongr
        exact Nat.le_succ k
      exact ⟨by omega, hs.1, hs.2.trans (mul_le_mul_of_nonneg_right hk (by positivity))⟩
    · next h =>
      obtain ⟨ht, hs⟩ := ih (m / 2) (t + 1)
      refine ⟨by omega, ?_⟩
      have hsum := (short_half h k t).trans (by positivity) hs
      rwa [show ((k + 1 : Nat) : ℚ) * loss = loss + k * loss by push_cast; ring]

theorem timesFives_whole (k q : Nat) (t : Int) : timesFives k (q * 2 ^ k) t = (q, t + k) := by
  induction k generalizing t with
  | zero => simp
  | succ k ih =>
    have he : q * 2 ^ (k + 1) = 2 * (q * 2 ^ k) := by ring
    rw [timesFives, he, if_neg (by omega), Nat.mul_div_cancel_left _ two_pos, ih]
    congr 1
    omega

theorem timesFives_of_room (k m : Nat) (t : Int) (hm : m % 2 = 1) (h : m * 5 ^ k < limit) :
    timesFives k m t = (m * 5 ^ k, t) := by
  induction k generalizing m with
  | zero => simp
  | succ k ih =>
    have hk : m * 5 * 5 ^ k = m * 5 ^ (k + 1) := by ring
    have hle : m * 5 ≤ m * 5 * 5 ^ k := Nat.le_mul_of_pos_right _ (by positivity)
    rw [timesFives, if_pos ⟨by omega, by omega⟩, ih (m * 5) (by omega) (by omega), hk]

theorem timesFives_exact (a k o : Nat) (t : Int) (ho : o % 2 = 1) (h : o * 5 ^ k < limit) :
    timesFives (a + k) (o * 2 ^ a) t = (o * 5 ^ k, t + a) := by
  induction a generalizing t with
  | zero => simp [timesFives_of_room k o t ho h]
  | succ a ih =>
    have he : o * 2 ^ (a + 1) = 2 * (o * 2 ^ a) := by ring
    rw [Nat.succ_add, timesFives, he, if_neg (by omega), Nat.mul_div_cancel_left _ two_pos, ih]
    congr 1
    omega

theorem overFives_whole (k m : Nat) :
    overFives k m k = some (m * 2 ^ k, 0) ∨ overFives k m k = none := by
  induction k generalizing m with
  | zero => exact Or.inl (by simp)
  | succ k ih =>
    rw [overFives]
    split
    · have hm : m * 2 ^ (k + 1) = m * 2 * 2 ^ k := by ring
      rw [hm, Nat.cast_succ, add_sub_cancel_right]
      exact ih (m * 2)
    · rw [if_pos (by omega)]
      exact Or.inr rfl

end

section
variable {m k : Nat} {t : Int}

theorem abs_dropDigit_sub_le (m : Nat) :
    |((if 5 ≤ m % 10 then m / 10 + 1 else m / 10 : Nat) : ℚ) - m / 10| ≤ 1 / 2 := by
  have h : |((if 5 ≤ m % 10 then m / 10 + 1 else m / 10 : Nat) : Int) * 10 - m| ≤ 5 := by
    rw [abs_le]
    split <;> omega
  have h' : |((if 5 ≤ m % 10 then m / 10 + 1 else m / 10 : Nat) : ℚ) * 10 - m| ≤ 5 := by
    exact_mod_cast h
  rw [abs_le] at h' ⊢
  constructor <;> linarith

/- The errors of the digits are a geometric series. -/
theorem abs_value_dropDigits_sub_le (scale k m : Nat) :
    |(dropDigits scale k m).value - m / 10 ^ (scale + k)| ≤
      10 / 9 * (1 / 10 ^ scale - 1 / 10 ^ (scale + k)) := by
  induction k generalizing m with
  | zero => simp [value]
  | succ k ih =>
    have hpow : (10 : ℚ) ^ (scale + (k + 1)) = 10 ^ (scale + k) * 10 := by ring
    have hle : (1 : ℚ) / 10 ^ (scale + k) ≤ 1 / 10 ^ scale := by
      gcongr
      · norm_num
      · omega
    have hpos : (0 : ℚ) < 1 / 10 ^ (scale + k) := by positivity
    have hlast : ∀ x : ℚ, x / (10 ^ (scale + k) * 10) = x / 10 * (1 / 10 ^ (scale + k)) := by
      intro x
      field_simp
    rw [dropDigits, hpow, hlast, hlast]
    split
    · have hm : (m : ℚ) ≤ 9 := by exact_mod_cast (by omega)
      have hz : (⟨0, 0⟩ : ScaledDecimal).value = 0 := by simp [value]
      rw [hz, zero_sub, abs_neg, abs_of_nonneg (by positivity)]
      nlinarith
    · have hih := ih (if 5 ≤ m % 10 then m / 10 + 1 else m / 10)
      have hstep := mul_le_mul_of_nonneg_right (abs_dropDigit_sub_le m) hpos.le
      rw [← abs_of_pos hpos, ← abs_mul, abs_of_pos hpos, sub_mul, mul_one_div] at hstep
      have hsum := (abs_sub_le _ _ _).trans (add_le_add hih hstep)
      linarith

theorem ofTens_of_nonpos (m : Nat) {t : Int} (ht : t ≤ 0) :
    ∃ d, ofTens m t = some d ∧ |d.value - m * 10 ^ t| ≤ 10 / 9 * (1 / 10 ^ 28) := by
  have hten : ∀ k : Nat, (10 : ℚ) ^ (-(k : Int)) = 1 / 10 ^ k := by
    intro k
    rw [zpow_neg, zpow_natCast, one_div]
  unfold ofTens
  rw [if_neg (by omega)]
  split
  · obtain ⟨k, hk⟩ : ∃ k : Nat, t = -((28 + k : Nat) : Int) := ⟨(-28 - t).toNat, by omega⟩
    have hk' : (-28 - t).toNat = k := by omega
    refine ⟨_, rfl, ?_⟩
    have h := abs_value_dropDigits_sub_le 28 k m
    have hpos : (0 : ℚ) ≤ 1 / 10 ^ (28 + k) := by positivity
    rw [hk', hk, hten, mul_one_div]
    linarith
  · obtain ⟨k, hk⟩ : ∃ k : Nat, t = -(k : Int) := ⟨(-t).toNat, by omega⟩
    have hk' : (-t).toNat = k := by omega
    refine ⟨_, rfl, ?_⟩
    rw [hk', hk, hten, value, mul_one_div, sub_self, abs_zero]
    positivity

end

section
variable {n : Nat}

/-- A number below `2 ^ 53` is a significand over a power of two, which becomes one
of fives over tens. -/
theorem ofUnits?_of_small (h : n % spacing n = 0) (h0 : n ≠ 0) (hl : n.log2 ≤ 1126) :
    ∃ m k : Nat, m < 2 ^ 53 ∧ k ≤ 1074 ∧ n * 2 ^ k = m * one ∧
      ofUnits? n = ofTens (timesFives k m (-k)).1 (timesFives k m (-k)).2 := by
  obtain ⟨o, ho, h1⟩ := exists_one
  have hk : n.log2 - 52 + (1074 - (n.log2 - 52)) = o := by omega
  have hs : spacing n * 2 ^ (1074 - (n.log2 - 52)) = one := by
    rw [h1, spacing, Nat.pow_eq, ← Nat.pow_add, hk]
  have hn : n * 2 ^ (1074 - (n.log2 - 52)) = n / spacing n * one := by
    calc n * 2 ^ (1074 - (n.log2 - 52))
      _ = n / spacing n * spacing n * 2 ^ (1074 - (n.log2 - 52)) :=
        congrArg (· * _) (eq_mul_spacing h)
      _ = n / spacing n * one := by rw [Nat.mul_assoc, hs]
  refine ⟨n / spacing n, 1074 - (n.log2 - 52), div_spacing_lt n, Nat.sub_le _ _, hn, ?_⟩
  have he : ((n.log2 - 52 : Nat) : Int) - 1074 = -((1074 - (n.log2 - 52) : Nat) : Int) := by omega
  unfold ofUnits?
  dsimp only
  rw [if_neg h0, if_pos (by omega), he, neg_neg, Int.toNat_natCast]

theorem ofUnits?_of_large (h : n % spacing n = 0) (hl : 1126 < n.log2) :
    ∃ m k : Nat, n = m * 2 ^ k * one ∧
      ofUnits? n = (overFives k m k).bind fun p => ofTens p.1 p.2 := by
  obtain ⟨o, ho, h1⟩ := exists_one
  have h0 : n ≠ 0 := by
    rintro rfl
    simp at hl
  have hk : n.log2 - 52 = n.log2 - 52 - 1074 + o := by omega
  have hs : spacing n = 2 ^ (n.log2 - 52 - 1074) * one := by
    rw [h1, spacing, Nat.pow_eq, ← Nat.pow_add, ← hk]
  have hn : n = n / spacing n * 2 ^ (n.log2 - 52 - 1074) * one := by
    rw [Nat.mul_assoc, ← hs]
    exact eq_mul_spacing h
  refine ⟨n / spacing n, n.log2 - 52 - 1074, hn, ?_⟩
  have he : ((n.log2 - 52 : Nat) : Int) - 1074 = (n.log2 - 52 - 1074 : Nat) := by omega
  unfold ofUnits?
  dsimp only
  rw [if_neg h0, if_neg (by omega), he, Int.toNat_natCast]

theorem ofUnits?_zero : ofUnits? 0 = some ⟨0, 0⟩ := by
  unfold ofUnits?
  dsimp only
  rw [if_pos rfl]

theorem ofUnits?_whole {q : Nat} (h : Fits (q * one)) :
    ofUnits? (q * one) = some ⟨q, 0⟩ ∨ ofUnits? (q * one) = none := by
  by_cases hq : q = 0
  · rw [hq, Nat.zero_mul]
    exact Or.inl ofUnits?_zero
  · have h0 : q * one ≠ 0 := Nat.mul_ne_zero hq Binary64.one_pos.ne'
    by_cases hl : (q * one).log2 ≤ 1126
    · obtain ⟨m, k, -, -, hm, hd⟩ := ofUnits?_of_small h.1 h0 hl
      have hqm : m = q * 2 ^ k := by
        apply Nat.eq_of_mul_eq_mul_right Binary64.one_pos
        rw [← hm]
        ring
      rw [hqm, timesFives_whole, neg_add_cancel] at hd
      exact Or.inl hd
    · obtain ⟨m, k, hm, hd⟩ := ofUnits?_of_large h.1 (by omega)
      have hqm : q = m * 2 ^ k := Nat.eq_of_mul_eq_mul_right Binary64.one_pos hm
      rcases overFives_whole k m with ho | ho
      · rw [ho, ← hqm] at hd
        exact Or.inl hd
      · rw [ho] at hd
        exact Or.inr hd

theorem two_pow_mul_odd {a b x y : Nat} (hx : x % 2 = 1) (hy : y % 2 = 1)
    (h : 2 ^ a * x = 2 ^ b * y) : a = b ∧ x = y := by
  induction a generalizing b with
  | zero =>
    cases b with
    | zero => simpa using h
    | succ b =>
      rw [Nat.pow_succ, Nat.mul_right_comm] at h
      omega
  | succ a ih =>
    cases b with
    | zero =>
      rw [Nat.pow_succ, Nat.mul_right_comm] at h
      omega
    | succ b =>
      have h' : 2 ^ a * x = 2 ^ b * y := by
        rw [Nat.pow_succ, Nat.pow_succ, Nat.mul_right_comm, Nat.mul_right_comm (2 ^ b)] at h
        exact Nat.eq_of_mul_eq_mul_right two_pos h
      obtain ⟨hab, hxy⟩ := ih h'
      exact ⟨congrArg _ hab, hxy⟩

theorem ofUnits?_odd {k c : Nat} (h : n % spacing n = 0) (hl : n.log2 ≤ 1126) (hk : k ≤ 28)
    (hc : c % 2 = 1) (hlim : c * 5 ^ k < limit) (hn : n * 2 ^ k = c * one) :
    ofUnits? n = some ⟨c * 5 ^ k, k⟩ := by
  have h0 : n ≠ 0 := by
    rintro rfl
    rw [Nat.zero_mul] at hn
    exact Nat.mul_ne_zero (by omega : c ≠ 0) Binary64.one_pos.ne' hn.symm
  obtain ⟨m, j, -, -, hm, hd⟩ := ofUnits?_of_small h h0 hl
  have hm0 : m ≠ 0 := by
    rintro rfl
    rw [Nat.zero_mul] at hm
    exact Nat.mul_ne_zero h0 (by positivity) hm
  obtain ⟨a, o, ho, rfl⟩ := Nat.exists_eq_two_pow_mul_odd hm0
  have hpow : 2 ^ (k + a) * o = 2 ^ j * c := by
    apply Nat.eq_of_mul_eq_mul_right Binary64.one_pos
    calc 2 ^ (k + a) * o * one
      _ = 2 ^ k * (2 ^ a * o * one) := by ring
      _ = 2 ^ j * (n * 2 ^ k) := by
        rw [← hm]
        ring
      _ = 2 ^ j * c * one := by rw [hn, Nat.mul_assoc]
  obtain ⟨rfl, rfl⟩ := two_pow_mul_odd (Nat.odd_iff.1 ho) hc hpow
  rw [Nat.mul_comm (2 ^ a), Nat.add_comm k, timesFives_exact a k o _ hc hlim] at hd
  rw [hd, ofTens, if_neg (by omega), if_neg (by omega)]
  congr 2
  omega

theorem ofUnits?_half {p c : Nat} (h : n % spacing n = 0) (hl : n.log2 ≤ 1126) (hp : p ≤ 27)
    (hc : c % 2 = 1) (hlim : 5 * c < limit) (hn : 2 * 10 ^ p * n = c * one) :
    ofUnits? n = some ⟨5 * c, p + 1⟩ := by
  obtain ⟨o, -, h1⟩ := exists_one
  have hten : 2 * 10 ^ p * n = 5 ^ p * (n * 2 ^ (p + 1)) := by
    rw [show 10 ^ p = 2 ^ p * 5 ^ p by rw [← Nat.mul_pow]]
    ring
  have hdvd : 5 ^ p ∣ c := by
    have hmul : 5 ^ p ∣ c * one := ⟨_, hn.symm.trans hten⟩
    rw [h1] at hmul
    exact (Nat.Coprime.pow p o (by decide)).dvd_of_dvd_mul_right hmul
  obtain ⟨b, rfl⟩ := hdvd
  have hb : b % 2 = 1 := Nat.odd_iff.1 (Nat.odd_mul.1 (Nat.odd_iff.2 hc)).2
  have hfive : b * 5 ^ (p + 1) = 5 * (5 ^ p * b) := by ring
  rw [← hfive] at hlim ⊢
  refine ofUnits?_odd h hl (by omega) hb hlim
    (Nat.eq_of_mul_eq_mul_left (by positivity : 0 < 5 ^ p) ?_)
  rw [← hten, hn, Nat.mul_assoc]

theorem exists_ofUnits? (h : n % spacing n = 0) (hl : n.log2 ≤ 1126) :
    ∃ d, ofUnits? n = some d ∧
      |d.value - n / one| ≤ 10 / 9 * (1 / 10 ^ 28) + 1 / 2 ^ 83 * (n / one) := by
  by_cases h0 : n = 0
  · refine ⟨⟨0, 0⟩, by rw [h0, ofUnits?_zero], ?_⟩
    simp only [h0, value, Nat.cast_zero, zero_div, sub_self, abs_zero]
    positivity
  · obtain ⟨m, k, -, hk, hm, hd⟩ := ofUnits?_of_small h h0 hl
    obtain ⟨ht, hle, hs⟩ := timesFives_spec k m (-k)
    obtain ⟨d, hd', he⟩ :=
      ofTens_of_nonpos (timesFives k m (-k)).1 (t := (timesFives k m (-k)).2) (by omega)
    have hone := cast_one_pos
    have hval : (m : ℚ) * 5 ^ k * 10 ^ (-(k : Int)) = n / one := by
      have hm' : (n : ℚ) * 2 ^ k = m * one := by exact_mod_cast hm
      have hten : (10 : ℚ) ^ k = 2 ^ k * 5 ^ k := by rw [← mul_pow]; norm_num
      rw [zpow_neg, zpow_natCast, hten, eq_div_iff hone.ne']
      field_simp
      linarith
    have hshare : (k : ℚ) * loss ≤ 1 / 2 ^ 83 := by
      have hk' : (k : ℚ) ≤ 1074 := by exact_mod_cast hk
      have hloss : loss = 5 / 2 ^ 96 := by
        rw [loss, limit]
        norm_num
      rw [hloss]
      linarith
    have hpos : (0 : ℚ) ≤ n / one := div_nonneg (Nat.cast_nonneg n) hone.le
    rw [hval] at hle hs
    have hx := hs.trans (mul_le_mul_of_nonneg_right hshare hpos)
    rw [← abs_of_nonneg (sub_nonneg.2 hle), abs_sub_comm] at hx
    exact ⟨d, hd.trans hd', (abs_sub_le _ _ _).trans (add_le_add he hx)⟩

end

end FieldFormula.ScaledDecimal
