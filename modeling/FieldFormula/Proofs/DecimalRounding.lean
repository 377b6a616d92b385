import FieldFormula.Proofs.Digits
import FieldFormula.Proofs.Rounding

/-!
The binary64 number of a decimal is the exact value, rounded once: the answers that
are given before any power is taken are those that rounding gives. So the shortest
decimal of a number is read as that number.
-/
namespace FieldFormula

namespace Binary64
variable {n d k : Nat}

theorem roundUnits_eq_zero (h : 2 * n < d) : roundUnits n d = 0 := by
  have hs : spacing 0 = 1 := rfl
  rw [roundUnits, Nat.div_eq_of_lt (by omega), hs, Nat.mul_one, Nat.mul_one]
  exact nearestEven_of_near (by omega) (by omega)

theorem ofUnits_eq_infinity (s : Bool) (hd : 0 < d) (hk : 2098 ≤ k) (h : 2 ^ k * d ≤ n) :
    ofUnits s n d = infinity s := by
  have hr := le_roundUnits hd (mod_spacing_two_pow k) h
  have hpos : roundUnits n d ≠ 0 := by
    intro h0
    rw [h0] at hr
    exact absurd hr (Nat.not_le.2 (Nat.pow_pos (by decide)))
  refine dif_neg fun hf => ?_
  exact absurd hf.2 (Nat.not_lt.2 (hk.trans ((Nat.le_log2 hpos).2 hr)))

theorem ofUnits_eq_zero (s : Bool) (h : 2 * n < d) : ofUnits s n d = zero s := by
  have hu := roundUnits_eq_zero h
  rw [ofUnits_eq_finite s (by rw [hu]; exact fits_zero)]
  simp only [hu, zero]

end Binary64

namespace Decimal
open Binary64
variable {d : Decimal}

theorem ratio_pos (d : Decimal) : 0 < d.ratio.2 := Nat.pow_pos (by decide)

/- The number of digits bounds the coefficient from both sides. -/
theorem lt_pow_length_toDigits (c : Nat) : c < 10 ^ (Nat.toDigits 10 c).length :=
  (Nat.length_toDigits_le_iff (by decide) Nat.length_toDigits_pos).1 (Nat.le_refl _)

theorem pow_length_toDigits_le {c : Nat} (hc : 0 < c) :
    10 ^ ((Nat.toDigits 10 c).length - 1) ≤ c := by
  by_cases hl : (Nat.toDigits 10 c).length - 1 = 0
  · rw [hl]
    exact hc
  · by_contra hlt
    have hle :=
      (Nat.length_toDigits_le_iff (b := 10) (n := c) (by decide) (Nat.pos_of_ne_zero hl)).2
      (Nat.not_le.1 hlt)
    omega

/- These powers, too, are better not written out. -/
theorem exists_two_mul_one_le : ∃ k, k = 330 ∧ 2 * one ≤ 10 ^ k := ⟨330, rfl, by decide +kernel⟩

theorem exists_two_pow_le : ∃ j k, j = 2098 ∧ k = 310 ∧ 2 ^ j ≤ 10 ^ k * one :=
  ⟨2098, 310, rfl, rfl, by decide +kernel⟩

theorem lt_half_unit (h : (Nat.toDigits 10 d.coefficient).length + d.exponent < -330) :
    2 * (d.ratio.1 * one) < d.ratio.2 := by
  have hc := lt_pow_length_toDigits d.coefficient
  generalize hl : (Nat.toDigits 10 d.coefficient).length = l at h hc
  obtain ⟨k, hk, hone⟩ := exists_two_mul_one_le
  have h0 : d.exponent.toNat = 0 := by omega
  have hp : l + k ≤ (-d.exponent).toNat := by omega
  calc 2 * (d.ratio.1 * one) = d.coefficient * (2 * one) := by
        rw [ratio, h0, Nat.pow_eq]
        ring
    _ < 10 ^ l * 10 ^ k := Nat.mul_lt_mul_of_lt_of_le hc hone (by positivity)
    _ = 10 ^ (l + k) := (Nat.pow_add ..).symm
    _ ≤ 10 ^ (-d.exponent).toNat := Nat.pow_le_pow_right (by decide) hp

theorem past_largest (hc : 0 < d.coefficient)
    (h : 310 < (Nat.toDigits 10 d.coefficient).length + d.exponent) :
    ∃ j, j = 2098 ∧ 2 ^ j * d.ratio.2 ≤ d.ratio.1 * one := by
  have hc := pow_length_toDigits_le hc
  generalize hl : (Nat.toDigits 10 d.coefficient).length = l at h hc
  obtain ⟨j, k, hj, hk, hone⟩ := exists_two_pow_le
  have hp : k + (-d.exponent).toNat ≤ l - 1 + d.exponent.toNat := by omega
  refine ⟨j, hj, ?_⟩
  calc 2 ^ j * d.ratio.2 ≤ 10 ^ k * one * d.ratio.2 := Nat.mul_le_mul_right _ hone
    _ = 10 ^ (k + (-d.exponent).toNat) * one := by
        rw [Nat.pow_add, ratio, Nat.pow_eq]
        exact Nat.mul_right_comm ..
    _ ≤ 10 ^ (l - 1 + d.exponent.toNat) * one :=
      Nat.mul_le_mul_right _ (Nat.pow_le_pow_right (by decide) hp)
    _ ≤ d.ratio.1 * one := by
        rw [Nat.pow_add, ratio]
        exact Nat.mul_le_mul_right _ (Nat.mul_le_mul_right _ hc)

theorem toBinary64_of_coefficient_zero (negative : Bool) (e : Int) :
    toBinary64 negative ⟨0, e⟩ = zero negative := by
  simp [toBinary64]

theorem toBinary64_eq_ofUnits (negative : Bool) (d : Decimal) :
    d.toBinary64 negative = ofUnits negative (d.ratio.1 * one) d.ratio.2 := by
  unfold toBinary64
  dsimp only
  split
  · next h =>
    rw [Bool.or_eq_true, decide_eq_true_eq, decide_eq_true_eq] at h
    rw [ofUnits_eq_zero]
    rcases h with h | h
    · rw [ratio, h, Nat.zero_mul, Nat.zero_mul]
      exact ratio_pos d
    · exact lt_half_unit h
  · next h =>
    split
    · next h' =>
      have hc : 0 < d.coefficient := by
        rw [Bool.or_eq_true, decide_eq_true_eq, not_or] at h
        exact Nat.pos_of_ne_zero h.1
      obtain ⟨j, hj, hle⟩ := past_largest hc h'
      rw [ofUnits_eq_infinity negative (ratio_pos d) (Nat.le_of_eq hj.symm) hle]
    · rfl

section
variable {n : Nat} {tieUp : Bool}

theorem toBinary64_of_readsBack (negative : Bool) (hn : Fits n) (h : d.readsBack n = true) :
    d.toBinary64 negative = finite negative n hn := by
  have hu : roundUnits (d.ratio.1 * one) d.ratio.2 = n := of_decide_eq_true h
  subst hu
  rw [toBinary64_eq_ofUnits, ofUnits_eq_finite negative hn]

theorem ratio_neg (c k : Nat) : (⟨c, -k⟩ : Decimal).ratio = (c, Nat.pow 10 k) := by
  have h0 : (-(k : Int)).toNat = 0 := by omega
  have h1 : (- -(k : Int)).toNat = k := by omega
  rw [ratio, h0, h1]
  exact congrArg (·, Nat.pow 10 k) (Nat.mul_one c)

theorem readsBack_of_eq {a k : Nat} (hn : Fits n) (h : a * one = Nat.pow 10 k) :
    (⟨n * a, -k⟩ : Decimal).readsBack n = true := by
  refine decide_eq_true ?_
  rw [roundedUnits, ratio_neg, Nat.mul_assoc, h]
  exact roundUnits_mul hn.1 (Nat.pow_pos (by decide))

theorem readsBack_exact (hn : Fits n) : (exact n).readsBack n = true :=
  readsBack_of_eq (k := 1074) hn (by decide +kernel)

theorem roundedUnits_mul_ten (c : Nat) (e : Int) :
    roundedUnits ⟨c * 10, e⟩ = roundedUnits ⟨c, e + 1⟩ := by
  simp only [roundedUnits, ratio, Nat.pow_eq]
  rcases lt_or_ge e 0 with he | he
  · have h : (-e).toNat = (-(e + 1)).toNat + 1 := by omega
    have h0 : e.toNat = 0 := by omega
    have h1 : (e + 1).toNat = 0 := by omega
    rw [h, h0, h1, Nat.pow_succ', Nat.pow_zero, Nat.mul_one, Nat.mul_one, Nat.mul_comm c,
      Nat.mul_assoc]
    exact roundUnits_mul_mul _ _ (by decide)
  · have h : (e + 1).toNat = e.toNat + 1 := by omega
    have h0 : (-e).toNat = 0 := by omega
    have h1 : (-(e + 1)).toNat = 0 := by omega
    rw [h, h0, h1, Nat.pow_succ', Nat.mul_assoc c]

theorem roundedUnits_strip (d : Decimal) : d.strip.roundedUnits = d.roundedUnits := by
  fun_induction strip d with
  | case1 d h ih =>
    have hc : d.coefficient / 10 * 10 = d.coefficient :=
      Nat.div_mul_cancel (Nat.dvd_of_mod_eq_zero h.2)
    rw [ih, ← roundedUnits_mul_ten, hc]
  | case2 d h => rfl

theorem readsBack_shortest (hn : Fits n) : (shortest tieUp n).readsBack n = true := by
  have hs : ∀ d : Decimal, d.readsBack n = true → d.strip.readsBack n = true := by
    intro d h
    rwa [readsBack, roundedUnits_strip]
  refine hs _ ?_
  cases hd : (List.range 17).findSome? fun (k : Nat) => onGrid tieUp n (scale n - (k + 1)) with
  | none => exact readsBack_exact hn
  | some d =>
    obtain ⟨k, -, hk⟩ := List.exists_of_findSome?_eq_some hd
    exact readsBack_onGrid hk

theorem toBinary64_shortest (negative : Bool) (hn : Fits n) :
    (shortest tieUp n).toBinary64 negative = finite negative n hn :=
  toBinary64_of_readsBack negative hn (readsBack_shortest hn)

end

end Decimal
end FieldFormula
