import FieldFormula.Binary64.Arithmetic
import Mathlib.Algebra.Order.Floor.Semifield
import Mathlib.Data.Nat.Cast.Order.Field
import Mathlib.Tactic.FieldSimp
import Mathlib.Tactic.Linarith
import Mathlib.Tactic.Positivity
import Mathlib.Tactic.Ring

/-!
Rounding to binary64: the result is a number, no other number is nearer, and in the normal range it
is off by less than one part in `2 ^ 53`. What is a number already is kept.
-/
namespace FieldFormula

section
variable {d : Nat}

theorem nearestEven_cases (n d : Nat) : (nearestEven n d = n / d ∧ 2 * (n % d) ≤ d) ∨
    (nearestEven n d = n / d + 1 ∧ d ≤ 2 * (n % d)) := by
  unfold nearestEven
  dsimp only
  split
  · exact Or.inl ⟨rfl, by omega⟩
  · split
    · exact Or.inr ⟨rfl, by omega⟩
    · split
      · exact Or.inl ⟨rfl, by omega⟩
      · exact Or.inr ⟨rfl, by omega⟩

theorem nearestEven_mul (k : Nat) (hd : 0 < d) : nearestEven (k * d) d = k := by
  rcases nearestEven_cases (k * d) d with ⟨h, -⟩ | ⟨-, h⟩
  · rw [h, Nat.mul_div_cancel k hd]
  · rw [Nat.mul_mod_left] at h
    omega

theorem nearestEven_mul_mul {k : Nat} (n : Nat) (hk : 0 < k) :
    nearestEven (k * n) (k * d) = nearestEven n d := by
  have hlt : ∀ a b, k * a < k * b ↔ a < b := fun a b => Nat.mul_lt_mul_left hk
  unfold nearestEven
  simp only [Nat.mul_div_mul_left _ _ hk, Nat.mul_mod_mul_left, Nat.mul_left_comm 2 k, hlt]

theorem two_mul_nearestEven_mul_bounds (n : Nat) (hd : 0 < d) :
    2 * (nearestEven n d * d) ≤ 2 * n + d ∧ 2 * n ≤ 2 * (nearestEven n d * d) + d := by
  have hdiv := Nat.div_add_mod' n d
  rcases nearestEven_cases n d with ⟨h, hr⟩ | ⟨h, hr⟩
  · rw [h]
    omega
  · have hlt := Nat.mod_lt n hd
    rw [h, Nat.succ_mul (n / d)]
    omega

theorem nearestEven_of_near {a n : Nat} (hlow : 2 * (a * d) < 2 * n + d)
    (hhigh : 2 * n < 2 * (a * d) + d) : nearestEven n d = a := by
  obtain ⟨hl, hh⟩ := two_mul_nearestEven_mul_bounds n (by omega : 0 < d)
  have hle : nearestEven n d * d < (a + 1) * d := by
    rw [Nat.succ_mul]
    omega
  have hge : a * d < (nearestEven n d + 1) * d := by
    rw [Nat.succ_mul]
    omega
  exact Nat.le_antisymm (Nat.lt_succ_iff.1 (Nat.lt_of_mul_lt_mul_right hle))
    (Nat.lt_succ_iff.1 (Nat.lt_of_mul_lt_mul_right hge))

theorem le_nearestEven_of_le {a n : Nat} (hd : 0 < d) (h : a * d ≤ n) : a ≤ nearestEven n d := by
  have hq := (Nat.le_div_iff_mul_le hd).2 h
  rcases nearestEven_cases n d with ⟨he, -⟩ | ⟨he, -⟩ <;> omega

theorem nearestEven_le_of_le {a n : Nat} (hd : 0 < d) (h : n ≤ a * d) : nearestEven n d ≤ a := by
  have hlt : nearestEven n d * d < (a + 1) * d := by
    have hl := (two_mul_nearestEven_mul_bounds n hd).1
    rw [Nat.succ_mul]
    omega
  exact Nat.lt_succ_iff.1 (Nat.lt_of_mul_lt_mul_right hlt)

/- A multiple of the step is not passed. -/

theorem le_nearestEven_mul {a n : Nat} (hd : 0 < d) (ha : d ∣ a) (h : a ≤ n) :
    a ≤ nearestEven n d * d := by
  obtain ⟨b, rfl⟩ := ha
  rw [Nat.mul_comm] at h ⊢
  exact Nat.mul_le_mul_right d (le_nearestEven_of_le hd h)

theorem nearestEven_mul_le {a n : Nat} (hd : 0 < d) (ha : d ∣ a) (h : n ≤ a) :
    nearestEven n d * d ≤ a := by
  obtain ⟨b, rfl⟩ := ha
  rw [Nat.mul_comm d] at h ⊢
  exact Nat.mul_le_mul_right d (nearestEven_le_of_le hd h)

theorem nearestEven_add_even (c n : Nat) (hd : 0 < d) :
    nearestEven (2 * c * d + n) d = 2 * c + nearestEven n d := by
  unfold nearestEven
  dsimp only
  rw [Nat.mul_comm (2 * c), Nat.mul_add_div hd, Nat.mul_add_mod, Nat.mul_add_mod, Nat.add_assoc]
  split
  · rfl
  · split
    · rfl
    · split <;> rfl

theorem cast_div_eq (n : Nat) (hd : 0 < d) : (n : ℚ) / d = (n / d : Nat) + (n % d : Nat) / d := by
  have hd' : (d : ℚ) ≠ 0 := by positivity
  have h : (d : ℚ) * (n / d : Nat) + (n % d : Nat) = n := by exact_mod_cast Nat.div_add_mod n d
  field_simp
  linarith

theorem abs_nearestEven_sub_le_half (n : Nat) (hd : 0 < d) :
    |(nearestEven n d : ℚ) - n / d| ≤ 1 / 2 := by
  have hd' : (0 : ℚ) < d := by exact_mod_cast hd
  obtain ⟨hl, hr⟩ := two_mul_nearestEven_mul_bounds n hd
  have hl' : (2 : ℚ) * (nearestEven n d * d) ≤ 2 * n + d := by exact_mod_cast hl
  have hr' : (2 : ℚ) * n ≤ 2 * (nearestEven n d * d) + d := by exact_mod_cast hr
  have hn : (n : ℚ) = n / d * d := (div_mul_cancel₀ _ hd'.ne').symm
  rw [hn] at hl' hr'
  rw [abs_le]
  constructor <;> nlinarith

theorem abs_nearestEven_sub_le (n k : Nat) (hd : 0 < d) :
    |(nearestEven n d : ℚ) - n / d| ≤ |(k : ℚ) - n / d| := by
  by_cases hk : k = nearestEven n d
  · rw [hk]
  · have hhalf := abs_nearestEven_sub_le_half n hd
    have h1 : (1 : ℚ) ≤ |(k : ℚ) - nearestEven n d| := by
      have h : (1 : Int) ≤ |(k : Int) - nearestEven n d| := Int.one_le_abs (by omega)
      exact_mod_cast h
    have htri := abs_sub_le (k : ℚ) (n / d) (nearestEven n d)
    rw [abs_sub_comm ((n : ℚ) / d)] at htri
    linarith

end

section
variable {m n : Nat}

theorem spacing_pos (n : Nat) : 0 < spacing n := Nat.pow_pos (by decide)

theorem spacing_dvd_spacing (h : m.log2 ≤ n.log2) : spacing m ∣ spacing n :=
  Nat.pow_dvd_pow 2 (by omega)

theorem spacing_mul_le (h : 2 ^ 52 ≤ n) : 2 ^ 52 * spacing n ≤ n := by
  have hn : n ≠ 0 := by
    rintro rfl
    exact absurd h (by decide)
  have hl : 52 ≤ n.log2 := (Nat.le_log2 hn).2 h
  have hp : 2 ^ 52 * spacing n = 2 ^ n.log2 := by
    rw [spacing, ← Nat.add_sub_cancel' hl, Nat.pow_add, Nat.add_sub_cancel_left, Nat.pow_eq]
  rw [hp]
  exact Nat.log2_self_le hn

theorem spacing_eq_two_pow {k : Nat} (hlow : 2 ^ 52 * 2 ^ k ≤ n) (hhigh : n < 2 ^ 53 * 2 ^ k) :
    spacing n = 2 ^ k := by
  have hn : n ≠ 0 := (Nat.lt_of_lt_of_le (by positivity) hlow).ne'
  rw [← pow_add, Nat.add_comm] at hlow hhigh
  rw [spacing, (Nat.log2_eq_iff hn).2 ⟨hlow, by omega⟩, Nat.add_sub_cancel]
  rfl

theorem exists_spacing (h : 2 ^ 52 ≤ n) :
    ∃ k, spacing n = 2 ^ k ∧ 2 ^ 52 * 2 ^ k ≤ n ∧ n < 2 ^ 53 * 2 ^ k := by
  have hn : n ≠ 0 := (Nat.lt_of_lt_of_le (by positivity) h).ne'
  have hl : 52 ≤ n.log2 := (Nat.le_log2 hn).2 h
  refine ⟨n.log2 - 52, rfl, spacing_mul_le h, ?_⟩
  have hlt := Nat.lt_log2_self (n := n)
  rwa [← pow_add, show 53 + (n.log2 - 52) = n.log2 + 1 by omega]

theorem mod_spacing_mul_pow {a : Nat} (h : a ≤ 2 ^ 53) (k : Nat) :
    a * 2 ^ k % spacing (a * 2 ^ k) = 0 := by
  apply Nat.mod_eq_zero_of_dvd
  rcases Nat.lt_or_eq_of_le h with h | h
  · by_cases ha : a = 0
    · rw [ha, Nat.zero_mul]
      exact Nat.dvd_zero _
    · have hl : (a * 2 ^ k).log2 < 53 + k := by
        rw [Nat.log2_lt (Nat.mul_ne_zero ha (by positivity)), Nat.pow_add]
        exact Nat.mul_lt_mul_of_pos_right h (by positivity)
      have hd : spacing (a * 2 ^ k) ∣ 2 ^ k := Nat.pow_dvd_pow 2 (by omega)
      exact Nat.dvd_trans hd (Nat.dvd_mul_left _ _)
  · rw [h, ← Nat.pow_add]
    have hl : (2 ^ (53 + k)).log2 = 53 + k := Nat.log2_two_pow
    rw [spacing, hl]
    exact Nat.pow_dvd_pow 2 (by omega)

theorem mod_spacing_two_pow (k : Nat) : 2 ^ k % spacing (2 ^ k) = 0 := by
  have h := mod_spacing_mul_pow (a := 1) (by decide) k
  rwa [Nat.one_mul] at h

theorem log2_lt_of_le_pow {j k : Nat} (h : n ≤ 2 ^ j) (hk : j < k) : n.log2 < k := by
  by_cases hn : n = 0
  · rw [hn]
    exact Nat.zero_lt_of_lt hk
  · exact (Nat.log2_lt hn).2 (Nat.lt_of_le_of_lt h (Nat.pow_lt_pow_right (by decide) hk))

theorem fits_mul_pow {a k : Nat} (ha : a ≤ 2 ^ 53) (hk : k < 2045) : Fits (a * Nat.pow 2 k) := by
  have hle : a * 2 ^ k ≤ 2 ^ (53 + k) := by
    rw [Nat.pow_add]
    exact Nat.mul_le_mul_right _ ha
  exact ⟨mod_spacing_mul_pow ha k, log2_lt_of_le_pow hle (by omega)⟩

theorem eq_mul_spacing (h : n % spacing n = 0) : n = n / spacing n * spacing n :=
  (Nat.div_mul_cancel (Nat.dvd_of_mod_eq_zero h)).symm

theorem div_spacing_lt (n : Nat) : n / spacing n < 2 ^ 53 := by
  have hp : ∀ k, 2 ^ (k + 1) ≤ 2 ^ 53 * Nat.pow 2 (k - 52) := by
    intro k
    change _ ≤ 2 ^ 53 * 2 ^ (k - 52)
    rw [← Nat.pow_add]
    exact Nat.pow_le_pow_right (by decide) (by omega)
  rw [Nat.div_lt_iff_lt_mul (spacing_pos n)]
  exact Nat.lt_of_lt_of_le Nat.lt_log2_self (hp n.log2)

end

namespace Binary64

section
variable {n d : Nat}

theorem roundUnits_mul {v : Nat} (h : v % spacing v = 0) (hd : 0 < d) :
    roundUnits (v * d) d = v := by
  have hn : v * d = v / spacing v * (d * spacing v) := by
    conv_lhs => rw [eq_mul_spacing h]
    ring
  rw [roundUnits, Nat.mul_div_cancel v hd]
  conv_lhs => rw [hn]
  rw [nearestEven_mul _ (Nat.mul_pos hd (spacing_pos v)), ← eq_mul_spacing h]

theorem two_mul_roundUnits_mul_bounds (n : Nat) (hd : 0 < d) :
    2 * (roundUnits n d * d) ≤ 2 * n + spacing (n / d) * d ∧
      2 * n ≤ 2 * (roundUnits n d * d) + spacing (n / d) * d := by
  have h := two_mul_nearestEven_mul_bounds n (Nat.mul_pos hd (spacing_pos (n / d)))
  have he : roundUnits n d * d = nearestEven n (d * spacing (n / d)) * (d * spacing (n / d)) := by
    rw [roundUnits, Nat.mul_comm d, Nat.mul_assoc]
  rwa [← he, Nat.mul_comm d (spacing _)] at h

theorem roundUnits_mul_mul {k : Nat} (n d : Nat) (hk : 0 < k) :
    roundUnits (k * n) (k * d) = roundUnits n d := by
  rw [roundUnits, roundUnits, Nat.mul_div_mul_left _ _ hk]
  rw [Nat.mul_assoc, nearestEven_mul_mul n hk]

theorem nearestEven_le (n d : Nat) : nearestEven n (d * spacing (n / d)) ≤ 2 ^ 53 := by
  have hq : n / (d * spacing (n / d)) < 2 ^ 53 := by
    rw [← Nat.div_div_eq_div_mul]
    exact div_spacing_lt (n / d)
  rcases nearestEven_cases n (d * spacing (n / d)) with ⟨h, -⟩ | ⟨h, -⟩ <;> omega

theorem fits_roundUnits (h : (n / d).log2 < 2045) : Fits (roundUnits n d) :=
  fits_mul_pow (nearestEven_le n d) (Nat.lt_of_le_of_lt (Nat.sub_le _ _) h)

theorem roundUnits_sub_eq (n : Nat) (hd : 0 < d) : (roundUnits n d : ℚ) - n / d =
    ((nearestEven n (d * spacing (n / d)) : ℚ) - n / (d * spacing (n / d) : Nat)) *
    spacing (n / d) := by
  have hs : (0 : ℚ) < spacing (n / d) := by exact_mod_cast spacing_pos _
  have hd' : (0 : ℚ) < d := by exact_mod_cast hd
  rw [roundUnits, Nat.cast_mul, Nat.cast_mul]
  field_simp

theorem abs_roundUnits_sub_le_spacing (n : Nat) (hd : 0 < d) :
    |(roundUnits n d : ℚ) - n / d| ≤ 1 / 2 * spacing (n / d) := by
  have hs : (0 : ℚ) ≤ spacing (n / d) := Nat.cast_nonneg _
  have h := abs_nearestEven_sub_le_half n (Nat.mul_pos hd (spacing_pos (n / d)))
  rw [roundUnits_sub_eq n hd, abs_mul, abs_of_nonneg hs]
  exact mul_le_mul_of_nonneg_right h hs

theorem abs_roundUnits_sub_le (hd : 0 < d) (h : 2 ^ 52 ≤ n / d) :
    |(roundUnits n d : ℚ) - n / d| ≤ n / d / 2 ^ 53 := by
  have hs : ((2 ^ 52 * spacing (n / d) : Nat) : ℚ) ≤ (n / d : Nat) := by
    exact_mod_cast spacing_mul_le h
  have hq : ((n / d : Nat) : ℚ) ≤ n / d := Nat.cast_div_le
  have hu := abs_roundUnits_sub_le_spacing n hd
  push_cast at hs
  linarith

theorem abs_roundUnits_sub_le_mul (n k : Nat) (hd : 0 < d) :
    |(roundUnits n d : ℚ) - n / d| ≤ |((k * spacing (n / d) : Nat) : ℚ) - n / d| := by
  have hs : (0 : ℚ) < spacing (n / d) := by exact_mod_cast spacing_pos _
  have hd' : (0 : ℚ) < d := by exact_mod_cast hd
  have h := abs_nearestEven_sub_le n k (Nat.mul_pos hd (spacing_pos (n / d)))
  have hk : ((k * spacing (n / d) : Nat) : ℚ) - n / d =
      ((k : ℚ) - n / (d * spacing (n / d) : Nat)) * spacing (n / d) := by
    push_cast
    field_simp
  rw [roundUnits_sub_eq n hd, hk, abs_mul, abs_mul]
  exact mul_le_mul_of_nonneg_right h (abs_nonneg _)

/-- No number is nearer. Those of lower binades lie on a finer grid, but below the least
number of the binade, which is one too. -/
theorem abs_roundUnits_sub_le_sub (n : Nat) (hd : 0 < d) {v : Nat} (hv : v % spacing v = 0) :
    |(roundUnits n d : ℚ) - n / d| ≤ |(v : ℚ) - n / d| := by
  by_cases hl : (n / d).log2 ≤ v.log2
  · obtain ⟨k, hk⟩ : spacing (n / d) ∣ v :=
      Nat.dvd_trans (spacing_dvd_spacing hl) (Nat.dvd_of_mod_eq_zero hv)
    rw [hk, Nat.mul_comm]
    exact abs_roundUnits_sub_le_mul n k hd
  · have hq : n / d ≠ 0 := by
      intro h
      rw [h] at hl
      exact hl (Nat.zero_le _)
    obtain ⟨k, hk⟩ : spacing (n / d) ∣ 2 ^ (n / d).log2 := Nat.pow_dvd_pow 2 (Nat.sub_le _ _)
    have hlow : v ≤ 2 ^ (n / d).log2 :=
      (Nat.lt_log2_self.trans_le (Nat.pow_le_pow_right (by decide) (by omega))).le
    have hlow' : (v : ℚ) ≤ (2 ^ (n / d).log2 : Nat) := by exact_mod_cast hlow
    have hhigh : ((2 ^ (n / d).log2 : Nat) : ℚ) ≤ n / d :=
      le_trans (by exact_mod_cast Nat.log2_self_le hq) Nat.cast_div_le
    have hgrid := abs_roundUnits_sub_le_mul n k hd
    rw [Nat.mul_comm, ← hk, abs_of_nonpos (sub_nonpos.2 hhigh)] at hgrid
    rw [abs_of_nonpos (sub_nonpos.2 (hlow'.trans hhigh))]
    linarith

/- A number is nearer to itself than any other, so rounding does not pass it. -/

theorem le_roundUnits {v : Nat} (hd : 0 < d) (hv : v % spacing v = 0) (h : v * d ≤ n) :
    v ≤ roundUnits n d := by
  have hd' : (0 : ℚ) < d := by exact_mod_cast hd
  have hq : (v : ℚ) ≤ n / d := by
    rw [le_div_iff₀ hd']
    exact_mod_cast h
  have hnear := abs_roundUnits_sub_le_sub n hd hv
  rw [abs_of_nonpos (sub_nonpos.2 hq)] at hnear
  have hlow := neg_le_of_abs_le hnear
  have hle : (v : ℚ) ≤ roundUnits n d := by linarith
  exact_mod_cast hle

theorem roundUnits_le {v : Nat} (hd : 0 < d) (hv : v % spacing v = 0) (h : n ≤ v * d) :
    roundUnits n d ≤ v := by
  have hd' : (0 : ℚ) < d := by exact_mod_cast hd
  have hq : (n : ℚ) / d ≤ v := by
    rw [div_le_iff₀ hd']
    exact_mod_cast h
  have hnear := abs_roundUnits_sub_le_sub n hd hv
  rw [abs_of_nonneg (sub_nonneg.2 hq)] at hnear
  have hle : (roundUnits n d : ℚ) ≤ v := by linarith [le_of_abs_le hnear]
  exact_mod_cast hle

end

def IsNearest (u n d : Nat) : Prop := Fits u ∧ ∀ v, Fits v → |(u : ℚ) - n / d| ≤ |(v : ℚ) - n / d|

section
variable {n d : Nat} {s : Bool}

theorem ofUnits_eq_finite (s : Bool) (h : Fits (roundUnits n d)) :
    ofUnits s n d = finite s (roundUnits n d) h :=
  dif_pos h

theorem ofUnits_eq_of_roundUnits {u : Nat} (s : Bool) (h : Fits u) (hr : roundUnits n d = u) :
    ofUnits s n d = finite s u h := by
  subst hr
  exact ofUnits_eq_finite s h

theorem eq_roundUnits_of_ofUnits {u : Nat} {t : Bool} {h : Fits u}
    (hu : ofUnits s n d = finite t u h) : u = roundUnits n d := by
  unfold ofUnits at hu
  dsimp only at hu
  split at hu
  · rw [finite.injEq] at hu
    exact hu.2.symm
  · cases hu

theorem isNearest_of_ofUnits {u : Nat} {h : Fits u} (hd : 0 < d)
    (hu : ofUnits s n d = finite s u h) : IsNearest u n d := by
  rw [eq_roundUnits_of_ofUnits hu] at h ⊢
  exact ⟨h, fun v hv => abs_roundUnits_sub_le_sub n hd hv.1⟩

theorem ofUnits_mul_mul {k : Nat} (s : Bool) (n d : Nat) (hk : 0 < k) :
    ofUnits s (k * n) (k * d) = ofUnits s n d := by
  simp only [ofUnits, roundUnits_mul_mul n d hk]

theorem ofUnits_of_fits {v : Nat} (s : Bool) (h : Fits v) (hd : 0 < d) :
    ofUnits s (v * d) d = finite s v h := by
  simp only [ofUnits, roundUnits_mul h.1 hd, h, dite_true]

theorem neg_ofUnits (s : Bool) (n d : Nat) : (ofUnits s n d).neg = ofUnits (!s) n d := by
  unfold ofUnits
  dsimp only
  split <;> rfl

/- One is a power of two that is better not written out. -/
theorem exists_one : ∃ k, k = 1074 ∧ one = 2 ^ k := ⟨1074, rfl, by decide +kernel⟩

theorem one_pos : 0 < one := by
  obtain ⟨k, -, hk⟩ := exists_one
  rw [hk]
  positivity

theorem cast_one_pos : (0 : ℚ) < one := by exact_mod_cast one_pos

theorem ofNat_of_fits (h : Fits (n * one)) : ofNat n = finite false (n * one) h := by
  have hu := ofUnits_of_fits false h (d := 1) (by decide)
  rwa [Nat.mul_one] at hu

theorem fits_mul_one (h : n ≤ 2 ^ 53) : Fits (n * one) := by
  obtain ⟨k, hk, h1⟩ := exists_one
  rw [h1]
  exact fits_mul_pow h (by omega)

theorem one_dvd_of_le (hn : n % spacing n = 0) (h : 2 ^ 52 * one ≤ n) : one ∣ n := by
  obtain ⟨o, -, h1⟩ := exists_one
  obtain ⟨j, hs, -, hj⟩ := exists_spacing (h.trans' (Nat.le_mul_of_pos_right _ Binary64.one_pos))
  rw [hs] at hn
  have hlt : 2 ^ o < 2 ^ (j + 1) := by
    rw [h1] at h
    rw [pow_succ]
    omega
  have hoj : o ≤ j := Nat.lt_succ_iff.1 ((Nat.pow_lt_pow_iff_right (by decide)).1 hlt)
  rw [h1]
  exact (Nat.pow_dvd_pow 2 hoj).trans (Nat.dvd_of_mod_eq_zero hn)

end

end Binary64
end FieldFormula
