import FieldFormula.Proofs.ScaledRounding

/-!
Rounding to decimal places. The exact count of decimals decides, up to `2 ^ 50` of them;
whole numbers of any size stay as they are.
-/
namespace FieldFormula

namespace Binary64

/-- `10 ^ p` times `n` units as a whole number, a half going up. -/
def decimals (p n : Nat) : Nat := (2 * (10 ^ p * n) + one) / (2 * one)

/-- What is left of `10 ^ p` times `n` units above the half that is rounded up to `decimals p n`. -/
def aboveHalf (p n : Nat) : Nat := (2 * (10 ^ p * n) + one) % (2 * one)

def share (p n : Nat) : ℚ := aboveHalf p n / (2 * one : Nat)

/-- `10 ^ p` times `n` units are a half, or farther than `2 ^ (-25)` from every half. -/
def Clear (p n : Nat) : Prop :=
  aboveHalf p n = 0 ∨ 2 * one < 2 ^ 25 * aboveHalf p n ∧
    2 * one < 2 ^ 25 * (2 * one - aboveHalf p n)

instance (p n : Nat) : Decidable (Clear p n) := inferInstanceAs (Decidable (_ ∨ _))

section
variable {p n : Nat}

theorem two_one_pos : 0 < 2 * one := Nat.mul_pos two_pos Binary64.one_pos

theorem ten_pow_mul_add_half (p n : Nat) :
    (10 : ℚ) ^ p * (n / one) + 1 / 2 = decimals p n + share p n := by
  have hone := cast_one_pos
  rw [decimals, share, aboveHalf, ← cast_div_eq _ two_one_pos]
  push_cast
  field_simp

theorem share_nonneg (p n : Nat) : 0 ≤ share p n :=
  div_nonneg (Nat.cast_nonneg _) (Nat.cast_nonneg _)

theorem share_lt_one (p n : Nat) : share p n < 1 := by
  have h : (0 : ℚ) < (2 * one : Nat) := by exact_mod_cast two_one_pos
  rw [share, div_lt_one h]
  exact_mod_cast Nat.mod_lt _ two_one_pos

theorem floor_of_near {y : ℚ} (hlow : |y - 10 ^ p * (n / one)| < share p n)
    (hhigh : |y - 10 ^ p * (n / one)| < 1 - share p n) : ⌊y + 1 / 2⌋₊ = decimals p n := by
  have hx := ten_pow_mul_add_half p n
  have hc : (0 : ℚ) ≤ decimals p n := Nat.cast_nonneg _
  have hlow' := neg_lt_of_abs_lt hlow
  have hhigh' := lt_of_abs_lt hhigh
  rw [Nat.floor_eq_iff (by linarith)]
  constructor <;> linarith

theorem aboveHalf_mul {m k : Nat} (h : n * 2 ^ k = m * one) :
    aboveHalf p n * 2 ^ k = (2 * 10 ^ p * m + 2 ^ k) % 2 ^ (k + 1) * one := by
  have hnum : (2 * (10 ^ p * n) + one) * 2 ^ k = (2 * 10 ^ p * m + 2 ^ k) * one := by
    calc (2 * (10 ^ p * n) + one) * 2 ^ k
      _ = 2 * 10 ^ p * (n * 2 ^ k) + 2 ^ k * one := by ring
      _ = (2 * 10 ^ p * m + 2 ^ k) * one := by
        rw [h]
        ring
  have hden : 2 * one * 2 ^ k = 2 ^ (k + 1) * one := by ring
  rw [aboveHalf, ← Nat.mul_mod_mul_right, hnum, hden, Nat.mul_mod_mul_right]

theorem share_eq {m k : Nat} (h : n * 2 ^ k = m * one) :
    share p n = ((2 * 10 ^ p * m + 2 ^ k) % 2 ^ (k + 1) : Nat) / 2 ^ (k + 1) := by
  have htwo : ((2 * one : Nat) : ℚ) ≠ 0 := by exact_mod_cast two_one_pos.ne'
  have ha : (aboveHalf p n : ℚ) * 2 ^ k = ((2 * 10 ^ p * m + 2 ^ k) % 2 ^ (k + 1) : Nat) * one := by
    exact_mod_cast aboveHalf_mul h
  rw [share, div_eq_div_iff htwo (by positivity), pow_succ, ← mul_assoc, ha]
  push_cast
  ring

/- The digits behind the point are those of a fraction of twos: `p` of these go into `10 ^ p`, and
unless a half is hit, at least the last of the others lies between. -/
theorem share_eq_half_or_far {m k : Nat} (hm : m < 2 ^ 53) (h : n * 2 ^ k = m * one)
    (h0 : aboveHalf p n ≠ 0) :
    share p n = 1 / 2 ∨
      (10 ^ p * ((n : ℚ) / one) ≤ 5 ^ p * 2 ^ 54 * share p n ∧
        10 ^ p * ((n : ℚ) / one) ≤ 5 ^ p * 2 ^ 54 * (1 - share p n)) := by
  have hone := cast_one_pos
  have hmul := aboveHalf_mul (p := p) h
  rw [share_eq h]
  have hlt : (2 * 10 ^ p * m + 2 ^ k) % 2 ^ (k + 1) < 2 ^ (k + 1) := Nat.mod_lt _ (by positivity)
  by_cases hk : p ≤ k
  · right
    have hdvd : 2 ^ p ∣ (2 * 10 ^ p * m + 2 ^ k) % 2 ^ (k + 1) := by
      rw [Nat.dvd_mod_iff (Nat.pow_dvd_pow 2 (by omega))]
      have hten : 2 ^ p ∣ 10 ^ p := pow_dvd_pow_of_dvd ⟨5, rfl⟩ p
      exact Nat.dvd_add (Nat.dvd_mul_right_of_dvd (Nat.dvd_mul_left_of_dvd hten 2) m)
        (Nat.pow_dvd_pow 2 hk)
    generalize (2 * 10 ^ p * m + 2 ^ k) % 2 ^ (k + 1) = b at *
    have hb : b ≠ 0 := by
      rintro rfl
      rw [Nat.zero_mul] at hmul
      exact Nat.mul_ne_zero h0 (by positivity) hmul
    have hlow : 2 ^ p ≤ b := Nat.le_of_dvd (Nat.pos_of_ne_zero hb) hdvd
    have hhigh : 2 ^ p + b ≤ 2 ^ (k + 1) := by
      have hd :=
        Nat.le_of_dvd (Nat.sub_pos_of_lt hlt)
          (Nat.dvd_sub (Nat.pow_dvd_pow 2 (by omega : p ≤ k + 1)) hdvd)
      omega
    have hx : 10 ^ p * ((n : ℚ) / one) ≤ 5 ^ p * 2 ^ 54 * (2 ^ p / 2 ^ (k + 1)) := by
      have hten : (10 : ℚ) ^ p = 5 ^ p * 2 ^ p := by rw [← mul_pow]; norm_num
      have hv : (n : ℚ) / one = m / 2 ^ k := by
        rw [div_eq_div_iff hone.ne' (by positivity)]
        exact_mod_cast h
      have hm' : (m : ℚ) ≤ 2 ^ 53 := by exact_mod_cast hm.le
      calc 10 ^ p * ((n : ℚ) / one)
        _ = 5 ^ p * 2 ^ p * m / 2 ^ k := by rw [hv, hten, mul_div_assoc]
        _ ≤ 5 ^ p * 2 ^ p * 2 ^ 53 / 2 ^ k := by gcongr
        _ = 5 ^ p * 2 ^ 54 * (2 ^ p / 2 ^ (k + 1)) := by
          field_simp
          ring
    have hlow' : (2 : ℚ) ^ p / 2 ^ (k + 1) ≤ b / 2 ^ (k + 1) := by
      gcongr
      exact_mod_cast hlow
    have hhigh' : (2 : ℚ) ^ p / 2 ^ (k + 1) ≤ 1 - b / 2 ^ (k + 1) := by
      rw [le_sub_iff_add_le, ← add_div, div_le_one (by positivity)]
      exact_mod_cast hhigh
    exact ⟨hx.trans (by gcongr), hx.trans (by gcongr)⟩
  · left
    have hten : 2 ^ (k + 1) ∣ 2 * 10 ^ p * m := by
      have hp : 2 ^ (k + 1) ∣ 10 ^ p :=
        Nat.dvd_trans (Nat.pow_dvd_pow 2 (by omega : k + 1 ≤ p)) (pow_dvd_pow_of_dvd ⟨5, rfl⟩ p)
      exact Nat.dvd_mul_right_of_dvd (Nat.dvd_mul_left_of_dvd hp 2) m
    have hb : (2 * 10 ^ p * m + 2 ^ k) % 2 ^ (k + 1) = 2 ^ k := by
      rw [Nat.add_mod, Nat.mod_eq_zero_of_dvd hten, Nat.zero_add, Nat.mod_mod]
      exact Nat.mod_eq_of_lt (Nat.pow_lt_pow_right (by decide) (Nat.lt_succ_self k))
    rw [hb, pow_succ]
    push_cast
    field_simp

theorem log2_le_of_decimals (h : decimals p n ≤ 2 ^ 50) : n.log2 ≤ 1126 := by
  obtain ⟨o, ho, h1⟩ := exists_one
  have hlt : 2 * (10 ^ p * n) + one < (2 ^ 50 + 1) * (2 * one) :=
    (Nat.div_lt_iff_lt_mul two_one_pos).1 (Nat.lt_succ_of_le h)
  have hn : n ≤ 10 ^ p * n := Nat.le_mul_of_pos_left n (by positivity)
  have hle : n ≤ 2 ^ (51 + o) := by
    rw [pow_add, ← h1]
    omega
  exact Nat.le_of_lt_succ (log2_lt_of_le_pow hle (by omega))

def conversionError (p n : Nat) : ℚ :=
  10 ^ p * (10 / 9 * (1 / 10 ^ 28)) + 1 / 2 ^ 83 * (10 ^ p * (n / one))

structure Safe (p n : Nat) : Prop where
  below : conversionError p n < share p n
  above : conversionError p n < 1 - share p n

theorem abs_sub_le_conversionError {y : ℚ}
    (h : |y - n / one| ≤ 10 / 9 * (1 / 10 ^ 28) + 1 / 2 ^ 83 * (n / one)) :
    |10 ^ p * y - 10 ^ p * (n / one)| ≤ conversionError p n := by
  have hten : (0 : ℚ) < 10 ^ p := by positivity
  rw [← mul_sub, abs_mul, abs_of_pos hten]
  calc 10 ^ p * |y - n / one|
    _ ≤ 10 ^ p * (10 / 9 * (1 / 10 ^ 28) + 1 / 2 ^ 83 * (n / one)) :=
      mul_le_mul_of_nonneg_left h hten.le
    _ = conversionError p n := by
      rw [conversionError]
      ring

theorem ten_pow_mul_bounds (hc : decimals p n ≤ 2 ^ 50) :
    (0 : ℚ) ≤ 10 ^ p * (n / one) ∧ (10 : ℚ) ^ p * (n / one) ≤ 2 ^ 51 := by
  have hx := ten_pow_mul_add_half p n
  have hs := share_lt_one p n
  have hc' : (decimals p n : ℚ) ≤ 2 ^ 50 := by exact_mod_cast hc
  have hq : (0 : ℚ) ≤ n / one := div_nonneg (Nat.cast_nonneg n) (Nat.cast_nonneg one)
  exact ⟨mul_nonneg (by positivity) hq, by linarith⟩

/- Below a quarter the nearest half is the first one. From there on the digits of the
number keep it away from every half. -/
theorem safe_of_few_places (hp : p ≤ 6) (hn : n % spacing n = 0) (hc : decimals p n ≤ 2 ^ 50)
    (h0 : aboveHalf p n ≠ 0) : Safe p n := by
  obtain ⟨m, k, hm, hk⟩ : ∃ m k : Nat, m < 2 ^ 53 ∧ n * 2 ^ k = m * one := by
    by_cases hz : n = 0
    · exact ⟨0, 0, by decide, by rw [hz, Nat.zero_mul, Nat.zero_mul]⟩
    · obtain ⟨m, k, hm, -, hk, -⟩ := ScaledDecimal.ofUnits?_of_small hn hz (log2_le_of_decimals hc)
      exact ⟨m, k, hm, hk⟩
  have hfar := share_eq_half_or_far hm hk h0
  have hx := ten_pow_mul_add_half p n
  obtain ⟨hx0, hx1⟩ := ten_pow_mul_bounds hc
  have hs0 := share_nonneg p n
  have hs1 := share_lt_one p n
  have hten : (10 : ℚ) ^ p ≤ 10 ^ 6 := pow_le_pow_right₀ (by norm_num) hp
  have hfive : (5 : ℚ) ^ p * 2 ^ 54 ≤ 5 ^ 6 * 2 ^ 54 :=
    mul_le_mul_of_nonneg_right (pow_le_pow_right₀ (by norm_num) hp) (by positivity)
  have herr : conversionError p n ≤ 2 / 10 ^ 22 + 1 / 2 ^ 83 * (10 ^ p * (n / one)) := by
    rw [conversionError]
    linarith
  generalize 10 ^ p * ((n : ℚ) / one) = x at *
  rcases hfar with hh | ⟨hl, hr⟩
  · constructor <;> linarith
  · by_cases hq : x < 1 / 4
    · have hlt : (decimals p n : ℚ) < 1 := by linarith
      have hz : decimals p n = 0 := Nat.lt_one_iff.1 (by exact_mod_cast hlt)
      rw [hz, Nat.cast_zero] at hx
      constructor <;> linarith
    · have hl' := hl.trans (mul_le_mul_of_nonneg_right hfive hs0)
      have hr' := hr.trans (mul_le_mul_of_nonneg_right hfive (sub_nonneg.2 hs1.le))
      constructor <;> linarith

theorem safe_of_clear (hp : p ≤ 20) (hc : decimals p n ≤ 2 ^ 50) (hd : Clear p n)
    (h0 : aboveHalf p n ≠ 0) : Safe p n := by
  obtain ⟨hlow, hhigh⟩ := hd.resolve_left h0
  obtain ⟨hx0, hx1⟩ := ten_pow_mul_bounds hc
  have htwo : (0 : ℚ) < (2 * one : Nat) := by exact_mod_cast two_one_pos
  have hten : (10 : ℚ) ^ p ≤ 10 ^ 20 := pow_le_pow_right₀ (by norm_num) hp
  have herr : conversionError p n ≤ 1 / 2 ^ 25 := by
    rw [conversionError]
    linarith
  have hbelow : 1 / 2 ^ 25 < share p n := by
    rw [share, div_lt_div_iff₀ (by positivity) htwo]
    exact_mod_cast (by omega : 1 * (2 * one) < aboveHalf p n * 2 ^ 25)
  have habove : 1 / 2 ^ 25 < 1 - share p n := by
    have h : share p n < 1 - 1 / 2 ^ 25 := by
      rw [share, div_lt_iff₀ htwo]
      have hn : (2 : ℚ) ^ 25 * aboveHalf p n + (2 * one : Nat) < 2 ^ 25 * (2 * one : Nat) := by
        exact_mod_cast (by omega : 2 ^ 25 * aboveHalf p n + 2 * one < 2 ^ 25 * (2 * one))
      linarith
    linarith
  exact ⟨herr.trans_lt hbelow, herr.trans_lt habove⟩

theorem exists_ofUnits?_half (hp : p ≤ 20) (hn : n % spacing n = 0) (hc : decimals p n ≤ 2 ^ 50)
    (h0 : aboveHalf p n = 0) :
    ∃ d, ScaledDecimal.ofUnits? n = some d ∧ ⌊10 ^ p * d.value + 1 / 2⌋₊ = decimals p n := by
  have hdiv : 2 * one * decimals p n + aboveHalf p n = 2 * (10 ^ p * n) + one := Nat.div_add_mod _ _
  rw [h0, Nat.add_zero] at hdiv
  obtain ⟨c, hcount⟩ : ∃ c, decimals p n = c + 1 := by
    refine Nat.exists_eq_succ_of_ne_zero fun hz => ?_
    have hpos := Binary64.one_pos
    rw [hz, Nat.mul_zero] at hdiv
    omega
  have hhalf : 2 * 10 ^ p * n = (2 * c + 1) * one := by
    apply Nat.add_right_cancel (m := one)
    calc 2 * 10 ^ p * n + one
      _ = 2 * (10 ^ p * n) + one := by ring
      _ = 2 * one * (c + 1) := by rw [← hdiv, hcount]
      _ = (2 * c + 1) * one + one := by ring
  have hlim : 5 * (2 * c + 1) < ScaledDecimal.limit := by
    have : ScaledDecimal.limit = 2 ^ 96 := rfl
    omega
  have hof :=
    ScaledDecimal.ofUnits?_half hn (log2_le_of_decimals hc) (by omega) (by omega) hlim hhalf
  refine ⟨_, hof, ?_⟩
  have hv : (10 : ℚ) ^ p * ScaledDecimal.value ⟨5 * (2 * c + 1), p + 1⟩ + 1 / 2 =
      (c + 1 : Nat) := by
    rw [ScaledDecimal.value, pow_succ]
    push_cast
    field_simp
    ring
  rw [hv, Nat.floor_natCast, hcount]

theorem exists_ofUnits?_decimals (hp : p ≤ 20) (hn : n % spacing n = 0) (hc : decimals p n ≤ 2 ^ 50)
    (hd : p ≤ 6 ∨ Clear p n) :
    ∃ d, ScaledDecimal.ofUnits? n = some d ∧ ⌊10 ^ p * d.value + 1 / 2⌋₊ = decimals p n := by
  by_cases h0 : aboveHalf p n = 0
  · exact exists_ofUnits?_half hp hn hc h0
  · obtain ⟨d, hof, he⟩ := ScaledDecimal.exists_ofUnits? hn (log2_le_of_decimals hc)
    have herr := abs_sub_le_conversionError (p := p) he
    have hsafe : Safe p n :=
      hd.elim (fun h => safe_of_few_places h hn hc h0) fun h => safe_of_clear hp hc h h0
    exact ⟨d, hof, floor_of_near (herr.trans_lt hsafe.below) (herr.trans_lt hsafe.above)⟩

theorem toBinary64_round (hp : p ≤ 20) {d : ScaledDecimal} (hc : decimals p n ≤ 2 ^ 50)
    (hd : ⌊10 ^ p * d.value + 1 / 2⌋₊ = decimals p n) :
    (d.round p).toBinary64 = ofUnits false (decimals p n * one) (10 ^ p) := by
  obtain ⟨hscale, hm⟩ := d.round_spec p
  rw [hd] at hm
  have hpos : 0 < 10 ^ (p - (d.round p).scale) := by positivity
  have hmant : (d.round p).mantissa ≤ 2 ^ 50 := by
    rw [← hm] at hc
    exact Nat.le_trans (Nat.le_mul_of_pos_right _ hpos) hc
  have hnum : decimals p n * one = 10 ^ (p - (d.round p).scale) * ((d.round p).mantissa * one) := by
    rw [← hm]
    ring
  have hden : 10 ^ p = 10 ^ (p - (d.round p).scale) * 10 ^ (d.round p).scale := by
    rw [← pow_add, Nat.sub_add_cancel hscale]
  rw [ScaledDecimal.toBinary64_eq (by omega) hmant, hnum, hden, ofUnits_mul_mul _ _ _ hpos]

theorem exists_ofUnits_decimals (s : Bool) (hp : p ≤ 20) (h0 : decimals p n ≠ 0)
    (hc : decimals p n ≤ 2 ^ 50) :
    ∃ u h, ofUnits s (decimals p n * one) (10 ^ p) = finite s u h ∧ 2 ^ 52 ≤ u := by
  have hpos : 0 < 10 ^ p := by positivity
  have hone := mul_two_pow_le_one (k := p) (by omega)
  have hlow : 2 ^ 52 * 10 ^ p ≤ decimals p n * one :=
    Nat.le_trans hone (Nat.le_mul_of_pos_left _ (Nat.pos_of_ne_zero h0))
  have hhigh : decimals p n * one ≤ 2 ^ 100 * one * 10 ^ p :=
    Nat.le_trans (Nat.mul_le_mul_right _ (Nat.le_trans hc (by norm_num)))
      (Nat.le_mul_of_pos_right _ hpos)
  obtain ⟨u, h, hu, hlarge, -⟩ := exists_ofUnits s hpos hlow hhigh
  exact ⟨u, h, hu, hlarge⟩

theorem isZero_ofUnits_decimals (hp : p ≤ 20) (hc : decimals p n ≤ 2 ^ 50) :
    (ofUnits false (decimals p n * one) (10 ^ p)).isZero = decide (decimals p n = 0) := by
  by_cases h0 : decimals p n = 0
  · have hz : 0 * one = 0 * 10 ^ p := by rw [Nat.zero_mul, Nat.zero_mul]
    rw [h0, hz, ofUnits_of_fits false fits_zero (by positivity)]
    rfl
  · obtain ⟨u, hu, he, hlarge⟩ := exists_ofUnits_decimals false hp h0 hc
    rw [he, isZero, decide_eq_false h0]
    exact decide_eq_false (by omega)

theorem signed_ofUnits (s : Bool) (n d : Nat) :
    (if s = true then (ofUnits false n d).neg else ofUnits false n d) = ofUnits s n d := by
  cases s with
  | false => rw [if_neg Bool.false_ne_true]
  | true => rw [if_pos rfl, neg_ofUnits, Bool.not_false]

section
variable {s : Bool} {h : Fits n}

theorem roundPlaces_of_some {d : ScaledDecimal} {r : Binary64}
    (hof : ScaledDecimal.ofUnits? n = some d) (hr : (d.round p).toBinary64 = r) :
    (finite s n h).roundPlaces p =
      if r.isZero = true then zero false else if s = true then r.neg else r := by
  rw [roundPlaces, hof, ← hr]

theorem roundPlaces_of_none (hof : ScaledDecimal.ofUnits? n = none) :
    (finite s n h).roundPlaces p = finite s n h := by
  rw [roundPlaces, hof]

theorem roundPlaces_signed (p : Nat) (s : Bool) (h : Fits n) :
    (finite s n h).roundPlaces p =
      if ((finite false n h).roundPlaces p).isZero = true then zero false
      else if s = true then ((finite false n h).roundPlaces p).neg
      else (finite false n h).roundPlaces p := by
  cases hof : ScaledDecimal.ofUnits? n with
  | none =>
    have h0 : n ≠ 0 := by
      rintro rfl
      rw [ScaledDecimal.ofUnits?_zero] at hof
      cases hof
    rw [roundPlaces_of_none hof, roundPlaces_of_none hof, isZero,
      if_neg (by rwa [decide_eq_true_eq])]
    cases s <;> rfl
  | some d =>
    rw [roundPlaces_of_some hof rfl, roundPlaces_of_some hof rfl, if_neg Bool.false_ne_true]
    by_cases hz : (d.round p).toBinary64.isZero = true
    · rw [if_pos hz, if_pos hz]
      rfl
    · rw [if_neg hz, if_neg hz, if_neg hz]

theorem roundPlaces_of_decimals (hp : p ≤ 20) (hc : decimals p n ≤ 2 ^ 50)
    (hd : p ≤ 6 ∨ Clear p n) :
    (finite s n h).roundPlaces p =
      if decimals p n = 0 then zero false else ofUnits s (decimals p n * one) (10 ^ p) := by
  obtain ⟨d, hof, hcount⟩ := exists_ofUnits?_decimals hp h.1 hc hd
  rw [roundPlaces_of_some hof (toBinary64_round hp hc hcount), signed_ofUnits,
    isZero_ofUnits_decimals hp hc]
  simp only [decide_eq_true_eq]

end

theorem toBinary64_whole {q : Nat} (h : Fits (q * one)) :
    (ScaledDecimal.round p ⟨q, 0⟩).toBinary64 = finite false (q * one) h := by
  have hz := ScaledDecimal.isZero_div (k := 0) (by decide)
  rw [ScaledDecimal.round, if_pos (Nat.zero_le p), ScaledDecimal.toBinary64]
  dsimp only
  rw [Nat.pow_eq, Nat.pow_zero] at *
  rw [Nat.mod_one, Nat.div_one, hz, if_pos rfl, ofNat_of_fits h]

theorem roundPlaces_whole (p : Nat) (s : Bool) (q : Nat) (h : Fits (q * one)) :
    (finite s (q * one) h).roundPlaces p = if q = 0 then zero false else finite s (q * one) h := by
  rcases ScaledDecimal.ofUnits?_whole h with hof | hof
  · have hz : (finite false (q * one) h).isZero = decide (q = 0) := by
      rw [isZero]
      simp only [Nat.mul_eq_zero, Binary64.one_pos.ne', or_false]
    rw [roundPlaces_of_some hof (toBinary64_whole h), hz]
    simp only [decide_eq_true_eq]
    split
    · rfl
    · cases s with
      | false => rw [if_neg Bool.false_ne_true]
      | true => rw [if_pos rfl, neg, Bool.not_false]
  · have hq : q ≠ 0 := by
      rintro rfl
      rw [Nat.zero_mul, ScaledDecimal.ofUnits?_zero] at hof
      cases hof
    rw [roundPlaces_of_none hof, if_neg hq]

/-- Rounding to places. What is not finite and what is whole is kept. Up to `2 ^ 50` decimals the
exact count of them decides, a half going away from zero, and the result is the number nearest to
it; beyond six places this holds unless the number is close to a half without being one. -/
theorem roundPlaces_eq (p : Nat) :
    (∀ x : Binary64, x.isFinite = false → x.roundPlaces p = x) ∧
    (∀ s q (h : Fits (q * one)), (finite s (q * one) h).roundPlaces p =
      if q = 0 then zero false else finite s (q * one) h) ∧
    (p ≤ 20 → ∀ s n (h : Fits n), decimals p n ≤ 2 ^ 50 → p ≤ 6 ∨ Clear p n →
      ∃ t u hu, (finite s n h).roundPlaces p = finite t u hu ∧
        IsNearest u (decimals p n * one) (10 ^ p) ∧
        finite t u hu = if decimals p n = 0 then zero false
          else ofUnits s (decimals p n * one) (10 ^ p)) := by
  refine ⟨?_, roundPlaces_whole p, ?_⟩
  · intro x hx
    cases x with
    | nan => rfl
    | infinity s => rfl
    | finite s n h => cases hx
  · intro hp s n h hc hd
    have hpos : 0 < 10 ^ p := by positivity
    have hr := roundPlaces_of_decimals (s := s) (h := h) hp hc hd
    by_cases h0 : decimals p n = 0
    · rw [if_pos h0] at hr ⊢
      have hx : ((decimals p n * one : Nat) : ℚ) / (10 ^ p : Nat) = 0 := by
        rw [h0, Nat.zero_mul, Nat.cast_zero, zero_div]
      refine ⟨false, 0, fits_zero, hr, ⟨fits_zero, fun v _ => ?_⟩, rfl⟩
      rw [hx, Nat.cast_zero, sub_zero, abs_zero]
      exact abs_nonneg _
    · obtain ⟨u, hu, he, -⟩ := exists_ofUnits_decimals s hp h0 hc
      rw [if_neg h0] at hr ⊢
      exact ⟨s, u, hu, hr.trans he, isNearest_of_ofUnits hpos he, he.symm⟩

/- Beyond six places a number can be as close to a half as the conversion is to the number: this one
lies below the half of the seventeenth place, and is rounded up. -/
example : ∃ n h, finite false n h = ofBits 0x3c570ef54646d495 ∧ decimals 17 n = 0 ∧ ¬ Clear 17 n ∧
    (finite false n h).roundPlaces 17 = ofBits 0x3c670ef54646d497 :=
  ⟨0x170ef54646d495 * (one / 2 ^ 110), by decide +kernel, by decide +kernel, by decide +kernel,
    by decide +kernel, by decide +kernel⟩

theorem roundPlaces_eq_of_half :
    ∃ n h, n = one / 8 ∧ finite true n h = ofBits 0xbfc0000000000000 ∧
      aboveHalf 2 n = 0 ∧ decimals 2 n = 13 ∧
      (finite true n h).roundCents = ofBits 0xbfc0a3d70a3d70a4 := by
  have hfit : Fits (one / 8) := by decide +kernel
  have hcount : decimals 2 (one / 8) = 13 := by decide +kernel
  have hbits : finite true (one / 8) hfit = ofBits 0xbfc0000000000000 := by decide +kernel +revert
  obtain ⟨-, -, hround⟩ := roundPlaces_eq 2
  obtain ⟨t, u, hu, he, -, hv⟩ :=
    hround (by decide) true (one / 8) hfit (by rw [hcount]; decide) (Or.inl (by decide))
  refine ⟨one / 8, hfit, rfl, hbits, by decide +kernel, hcount, ?_⟩
  rw [roundCents, he, hv, hcount, if_neg (by decide)]
  decide +kernel

/-- Four hundred trillion and an eighth: with more cents than a significand holds, the
last product rounds to the next number. -/
theorem roundCents_not_nearest :
    ∃ n h v hv, finite false n h = ofBits 0x42f6bcc41e900002 ∧ decimals 2 n = 40000000000000013 ∧
      ofUnits false (decimals 2 n * one) (10 ^ 2) = finite false n h ∧
      (finite false n h).roundCents = finite false v hv ∧
      finite false v hv = ofBits 0x42f6bcc41e900003 ∧
      ¬ IsNearest v (decimals 2 n * one) (10 ^ 2) := by
  have hfit : Fits (3200000000000001 * (one / 8)) := by decide +kernel
  have hfit' : Fits (6400000000000003 * (one / 16)) := by decide +kernel
  refine ⟨_, hfit, _, hfit', by decide +kernel +revert, by decide +kernel,
    by decide +kernel +revert, by decide +kernel +revert, by decide +kernel +revert, ?_⟩
  intro h
  have hn := h.2 _ hfit
  revert hn
  decide +kernel

end

end Binary64
end FieldFormula
