import FieldFormula.Proofs.RoundPlaces

/-!
Rounding to places stays within the finite numbers. A scaled decimal is below
`2 ^ 97`, and each operation on the way back to binary64 adds its own share to the
bound, which remains far from the largest number.
-/
namespace FieldFormula

namespace ScaledDecimal
variable {m k n : Nat} {t : Int}

theorem timesFives_le (h : m ≤ limit) : (timesFives k m t).1 ≤ limit := by
  induction k generalizing m t with
  | zero => exact h
  | succ k ih =>
    rw [timesFives]
    split
    · next h' => exact ih h'.2.le
    · exact ih (by omega)

theorem overFives_le (h : m ≤ limit) : ∀ r ∈ overFives k m t, r.1 ≤ limit := by
  induction k generalizing m t with
  | zero =>
    rintro _ ⟨⟩
    exact h
  | succ k ih =>
    rw [overFives]
    split
    · next h' => exact ih h'.le
    · split
      · rintro _ ⟨⟩
      · exact ih (by omega)

theorem timesTens_le (h : m ≤ limit) : ∀ r ∈ timesTens k m, r ≤ limit := by
  induction k generalizing m with
  | zero =>
    rintro _ ⟨⟩
    exact h
  | succ k ih =>
    rw [timesTens]
    split
    · next h' => exact ih h'.le
    · rintro _ ⟨⟩

theorem dropDigits_le (scale : Nat) (h : m ≤ limit) : (dropDigits scale k m).mantissa ≤ limit := by
  induction k generalizing m with
  | zero => exact h
  | succ k ih =>
    rw [dropDigits]
    split
    · exact Nat.zero_le _
    · refine ih ?_
      split <;> omega

theorem ofTens_le (h : m ≤ limit) : ∀ d ∈ ofTens m t, d.mantissa ≤ limit := by
  intro d hd
  unfold ofTens at hd
  split at hd
  · obtain ⟨r, hr, rfl⟩ := Option.map_eq_some_iff.1 hd
    exact timesTens_le h r hr
  · split at hd
    · obtain rfl := Option.some.inj hd
      exact dropDigits_le 28 h
    · obtain rfl := Option.some.inj hd
      exact h

theorem ofUnits?_le : ∀ d ∈ ofUnits? n, d.mantissa ≤ limit := by
  intro d hd
  have hm : n / spacing n ≤ limit := (div_spacing_lt n).le.trans (by decide)
  unfold ofUnits? at hd
  dsimp only at hd
  split at hd
  · obtain rfl := Option.some.inj hd
    exact Nat.zero_le _
  · split at hd
    · exact ofTens_le (timesFives_le hm) d hd
    · obtain ⟨r, hr, hd⟩ := Option.bind_eq_some_iff.1 hd
      exact ofTens_le (overFives_le hm r hr) d hd

theorem round_mantissa_le (p : Nat) (d : ScaledDecimal) :
    (d.round p).mantissa ≤ d.mantissa + 1 := by
  unfold round
  split
  · exact Nat.le_succ _
  · have hq := Nat.div_le_self d.mantissa (Nat.pow 10 (d.scale - p))
    dsimp only
    split <;> omega

end ScaledDecimal

namespace Binary64

def UpTo (k : Nat) (x : Binary64) : Prop := ∃ u h, x = finite false u h ∧ u ≤ 2 ^ k * one

section
variable {n d j k : Nat} {x y : Binary64}

theorem upTo_ofUnits (hd : 0 < d) (hk : k ≤ 200) (h : n ≤ 2 ^ k * one * d) :
    UpTo k (ofUnits false n d) := by
  obtain ⟨o, ho, h1⟩ := exists_one
  have hpow : 2 ^ k * one = 2 ^ (k + o) := by rw [h1, pow_add]
  rw [hpow] at h
  have hq : n / d ≤ 2 ^ (k + o) := Nat.div_le_of_le_mul (by rwa [Nat.mul_comm])
  have hf := fits_roundUnits (log2_lt_of_le_pow (k := 2045) hq (by omega))
  refine ⟨_, hf, ofUnits_eq_finite false hf, ?_⟩
  rw [hpow]
  exact roundUnits_le hd (mod_spacing_two_pow _) h

theorem upTo_ofNat (hk : k ≤ 200) (h : n ≤ 2 ^ k) : UpTo k (ofNat n) := by
  refine upTo_ofUnits Nat.one_pos hk ?_
  rw [Nat.mul_one]
  exact Nat.mul_le_mul_right one h

theorem UpTo.add (hk : k < 200) (hx : UpTo k x) (hy : UpTo k y) : UpTo (k + 1) (x.add y) := by
  obtain ⟨u, hu, rfl, hux⟩ := hx
  obtain ⟨v, hv, rfl, hvy⟩ := hy
  by_cases h0 : u + v = 0
  · have hu0 : u = 0 := by omega
    have hv0 : v = 0 := by omega
    subst hu0 hv0
    exact ⟨0, fits_zero, rfl, Nat.zero_le _⟩
  · rw [add_finite (by omega)]
    refine upTo_ofUnits Nat.one_pos hk ?_
    rw [pow_succ]
    linarith

theorem UpTo.mul (hk : j + k ≤ 200) (hx : UpTo j x) (hy : UpTo k y) : UpTo (j + k) (x.mul y) := by
  obtain ⟨u, hu, rfl, hux⟩ := hx
  obtain ⟨v, hv, rfl, hvy⟩ := hy
  refine upTo_ofUnits Binary64.one_pos hk ?_
  calc u * v ≤ 2 ^ j * one * (2 ^ k * one) := Nat.mul_le_mul hux hvy
    _ = 2 ^ (j + k) * one * one := by ring

theorem UpTo.div (hk : k ≤ 200) (hx : UpTo k x) (hd : 0 < d) (hf : Fits (d * one)) :
    UpTo k (x.div (finite false (d * one) hf)) := by
  obtain ⟨u, hu, rfl, hux⟩ := hx
  have h0 : 0 < d * one := Nat.mul_pos hd Binary64.one_pos
  have hle : one ≤ d * one := Nat.le_mul_of_pos_left one hd
  rw [Binary64.div, if_neg h0.ne']
  exact upTo_ofUnits h0 hk (Nat.mul_le_mul hux hle)

theorem UpTo.round (hk : k < 200) (hx : UpTo k x) : UpTo (k + 1) x.round := by
  obtain ⟨u, hu, rfl, hux⟩ := hx
  have hq : (2 * u + one) / (2 * one) * (2 * one) ≤ 2 * u + one := Nat.div_mul_le_self _ _
  have hp : one ≤ 2 ^ k * one := Nat.le_mul_of_pos_left one (by positivity)
  refine upTo_ofUnits Nat.one_pos hk ?_
  rw [pow_succ]
  linarith

end

theorem upTo_toBinary64 {d : ScaledDecimal} (hs : d.scale ≤ 22) (hm : d.mantissa ≤ 2 ^ 97) :
    UpTo 173 d.toBinary64 := by
  have hpos : 0 < 10 ^ d.scale := by positivity
  have hten : 10 ^ d.scale ≤ 2 ^ 74 := (Nat.pow_le_pow_right (by decide) hs).trans (by decide)
  have hnum : ofNat (10 ^ d.scale) = finite false (10 ^ d.scale * one) (fits_ten_pow hs) :=
    ofNat_of_fits (fits_ten_pow hs)
  have hwhole : UpTo 97 (ofNat (d.mantissa / 10 ^ d.scale)) :=
    upTo_ofNat (by decide) ((Nat.div_le_self _ _).trans hm)
  have hfraction : UpTo 97 ((ofNat (d.mantissa % 10 ^ d.scale)).div (ofNat (10 ^ d.scale))) := by
    rw [hnum]
    exact (upTo_ofNat (by decide) ((Nat.mod_le _ _).trans hm)).div (by decide) hpos _
  have hpower : UpTo 74 (ofNat (10 ^ d.scale)) := upTo_ofNat (by decide) hten
  have hproduct := ((hwhole.add (by decide) hfraction).mul (by decide) hpower).round (by decide)
  unfold ScaledDecimal.toBinary64
  dsimp only
  rw [Nat.pow_eq, powNat_ten hs]
  split
  · obtain ⟨u, hu, he, hle⟩ := hwhole
    exact ⟨u, hu, he,
      hle.trans (Nat.mul_le_mul_right one (Nat.pow_le_pow_right (by decide) (by decide)))⟩
  · rw [hnum] at hproduct ⊢
    exact hproduct.div (by decide) hpos _

theorem exists_roundPlaces_eq_finite {p n : Nat} (hp : p ≤ 22) (h : Fits n) :
    ∃ u hu, (finite false n h).roundPlaces p = finite false u hu := by
  cases hof : ScaledDecimal.ofUnits? n with
  | none => exact ⟨n, h, roundPlaces_of_none hof⟩
  | some d =>
    have hlim : ScaledDecimal.limit + 1 ≤ 2 ^ 97 := by decide
    have hm := d.round_mantissa_le p
    have hd := ScaledDecimal.ofUnits?_le d hof
    obtain ⟨u, hu, he, -⟩ :=
      upTo_toBinary64 ((d.round_spec p).1.trans hp) (by omega : (d.round p).mantissa ≤ 2 ^ 97)
    rw [roundPlaces_of_some hof he]
    split
    · exact ⟨0, fits_zero, rfl⟩
    · exact ⟨u, hu, rfl⟩

end Binary64
end FieldFormula
