import FieldFormula.Proofs.DisplayedNumbers

/-!
The sign of a displayed number. A minus sign stands just before what is below zero and shows
a digit other than zero; for amounts this needs that a magnitude which does not round to zero
is not rounded to zero by its own digits.
-/
namespace FieldFormula

namespace Binary64

section
variable {n d u : Nat} {s t : Bool}

theorem lt_two_mul_roundUnits (hd : 0 < d) (h : d ≤ n) : n < 2 * roundUnits n d * d := by
  have hq : n / d ≠ 0 := (Nat.div_pos h hd).ne'
  have hlow : 2 ^ (n / d).log2 * d ≤ n := (Nat.le_div_iff_mul_le hd).1 (Nat.log2_self_le hq)
  have hround := le_roundUnits hd (mod_spacing_two_pow _) hlow
  calc n < 2 ^ ((n / d).log2 + 1) * d := (Nat.div_lt_iff_lt_mul hd).1 Nat.lt_log2_self
    _ ≤ 2 * roundUnits n d * d := by
      rw [pow_succ']
      exact Nat.mul_le_mul_right d (Nat.mul_le_mul_left 2 hround)

theorem eq_zero_or_one_le_of_whole {q : Nat} {h : Fits u}
    (hu : ofUnits s (q * one) 1 = finite t u h) : u = 0 ∨ one ≤ u := by
  obtain ⟨o, -, h1⟩ := exists_one
  rw [eq_roundUnits_of_ofUnits hu]
  by_cases hq : q = 0
  · rw [hq, Nat.zero_mul, roundUnits_eq_zero (by decide)]
    exact Or.inl rfl
  · have hle : one * 1 ≤ q * one := by
      rw [Nat.mul_one]
      exact Nat.le_mul_of_pos_left one (Nat.pos_of_ne_zero hq)
    rw [h1] at hle ⊢
    exact Or.inr (le_roundUnits Nat.one_pos (mod_spacing_two_pow o) hle)

theorem eq_zero_or_one_le_of_round {x : Binary64} {h : Fits u} (hu : x.round = finite s u h) :
    u = 0 ∨ one ≤ u := by
  cases x with
  | nan => cases hu
  | infinity t => cases hu
  | finite t n hn => exact eq_zero_or_one_le_of_whole hu

end

theorem eq_zero_or_lt_of_toBinary64 {d : ScaledDecimal} {u : Nat} {h : Fits u} (hs : d.scale ≤ 22)
    (hu : d.toBinary64 = finite false u h) : u = 0 ∨ one < 2 * u * 10 ^ d.scale := by
  have hten : 1 ≤ 10 ^ d.scale := Nat.one_le_two_pow.trans (Nat.pow_le_pow_left (by decide) _)
  unfold ScaledDecimal.toBinary64 at hu
  dsimp only at hu
  rw [Nat.pow_eq, powNat_ten hs, ofNat_of_fits (fits_ten_pow hs)] at hu
  split at hu
  · refine (eq_zero_or_one_le_of_whole hu).imp_right fun hle => ?_
    have hpos := Binary64.one_pos
    calc one < 2 * u * 1 := by omega
      _ ≤ 2 * u * 10 ^ d.scale := Nat.mul_le_mul_left _ hten
  · generalize hr : (Binary64.mul _ _).round = r at hu
    cases r with
    | nan => cases hu
    | infinity s => cases hu
    | finite s v hv =>
      have hd : 0 < 10 ^ d.scale * one := Nat.mul_pos (by omega) Binary64.one_pos
      rw [div, if_neg hd.ne'] at hu
      rw [eq_roundUnits_of_ofUnits hu]
      rcases eq_zero_or_one_le_of_round hr with rfl | hv
      · rw [Nat.zero_mul]
        exact Or.inl (roundUnits_eq_zero (by omega))
      · have hle : 10 ^ d.scale ≤ v := by
          have hone := mul_two_pow_le_one hs
          omega
        have hlt := lt_two_mul_roundUnits hd (Nat.mul_le_mul_right one hle)
        rw [← Nat.mul_assoc] at hlt
        exact Or.inr (hv.trans_lt (Nat.lt_of_mul_lt_mul_right hlt))

theorem eq_zero_or_lt_of_roundPlaces {p n u : Nat} {h : Fits n} {hu : Fits u} (hp : p ≤ 22)
    (he : (finite false n h).roundPlaces p = finite false u hu) : u = 0 ∨ one < 2 * u * 10 ^ p := by
  cases hof : ScaledDecimal.ofUnits? n with
  | none =>
    rw [roundPlaces_of_none hof, finite.injEq] at he
    obtain ⟨o, ho, h1⟩ := exists_one
    have hl : 1126 < n.log2 := by
      by_contra hl
      obtain ⟨d, hd, -⟩ := ScaledDecimal.exists_ofUnits? h.1 (Nat.not_lt.1 hl)
      rw [hof] at hd
      cases hd
    have hn : one ≤ n := by
      rw [h1]
      exact (Nat.le_log2 (by rintro rfl; simp at hl)).1 (by omega)
    have hpos := Binary64.one_pos
    rw [← he.2]
    right
    calc one < 2 * n * 1 := by omega
      _ ≤ 2 * n * 10 ^ p := Nat.mul_le_mul_left _ (Nat.one_le_pow _ _ (by decide))
  | some d =>
    rw [roundPlaces_of_some hof rfl] at he
    split at he
    · rw [zero, finite.injEq] at he
      exact Or.inl he.2.symm
    · rw [if_neg Bool.false_ne_true] at he
      have hs := (d.round_spec p).1
      refine (eq_zero_or_lt_of_toBinary64 (hs.trans hp) he).imp_right fun hlt => ?_
      exact hlt.trans_le (Nat.mul_le_mul_left _ (Nat.pow_le_pow_right (by decide) hs))

theorem isZero_roundPlaces (p : Nat) {n : Nat} (s : Bool) (h : Fits n) :
    ((finite s n h).roundPlaces p).isZero = ((finite false n h).roundPlaces p).isZero := by
  rw [roundPlaces_signed p s h]
  split
  · next hz =>
    rw [hz]
    rfl
  · cases s with
    | false => rw [if_neg Bool.false_ne_true]
    | true =>
      rw [if_pos rfl]
      cases (finite false n h).roundPlaces p <;> rfl

end Binary64

theorem nearestEven_eq_zero {n d : Nat} (h : nearestEven n d = 0) : 2 * n ≤ d := by
  rcases nearestEven_cases n d with ⟨he, hr⟩ | ⟨he, hr⟩
  · have hq : n / d = 0 := by omega
    have hn := Nat.div_add_mod n d
    rw [hq, Nat.mul_zero] at hn
    omega
  · rw [he] at h
    exact absurd h (Nat.succ_ne_zero _)

namespace Decimal

theorem ofDigitChars_eq_zero_iff {ds : List Char} (hd : ∀ c ∈ ds, c.isDigit = true) :
    Nat.ofDigitChars 10 ds 0 = 0 ↔ ∀ c ∈ ds, c = '0' := by
  induction ds with
  | nil => simp
  | cons c ds ih =>
    obtain ⟨hc, hds⟩ := List.forall_mem_cons.1 hd
    have hlow : '0'.toNat ≤ c.toNat := by
      rw [Char.isDigit, Bool.and_eq_true, decide_eq_true_eq] at hc
      exact hc.1
    have hzero : c.toNat - '0'.toNat = 0 ↔ c = '0' :=
      ⟨fun h => Char.toNat_inj.1 (by omega), fun h => by rw [h, Nat.sub_self]⟩
    rw [Nat.ofDigitChars_cons, Nat.ofDigitChars_eq_ofDigitChars_zero, Nat.add_eq_zero_iff, ih hds,
      List.forall_mem_cons, Nat.mul_zero, Nat.zero_add, Nat.mul_eq_zero, hzero]
    simp

end Decimal
namespace Display
open Decimal Binary64

def isFigure (c : Char) : Bool := c.isDigit && c ≠ '0'

/-- Before any exponent there is a digit other than zero. -/
def ShowsFigure (cs : List Char) : Prop := ∃ c ∈ cs.takeWhile (· ≠ 'e'), isFigure c = true

instance (cs : List Char) : Decidable (ShowsFigure cs) :=
  decidable_of_iff ((cs.takeWhile (· ≠ 'e')).any isFigure = true) List.any_eq_true

section
variable {cs : List Char}

theorem showsFigure_cons {c : Char} (he : c ≠ 'e') (hc : isFigure c = false) :
    ShowsFigure (c :: cs) ↔ ShowsFigure cs := by
  simp [ShowsFigure, he, hc]

theorem takeWhile_of_notMem (he : 'e' ∉ cs) : cs.takeWhile (· ≠ 'e') = cs := by
  have hne : ∀ c ∈ cs, decide (c ≠ 'e') = true := by
    intro c hc
    refine decide_eq_true ?_
    rintro rfl
    exact he hc
  have h := (takeWhile_append_of_head hne (r := []) nofun).1
  rwa [List.append_nil] at h

theorem mem_groupWhole (h : Plain cs) {c : Char} (hc : c ≠ ',') : c ∈ groupWhole cs ↔ c ∈ cs := by
  conv_rhs => rw [← filter_groupWhole h]
  simp [hc]

theorem notMem_groupWhole (h : Plain cs) {c : Char} (hd : c.isDigit = false) (hp : c ≠ '.')
    (hc : c ≠ ',') : c ∉ groupWhole cs := by
  rw [mem_groupWhole h hc]
  exact h.notMem hd hp

theorem showsFigure_groupWhole (h : Plain cs) :
    ShowsFigure (groupWhole cs) ↔ ∃ c ∈ cs, isFigure c = true := by
  rw [ShowsFigure, takeWhile_of_notMem (notMem_groupWhole h rfl (by decide) (by decide))]
  refine exists_congr fun c => and_congr_left fun hc => mem_groupWhole h ?_
  rintro rfl
  cases hc

theorem plain_pointed_units (places k : Nat) : Plain (pointed places k) ∧
    ((∃ c ∈ pointed places k, isFigure c = true) ↔ k ≠ 0) := by
  obtain ⟨whole, fraction, hplaces, htext⟩ := exists_pointed places k
  obtain ⟨hwhole, hfraction⟩ := List.forall_mem_append.1 hplaces.digits
  rw [htext]
  refine ⟨.intro hplaces.whole_ne_nil hwhole hfraction, ?_⟩
  have hzero := ofDigitChars_eq_zero_iff hplaces.digits
  rw [hplaces.value] at hzero
  have hfigure : ∀ c, isFigure c = true ↔ c.isDigit = true ∧ c ≠ '0' := by simp [isFigure]
  constructor
  · rintro ⟨c, hc, hf⟩ hk
    rw [hfigure] at hf
    rcases List.mem_append.1 hc with hc | hc
    · exact hf.2 (hzero.1 hk c (List.mem_append_left _ hc))
    · rcases mem_tail hc with rfl | hc
      · cases hf.1
      · exact hf.2 (hzero.1 hk c (List.mem_append_right _ hc))
  · intro hk
    by_contra hnone
    refine hk (hzero.2 fun c hc => by_contra fun h0 =>
      hnone ⟨c, ?_, (hfigure c).2 ⟨hplaces.digits c hc, h0⟩⟩)
    refine List.mem_append.2 ((List.mem_append.1 hc).imp_right fun hc => ?_)
    rw [tail, if_neg (List.ne_nil_of_mem hc)]
    exact List.mem_cons_of_mem _ hc

end

/-- A cell that is not below zero, with a minus sign in front if there is something to put it on. -/
def withMinus (cs : List Char) : List Char := if ShowsFigure cs then '-' :: cs else cs

section
variable {places : Nat} {s : Bool} {n : Nat} {hn : Fits n}

theorem plain_fixed (hp : places ≤ 22) (hn : Fits n) : Plain (fixed places (.finite false n hn)) ∧
    ((∃ c ∈ fixed places (.finite false n hn), isFigure c = true) ↔
      ((Binary64.finite false n hn).roundPlaces places).isZero = false) := by
  obtain ⟨u, hu, he⟩ := exists_roundPlaces_eq_finite hp hn
  obtain ⟨hplain, hfigure⟩ := plain_pointed_units places (nearestEven (u * Nat.pow 10 places) one)
  have htext : fixed places (.finite false n hn) =
      pointed places (nearestEven (u * Nat.pow 10 places) one) := by
    rw [fixed, he]
    rfl
  rw [htext, he]
  refine ⟨hplain, ?_⟩
  rw [hfigure, isZero, decide_eq_false_iff_not, not_iff_not]
  constructor
  · intro h
    have hle := nearestEven_eq_zero h
    refine (eq_zero_or_lt_of_roundPlaces hp he).resolve_right fun hlt => ?_
    rw [Nat.pow_eq, ← Nat.mul_assoc] at hle
    omega
  · rintro rfl
    rw [Nat.zero_mul, nearestEven_zero]

theorem abs_finite (s : Bool) (hn : Fits n) : (Binary64.finite s n hn).abs = .finite false n hn :=
  rfl

theorem amount_false (places : Option Nat) (hn : Fits n) : amount places (.finite false n hn) =
    '$' :: groupWhole (fixed (min (places.getD 2) maxPlaces) (.finite false n hn)) := rfl

theorem amount_eq (s : Bool) (places : Option Nat) (hn : Fits n) : amount places (.finite s n hn) =
    if s && n ≠ 0 then withMinus (amount places (.finite false n hn))
    else amount places (.finite false n hn) := by
  have hle : min (places.getD 2) maxPlaces ≤ 22 := Nat.le_trans (Nat.min_le_right ..) (by decide)
  obtain ⟨hplain, hfigure⟩ := plain_fixed hle hn
  rw [amount_false, withMinus, amount, isNegative_and_not_isZero, isZero_roundPlaces, abs_finite]
  simp only [showsFigure_cons (c := '$') (by decide) rfl, showsFigure_groupWhole hplain, hfigure]
  cases s && decide (n ≠ 0) with
  | false => rfl
  | true =>
    cases ((Binary64.finite false n hn).roundPlaces (min (places.getD 2) maxPlaces)).isZero <;> rfl

theorem number_some (s : Bool) (places : Nat) (hn : Fits n) :
    number (some places) (.finite s n hn) =
      if s && n ≠ 0 then
        withMinus (groupWhole (fixed (min places maxPlaces) (.finite false n hn)))
      else groupWhole (fixed (min places maxPlaces) (.finite false n hn)) := by
  obtain ⟨hplain, -⟩ :=
    plain_fixed (Nat.le_trans (Nat.min_le_right places maxPlaces) (by decide)) hn
  have he : ¬ (fixed (min places maxPlaces) (.finite false n hn)).contains 'e' = true := by
    rw [List.contains_iff_mem]
    exact hplain.notMem rfl (by decide)
  have hfigure :
      ((fixed (min places maxPlaces) (.finite false n hn)).any fun c =>
        c.isDigit && decide (c ≠ '0')) =
      decide (ShowsFigure (groupWhole (fixed (min places maxPlaces) (.finite false n hn)))) := by
    rw [Bool.eq_iff_iff, List.any_eq_true, decide_eq_true_iff, showsFigure_groupWhole hplain]
    rfl
  rw [number, isNegative_and_not_isZero, abs_finite, if_neg he, hfigure, withMinus]
  cases s && decide (n ≠ 0) with
  | false => rw [Bool.false_and, if_neg Bool.false_ne_true, if_neg Bool.false_ne_true]
  | true => simp only [Bool.true_and, decide_eq_true_eq, if_true]

theorem number_some_false (places : Nat) (hn : Fits n) : number (some places) (.finite false n hn) =
    groupWhole (fixed (min places maxPlaces) (.finite false n hn)) := by
  rw [number_some, Bool.false_and, if_neg Bool.false_ne_true]

theorem showsFigure_number_none (hn : Fits n) (h : n ≠ 0) :
    ShowsFigure (number none (.finite false n hn)) := by
  rw [number_none, text_finite, Bool.false_and, if_neg Bool.false_ne_true,
    if_neg Bool.false_ne_true]
  obtain ⟨d, hdigit, hd, hcases⟩ := NumberStyle.magnitude_cases h
  have hfigure : isFigure d = true := by simp [isFigure, hdigit, hd]
  split
  · next he =>
    rcases hcases with ⟨hplain, -⟩ | ⟨r, hr, -⟩
    · exact absurd he (hplain.notMem rfl (by decide))
    · refine ⟨d, ?_, hfigure⟩
      have hne : d ≠ 'e' := by
        rintro rfl
        cases hdigit
      rw [hr]
      simp [hne]
  · next he =>
    rcases hcases with ⟨hplain, hmem⟩ | ⟨r, hr, hmem⟩
    · exact (showsFigure_groupWhole hplain).2 ⟨d, hmem, hfigure⟩
    · rw [hr] at he
      exact absurd (List.mem_cons_of_mem d hmem) he

theorem number_none_minus (s : Bool) (hn : Fits n) : number none (.finite s n hn) =
    if s && n ≠ 0 then '-' :: number none (.finite false n hn)
    else number none (.finite false n hn) := by
  have hplain := number_none false hn
  rw [text_finite, Bool.false_and, if_neg Bool.false_ne_true, if_neg Bool.false_ne_true] at hplain
  rw [hplain, number_none, text_finite]
  cases s && decide (n ≠ 0) with
  | false => simp only [Bool.false_eq_true, if_false]
  | true => simp only [if_true]; split <;> rfl

theorem number_none_eq (s : Bool) (hn : Fits n) : number none (.finite s n hn) =
    if s && n ≠ 0 then withMinus (number none (.finite false n hn))
    else number none (.finite false n hn) := by
  rw [number_none_minus]
  by_cases h : n = 0
  · rw [decide_eq_false (not_not.2 h), Bool.and_false, if_neg Bool.false_ne_true,
      if_neg Bool.false_ne_true]
  · rw [withMinus, if_pos (showsFigure_number_none hn h)]

theorem cell_currency (s : Bool) (places : Option Nat) (hn : Fits n) :
    cell .currency places (.finite s n hn) = amount places (.finite s n hn) :=
  String.toList_ofList

theorem cell_eq {r : ReturnType} (hr : r = .currency ∨ r = .number) (places : Option Nat)
    (s : Bool) (hn : Fits n) :
    cell r places (.finite s n hn) =
      if s && n ≠ 0 then withMinus (cell r places (.finite false n hn))
      else cell r places (.finite false n hn) := by
  rcases hr with rfl | rfl
  · rw [cell_currency, cell_currency, amount_eq]
  · rw [cell_number rfl, cell_number rfl]
    cases places with
    | none => exact number_none_eq s hn
    | some places => rw [number_some, number_some_false]

theorem head?_magnitude (hn : Fits n) : (NumberStyle.formula.magnitude n).head? ≠ some '-' := by
  obtain ⟨m, hm, -⟩ := NumberStyle.exists_spells_magnitude hn
  intro h
  obtain ⟨r, hr⟩ := List.head?_eq_some_iff.1 h
  have hs := hm.startsNumber
  rw [hr] at hs
  exact Token.ne_of_startsNumber hs (by decide) rfl rfl

theorem head?_groupWhole {cs : List Char} (h : Plain cs) : (groupWhole cs).head? ≠ some '-' :=
  fun hc =>
  notMem_groupWhole h rfl (by decide) (by decide) (List.mem_of_mem_head? hc)

theorem head?_cell {r : ReturnType} (hr : r = .currency ∨ r = .number) (places : Option Nat)
    (hn : Fits n) : (cell r places (.finite false n hn)).head? ≠ some '-' := by
  rcases hr with rfl | rfl
  · rw [cell_currency, amount_false, List.head?_cons]
    decide
  · rw [cell_number rfl]
    cases places with
    | none =>
      rw [number_none, text_finite, Bool.false_and, if_neg Bool.false_ne_true,
        if_neg Bool.false_ne_true]
      split
      · exact head?_magnitude hn
      · next he => exact head?_groupWhole (NumberStyle.plain_magnitude he)
    | some places =>
      rw [number_some_false]
      exact head?_groupWhole (plain_fixed (Nat.le_trans (Nat.min_le_right ..) (by decide)) hn).1

end

/-- A cell begins with a minus sign just when its number is below zero and a digit other than
zero is shown before any exponent. The cell of a negative number is that of the magnitude,
with the sign in front where it has one. -/
theorem display_sign {x : Binary64} (hx : x.isFinite = true) {r : ReturnType}
    (hr : r = .currency ∨ r = .number) (places : Option Nat) :
    ((cell r places x).head? = some '-' ↔ x.lt (zero false) = true ∧
      ShowsFigure (cell r places x)) ∧
      ((zero false).lt x = true →
        cell r places x.neg = if ShowsFigure (cell r places x) then '-' :: cell r places x
        else cell r places x) := by
  constructor
  · cases x with
    | nan => cases hx
    | infinity s => cases hx
    | finite s n hn =>
      have hhead := head?_cell hr places hn
      rw [cell_eq hr places s, finite_lt_zero]
      cases s && decide (n ≠ 0) with
      | false => simp [hhead]
      | true =>
        by_cases hf : ShowsFigure (cell r places (.finite false n hn))
        · simp [withMinus, hf, showsFigure_cons (c := '-') (by decide) rfl]
        · simp [withMinus, hf, hhead]
  · intro h
    cases x with
    | nan => cases hx
    | infinity s => cases hx
    | finite s n hn =>
      obtain ⟨rfl, h0⟩ : s = false ∧ n ≠ 0 := by simpa [zero_lt_finite] using h
      rw [neg, Bool.not_false, cell_eq hr places true, Bool.true_and, if_pos (decide_eq_true h0),
        withMinus]

theorem display_sign_of_tenth_of_cent :
    ∃ x : Binary64, x = ofBits 0x3f50624dd2f1a9fc ∧ cell .currency none x = "$0.00".toList ∧
      cell .currency none x.neg = "$0.00".toList ∧ cell .number (some 3) x = "0.001".toList ∧
      cell .number (some 3) x.neg = "-0.001".toList ∧
      (cell .currency none x.neg).head? ≠ some '-' := by
  have hx : (ofBits 0x3f50624dd2f1a9fc).isFinite = true := by decide +kernel
  have hneg : (ofBits 0x3f50624dd2f1a9fc).neg.isFinite = true := by decide +kernel
  have hlt : (zero false).lt (ofBits 0x3f50624dd2f1a9fc) = true := by decide +kernel
  have hamount : cell .currency none (ofBits 0x3f50624dd2f1a9fc) = "$0.00".toList := by
    decide +kernel
  have hnumber : cell .number (some 3) (ofBits 0x3f50624dd2f1a9fc) = "0.001".toList := by
    decide +kernel
  obtain ⟨-, amount⟩ := display_sign hx (Or.inl rfl) none
  obtain ⟨-, number⟩ := display_sign hx (Or.inr rfl) (some 3)
  obtain ⟨sign, -⟩ := display_sign hneg (Or.inl rfl) none
  replace amount := amount hlt
  replace number := number hlt
  rw [hamount, if_neg (by decide +kernel)] at amount
  rw [hnumber, if_pos (by decide +kernel)] at number
  refine ⟨_, rfl, hamount, amount, hnumber, number, fun h => ?_⟩
  have hfigure := (sign.1 h).2
  rw [amount] at hfigure
  exact absurd hfigure (by decide +kernel)

end Display
end FieldFormula
