import FieldFormula.Proofs.DecimalRounding
import FieldFormula.Proofs.NumeralReaders

/-!
The text of a number is a numeral, and all readers of numerals find that number in it.
-/
namespace FieldFormula

namespace Numeral
variable {ds : List Char}

theorem spells_whole (hd : ∀ c ∈ ds, c.isDigit = true) (hne : ds ≠ []) :
    Spells Char.isDigit ⟨ds, [], false, []⟩ ds := by
  have h := Spells.intro hd (List.forall_mem_nil _) (List.forall_mem_nil _) (.whole hne) .none
  rwa [List.append_nil] at h

theorem spells_pointed {w f : List Char} (hw : ∀ c ∈ w, c.isDigit = true)
    (hf : ∀ c ∈ f, c.isDigit = true) (hne : w ≠ []) :
    Spells Char.isDigit ⟨w, f, false, []⟩ (w ++ '.' :: f) := by
  have h := Spells.intro hw hf (List.forall_mem_nil _) (.pointed (Or.inl hne)) .none
  rwa [List.append_nil] at h

theorem value_plain (w f : List Char) :
    value ⟨w, f, false, []⟩ = ⟨Nat.ofDigitChars 10 (w ++ f) 0, -f.length⟩ := by
  simp [value, power]

theorem power_signed (w f : List Char) (x : Int) :
    power ⟨w, f, decide (x < 0), Nat.toDigits 10 x.natAbs⟩ = x := by
  simp only [power, Nat.ofDigitChars_ten_toDigits, decide_eq_true_eq]
  split <;> omega

/- Zeros in front do not count, and zeros behind count as powers of ten. -/

theorem ofDigitChars_zeros_append (k : Nat) (cs : List Char) :
    Nat.ofDigitChars 10 (Decimal.zeros k ++ cs) 0 = Nat.ofDigitChars 10 cs 0 := by
  rw [Nat.ofDigitChars_append, Decimal.zeros, Nat.ofDigitChars_replicate_zero, Nat.mul_zero]

theorem ofDigitChars_append_zeros (k : Nat) (cs : List Char) :
    Nat.ofDigitChars 10 (cs ++ Decimal.zeros k) 0 = Nat.ofDigitChars 10 cs 0 * 10 ^ k := by
  rw [Nat.ofDigitChars_append, Decimal.zeros, Nat.ofDigitChars_replicate_zero, Nat.mul_comm]

theorem exists_spells_positional (hne : ds ≠ []) (hd : ∀ c ∈ ds, c.isDigit = true) (p : Int) :
    ∃ m : Numeral, Spells Char.isDigit m (Decimal.positional ds p) ∧
      m.value.ratio = (⟨Nat.ofDigitChars 10 ds 0, p - ds.length⟩ : Decimal).ratio := by
  have hlen : 0 < ds.length := List.length_pos_iff.2 hne
  unfold Decimal.positional
  by_cases hp : p ≤ 0
  · rw [if_pos hp]
    have hf : ∀ c ∈ Decimal.zeros (-p).toNat ++ ds, c.isDigit = true :=
      List.forall_mem_append.2 ⟨isDigit_of_mem_zeros _, hd⟩
    have hz : ∀ c ∈ ['0'], c.isDigit = true := List.forall_mem_singleton.2 rfl
    refine ⟨_, spells_pointed hz hf (by decide), ?_⟩
    have hc : Nat.ofDigitChars 10 (['0'] ++ (Decimal.zeros (-p).toNat ++ ds)) 0 =
        Nat.ofDigitChars 10 ds 0 :=
      (ofDigitChars_zeros_append 1 _).trans (ofDigitChars_zeros_append _ ds)
    have he : -((Decimal.zeros (-p).toNat ++ ds).length : Int) = p - ds.length := by
      simp only [Decimal.zeros, List.length_append, List.length_replicate]
      omega
    rw [value_plain, hc, he]
  · rw [if_neg hp]
    by_cases hl : ds.length ≤ p
    · rw [if_pos hl]
      have hw : ∀ c ∈ ds ++ Decimal.zeros (p.toNat - ds.length), c.isDigit = true :=
        List.forall_mem_append.2 ⟨hd, isDigit_of_mem_zeros _⟩
      refine ⟨_, spells_whole hw (by simp [hne]), ?_⟩
      have hj : p - ds.length = (p.toNat - ds.length : Nat) := by omega
      rw [value_plain, List.append_nil, ofDigitChars_append_zeros, hj]
      simp [Decimal.ratio]
    · rw [if_neg hl]
      have hw : ∀ c ∈ ds.take p.toNat, c.isDigit = true :=
        fun c hc => hd c (List.mem_of_mem_take hc)
      have hf : ∀ c ∈ ds.drop p.toNat, c.isDigit = true :=
        fun c hc => hd c (List.mem_of_mem_drop hc)
      refine ⟨_, spells_pointed hw hf (by simp [hne]; omega), ?_⟩
      have he : -((ds.drop p.toNat).length : Int) = p - ds.length := by
        rw [List.length_drop]
        omega
      rw [value_plain, List.take_append_drop, he]

theorem exists_spells_scientific (hne : ds ≠ []) (hd : ∀ c ∈ ds, c.isDigit = true) (x : Int) :
    ∃ m : Numeral, Spells Char.isDigit m (Decimal.scientific ds x) ∧
      m.value = ⟨Nat.ofDigitChars 10 ds 0, x + 1 - ds.length⟩ := by
  obtain ⟨d, r, rfl⟩ := List.exists_cons_of_ne_nil hne
  obtain ⟨hd, hr⟩ := List.forall_mem_cons.1 hd
  have hw : ∀ c ∈ [d], c.isDigit = true := List.forall_mem_singleton.2 hd
  have hx := isDigit_of_mem_toDigits x.natAbs
  have he : Exponent (decide (x < 0)) (Nat.toDigits 10 x.natAbs) ('e' :: Decimal.signed x) := by
    have h :=
      Exponent.signed (m := 'e') (decide (x < 0)) rfl
        (Nat.toDigits_ne_nil (b := 10) (n := x.natAbs))
    simpa only [Decimal.signed, decide_eq_true_eq] using h
  refine ⟨⟨[d], r, decide (x < 0), Nat.toDigits 10 x.natAbs⟩, ?_, ?_⟩
  · cases r with
    | nil => exact .intro hw hr hx (.whole (by simp)) he
    | cons d' r => exact .intro hw hr hx (.pointed (Or.inl (by simp))) he
  · have hl : x - r.length = x + 1 - (d :: r).length := by
      rw [List.length_cons]
      omega
    rw [value, power_signed, ← hl]
    rfl

end Numeral

namespace Binary64

/-- The number without the sign of a zero, which texts do not show. -/
def dropZeroSign : Binary64 → Binary64
  | finite s n h => finite (s && n ≠ 0) n h
  | x => x

theorem dropZeroSign_of_ne {x : Binary64} (h : x ≠ zero true) : x.dropZeroSign = x := by
  cases x with
  | nan => rfl
  | infinity s => rfl
  | finite s n hn =>
    cases s with
    | false => rfl
    | true =>
      have h0 : n ≠ 0 := by
        rintro rfl
        exact h rfl
      simp [dropZeroSign, h0]

end Binary64

namespace NumberStyle
open Numeral

theorem exists_spells_magnitude {n : Nat} (hn : Fits n) :
    ∃ m : Numeral, Spells Char.isDigit m (formula.magnitude n) ∧
      ∀ s, m.value.toBinary64 s = .finite s n hn := by
  have of_ratio : ∀ {m : Numeral} {d : Decimal}, m.value.ratio = d.ratio →
      (∀ s, d.toBinary64 s = .finite s n hn) →
      ∀ s, m.value.toBinary64 s = .finite s n hn := by
    intro m d hm hd s
    rw [Decimal.toBinary64_eq_ofUnits, hm, ← Decimal.toBinary64_eq_ofUnits, hd]
  unfold magnitude
  by_cases h0 : n = 0
  · subst h0
    rw [if_pos rfl]
    have hz : ∀ c ∈ ['0'], c.isDigit = true := List.forall_mem_singleton.2 rfl
    refine ⟨_, spells_whole hz (by decide), fun s => ?_⟩
    exact Decimal.toBinary64_of_coefficient_zero s 0
  · rw [if_neg h0]
    have hd : ∀ s, (Decimal.shortest formula.tieUp n).toBinary64 s = .finite s n hn := fun s =>
      Decimal.toBinary64_shortest s hn
    generalize Decimal.shortest formula.tieUp n = d at hd ⊢
    obtain ⟨c, e⟩ := d
    have hne : Nat.toDigits 10 c ≠ [] := Nat.toDigits_ne_nil
    have hdig := isDigit_of_mem_toDigits c
    have hc := Nat.ofDigitChars_ten_toDigits (n := c)
    dsimp only
    generalize Nat.toDigits 10 c = ds at hne hdig hc ⊢
    split
    · obtain ⟨m, hm, hv⟩ := exists_spells_positional hne hdig (ds.length + e)
      have hend : (if 0 ≤ e then formula.wholeEnding else []) = [] := by split <;> rfl
      rw [hend, List.append_nil]
      rw [hc, add_sub_cancel_left] at hv
      exact ⟨m, hm, of_ratio hv hd⟩
    · obtain ⟨m, hm, hv⟩ := exists_spells_scientific hne hdig (ds.length + e - 1)
      rw [hc, sub_add_cancel, add_sub_cancel_left] at hv
      exact ⟨m, hm, of_ratio (congrArg Decimal.ratio hv) hd⟩

theorem number?_magnitude {n : Nat} (hn : Fits n) :
    number? (formula.magnitude n) = some (.finite false n hn) := by
  obtain ⟨m, hm, hv⟩ := exists_spells_magnitude hn
  rw [number?_of_spells hm, hv]

theorem number?_minus_magnitude {n : Nat} (hn : Fits n) :
    number? ('-' :: formula.magnitude n) = some (.finite true n hn) := by
  obtain ⟨m, hm, hv⟩ := exists_spells_magnitude hn
  exact number?_eq_some_iff.2 ⟨m, hm, hv true⟩

end NumberStyle

namespace Binary64
open NumberStyle Numeral

theorem text_finite (s : Bool) (n : Nat) (hn : Fits n) :
    (finite s n hn).text = if s && n ≠ 0 then '-' :: formula.magnitude n
    else formula.magnitude n := by
  have hz : formula.signedZero = false := rfl
  rw [text, write, hz, Bool.or_false]

theorem number?_text {x : Binary64} (h : x.isFinite = true) :
    number? x.text = some x.dropZeroSign := by
  cases x with
  | nan => cases h
  | infinity s => cases h
  | finite s n hn =>
    rw [text_finite, dropZeroSign]
    cases hs : s && decide (n ≠ 0) with
    | false => rw [if_neg Bool.false_ne_true, number?_magnitude hn]
    | true => rw [if_pos rfl, number?_minus_magnitude hn]

theorem text_of_zero_le {x : Binary64} (h : x.isFinite = true) (h0 : (zero false).le x = true) :
    ∃ n hn, x.text = formula.magnitude n ∧ x.dropZeroSign = finite false n hn := by
  cases x with
  | nan => cases h
  | infinity s => cases h
  | finite s n hn =>
    have hs : (s && decide (n ≠ 0)) = false := by
      cases s with
      | false => rfl
      | true =>
        simp [le, zero, compare?, scaled, compare_lt_iff_lt] at h0 ⊢
        omega
    exact ⟨n, hn, by rw [text_finite, hs, if_neg Bool.false_ne_true], by rw [dropZeroSign, hs]⟩

/- A finite number is above or below zero by its sign, unless it is one of the zeros. -/

theorem finite_lt_zero (s : Bool) {n : Nat} (hn : Fits n) :
    (finite s n hn).lt (zero false) = (s && decide (n ≠ 0)) := by
  rw [Bool.eq_iff_iff]
  cases s <;> simp [lt, zero, compare?, scaled, compare_lt_iff_lt]
  omega

theorem zero_lt_finite (s : Bool) {n : Nat} (hn : Fits n) :
    (zero false).lt (finite s n hn) = (!s && decide (n ≠ 0)) := by
  rw [Bool.eq_iff_iff]
  cases s <;> simp [lt, zero, compare?, scaled, compare_lt_iff_lt]
  omega

theorem text_neg {x : Binary64} (h : (zero false).lt x = true) : x.neg.text = '-' :: x.text := by
  cases x with
  | nan => cases h
  | infinity s =>
    cases s with
    | false => rfl
    | true => cases h
  | finite s n hn =>
    obtain ⟨rfl, h0⟩ : s = false ∧ n ≠ 0 := by simpa [zero_lt_finite] using h
    rw [neg, text_finite, text_finite]
    simp [h0]

theorem not_isNaN_of_isFinite {x : Binary64} (h : x.isFinite = true) : x.isNaN = false := by
  cases x with
  | nan => cases h
  | infinity s => rfl
  | finite s n hn => rfl

/- The reader of whole texts and the reader of leading numbers. -/
theorem texts_read (x : Binary64) : numberOfText x.text = x.dropZeroSign ∧
    leadingNumber? x.text = (if x.isNaN then none else some x.dropZeroSign) := by
  by_cases hf : x.isFinite = true
  · have hn := number?_text hf
    have hl := leadingNumber?_append hn (List.forall_mem_nil _) (List.forall_mem_nil _)
    rw [List.append_nil, List.nil_append] at hl
    rw [not_isNaN_of_isFinite hf, if_neg Bool.false_ne_true]
    exact ⟨numberOfText_of_number? hn, hl⟩
  · cases x with
    | nan => decide +kernel
    | infinity s => cases s <;> decide +kernel
    | finite s n hn => exact absurd rfl hf

/-- The text of a number is read back as that number, but for the sign of a zero: as a
whole text, as the beginning of a text and, where no sign is shown, as a formula.
Infinities are read back from texts too, and the text of NaN is no number. A negative
number has the sign in front of the text of its amount. -/
theorem readers_text (x : Binary64) :
    (Value.text (String.ofList x.text)).toNumber = x.dropZeroSign ∧
      leadingNumber? x.text = (if x.isNaN then none else some x.dropZeroSign) ∧
      (x.isFinite = true → (zero false).le x = true →
        Expr.parse (String.ofList x.text) = .ok (.number x.dropZeroSign)) ∧
      ((zero false).lt x = true → x.neg.text = '-' :: x.text) ∧
      (x ≠ zero true → x.dropZeroSign = x) := by
  obtain ⟨whole, leading⟩ := texts_read x
  refine ⟨?_, leading, ?_, text_neg, dropZeroSign_of_ne⟩
  · rw [Value.toNumber, String.toList_ofList]
    exact whole
  · intro hf h0
    obtain ⟨n, hn, ht, hd⟩ := text_of_zero_le hf h0
    obtain ⟨m, hm, hv⟩ := exists_spells_magnitude hn
    rw [ht, hd, Expr.parse_of_spells hm, hv]

theorem readers_text_of_power_of_ten :
    ∃ x, x = ofBits 0x3e8421f5f40d8376 ∧ x.text = "1.5e-7".toList ∧ x.neg.text = "-1.5e-7".toList ∧
      Expr.parse "1.5e-7" = .ok (.number x) ∧ (Value.text "1.5e-7").toNumber = x ∧
      leadingNumber? "1.5e-7".toList = some x := by
  have ht : (ofBits 0x3e8421f5f40d8376).text = "1.5e-7".toList := by decide +kernel
  have hf : (ofBits 0x3e8421f5f40d8376).isFinite = true := by decide +kernel
  have hle : (zero false).le (ofBits 0x3e8421f5f40d8376) = true := by decide +kernel
  have hlt : (zero false).lt (ofBits 0x3e8421f5f40d8376) = true := by decide +kernel
  have hz : ofBits 0x3e8421f5f40d8376 ≠ zero true := by decide +kernel
  obtain ⟨hv, hl, hp, hn, hd⟩ := readers_text (ofBits 0x3e8421f5f40d8376)
  replace hp := hp hf hle
  replace hn := hn hlt
  rw [hd hz, ht] at hv hp
  rw [hd hz, ht, if_neg (by rw [not_isNaN_of_isFinite hf]; exact Bool.false_ne_true)] at hl
  rw [ht] at hn
  exact ⟨_, rfl, ht, hn, hp, hv, hl⟩

end Binary64
end FieldFormula
