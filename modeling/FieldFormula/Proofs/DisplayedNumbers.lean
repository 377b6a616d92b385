import FieldFormula.Proofs.DisplayedAmounts
import FieldFormula.Proofs.NumberText

/-!
Numbers shown without a choice of decimal places. The cell holds the text of the number, with commas
between the whole digits unless there is an exponent, so numbers that differ are shown differently.
-/
namespace FieldFormula

namespace Decimal

inductive Plain : List Char → Prop
  | intro {whole fraction : List Char} : whole ≠ [] → (∀ c ∈ whole, c.isDigit = true) →
      (∀ c ∈ fraction, c.isDigit = true) → Plain (whole ++ tail fraction)

section
variable {ds : List Char}

theorem plain_whole (hne : ds ≠ []) (hd : ∀ c ∈ ds, c.isDigit = true) : Plain ds := by
  have h := Plain.intro hne hd (List.forall_mem_nil _)
  rwa [tail, if_pos rfl, List.append_nil] at h

theorem plain_pointed {whole fraction : List Char} (hne : whole ≠ [])
    (hw : ∀ c ∈ whole, c.isDigit = true) (hf : ∀ c ∈ fraction, c.isDigit = true)
    (h : fraction ≠ []) : Plain (whole ++ '.' :: fraction) := by
  have hp := Plain.intro hne hw hf
  rwa [tail, if_neg h] at hp

theorem plain_positional (hne : ds ≠ []) (hd : ∀ c ∈ ds, c.isDigit = true) (p : Int) :
    Plain (positional ds p) := by
  unfold positional
  by_cases hp : p ≤ 0
  · rw [if_pos hp]
    have hf : ∀ c ∈ zeros (-p).toNat ++ ds, c.isDigit = true :=
      List.forall_mem_append.2 ⟨isDigit_of_mem_zeros _, hd⟩
    exact plain_pointed (List.cons_ne_nil '0' []) (List.forall_mem_singleton.2 rfl) hf
      (by simp [hne])
  · rw [if_neg hp]
    by_cases hl : ds.length ≤ p
    · rw [if_pos hl]
      exact plain_whole (by simp [hne]) (List.forall_mem_append.2 ⟨hd, isDigit_of_mem_zeros _⟩)
    · rw [if_neg hl]
      refine plain_pointed ?_ (fun c hc => hd c (List.mem_of_mem_take hc))
        (fun c hc => hd c (List.mem_of_mem_drop hc)) ?_
      · simp [hne]
        omega
      · rw [← List.length_pos_iff_ne_nil, List.length_drop]
        omega

theorem subset_positional (ds : List Char) (p : Int) : ds ⊆ positional ds p := by
  intro c hc
  unfold positional
  split
  · simp [hc]
  · split
    · simp [hc]
    · rw [← List.take_append_drop p.toNat ds, List.mem_append] at hc
      rw [List.mem_append, List.mem_cons]
      exact hc.imp_right Or.inr

theorem Plain.mem {cs : List Char} (h : Plain cs) : ∀ c ∈ cs, c.isDigit = true ∨ c = '.' := by
  cases h with
  | intro hne hw hf =>
    intro c hc
    rcases List.mem_append.1 hc with hc | hc
    · exact Or.inl (hw c hc)
    · exact (mem_tail hc).symm.imp_left (hf c)

theorem Plain.notMem {cs : List Char} (h : Plain cs) {c : Char} (hd : c.isDigit = false)
    (hp : c ≠ '.') : c ∉ cs := by
  intro hc
  rcases h.mem c hc with h | h
  · rw [hd] at h
    cases h
  · exact hp h

end

end Decimal

namespace NumberStyle
open Decimal

theorem magnitude_cases {n : Nat} (h : n ≠ 0) :
    ∃ d : Char, d.isDigit = true ∧ d ≠ '0' ∧
      ((Plain (formula.magnitude n) ∧ d ∈ formula.magnitude n) ∨
        ∃ r, formula.magnitude n = d :: r ∧ 'e' ∈ r) := by
  have hcoeff : 0 < (shortest formula.tieUp n).coefficient :=
    coefficient_shortest_pos (Nat.pos_of_ne_zero h)
  unfold magnitude
  rw [if_neg h]
  generalize shortest formula.tieUp n = s at hcoeff ⊢
  obtain ⟨c, e⟩ := s
  have hhead := head?_toDigits_ne_zero hcoeff
  have hdigits := isDigit_of_mem_toDigits c
  dsimp only at hhead ⊢
  obtain ⟨d, r, hds⟩ := List.exists_cons_of_ne_nil (Nat.toDigits_ne_nil (b := 10) (n := c))
  rw [hds] at hhead hdigits ⊢
  refine ⟨d, hdigits d List.mem_cons_self, fun hd => hhead (congrArg some hd), ?_⟩
  have hend : (if 0 ≤ e then formula.wholeEnding else []) = [] := by split <;> rfl
  split
  · rw [hend, List.append_nil]
    exact Or.inl ⟨plain_positional (List.cons_ne_nil d r) hdigits _,
      subset_positional _ _ List.mem_cons_self⟩
  · refine Or.inr ?_
    cases r with
    | nil => exact ⟨_, rfl, List.mem_cons_self⟩
    | cons d' r => exact ⟨_, rfl, List.mem_append_right ('.' :: d' :: r) List.mem_cons_self⟩

theorem plain_magnitude {n : Nat} (h : 'e' ∉ formula.magnitude n) :
    Plain (formula.magnitude n) := by
  by_cases h0 : n = 0
  · subst h0
    exact plain_whole (List.cons_ne_nil '0' []) (List.forall_mem_singleton.2 rfl)
  · obtain ⟨d, -, -, ⟨hplain, -⟩ | ⟨r, hr, he⟩⟩ := magnitude_cases h0
    · exact hplain
    · rw [hr] at h
      exact absurd (List.mem_cons_of_mem d he) h

end NumberStyle

namespace Display
open Decimal

section
variable {cs : List Char}

theorem exists_groupWhole (h : Plain cs) : ∃ first others fraction, Grouped first others ∧
    (∀ c ∈ (first :: others).flatten ++ fraction, c.isDigit = true) ∧
    cs = (first :: others).flatten ++ tail fraction ∧
    groupWhole cs = [','].intercalate (first :: others) ++ tail fraction := by
  cases h with
  | @intro whole fraction hne hw hf =>
    obtain ⟨d, r, rfl⟩ := List.exists_cons_of_ne_nil hne
    obtain ⟨first, others, hgrouped, hflat, hgroup⟩ := exists_grouped d r
    refine ⟨first, others, fraction, hgrouped, ?_, ?_, ?_⟩
    · rw [hflat]
      exact List.forall_mem_append.2 ⟨hw, hf⟩
    · rw [hflat]
    · rw [groupWhole_tail fraction hw, hgroup]

theorem filter_groupWhole (h : Plain cs) : (groupWhole cs).filter (· ≠ ',') = cs := by
  have hcomma : ∀ c ∈ cs, decide (c ≠ ',') = true := by
    intro c hc
    refine decide_eq_true ?_
    rintro rfl
    exact h.notMem rfl (by decide) hc
  cases h with
  | intro hne hw hf =>
    obtain ⟨hwhole, htail⟩ := List.forall_mem_append.1 hcomma
    rw [groupWhole_tail _ hw, List.filter_append, filter_group hwhole rfl,
      List.filter_eq_self.2 htail]

end

def cell (r : ReturnType) (places : Option Nat) (x : Binary64) : List Char :=
  (Outcome.display ⟨some (.number x), none, r⟩ places).toList

section
variable {x y : Binary64} {n : Nat}

theorem cell_number (hx : x.isFinite = true) (places : Option Nat) :
    cell .number places x = number places x := by
  have h : Outcome.display ⟨some (.number x), none, .number⟩ places =
      String.ofList (number places x) := if_pos hx
  rw [cell, h, String.toList_ofList]

theorem isNegative_and_not_isZero (s : Bool) (hn : Fits n) :
    ((Binary64.finite s n hn).isNegative && !(Binary64.finite s n hn).isZero) =
      (s && decide (n ≠ 0)) := by
  rw [Binary64.isNegative, Binary64.isZero, decide_not]

theorem text_abs (s : Bool) (hn : Fits n) :
    (Binary64.finite s n hn).abs.text = NumberStyle.formula.magnitude n := by
  rw [Binary64.abs, Binary64.text_finite, Bool.false_and, if_neg Bool.false_ne_true]

theorem number_none (s : Bool) (hn : Fits n) : number none (.finite s n hn) =
    if 'e' ∈ NumberStyle.formula.magnitude n then (Binary64.finite s n hn).text
    else if s && n ≠ 0 then '-' :: groupWhole (NumberStyle.formula.magnitude n)
    else groupWhole (NumberStyle.formula.magnitude n) := by
  unfold number
  dsimp only
  rw [text_abs, isNegative_and_not_isZero]
  simp only [List.contains_eq_mem, decide_eq_true_eq]
  split
  · rfl
  · next he =>
    have hany : n ≠ 0 →
        (NumberStyle.formula.magnitude n).any (fun c => c.isDigit && decide (c ≠ '0')) = true := by
      intro h0
      obtain ⟨d, hdigit, hd, ⟨-, hmem⟩ | ⟨r, hr, hmem⟩⟩ := NumberStyle.magnitude_cases h0
      · exact List.any_eq_true.2 ⟨d, hmem, by simp [hd, hdigit]⟩
      · rw [hr] at he
        exact absurd (List.mem_cons_of_mem d hmem) he
    by_cases h0 : n = 0
    · simp only [h0, ne_eq, not_true_eq_false, decide_false, Bool.and_false, Bool.false_and]
    · rw [hany h0, Bool.and_true]

theorem comma_notMem_text (hx : x.isFinite = true) : ',' ∉ x.text := by
  cases x with
  | nan => cases hx
  | infinity s => cases hx
  | finite s n hn =>
    obtain ⟨m, hm, -⟩ := NumberStyle.exists_spells_magnitude hn
    have hcomma : ',' ∉ NumberStyle.formula.magnitude n :=
      fun hc => absurd (hm.mem ',' hc) (by decide)
    rw [Binary64.text_finite]
    split
    · exact List.not_mem_cons_of_ne_of_not_mem (by decide) hcomma
    · exact hcomma

theorem cell_of_exponent (hx : x.isFinite = true) (he : 'e' ∈ x.text) :
    cell .number none x = x.text := by
  rw [cell_number hx]
  cases x with
  | nan => cases hx
  | infinity s => cases hx
  | finite s n hn =>
    have hmem : 'e' ∈ NumberStyle.formula.magnitude n := by
      rw [Binary64.text_finite] at he
      split at he
      · exact List.mem_of_ne_of_mem (by decide) he
      · exact he
    rw [number_none, if_pos hmem]

theorem exists_cell_of_positional (hx : x.isFinite = true) (he : 'e' ∉ x.text) :
    ∃ sign cs, (sign = [] ∨ sign = ['-']) ∧ Plain cs ∧ x.text = sign ++ cs ∧
      cell .number none x = sign ++ groupWhole cs := by
  rw [cell_number hx]
  cases x with
  | nan => cases hx
  | infinity s => cases hx
  | finite s n hn =>
    have hmem : 'e' ∉ NumberStyle.formula.magnitude n := by
      intro hmem
      rw [Binary64.text_finite] at he
      split at he
      · exact he (List.mem_cons_of_mem '-' hmem)
      · exact he hmem
    have hplain := NumberStyle.plain_magnitude hmem
    rw [number_none, if_neg hmem, Binary64.text_finite]
    cases s && decide (n ≠ 0) with
    | false => exact ⟨[], _, Or.inl rfl, hplain, rfl, rfl⟩
    | true => exact ⟨['-'], _, Or.inr rfl, hplain, rfl, rfl⟩

theorem filter_cell (hx : x.isFinite = true) : (cell .number none x).filter (· ≠ ',') = x.text := by
  by_cases he : 'e' ∈ x.text
  · have hcomma : ∀ c ∈ x.text, decide (c ≠ ',') = true := by
      intro c hc
      refine decide_eq_true ?_
      rintro rfl
      exact comma_notMem_text hx hc
    rw [cell_of_exponent hx he, List.filter_eq_self.2 hcomma]
  · obtain ⟨sign, cs, hsign, hplain, htext, hcell⟩ := exists_cell_of_positional hx he
    have hkept : sign.filter (fun c => decide (c ≠ ',')) = sign := by
      rcases hsign with rfl | rfl <;> rfl
    rw [hcell, htext, List.filter_append, hkept, filter_groupWhole hplain]

theorem eq_iff_dropZeroSign (hx : x.isFinite = true) (hy : y.isFinite = true) :
    x.eq y = true ↔ x.dropZeroSign = y.dropZeroSign := by
  cases x with
  | nan => cases hx
  | infinity s => cases hx
  | finite s m hm =>
    cases y with
    | nan => cases hy
    | infinity t => cases hy
    | finite t n hn =>
      simp only [Binary64.eq, Binary64.compare?, Binary64.dropZeroSign, decide_eq_true_eq,
        Option.some.injEq, compare_eq_iff_eq, Binary64.finite.injEq, Binary64.scaled]
      cases s <;> cases t <;> simp <;> omega

theorem eq_of_text_eq (hx : x.isFinite = true) (hy : y.isFinite = true) (h : x.text = y.text) :
    x.eq y = true := by
  have hread := Binary64.number?_text hx
  rw [h, Binary64.number?_text hy] at hread
  exact (eq_iff_dropZeroSign hx hy).2 (Option.some.inj hread).symm

theorem cell_dropZeroSign (hx : x.isFinite = true) :
    cell .number none x.dropZeroSign = cell .number none x := by
  cases x with
  | nan => cases hx
  | infinity s => cases hx
  | finite s n hn =>
    have hs : (s && decide (n ≠ 0) && decide (n ≠ 0)) = (s && decide (n ≠ 0)) := by
      rw [Bool.and_assoc, Bool.and_self]
    rw [Binary64.dropZeroSign, cell_number hx, cell_number rfl, number_none, number_none,
      Binary64.text_finite, Binary64.text_finite, hs]

end

/-- A number without a choice of places is shown as its text with commas, which stand
between the whole digits of positional texts only and make groups of three from the right.
Cells are equal just for equal numbers. -/
theorem display_lossless {x : Binary64} (hx : x.isFinite = true) :
    (cell .number none x).filter (· ≠ ',') = x.text ∧
      ('e' ∈ x.text → cell .number none x = x.text) ∧
      ('e' ∉ x.text → ∃ sign first others fraction, (sign = [] ∨ sign = ['-']) ∧
        Grouped first others ∧
        (∀ c ∈ (first :: others).flatten ++ fraction, c.isDigit = true) ∧
        x.text = sign ++ ((first :: others).flatten ++ tail fraction) ∧
        cell .number none x = sign ++ ([','].intercalate (first :: others) ++ tail fraction)) ∧
      ∀ y : Binary64, y.isFinite = true →
        (cell .number none x = cell .number none y ↔ x.eq y = true) := by
  refine ⟨filter_cell hx, cell_of_exponent hx, fun he => ?_, fun y hy => ⟨fun h => ?_, fun h => ?_⟩⟩
  · obtain ⟨sign, cs, hsign, hplain, htext, hcell⟩ := exists_cell_of_positional hx he
    obtain ⟨first, others, fraction, hgrouped, hdigits, rfl, hgroup⟩ := exists_groupWhole hplain
    exact ⟨sign, first, others, fraction, hsign, hgrouped, hdigits, htext, by rw [hcell, hgroup]⟩
  · exact eq_of_text_eq hx hy (by rw [← filter_cell hx, ← filter_cell hy, h])
  · rw [← cell_dropZeroSign hx, ← cell_dropZeroSign hy, (eq_iff_dropZeroSign hx hy).1 h]

theorem display_lossless_of_millions :
    ∃ x y : Binary64, x = .ofBits 0xc132d687e4189375 ∧ y = .ofBits 0x4480f0cf064dd592 ∧
      x.text = "-1234567.891".toList ∧ y.text = "1e+22".toList ∧ cell .number none y = y.text ∧
      cell .number none x = "-1,234,567.891".toList ∧
      (cell .number none x).filter (· ≠ ',') = x.text ∧
      cell .number none x ≠ cell .number none y := by
  have hx : (Binary64.ofBits 0xc132d687e4189375).isFinite = true := by decide +kernel
  have hy : (Binary64.ofBits 0x4480f0cf064dd592).isFinite = true := by decide +kernel
  have htx : (Binary64.ofBits 0xc132d687e4189375).text = "-1234567.891".toList := by decide +kernel
  have hty : (Binary64.ofBits 0x4480f0cf064dd592).text = "1e+22".toList := by decide +kernel
  have hne : (Binary64.ofBits 0xc132d687e4189375).eq (.ofBits 0x4480f0cf064dd592) = false := by
    decide +kernel
  obtain ⟨filtered, -, -, distinct⟩ := display_lossless hx
  obtain ⟨-, exponent, -, -⟩ := display_lossless hy
  refine ⟨_, _, rfl, rfl, htx, hty, exponent (by rw [hty]; decide), by decide +kernel, filtered,
    fun h => ?_⟩
  rw [(distinct _ hy).1 h] at hne
  cases hne

end Display
end FieldFormula
