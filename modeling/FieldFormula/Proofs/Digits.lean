import FieldFormula.Decimal.Layout

/-!
Digits of whole numbers and of shortest decimals: a positive number has no zero in front. A run of
digits ends where something else begins.
-/
namespace FieldFormula

theorem takeWhile_append_of_head {p : Char → Bool} {ds r : List Char} (hd : ∀ c ∈ ds, p c = true)
    (hr : ∀ c ∈ r.head?, p c = false) : (ds ++ r).takeWhile p = ds ∧ (ds ++ r).dropWhile p = r := by
  have ht : r.takeWhile p = [] ∧ r.dropWhile p = r := by
    cases r with
    | nil => exact ⟨rfl, rfl⟩
    | cons c r => simp [hr c rfl]
  rw [List.takeWhile_append_of_pos hd, List.dropWhile_append_of_pos hd, ht.1, ht.2, List.append_nil]
  exact ⟨rfl, rfl⟩

theorem head?_toDigits_ne_zero {n : Nat} (h : 0 < n) : (Nat.toDigits 10 n).head? ≠ some '0' := by
  induction n using Nat.strongRecOn with
  | ind n ih =>
    by_cases hn : n < 10
    · rw [Nat.toDigits_of_lt_base hn]
      have hd : ∀ m < 10, 0 < m → [Nat.digitChar m].head? ≠ some '0' := by decide
      exact hd n hn h
    · have hq : 0 < n / 10 := by omega
      have hlt : n / 10 < n := by omega
      rw [Nat.toDigits_of_base_le (by decide) (by omega), List.head?_append]
      cases hd : (Nat.toDigits 10 (n / 10)).head? with
      | none => exact absurd (List.head?_eq_none_iff.1 hd) Nat.toDigits_ne_nil
      | some c =>
        rw [Option.some_or, ← hd]
        exact ih _ hlt hq

theorem isDigit_of_mem_toDigits (n : Nat) : ∀ c ∈ Nat.toDigits 10 n, c.isDigit = true := fun _ hc =>
  Nat.isDigit_of_mem_toDigits (by decide) (by decide) hc

theorem isDigit_of_mem_zeros (k : Nat) : ∀ c ∈ Decimal.zeros k, c.isDigit = true := by
  intro c hc
  rw [List.eq_of_mem_replicate hc]
  rfl

namespace Decimal
variable {n : Nat} {d : Decimal} {tieUp : Bool}

theorem nearestEven_zero (d : Nat) : nearestEven 0 d = 0 := by
  unfold nearestEven
  simp only [Nat.zero_div, Nat.zero_mod]
  split
  · rfl
  · split
    · omega
    · rfl

theorem coefficient_pos_of_readsBack (hn : 0 < n) (h : d.readsBack n = true) :
    0 < d.coefficient := by
  rw [readsBack, decide_eq_true_eq] at h
  rcases Nat.eq_zero_or_pos d.coefficient with hc | hc
  · have h0 : d.roundedUnits = 0 := by
      simp [roundedUnits, ratio, hc, Binary64.roundUnits, nearestEven_zero]
    omega
  · exact hc

theorem choose_eq_some {low high : Decimal} {l u t : Bool} {o : Ordering}
    (h : choose low high l u o t = some d) : (d = low ∧ l = true) ∨ (d = high ∧ u = true) := by
  unfold choose at h
  cases l <;> cases u <;> cases o <;> cases t <;> simp_all

theorem readsBack_onGrid {g : Int} (h : onGrid tieUp n g = some d) : d.readsBack n = true := by
  unfold onGrid at h
  dsimp only at h
  obtain ⟨hd, hl⟩ | ⟨hd, hu⟩ := choose_eq_some h
  · rw [hd, hl]
  · rw [hd, hu]

theorem coefficient_strip_pos (d : Decimal) (h : 0 < d.coefficient) : 0 < d.strip.coefficient := by
  fun_induction strip d with
  | case1 d hd ih => exact ih (by dsimp only; omega)
  | case2 d hd => exact h

theorem coefficient_shortest_pos (h : 0 < n) : 0 < (shortest tieUp n).coefficient := by
  have hpow : ∀ k, 0 < Nat.pow 5 k := fun k => Nat.pow_pos (by decide)
  refine coefficient_strip_pos _ ?_
  cases hd : (List.range 17).findSome? fun (k : Nat) => onGrid tieUp n (scale n - (k + 1)) with
  | none => exact Nat.mul_pos h (hpow 1074)
  | some d =>
    obtain ⟨k, -, hk⟩ := List.exists_of_findSome?_eq_some hd
    exact coefficient_pos_of_readsBack h (readsBack_onGrid hk)

end Decimal
end FieldFormula
