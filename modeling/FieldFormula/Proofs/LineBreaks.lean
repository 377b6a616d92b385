import FieldFormula.Display
import FieldFormula.Proofs.Digits

/-!
Numbers are written without line breaks, and a cell has none that its value has not.
-/
namespace FieldFormula

def Text.Unbroken (cs : List Char) : Prop := '\n' ∉ cs

instance (cs : List Char) : Decidable (Text.Unbroken cs) := inferInstanceAs (Decidable ('\n' ∉ cs))

namespace Text
variable {c : Char} {cs ds : List Char}

@[simp] theorem unbroken_nil : Unbroken [] := List.not_mem_nil

@[simp] theorem unbroken_cons : Unbroken (c :: cs) ↔ c ≠ '\n' ∧ Unbroken cs := by
  simp [Unbroken, eq_comm]

@[simp] theorem unbroken_append : Unbroken (cs ++ ds) ↔ Unbroken cs ∧ Unbroken ds := by
  simp [Unbroken]

theorem Unbroken.append {s t : String} (hs : Unbroken s.toList) (ht : Unbroken t.toList) :
    Unbroken (s ++ t).toList := by
  rw [String.toList_append]
  exact unbroken_append.2 ⟨hs, ht⟩

theorem unbroken_ofList (h : Unbroken cs) : Unbroken (String.ofList cs).toList := by
  rwa [String.toList_ofList]

theorem Unbroken.subset (h : Unbroken ds) (hs : cs ⊆ ds) : Unbroken cs := fun hc => h (hs hc)

theorem unbroken_of_forall {p : Char → Bool} (hp : p '\n' = false) (h : ∀ c ∈ cs, p c = true) :
    Unbroken cs := by
  intro hc
  have := h _ hc
  rw [hp] at this
  cases this

theorem unbroken_takeWhile {p : Char → Bool} (hp : p '\n' = false) (cs : List Char) :
    Unbroken (cs.takeWhile p) :=
  unbroken_of_forall hp fun _ => List.all_eq_true.1 List.all_takeWhile _

theorem unbroken_toDigits (n : Nat) : Unbroken (Nat.toDigits 10 n) :=
  unbroken_of_forall rfl (isDigit_of_mem_toDigits n)

theorem unbroken_repr (n : Nat) : Unbroken n.repr.toList := by
  rw [Nat.toList_repr]
  exact unbroken_toDigits n

theorem unbroken_zeros (n : Nat) : Unbroken (List.replicate n '0') :=
  unbroken_of_forall rfl fun _ hc =>
    (List.eq_of_mem_replicate hc) ▸ (by decide : Char.isDigit '0' = true)

end Text

open Text

namespace Decimal

theorem unbroken_positional {ds : List Char} (h : Unbroken ds) (p : Int) :
    Unbroken (positional ds p) := by
  rw [positional]
  split
  · simp [zeros, unbroken_zeros, h]
  · split
    · simp [zeros, unbroken_zeros, h]
    · simp [h.subset (List.take_subset _ _), h.subset (List.drop_subset _ _)]

theorem unbroken_signed (i : Int) : Unbroken (signed i) := by
  rw [signed]
  split <;> simp [unbroken_toDigits]

theorem unbroken_scientific {ds : List Char} (h : Unbroken ds) (x : Int) :
    Unbroken (scientific ds x) := by
  rw [scientific.eq_def]
  split <;> simp_all [unbroken_signed]

theorem unbroken_fixed (places n : Nat) : Unbroken (fixed places n) := by
  rw [fixed, pointed]
  generalize nearestEven (n * Nat.pow 10 places) Binary64.one = k
  have h : Unbroken (List.replicate (places + 1 - (Nat.toDigits 10 k).length) '0' ++
      Nat.toDigits 10 k) := by
    simp [unbroken_zeros, unbroken_toDigits]
  split
  · exact h
  · simp [h.subset (List.take_subset _ _), h.subset (List.drop_subset _ _)]

end Decimal

namespace NumberStyle
variable {style : NumberStyle}

theorem unbroken_magnitude (hw : Unbroken style.wholeEnding) (n : Nat) :
    Unbroken (style.magnitude n) := by
  rw [magnitude]
  split
  · simp [hw]
  · dsimp only
    split
    · split <;> simp [Decimal.unbroken_positional (unbroken_toDigits _), hw]
    · exact Decimal.unbroken_scientific (unbroken_toDigits _) _

theorem unbroken_write (hw : Unbroken style.wholeEnding) (hn : Unbroken style.nan)
    (hi : ∀ s, Unbroken (style.infinity s)) (x : Binary64) : Unbroken (style.write x) := by
  cases x with
  | nan => exact hn
  | infinity s => exact hi s
  | finite s n h =>
    rw [write]
    split <;> simp [unbroken_magnitude hw]

end NumberStyle

theorem Binary64.unbroken_text (x : Binary64) : Unbroken x.text :=
  NumberStyle.unbroken_write unbroken_nil (by decide) (by decide) x

theorem NumberStyle.unbroken_message (x : Binary64) : Unbroken (message.write x) :=
  unbroken_write unbroken_nil (by decide) (by decide) x

namespace Display

theorem unbroken_group {ds : List Char} (h : Unbroken ds) : Unbroken (group ds) := by
  induction ds with
  | nil => exact unbroken_nil
  | cons d r ih =>
    obtain ⟨hd, hr⟩ := unbroken_cons.1 h
    rw [group]
    split <;> simp [hd, ih hr]

theorem unbroken_groupWhole {cs : List Char} (h : Unbroken cs) : Unbroken (groupWhole cs) := by
  refine unbroken_append.2 ⟨unbroken_group (h.subset ?_), h.subset ?_⟩
  · exact (List.takeWhile_prefix _).subset
  · exact (List.dropWhile_suffix _).subset

theorem unbroken_fixed (places : Nat) (x : Binary64) : Unbroken (fixed places x) := by
  rw [fixed]
  split
  · exact Decimal.unbroken_fixed places _
  · exact Binary64.unbroken_text _

theorem unbroken_amount (places : Option Nat) (x : Binary64) : Unbroken (amount places x) := by
  have h := unbroken_groupWhole (unbroken_fixed (min (places.getD 2) maxPlaces) x.abs)
  rw [amount]
  split <;> simp [h]

theorem unbroken_number (places : Option Nat) (x : Binary64) : Unbroken (number places x) := by
  have h : ∀ shown, Unbroken shown →
      Unbroken (if shown.contains 'e' then x.text
        else if x.isNegative && !x.isZero && shown.any fun c => c.isDigit && c ≠ '0' then
          '-' :: groupWhole shown
        else groupWhole shown) := by
    intro shown hs
    split
    · exact Binary64.unbroken_text x
    · split <;> simp [unbroken_groupWhole hs]
  cases places with
  | none => exact h _ (Binary64.unbroken_text _)
  | some p => exact h _ (unbroken_fixed _ _)

theorem unbroken_value (places : Option Nat) (r : ReturnType) {v : Value}
    (h : Unbroken v.toText.toList) : Unbroken (value places r v).toList := by
  cases v with
  | number x =>
    cases r with
    | currency =>
      rw [value]
      split
      · simp [unbroken_amount]
      · exact h
    | number =>
      rw [value]
      split
      · simp [unbroken_number]
      · exact h
    | boolean => exact h
    | text => exact h
    | date => exact h
  | boolean b =>
    cases r with
    | boolean =>
      rw [value]
      split <;> decide
    | currency => exact h
    | number => exact h
    | text => exact h
    | date => exact h
  | text s => cases r <;> exact h

end Display
end FieldFormula
