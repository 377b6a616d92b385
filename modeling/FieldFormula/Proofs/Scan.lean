import FieldFormula.Proofs.Grammar
import FieldFormula.Token.Lexer

/-!
How the lexer cuts tokens off a text.
-/
namespace FieldFormula.Token

theorem scan_of_next?_none {cs : List Char} (h : next? cs = none) : scan cs = [] := by
  rw [scan]
  split
  · rfl
  · next h' => rw [h] at h'; cases h'

theorem scan_of_next?_some {cs rest : List Char} {t : Token} (h : next? cs = some (t, rest)) :
    scan cs = t :: scan rest := by
  rw [scan]
  split
  · next h' => rw [h] at h'; cases h'
  · next h' =>
    rw [h] at h'
    cases h'
    rfl

def scanWithin : Nat → List Char → List Token
  | 0, _ => []
  | n + 1, cs =>
    match next? cs with
    | none => []
    | some (t, rest) => t :: scanWithin n rest

/- The lexer recurses on the length of the text and does not reduce; this form does. -/
theorem scan_eq_scanWithin {n : Nat} {cs : List Char} (h : cs.length ≤ n) :
    scan cs = scanWithin n cs := by
  induction n generalizing cs with
  | zero =>
    rw [List.length_eq_zero_iff.1 (Nat.le_zero.1 h)]
    exact scan_of_next?_none rfl
  | succ n ih =>
    rw [scanWithin]
    cases hx : next? cs with
    | none => exact scan_of_next?_none hx
    | some x =>
      obtain ⟨t, rest⟩ := x
      have hl := next?_length hx
      have hr : rest.length ≤ n := by omega
      rw [scan_of_next?_some hx, ih hr]

theorem next?_eq_some {cs rest : List Char} {t : Token} :
    next? cs = some (t, rest) ↔ ∃ c r, Text.skipBlanks cs = c :: r ∧ scanFrom c r = (t, rest) := by
  rw [next?]
  split
  · next h => simp [h]
  · next c r h => simp [h]

inductive Cut (c : Char) (r : List Char) : Token × List Char → Prop
  | one {t : Token} : isWordChar c = false → (t.isMark = true ∨ ∃ f, t = .invalid f) →
      Cut c r (t, r)
  | two {t : Token} {d : Char} {r' : List Char} :
      isWordChar c = false → isWordChar d = false → r = d :: r' → t.isMark = true → Cut c r (t, r')
  | text : isWordChar c = false → Cut c r (scanText c r)
  | number : startsNumber (c :: r) = true → Cut c r (scanNumber (c :: r))
  | word : isWordStart c = true → Cut c r (scanWord (c :: r))

theorem not_isWordChar {c : Char} {r : List Char} (hn : ¬ startsNumber (c :: r) = true)
    (hw : ¬ isWordStart c = true) : isWordChar c = false := by
  rw [startsNumber.eq_def] at hn
  split at hn
  · next h =>
    cases h
    rfl
  · next h =>
    cases h
    simp_all [isWordChar, isWordStart, Char.isAlphanum]
  · next h => cases h

theorem scanFrom_cut (c : Char) (r : List Char) : Cut c r (scanFrom c r) := by
  rw [scanFrom.eq_def]
  split
  case h_10 | h_11 | h_13 | h_15 | h_17 | h_19 | h_21 => exact .two rfl rfl rfl rfl
  case h_18 | h_20 | h_22 => exact .one rfl (Or.inr ⟨_, rfl⟩)
  case h_23 =>
    split
    · next h =>
      refine .text ?_
      simp only [Bool.or_eq_true, decide_eq_true_eq] at h
      cases h with
      | inl h => rw [h]; rfl
      | inr h => rw [h]; rfl
    · split
      · next h => exact .number h
      · next hn =>
        split
        · next h => exact .word h
        · next hw => exact .one (not_isWordChar hn hw) (Or.inr ⟨_, rfl⟩)
  all_goals exact .one rfl (Or.inl rfl)

theorem closeQuote_suffix {quote : Char} {cs s rest : List Char}
    (h : closeQuote quote cs = some (s, rest)) : rest <:+ cs := by
  fun_induction closeQuote quote cs generalizing s rest with
  | case1 => cases h
  | case2 => cases h
  | case3 c r ih =>
    obtain ⟨⟨s', rest'⟩, h', e⟩ := Option.map_eq_some_iff.1 h
    cases e
    exact (ih h').trans ⟨['\\', c], rfl⟩
  | case4 r =>
    cases h
    exact List.suffix_cons ..
  | case5 c r _ _ _ ih =>
    obtain ⟨⟨s', rest'⟩, h', e⟩ := Option.map_eq_some_iff.1 h
    cases e
    exact (ih h').trans (List.suffix_cons ..)

theorem scanText_suffix (quote : Char) (r : List Char) : (scanText quote r).2 <:+ r := by
  rw [scanText]
  split
  · next h => exact closeQuote_suffix h
  · exact List.nil_suffix

theorem Cut.suffix {c : Char} {r : List Char} {x : Token × List Char} (h : Cut c r x) :
    x.2 <:+ c :: r := by
  cases h with
  | one hc ht => exact List.suffix_cons ..
  | two hc hd hr ht =>
    subst hr
    exact (List.suffix_cons ..).trans (List.suffix_cons ..)
  | text hc => exact (scanText_suffix c r).trans (List.suffix_cons ..)
  | number h => exact List.drop_suffix ..
  | word h => exact List.dropWhile_suffix _

theorem scanText_isMark (quote : Char) (r : List Char) : (scanText quote r).1.isMark = false := by
  rw [scanText]
  split <;> rfl

theorem scanNumber_isMark (cs : List Char) : (scanNumber cs).1.isMark = false := by
  rw [scanNumber]
  dsimp only
  split <;> rfl

theorem scanWord_isMark (cs : List Char) : (scanWord cs).1.isMark = false := by
  rw [scanWord]
  dsimp only
  split
  · rfl
  · split <;> rfl

theorem Cut.isWordChar_of_isMark {c : Char} {r : List Char} {x : Token × List Char} (h : Cut c r x)
    (hx : x.1.isMark = true) : isWordChar c = false := by
  cases h with
  | one hc ht => exact hc
  | two hc hd hr ht => exact hc
  | text hc => exact hc
  | number h =>
    rw [scanNumber_isMark] at hx
    cases hx
  | word h =>
    rw [scanWord_isMark] at hx
    cases hx

theorem toNat_of_isWordChar {c : Char} (h : isWordChar c = true) :
    (48 ≤ c.toNat ∧ c.toNat ≤ 57) ∨ (65 ≤ c.toNat ∧ c.toNat ≤ 90) ∨ c.toNat = 95 ∨
      (97 ≤ c.toNat ∧ c.toNat ≤ 122) := by
  have hv : c.val.toNat = c.toNat := rfl
  simp only [isWordChar, Char.isAlphanum] at h
  delta Char.isAlpha Char.isUpper Char.isLower at h
  simp only [Char.isDigit, Bool.or_eq_true, Bool.and_eq_true, decide_eq_true_eq,
    UInt32.le_iff_toNat_le, ge_iff_le, hv] at h
  obtain ((h | h) | h) | rfl := h
  · exact Or.inr (Or.inl h)
  · exact Or.inr (Or.inr (Or.inr h))
  · exact Or.inl h
  · exact Or.inr (Or.inr (Or.inl rfl))

theorem isWordChar_of_isBlank {c : Char} (h : Text.isBlank c = true) : isWordChar c = false := by
  by_contra hw
  have := toNat_of_isWordChar (Bool.not_eq_false _ ▸ hw)
  simp [Text.isBlank, Text.blankRanges] at h
  omega

theorem isBlank_of_isWordChar {c : Char} (h : isWordChar c = true) : Text.isBlank c = false := by
  by_contra hb
  rw [isWordChar_of_isBlank (Bool.not_eq_false _ ▸ hb)] at h
  cases h

theorem scanText_word? (quote : Char) (r : List Char) : (scanText quote r).1.word? = none := by
  rw [scanText]
  split <;> rfl

theorem scanNumber_word? (cs : List Char) : (scanNumber cs).1.word? = none := by
  rw [scanNumber]
  dsimp only
  split <;> rfl

theorem scanWord_word? (cs : List Char) :
    (scanWord cs).1.word? = none ∨
    (scanWord cs).1.word? = some (String.ofList (cs.takeWhile isWordChar)) := by
  rw [scanWord]
  dsimp only
  split
  · exact Or.inl rfl
  · split
    · exact Or.inl rfl
    · exact Or.inr rfl

theorem next?_of_isWordChar {c : Char} (h : isWordChar c = true) (r : List Char) :
    next? (c :: r) = some (scanFrom c r) := by
  have hb : ¬ Text.isBlank c = true := by simp [isBlank_of_isWordChar h]
  rw [next?, Text.skipBlanks, List.dropWhile_cons_of_neg hb]

theorem head_of_apart {t : Token} {rest : List Char} (h : (t :: scan rest).IsChain Apart)
    (ht : t.isMark = false) : ∀ c ∈ rest.head?, isWordChar c = false := by
  cases rest with
  | nil => simp
  | cons c r =>
    intro c' hc
    cases hc
    by_contra hw
    have hn := next?_of_isWordChar (Bool.not_eq_false _ ▸ hw) r
    rw [scan_of_next?_some hn] at h
    cases (List.isChain_cons_cons.1 h).1 with
    | inl hm =>
      rw [ht] at hm
      cases hm
    | inr hm => exact hw ((scanFrom_cut c r).isWordChar_of_isMark hm)

end FieldFormula.Token
