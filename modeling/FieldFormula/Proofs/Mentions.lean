import FieldFormula.Proofs.Parser
import FieldFormula.Proofs.Scan
import FieldFormula.Reference

/-!
The scan for names in the raw text against the names that the parser finds. Inside a formula no two
operands stand side by side, so no name of the formula is glued to the number or text before it.
-/
namespace FieldFormula.Reference

open Token

theorem mentions_cons_start {c : Char} (h : isWordStart c = true) (r : List Char) :
    mentions (c :: r) =
      String.ofList ((c :: r).takeWhile isWordChar) ::
      mentions ((c :: r).dropWhile isWordChar) := by
  have hc := isWordChar_of_isWordStart h
  rw [mentions, if_pos h, List.takeWhile_cons_of_pos hc, List.dropWhile_cons_of_pos hc]

theorem mentions_cons_other {c : Char} (h : isWordChar c = false) (r : List Char) :
    mentions (c :: r) = mentions r := by
  have hc : ¬ isWordStart c = true := fun hc => by
    rw [isWordChar_of_isWordStart hc] at h
    cases h
  rw [mentions, if_neg hc]

theorem suffix_dropWhile {p : Char → Bool} {v cs : List Char} (h : v <:+ cs)
    (hv : ∀ c ∈ v.head?, p c = false) : v <:+ cs.dropWhile p := by
  induction cs with
  | nil => exact h
  | cons c r ih =>
    by_cases hc : p c = true
    · rw [List.dropWhile_cons_of_pos hc]
      cases List.suffix_cons_iff.1 h with
      | inl h =>
        subst h
        exact absurd hc (by simp [hv c rfl])
      | inr h => exact ih h
    · rw [List.dropWhile_cons_of_neg hc]
      exact h

/- The tail must not begin inside a run: its first mention would be cut short. -/
theorem mentions_sublist_of_suffix {v cs : List Char} (h : v <:+ cs)
    (hv : ∀ c ∈ v.head?, isWordChar c = false) : (mentions v).Sublist (mentions cs) := by
  fun_induction mentions cs with
  | case1 =>
    rw [List.suffix_nil.1 h, mentions]
  | case2 c r hc _ ih =>
    cases List.suffix_cons_iff.1 h with
    | inl h =>
      subst h
      have hw := hv c rfl
      rw [isWordChar_of_isWordStart hc] at hw
      cases hw
    | inr h => exact (ih (suffix_dropWhile h hv)).cons _
  | case3 c r hc ih =>
    cases List.suffix_cons_iff.1 h with
    | inl h =>
      subst h
      rw [mentions, if_neg hc]
    | inr h => exact ih h

theorem mentions_skipBlanks (cs : List Char) : mentions (Text.skipBlanks cs) = mentions cs := by
  induction cs with
  | nil => rfl
  | cons c r ih =>
    by_cases h : Text.isBlank c = true
    · rw [Text.skipBlanks, List.dropWhile_cons_of_pos h,
        mentions_cons_other (isWordChar_of_isBlank h)]
      exact ih
    · rw [Text.skipBlanks, List.dropWhile_cons_of_neg h]

/- Behind a number or a quoted text the rest must not begin inside a run of word characters. -/
theorem mentions_cut {c : Char} {r : List Char} {x : Token × List Char} (h : Cut c r x)
    (hx : x.1.isMark = false → ∀ c ∈ x.2.head?, isWordChar c = false) :
    (x.1.word?.toList ++ mentions x.2).Sublist (mentions (c :: r)) := by
  have hs := h.suffix
  cases h with
  | @one t hc ht =>
    have hw : t.word? = none := by
      obtain ht | ⟨f, rfl⟩ := ht
      · exact word?_of_isMark ht
      · rfl
    rw [mentions_cons_other hc, hw]
    exact List.Sublist.refl _
  | two hc hd hr ht =>
    subst hr
    rw [mentions_cons_other hc, mentions_cons_other hd, word?_of_isMark ht]
    exact List.Sublist.refl _
  | text hc =>
    rw [scanText_word?]
    exact mentions_sublist_of_suffix hs (hx (scanText_isMark c r))
  | number hn =>
    rw [scanNumber_word?]
    exact mentions_sublist_of_suffix hs (hx (scanNumber_isMark _))
  | word hc =>
    rw [mentions_cons_start hc]
    cases scanWord_word? (c :: r) with
    | inl hw =>
      rw [hw]
      exact List.sublist_cons_self ..
    | inr hw =>
      rw [hw]
      exact List.Sublist.refl _

theorem words_scan_sublist {cs : List Char} (h : (scan cs).IsChain Apart) :
    (words (scan cs)).Sublist (mentions cs) := by
  induction hn : cs.length using Nat.strong_induction_on generalizing cs with
  | _ n ih =>
    cases hx : next? cs with
    | none =>
      rw [scan_of_next?_none hx]
      exact List.nil_sublist _
    | some x =>
      obtain ⟨t, rest⟩ := x
      rw [scan_of_next?_some hx] at h ⊢
      obtain ⟨c, r, hb, hc⟩ := next?_eq_some.1 hx
      have hcut := scanFrom_cut c r
      rw [hc] at hcut
      have hr := ih rest.length (hn ▸ next?_length hx) (List.isChain_cons.1 h).2 rfl
      have hm := mentions_cut hcut (head_of_apart h)
      rw [← hb, mentions_skipBlanks] at hm
      have hw : words (t :: scan rest) = t.word?.toList ++ words (scan rest) := by
        cases ht : t.word? <;> simp [words, ht]
      rw [hw]
      exact (hr.append_left _).trans hm

theorem names_sublist_mentions {formula : String} {e : Expr} (h : Expr.parse formula = .ok e) :
    e.names.Sublist (mentions formula.toList) := by
  obtain ⟨d⟩ := Expr.exists_derivation h
  rw [← d.words_eq]
  exact words_scan_sublist d.tidy.apart

theorem mem_mentions_of_mem_fields {formula x : String} {e : Expr} (h : Expr.parse formula = .ok e)
    (hx : x ∈ e.fields) : x ∈ mentions formula.toList :=
  (names_sublist_mentions h).subset (e.fields_subset_names hx)

theorem mem_used {formula x : String} :
    x ∈ used formula ↔ x ∈ mentions formula.toList ∧ x ∉ functionNames ∧ x ≠ "Infinity" := by
  simp [used, isNumeral]

theorem mem_fields {formula x : String} :
    x ∈ fields formula ↔ x ∈ mentions formula.toList ∧ isReserved x = false ∧ x ≠ "Infinity" := by
  simp [fields, isNumeral]

/-- A formula mentions each of its names, in their order. So of the fields that it
reads, those alone are not counted as used, or not shown, that are spelled like a
function or are a reserved word, or `Infinity`. -/
theorem mentions_names (formula : String) (e : Expr) (h : Expr.parse formula = .ok e) :
    e.names.Sublist (mentions formula.toList) ∧
    (∀ x ∈ e.fields, x ∈ used formula ↔ x ∉ functionNames ∧ x ≠ "Infinity") ∧
    (∀ x ∈ e.fields, x ∈ fields formula ↔ isReserved x = false ∧ x ≠ "Infinity") := by
  refine ⟨names_sublist_mentions h, ?_, ?_⟩
  · intro x hx
    rw [mem_used]
    exact and_iff_right (mem_mentions_of_mem_fields h hx)
  · intro x hx
    rw [mem_fields]
    exact and_iff_right (mem_mentions_of_mem_fields h hx)

theorem mentions_names_of_call :
    ∃ formula e, formula = "IF(a1 > 1e5, max_2 + Max, 'fee x1')" ∧ Expr.parse formula = .ok e ∧
      e.fields = ["a1", "max_2", "Max"] ∧ e.names.Sublist (mentions formula.toList) ∧
      "max_2" ∈ used formula ∧ "Max" ∉ used formula ∧ "max_2" ∈ fields formula ∧
      "Max" ∉ fields formula := by
  have hs : Token.scan "IF(a1 > 1e5, max_2 + Max, 'fee x1')".toList =
      [.word "IF", .openParen, .word "a1", .greater, .number (.ofNat 100000), .comma,
        .word "max_2", .plus, .word "Max", .comma, .text "fee x1", .closeParen] := by
    rw [Token.scan_eq_scanWithin (n := 40) (by decide)]
    decide +kernel
  have ht : ∀ n, Expr.ofTokens [.word "IF", .openParen, .word "a1", .greater, .number n, .comma,
      .word "max_2", .plus, .word "Max", .comma, .text "fee x1", .closeParen] =
        .ok (.call "IF" [.binary .greater (.field "a1") (.number n),
          .binary .add (.field "max_2") (.field "Max"), .text "fee x1"]) := by
    intro n
    cbv
  have hp := (congrArg Expr.ofTokens hs).trans (ht _)
  obtain ⟨hm, hu, hf⟩ := mentions_names _ _ hp
  have hmax_2 : "max_2" ∈ ["a1", "max_2", "Max"] := by decide
  have hMax : "Max" ∈ ["a1", "max_2", "Max"] := by decide
  refine ⟨_, _, rfl, hp, rfl, hm, (hu _ hmax_2).2 (by decide), ?_, (hf _ hmax_2).2 (by decide), ?_⟩
  · intro h
    exact absurd ((hu _ hMax).1 h).1 (by decide)
  · intro h
    exact absurd ((hf _ hMax).1 h).1 (by decide)

end FieldFormula.Reference
