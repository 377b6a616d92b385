import FieldFormula.Proofs.LetterCase
import FieldFormula.Proofs.WordRuns

/-!
The list of fields to show. Names are listed by their first occurrence, so text behind a
formula only adds names at the end, and the list differs from the names that count as zero by
the words of the two lists of words left out.
-/
namespace FieldFormula.Reference
open Token

section
variable {α : Type} [BEq α]

/- The recursion of `eraseDups`: from the rest of a list its first element is taken out. -/
@[elab_as_elim]
theorem eraseDupsInduction {motive : List α → Prop} (nil : motive [])
    (cons : ∀ a l, motive (l.filter fun b => !b == a) → motive (a :: l)) (l : List α) :
    motive l := by
  induction hn : l.length using Nat.strong_induction_on generalizing l with
  | _ n ih =>
    cases l with
    | nil => exact nil
    | cons a l =>
      refine cons a l (ih _ ?_ _ rfl)
      rw [← hn, List.length_cons]
      exact Nat.lt_succ_of_le (List.length_filter_le ..)

theorem eraseDups_filter [LawfulBEq α] (p : α → Bool) (l : List α) :
    (l.filter p).eraseDups = l.eraseDups.filter p := by
  induction l using eraseDupsInduction with
  | nil => rfl
  | cons a l ih =>
    rw [List.filter_filter] at ih
    rw [List.eraseDups_cons]
    by_cases ha : p a = true
    · rw [List.filter_cons_of_pos ha, List.filter_cons_of_pos ha, List.eraseDups_cons,
        List.filter_filter, ← ih]
      simp only [Bool.and_comm]
    · rw [List.filter_cons_of_neg ha, List.filter_cons_of_neg ha, ← ih]
      congr 1
      refine List.filter_congr fun x _ => ?_
      by_cases hx : x = a
      · rw [hx, Bool.eq_false_iff.2 ha, Bool.false_and]
      · rw [beq_false_of_ne hx, Bool.not_false, Bool.and_true]

end

/- A name is listed before another when one of its places comes before all places of the other. -/
theorem pairwise_eraseDups {ps : List (Nat × String)} (h : ps.Pairwise fun p q => p.1 < q.1) :
    (ps.map Prod.snd).eraseDups.Pairwise fun x y => ∃ i, (i, x) ∈ ps ∧
    ∀ j, (j, y) ∈ ps → i < j := by
  generalize hl : ps.map Prod.snd = l
  induction l using eraseDupsInduction generalizing ps with
  | nil => exact List.Pairwise.nil
  | cons a l ih =>
    obtain ⟨⟨i, x⟩, qs, rfl, rfl, rfl⟩ := List.map_eq_cons_iff.1 hl
    obtain ⟨hi, hqs⟩ := List.pairwise_cons.1 h
    have hrest := ih (hqs.filter fun q => !q.2 == x) (by rw [List.filter_map]; rfl)
    have hne : ∀ y ∈ ((qs.map Prod.snd).filter fun b => !b == x).eraseDups, y ≠ x := by
      intro y hy
      simpa using (List.mem_filter.1 (List.mem_eraseDups.1 hy)).2
    rw [List.eraseDups_cons]
    refine List.pairwise_cons.2 ⟨fun y hy => ⟨i, List.mem_cons_self, fun j hj => ?_⟩, ?_⟩
    · rcases List.mem_cons.1 hj with he | hj
      · cases he
        exact absurd rfl (hne _ hy)
      · exact hi _ hj
    · refine List.Pairwise.imp_of_mem (fun {y z} _ hz hyz => ?_) hrest
      obtain ⟨j, hj, hlt⟩ := hyz
      refine ⟨j, List.mem_cons_of_mem _ (List.mem_filter.1 hj).1, fun k hk => ?_⟩
      rcases List.mem_cons.1 hk with he | hk
      · cases he
        exact absurd rfl (hne _ hz)
      · exact hlt k (List.mem_filter.2 ⟨hk, by simpa using hne z hz⟩)

variable {cs r : List Char} {formula x : String}

theorem mem_mentions_iff : x ∈ mentions cs ↔ ∃ i, Occurs x i cs := by
  obtain ⟨ps, hps, -, hmem⟩ := exists_listed cs
  rw [← hps, List.mem_map]
  constructor
  · rintro ⟨⟨i, y⟩, hy, rfl⟩
    exact ⟨i, (hmem i y).1 hy⟩
  · rintro ⟨i, hi⟩
    exact ⟨(i, x), (hmem i x).2 hi, rfl⟩

def Before (cs : List Char) (x y : String) : Prop := ∃ i, Occurs x i cs ∧ ∀ j, Occurs y j cs → i < j

theorem fields_pairwise (formula : String) : (fields formula).Pairwise (Before formula.toList) := by
  obtain ⟨ps, hps, hsorted, hmem⟩ := exists_listed formula.toList
  have hlist := pairwise_eraseDups (hsorted.filter fun q => !isReserved q.2 && !isNumeral q.2)
  have hnames : (ps.filter fun q => !isReserved q.2 && !isNumeral q.2).map Prod.snd =
      (mentions formula.toList).filter fun name => !isReserved name && !isNumeral name := by
    rw [← hps, List.filter_map]
    rfl
  rw [hnames] at hlist
  refine List.Pairwise.imp_of_mem (fun {x y} _ hy hxy => ?_) hlist
  obtain ⟨i, hi, hlt⟩ := hxy
  have hkept := (List.mem_filter.1 (List.mem_eraseDups.1 hy)).2
  exact ⟨i, (hmem i x).1 (List.mem_filter.1 hi).1,
    fun j hj => hlt j (List.mem_filter.2 ⟨(hmem j y).2 hj, hkept⟩)⟩

theorem fields_nodup (formula : String) : (fields formula).Nodup := by
  refine (fields_pairwise formula).imp fun {x y} h heq => ?_
  obtain ⟨i, hi, hlt⟩ := h
  exact Nat.lt_irrefl i (hlt i (heq ▸ hi))

theorem isReserved_iff : isReserved x = true ↔ x.toLower ∈ reservedWords := by
  rw [isReserved, List.contains_iff_mem, ← Text.toList_toLower, String.ofList_toList]

theorem mentions_append (h : ∀ c ∈ r.head?, isWordChar c = false) :
    mentions (cs ++ r) = mentions cs ++ mentions r := by
  fun_induction mentions cs with
  | case1 => rfl
  | case2 c s hc _ ih =>
    have hrun := run_takeWhile (isWordChar_of_isWordStart hc) s
    have hjoin :
        Run (c :: s ++ r) [] (c :: s.takeWhile isWordChar) (s.dropWhile isWordChar ++ r) := by
      refine ⟨?_, hrun.word, hrun.left, fun a ha => ?_⟩
      · rw [hrun.eq]
        exact List.append_assoc ..
      · cases hs : s.dropWhile isWordChar with
        | nil => exact h a (by rwa [hs] at ha)
        | cons b t =>
          rw [hs] at ha
          exact hrun.right a (by rwa [hs])
    rw [mentions_run hjoin ⟨c, _, rfl, hc⟩, ih, List.cons_append]
  | case3 c s hc ih => rw [List.cons_append, mentions, if_neg hc, ih]

theorem mentions_separator (h : ∀ c ∈ cs, isWordChar c = false) :
    mentions (cs ++ r) = mentions r := by
  induction cs with
  | nil => rfl
  | cons c cs ih =>
    obtain ⟨hc, hcs⟩ := List.forall_mem_cons.1 h
    rw [List.cons_append, mentions_cons_other hc, ih hcs]

theorem fields_append {separator : String} (hne : separator ≠ "")
    (hs : ∀ c ∈ separator.toList, isWordChar c = false) (formula other : String) :
    fields (formula ++ separator ++ other) =
      fields formula ++ (fields other).filter (· ∉ fields formula) := by
  obtain ⟨c, cs, hcs⟩ := List.exists_cons_of_ne_nil (mt String.toList_eq_nil_iff.1 hne)
  have hm : mentions (formula ++ separator ++ other).toList =
      mentions formula.toList ++ mentions other.toList := by
    rw [String.toList_append, String.toList_append, List.append_assoc, mentions_append,
      mentions_separator hs]
    intro a ha
    rw [hcs] at ha
    cases ha
    exact hs c (hcs ▸ List.mem_cons_self)
  rw [fields, hm, List.filter_append, List.eraseDups_append, List.removeAll]
  refine congrArg (fields formula ++ ·) ?_
  rw [eraseDups_filter]
  refine List.filter_congr fun x _ => ?_
  rw [List.elem_eq_mem, ← decide_not, fields]
  exact decide_eq_decide.2 (not_congr List.mem_eraseDups.symm)

theorem filter_functionNames_shown :
    functionNames.filter (fun name => !isReserved name) =
      ["IFGT", "COALESCE", "Ceil", "Floor", "Len"] := by
  decide

theorem filter_functionNames_reserved :
    functionNames.filter isReserved = ["IF", "Abs", "Round", "Max", "Min", "Sqrt", "If"] := by
  decide

theorem mem_fields_not_used : x ∈ fields formula ∧ x ∉ used formula ↔
    x ∈ mentions formula.toList ∧ x ∈ ["IFGT", "COALESCE", "Ceil", "Floor", "Len"] := by
  have hname : x ∈ functionNames → x ≠ "Infinity" := by
    rintro hx rfl
    exact absurd hx (by decide)
  rw [mem_fields, mem_used, ← filter_functionNames_shown, List.mem_filter, Bool.not_eq_true']
  constructor
  · rintro ⟨⟨hm, hr, hne⟩, hu⟩
    exact ⟨hm, by_contra fun hf => hu ⟨hm, hf, hne⟩, hr⟩
  · rintro ⟨hm, hf, hr⟩
    exact ⟨⟨hm, hr, hname hf⟩, fun hu => hu.2.1 hf⟩

theorem mem_used_not_fields : x ∈ used formula ∧ x ∉ fields formula ↔
    x ∈ mentions formula.toList ∧ isReserved x = true ∧
      x ∉ ["IF", "Abs", "Round", "Max", "Min", "Sqrt", "If"] := by
  have hname : isReserved x = true → x ≠ "Infinity" := by
    rintro hx rfl
    exact absurd hx (by decide)
  rw [mem_fields, mem_used, ← filter_functionNames_reserved, List.mem_filter]
  constructor
  · rintro ⟨⟨hm, hf, hne⟩, hu⟩
    have hr : isReserved x = true := by_contra fun hr => hu ⟨hm, eq_false_of_ne_true hr, hne⟩
    exact ⟨hm, hr, fun h => hf h.1⟩
  · rintro ⟨hm, hr, hf⟩
    refine ⟨⟨hm, fun h => hf ⟨h, hr⟩, hname hr⟩, fun h => ?_⟩
    rw [hr] at h
    cases h.2.1

/-- The field list of a text has each occurring name that is no reserved word and not `Infinity`,
once and by first occurrence, and behind a separator a second text adds its new names at the end. Of
the names that count as zero, it leaves out the reserved words not spelled like a function, and it
adds the functions that are no reserved words. -/
theorem fields_of_occurrences (formula : String) :
    (fields formula).Nodup ∧ (fields formula).Pairwise (Before formula.toList) ∧
    (∀ x, x ∈ fields formula ↔
      (∃ i, Occurs x i formula.toList) ∧ x.toLower ∉ reservedWords ∧ x ≠ "Infinity") ∧
    (∀ separator other, separator ≠ "" → (∀ c ∈ separator.toList, isWordChar c = false) →
      fields (formula ++ separator ++ other) =
        fields formula ++ (fields other).filter (· ∉ fields formula)) ∧
    (∀ x, x ∈ fields formula ∧ x ∉ used formula ↔
      (∃ i, Occurs x i formula.toList) ∧ x ∈ ["IFGT", "COALESCE", "Ceil", "Floor", "Len"]) ∧
    (∀ x, x ∈ used formula ∧ x ∉ fields formula ↔
      (∃ i, Occurs x i formula.toList) ∧ x.toLower ∈ reservedWords ∧
        x ∉ ["IF", "Abs", "Round", "Max", "Min", "Sqrt", "If"]) := by
  refine ⟨fields_nodup formula, fields_pairwise formula, fun x => ?_, ?_, fun x => ?_, fun x => ?_⟩
  · rw [mem_fields, mem_mentions_iff, ← Bool.not_eq_true, isReserved_iff]
  · exact fun separator other hne hs => fields_append hne hs formula other
  · rw [mem_fields_not_used, mem_mentions_iff]
  · rw [mem_used_not_fields, mem_mentions_iff, isReserved_iff]

theorem fields_of_occurrences_of_slash :
    ∃ formula separator other, formula = "1e5 + Max(fee_1, Sum)" ∧ separator = " / " ∧
      other = "IFGT(2x, fee_1)" ∧
      separator ≠ "" ∧ (∀ c ∈ separator.toList, isWordChar c = false) ∧
      fields formula = ["e5", "fee_1"] ∧ fields other = ["IFGT", "x", "fee_1"] ∧
      fields (formula ++ separator ++ other) = ["e5", "fee_1", "IFGT", "x"] := by
  have hne : " / " ≠ "" := by decide
  have hany : " / ".toList.any isWordChar = false := by decide
  have hs : ∀ c ∈ " / ".toList, isWordChar c = false :=
    fun c hc => eq_false_of_ne_true (List.any_eq_false.1 hany c hc)
  have hf : fields "1e5 + Max(fee_1, Sum)" = ["e5", "fee_1"] := by decide +kernel
  have ho : fields "IFGT(2x, fee_1)" = ["IFGT", "x", "fee_1"] := by decide +kernel
  obtain ⟨-, -, -, happend, -, -⟩ := fields_of_occurrences "1e5 + Max(fee_1, Sum)"
  refine ⟨_, _, _, rfl, rfl, rfl, hne, hs, hf, ho, ?_⟩
  rw [happend _ _ hne hs, hf, ho]
  decide

end FieldFormula.Reference
