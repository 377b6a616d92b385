import FieldFormula.Proofs.DecimalRounding
import FieldFormula.Proofs.NumeralReaders

/-!
The number that a text begins with. The scan of numerals takes as much as it can, so
the longest literal that the text begins with is read, unless a digit of another
script makes a longer one, which has no value.
-/
namespace FieldFormula.Numeral

inductive Signs : Bool → List Char → Prop
  | none : Signs false []
  | some (negative : Bool) : Signs negative [if negative then '-' else '+']

inductive Body (digit : Char → Bool) : Option Numeral → List Char → Prop
  | infinity : Body digit none "Infinity".toList
  | numeral {n : Numeral} {v : List Char} : Spells digit n v → Body digit (some n) v

inductive Literal (digit : Char → Bool) : Bool → Option Numeral → List Char → Prop
  | intro {negative : Bool} {n : Option Numeral} {s b : List Char} :
      Signs negative s → Body digit n b → Literal digit negative n (s ++ b)

def literalNumber (negative : Bool) : Option Numeral → Binary64
  | none => .infinity negative
  | some n => .ofUnits negative (n.value.ratio.1 * Binary64.one) n.value.ratio.2

/-- `w` is the longest literal that the text begins with. -/
structure Longest (digit : Char → Bool) (cs w : List Char) : Prop where
  isPrefix : w <+: cs
  literal : ∃ negative n, Literal digit negative n w
  longest : ∀ w' negative n, w' <+: cs → Literal digit negative n w' → w'.length ≤ w.length

section
variable {digit : Char → Bool} {negative : Bool} {n m : Numeral} {x e v r cs rest : List Char}

/- The scan of a text that begins with a numeral goes at least as far as the numeral: what it leaves
is left of the text behind the numeral. One lemma per stage of the scan. -/

theorem span_digits (hx : ∀ c ∈ x, digit c = true) (r : List Char) :
    (x ++ r).span digit = (x ++ r.takeWhile digit, r.dropWhile digit) := by
  rw [List.span_eq_takeWhile_dropWhile, List.takeWhile_append_of_pos hx,
    List.dropWhile_append_of_pos hx]

theorem digit_of_isMark (hj : ∀ c ∈ joints, digit c = false) {c : Char} (hc : isMark c = true) :
    digit c = false := by
  rcases isMark_cases hc with rfl | rfl
  · exact hj _ (by decide)
  · exact hj _ (by decide)

theorem ne_point_of_isMark {c : Char} (hc : isMark c = true) : c ≠ '.' := by
  rintro rfl
  cases hc

theorem Exponent.dropWhile_append (h : Exponent negative x e) (hj : ∀ c ∈ joints, digit c = false)
    (r : List Char) : ∃ r', (e ++ r).dropWhile digit = e ++ r' ∧ r' <:+ r := by
  cases h with
  | none => exact ⟨r.dropWhile digit, rfl, List.dropWhile_suffix _⟩
  | unsigned hm => exact ⟨r, by simp [digit_of_isMark hj hm], List.suffix_refl _⟩
  | signed negative hm => exact ⟨r, by simp [digit_of_isMark hj hm], List.suffix_refl _⟩

theorem Exponent.splitFraction_append (h : Exponent negative x e) (digit : Char → Bool)
    (r : List Char) : ∃ r', (splitFraction digit (e ++ r)).2 = e ++ r' ∧ r' <:+ r := by
  have mark : ∀ {c : Char} {t : List Char}, isMark c = true →
      (splitFraction digit (c :: t)).2 = c :: t := by
    intro c t hc
    rw [splitFraction_of_head (by simpa using ne_point_of_isMark hc)]
  cases h with
  | none =>
    rw [List.nil_append]
    rcases splitFraction_spec digit r with ⟨hs, -⟩ | ⟨fs, r', hs, rfl, -⟩
    · exact ⟨r, by rw [hs, List.nil_append], List.suffix_refl _⟩
    · exact ⟨r', by rw [hs, List.nil_append], '.' :: fs, rfl⟩
  | unsigned hm => exact ⟨r, mark hm, List.suffix_refl _⟩
  | signed negative hm => exact ⟨r, mark hm, List.suffix_refl _⟩

theorem Exponent.splitExponent_suffix (h : Exponent negative x e) (hx : ∀ c ∈ x, digit c = true)
    (hj : ∀ c ∈ joints, digit c = false) (r : List Char) :
    (splitExponent digit (e ++ r)).2 <:+ r := by
  cases h with
  | none =>
    obtain ⟨_, _, e, rest, hs, hr, -⟩ := splitExponent_spec digit r
    rw [List.nil_append, hs]
    exact ⟨e, hr.symm⟩
  | unsigned hm hne =>
    obtain ⟨d, ds, rfl⟩ := List.exists_cons_of_ne_nil hne
    have ne : ∀ c ∈ joints, d ≠ c := by
      rintro c hc rfl
      simp [hj d hc] at hx
    have hsign := splitSign_cons (ne '+' (by decide)) (ne '-' (by decide)) (ds ++ r)
    have hs := span_digits hx r
    rw [List.cons_append] at hs ⊢
    rw [List.cons_append, splitExponent]
    simp only [hsign, hs, hm]
    exact List.dropWhile_suffix _
  | signed negative hm hne =>
    have hs := span_digits hx r
    have hne' : (x ++ r.takeWhile digit).isEmpty = false := by simp [hne]
    rw [List.cons_append, List.cons_append, splitExponent]
    simp only [splitSign_signed, hs, hm, hne']
    exact List.dropWhile_suffix _

theorem scan_suffix (h : Spells digit n v) (hj : ∀ c ∈ joints, digit c = false) (r : List Char) :
    ∃ m rest, scan digit (v ++ r) = some (m, rest) ∧ rest <:+ r := by
  cases h with
  | @intro w f x m e negative hw hf hx hm he =>
    cases hm with
    | whole hne =>
      obtain ⟨r₁, hr₁, hs₁⟩ := he.dropWhile_append hj r
      obtain ⟨r₂, hr₂, hs₂⟩ := he.splitFraction_append digit r₁
      have hs₃ := he.splitExponent_suffix hx hj r₂
      have hspan := span_digits hw (e ++ r)
      have hnone : ((w ++ (e ++ r).takeWhile digit).isEmpty &&
          (splitFraction digit (e ++ r₁)).1.isEmpty) = false := by
        simp [hne]
      rw [List.append_assoc]
      simp only [scan, hspan, hr₁, hr₂, hnone]
      exact ⟨_, _, rfl, (hs₃.trans hs₂).trans hs₁⟩
    | pointed hne =>
      have hp : ∀ c ∈ ('.' :: (f ++ (e ++ r))).head?, digit c = false := by
        simpa using hj '.' (by decide)
      obtain ⟨r₁, hr₁, hs₁⟩ := he.dropWhile_append hj r
      have hs₂ := he.splitExponent_suffix hx hj r₁
      have hspan := span_append hw hp
      have hfr : splitFraction digit ('.' :: (f ++ (e ++ r))) =
          (f ++ (e ++ r).takeWhile digit, e ++ r₁) := by
        rw [splitFraction, span_digits hf, hr₁]
      have hnone : (w.isEmpty && (f ++ (e ++ r).takeWhile digit).isEmpty) = false := by
        rcases hne with hne | hne <;> simp [hne]
      rw [List.append_assoc, List.append_assoc, List.cons_append]
      simp only [scan, hspan, hfr, hnone]
      exact ⟨_, _, rfl, hs₂.trans hs₁⟩

theorem scan_longest (hs : scan digit cs = some (n, rest)) (hj : ∀ c ∈ joints, digit c = false)
    (h : Spells digit m v) (hv : v <+: cs) : v.length + rest.length ≤ cs.length := by
  obtain ⟨r, rfl⟩ := hv
  obtain ⟨m', rest', hs', hsuf⟩ := scan_suffix h hj r
  cases hs.symm.trans hs'
  have := hsuf.length_le
  rw [List.length_append]
  omega

theorem scan_ne_none (hj : ∀ c ∈ joints, digit c = false) (h : Spells digit m v) (hv : v <+: cs) :
    scan digit cs ≠ none := by
  obtain ⟨r, rfl⟩ := hv
  obtain ⟨m', rest', hs', -⟩ := scan_suffix h hj r
  rw [hs']
  exact Option.some_ne_none _

/- Two spellings of one text are of one numeral: the scan gives both. -/
theorem Spells.unique (h : Spells digit n v) (h' : Spells digit m v)
    (hj : ∀ c ∈ joints, digit c = false) : n = m := by
  have hs := scan_append h hj (ends_nil _)
  rw [scan_append h' hj (ends_nil _)] at hs
  cases hs
  rfl

theorem Spells.head (h : Spells digit n v) : ∃ c r, v = c :: r ∧ (digit c = true ∨ c = '.') := by
  cases h with
  | @intro w f x m e negative hw hf hx hm he =>
    cases hm with
    | whole hne =>
      obtain ⟨d, w, rfl⟩ := List.exists_cons_of_ne_nil hne
      exact ⟨d, _, rfl, Or.inl (hw d List.mem_cons_self)⟩
    | pointed =>
      cases w with
      | nil => exact ⟨'.', _, rfl, Or.inr rfl⟩
      | cons d w => exact ⟨d, _, rfl, Or.inl (hw d List.mem_cons_self)⟩

theorem Spells.of_forall {p : Char → Bool} (h : Spells digit n v)
    (hp : ∀ c ∈ v, digit c = true → p c = true) : Spells p n v := by
  cases h with
  | @intro w f x m e negative hw hf hx hm he =>
    have hwm : w ⊆ m := by cases hm <;> simp
    have hfm : f ⊆ m := by cases hm <;> simp
    have hxe : x ⊆ e := by
      cases he with
      | none => exact List.Subset.refl _
      | unsigned => exact List.subset_cons_self ..
      | signed => exact List.Subset.trans (List.subset_cons_self ..) (List.subset_cons_self ..)
    exact .intro (fun c hc => hp c (List.mem_append_left _ (hwm hc)) (hw c hc))
      (fun c hc => hp c (List.mem_append_left _ (hfm hc)) (hf c hc))
      (fun c hc => hp c (List.mem_append_right _ (hxe hc)) (hx c hc)) hm he

theorem Spells.ascii (h : Spells digit n v) (ha : n.isAscii = true) : Spells Char.isDigit n v := by
  cases h with
  | intro hw hf hx hm he =>
    simp only [Numeral.isAscii, List.all_append, Bool.and_eq_true, List.all_eq_true] at ha
    exact .intro ha.1.1 ha.1.2 ha.2 hm he

end

section
variable {digit : Char → Bool} {negative : Bool} {n m : Option Numeral} {s b r w cs : List Char}

theorem splitSign_signs (hs : Signs negative s) (hr : ∀ c ∈ r.head?, c ≠ '+' ∧ c ≠ '-') :
    splitSign (s ++ r) = (negative, r) := by
  cases hs with
  | none =>
    cases r with
    | nil => rfl
    | cons c r => exact splitSign_cons (hr c rfl).1 (hr c rfl).2 r
  | some negative => exact splitSign_signed negative r

theorem exists_signs (cs : List Char) :
    ∃ negative s r, Signs negative s ∧ cs = s ++ r ∧ splitSign cs = (negative, r) := by
  rcases splitSign_spec cs with h | ⟨negative, r, rfl, h⟩
  · exact ⟨false, [], cs, .none, rfl, h⟩
  · exact ⟨negative, _, r, .some negative, rfl, h⟩

theorem Body.head (h : Body digit n b) (hd : ∀ c ∈ joints, digit c = false) :
    ∀ c ∈ (b ++ r).head?, c ≠ '+' ∧ c ≠ '-' := by
  cases h with
  | infinity => simp
  | numeral hv =>
    obtain ⟨c, v, rfl, hc⟩ := hv.head
    have ne : ∀ d ∈ joints, d ≠ '.' → c ≠ d := by
      rintro d hd' hp rfl
      rw [hd c hd'] at hc
      exact hp (hc.resolve_left Bool.false_ne_true)
    intro c' hc'
    cases hc'
    exact ⟨ne '+' (by decide) (by decide), ne '-' (by decide) (by decide)⟩

theorem Literal.split (h : Literal digit negative n w) (hd : ∀ c ∈ joints, digit c = false)
    (hw : w <+: cs) :
    ∃ s b r, Signs negative s ∧ Body digit n b ∧ w = s ++ b ∧ cs = s ++ r ∧ b <+: r ∧
      splitSign cs = (negative, r) := by
  obtain ⟨t, rfl⟩ := hw
  cases h with
  | @intro s b hs hb =>
    refine ⟨s, b, b ++ t, hs, hb, rfl, List.append_assoc .., List.prefix_append .., ?_⟩
    rw [List.append_assoc]
    exact splitSign_signs hs (hb.head hd)

theorem Longest.of_body (hs : Signs negative s) (hsplit : splitSign (s ++ r) = (negative, r))
    (hd : ∀ c ∈ joints, digit c = false) (hb : Body digit n b) (hr : b <+: r)
    (hl : ∀ b' m, b' <+: r → Body digit m b' → b'.length ≤ b.length) :
    Longest digit (s ++ r) (s ++ b) := by
  refine ⟨(List.prefix_append_right_inj s).2 hr, ⟨negative, n, .intro hs hb⟩,
    fun w' negative' n' hw' h' => ?_⟩
  obtain ⟨s', b', r', -, hb', rfl, he, hr', hsplit'⟩ := h'.split hd hw'
  cases hsplit.symm.trans hsplit'
  cases List.append_cancel_right he
  simpa using hl b' n' hr' hb'

theorem Longest.body (h : Longest digit (s ++ r) (s ++ b)) (hs : Signs negative s) :
    ∀ b' m, b' <+: r → Body digit m b' → b'.length ≤ b.length := by
  intro b' m hb' hm
  have hl := h.longest (s ++ b') negative m ((List.prefix_append_right_inj s).2 hb') (.intro hs hm)
  simpa using hl

theorem Body.of_ascii (h : Body Char.isDigit n b) : Body Text.isDecimalDigit n b := by
  cases h with
  | infinity => exact .infinity
  | numeral hv => exact .numeral (hv.mono fun _ => Text.isDecimalDigit_of_isDigit)

theorem Spells.not_infinity {k : Numeral} {v : List Char} (h : Spells digit k v)
    (hd : digit 'I' = false) (hv : v <+: r) : ¬ "Infinity".toList <+: r := by
  obtain ⟨c, v, rfl, hc⟩ := h.head
  obtain ⟨t, rfl⟩ := hv
  intro hi
  have he : 'I' = c := (List.cons_prefix_cons.1 hi).1
  subst he
  rw [hd] at hc
  exact absurd hc (by decide)

end

section
variable {negative : Bool} {n : Option Numeral} {k : Numeral} {s b r rest t w : List Char}

theorem leadingNumber?_of_infinity (h : splitSign (Text.skipBlanks t) = (negative, r))
    (hi : "Infinity".toList <+: r) : leadingNumber? t = some (.infinity negative) := by
  rw [leadingNumber?, h]
  exact if_pos (List.isPrefixOf_iff_prefix.2 hi)

theorem leadingNumber?_of_scan (h : splitSign (Text.skipBlanks t) = (negative, r))
    (hi : ¬ "Infinity".toList <+: r) (hs : Numeral.scan Text.isDecimalDigit r = some (k, rest)) :
    leadingNumber? t = if k.isAscii then some (literalNumber negative (some k)) else none := by
  rw [leadingNumber?, h, literalNumber, ← Decimal.toBinary64_eq_ofUnits]
  dsimp only
  rw [if_neg (by simpa [List.isPrefixOf_iff_prefix] using hi), hs]

theorem leadingNumber?_of_scan_none (h : splitSign (Text.skipBlanks t) = (negative, r))
    (hi : ¬ "Infinity".toList <+: r) (hs : Numeral.scan Text.isDecimalDigit r = none) :
    leadingNumber? t = none := by
  rw [leadingNumber?, h]
  dsimp only
  rw [if_neg (by simpa [List.isPrefixOf_iff_prefix] using hi), hs]

theorem longest_of_infinity {digit : Char → Bool} (hs : Signs negative s)
    (h : splitSign (s ++ r) = (negative, r)) (hd : ∀ c ∈ 'I' :: joints, digit c = false)
    (hi : "Infinity".toList <+: r) : Longest digit (s ++ r) (s ++ "Infinity".toList) := by
  obtain ⟨hI, hj⟩ := List.forall_mem_cons.1 hd
  refine .of_body hs h hj .infinity hi fun b' m hb' hm => ?_
  cases hm with
  | infinity => exact Nat.le_refl _
  | numeral hv => exact absurd hi (hv.not_infinity hI hb')

theorem longest_of_scan {digit : Char → Bool} {v : List Char} (hs : Signs negative s)
    (h : splitSign (s ++ (v ++ rest)) = (negative, v ++ rest))
    (hd : ∀ c ∈ 'I' :: joints, digit c = false)
    (hscan : Numeral.scan digit (v ++ rest) = some (k, rest)) (hv : Spells digit k v) :
    Longest digit (s ++ (v ++ rest)) (s ++ v) := by
  obtain ⟨hI, hj⟩ := List.forall_mem_cons.1 hd
  refine .of_body hs h hj (.numeral hv) (List.prefix_append ..) fun b' m hb' hm => ?_
  cases hm with
  | infinity => exact absurd hb' (hv.not_infinity hI (List.prefix_append ..))
  | numeral hv' =>
    have hl := scan_longest hscan hj hv' hb'
    rw [List.length_append] at hl
    omega

theorem not_isDecimalDigit : ∀ c ∈ 'I' :: joints, Text.isDecimalDigit c = false :=
  List.forall_mem_cons.2 ⟨by decide, isDecimalDigit_of_mem_joints⟩

theorem not_isDigit : ∀ c ∈ 'I' :: joints, c.isDigit = false :=
  List.forall_mem_cons.2 ⟨rfl, not_mem_joints_of_isDigit⟩

theorem leadingNumber?_of_longest_decimal (hl : Longest Text.isDecimalDigit (Text.skipBlanks t) w)
    (hw : Literal Char.isDigit negative n w) :
    leadingNumber? t = some (literalNumber negative n) := by
  obtain ⟨s, b, r, hs, hb, rfl, he, hr, hsplit⟩ := hw.split not_mem_joints_of_isDigit hl.isPrefix
  rw [he] at hl
  cases hb with
  | infinity => exact leadingNumber?_of_infinity hsplit hr
  | numeral hv =>
    have hv' := hv.mono fun _ => Text.isDecimalDigit_of_isDigit
    have hi := hv'.not_infinity (by decide) hr
    obtain ⟨⟨m, rest⟩, hscan⟩ :=
      Option.ne_none_iff_exists'.1 (scan_ne_none isDecimalDigit_of_mem_joints hv' hr)
    obtain ⟨v, rfl, hm⟩ := spells_of_scan hscan
    have hle : b.length ≤ v.length := by
      have h := scan_longest hscan isDecimalDigit_of_mem_joints hv' hr
      rw [List.length_append] at h
      omega
    have hge := hl.body hs v (some m) (List.prefix_append ..) (.numeral hm)
    have heq : b = v :=
      (List.prefix_of_prefix_length_le hr (List.prefix_append ..) hle).eq_of_length (by omega)
    subst heq
    cases hm.unique hv' isDecimalDigit_of_mem_joints
    rw [leadingNumber?_of_scan hsplit hi hscan, if_pos hv.isAscii]

theorem exists_longest_of_some {x : Binary64} (h : leadingNumber? t = some x) :
    ∃ negative n w, Longest Text.isDecimalDigit (Text.skipBlanks t) w ∧
      Literal Char.isDigit negative n w := by
  obtain ⟨negative, s, r, hs, he, hsplit⟩ := exists_signs (Text.skipBlanks t)
  by_cases hi : "Infinity".toList <+: r
  · refine ⟨negative, none, s ++ "Infinity".toList, ?_, .intro hs .infinity⟩
    rw [he] at hsplit ⊢
    exact longest_of_infinity hs hsplit not_isDecimalDigit hi
  · cases hscan : Numeral.scan Text.isDecimalDigit r with
    | none =>
      rw [leadingNumber?_of_scan_none hsplit hi hscan] at h
      cases h
    | some p =>
      obtain ⟨k, rest⟩ := p
      rw [leadingNumber?_of_scan hsplit hi hscan] at h
      obtain ⟨v, rfl, hv⟩ := spells_of_scan hscan
      split at h
      · next ha =>
        refine ⟨negative, some k, s ++ v, ?_, .intro hs (.numeral (hv.ascii ha))⟩
        rw [he] at hsplit ⊢
        exact longest_of_scan hs hsplit not_isDecimalDigit hscan hv
      · cases h

end

theorem Literal.decimal {negative : Bool} {n : Option Numeral} {w : List Char}
    (h : Literal Char.isDigit negative n w) : Literal Text.isDecimalDigit negative n w := by
  cases h with
  | intro hs hb => exact .intro hs hb.of_ascii

theorem Longest.decimal {cs w : List Char} (h : Longest Char.isDigit cs w)
    (ha : ∀ c ∈ cs, Text.isDecimalDigit c = true → c.isDigit = true) :
    Longest Text.isDecimalDigit cs w := by
  obtain ⟨negative, n, hw⟩ := h.literal
  refine ⟨h.isPrefix, ⟨negative, n, hw.decimal⟩, fun w' negative' n' hw' h' => ?_⟩
  apply h.longest w' negative' n' hw'
  cases h' with
  | intro hs hb =>
    cases hb with
    | infinity => exact .intro hs .infinity
    | numeral hv =>
      exact .intro hs
        (.numeral (hv.of_forall fun c hc => ha c (hw'.subset (List.mem_append_right _ hc))))

/-- The number that a text begins with, white space aside, is that of the longest literal in ASCII
digits, whatever follows it, unless the text begins with a longer literal in digits of all
scripts: then there is none, as where the text begins with no literal. So with ASCII digits alone
nothing that follows a literal counts. -/
theorem leadingNumber?_longest (t : List Char) :
    (∀ w negative n, Longest Char.isDigit (Text.skipBlanks t) w →
      Literal Char.isDigit negative n w →
      (Longest Text.isDecimalDigit (Text.skipBlanks t) w →
        leadingNumber? t = some (literalNumber negative n)) ∧
      (¬ Longest Text.isDecimalDigit (Text.skipBlanks t) w → leadingNumber? t = none)) ∧
    ((∀ w negative n, w <+: Text.skipBlanks t → ¬ Literal Char.isDigit negative n w) →
      leadingNumber? t = none) ∧
    ((∀ c ∈ Text.skipBlanks t, Text.isDecimalDigit c = true → c.isDigit = true) →
      ∀ w, Longest Char.isDigit (Text.skipBlanks t) w →
        Longest Text.isDecimalDigit (Text.skipBlanks t) w) := by
  refine ⟨fun w negative n hl hw => ⟨fun hd => leadingNumber?_of_longest_decimal hd hw,
    fun hd => ?_⟩, fun h => ?_, fun ha w hl => hl.decimal ha⟩
  · cases hx : leadingNumber? t with
    | none => rfl
    | some x =>
      obtain ⟨negative', n', w', hd', hw'⟩ := exists_longest_of_some hx
      have hle := hd'.longest w negative n hl.isPrefix hw.decimal
      have hge := hl.longest w' negative' n' hd'.isPrefix hw'
      have heq : w = w' :=
        (List.prefix_of_prefix_length_le hl.isPrefix hd'.isPrefix hle).eq_of_length (by omega)
      subst heq
      exact absurd hd' hd
  · cases hx : leadingNumber? t with
    | none => rfl
    | some x =>
      obtain ⟨negative, n, w, hd, hw⟩ := exists_longest_of_some hx
      exact absurd hw (h w negative n hd.isPrefix)

theorem leadingNumber?_longest_of_dangling_exponent :
    Longest Char.isDigit (Text.skipBlanks "\u3000-1.5e+px".toList) "-1.5".toList ∧
      Literal Char.isDigit true (some ⟨['1'], ['5'], false, []⟩) "-1.5".toList ∧
      leadingNumber? "\u3000-1.5e+px".toList =
        some (literalNumber true (some ⟨['1'], ['5'], false, []⟩)) ∧
      literalNumber true (some ⟨['1'], ['5'], false, []⟩) =
        (Binary64.ofInt (-3)).div (.ofNat 2) := by
  have hv : Spells Char.isDigit ⟨['1'], ['5'], false, []⟩ ['1', '.', '5'] :=
    .intro (w := ['1']) (f := ['5']) (x := []) (m := ['1', '.', '5']) (e := [])
      (List.forall_mem_singleton.2 rfl) (List.forall_mem_singleton.2 rfl) (List.forall_mem_nil _)
      (.pointed (Or.inl (by decide))) .none
  have hs : Signs true ['-'] := .some true
  have hl : Longest Char.isDigit (['-'] ++ (['1', '.', '5'] ++ "e+px".toList))
      (['-'] ++ ['1', '.', '5']) :=
    longest_of_scan hs rfl not_isDigit rfl hv
  obtain ⟨counts, -, ascii⟩ := leadingNumber?_longest "\u3000-1.5e+px".toList
  have hall : ((Text.skipBlanks "\u3000-1.5e+px".toList).all fun c =>
      !Text.isDecimalDigit c || c.isDigit) = true := by
    decide +kernel
  have hd := ascii (fun c hc h => by simpa [h] using List.all_eq_true.1 hall c hc) _ hl
  exact ⟨hl, .intro hs (.numeral hv), (counts _ _ _ hl (.intro hs (.numeral hv))).1 hd,
    by decide +kernel⟩

/-- A digit of another script behind a numeral leaves the text without a number. -/
theorem leadingNumber?_one_and_foreign_digit :
    Longest Char.isDigit (Text.skipBlanks "1\u0663".toList) ['1'] ∧
      Literal Char.isDigit false (some ⟨['1'], [], false, []⟩) ['1'] ∧
      literalNumber false (some ⟨['1'], [], false, []⟩) = .ofNat 1 ∧
      leadingNumber? "1\u0663".toList = none := by
  have hv : Spells Char.isDigit ⟨['1'], [], false, []⟩ ['1'] :=
    .intro (w := ['1']) (f := []) (x := []) (m := ['1']) (e := []) (List.forall_mem_singleton.2 rfl)
      (List.forall_mem_nil _) (List.forall_mem_nil _) (.whole (by decide)) .none
  have hl : Longest Char.isDigit ([] ++ (['1'] ++ ['\u0663'])) ([] ++ ['1']) :=
    longest_of_scan .none rfl not_isDigit rfl hv
  exact ⟨hl, .intro .none (.numeral hv), by decide +kernel, by decide +kernel⟩

end FieldFormula.Numeral
