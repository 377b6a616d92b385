import FieldFormula.Proofs.Scan

/-!
Where a token ends. What follows a token counts only by its first character, and for
a word by whether a parenthesis opens; so the text behind a token may be exchanged
for another that begins in the same way.
-/
namespace FieldFormula.Token

/-- The text `r'` begins as `r` does, or with a blank, or else with nothing that a
token like `t` goes on with. -/
def Follows (t : Token) (r r' : List Char) : Prop :=
  ∀ d ∈ r'.head?, r.head? = some d ∨ Text.isBlank d = true ∨ (t.isMark = true ∧ isWordChar d = true)

/- Runs of characters. A run is stable if it ends in the same place whatever stands behind it,
   provided that this begins in the same way or with a blank. -/

def HeadLike (r r' : List Char) : Prop := ∀ d ∈ r'.head?, r.head? = some d ∨ Text.isBlank d = true

theorem HeadLike.append {r r' : List Char} (h : HeadLike r r') (u : List Char) :
    HeadLike (u ++ r) (u ++ r') := by
  cases u with
  | nil => exact h
  | cons c u => exact fun d hd => Or.inl hd

theorem Follows.headLike {t : Token} {r r' : List Char} (h : Follows t r r')
    (ht : t.isMark = false) : HeadLike r r' := by
  intro d hd
  rcases h d hd with h | h | ⟨hm, -⟩
  · exact Or.inl h
  · exact Or.inr h
  · rw [ht] at hm
    cases hm

structure Stable (run : List Char → Nat) : Prop where
  le_length : ∀ cs, run cs ≤ cs.length
  append : ∀ {u r r'}, run (u ++ r) = u.length → HeadLike r r' → run (u ++ r') = u.length

theorem stable_takeWhile {p : Char → Bool} (hp : ∀ d, Text.isBlank d = true → p d = false) :
    Stable fun cs => (cs.takeWhile p).length := by
  refine ⟨fun cs => (List.takeWhile_prefix p).length_le, ?_⟩
  intro u r r' h hr
  induction u with
  | nil =>
    cases r' with
    | nil => rfl
    | cons d r' =>
      have hd : p d = false := by
        rcases hr d rfl with hh | hb
        · obtain ⟨r, rfl⟩ := List.head?_eq_some_iff.1 hh
          by_contra hd
          simp [Bool.not_eq_false _ ▸ hd] at h
        · exact hp d hb
      simp [hd]
  | cons c u ih =>
    by_cases hc : p c = true
    · simp only [List.cons_append, List.takeWhile_cons_of_pos hc, List.length_cons,
        Nat.add_right_cancel_iff] at h ⊢
      exact ih h
    · simp [hc] at h

theorem Stable.seq {f g : List Char → Nat} (hf : Stable f) (hg : Stable g) :
    Stable fun cs => f cs + g (cs.drop (f cs)) := by
  refine ⟨fun cs => ?_, ?_⟩
  · have hd := hg.le_length (cs.drop (f cs))
    have hc := hf.le_length cs
    rw [List.length_drop] at hd
    omega
  intro u r r' h hr
  generalize hk : f (u ++ r) = k at h
  have hl : k ≤ u.length := by omega
  obtain ⟨v, w, rfl, hv⟩ : ∃ v w, u = v ++ w ∧ v.length = k :=
    ⟨u.take k, u.drop k, (List.take_append_drop k u).symm, by simp [hl]⟩
  rw [List.append_assoc] at hk h
  rw [← hv, List.drop_left, List.length_append, Nat.add_left_cancel_iff] at h
  have hf' := hf.append (hk.trans hv.symm) (hr.append w)
  rw [List.append_assoc, hf', List.drop_left, hg.append h hr, List.length_append]

theorem isDigit_of_isBlank {d : Char} (h : Text.isBlank d = true) : d.isDigit = false := by
  have hw := isWordChar_of_isBlank h
  simp only [isWordChar, Char.isAlphanum, Bool.or_eq_false_iff] at hw
  exact hw.1.2

theorem isBlank_of_isDigit {d : Char} (h : d.isDigit = true) : Text.isBlank d = false :=
  isBlank_of_isWordChar (by simp [isWordChar, Char.isAlphanum, h])

theorem stable_digits : Stable fun cs => (cs.takeWhile Char.isDigit).length :=
  stable_takeWhile fun _ => isDigit_of_isBlank

theorem HeadLike.ne {r r' : List Char} {c : Char} (h : HeadLike r r') (hc : Text.isBlank c = false)
    (hr : r.head? ≠ some c) : r'.head? ≠ some c := by
  intro hr'
  rcases h c hr' with hh | hb
  · exact hr hh
  · rw [hc] at hb
    cases hb

theorem fractionRun_of_head {r : List Char} (h : r.head? ≠ some '.') : fractionRun r = 0 := by
  rw [fractionRun.eq_def]
  split
  · exact absurd rfl h
  · rfl

theorem stable_fractionRun : Stable fractionRun := by
  refine ⟨fun cs => ?_, ?_⟩
  · rw [fractionRun.eq_def]
    split
    · next r =>
      have hd : (r.takeWhile Char.isDigit).length ≤ r.length := stable_digits.le_length r
      rw [List.length_cons]
      omega
    · exact Nat.zero_le _
  intro u r r' h hr
  cases u with
  | nil =>
    refine fractionRun_of_head (hr.ne rfl fun hh => ?_)
    obtain ⟨r, rfl⟩ := List.head?_eq_some_iff.1 hh
    simp [fractionRun] at h
  | cons c u =>
    rw [List.cons_append] at h ⊢
    by_cases hc : c = '.'
    · subst hc
      rw [fractionRun, List.length_cons, Nat.add_comm, Nat.add_right_cancel_iff] at h
      have hd : ((u ++ r').takeWhile Char.isDigit).length = u.length := stable_digits.append h hr
      rw [fractionRun, hd, List.length_cons, Nat.add_comm]
    · rw [fractionRun_of_head (by simpa using hc)] at h
      cases h

theorem exponentRun_of_head {r : List Char} (h : ∀ c ∈ r.head?, Numeral.isMark c = false) :
    exponentRun r = 0 := by
  cases r with
  | nil => rfl
  | cons c r => simp [exponentRun, h c rfl]

theorem exponentRun_signed {m c : Char} (hm : Numeral.isMark m = true) (hc : c = '+' ∨ c = '-')
    (r : List Char) : exponentRun (m :: c :: r) = 2 + (r.takeWhile Char.isDigit).length := by
  rw [exponentRun.eq_def]
  dsimp only
  rw [if_pos hm]
  rcases hc with rfl | rfl <;> rfl

theorem exponentRun_unsigned {m : Char} (hm : Numeral.isMark m = true) {r : List Char}
    (hp : r.head? ≠ some '+') (hn : r.head? ≠ some '-') :
    exponentRun (m :: r) = 1 + (r.takeWhile Char.isDigit).length := by
  rw [exponentRun.eq_def]
  dsimp only
  rw [if_pos hm]
  split <;> simp_all

theorem not_isMark_of_isBlank {d : Char} (h : Text.isBlank d = true) :
    Numeral.isMark d = false := by
  by_contra hm
  simp only [Numeral.isMark, Bool.or_eq_false_iff, decide_eq_false_iff_not, not_and_or,
    not_not] at hm
  rcases hm with rfl | rfl <;> cases h

theorem exponentRun_cases (cs : List Char) :
    ((∀ c ∈ cs.head?, Numeral.isMark c = false) ∧ exponentRun cs = 0) ∨
      ∃ m r, cs = m :: r ∧ Numeral.isMark m = true ∧
        ((∃ c v, r = c :: v ∧ (c = '+' ∨ c = '-') ∧
          exponentRun cs = 2 + (v.takeWhile Char.isDigit).length) ∨
          (r.head? ≠ some '+' ∧ r.head? ≠ some '-' ∧
            exponentRun cs = 1 + (r.takeWhile Char.isDigit).length)) := by
  by_cases hm : ∀ c ∈ cs.head?, Numeral.isMark c = false
  · exact Or.inl ⟨hm, exponentRun_of_head hm⟩
  · cases cs with
    | nil => simp at hm
    | cons m r =>
      replace hm : Numeral.isMark m = true := by simpa using hm
      refine Or.inr ⟨m, r, rfl, hm, ?_⟩
      by_cases hp : r.head? = some '+'
      · obtain ⟨v, rfl⟩ := List.head?_eq_some_iff.1 hp
        exact Or.inl ⟨_, v, rfl, Or.inl rfl, exponentRun_signed hm (Or.inl rfl) v⟩
      · by_cases hn : r.head? = some '-'
        · obtain ⟨v, rfl⟩ := List.head?_eq_some_iff.1 hn
          exact Or.inl ⟨_, v, rfl, Or.inr rfl, exponentRun_signed hm (Or.inr rfl) v⟩
        · exact Or.inr ⟨hp, hn, exponentRun_unsigned hm hp hn⟩

theorem exponentRun_le_length (cs : List Char) : exponentRun cs ≤ cs.length := by
  rcases exponentRun_cases cs with ⟨-, h⟩ | ⟨m, r, rfl, -, ⟨c, v, rfl, -, h⟩ | ⟨-, -, h⟩⟩
  · omega
  · have hd : (v.takeWhile Char.isDigit).length ≤ v.length := stable_digits.le_length v
    simp only [List.length_cons]
    omega
  · have hd : (r.takeWhile Char.isDigit).length ≤ r.length := stable_digits.le_length r
    simp only [List.length_cons]
    omega

theorem not_isMark_of_exponentRun {cs : List Char} (h : exponentRun cs = 0) :
    ∀ c ∈ cs.head?, Numeral.isMark c = false := by
  rcases exponentRun_cases cs with ⟨hm, -⟩ | ⟨m, v, -, -, ⟨c, v, -, -, he⟩ | ⟨-, -, he⟩⟩
  · exact hm
  · omega
  · omega

theorem stable_exponentRun : Stable exponentRun := by
  refine ⟨exponentRun_le_length, ?_⟩
  intro u r r' h hr
  cases u with
  | nil =>
    refine exponentRun_of_head fun d hd => ?_
    rcases hr d hd with hh | hb
    · exact not_isMark_of_exponentRun h d hh
    · exact not_isMark_of_isBlank hb
  | cons m u =>
    rcases exponentRun_cases (m :: u ++ r) with ⟨-, he⟩ |
      ⟨m', v, hv, hm, ⟨c, w, rfl, hc, he⟩ | ⟨hp, hn, he⟩⟩
    · rw [he] at h
      cases h
    · obtain ⟨rfl, hw⟩ : m = m' ∧ u ++ r = c :: w := List.cons.inj hv
      rw [he] at h
      cases u with
      | nil =>
        rw [List.length_singleton] at h
        omega
      | cons d u =>
        obtain ⟨rfl, rfl⟩ : d = c ∧ u ++ r = w := List.cons.inj hw
        have hl : ((u ++ r).takeWhile Char.isDigit).length = u.length := by
          simp only [List.length_cons] at h
          omega
        have hd : ((u ++ r').takeWhile Char.isDigit).length = u.length := stable_digits.append hl hr
        rw [List.cons_append, List.cons_append, exponentRun_signed hm hc, hd, List.length_cons,
          List.length_cons]
        omega
    · obtain ⟨rfl, rfl⟩ : m = m' ∧ u ++ r = v := List.cons.inj hv
      rw [he, List.length_cons, Nat.add_comm, Nat.add_right_cancel_iff] at h
      have hr' := hr.append u
      have hd : ((u ++ r').takeWhile Char.isDigit).length = u.length := stable_digits.append h hr
      rw [List.cons_append, exponentRun_unsigned hm (hr'.ne rfl hp) (hr'.ne rfl hn), hd,
        List.length_cons, Nat.add_comm]

theorem stable_numberRun : Stable numberRun :=
  (stable_digits.seq stable_fractionRun).seq stable_exponentRun

theorem stable_wordRun : Stable fun cs => (cs.takeWhile isWordChar).length :=
  stable_takeWhile fun _ => isWordChar_of_isBlank

/- Each way of cutting, with another text behind the token. -/

theorem takeWhile_of_length {p : Char → Bool} {u r : List Char}
    (h : ((u ++ r).takeWhile p).length = u.length) :
    (u ++ r).takeWhile p = u ∧ (u ++ r).dropWhile p = r := by
  have ht : (u ++ r).takeWhile p = u := by
    rw [List.prefix_iff_eq_take.1 (List.takeWhile_prefix p), h, List.take_left]
  have hd := List.takeWhile_append_dropWhile (p := p) (l := u ++ r)
  rw [ht] at hd
  exact ⟨ht, List.append_cancel_left hd⟩

theorem scanWord_append {u r r' : List Char} {t : Token} (h : scanWord (u ++ r) = (t, r))
    (hr : HeadLike r r') (ho : opensCall r' = opensCall r) : scanWord (u ++ r') = (t, r') := by
  simp only [scanWord, Prod.mk.injEq] at h
  have hl := congrArg List.length (List.takeWhile_append_dropWhile (p := isWordChar) (l := u ++ r))
  rw [h.2, List.length_append, List.length_append, Nat.add_right_cancel_iff] at hl
  obtain ⟨hu, hv⟩ := takeWhile_of_length hl
  obtain ⟨hu', hv'⟩ := takeWhile_of_length (stable_wordRun.append hl hr)
  rw [hu, hv] at h
  simp only [scanWord, hu', hv', ho]
  rw [h.1]

theorem numberRun_of_scanNumber {u r : List Char} {t : Token} (h : scanNumber (u ++ r) = (t, r)) :
    numberRun (u ++ r) = u.length := by
  simp only [scanNumber, Prod.mk.injEq] at h
  have hl := congrArg List.length h.2
  have hle := stable_numberRun.le_length (u ++ r)
  rw [List.length_drop] at hl
  rw [List.length_append] at hl hle
  omega

theorem scanNumber_append {u r r' : List Char} {t : Token} (h : scanNumber (u ++ r) = (t, r))
    (hr : HeadLike r r') : scanNumber (u ++ r') = (t, r') := by
  have hl := numberRun_of_scanNumber h
  have hl' := stable_numberRun.append hl hr
  simp only [scanNumber, hl, List.take_left, Prod.mk.injEq] at h
  simp only [scanNumber, hl', List.take_left, List.drop_left]
  rw [h.1]

theorem closeQuote_of_ne {quote c : Char} (hc : c ≠ '\\') (r : List Char) :
    closeQuote quote (c :: r) =
      if c = quote then some ([], r)
      else (closeQuote quote r).map fun (s, rest) => (c :: s, rest) := by
  rw [closeQuote]
  · exact fun he _ => hc he
  · exact fun _ _ he _ => hc he

/- The last two cases of `closeQuote` are those in which no backslash stands in front. -/
theorem ne_backslash {c : Char} {cs : List Char} (hnil : c = '\\' → cs = [] → False)
    (hcons : ∀ d r, c = '\\' → cs = d :: r → False) : c ≠ '\\' := by
  intro hc
  cases cs with
  | nil => exact hnil hc rfl
  | cons d r => exact hcons d r hc rfl

theorem closeQuote_append {quote : Char} {cs s r : List Char}
    (h : closeQuote quote cs = some (s, r)) :
    ∃ u, cs = u ++ r ∧ ∀ r', closeQuote quote (u ++ r') = some (s, r') := by
  fun_induction closeQuote quote cs generalizing s r with
  | case1 => cases h
  | case2 => cases h
  | case3 c cs ih =>
    obtain ⟨⟨s', rest⟩, h', e⟩ := Option.map_eq_some_iff.1 h
    cases e
    obtain ⟨u, rfl, hu⟩ := ih h'
    exact ⟨'\\' :: c :: u, rfl, fun r' => by simp [closeQuote, hu]⟩
  | case4 cs hnil hcons =>
    cases h
    exact ⟨[quote], rfl,
      fun r' => (closeQuote_of_ne (ne_backslash hnil hcons) r').trans (if_pos rfl)⟩
  | case5 c cs hnil hcons hq ih =>
    obtain ⟨⟨s', rest⟩, h', e⟩ := Option.map_eq_some_iff.1 h
    cases e
    obtain ⟨u, rfl, hu⟩ := ih h'
    exact ⟨c :: u, rfl, fun r' => by
      rw [List.cons_append, closeQuote_of_ne (ne_backslash hnil hcons), if_neg hq, hu]
      rfl⟩

theorem scanText_append {quote : Char} {cs r : List Char} {t : Token}
    (h : scanText quote cs = (t, r)) (ht : t ≠ .invalid .openText) :
    ∃ u, cs = u ++ r ∧ ∀ r', scanText quote (u ++ r') = (t, r') := by
  rw [scanText] at h
  split at h
  · next s rest hq =>
    cases h
    obtain ⟨u, hu, hr⟩ := closeQuote_append hq
    exact ⟨u, hu, fun r' => by rw [scanText, hr]⟩
  · cases h
    exact absurd rfl ht

def markChars : List Char :=
  ['+', '-', '*', '/', '^', '%', ',', '(', ')', '<', '>', '!', '=', '&', '|']

def secondChars : List Char := ['=', '>', '&', '|']

theorem notMem_secondChars_of_isBlank {d : Char} (h : Text.isBlank d = true) : d ∉ secondChars := by
  intro hd
  simp only [secondChars, List.mem_cons, List.not_mem_nil, or_false] at hd
  rcases hd with rfl | rfl | rfl | rfl <;> cases h

theorem notMem_secondChars_of_isWordChar {d : Char} (h : isWordChar d = true) :
    d ∉ secondChars := by
  intro hd
  simp only [secondChars, List.mem_cons, List.not_mem_nil, or_false] at hd
  rcases hd with rfl | rfl | rfl | rfl <;> cases h

theorem Follows.secondChars {t : Token} {r r' : List Char} (h : Follows t r r') :
    ∀ d ∈ r'.head?, r.head? = some d ∨ d ∉ secondChars := by
  intro d hd
  rcases h d hd with hh | hb | ⟨-, hw⟩
  · exact Or.inl hh
  · exact Or.inr (notMem_secondChars_of_isBlank hb)
  · exact Or.inr (notMem_secondChars_of_isWordChar hw)

theorem scanFrom_of_notMem {c : Char} (hc : c ∉ markChars) (r : List Char) :
    scanFrom c r =
      if c = '"' || c = '\'' then scanText c r
      else if startsNumber (c :: r) then scanNumber (c :: r)
      else if isWordStart c then scanWord (c :: r)
      else (invalid (.strayCharacter c), r) := by
  rw [scanFrom.eq_def]
  split <;> first | rfl | exact absurd (by decide) hc

theorem ne_cons_of_notMem {x : Char} {r r' : List Char} (hx : x ∈ secondChars)
    (hn : ∀ v, r = x :: v → False) (hr : ∀ d ∈ r'.head?, r.head? = some d ∨ d ∉ secondChars) :
    ∀ v, r' = x :: v → False := by
  rintro v rfl
  rcases hr x rfl with hh | hs
  · obtain ⟨v, rfl⟩ := List.head?_eq_some_iff.1 hh
    exact hn v rfl
  · exact hs hx

/- A mark, or a character that is a fault by itself: only the second character counts. -/
theorem scanFrom_mark_append {c : Char} (hc : c ∈ markChars) {cs r : List Char} {t : Token}
    (h : scanFrom c cs = (t, r)) :
    ∃ u, cs = u ++ r ∧ ∀ r', (∀ d ∈ r'.head?, r.head? = some d ∨ d ∉ secondChars) →
      scanFrom c (u ++ r') = (t, r') := by
  rw [scanFrom.eq_def] at h
  split at h
  case h_10 | h_11 | h_13 | h_15 | h_17 | h_19 | h_21 =>
    cases h
    exact ⟨[_], rfl, fun _ _ => rfl⟩
  case h_12 he hg =>
    cases h
    refine ⟨[], rfl, fun r' hr => ?_⟩
    rw [List.nil_append, scanFrom]
    · exact ne_cons_of_notMem (by decide) he hr
    · exact ne_cons_of_notMem (by decide) hg hr
  case h_14 he | h_16 he | h_18 he | h_20 he | h_22 he =>
    cases h
    refine ⟨[], rfl, fun r' hr => ?_⟩
    rw [List.nil_append, scanFrom]
    exact ne_cons_of_notMem (by decide) he hr
  case h_23 =>
    -- none of the characters that begin a mark is left
    simp only [markChars, List.mem_cons, List.not_mem_nil, or_false] at hc
    rcases hc with rfl | rfl | rfl | rfl | rfl | rfl | rfl | rfl | rfl | rfl | rfl | rfl | rfl |
      rfl | rfl
    all_goals contradiction
  all_goals
    cases h
    exact ⟨[], rfl, fun _ _ => rfl⟩

theorem startsNumber_cons {c : Char} (hc : c ≠ '.') (r : List Char) :
    startsNumber (c :: r) = c.isDigit := by
  rw [startsNumber.eq_def]
  split
  · next h => exact absurd (List.cons.inj h).1 hc
  · next h => rw [(List.cons.inj h).1]
  · next h => cases h

theorem not_startsNumber_of_headLike {c : Char} {r r' : List Char}
    (h : startsNumber (c :: r) = false) (hr : HeadLike r r') : startsNumber (c :: r') = false := by
  by_cases hc : c = '.'
  · subst hc
    cases r' with
    | nil => rfl
    | cons d r' =>
      rw [startsNumber]
      rcases hr d rfl with hh | hb
      · obtain ⟨r, rfl⟩ := List.head?_eq_some_iff.1 hh
        rwa [startsNumber] at h
      · exact isDigit_of_isBlank hb
  · rw [startsNumber_cons hc] at h ⊢
    exact h

/- A number is seen to begin within its own text: a point alone would be a run of one character. -/
theorem startsNumber_append {c : Char} {u r : List Char} (h : startsNumber (c :: (u ++ r)) = true)
    (hn : numberRun (c :: u ++ r) = (c :: u).length) (r' : List Char) :
    startsNumber (c :: (u ++ r')) = true := by
  by_cases hc : c = '.'
  · subst hc
    cases u with
    | nil =>
      cases r with
      | nil => cases h
      | cons d r =>
        replace h : d.isDigit = true := h
        have hp : Char.isDigit '.' = false := rfl
        simp [numberRun, hp, fractionRun, h] at hn
        omega
    | cons d u => exact h
  · rw [startsNumber_cons hc] at h ⊢
    exact h

theorem scanFrom_append {c : Char} {u r r' : List Char} {t : Token}
    (h : scanFrom c (u ++ r) = (t, r)) (ht : t ≠ .invalid .openText)
    (ho : opensCall r' = opensCall r) (hr : Follows t r r') : scanFrom c (u ++ r') = (t, r') := by
  by_cases hc : c ∈ markChars
  · obtain ⟨w, hw, hs⟩ := scanFrom_mark_append hc h
    rw [List.append_cancel_right hw]
    exact hs r' hr.secondChars
  rw [scanFrom_of_notMem hc] at h ⊢
  by_cases hq : (decide (c = '"') || decide (c = '\'')) = true
  · rw [if_pos hq] at h ⊢
    obtain ⟨w, hw, hs⟩ := scanText_append h ht
    rw [List.append_cancel_right hw, hs]
  rw [if_neg hq] at h ⊢
  cases hn : startsNumber (c :: (u ++ r)) with
  | true =>
    rw [if_pos hn, ← List.cons_append] at h
    have hm := scanNumber_isMark (c :: u ++ r)
    rw [h] at hm
    rw [if_pos (startsNumber_append hn (numberRun_of_scanNumber h) r'), ← List.cons_append]
    exact scanNumber_append h (hr.headLike hm)
  | false =>
    rw [hn, if_neg Bool.false_ne_true] at h
    have hm : t.isMark = false := by
      split at h
      · have hm := scanWord_isMark (c :: (u ++ r))
        rwa [h] at hm
      · rw [← (Prod.mk.inj h).1]
        rfl
    rw [not_startsNumber_of_headLike hn ((hr.headLike hm).append u), if_neg Bool.false_ne_true]
    by_cases hw : isWordStart c = true
    · rw [if_pos hw, ← List.cons_append] at h ⊢
      exact scanWord_append h (hr.headLike hm) ho
    · rw [if_neg hw] at h ⊢
      obtain ⟨rfl, hu⟩ := Prod.mk.inj h
      rw [List.self_eq_append_left.1 hu.symm, List.nil_append]

theorem skipBlanks_blanks {b : List Char} (hb : ∀ d ∈ b, Text.isBlank d = true) (r : List Char) :
    Text.skipBlanks (b ++ r) = Text.skipBlanks r :=
  List.dropWhile_append_of_pos hb

theorem skipBlanks_append {b : List Char} {c : Char} (hb : ∀ d ∈ b, Text.isBlank d = true)
    (hc : Text.isBlank c = false) (r : List Char) : Text.skipBlanks (b ++ c :: r) = c :: r := by
  have hc' : ¬ Text.isBlank c = true := by simp [hc]
  rw [skipBlanks_blanks hb, Text.skipBlanks, List.dropWhile_cons_of_neg hc']

theorem next?_suffix {cs r : List Char} {t : Token} (h : next? cs = some (t, r)) : r <:+ cs := by
  obtain ⟨c, v, hv, hs⟩ := next?_eq_some.1 h
  have hc := (scanFrom_cut c v).suffix
  rw [hs, ← hv] at hc
  exact hc.trans (List.dropWhile_suffix _)

theorem next?_split {u r : List Char} {t : Token} (h : next? (u ++ r) = some (t, r)) :
    ∃ b c w, u = b ++ c :: w ∧ (∀ d ∈ b, Text.isBlank d = true) ∧ Text.isBlank c = false ∧
      scanFrom c (w ++ r) = (t, r) := by
  obtain ⟨c, v, hv, hs⟩ := next?_eq_some.1 h
  have hl := scanFrom_length c v
  have hx := (scanFrom_cut c v).suffix
  rw [hs] at hl hx
  obtain ⟨w, rfl⟩ : r <:+ v := (List.suffix_cons_iff.1 hx).resolve_left fun e => by
    rw [e, List.length_cons] at hl
    omega
  have hb := List.takeWhile_append_dropWhile (p := Text.isBlank) (l := u ++ r)
  have hc := List.head?_dropWhile_not Text.isBlank (u ++ r)
  rw [Text.skipBlanks] at hv
  rw [hv] at hb hc
  refine ⟨(u ++ r).takeWhile Text.isBlank, c, w, ?_, List.all_eq_true.1 List.all_takeWhile,
    by simpa using hc, hs⟩
  refine List.append_cancel_right (?_ : u ++ r = _ ++ r)
  rw [List.append_assoc, List.cons_append, hb]

theorem next?_append {u r r' : List Char} {t : Token} (h : next? (u ++ r) = some (t, r))
    (ht : t ≠ .invalid .openText) (ho : opensCall r' = opensCall r) (hr : Follows t r r') :
    next? (u ++ r') = some (t, r') := by
  obtain ⟨b, c, w, rfl, hb, hc, hs⟩ := next?_split h
  refine next?_eq_some.2 ⟨c, w ++ r', ?_, scanFrom_append hs ht ho hr⟩
  rw [List.append_assoc, List.cons_append, skipBlanks_append hb hc]

end FieldFormula.Token
