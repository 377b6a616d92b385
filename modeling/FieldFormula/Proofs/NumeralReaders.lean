import FieldFormula.Expr
import FieldFormula.Proofs.Numerals
import FieldFormula.Proofs.TokenEnds
import FieldFormula.Record
import FieldFormula.Value

/-!
The readers of numerals: the lexer of formulas, the reader of a whole text, and the
reader of the number that a text begins with. They differ in what else they take, but a
numeral means the same number to all of them.
-/
namespace FieldFormula

namespace Text
variable {cs : List Char}

theorem skipBlanks_of_head (h : ∀ c ∈ cs.head?, isBlank c = false) : skipBlanks cs = cs := by
  cases cs with
  | nil => rfl
  | cons c r => simp [skipBlanks, h c rfl]

theorem trim_of_forall (h : ∀ c ∈ cs, isBlank c = false) : trim cs = cs := by
  have hf : skipBlanks cs = cs := skipBlanks_of_head fun c hc => h c (List.mem_of_mem_head? hc)
  have hb : skipBlanks cs.reverse = cs.reverse :=
    skipBlanks_of_head fun c hc => h c (List.mem_reverse.1 (List.mem_of_mem_head? hc))
  rw [trim, hf, hb, List.reverse_reverse]

theorem blankRanges_apart : ∀ r ∈ blankRanges, ∀ z ∈ digitZeros, r.2 < z ∨ z + 10 ≤ r.1 := by decide

theorem isDecimalDigit_of_isBlank {c : Char} (h : isBlank c = true) : isDecimalDigit c = false := by
  obtain ⟨r, hr, hc⟩ := List.any_eq_true.1 h
  refine List.any_eq_false.2 fun z hz hd => ?_
  have hapart := blankRanges_apart r hr z hz
  simp only [Bool.and_eq_true, decide_eq_true_eq] at hc hd
  omega

theorem exists_trim (cs : List Char) : ∃ b b', cs = b ++ (trim cs ++ b') ∧
    (∀ c ∈ b, isBlank c = true) ∧ ∀ c ∈ b', isBlank c = true := by
  have hb : ∀ v : List Char, ∀ c ∈ v.takeWhile isBlank, isBlank c = true := fun v =>
    List.all_eq_true.1 List.all_takeWhile
  have hs := List.takeWhile_append_dropWhile (p := isBlank) (l := (skipBlanks cs).reverse)
  refine ⟨cs.takeWhile isBlank, ((skipBlanks cs).reverse.takeWhile isBlank).reverse, ?_, hb cs, ?_⟩
  · rw [trim, ← List.reverse_append]
    change cs = _ ++ List.reverse (List.takeWhile isBlank _ ++ List.dropWhile isBlank _)
    rw [hs, List.reverse_reverse]
    exact List.takeWhile_append_dropWhile.symm
  · exact fun c hc => hb _ c (List.mem_reverse.1 hc)

end Text

namespace Numeral
variable {n : Numeral} {cs : List Char}

theorem Exponent.mem {negative : Bool} {x e : List Char} (h : Exponent negative x e) :
    ∀ c ∈ e, c ∈ x ∨ c ∈ joints := by
  have mark : ∀ m, isMark m = true → m ∈ joints := by
    intro m hm
    rcases isMark_cases hm with rfl | rfl <;> decide
  cases h with
  | none => simp
  | unsigned hm =>
    intro c hc
    cases hc with
    | head => exact Or.inr (mark _ hm)
    | tail _ hc => exact Or.inl hc
  | signed negative hm =>
    intro c hc
    cases hc with
    | head => exact Or.inr (mark _ hm)
    | tail _ hc =>
      cases hc with
      | head => exact Or.inr (by cases negative <;> decide)
      | tail _ hc => exact Or.inl hc

theorem Spells.mem {digit : Char → Bool} (h : Spells digit n cs) :
    ∀ c ∈ cs, digit c = true ∨ c ∈ joints := by
  cases h with
  | intro hw hf hx hm he =>
    intro c hc
    cases List.mem_append.1 hc with
    | inr hc =>
      cases he.mem c hc with
      | inl hc => exact Or.inl (hx c hc)
      | inr hc => exact Or.inr hc
    | inl hc =>
      cases hm with
      | whole => exact Or.inl (hw c hc)
      | pointed =>
        rw [List.mem_append, List.mem_cons] at hc
        rcases hc with hc | rfl | hc
        · exact Or.inl (hw c hc)
        · exact Or.inr (by decide)
        · exact Or.inl (hf c hc)

theorem Spells.mono {p q : Char → Bool} (h : Spells p n cs) (hpq : ∀ c, p c = true → q c = true) :
    Spells q n cs := by
  cases h with
  | intro hw hf hx hm he =>
    exact .intro (fun c hc => hpq c (hw c hc)) (fun c hc => hpq c (hf c hc))
      (fun c hc => hpq c (hx c hc)) hm he

theorem Spells.isAscii (h : Spells Char.isDigit n cs) : n.isAscii = true := by
  cases h with
  | intro hw hf hx => simpa [Numeral.isAscii, or_imp, forall_and] using ⟨hw, hf, hx⟩

theorem Spells.startsNumber (h : Spells Char.isDigit n cs) : Token.startsNumber cs = true := by
  have digit :
      ∀ {d : Char} (r : List Char), d.isDigit = true → Token.startsNumber (d :: r) = true := by
    intro d r hd
    have hp : d ≠ '.' := by
      rintro rfl
      cases hd
    rw [Token.startsNumber_cons hp, hd]
  cases h with
  | @intro w f x m e negative hw hf hx hm he =>
    cases hm with
    | whole hne =>
      obtain ⟨d, w, rfl⟩ := List.exists_cons_of_ne_nil hne
      exact digit _ (hw d List.mem_cons_self)
    | pointed hne =>
      cases w with
      | cons d w => exact digit _ (hw d List.mem_cons_self)
      | nil =>
        obtain ⟨d, f, rfl⟩ := List.exists_cons_of_ne_nil (hne.resolve_left (· rfl))
        exact hf d List.mem_cons_self

end Numeral

namespace Token
open Numeral
variable {n : Numeral} {c : Char} {cs r : List Char}

theorem head_of_startsNumber (h : startsNumber (c :: r) = true) : c = '.' ∨ c.isDigit = true := by
  by_cases hc : c = '.'
  · exact Or.inl hc
  · rw [startsNumber_cons hc] at h
    exact Or.inr h

theorem ne_of_startsNumber (h : startsNumber (c :: r) = true) {d : Char} (hp : d ≠ '.')
    (hd : d.isDigit = false) : c ≠ d := by
  rintro rfl
  rcases head_of_startsNumber h with hc | hc
  · exact hp hc
  · rw [hd] at hc
    cases hc

theorem isBlank_of_startsNumber (h : startsNumber (c :: r) = true) : Text.isBlank c = false := by
  cases head_of_startsNumber h with
  | inl hc => rw [hc]; rfl
  | inr hc => exact isBlank_of_isDigit hc

theorem scanFrom_of_startsNumber (h : startsNumber (c :: r) = true) :
    scanFrom c r = scanNumber (c :: r) := by
  have hall : (markChars.all fun d => d ≠ '.' && !d.isDigit) = true := by decide
  have hmark : ∀ d ∈ markChars, d ≠ '.' ∧ d.isDigit = false := by simpa using hall
  have hm : c ∉ markChars := fun hc => ne_of_startsNumber h (hmark c hc).1 (hmark c hc).2 rfl
  have hq : c ≠ '"' := ne_of_startsNumber h (by decide) rfl
  have hq' : c ≠ '\'' := ne_of_startsNumber h (by decide) rfl
  rw [scanFrom_of_notMem hm]
  simp [hq, hq', h]

theorem exponentRun_of_exponent {negative : Bool} {x e : List Char} (h : Exponent negative x e)
    (hx : ∀ c ∈ x, c.isDigit = true) : exponentRun e = e.length := by
  have ht := (takeWhile_append_of_head hx (r := []) nofun).1
  rw [List.append_nil] at ht
  cases h with
  | none => rfl
  | unsigned hm hne =>
    have head : ∀ d : Char, d.isDigit = false → x.head? ≠ some d := by
      intro d hd hh
      simp [hx d (List.mem_of_mem_head? hh)] at hd
    rw [exponentRun_unsigned hm (head '+' rfl) (head '-' rfl), ht, List.length_cons, Nat.add_comm]
  | signed negative hm hne =>
    rw [exponentRun_signed hm (by cases negative <;> simp), ht, List.length_cons, List.length_cons]
    omega

theorem numberRun_of_spells (h : Spells Char.isDigit n cs) : numberRun cs = cs.length := by
  cases h with
  | @intro w f x m e negative hw hf hx hm he =>
    have hexp := exponentRun_of_exponent he hx
    have hhead := he.head not_mem_joints_of_isDigit (ends_nil _)
    rw [List.append_nil] at hhead
    have digits : ∀ v, (∀ c ∈ v, c.isDigit = true) → (v ++ e).takeWhile Char.isDigit = v :=
      fun v hv =>
      (takeWhile_append_of_head hv fun c hc => (hhead c hc).1).1
    cases hm with
    | whole hne =>
      have hfr : fractionRun e = 0 := fractionRun_of_head fun hc => (hhead _ hc).2 rfl
      simp [numberRun, digits w hw, hfr, hexp]
    | pointed hne =>
      have hp : (w ++ '.' :: (f ++ e)).takeWhile Char.isDigit = w :=
        (takeWhile_append_of_head hw (by simp)).1
      have hl : w.length + (1 + f.length) = (w ++ '.' :: f).length := by simp [Nat.add_comm]
      have hd : (w ++ '.' :: (f ++ e)).drop (w.length + (1 + f.length)) = e := by
        rw [hl, ← List.cons_append, ← List.append_assoc, List.drop_left]
      rw [List.append_assoc, List.cons_append]
      simp [numberRun, hp, fractionRun, digits f hf, hd, hexp]
      omega

theorem scanNumber_of_spells (h : Spells Char.isDigit n cs) :
    scanNumber cs = (number (n.value.toBinary64 false), []) := by
  rw [scanNumber, numberRun_of_spells h, List.take_length, List.drop_length,
    ofText?_eq_some_iff.2 h]

theorem scan_of_spells (h : Spells Char.isDigit n cs) :
    scan cs = [number (n.value.toBinary64 false)] := by
  have hs := h.startsNumber
  cases cs with
  | nil => cases hs
  | cons c r =>
    have hb : Text.skipBlanks (c :: r) = c :: r :=
      Text.skipBlanks_of_head (by simpa using isBlank_of_startsNumber hs)
    have hn : next? (c :: r) = some (number (n.value.toBinary64 false), []) :=
      next?_eq_some.2 ⟨c, r, hb, (scanFrom_of_startsNumber hs).trans (scanNumber_of_spells h)⟩
    rw [scan_of_next?_some hn, scan_of_next?_none rfl]

end Token

namespace Expr

theorem ofTokens_number (x : Binary64) : ofTokens [.number x] = .ok (.number x) := by
  cbv

theorem parse_of_spells {n : Numeral} {cs : List Char} (h : Numeral.Spells Char.isDigit n cs) :
    parse (String.ofList cs) = .ok (.number (n.value.toBinary64 false)) := by
  rw [parse, String.toList_ofList, Token.scan_of_spells h, ofTokens_number]

end Expr

namespace Numeral
variable {n : Numeral} {cs b b' : List Char} {x : Binary64}

theorem isBlank_of_mem_joints : ∀ c ∈ joints, Text.isBlank c = false := by
  have h : (joints.all fun c => !Text.isBlank c) = true := by decide
  simpa using h

theorem isDecimalDigit_of_mem_joints : ∀ c ∈ joints, Text.isDecimalDigit c = false := by
  have h : (joints.all fun c => !Text.isDecimalDigit c) = true := by decide
  simpa using h

theorem Spells.isBlank (h : Spells Char.isDigit n cs) : ∀ c ∈ cs, Text.isBlank c = false := by
  intro c hc
  cases h.mem c hc with
  | inl hd => exact Token.isBlank_of_isDigit hd
  | inr hj => exact isBlank_of_mem_joints c hj

theorem number?_eq_some_iff :
    number? cs = some x ↔ ∃ n, Spells Char.isDigit n (splitSign cs).2 ∧
    n.value.toBinary64 (splitSign cs).1 = x := by
  simp [number?, Option.map_eq_some_iff, ofText?_eq_some_iff]

theorem splitSign_of_spells (h : Spells Char.isDigit n cs) : splitSign cs = (false, cs) := by
  have hs := h.startsNumber
  cases cs with
  | nil => cases hs
  | cons c r =>
    have hp : c ≠ '+' := Token.ne_of_startsNumber hs (by decide) rfl
    have hn : c ≠ '-' := Token.ne_of_startsNumber hs (by decide) rfl
    exact splitSign_cons hp hn r

theorem number?_of_spells (h : Spells Char.isDigit n cs) :
    number? cs = some (n.value.toBinary64 false) := by
  have hs := splitSign_of_spells h
  refine number?_eq_some_iff.2 ⟨n, ?_, ?_⟩
  · rwa [hs]
  · rw [hs]

theorem splitSign_append (h : cs ≠ []) (r : List Char) :
    splitSign (cs ++ r) = ((splitSign cs).1, (splitSign cs).2 ++ r) := by
  cases cs with
  | nil => exact absurd rfl h
  | cons c cs =>
    by_cases hp : c = '+'
    · rw [hp]
      rfl
    · by_cases hn : c = '-'
      · rw [hn]
        rfl
      · rw [List.cons_append, splitSign_cons hp hn, splitSign_cons hp hn, List.cons_append]

theorem isBlank_of_number? (h : number? cs = some x) : ∀ c ∈ cs, Text.isBlank c = false := by
  obtain ⟨n, hn, -⟩ := number?_eq_some_iff.1 h
  rcases splitSign_spec cs with hs | ⟨negative, r, rfl, hs⟩
  · rw [hs] at hn
    exact hn.isBlank
  · rw [hs] at hn
    refine List.forall_mem_cons.2 ⟨?_, hn.isBlank⟩
    cases negative <;> rfl

theorem ne_nil_of_number? (h : number? cs = some x) : cs ≠ [] := by
  rintro rfl
  cases h

theorem numberOfText_of_number? (h : number? cs = some x) : numberOfText cs = x := by
  have ne : ∀ v, number? v = none → cs ≠ v := by
    rintro v hv rfl
    rw [hv] at h
    cases h
  have hne : ¬ cs.isEmpty = true := by simpa using ne_nil_of_number? h
  have hi := ne "Infinity".toList (by decide)
  have hp := ne "+Infinity".toList (by decide)
  have hm := ne "-Infinity".toList (by decide)
  rw [numberOfText, Text.trim_of_forall (isBlank_of_number? h)]
  rw [if_neg hne, if_neg (by rw [decide_eq_false hi, decide_eq_false hp]; exact Bool.false_ne_true),
    if_neg hm, h]
  rfl

theorem isPrefixOf_infinity {r : List Char} (h : Token.startsNumber r = true) (b : List Char) :
    "Infinity".toList.isPrefixOf (r ++ b) = false := by
  cases r with
  | nil => cases h
  | cons c r =>
    have hc : c ≠ 'I' := Token.ne_of_startsNumber h (by decide) rfl
    simp [List.isPrefixOf, Ne.symm hc]

theorem ends_of_isBlank (h : ∀ c ∈ b, Text.isBlank c = true) : Ends Text.isDecimalDigit b := by
  intro c hc
  have hb := h c (List.mem_of_mem_head? hc)
  refine ⟨Text.isDecimalDigit_of_isBlank hb, ?_, Token.not_isMark_of_isBlank hb⟩
  rintro rfl
  cases hb

theorem skipBlanks_around (hne : cs ≠ []) (h : ∀ c ∈ cs, Text.isBlank c = false)
    (hb : ∀ c ∈ b, Text.isBlank c = true) (r : List Char) :
    Text.skipBlanks (b ++ (cs ++ r)) = cs ++ r := by
  obtain ⟨c, cs, rfl⟩ := List.exists_cons_of_ne_nil hne
  exact Token.skipBlanks_append hb (h c List.mem_cons_self) (cs ++ r)

theorem leadingNumber?_append (h : number? cs = some x) (hb : ∀ c ∈ b, Text.isBlank c = true)
    (hb' : ∀ c ∈ b', Text.isBlank c = true) : leadingNumber? (b ++ (cs ++ b')) = some x := by
  obtain ⟨n, hn, hx⟩ := number?_eq_some_iff.1 h
  have hinf := isPrefixOf_infinity hn.startsNumber b'
  have hn' := hn.mono fun c => Text.isDecimalDigit_of_isDigit
  have hscan := scan_append hn' isDecimalDigit_of_mem_joints (ends_of_isBlank hb')
  rw [leadingNumber?, skipBlanks_around (ne_nil_of_number? h) (isBlank_of_number? h) hb,
    splitSign_append (ne_nil_of_number? h)]
  dsimp only
  rw [if_neg (by rw [hinf]; exact Bool.false_ne_true), hscan]
  dsimp only
  rw [if_pos hn.isAscii, hx]

theorem leadingNumber?_infinity {negative : Bool}
    (h : splitSign cs = (negative, "Infinity".toList))
    (hblank : (cs.all fun c => !Text.isBlank c) = true) (hb : ∀ c ∈ b, Text.isBlank c = true)
    (b' : List Char) : leadingNumber? (b ++ (cs ++ b')) = some (.infinity negative) := by
  have hne : cs ≠ [] := by
    rintro rfl
    cases h
  rw [leadingNumber?, skipBlanks_around hne (by simpa using hblank) hb, splitSign_append hne, h]
  exact if_pos (List.isPrefixOf_iff_prefix.2 (List.prefix_append ..))

theorem leadingNumber?_of_numberOfText {s : List Char} (hs : ∃ c ∈ s, Text.isBlank c = false)
    (hn : numberOfText s ≠ .nan) : leadingNumber? s = some (numberOfText s) := by
  obtain ⟨b, b', hsplit, hb, hb'⟩ := Text.exists_trim s
  have hne : ¬ (Text.trim s).isEmpty = true := by
    intro he
    obtain ⟨c, hc, hcb⟩ := hs
    rw [hsplit, List.isEmpty_iff.1 he, List.nil_append] at hc
    cases List.mem_append.1 hc with
    | inl hc => exact Bool.false_ne_true (hcb.symm.trans (hb c hc))
    | inr hc => exact Bool.false_ne_true (hcb.symm.trans (hb' c hc))
  have around : ∀ {t v}, Text.trim s = t → leadingNumber? (b ++ (t ++ b')) = some v →
      leadingNumber? s = some v := by
    rintro t v rfl h
    rwa [← hsplit] at h
  unfold numberOfText at hn ⊢
  simp only [if_neg hne] at hn ⊢
  split at hn
  · next h =>
    rw [if_pos h]
    rw [Bool.or_eq_true, decide_eq_true_eq, decide_eq_true_eq] at h
    cases h with
    | inl h => exact around h (leadingNumber?_infinity rfl (by decide) hb b')
    | inr h => exact around h (leadingNumber?_infinity rfl (by decide) hb b')
  · next h =>
    rw [if_neg h]
    split at hn
    · next h' =>
      rw [if_pos h']
      exact around h' (leadingNumber?_infinity rfl (by decide) hb b')
    · next h' =>
      rw [if_neg h']
      cases hx : number? (Text.trim s) with
      | none =>
        rw [hx] at hn
        exact absurd rfl hn
      | some x => exact around rfl (leadingNumber?_append hx hb hb')

/-- A numeral in ASCII digits is one number to all its readers: as a formula, as the beginning of a
text, and as a whole text. And a text that stands for a number as a whole, whatever its sign and the
blanks around it, begins with that number. -/
theorem readers_agree :
    (∀ n w, Spells Char.isDigit n w →
      Expr.parse (String.ofList w) = .ok (.number (n.value.toBinary64 false)) ∧
      leadingNumber? w = some (n.value.toBinary64 false) ∧
      (Value.text (String.ofList w)).toNumber = n.value.toBinary64 false) ∧
    (∀ s : String, (∃ c ∈ s.toList, Text.isBlank c = false) → (Value.text s).toNumber ≠ .nan →
      leadingNumber? s.toList = some (Value.text s).toNumber) := by
  refine ⟨fun n w hw => ⟨Expr.parse_of_spells hw, ?_, ?_⟩,
    fun s hs hn => leadingNumber?_of_numberOfText hs hn⟩
  · have h :=
      leadingNumber?_append (number?_of_spells hw) (List.forall_mem_nil _) (List.forall_mem_nil _)
    rwa [List.append_nil, List.nil_append] at h
  · rw [Value.toNumber, String.toList_ofList]
    exact numberOfText_of_number? (number?_of_spells hw)

theorem readers_agree_of_point_without_digits :
    Spells Char.isDigit ⟨['1'], [], false, ['5']⟩ "1.e5".toList ∧
      Expr.parse "1.e5" = .ok (.number (.ofNat 100000)) ∧
      leadingNumber? "1.e5".toList = some (.ofNat 100000) ∧
      (Value.text "1.e5").toNumber = .ofNat 100000 ∧
      (Value.text "\n-.5E+1\u3000").toNumber = .ofInt (-5) ∧
      leadingNumber? "\n-.5E+1\u3000".toList = some (.ofInt (-5)) := by
  have hw : Spells Char.isDigit ⟨['1'], [], false, ['5']⟩ "1.e5".toList :=
    .intro (w := ['1']) (f := []) (x := ['5']) (m := ['1', '.']) (e := ['e', '5'])
      (List.forall_mem_singleton.2 rfl) (List.forall_mem_nil _) (List.forall_mem_singleton.2 rfl)
      (.pointed (Or.inl (by decide))) (.unsigned rfl (by decide))
  have hv : (⟨['1'], [], false, ['5']⟩ : Numeral).value.toBinary64 false = .ofNat 100000 := by
    decide +kernel
  have hs : (Value.text "\n-.5E+1\u3000").toNumber = .ofInt (-5) := by decide +kernel
  obtain ⟨numerals, texts⟩ := readers_agree
  obtain ⟨hp, hl, ht⟩ := numerals _ _ hw
  rw [hv] at hp hl ht
  have hb : ∃ c ∈ "\n-.5E+1\u3000".toList, Text.isBlank c = false := ⟨'5', by decide, by decide⟩
  have hn := texts "\n-.5E+1\u3000" hb (by rw [hs]; decide +kernel)
  rw [hs] at hn
  exact ⟨hw, hp, hl, ht, hs, hn⟩

end Numeral
end FieldFormula
