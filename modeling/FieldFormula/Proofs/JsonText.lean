import FieldFormula.Json.Reader
import FieldFormula.Proofs.Digits

/-!
What is written as JSON is read back: quoted texts, numbers, and objects of values
that have no parts.
-/
namespace FieldFormula.Json
open Lexeme Form

/-- How a character is found again in a quoted text: control characters without a
letter of their own as units. -/
def piece (c : Char) : Piece :=
  if escapeLetter? c = none ∧ c.toNat < 32 then .unit c.toNat else .char c

def pieces (s : String) : List Piece := s.toList.map piece

theorem escaped?_escapeLetter? {c l : Char} (h : escapeLetter? c = some l) :
    escaped? l = some c ∧ l ≠ 'u' := by
  unfold escapeLetter? at h
  split at h <;> cases h <;> exact ⟨rfl, by decide⟩

theorem hexDigit?_digitChar {n : Nat} (h : n < 16) : hexDigit? (Nat.digitChar n) = some n := by
  revert n
  decide

theorem closeText_letter {l c : Char} (h : escaped? l = some c) (hu : l ≠ 'u') (r : List Char) :
    closeText ('\\' :: l :: r) = (closeText r).map fun p => (.char c :: p.1, p.2) := by
  rw [closeText.eq_def]
  split
  · simp_all
  · simp_all
  · next l' r' _ he =>
    cases he
    rw [h]
    cases closeText r <;> rfl
  · next c' r' _ _ hb he =>
    cases he
    exact absurd rfl (hb l r rfl)
  · simp_all

theorem closeText_unit {n : Nat} {a b c d : Char} (h : hexUnit? a b c d = some n) (r : List Char) :
    closeText ('\\' :: 'u' :: a :: b :: c :: d :: r) = (closeText r).map fun p =>
    (.unit n :: p.1, p.2) := by
  rw [closeText, h]
  cases closeText r <;> rfl

theorem closeText_plain {c : Char} (hq : c ≠ '"') (hb : c ≠ '\\') (hc : 32 ≤ c.toNat)
    (r : List Char) : closeText (c :: r) = (closeText r).map fun p => (.char c :: p.1, p.2) := by
  rw [closeText.eq_def]
  split
  · simp_all
  · simp_all
  · simp_all
  · next c' r' _ _ _ he =>
    cases he
    rw [if_neg (by omega)]
    cases closeText r <;> rfl
  · simp_all

theorem closeText_escape (c : Char) (r : List Char) :
    closeText (escape c ++ r) = (closeText r).map fun p => (piece c :: p.1, p.2) := by
  unfold escape
  cases hl : escapeLetter? c with
  | some l =>
    obtain ⟨he, hu⟩ := escaped?_escapeLetter? hl
    have hp : piece c = .char c := by simp [piece, hl]
    rw [hp]
    exact closeText_letter he hu r
  | none =>
    by_cases hc : c.toNat < 32
    · have hp : piece c = .unit c.toNat := if_pos ⟨hl, hc⟩
      have hu : hexUnit? '0' '0' (Nat.digitChar (c.toNat / 16)) (Nat.digitChar (c.toNat % 16)) =
          some c.toNat := by
        rw [hexUnit?, hexDigit?_digitChar (by omega), hexDigit?_digitChar (by omega)]
        change some (((0 * 16 + 0) * 16 + c.toNat / 16) * 16 + c.toNat % 16) = _
        congr 1
        omega
      rw [hp, if_pos hc]
      exact closeText_unit hu r
    · have hp : piece c = .char c := if_neg fun h => hc h.2
      have hq : c ≠ '"' := by
        intro h
        rw [h] at hl
        cases hl
      have hb : c ≠ '\\' := by
        intro h
        rw [h] at hl
        cases hl
      rw [hp, if_neg hc]
      exact closeText_plain hq hb (Nat.le_of_not_lt hc) r

theorem closeText_flatMap_escape (s rest : List Char) :
    closeText (s.flatMap escape ++ '"' :: rest) = some (s.map piece, rest) := by
  induction s with
  | nil => rw [List.flatMap_nil, List.nil_append, closeText, List.map_nil]
  | cons c s ih =>
    rw [List.flatMap_cons, List.append_assoc, closeText_escape, ih, List.map_cons, Option.map_some]

theorem chars?_unit {n : Nat} (h : n < 0xD800) (ps : List Piece) :
    chars? (.unit n :: ps) = (chars? ps).map (Char.ofNat n :: ·) := by
  have hn : (0xD800 ≤ n && n < 0xDC00) = false := by simp; omega
  have hn' : (0xDC00 ≤ n && n < 0xE000) = false := by simp; omega
  have hn'' : (0xD800 ≤ n && n < 0xE000) = false := by simp; omega
  rw [chars?.eq_def]
  split
  · simp_all
  · simp_all
  · next n' m r he =>
    cases he
    rw [hn, hn']
    rfl
  · next n' r _ he =>
    cases he
    rw [hn'']
    rfl

theorem chars?_map_piece (s : List Char) : chars? (s.map piece) = some s := by
  induction s with
  | nil => rfl
  | cons c s ih =>
    rw [List.map_cons]
    by_cases hc : escapeLetter? c = none ∧ c.toNat < 32
    · rw [show piece c = .unit c.toNat from if_pos hc, chars?_unit (by omega), ih, Option.map_some,
        Char.ofNat_toNat]
    · rw [show piece c = .char c from if_neg hc, chars?, ih, Option.map_some]

theorem string?_pieces (s : String) : string? (pieces s) = some s := by
  rw [string?, pieces, chars?_map_piece, Option.map_some, String.ofList_toList]

/- Numbers. What follows one may not go on as a number does. -/

def Ends (rest : List Char) : Prop := ∀ c ∈ rest.head?, c = ',' ∨ c = '\x7d'

theorem Ends.not_isDigit {rest : List Char} (h : Ends rest) :
    ∀ c ∈ rest.head?, c.isDigit = false := by
  intro c hc
  rcases h c hc with rfl | rfl <;> rfl

theorem Ends.not_isMark {rest : List Char} (h : Ends rest) :
    ∀ c ∈ rest.head?, Numeral.isMark c = false := by
  intro c hc
  rcases h c hc with rfl | rfl <;> rfl

section
variable {whole ds r rest : List Char} {e : Bool × List Char} {negative : Bool}

theorem fraction?_point (hne : ds ≠ []) (hd : ∀ c ∈ ds, c.isDigit = true)
    (hr : ∀ c ∈ r.head?, c.isDigit = false) : fraction? ('.' :: (ds ++ r)) = some (ds, r) := by
  obtain ⟨ht, hd⟩ := takeWhile_append_of_head hd hr
  rw [fraction?, ht, hd]
  simp [hne]

theorem fraction?_other (h : r.head? ≠ some '.') : fraction? r = some ([], r) := by
  rw [fraction?.eq_def]
  split
  · simp at h
  · rfl

theorem exponent?_signed (x : Int) (hr : ∀ c ∈ rest.head?, c.isDigit = false) :
    exponent? ('e' :: (Decimal.signed x ++ rest)) =
      some ((decide (x < 0), Nat.toDigits 10 x.natAbs), rest) := by
  have hs : Numeral.splitSign (Decimal.signed x ++ rest) =
      (decide (x < 0), Nat.toDigits 10 x.natAbs ++ rest) := by
    by_cases hx : x < 0 <;> simp [Decimal.signed, hx, Numeral.splitSign]
  obtain ⟨ht, hd⟩ := takeWhile_append_of_head (isDigit_of_mem_toDigits x.natAbs) hr
  rw [exponent?, hs]
  simp [Numeral.isMark, ht, hd]

theorem exponent?_other (h : ∀ c ∈ r.head?, Numeral.isMark c = false) :
    exponent? r = some ((false, []), r) := by
  cases r with
  | nil => rfl
  | cons c r => simp [exponent?, h c rfl]

theorem figure?_append (hw : ∀ c ∈ whole, c.isDigit = true) (hne : whole ≠ [])
    (hz : whole.head? = some '0' → whole.length = 1) (hr : ∀ c ∈ r.head?, c.isDigit = false)
    {r' : List Char} (hf : fraction? r = some (ds, r')) (he : exponent? r' = some (e, rest)) :
    figure? negative (whole ++ r) =
      some (⟨negative, ⟨whole, ds, e.1, e.2⟩, ds.isEmpty && e.2.isEmpty⟩, rest) := by
  obtain ⟨ht, hd⟩ := takeWhile_append_of_head hw hr
  have hguard : ¬ (whole.isEmpty ||
      (decide (whole.head? = some '0') && decide (whole.length ≠ 1))) = true := by
    simpa [hne] using hz
  unfold figure?
  simp only [ht, hd, hf, he, Option.bind_eq_bind, Option.bind_some]
  rw [if_neg hguard]
  rfl

end

def ReadsFigure (negative : Bool) (cs : List Char) : Prop :=
  ∃ f : Figure, ∀ rest, Ends rest → figure? negative (cs ++ rest) = some (f, rest)

section
variable {whole ds : List Char}

theorem readsFigure_pointed (hw : ∀ c ∈ whole, c.isDigit = true) (hne : whole ≠ [])
    (hz : whole.head? = some '0' → whole.length = 1) (hd : ∀ c ∈ ds, c.isDigit = true)
    (hds : ds ≠ []) (negative : Bool) : ReadsFigure negative (whole ++ '.' :: ds) := by
  refine ⟨⟨negative, ⟨whole, ds, false, []⟩, ds.isEmpty && true⟩, fun rest hr => ?_⟩
  have hf := fraction?_point hds hd hr.not_isDigit
  have hp : ∀ c ∈ ('.' :: (ds ++ rest)).head?, c.isDigit = false := by simp
  rw [List.append_assoc]
  exact figure?_append hw hne hz hp hf (exponent?_other hr.not_isMark)

theorem readsFigure_positional (hne : ds ≠ []) (hd : ∀ c ∈ ds, c.isDigit = true)
    (hz : ds.head? ≠ some '0') (p : Int) (negative : Bool) :
    ReadsFigure negative (Decimal.positional ds p ++ if ds.length ≤ p then ['.', '0'] else []) := by
  have hlen : 0 < ds.length := List.length_pos_iff.2 hne
  have hzero : ∀ c ∈ ['0'], c.isDigit = true := List.forall_mem_singleton.2 rfl
  unfold Decimal.positional
  by_cases hp : p ≤ 0
  · have hfr : ∀ c ∈ Decimal.zeros (-p).toNat ++ ds, c.isDigit = true :=
      List.forall_mem_append.2 ⟨isDigit_of_mem_zeros _, hd⟩
    rw [if_pos hp, if_neg (by omega), List.append_nil]
    exact readsFigure_pointed hzero (by simp) (fun _ => rfl) hfr (by simp [hne]) negative
  · rw [if_neg hp]
    by_cases hl : ds.length ≤ p
    · have hw : ∀ c ∈ ds ++ Decimal.zeros (p.toNat - ds.length), c.isDigit = true :=
        List.forall_mem_append.2 ⟨hd, isDigit_of_mem_zeros _⟩
      have hh : (ds ++ Decimal.zeros (p.toNat - ds.length)).head? ≠ some '0' := by
        cases ds with
        | nil => exact absurd rfl hne
        | cons c ds => exact hz
      rw [if_pos hl, if_pos hl]
      exact readsFigure_pointed hw (by simp [hne]) (fun h => absurd h hh) hzero (by simp) negative
    · have hw : ∀ c ∈ ds.take p.toNat, c.isDigit = true :=
        fun c hc => hd c (List.mem_of_mem_take hc)
      have hfr : ∀ c ∈ ds.drop p.toNat, c.isDigit = true :=
        fun c hc => hd c (List.mem_of_mem_drop hc)
      have hh : (ds.take p.toNat).head? ≠ some '0' := by
        rw [List.head?_take]
        split
        · simp
        · exact hz
      rw [if_neg hl, if_neg hl, List.append_nil]
      exact readsFigure_pointed hw (by simp [hne]; omega) (fun h => absurd h hh) hfr
        (by simp; omega) negative

theorem readsFigure_scientific (hne : ds ≠ []) (hd : ∀ c ∈ ds, c.isDigit = true) (x : Int)
    (negative : Bool) : ReadsFigure negative (Decimal.scientific ds x) := by
  cases ds with
  | nil => exact absurd rfl hne
  | cons d r =>
    obtain ⟨hd, hr⟩ := List.forall_mem_cons.1 hd
    have hw : ∀ c ∈ [d], c.isDigit = true := List.forall_mem_singleton.2 hd
    have hmark : ∀ t : List Char, ∀ c ∈ ('e' :: t).head?, c.isDigit = false := by simp
    refine ⟨⟨negative, ⟨[d], r, decide (x < 0), Nat.toDigits 10 x.natAbs⟩,
      r.isEmpty && (Nat.toDigits 10 x.natAbs).isEmpty⟩, fun rest hrest => ?_⟩
    have he := exponent?_signed x hrest.not_isDigit
    cases r with
    | nil =>
      have hf := fraction?_other (r := 'e' :: (Decimal.signed x ++ rest)) (by simp)
      exact figure?_append hw (by simp) (fun _ => rfl) (hmark _) hf he
    | cons d' r =>
      have hf := fraction?_point (List.cons_ne_nil d' r) hr (hmark (Decimal.signed x ++ rest))
      have hp : ∀ t : List Char, ∀ c ∈ ('.' :: t).head?, c.isDigit = false := by simp
      have h : figure? negative _ = _ := figure?_append hw (by simp) (fun _ => rfl) (hp _) hf he
      simpa [Decimal.scientific] using h

theorem readsFigure_magnitude (n : Nat) (negative : Bool) :
    ReadsFigure negative (NumberStyle.json.magnitude n) := by
  unfold NumberStyle.magnitude
  by_cases hn : n = 0
  · rw [if_pos hn]
    have hzero : ∀ c ∈ ['0'], c.isDigit = true := List.forall_mem_singleton.2 rfl
    exact readsFigure_pointed hzero (by simp) (fun _ => rfl) hzero (by simp) negative
  · rw [if_neg hn]
    generalize hd : Decimal.shortest NumberStyle.json.tieUp n = d
    have hc : 0 < d.coefficient := hd ▸ Decimal.coefficient_shortest_pos (Nat.pos_of_ne_zero hn)
    have hdig := isDigit_of_mem_toDigits d.coefficient
    dsimp only
    split
    · have hl : ((Nat.toDigits 10 d.coefficient).length : Int) ≤
          (Nat.toDigits 10 d.coefficient).length + d.exponent ↔
            0 ≤ d.exponent := by omega
      have h := readsFigure_positional Nat.toDigits_ne_nil hdig (head?_toDigits_ne_zero hc)
        ((Nat.toDigits 10 d.coefficient).length + d.exponent) negative
      simp only [hl] at h
      exact h
    · exact readsFigure_scientific Nat.toDigits_ne_nil hdig _ negative

end

/- Lexemes and forms. -/

theorem scan_of_scanFrom? {c : Char} {r rest : List Char} {l : Lexeme} (hs : isSpace c = false)
    (h : scanFrom? c r = some (l, rest)) : scan (c :: r) = (scan rest).map (l :: ·) := by
  rw [scan.eq_def]
  simp only [hs, Bool.false_eq_true, if_false]
  split
  · simp_all
  · next l' rest' h' =>
    cases h.symm.trans h'
    rfl

theorem scanFrom?_of_isDigit {c : Char} (hc : c.isDigit = true) (r : List Char) :
    scanFrom? c r = (figure? false (c :: r)).map fun p => (.number p.1, p.2) := by
  rw [scanFrom?.eq_def]
  split <;> first | rfl | exact absurd hc (by decide)

def Scans (v : Json) (l : Lexeme) : Prop :=
  ∀ rest, Ends rest → scan (v.write ++ rest) = (scan rest).map (l :: ·)

theorem scans_null : Scans .null .null := fun _ _ => scan_of_scanFrom? rfl rfl

theorem scans_boolean (b : Bool) : Scans (.boolean b) (.boolean b) := by
  intro rest _
  cases b <;> exact scan_of_scanFrom? rfl rfl

theorem scan_quote (s : String) (rest : List Char) :
    scan (quote s.toList ++ rest) = (scan rest).map (.text (pieces s) :: ·) := by
  have hq : quote s.toList ++ rest = '"' :: (s.toList.flatMap escape ++ '"' :: rest) := by
    simp [quote]
  rw [hq]
  refine scan_of_scanFrom? rfl ?_
  change (closeText (s.toList.flatMap escape ++ '"' :: rest)).map _ = _
  rw [closeText_flatMap_escape]
  rfl

theorem scans_text (s : String) : Scans (.text s) (.text (pieces s)) :=
  fun rest _ => scan_quote s rest

theorem isDigit_of_figure? {negative : Bool} {cs rest : List Char} {f : Figure}
    (h : figure? negative cs = some (f, rest)) : ∃ c r, cs = c :: r ∧ c.isDigit = true := by
  cases cs with
  | nil => cases h
  | cons c r =>
    refine ⟨c, r, rfl, ?_⟩
    cases hc : c.isDigit with
    | true => rfl
    | false => simp [figure?, hc] at h

theorem isSpace_of_isDigit {c : Char} (h : c.isDigit = true) : isSpace c = false := by
  have hs : ∀ d : Char, d.isDigit = false → decide (c = d) = false := by
    intro d hd
    refine decide_eq_false fun he => ?_
    rw [← he, h] at hd
    cases hd
  unfold isSpace
  rw [hs _ rfl, hs _ rfl, hs _ rfl, hs _ rfl]
  rfl

theorem write_finite (s : Bool) (n : Nat) (h : Fits n) :
    NumberStyle.json.write (.finite s n h) =
      if s then '-' :: NumberStyle.json.magnitude n else NumberStyle.json.magnitude n := by
  have hz : NumberStyle.json.signedZero = true := rfl
  rw [NumberStyle.write, hz, Bool.or_true, Bool.and_true]

theorem exists_scans_number {x : Binary64} (h : x.isFinite = true) :
    ∃ f, Scans (.number (.float x)) (.number f) := by
  cases x with
  | nan => cases h
  | infinity s => cases h
  | finite s n hn =>
    obtain ⟨f, hf⟩ := readsFigure_magnitude n s
    refine ⟨f, fun rest hr => ?_⟩
    have hfr := hf rest hr
    change scan (NumberStyle.json.write (.finite s n hn) ++ rest) = _
    rw [write_finite]
    cases s with
    | true =>
      have hs : scanFrom? '-' (NumberStyle.json.magnitude n ++ rest) = some (.number f, rest) := by
        rw [scanFrom?, hfr, Option.map_some]
      exact scan_of_scanFrom? rfl hs
    | false =>
      obtain ⟨c, r, hcr, hc⟩ := isDigit_of_figure? hfr
      rw [if_neg Bool.false_ne_true, hcr]
      rw [hcr] at hfr
      refine scan_of_scanFrom? (isSpace_of_isDigit hc) ?_
      rw [scanFrom?_of_isDigit hc, hfr, Option.map_some]

def Reads (l : Lexeme) (f : Form) : Prop :=
  ∀ (ls : List Lexeme) (h : ls.length < (l :: ls).length), Form.read (l :: ls) = some ⟨f, ls, h⟩

theorem reads_null : Reads .null .null := fun ls _ => by rw [Form.read]

theorem reads_boolean (b : Bool) : Reads (.boolean b) (.boolean b) := fun ls _ => by rw [Form.read]

theorem reads_text (s : List Piece) : Reads (.text s) (.text s) := fun ls _ => by rw [Form.read]

theorem reads_number (n : Figure) : Reads (.number n) (.number n) := fun ls _ => by rw [Form.read]

/-- A value without parts, written as one lexeme and read from it as one form. -/
structure Part where
  value : Json
  lexeme : Lexeme
  form : Form
  scans : Scans value lexeme
  reads : Reads lexeme form

namespace Part

def null : Part := ⟨.null, .null, .null, scans_null, reads_null⟩

def boolean (b : Bool) : Part :=
  ⟨.boolean b, .boolean b, .boolean b, scans_boolean b, reads_boolean b⟩

def text (s : String) : Part :=
  ⟨.text s, .text (pieces s), .text (pieces s), scans_text s, reads_text (pieces s)⟩

def number (n : JsonNumber) (f : Figure) (h : Scans (.number n) (.number f)) : Part :=
  ⟨.number n, .number f, .number f, h, reads_number f⟩

end Part

def membersTail : List (String × Part) → List Char
  | [] => ['\x7d']
  | (k, v) :: ms => ',' :: (quote k.toList ++ ':' :: (v.value.write ++ membersTail ms))

def lexemesTail : List (String × Part) → List Lexeme
  | [] => [.closeObject]
  | (k, v) :: ms => .comma :: .text (pieces k) :: .colon :: v.lexeme :: lexemesTail ms

theorem ends_membersTail (ms : List (String × Part)) : Ends (membersTail ms) := by
  intro c hc
  cases ms with
  | nil =>
    cases hc
    exact Or.inr rfl
  | cons m ms =>
    cases hc
    exact Or.inl rfl

theorem scan_member (k : String) (v : Part) {r : List Char} (hr : Ends r) :
    scan (quote k.toList ++ ':' :: (v.value.write ++ r)) =
      (scan r).map fun ls => .text (pieces k) :: .colon :: v.lexeme :: ls := by
  rw [scan_quote, scan_of_scanFrom? (c := ':') (l := .colon) rfl rfl, v.scans r hr]
  cases scan r <;> rfl

theorem scan_membersTail (ms : List (String × Part)) :
    scan (membersTail ms) = some (lexemesTail ms) := by
  induction ms with
  | nil =>
    rw [membersTail, scan_of_scanFrom? (c := '\x7d') (l := .closeObject) rfl rfl, scan]
    rfl
  | cons m ms ih =>
    rw [membersTail, scan_of_scanFrom? (c := ',') (l := .comma) rfl rfl,
      scan_member _ _ (ends_membersTail ms), ih]
    rfl

def members (ms : List (String × Part)) : List (String × Json) := ms.map fun m => (m.1, m.2.value)

def forms (ms : List (String × Part)) : List (List Piece × Form) :=
  ms.map fun m => (pieces m.1, m.2.form)

theorem intercalate_members (ms : List (String × Part)) (t : List Char) :
    [','].intercalate (t :: writeMembers (members ms)) ++ ['\x7d'] = t ++ membersTail ms := by
  induction ms generalizing t with
  | nil => simp [members, writeMembers, membersTail]
  | cons m ms ih =>
    obtain ⟨k, v⟩ := m
    change [','].intercalate (t :: (quote k.toList ++ ':' :: v.value.write) ::
        writeMembers (members ms)) ++ _ = _
    rw [List.intercalate_cons_cons, List.append_assoc, List.append_assoc, ih]
    simp [membersTail]

theorem write_object_cons (k : String) (v : Part) (ms : List (String × Part)) :
    (Json.object (members ((k, v) :: ms))).write =
      '\x7b' :: (quote k.toList ++ ':' :: (v.value.write ++ membersTail ms)) := by
  have h := intercalate_members ms (quote k.toList ++ ':' :: v.value.write)
  rw [write, enclose]
  change '\x7b' :: ([','].intercalate ((quote k.toList ++ ':' :: v.value.write) ::
      writeMembers (members ms)) ++ _) = _
  rw [h, List.append_assoc, List.cons_append]

theorem exists_readMembers (k : String) (v : Part) (ms : List (String × Part)) :
    ∃ p, readMembers (.text (pieces k) :: .colon :: v.lexeme :: lexemesTail ms) = some p ∧
      p.value = forms ((k, v) :: ms) ∧ p.rest = [] := by
  induction ms generalizing k v with
  | nil =>
    rw [readMembers, v.reads _ (Nat.lt_succ_self _)]
    exact ⟨_, rfl, rfl, rfl⟩
  | cons m ms ih =>
    obtain ⟨k', v'⟩ := m
    obtain ⟨q, hq, hv, hr⟩ := ih k' v'
    rw [readMembers, v.reads _ (Nat.lt_succ_self _)]
    have hlt : q.rest.length <
        (.text (pieces k) :: .colon :: v.lexeme :: lexemesTail ((k', v') :: ms)).length := by
      rw [hr]
      exact Nat.succ_pos _
    refine ⟨⟨(pieces k, v.form) :: q.value, q.rest, hlt⟩, ?_, ?_, hr⟩
    · change (readMembers (.text (pieces k') :: .colon :: v'.lexeme :: lexemesTail ms) >>= _) = _
      rw [hq]
      rfl
    · exact congrArg ((pieces k, v.form) :: ·) hv

theorem ofText?_write_object (k : String) (v : Part) (ms : List (String × Part)) :
    Form.ofText? (Json.object (members ((k, v) :: ms))).write =
      some (.object (forms ((k, v) :: ms))) := by
  obtain ⟨p, hp, hv, hr⟩ := exists_readMembers k v ms
  have hscan : scan (Json.object (members ((k, v) :: ms))).write =
      some (.openObject :: .text (pieces k) :: .colon :: v.lexeme :: lexemesTail ms) := by
    rw [write_object_cons, scan_of_scanFrom? (c := '\x7b') (l := .openObject) rfl rfl,
      scan_member _ _ (ends_membersTail ms), scan_membersTail]
    rfl
  rw [Form.ofText?, hscan]
  change (Form.read _ >>= _) = _
  rw [Form.read, hp]
  · change (if p.rest.isEmpty = true then some (Form.object p.value) else none) = _
    rw [hr, hv]
    rfl
  · intro ls h
    cases h

end FieldFormula.Json
