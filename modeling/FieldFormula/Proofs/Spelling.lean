import FieldFormula.Proofs.BlankInsertion
import FieldFormula.Proofs.CallNames
import FieldFormula.Proofs.NumberText

/-!
Tokens written down with blanks between them. The lexer finds these tokens in the text, whatever
stands in their texts and whichever of them are neighbours.
-/
namespace FieldFormula

namespace Token
variable {next : Option Token} {t : Token} {ts : List Token} {c quote : Char}
    {cs name r w : List Char}

def namesTruth (name : List Char) : Bool :=
  sameLetters name "true".toList || sameLetters name "false".toList

/-- The tokens that a text can have in front of `next`, or at its end. -/
def Writable (next : Option Token) : Token → Prop
  | number n => n.isFinite = true ∧ (Binary64.zero false).le n = true
  | boolean _ => next ≠ some openParen
  | word name => isName name.toList = true ∧ (namesTruth name.toList = true → next = some openParen)
  | invalid _ => False
  | _ => True

def AllWritable : List Token → Prop
  | [] => True
  | t :: ts => Writable ts.head? t ∧ AllWritable ts

def marks : List (Token × Char × List Char) :=
  [(plus, '+', []), (minus, '-', []), (star, '*', []), (slash, '/', []), (caret, '^', []),
   (percent, '%', []), (bang, '!', []), (andAnd, '&', ['&']), (orOr, '|', ['|']),
   (equalEqual, '=', ['=']), (notEqual, '!', ['=']), (notEqual, '<', ['>']), (less, '<', []),
   (lessEqual, '<', ['=']), (greater, '>', []), (greaterEqual, '>', ['=']), (comma, ',', []),
   (openParen, '(', []), (closeParen, ')', [])]

def escape (quote c : Char) : List Char := if c = quote ∨ c = '\\' then ['\\', c] else [c]

def quoted (quote : Char) (s : List Char) : List Char :=
  quote :: (s.flatMap (escape quote) ++ [quote])

inductive Spelling : Token → List Char → Prop
  | number (n : Binary64) : Spelling (number n) n.text
  | text (s : String) {quote : Char} : quote = '"' ∨ quote = '\'' →
      Spelling (text s) (quoted quote s.toList)
  | boolean (b : Bool) {name : List Char} :
      sameLetters (if b then "true" else "false").toList name = true → Spelling (boolean b) name
  | word (name : String) : Spelling (word name) name.toList
  | mark {t : Token} {c : Char} {w : List Char} : (t, c, w) ∈ marks → Spelling t (c :: w)

/-- The text holds the tokens in their order, with at least one blank between any two. -/
inductive Spelled : List Token → List Char → Prop
  | nil {b : List Char} : (∀ c ∈ b, Text.isBlank c = true) → Spelled [] b
  | cons {t : Token} {ts : List Token} {b cs r : List Char} :
      (∀ c ∈ b, Text.isBlank c = true) → Spelling t cs → (∀ c ∈ r.head?, Text.isBlank c = true) →
      Spelled ts r → Spelled (t :: ts) (b ++ (cs ++ r))

theorem exists_mark (h : t.isMark = true) : ∃ c w, (t, c, w) ∈ marks := by
  cases t with
  | number | text | boolean | word | invalid => cases h
  | notEqual => exact ⟨'!', ['='], by simp [marks]⟩
  | _ => simp [marks]

theorem Writable.exists_spelling (h : Writable next t) : ∃ cs, Spelling t cs := by
  by_cases hm : t.isMark = true
  · obtain ⟨c, w, hmark⟩ := exists_mark hm
    exact ⟨_, .mark hmark⟩
  · cases t with
    | number n => exact ⟨_, .number n⟩
    | text s => exact ⟨_, .text s (Or.inl rfl)⟩
    | boolean b => exact ⟨_, .boolean b (decide_eq_true rfl)⟩
    | word name => exact ⟨_, .word name⟩
    | invalid fault => cases h
    | _ => exact absurd rfl hm

theorem exists_spelled (h : AllWritable ts) :
    ∃ cs, Spelled ts cs ∧ ∀ c ∈ cs.head?, Text.isBlank c = true := by
  induction ts with
  | nil => exact ⟨[], .nil (List.forall_mem_nil _), nofun⟩
  | cons t ts ih =>
    obtain ⟨w, hw⟩ := h.1.exists_spelling
    obtain ⟨r, hr, hhead⟩ := ih h.2
    have hb : Text.isBlank ' ' = true := rfl
    exact ⟨[' '] ++ (w ++ r), .cons (List.forall_mem_singleton.2 hb) hw hhead hr,
      fun c hc => Option.some.inj hc ▸ hb⟩

def dropZeroSign : Token → Token
  | number n => number n.dropZeroSign
  | t => t

theorem dropZeroSign_of_ne_number (h : t ≠ number (.zero true)) : t.dropZeroSign = t := by
  cases t with
  | number n =>
    have hn : n ≠ .zero true := fun e => h (congrArg number e)
    rw [dropZeroSign, Binary64.dropZeroSign_of_ne hn]
  | _ => rfl

def Lexes (next : Option Token) (cs : List Char) (t : Token) : Prop :=
  ∃ c w, cs = c :: w ∧ Text.isBlank c = false ∧ (c = '(' ↔ t = openParen) ∧
    ∀ r, (∀ d ∈ r.head?, Text.isBlank d = true) → (opensCall r = true ↔ next = some openParen) →
      scanFrom c (w ++ r) = (t.dropZeroSign, r)

theorem lexes_mark (h : (t, c, w) ∈ marks) : Lexes next (c :: w) t := by
  have table : ∀ x ∈ marks, x.2.1 ∈ markChars ∧ Text.isBlank x.2.1 = false ∧
      (x.2.1 = '(' ↔ x.1 = openParen) ∧
      scanFrom x.2.1 x.2.2 = (x.1.dropZeroSign, []) := by decide
  obtain ⟨hc, hb, hp, hs⟩ := table _ h
  obtain ⟨u, hu, happend⟩ := scanFrom_mark_append hc hs
  rw [List.append_nil] at hu
  subst hu
  exact ⟨c, w, rfl, hb, hp,
    fun r hr _ => happend r fun d hd => Or.inr (notMem_secondChars_of_isBlank (hr d hd))⟩

theorem lexes_number {n : Binary64} (hf : n.isFinite = true)
    (h0 : (Binary64.zero false).le n = true) : Lexes next n.text (number n) := by
  obtain ⟨k, hk, htext, hdrop⟩ := Binary64.text_of_zero_le hf h0
  obtain ⟨m, hm, hv⟩ := NumberStyle.exists_spells_magnitude hk
  have hstart := hm.startsNumber
  have hscan := scanNumber_of_spells hm
  rw [htext]
  generalize NumberStyle.formula.magnitude k = cs at hstart hscan
  cases cs with
  | nil => cases hstart
  | cons c w =>
    have hc : c ≠ '(' := ne_of_startsNumber hstart (by decide) rfl
    refine ⟨c, w, rfl, isBlank_of_startsNumber hstart, iff_of_false hc nofun, fun r hr _ => ?_⟩
    rw [← List.append_nil w] at hstart
    rw [← List.append_nil (c :: w)] at hscan
    have hstart' := startsNumber_append hstart (numberRun_of_scanNumber hscan) r
    rw [scanFrom_of_startsNumber hstart', ← List.cons_append,
      scanNumber_append hscan fun d hd => Or.inr (hr d hd)]
    rw [dropZeroSign, hdrop, hv]

theorem closeQuote_escape (hq : quote ≠ '\\') (s r : List Char) :
    closeQuote quote (s.flatMap (escape quote) ++ quote :: r) = some (s, r) := by
  induction s with
  | nil => exact (closeQuote_of_ne hq r).trans (if_pos rfl)
  | cons c s ih =>
    rw [List.flatMap_cons, List.append_assoc, escape]
    by_cases hc : c = quote ∨ c = '\\'
    · rw [if_pos hc, List.cons_append, List.singleton_append, closeQuote, ih]
      rfl
    · obtain ⟨hcq, hcb⟩ := not_or.1 hc
      rw [if_neg hc, List.singleton_append, closeQuote_of_ne hcb, if_neg hcq, ih]
      rfl

theorem lexes_text (s : String) (hq : quote = '"' ∨ quote = '\'') :
    Lexes next (quoted quote s.toList) (text s) := by
  have hb : Text.isBlank quote = false ∧ quote ≠ '(' ∧ quote ≠ '\\' ∧ quote ∉ markChars := by
    cases hq with
    | inl h => subst h; decide
    | inr h => subst h; decide
  obtain ⟨hb, hp, hs, hm⟩ := hb
  refine ⟨quote, _, rfl, hb, iff_of_false hp nofun, fun r _ _ => ?_⟩
  rw [scanFrom_of_notMem hm, if_pos (by simpa using hq), List.append_assoc, List.singleton_append,
    scanText, closeQuote_escape hs]
  exact congrArg (fun s => (text s, r)) String.ofList_toList

/- A name ends where the blank is, so it is left to see which token it is. -/
theorem lexes_name (hn : isName name = true) (ht : t ≠ openParen)
    (hs : ∀ called, (called = true ↔ next = some openParen) → ofName called name = t.dropZeroSign) :
    Lexes next name t := by
  have hcut := fun r hr => scanWord_name (r := r) hn hr
  obtain ⟨c, w, rfl, hc, hb, -⟩ := isName_cases hn
  have hp : c ≠ '(' := by
    rintro rfl
    cases hc
  refine ⟨c, w, rfl, hb, iff_of_false hp ht, fun r hr ho => ?_⟩
  rw [scanFrom_of_isWordStart hc, ← List.cons_append,
    hcut r fun d hd => isWordChar_of_isBlank (hr d hd), hs _ ho]

theorem lexes_boolean {b : Bool}
    (h : sameLetters (if b then "true" else "false").toList name = true)
    (hnext : next ≠ some openParen) : Lexes next name (boolean b) := by
  have hn : isName name = true := isName_of_sameLetters h (by cases b <;> decide)
  have hl : name.map Char.toLower = (if b then "true" else "false").toList.map Char.toLower :=
    (of_decide_eq_true h).symm
  refine lexes_name hn nofun fun called hc => ?_
  cases called with
  | true => exact absurd (hc.1 rfl) hnext
  | false =>
    rw [ofName, sameLetters, sameLetters, hl]
    cases b <;> rfl

theorem lexes_word {name : String} (hn : isName name.toList = true)
    (h : namesTruth name.toList = true → next = some openParen) :
    Lexes next name.toList (word name) := by
  refine lexes_name hn nofun fun called hc => ?_
  rw [ofName, String.ofList_toList]
  cases called with
  | true => rfl
  | false =>
    have hname : namesTruth name.toList = false := by
      by_contra ht
      cases hc.2 (h (Bool.not_eq_false _ ▸ ht))
    obtain ⟨htrue, hfalse⟩ := Bool.or_eq_false_iff.1 hname
    rw [htrue, hfalse]
    rfl

theorem Spelling.lexes (h : Spelling t cs) (ht : Writable next t) : Lexes next cs t := by
  cases h with
  | number n => exact lexes_number ht.1 ht.2
  | text s hq => exact lexes_text s hq
  | boolean b h => exact lexes_boolean h ht
  | word name => exact lexes_word ht.1 ht.2
  | mark h => exact lexes_mark h

/- From one token to all of them: what a token must know of the text behind it is
whether a parenthesis is next. -/

theorem Spelled.opensCall_iff (h : Spelled ts cs) (ht : AllWritable ts) :
    opensCall cs = true ↔ ts.head? = some openParen := by
  cases h with
  | nil hb =>
    rw [opensCall, ← List.append_nil cs, skipBlanks_blanks hb]
    decide
  | cons hb hs hr h =>
    obtain ⟨c, w, rfl, hc, hp, -⟩ := hs.lexes ht.1
    rw [List.cons_append, opensCall_append hb hc, decide_eq_true_iff, hp, List.head?_cons,
      Option.some_inj]

theorem Spelled.scan_eq (h : Spelled ts cs) (ht : AllWritable ts) :
    scan cs = ts.map dropZeroSign := by
  induction h with
  | @nil b hb =>
    rw [← List.append_nil b, scan_blanks hb]
    exact scan_of_next?_none rfl
  | cons hb hs hr h ih =>
    obtain ⟨c, w, rfl, hc, -, hcut⟩ := hs.lexes ht.1
    have hn :=
      next?_eq_some.2 ⟨c, w ++ _, skipBlanks_append hb hc _, hcut _ hr (h.opensCall_iff ht.2)⟩
    rw [List.cons_append, scan_of_next?_some hn, ih ht.2, List.map_cons]

end Token

namespace Expr
open Token

theorem ofTokens_text (s : String) : ofTokens [.text s] = .ok (.text s) := by
  cbv

/-- Tokens can be written down with blanks between them, and then they are the tokens that the lexer
finds: numbers without the sign of a zero, texts in quotes of either kind, truth values where no
call begins, names, and names like those of truth values where a call begins. So a text in quotes,
of whatever characters, is the formula of that text. -/
theorem scan_spelled :
    (∀ ts, AllWritable ts → ∃ cs, Spelled ts cs) ∧
    (∀ ts cs, AllWritable ts → Spelled ts cs →
      scan cs = ts.map dropZeroSign ∧ (.number (.zero true) ∉ ts → scan cs = ts)) ∧
    (∀ (quote : Char) (s : String), quote = '"' ∨ quote = '\'' →
      parse (String.ofList (quoted quote s.toList)) = .ok (.text s)) := by
  refine ⟨fun ts ht => (exists_spelled ht).imp fun _ => And.left,
    fun ts cs ht h => ⟨h.scan_eq ht, fun hz => ?_⟩, fun quote s hq => ?_⟩
  · have hmap : ∀ t ∈ ts, t.dropZeroSign = id t := fun t htm =>
      dropZeroSign_of_ne_number fun e => hz (e ▸ htm)
    rw [h.scan_eq ht, List.map_congr_left hmap, List.map_id]
  · have h : Spelled [.text s] ([] ++ (quoted quote s.toList ++ [])) :=
      .cons (List.forall_mem_nil _) (.text s hq) nofun (.nil (List.forall_mem_nil _))
    have hscan := h.scan_eq ⟨trivial, trivial⟩
    rw [List.nil_append, List.append_nil] at hscan
    rw [parse, String.toList_ofList, hscan]
    exact ofTokens_text s

theorem scan_spelled_of_call :
    ∃ x, x = Binary64.ofBits 0x3e7ad7f29abcaf48 ∧
      scan "True (\t1e-7 - 'it\\'s \\\\' ) <> FALSE".toList =
        [.word "True", .openParen, .number x, .minus, .text "it's \\", .closeParen, .notEqual,
          .boolean false] ∧
      parse "\"it's \\\\\"" = .ok (.text "it's \\") := by
  obtain ⟨-, lists, texts⟩ := scan_spelled
  refine ⟨_, rfl, ?_, texts '"' "it's \\" (Or.inl rfl)⟩
  have number : Spelling (.number (.ofBits 0x3e7ad7f29abcaf48)) "1e-7".toList := by
    have ht : (Binary64.ofBits 0x3e7ad7f29abcaf48).text = "1e-7".toList := by decide +kernel
    exact ht ▸ .number _
  have word : Spelling (.word "True") "True".toList := .word _
  have opening : Spelling .openParen ['('] := .mark (by decide)
  have minus : Spelling .minus ['-'] := .mark (by decide)
  have text : Spelling (.text "it's \\") "'it\\'s \\\\'".toList := .text _ (Or.inr rfl)
  have closing : Spelling .closeParen [')'] := .mark (by decide)
  have unequal : Spelling .notEqual ['<', '>'] := .mark (by decide)
  have truth : Spelling (.boolean false) "FALSE".toList := .boolean false (by decide)
  have blank : ∀ d ∈ [' '], Text.isBlank d = true := List.forall_mem_singleton.2 rfl
  have tab : ∀ d ∈ ['\t'], Text.isBlank d = true := List.forall_mem_singleton.2 rfl
  have head : ∀ {b : Char} {r : List Char}, Text.isBlank b = true →
      ∀ d ∈ (b :: r).head?, Text.isBlank d = true :=
    fun hb d hd => Option.some.inj hd ▸ hb
  have ending : Spelled [] [] := .nil (List.forall_mem_nil _)
  have hspelled :=
    Spelled.cons (List.forall_mem_nil _) word (head rfl) <| .cons blank opening (head rfl) <|
    .cons tab number (head rfl) <| .cons blank minus (head rfl) <| .cons blank text (head rfl) <|
    .cons blank closing (head rfl) <| .cons blank unequal (head rfl) <|
      .cons blank truth (by simp) ending
  have hwritable : AllWritable [.word "True", .openParen, .number (.ofBits 0x3e7ad7f29abcaf48),
      .minus, .text "it's \\", .closeParen, .notEqual, .boolean false] :=
    ⟨⟨by decide, fun _ => rfl⟩, trivial, ⟨by decide +kernel, by decide +kernel⟩, trivial, trivial,
      trivial, trivial, nofun, trivial⟩
  exact (lists _ _ hwritable hspelled).2 (by decide +kernel)

end Expr
end FieldFormula
