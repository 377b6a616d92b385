import FieldFormula.Token
import FieldFormula.Decimal.Numeral
import FieldFormula.Text

/-!
Formula text as tokens. Blanks separate tokens and mean nothing else; every token takes the longest
text that it can.
-/
namespace FieldFormula.Token

def isWordStart (c : Char) : Bool := c.isAlpha || c = '_'

def isWordChar (c : Char) : Bool := c.isAlphanum || c = '_'

/-- The characters up to the closing quote, and the rest behind it. A backslash stands for the
character after it. -/
def closeQuote (quote : Char) : List Char → Option (List Char × List Char)
  | [] => none
  | ['\\'] => none
  | '\\' :: c :: r => (closeQuote quote r).map fun (s, rest) => (c :: s, rest)
  | c :: r =>
    if c = quote then some ([], r) else (closeQuote quote r).map fun (s, rest) => (c :: s, rest)

def scanText (quote : Char) (r : List Char) : Token × List Char :=
  match closeQuote quote r with
  | some (s, rest) => (text (String.ofList s), rest)
  | none => (invalid .openText, [])

/- What looks like a number is cut out first and read afterwards, so that `1e` is a
   bad number and not `1` before a name. -/

def fractionRun : List Char → Nat
  | '.' :: r => 1 + (r.takeWhile Char.isDigit).length
  | _ => 0

def exponentRun : List Char → Nat
  | c :: r =>
    if Numeral.isMark c then
      match r with
      | '+' :: r => 2 + (r.takeWhile Char.isDigit).length
      | '-' :: r => 2 + (r.takeWhile Char.isDigit).length
      | r => 1 + (r.takeWhile Char.isDigit).length
    else 0
  | [] => 0

def numberRun (cs : List Char) : Nat :=
  let w := (cs.takeWhile Char.isDigit).length
  let f := w + fractionRun (cs.drop w)
  f + exponentRun (cs.drop f)

def scanNumber (cs : List Char) : Token × List Char :=
  let run := cs.take (numberRun cs)
  (match Numeral.ofText? run with
    | some n => number (n.value.toBinary64 false)
    | none => invalid (.badNumber (String.ofList run)),
   cs.drop (numberRun cs))

def startsNumber : List Char → Bool
  | '.' :: c :: _ => c.isDigit
  | c :: _ => c.isDigit
  | [] => false

def sameLetters (cs ds : List Char) : Bool := cs.map Char.toLower = ds.map Char.toLower

def opensCall (cs : List Char) : Bool := (Text.skipBlanks cs).head? = some '('

/-- A word is a name, or a truth value unless it is called. -/
def scanWord (cs : List Char) : Token × List Char :=
  let name := cs.takeWhile isWordChar
  let rest := cs.dropWhile isWordChar
  (if !opensCall rest && sameLetters name "true".toList then boolean true
    else if !opensCall rest && sameLetters name "false".toList then boolean false
    else word (String.ofList name),
   rest)

def scanFrom (c : Char) (r : List Char) : Token × List Char :=
  match c, r with
  | '+', r => (plus, r)
  | '-', r => (minus, r)
  | '*', r => (star, r)
  | '/', r => (slash, r)
  | '^', r => (caret, r)
  | '%', r => (percent, r)
  | ',', r => (comma, r)
  | '(', r => (openParen, r)
  | ')', r => (closeParen, r)
  | '<', '=' :: r => (lessEqual, r)
  | '<', '>' :: r => (notEqual, r)
  | '<', r => (less, r)
  | '>', '=' :: r => (greaterEqual, r)
  | '>', r => (greater, r)
  | '!', '=' :: r => (notEqual, r)
  | '!', r => (bang, r)
  | '=', '=' :: r => (equalEqual, r)
  | '=', r => (invalid .loneEquals, r)
  | '&', '&' :: r => (andAnd, r)
  | '&', r => (invalid (.loneMark '&'), r)
  | '|', '|' :: r => (orOr, r)
  | '|', r => (invalid (.loneMark '|'), r)
  | c, r =>
    if c = '"' || c = '\'' then scanText c r
    else if startsNumber (c :: r) then scanNumber (c :: r)
    else if isWordStart c then scanWord (c :: r)
    else (invalid (.strayCharacter c), r)

theorem closeQuote_length {quote : Char} {cs s rest : List Char}
    (h : closeQuote quote cs = some (s, rest)) : rest.length < cs.length := by
  fun_induction closeQuote quote cs generalizing s rest with
  | case1 => simp at h
  | case2 => simp at h
  | case3 c r ih =>
    obtain ⟨⟨s', rest'⟩, h', e⟩ := Option.map_eq_some_iff.1 h
    cases e
    have := ih h'
    simp only [List.length_cons]
    omega
  | case4 r => cases h; simp
  | case5 c r _ _ _ ih =>
    obtain ⟨⟨s', rest'⟩, h', e⟩ := Option.map_eq_some_iff.1 h
    cases e
    have := ih h'
    simp only [List.length_cons]
    omega

theorem scanText_length (quote : Char) (r : List Char) :
    (scanText quote r).2.length ≤ r.length := by
  unfold scanText
  split
  · next h => exact Nat.le_of_lt (closeQuote_length h)
  · simp

theorem numberRun_pos {cs : List Char} (h : startsNumber cs = true) : 0 < numberRun cs := by
  have hw : (cs.takeWhile Char.isDigit).length ≤ numberRun cs := by
    rw [numberRun]
    omega
  have digit : ∀ {c : Char} {r : List Char}, cs = c :: r → c.isDigit = true → 0 < numberRun cs := by
    intro c r e hc
    rw [e, List.takeWhile_cons, if_pos hc, List.length_cons, ← e] at hw
    omega
  unfold startsNumber at h
  split at h
  · have hp : Char.isDigit '.' = false := rfl
    simp only [numberRun, List.takeWhile_cons, hp, Bool.false_eq_true, if_false, List.length_nil,
      List.drop_zero, fractionRun]
    omega
  · exact digit rfl h
  · exact absurd h Bool.false_ne_true

theorem scanNumber_length {c : Char} {r : List Char} (h : startsNumber (c :: r) = true) :
    (scanNumber (c :: r)).2.length ≤ r.length := by
  have := numberRun_pos h
  simp only [scanNumber, List.length_drop, List.length_cons]
  omega

theorem isWordChar_of_isWordStart {c : Char} (h : isWordStart c = true) : isWordChar c = true := by
  simp only [isWordStart, Bool.or_eq_true] at h
  rcases h with h | h <;> simp [isWordChar, Char.isAlphanum, h]

theorem scanWord_length {c : Char} {r : List Char} (h : isWordStart c = true) :
    (scanWord (c :: r)).2.length ≤ r.length := by
  simp only [scanWord, List.dropWhile_cons, isWordChar_of_isWordStart h, if_true]
  exact (List.dropWhile_suffix _).length_le

theorem scanFrom_length (c : Char) (r : List Char) : (scanFrom c r).2.length ≤ r.length := by
  unfold scanFrom
  split <;> (try simp only [List.length_cons]; omega)
  split
  · exact scanText_length ..
  · split
    · next h => exact scanNumber_length h
    · split
      · next h => exact scanWord_length h
      · exact Nat.le_refl _

def next? (cs : List Char) : Option (Token × List Char) :=
  match Text.skipBlanks cs with
  | [] => none
  | c :: r => some (scanFrom c r)

theorem next?_length {cs rest : List Char} {t : Token} (h : next? cs = some (t, rest)) :
    rest.length < cs.length := by
  have hs : (Text.skipBlanks cs).length ≤ cs.length := (List.dropWhile_suffix _).length_le
  unfold next? at h
  split at h
  · simp at h
  · next c r e =>
    have hr := scanFrom_length c r
    rw [Option.some.inj h] at hr
    rw [e] at hs
    exact Nat.lt_of_le_of_lt hr hs

def scan (cs : List Char) : List Token :=
  match h : next? cs with
  | none => []
  | some (t, rest) =>
    have := next?_length h
    t :: scan rest
termination_by cs.length

end FieldFormula.Token
