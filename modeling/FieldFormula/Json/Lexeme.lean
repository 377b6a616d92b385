import FieldFormula.Json.Figure

/-!
The words of JSON texts: marks, literals, numbers and quoted texts. What a number or an escape
stands for is not yet asked here; only its form is checked.
-/
namespace FieldFormula.Json

/-- A quoted text is made of characters and of the 16-bit units of `\u` escapes. -/
inductive Piece where
  | char (c : Char)
  | unit (n : Nat)
  deriving DecidableEq

inductive Lexeme where
  | openArray | closeArray | openObject | closeObject | comma | colon
  | null
  | boolean (b : Bool)
  | number (n : Figure)
  | text (s : List Piece)

namespace Lexeme

def isSpace (c : Char) : Bool := c = ' ' || c = '\t' || c = '\n' || c = '\r'

def escaped? (c : Char) : Option Char :=
  match c with
  | '"' => some '"'
  | '\\' => some '\\'
  | '/' => some '/'
  | 'b' => some '\x08'
  | 'f' => some '\x0c'
  | 'n' => some '\n'
  | 'r' => some '\r'
  | 't' => some '\t'
  | _ => none

def hexDigit? (c : Char) : Option Nat :=
  if c.isDigit then some (c.toNat - '0'.toNat)
  else if 'a' ≤ c && c ≤ 'f' then some (c.toNat - 'a'.toNat + 10)
  else if 'A' ≤ c && c ≤ 'F' then some (c.toNat - 'A'.toNat + 10)
  else none

def hexUnit? (a b c d : Char) : Option Nat := do
  let a ← hexDigit? a
  let b ← hexDigit? b
  let c ← hexDigit? c
  let d ← hexDigit? d
  return ((a * 16 + b) * 16 + c) * 16 + d

def closeText : List Char → Option (List Piece × List Char)
  | '"' :: r => some ([], r)
  | '\\' :: 'u' :: a :: b :: c :: d :: r => do
    let n ← hexUnit? a b c d
    let (s, rest) ← closeText r
    return (.unit n :: s, rest)
  | '\\' :: l :: r => do
    let c ← escaped? l
    let (s, rest) ← closeText r
    return (.char c :: s, rest)
  | c :: r =>
    if c.toNat < 32 then none
    else do
      let (s, rest) ← closeText r
      return (.char c :: s, rest)
  | [] => none

/-- Digits behind a point, if there is a point; a point without digits is an error. -/
def fraction? : List Char → Option (List Char × List Char)
  | '.' :: r =>
    let ds := r.takeWhile Char.isDigit
    if ds.isEmpty then none else some (ds, r.dropWhile Char.isDigit)
  | r => some ([], r)

def exponent? : List Char → Option ((Bool × List Char) × List Char)
  | c :: r =>
    if Numeral.isMark c then
      let (negative, r) := Numeral.splitSign r
      let ds := r.takeWhile Char.isDigit
      if ds.isEmpty then none else some ((negative, ds), r.dropWhile Char.isDigit)
    else some ((false, []), c :: r)
  | [] => some ((false, []), [])

/-- A number without its sign: zero stands alone before the point. -/
def figure? (negative : Bool) (cs : List Char) : Option (Figure × List Char) := do
  let whole := cs.takeWhile Char.isDigit
  let r := cs.dropWhile Char.isDigit
  if whole.isEmpty || (whole.head? = some '0' && whole.length ≠ 1) then none
  let (fraction, r) ← fraction? r
  let ((exponentNegative, exponent), rest) ← exponent? r
  return (⟨negative, ⟨whole, fraction, exponentNegative, exponent⟩,
    fraction.isEmpty && exponent.isEmpty⟩, rest)

def scanFrom? (c : Char) (r : List Char) : Option (Lexeme × List Char) :=
  match c, r with
  | '[', r => some (openArray, r)
  | ']', r => some (closeArray, r)
  | '\x7b', r => some (openObject, r)
  | '\x7d', r => some (closeObject, r)
  | ',', r => some (comma, r)
  | ':', r => some (colon, r)
  | 'n', 'u' :: 'l' :: 'l' :: r => some (null, r)
  | 't', 'r' :: 'u' :: 'e' :: r => some (boolean true, r)
  | 'f', 'a' :: 'l' :: 's' :: 'e' :: r => some (boolean false, r)
  | '"', r => (closeText r).map fun (s, rest) => (text s, rest)
  | '-', r => (figure? true r).map fun (n, rest) => (number n, rest)
  | c, r => (figure? false (c :: r)).map fun (n, rest) => (number n, rest)

theorem closeText_length {cs rest : List Char} {s : List Piece}
    (h : closeText cs = some (s, rest)) : rest.length < cs.length := by
  fun_induction closeText cs generalizing s rest with
  | case1 r => cases h; simp
  | case2 a b c d r ih =>
    simp only [Option.bind_eq_bind, Option.bind_eq_some_iff] at h
    obtain ⟨_, _, ⟨s', rest'⟩, h', e⟩ := h
    cases e
    have := ih h'
    simp only [List.length_cons]
    omega
  | case3 l r _ ih =>
    simp only [Option.bind_eq_bind, Option.bind_eq_some_iff] at h
    obtain ⟨_, _, ⟨s', rest'⟩, h', e⟩ := h
    cases e
    have := ih h'
    simp only [List.length_cons]
    omega
  | case4 => simp at h
  | case5 c r _ _ _ _ ih =>
    simp only [Option.bind_eq_bind, Option.bind_eq_some_iff] at h
    obtain ⟨⟨s', rest'⟩, h', e⟩ := h
    cases e
    have := ih h'
    simp only [List.length_cons]
    omega
  | case6 => simp at h

theorem fraction?_length {cs ds rest : List Char} (h : fraction? cs = some (ds, rest)) :
    rest.length ≤ cs.length := by
  unfold fraction? at h
  split at h
  · next r =>
    have := (List.dropWhile_suffix (l := r) Char.isDigit).length_le
    dsimp only at h
    split at h <;> simp at h
    obtain ⟨_, rfl⟩ := h
    simp only [List.length_cons]
    omega
  · cases h; simp

theorem splitSign_length (cs : List Char) : (Numeral.splitSign cs).2.length ≤ cs.length := by
  unfold Numeral.splitSign
  split <;> simp

theorem exponent?_length {cs rest : List Char} {e : Bool × List Char}
    (h : exponent? cs = some (e, rest)) : rest.length ≤ cs.length := by
  unfold exponent? at h
  split at h
  · next c r =>
    have hd := (List.dropWhile_suffix (l := (Numeral.splitSign r).2) Char.isDigit).length_le
    have hs := splitSign_length r
    split at h
    · simp only at h
      split at h <;> simp at h
      obtain ⟨_, rfl⟩ := h
      simp only [List.length_cons]
      omega
    · cases h; simp
  · cases h; simp

theorem figure?_length {negative : Bool} {cs rest : List Char} {n : Figure}
    (h : figure? negative cs = some (n, rest)) : rest.length < cs.length := by
  unfold figure? at h
  simp only [Option.bind_eq_bind] at h
  split at h
  · simp at h
  · next hw =>
    simp only [Option.bind_eq_some_iff] at h
    obtain ⟨⟨f, r⟩, hf, ⟨e, rest'⟩, he, h⟩ := h
    cases h
    have h1 := fraction?_length hf
    have h2 : rest'.length ≤ r.length := exponent?_length he
    have h3 := congrArg List.length (List.takeWhile_append_dropWhile (p := Char.isDigit) (l := cs))
    have h4 : (cs.takeWhile Char.isDigit).length ≠ 0 := by
      intro h0
      simp [List.length_eq_zero_iff.1 h0] at hw
    simp only [List.length_append] at h3
    change rest'.length < cs.length
    omega

theorem scanFrom?_length {c : Char} {r rest : List Char} {l : Lexeme}
    (h : scanFrom? c r = some (l, rest)) : rest.length < (c :: r).length := by
  unfold scanFrom? at h
  split at h
  any_goals (cases h; simp only [List.length_cons]; omega)
  · obtain ⟨⟨s, rest'⟩, h', e⟩ := Option.map_eq_some_iff.1 h
    cases e
    have := closeText_length h'
    simp only [List.length_cons]
    omega
  · obtain ⟨⟨n, rest'⟩, h', e⟩ := Option.map_eq_some_iff.1 h
    cases e
    have := figure?_length h'
    simp only [List.length_cons]
    omega
  · obtain ⟨⟨n, rest'⟩, h', e⟩ := Option.map_eq_some_iff.1 h
    cases e
    exact figure?_length h'

def scan (cs : List Char) : Option (List Lexeme) :=
  match cs with
  | [] => some []
  | c :: r =>
    if isSpace c then scan r
    else
      match h : scanFrom? c r with
      | none => none
      | some (l, rest) =>
        have : rest.length < (c :: r).length := scanFrom?_length h
        (scan rest).map (l :: ·)
termination_by cs.length
decreasing_by
  · exact Nat.lt_succ_self r.length
  · exact this

end Lexeme
end FieldFormula.Json
