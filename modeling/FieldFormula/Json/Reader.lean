import FieldFormula.Json.Lexeme
import FieldFormula.Table

/-!
Reading JSON. A text is first read for its form alone; numbers and escapes are interpreted only in
the parts that are asked for, so that what is skipped has to be well-formed and nothing more.
-/
namespace FieldFormula.Json

inductive Form where
  | null
  | boolean (b : Bool)
  | number (n : Figure)
  | text (s : List Piece)
  | array (items : List Form)
  | object (members : List (List Piece × Form))

namespace Form

structure Read (α : Type) (n : Nat) where
  value : α
  rest : List Lexeme
  shorter : rest.length < n

theorem Read.shorter_tail {α : Type} {n : Nat} {l : Lexeme} {r : List Lexeme} (p : Read α n)
    (h : p.rest = l :: r) : r.length < n := by
  have := p.shorter
  rw [h] at this
  exact Nat.lt_of_succ_lt this

mutual

def read (ls : List Lexeme) : Option (Read Form ls.length) :=
  match ls with
  | .null :: ls => some ⟨.null, ls, Nat.lt_succ_self ls.length⟩
  | .boolean b :: ls => some ⟨.boolean b, ls, Nat.lt_succ_self ls.length⟩
  | .number n :: ls => some ⟨.number n, ls, Nat.lt_succ_self ls.length⟩
  | .text s :: ls => some ⟨.text s, ls, Nat.lt_succ_self ls.length⟩
  | .openArray :: .closeArray :: ls =>
    some ⟨.array [], ls, Nat.lt_succ_of_lt (Nat.lt_succ_self ls.length)⟩
  | .openArray :: ls => do
    let p ← readItems ls
    return ⟨.array p.value, p.rest, Nat.lt_succ_of_lt p.shorter⟩
  | .openObject :: .closeObject :: ls =>
    some ⟨.object [], ls, Nat.lt_succ_of_lt (Nat.lt_succ_self ls.length)⟩
  | .openObject :: ls => do
    let p ← readMembers ls
    return ⟨.object p.value, p.rest, Nat.lt_succ_of_lt p.shorter⟩
  | _ => none
termination_by 2 * ls.length

def readItems (ls : List Lexeme) : Option (Read (List Form) ls.length) := do
  let p ← read ls
  match h : p.rest with
  | .closeArray :: r => return ⟨[p.value], r, p.shorter_tail h⟩
  | .comma :: r =>
    have := p.shorter_tail h
    let q ← readItems r
    return ⟨p.value :: q.value, q.rest, Nat.lt_trans q.shorter this⟩
  | _ => none
termination_by 2 * ls.length + 1

def readMembers (ls : List Lexeme) : Option (Read (List (List Piece × Form)) ls.length) :=
  match ls with
  | .text k :: .colon :: ls => do
    let p ← read ls
    match h : p.rest with
    | .closeObject :: r =>
      return ⟨[(k, p.value)], r, Nat.lt_succ_of_lt (Nat.lt_succ_of_lt (p.shorter_tail h))⟩
    | .comma :: r =>
      have := p.shorter_tail h
      let q ← readMembers r
      return ⟨(k, p.value) :: q.value, q.rest,
        Nat.lt_succ_of_lt (Nat.lt_succ_of_lt (Nat.lt_trans q.shorter this))⟩
    | _ => none
  | _ => none
termination_by 2 * ls.length + 1

end

def ofText? (cs : List Char) : Option Form := do
  let p ← read (← Lexeme.scan cs)
  if p.rest.isEmpty then some p.value else none

/-- The characters that pieces stand for. Two units that form a surrogate pair are one
character, and a unit out of a pair is none. -/
def chars? : List Piece → Option (List Char)
  | [] => some []
  | .char c :: r => (chars? r).map (c :: ·)
  | .unit n :: .unit m :: r =>
    if 0xD800 ≤ n && n < 0xDC00 then
      if 0xDC00 ≤ m && m < 0xE000 then
        (chars? r).map (Char.ofNat (0x10000 + (n - 0xD800) * 0x400 + (m - 0xDC00)) :: ·)
      else none
    else if 0xDC00 ≤ n && n < 0xE000 then none
    else (chars? (.unit m :: r)).map (Char.ofNat n :: ·)
  | .unit n :: r => if 0xD800 ≤ n && n < 0xE000 then none else (chars? r).map (Char.ofNat n :: ·)

def string? (s : List Piece) : Option String := (chars? s).map String.ofList

mutual

/-- The value of a form, with so many levels of nesting allowed. Of members with one name the last
counts. -/
def value? (levels : Nat) : Form → Option Json
  | null => some .null
  | boolean b => some (.boolean b)
  | number n => n.number?.map .number
  | text s => (string? s).map .text
  | array items =>
    match levels with
    | 0 => none
    | levels + 1 => (items? levels items).map .array
  | object members =>
    match levels with
    | 0 => none
    | levels + 1 => (members? levels members).map fun ms => .object (Table.ofList ms).entries

def items? (levels : Nat) : List Form → Option (List Json)
  | [] => some []
  | f :: fs => do
    let v ← value? levels f
    let vs ← items? levels fs
    return v :: vs

def members? (levels : Nat) : List (List Piece × Form) → Option (List (String × Json))
  | [] => some []
  | (k, f) :: r => do
    let k ← string? k
    let v ← value? levels f
    let ms ← members? levels r
    return (k, v) :: ms

end

/- Reading records with a fixed set of members. -/

/-- The members with these names: from an object in which none of them is found twice, or from an
array that gives at least `least` of them in order. -/
def fields? (names : List String) (least : Nat) : Form → Option (List (Option Form))
  | object members => do
    let ms ← members.mapM fun (k, f) => (string? k).map (·, f)
    if names.any fun n => 1 < ms.countP (·.1 = n) then none
    return names.map fun n => ms.lookup n
  | array items =>
    if least ≤ items.length && items.length ≤ names.length then
      some (names.zipIdx.map fun (_, i) => items[i]?)
    else none
  | _ => none

def text? : Form → Option String
  | text s => string? s
  | _ => none

def boolean? : Form → Option Bool
  | boolean b => some b
  | _ => none

def natural? (limit : Nat) : Form → Option Nat
  | number n =>
    match n.number? with
    | some (.integer i) => if 0 ≤ i && i < limit then some i.toNat else none
    | _ => none
  | _ => none

def optional {α : Type} (read : Form → Option α) : Option Form → Option (Option α)
  | none => some none
  | some null => some none
  | some f => (read f).map some

end Form
end FieldFormula.Json
