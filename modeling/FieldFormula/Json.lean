import FieldFormula.Decimal.Layout

/-!
JSON values and their text. Members of an object keep their order.
-/
namespace FieldFormula

inductive JsonNumber where
  | integer (i : Int)
  | float (x : Binary64)
  deriving DecidableEq

namespace JsonNumber

def toBinary64 : JsonNumber → Binary64
  | integer i => .ofInt i
  | float x => x

def write : JsonNumber → List Char
  | integer i => if i < 0 then '-' :: Nat.toDigits 10 i.natAbs else Nat.toDigits 10 i.natAbs
  | float x => NumberStyle.json.write x

end JsonNumber

inductive Json where
  | null
  | boolean (b : Bool)
  | number (n : JsonNumber)
  | text (s : String)
  | array (items : List Json)
  | object (members : List (String × Json))

namespace Json

def escapeLetter? (c : Char) : Option Char :=
  match c with
  | '"' => some '"'
  | '\\' => some '\\'
  | '\x08' => some 'b'
  | '\x0c' => some 'f'
  | '\n' => some 'n'
  | '\r' => some 'r'
  | '\t' => some 't'
  | _ => none

def escape (c : Char) : List Char :=
  match escapeLetter? c with
  | some l => ['\\', l]
  | none =>
    if c.toNat < 32 then
      ['\\', 'u', '0', '0', Nat.digitChar (c.toNat / 16), Nat.digitChar (c.toNat % 16)]
    else [c]

def quote (s : List Char) : List Char := '"' :: (s.flatMap escape ++ ['"'])

def enclose (opening closing separator : List Char) (parts : List (List Char)) : List Char :=
  opening ++ separator.intercalate parts ++ closing

mutual

def write : Json → List Char
  | null => "null".toList
  | boolean b => if b then "true".toList else "false".toList
  | number n => n.write
  | text s => quote s.toList
  | array items => enclose ['['] [']'] [','] (writeItems items)
  | object members => enclose ['\x7b'] ['\x7d'] [','] (writeMembers members)

def writeItems : List Json → List (List Char)
  | [] => []
  | v :: vs => write v :: writeItems vs

def writeMembers : List (String × Json) → List (List Char)
  | [] => []
  | (k, v) :: r => (quote k.toList ++ ':' :: write v) :: writeMembers r

end

def writeLines (members : List (String × Json)) : List Char :=
  enclose "\x7b\n  ".toList "\n\x7d".toList ",\n  ".toList
    (members.map fun (k, v) => quote k.toList ++ ':' :: ' ' :: write v)

end Json
end FieldFormula
