import FieldFormula.Token.Lexer

/-!
The names that a formula text mentions, found without reading the formula: every run of letters,
digits and underscores from its first letter or underscore on. So words inside quoted texts and the
tail of an exponent count too. Two lists are made of them, with different words left out.
-/
namespace FieldFormula.Reference

def mentions (cs : List Char) : List String :=
  match cs with
  | [] => []
  | c :: r =>
    if Token.isWordStart c then
      have : (r.dropWhile Token.isWordChar).length ≤ r.length := (List.dropWhile_suffix _).length_le
      String.ofList (c :: r.takeWhile Token.isWordChar) :: mentions (r.dropWhile Token.isWordChar)
    else mentions r
termination_by cs.length

def isNumeral (name : String) : Bool := name = "Infinity"

def functionNames : List String :=
  ["IF", "IFGT", "COALESCE", "Abs", "Ceil", "Floor", "Round", "Max", "Min", "Sqrt", "If", "Len"]

/-- Words that are no field, in whatever case. -/
def reservedWords : List String :=
  ["if", "sum", "count", "avg", "max", "min", "round", "abs", "sqrt", "log"]

def isReserved (name : String) : Bool :=
  reservedWords.contains (String.ofList (name.toList.map Char.toLower))

/-- Names that count as zero when the record does not have them. -/
def used (formula : String) : List String :=
  ((mentions formula.toList).filter fun name =>
    !functionNames.contains name && !isNumeral name).eraseDups

def fields (formula : String) : List String :=
  ((mentions formula.toList).filter fun name => !isReserved name && !isNumeral name).eraseDups

end FieldFormula.Reference
