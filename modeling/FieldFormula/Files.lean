import FieldFormula.Definition
import FieldFormula.Samples

/-!
Loading definitions, samples and records from files, and what is said when that fails.
-/
namespace FieldFormula

abbrev Files := String → Option String

inductive FileError where
  | unreadable (path : String)
  | notOpened (path : String)
  | badDefinitions (path : String)
  | badSamples (path : String)
  | notRecord (path : String)
  deriving DecidableEq

namespace FileError

def message : FileError → String
  | unreadable path => "Failed to read '" ++ path ++ "'"
  | notOpened path => "Failed to open '" ++ path ++ "'"
  | badDefinitions path => "Failed to parse definitions in '" ++ path ++ "'"
  | badSamples path => "Failed to parse '" ++ path ++ "'"
  | notRecord path => "'" ++ path ++ "' must contain a JSON object"

end FileError

namespace Files

def baseName (path : List Char) : List Char :=
  let named := (path.reverse.dropWhile (· = '/')).takeWhile (· ≠ '/')
  named.reverse

/-- What stands behind the last point of a file's name, unless the name begins with it. -/
def extension? (path : List Char) : Option (List Char) :=
  let name := baseName path
  if name.contains '.' && name != ['.', '.'] then
    let ext := (name.reverse.takeWhile (· ≠ '.')).reverse
    if ext.length + 1 = name.length then none else some ext
  else none

def isCsv (path : String) : Bool := (extension? path.toList).any (Token.sameLetters "csv".toList)

def definitions (files : Files) (path : String) : Except FileError (List Definition) :=
  match files path with
  | none => .error (.unreadable path)
  | some s =>
    match Definition.listOfText? s.toList with
    | none => .error (.badDefinitions path)
    | some ds => .ok (ds.filter Definition.active)

def samples (files : Files) (path : String) : Except FileError Samples :=
  match files path with
  | none => .error (.notOpened path)
  | some s =>
    if isCsv path then (Samples.ofCsv s.toList).mapError fun _ => .unreadable path
    else
      match Samples.ofJson? s.toList with
      | none => .error (.badSamples path)
      | some s => .ok s

def record (files : Files) (path : String) : Except FileError Record :=
  match files path with
  | none => .error (.unreadable path)
  | some s =>
    match Record.ofText? s.toList with
    | none => .error (.notRecord path)
    | some r => .ok r

end Files
end FieldFormula
