/-!
Arguments of a command line: flags, options with a value, and words. A long option is `--name`, its
value the next argument or what stands behind `=`; a short one is `-n`, and may share its dash with
others and with its value. Behind `--` everything is a word.
-/
namespace FieldFormula.Command

structure OptionSpec where
  name : String
  letter : Option Char
  takesValue : Bool

inductive Argument where
  | flag (name : String)
  | option (name : String) (value : String)
  | word (s : String)
  deriving DecidableEq

/-- What arguments amount to so far: those that are complete, and the option that
waits for its value. -/
structure Progress where
  done : List Argument
  waiting : Option String

namespace Argument

def readLetters (specs : List OptionSpec) : List Char → Option Progress
  | [] => some ⟨[], none⟩
  | c :: r =>
    match specs.find? fun spec => spec.letter = some c with
    | none => none
    | some spec =>
      if spec.takesValue then
        match r with
        | [] => some ⟨[], some spec.name⟩
        | '=' :: v => some ⟨[option spec.name (String.ofList v)], none⟩
        | v => some ⟨[option spec.name (String.ofList v)], none⟩
      else (readLetters specs r).map fun p => ⟨flag spec.name :: p.done, p.waiting⟩

def readName (specs : List OptionSpec) (cs : List Char) : Option Progress :=
  let name := String.ofList (cs.takeWhile (· ≠ '='))
  match specs.find? (·.name = name), cs.dropWhile (· ≠ '=') with
  | none, _ => none
  | some spec, [] => if spec.takesValue then some ⟨[], some name⟩ else some ⟨[flag name], none⟩
  | some spec, _ :: v =>
    if spec.takesValue then some ⟨[option name (String.ofList v)], none⟩ else none

/-- Reads arguments from left to right; `waiting` is the option whose value comes next. -/
def readFrom (specs : List OptionSpec) (waiting : Option String) :
    List String → Option (List Argument)
  | [] => if waiting.isNone then some [] else none
  | a :: rest =>
    match a.toList, waiting with
    | ['-', '-'], none => some (rest.map word)
    | '-' :: '-' :: cs, none => do
      let p ← readName specs cs
      return p.done ++ (← readFrom specs p.waiting rest)
    | '-' :: c :: cs, none => do
      let p ← readLetters specs (c :: cs)
      return p.done ++ (← readFrom specs p.waiting rest)
    | '-' :: _ :: _, some _ => none
    | _, some name => do return option name a :: (← readFrom specs none rest)
    | _, none => do return word a :: (← readFrom specs none rest)

def read (specs : List OptionSpec) (args : List String) : Option (List Argument) :=
  readFrom specs none args

def words (as : List Argument) : List String :=
  as.filterMap fun
    | word s => some s
    | _ => none

def hasFlag (name : String) (as : List Argument) : Bool := as.contains (flag name)

def value? (name : String) (as : List Argument) : Option String :=
  as.findSome? fun
    | option n v => if n = name then some v else none
    | _ => none

def named? : Argument → Option String
  | flag name => some name
  | option name _ => some name
  | word _ => none

def isDistinct (as : List Argument) : Bool :=
  let names := as.filterMap named?
  names.eraseDups.length = names.length

end Argument
end FieldFormula.Command
