import FieldFormula.Command.Arguments
import FieldFormula.Files
import FieldFormula.Report

/-!
The command line: evaluate a formula, validate one, list its fields, or test definitions on samples.
-/
namespace FieldFormula

inductive RecordSource where
  | none
  | text (json : String)
  | file (path : String)
  deriving DecidableEq

inductive Request where
  | evaluate (formula : String) (record : RecordSource) (returnType : ReturnType)
      (places : Option Nat)
  | validate (formula : String)
  | fields (formula : String)
  | test (definitions : String) (samples : Option String)
  | version
  | help
  deriving DecidableEq

namespace Request
open Command

def verbose : OptionSpec := ⟨"verbose", some 'v', false⟩
def helpFlag : OptionSpec := ⟨"help", some 'h', false⟩
def versionFlag : OptionSpec := ⟨"version", some 'V', false⟩

def evaluateSpecs : List OptionSpec :=
  [⟨"context", some 'c', true⟩, ⟨"context-file", none, true⟩, ⟨"return-type", some 'r', true⟩,
    ⟨"decimal-places", some 'd', true⟩, verbose, helpFlag]

def testSpecs : List OptionSpec :=
  [⟨"definitions", some 'd', true⟩, ⟨"samples", some 's', true⟩, verbose, helpFlag]

def count? (cs : List Char) : Option Nat :=
  let (negative, ds) := Numeral.splitSign cs
  let n := Nat.ofDigitChars 10 ds 0
  if ds.isEmpty || !ds.all Char.isDigit || UInt32.size ≤ n || (negative && n ≠ 0) then none
  else some n

def places? (as : List Argument) : Option (Option Nat) :=
  match Argument.value? "decimal-places" as with
  | none => some none
  | some v => (count? v.toList).map some

def path? (name : String) (as : List Argument) : Option (Option String) :=
  match Argument.value? name as with
  | some "" => none
  | v => some v

def evaluateOf (as : List Argument) : Option Request := do
  let file ← path? "context-file" as
  let record ← match Argument.value? "context" as, file with
    | none, none => some RecordSource.none
    | some json, none => some (.text json)
    | none, some path => some (.file path)
    | some _, some _ => none
  let places ← places? as
  let returnType := ReturnType.ofNameLenient ((Argument.value? "return-type" as).getD "number")
  match Argument.words as with
  | [formula] => return evaluate formula record returnType places
  | _ => none

def testOf (as : List Argument) : Option Request := do
  let samples ← path? "samples" as
  match ← path? "definitions" as, Argument.words as with
  | some definitions, [] => return test definitions samples
  | _, _ => none

def formulaOf (request : String → Request) (as : List Argument) : Option Request :=
  match Argument.words as with
  | [formula] => some (request formula)
  | _ => none

def ofArguments (specs : List OptionSpec) (make : List Argument → Option Request)
    (args : List String) :
    Option Request := do
  let as ← Argument.read specs args
  if !Argument.isDistinct as then none
  if Argument.hasFlag "help" as then return help
  make as

def commands : List String := ["evaluate", "eval", "validate", "fields", "test", "help"]

def ofCommand (command : String) (args : List String) : Option Request :=
  match command with
  | "evaluate" | "eval" => ofArguments evaluateSpecs evaluateOf args
  | "validate" => ofArguments [verbose, helpFlag] (formulaOf validate) args
  | "fields" => ofArguments [verbose, helpFlag] (formulaOf fields) args
  | "test" => ofArguments testSpecs testOf args
  | "help" => if args.length ≤ 1 && args.all commands.contains then some help else none
  | _ => none

/-- Reads flags up to the command; `quiet` while there has been no flag for more messages. -/
def parseFrom (quiet : Bool) : List String → Option Request
  | [] => none
  | a :: rest =>
    match a.toList with
    | '-' :: c :: cs =>
      if a = "--" then none
      else
        match Argument.read [verbose, helpFlag, versionFlag] [String.ofList ('-' :: c :: cs)] with
        | none => none
        | some as =>
          if Argument.hasFlag "version" as then some version
          else if Argument.hasFlag "help" as then some help
          else if quiet && Argument.isDistinct as then parseFrom false rest
          else none
    | _ => ofCommand a rest

def parse (args : List String) : Option Request := parseFrom true args

def paths : Request → List String
  | evaluate _ (.file path) _ _ => [path]
  | test definitions samples => definitions :: samples.toList
  | _ => []

end Request

structure Response where
  exitCode : UInt32
  output : String
  error : Option String
  deriving DecidableEq

namespace Response

def done (ok : Bool) (output : String) : Response := ⟨if ok then 0 else 1, output, none⟩

def failed (message : String) : Response := ⟨1, "", some message⟩

def misused : Response := ⟨2, "", none⟩

end Response

namespace Request

def usage : String :=
  "Usage: crm-formula [-v] evaluate [-c JSON | --context-file FILE] [-r TYPE] " ++
    "[-d PLACES] FORMULA\n" ++
  "       crm-formula [-v] validate FORMULA\n" ++
  "       crm-formula [-v] fields FORMULA\n" ++
  "       crm-formula [-v] test -d FILE [-s FILE]\n"

def record (files : Files) : RecordSource → Except String Record
  | .none => .ok Table.empty
  | .text json =>
    match Record.ofText? json.toList with
    | some r => .ok r
    | none => .error "Context must be a JSON object"
  | .file path => (files.record path).mapError FileError.message

def evaluated (o : Outcome) (places : Option Nat) : Response :=
  .done o.isOk (String.ofList (Json.writeLines o.members) ++ "\n" ++ o.display places ++ "\n")

def validated (e : Option FormulaError) : Response :=
  let members :=
    ("valid", Json.boolean e.isNone) :: (e.map fun e => ("error", Json.text e.message)).toList
  .done e.isNone (String.ofList (Json.writeLines members) ++ "\n")

def tested (files : Files) (definitions : String) (samples : Option String) :
    Except FileError Report := do
  let ds ← files.definitions definitions
  let s ← match samples with
    | some path => files.samples path
    | none => .ok Samples.builtin
  return .ofDefinitions ds s

def run (files : Files) : Request → Response
  | evaluate formula source returnType places =>
    match record files source with
    | .error e => .failed e
    | .ok r => evaluated (Formula.evaluate formula r returnType) places
  | validate formula => validated (Formula.validate formula)
  | fields formula =>
    .done true (String.join (((Reference.fields formula).mergeSort (· ≤ ·)).map (· ++ "\n")))
  | test definitions samples =>
    match tested files definitions samples with
    | .error e => .failed e.message
    | .ok r => .done r.isSuccess (r.text ++ "\n")
  | version => .done true "crm-formula 0.1.0\n"
  | help => .done true usage

end Request

def Command.respond (files : Files) (args : List String) : Response :=
  match Request.parse args with
  | some request => request.run files
  | none => .misused

end FieldFormula
