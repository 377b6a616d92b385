import FieldFormula.Outcome

/-!
Outcomes as the text of a cell. Amounts have a dollar sign; amounts and numbers have commas between
thousands; a minus sign stands only before something that is not all zeros.
-/
namespace FieldFormula.Display

def placeholder : String := "—"

def maxPlaces : Nat := 20

def group (ds : List Char) : List Char :=
  match ds with
  | [] => []
  | d :: r => if r.length % 3 = 0 && !r.isEmpty then d :: ',' :: group r else d :: group r

def groupWhole (cs : List Char) : List Char :=
  group (cs.takeWhile (· ≠ '.')) ++ cs.dropWhile (· ≠ '.')

def fixed (places : Nat) (x : Binary64) : List Char :=
  match x.roundPlaces places with
  | .finite _ n _ => Decimal.fixed places n
  | y => y.text

def amount (places : Option Nat) (x : Binary64) : List Char :=
  let p := min (places.getD 2) maxPlaces
  let shown := '$' :: groupWhole (fixed p x.abs)
  if x.isNegative && !x.isZero && !(x.roundPlaces p).isZero then '-' :: shown else shown

def number (places : Option Nat) (x : Binary64) : List Char :=
  let shown := match places with
    | some p => fixed (min p maxPlaces) x.abs
    | none => x.abs.text
  if shown.contains 'e' then x.text
  else if x.isNegative && !x.isZero && shown.any fun c => c.isDigit && c ≠ '0' then
    '-' :: groupWhole shown
  else groupWhole shown

def value (places : Option Nat) (r : ReturnType) (v : Value) : String :=
  match r, v with
  | .currency, .number x => if x.isFinite then String.ofList (amount places x) else v.toText
  | .number, .number x => if x.isFinite then String.ofList (number places x) else v.toText
  | .boolean, .boolean b => if b then "Yes" else "No"
  | _, v => v.toText

end Display

def Outcome.display (o : Outcome) (places : Option Nat) : String :=
  match o.error, o.value with
  | none, some v => Display.value places o.returnType v
  | _, _ => Display.placeholder

end FieldFormula
