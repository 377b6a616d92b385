import FieldFormula.Csv
import FieldFormula.Record

/-!
Sample records to try formulas on: one for each kind of entity, and one for all other kinds.
-/
namespace FieldFormula

structure Samples where
  byEntity : Table Record
  fallback : Option Record

inductive SamplesError where
  | malformed
  | noData

namespace Samples

def recordFor (s : Samples) (entity : String) : Option Record :=
  match s.byEntity.find? entity with
  | some r => some r
  | none => s.fallback

def ofNumbers (fields : List (String × Nat)) : Record :=
  Table.ofList (fields.map fun (name, n) => (name, .number (.ofNat n)))

def transaction : Record :=
  ofNumbers [("amount", 450000), ("salePrice", 450000), ("commissionPct", 3),
    ("referralFeePct", 25), ("closingCosts", 8500), ("closeDate", 45292), ("isDualAgency", 0)]

def agent : Record :=
  ofNumbers [("splitPct", 70), ("capAmount", 20000), ("ytdGci", 85000), ("ytdCompanyDollar", 18500),
    ("transactionCount", 12)]

def listing : Record :=
  (ofNumbers [("listPrice", 525000), ("originalListPrice", 549000), ("squareFeet", 2400),
    ("daysOnMarket", 21)]).insert "commissionPct" (.number (Decimal.toBinary64 false ⟨25, -1⟩))

def commissionPayment : Record :=
  ofNumbers [("amount", 13500), ("paidAmount", 13500), ("balanceDue", 0), ("splitPct", 70)]

def builtin : Samples where
  byEntity := Table.ofList [("transaction", transaction), ("agent", agent), ("listing", listing),
    ("commissionPayment", commissionPayment)]
  fallback := none

def ofJson? (s : List Char) : Option Samples := do
  match ← Json.Form.ofText? s with
  | .object members =>
    let records ← members.mapM fun (entity, f) => do
      return (← Json.Form.string? entity, ← Record.ofForm? (Json.maxLevels - 1) f)
    return ⟨Table.ofList records, none⟩
  | _ => none

/-- Samples from a table of texts: the header names the fields and the first row below it has their
values, for every kind of entity. Rows further down are not looked at. -/
def ofCsv (s : List Char) : Except SamplesError Samples :=
  match Csv.next? (Csv.withoutMark s) with
  | none => .error .noData
  | some (header, rest) =>
    match Csv.next? rest with
    | none => .error .noData
    | some (values, _) =>
      if values.length = header.length then
        let names := header.map fun name => String.ofList (Text.trim name)
        .ok ⟨Table.empty,
          some (Table.ofList (names.zip (values.map fun v => .text (String.ofList v))))⟩
      else .error .malformed

end Samples
end FieldFormula
