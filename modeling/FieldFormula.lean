import FieldFormula.Main
import FieldFormula.Proofs.OutcomeJson
import FieldFormula.Proofs.RoundPlaces
import FieldFormula.Proofs.QuotedTable
import FieldFormula.Proofs.DefinitionJson
import FieldFormula.Proofs.CallNames
import FieldFormula.Proofs.ReportLines
import FieldFormula.Proofs.DecimalRounding
import FieldFormula.Proofs.NumeralReaders
import FieldFormula.Proofs.NumberText
import FieldFormula.Proofs.BlankInsertion
import FieldFormula.Proofs.Spelling
import FieldFormula.Proofs.RecordHistory
import FieldFormula.Proofs.NumericPrefix
import FieldFormula.Proofs.RoundedRange
import FieldFormula.Proofs.DisplayedAmounts
import FieldFormula.Proofs.NestedCalls
import FieldFormula.Proofs.ParserCounters
import FieldFormula.Proofs.ParserLimits
import FieldFormula.Proofs.DisplayedNumbers
import FieldFormula.Proofs.DisplayedSigns
import FieldFormula.Proofs.NearestWhole
import FieldFormula.Proofs.CentSteps
import FieldFormula.Proofs.RoundedTwice
import FieldFormula.Proofs.Extremes
import FieldFormula.Proofs.Comparisons
import FieldFormula.Proofs.FieldList
