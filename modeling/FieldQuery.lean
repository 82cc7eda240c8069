import FieldQuery.Clause.Reader
import FieldQuery.Operand
import FieldQuery.Preset
import FieldQuery.Query.Render
import FieldQuery.Proofs.Steps
import FieldQuery.Proofs.Runs
import FieldQuery.Proofs.Layout
import FieldQuery.Proofs.SingleConnective
import FieldQuery.Proofs.History
import FieldQuery.Proofs.NumberText
import FieldQuery.Proofs.ClauseText
import FieldQuery.Proofs.UniqueReading
import FieldQuery.Proofs.Derivation
import FieldQuery.Proofs.Conformance
import FieldQuery.Proofs.Admission
import FieldQuery.Proofs.StoredForm
import FieldQuery.Proofs.QuoteScan
import FieldQuery.Proofs.TwoRuns
import FieldQuery.Proofs.NonInterference
import FieldQuery.Proofs.Quotation
import FieldQuery.Proofs.Growth
import FieldQuery.Proofs.Ranges
import FieldQuery.Proofs.JsonNumeral
import FieldQuery.Proofs.JsonString
import FieldQuery.Proofs.JsonText
import FieldQuery.Proofs.ClauseSpelling
import FieldQuery.Proofs.EverySpelling
import FieldQuery.Proofs.Rounding
import FieldQuery.Proofs.ShortestDecimal
import FieldQuery.Proofs.NumberReading
import FieldQuery.Proofs.Conversion
import FieldQuery.Proofs.Decoding
import FieldQuery.Proofs.ReadySearches
import FieldQuery.Proofs.JsonMarks
import FieldQuery.Proofs.ClauseFlaws
import FieldQuery.Proofs.FirstProblem
import FieldQuery.Proofs.CauseChain
import FieldQuery.Proofs.Replacement
import FieldQuery.Proofs.Calendar
import FieldQuery.Proofs.Sameness
import FieldQuery.Proofs.UnixSeconds
