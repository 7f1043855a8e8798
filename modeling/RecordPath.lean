import RecordPath.Command.Arguments
import RecordPath.Command.Check
import RecordPath.Command.Manual
import RecordPath.Command.Outcome
import RecordPath.Decimal.Arithmetic
import RecordPath.Decimal.Double
import RecordPath.Decimal.Layout
import RecordPath.Decimal.Scaled
import RecordPath.Decimal.Shortest
import RecordPath.Eval.Context
import RecordPath.Eval.Error
import RecordPath.Eval.Evaluation
import RecordPath.Eval.Typing
import RecordPath.Expr.Basic
import RecordPath.Expr.Operator
import RecordPath.Expr.Printer
import RecordPath.Json.Basic
import RecordPath.Json.Conversion
import RecordPath.Json.Number
import RecordPath.Json.Printer
import RecordPath.Json.Reader
import RecordPath.Json.Rendering
import RecordPath.Json.Shape
import RecordPath.Main
import RecordPath.Query.Basic
import RecordPath.Query.Cursor
import RecordPath.Query.Error
import RecordPath.Query.Grammar
import RecordPath.Query.Printer
import RecordPath.Query.Reading
import RecordPath.Record.Builder
import RecordPath.Record.Equality
import RecordPath.Record.Error
import RecordPath.Record.Inspect
import RecordPath.Record.Presence
import RecordPath.Record.Schema
import RecordPath.Record.Value
import RecordPath.Scalar
import RecordPath.Search.Cost
import RecordPath.Search.Expansion
import RecordPath.Search.Note
import RecordPath.Search.OnceQueue
import RecordPath.Search.Run
import RecordPath.Search.Weight
import RecordPath.Text.Blank
import RecordPath.Text.Hidden
import RecordPath.Text.Quoted
import RecordPath.Text.Utf8
import RecordPath.Token.Basic
import RecordPath.Token.Lexer
import RecordPath.Word
import RecordPath.Proofs.Record.Fields
import RecordPath.Proofs.Record.Workshop
import RecordPath.Proofs.Eval.Observation
import RecordPath.Proofs.Search.FreshIdentity
import RecordPath.Proofs.Search.Derivation
import RecordPath.Proofs.Search.Discovery
import RecordPath.Proofs.Search.Memory
import RecordPath.Proofs.Search.Completeness
import RecordPath.Proofs.Query.Climbing
import RecordPath.Proofs.Query.Layered
import RecordPath.Proofs.Eval.TypeAgreement
import RecordPath.Proofs.Decimal.Unpacked
import RecordPath.Proofs.Decimal.Whole
import RecordPath.Proofs.Decimal.Rounding
import RecordPath.Proofs.Decimal.Nearest
import RecordPath.Proofs.Decimal.Shortest
import RecordPath.Proofs.Decimal.Digits
import RecordPath.Proofs.Query.WellFormed
import RecordPath.Proofs.Token.Lexing
import RecordPath.Proofs.Token.Advance
import RecordPath.Proofs.Token.Lexeme
import RecordPath.Proofs.Token.Segmentation
import RecordPath.Proofs.Query.Spelling
import RecordPath.Proofs.Query.Yielding
import RecordPath.Proofs.Query.Phrases
import RecordPath.Proofs.Query.Continuation
import RecordPath.Proofs.Query.Items
import RecordPath.Proofs.Query.RoundTrip
import RecordPath.Proofs.Query.Compiled
import RecordPath.Proofs.Query.Floats
import RecordPath.Proofs.Query.Canonical
import RecordPath.Proofs.Search.Course
import RecordPath.Proofs.Record.Reachability
import RecordPath.Proofs.Search.Descent
import RecordPath.Proofs.Search.Repetition
import RecordPath.Proofs.Search.Stepwise
import RecordPath.Proofs.Record.Pairing
import RecordPath.Proofs.Record.Defaults
import RecordPath.Proofs.Search.Defaults
import RecordPath.Proofs.Search.Lockstep
import RecordPath.Proofs.Json.Members
import RecordPath.Proofs.Json.Normal
import RecordPath.Proofs.Json.Homogeneous
import RecordPath.Proofs.Json.Merging
import RecordPath.Proofs.Json.Description
import RecordPath.Proofs.Json.Acceptance
import RecordPath.Proofs.Json.Permutation
import RecordPath.Proofs.Json.Inference
import RecordPath.Proofs.Json.Declaration
import RecordPath.Proofs.Json.Fields
import RecordPath.Proofs.Json.Slots
import RecordPath.Proofs.Json.Filling
import RecordPath.Proofs.Json.Normalization
import RecordPath.Proofs.Search.Termination
import RecordPath.Proofs.Record.Conformance
import RecordPath.Proofs.Json.Coverage
import RecordPath.Proofs.Json.TypeNames
import RecordPath.Proofs.Json.Completeness
import RecordPath.Proofs.Record.Lasting
import RecordPath.Proofs.Search.Admission
import RecordPath.Proofs.Search.Origin
import RecordPath.Proofs.Search.Soundness
import RecordPath.Proofs.Search.Agreement
import RecordPath.Proofs.Search.Session
import RecordPath.Proofs.Eval.Properties
import RecordPath.Proofs.Eval.Defaults
import RecordPath.Proofs.Eval.Numbers
import RecordPath.Proofs.Eval.Integers
import RecordPath.Proofs.Search.Filtering
import RecordPath.Proofs.Search.Conjunction
import RecordPath.Proofs.Search.Presence
import RecordPath.Proofs.Query.Alignment
import RecordPath.Proofs.Token.Places
import RecordPath.Proofs.Query.Calls
import RecordPath.Proofs.Query.ErrorPlaces
import RecordPath.Proofs.Query.Indexed
import RecordPath.Proofs.Query.Progress
import RecordPath.Proofs.Search.Selection
import RecordPath.Proofs.Record.Setting
import RecordPath.Proofs.Record.Keys
import RecordPath.Proofs.Json.Entries
import RecordPath.Proofs.Record.Alike
