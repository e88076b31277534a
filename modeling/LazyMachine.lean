import LazyMachine.Boundary
import LazyMachine.CommandLine
import LazyMachine.CommandLine.Arguments
import LazyMachine.CommandLine.Basic
import LazyMachine.CommandLine.Repl
import LazyMachine.CommandLine.Tracing
import LazyMachine.Context
import LazyMachine.Decimal.Binary
import LazyMachine.Decimal.Layout
import LazyMachine.Decimal.Reading
import LazyMachine.Decimal.Shortest
import LazyMachine.Document.Basic
import LazyMachine.Document.Program
import LazyMachine.Document.Toml
import LazyMachine.Document.Toml.Table
import LazyMachine.Document.Yaml
import LazyMachine.Document.Yaml.Place
import LazyMachine.Document.Yaml.Scalar
import LazyMachine.Document.Yaml.Token
import LazyMachine.Embedding
import LazyMachine.Engine
import LazyMachine.Eval
import LazyMachine.Evaluation
import LazyMachine.Failure
import LazyMachine.Files
import LazyMachine.Format
import LazyMachine.Heap
import LazyMachine.HostCode
import LazyMachine.HostError
import LazyMachine.HostLibrary
import LazyMachine.Image
import LazyMachine.Inspect
import LazyMachine.Json.Basic
import LazyMachine.Json.Number
import LazyMachine.Json.Parser
import LazyMachine.Kind
import LazyMachine.Machine.Bind
import LazyMachine.Machine.Drive
import LazyMachine.Machine.Frame
import LazyMachine.Machine.Run
import LazyMachine.Machine.Step
import LazyMachine.Main
import LazyMachine.Numeric
import LazyMachine.Operate.Arithmetic
import LazyMachine.Operate.Conversion
import LazyMachine.Operate.Equality
import LazyMachine.Operate.Foreign
import LazyMachine.Operate.Render
import LazyMachine.Operate.Sequence
import LazyMachine.Operate.Spine
import LazyMachine.Operation
import LazyMachine.Operator
import LazyMachine.Postfix.Compile
import LazyMachine.Postfix.Continuation
import LazyMachine.Postfix.Token
import LazyMachine.Program
import LazyMachine.Proofs.Agreement
import LazyMachine.Proofs.Anonymity
import LazyMachine.Proofs.Availability
import LazyMachine.Proofs.Bisimilarity
import LazyMachine.Proofs.Cooperation
import LazyMachine.Proofs.Courses
import LazyMachine.Proofs.Driving
import LazyMachine.Proofs.Equality
import LazyMachine.Proofs.Following
import LazyMachine.Proofs.Instructions
import LazyMachine.Proofs.Interrupts
import LazyMachine.Proofs.Level
import LazyMachine.Proofs.Links
import LazyMachine.Proofs.Moves
import LazyMachine.Proofs.Nesting
import LazyMachine.Proofs.Operations
import LazyMachine.Proofs.Outcome
import LazyMachine.Proofs.Ownership
import LazyMachine.Proofs.Parallel
import LazyMachine.Proofs.Passages
import LazyMachine.Proofs.Recording
import LazyMachine.Proofs.Rounds
import LazyMachine.Proofs.Settling
import LazyMachine.Proofs.ShortCircuit
import LazyMachine.Proofs.Staged
import LazyMachine.Proofs.StepLimit
import LazyMachine.Proofs.Store
import LazyMachine.Proofs.Suspension
import LazyMachine.Settings
import LazyMachine.Text.Blank
import LazyMachine.Text.Numeral
import LazyMachine.Text.Printable
import LazyMachine.Text.Quoted
import LazyMachine.Text.Split
import LazyMachine.Value
import LazyMachine.Word
import LazyMachine.Proofs.Placement
import LazyMachine.Proofs.Handling
import LazyMachine.Proofs.Formation
import LazyMachine.Proofs.Discipline
import LazyMachine.Proofs.Thrift
import LazyMachine.Proofs.Once
import LazyMachine.Proofs.Synchrony
import LazyMachine.Proofs.Rendering
import LazyMachine.Proofs.Repetition
import LazyMachine.Proofs.Counting
import LazyMachine.Proofs.Currying
import LazyMachine.Proofs.Overlay
import LazyMachine.Proofs.Calling
import LazyMachine.Proofs.InPlace
import LazyMachine.Proofs.Renaming
import LazyMachine.Proofs.Mirroring
import LazyMachine.Proofs.Spines
import LazyMachine.Proofs.Sequences
import LazyMachine.Proofs.CutOff
import LazyMachine.Proofs.Powers
import LazyMachine.Proofs.Integers
import LazyMachine.Proofs.Images
import LazyMachine.Proofs.Fields
import LazyMachine.Proofs.Consing
import LazyMachine.Proofs.Scanning
import LazyMachine.Proofs.OpenLiterals
import LazyMachine.Proofs.Gathering
import LazyMachine.Proofs.Positions
import LazyMachine.Proofs.Crashes
import LazyMachine.Proofs.Numerals
import LazyMachine.Proofs.ReadBack
import LazyMachine.Proofs.CanonicalJson
import LazyMachine.Proofs.JsonTrip
import LazyMachine.Proofs.CharLists
import LazyMachine.Proofs.PlainData
import LazyMachine.Proofs.PlainOperations
import LazyMachine.Proofs.PostfixRuns
import LazyMachine.Proofs.FormatSpecs
import LazyMachine.Proofs.HostEquality
import LazyMachine.Proofs.DebugTexts
import LazyMachine.Proofs.Overloads
