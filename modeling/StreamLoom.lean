import StreamLoom.Affine.Constraint
import StreamLoom.Affine.Form
import StreamLoom.Affine.Search
import StreamLoom.Affine.System
import StreamLoom.Arithmetic.Basic
import StreamLoom.Arithmetic.Division
import StreamLoom.Arithmetic.Extended
import StreamLoom.Arithmetic.Interval
import StreamLoom.Command.Flag
import StreamLoom.Command.Session
import StreamLoom.Command.Verb
import StreamLoom.Compilation.Basic
import StreamLoom.Compilation.Topic
import StreamLoom.Cpp.Fragment
import StreamLoom.Cpp.Generation
import StreamLoom.Cpp.Operator
import StreamLoom.Cpp.Target
import StreamLoom.Decimal.Binary64
import StreamLoom.Decimal.Numeral
import StreamLoom.Decimal.Shortest
import StreamLoom.Failure
import StreamLoom.Fault
import StreamLoom.Files
import StreamLoom.Llvm.Assembly
import StreamLoom.Llvm.Generation
import StreamLoom.Llvm.Instruction
import StreamLoom.Llvm.Printer
import StreamLoom.Llvm.Target
import StreamLoom.Lowering.Listing
import StreamLoom.Lowering.Target
import StreamLoom.Lowering.Walk
import StreamLoom.Main
import StreamLoom.Model.Access
import StreamLoom.Model.Basic
import StreamLoom.Model.Build
import StreamLoom.Model.Computation
import StreamLoom.Model.Guard
import StreamLoom.Model.Printer
import StreamLoom.Nest.Basic
import StreamLoom.Nest.Execution
import StreamLoom.Nest.Expr
import StreamLoom.Nest.Generation
import StreamLoom.PointSet.Basic
import StreamLoom.PointSet.Guarded
import StreamLoom.Program.Basic
import StreamLoom.Program.Declaration
import StreamLoom.Program.Expr
import StreamLoom.Program.Op
import StreamLoom.Program.Read
import StreamLoom.Program.Resolution
import StreamLoom.Program.Typing
import StreamLoom.Program.ValueType
import StreamLoom.Program.Version
import StreamLoom.Relation.Basic
import StreamLoom.Relation.Guarded
import StreamLoom.Relation.Mapping
import StreamLoom.Relation.Union
import StreamLoom.Report
import StreamLoom.Schedule.Basic
import StreamLoom.Schedule.Delays
import StreamLoom.Schedule.Order
import StreamLoom.Schedule.Placement
import StreamLoom.Schedule.Problem
import StreamLoom.Schedule.Rates
import StreamLoom.Schedule.Solve
import StreamLoom.Schedule.Synthesis
import StreamLoom.Source.Atlas
import StreamLoom.Source.File
import StreamLoom.Storage.Allocation
import StreamLoom.Storage.Instance
import StreamLoom.Storage.Layout
import StreamLoom.Storage.Requirement
import StreamLoom.Term.Basic
import StreamLoom.Term.Lexer
import StreamLoom.Term.Parser
import StreamLoom.Terminal.Escape
import StreamLoom.Terminal.Table
import StreamLoom.Text.Blank
import StreamLoom.Text.Listing
import StreamLoom.Text.Utf8
import StreamLoom.Proofs.Affine.Solutions
import StreamLoom.Proofs.Affine.Tightening
import StreamLoom.Proofs.Affine.Elimination
import StreamLoom.Proofs.Affine.Bounds
import StreamLoom.Proofs.PointSet.Membership
import StreamLoom.Proofs.PointSet.Locals
import StreamLoom.Proofs.PointSet.Shadow
import StreamLoom.Proofs.Affine.Search
import StreamLoom.Proofs.PointSet.Emptiness
import StreamLoom.Proofs.Relation.Membership
import StreamLoom.Proofs.PointSet.Recession
import StreamLoom.Proofs.Relation.Algebra
import StreamLoom.Proofs.Relation.Mapping
import StreamLoom.Proofs.Model.Access
import StreamLoom.Proofs.Outcome
import StreamLoom.Proofs.Model.Build
import StreamLoom.Proofs.Model.Dependency
import StreamLoom.Proofs.Schedule.Rates
import StreamLoom.Proofs.Schedule.Solve
import StreamLoom.Proofs.Schedule.Placing
import StreamLoom.Proofs.Schedule.Synthesis
import StreamLoom.Proofs.Schedule.Consistency
import StreamLoom.Proofs.Schedule.Direction
import StreamLoom.Proofs.Schedule.Distance
import StreamLoom.Proofs.Schedule.Time
import StreamLoom.Proofs.Schedule.Causality
import StreamLoom.Proofs.Schedule.Soundness
import StreamLoom.Proofs.Schedule.Delays
import StreamLoom.Proofs.Schedule.Order
import StreamLoom.Proofs.Storage.Layout
import StreamLoom.Proofs.Storage.Window
import StreamLoom.Proofs.Program.Extents
import StreamLoom.Proofs.Storage.Buffers
import StreamLoom.Proofs.Storage.Allocation
import StreamLoom.Proofs.Storage.Crossing
import StreamLoom.Proofs.Storage.Length
import StreamLoom.Proofs.Storage.RoundTrip
import StreamLoom.Proofs.Nest.Expr
import StreamLoom.Proofs.Nest.Loops
import StreamLoom.Proofs.Nest.Member
import StreamLoom.Proofs.Nest.Phase
import StreamLoom.Proofs.Nest.Refinement
import StreamLoom.Proofs.Lowering.Machine
import StreamLoom.Proofs.Lowering.Offset
import StreamLoom.Proofs.Lowering.Run
import StreamLoom.Proofs.Lowering.Arrangement
import StreamLoom.Proofs.Model.Exactness
import StreamLoom.Proofs.Compilation.Stages
import StreamLoom.Proofs.Lowering.Reads
import StreamLoom.Proofs.Lowering.Start
import StreamLoom.Proofs.Schedule.Combined
import StreamLoom.Proofs.Model.Bounds
import StreamLoom.Proofs.Lowering.Position
import StreamLoom.Proofs.Lowering.Bounds
import StreamLoom.Proofs.Model.Pattern
import StreamLoom.Proofs.Model.Overlap
import StreamLoom.Proofs.Lowering.Window
import StreamLoom.Proofs.Lowering.Delivery
import StreamLoom.Proofs.Lowering.Stream
import StreamLoom.Proofs.Affine.Difference
import StreamLoom.Proofs.Arithmetic.Division
import StreamLoom.Proofs.Affine.Words
import StreamLoom.Proofs.Model.Words
import StreamLoom.Proofs.Program.Inference
import StreamLoom.Proofs.Program.Opening
import StreamLoom.Proofs.Lowering.Meaning
import StreamLoom.Proofs.Lowering.Evaluation
import StreamLoom.Proofs.Files
import StreamLoom.Proofs.Program.Imports
import StreamLoom.Proofs.PointSet.Enumeration
import StreamLoom.Proofs.Schedule.Balance
import StreamLoom.Proofs.Schedule.Alignment
import StreamLoom.Proofs.Lowering.Rotation
import StreamLoom.Proofs.Program.Folding
import StreamLoom.Proofs.Llvm.Arithmetic
import StreamLoom.Proofs.Llvm.Registers
import StreamLoom.Proofs.Llvm.Agreement
import StreamLoom.Proofs.Llvm.Construction
import StreamLoom.Proofs.Llvm.Steps
import StreamLoom.Proofs.Llvm.WellFormed
import StreamLoom.Proofs.Cpp.Drafting
import StreamLoom.Proofs.Cpp.Members
import StreamLoom.Proofs.Cpp.Types
import StreamLoom.Proofs.Model.Types
import StreamLoom.Proofs.Cpp.Calls
import StreamLoom.Proofs.Cpp.Extremes
import StreamLoom.Proofs.Affine.Building
import StreamLoom.Proofs.Term.RoundTrip
import StreamLoom.Proofs.Program.References
