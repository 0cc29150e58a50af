import ScriptCore.Code.Basic
import ScriptCore.Compile.Assignment
import ScriptCore.Compile.Call
import ScriptCore.Compile.Constant
import ScriptCore.Compile.Control
import ScriptCore.Compile.Error
import ScriptCore.Compile.Frame
import ScriptCore.Compile.Operand
import ScriptCore.Compile.Operators
import ScriptCore.Compile.Package
import ScriptCore.Compile.Place
import ScriptCore.Compile.Selection
import ScriptCore.Compile.State
import ScriptCore.Compile.StraightLine
import ScriptCore.Compile.Syntax
import ScriptCore.Compile.Types
import ScriptCore.Declaration.Basic
import ScriptCore.Declaration.Order
import ScriptCore.Declaration.Scope
import ScriptCore.Declaration.Uses
import ScriptCore.Graph.Components
import ScriptCore.Graph.Cycle
import ScriptCore.Machine.Basic
import ScriptCore.Machine.Cursor
import ScriptCore.Machine.Eval
import ScriptCore.Machine.Execute
import ScriptCore.Machine.Location
import ScriptCore.Names.SymbolTable
import ScriptCore.Number.Binary64
import ScriptCore.Number.Decimal
import ScriptCore.Proofs.Graph.Components
import ScriptCore.Proofs.Graph.Reachability
import ScriptCore.Registers.Expr
import ScriptCore.Registers.Instruction
import ScriptCore.Registers.Kind
import ScriptCore.Registers.Lowering
import ScriptCore.Registers.Stream
import ScriptCore.Session.Basic
import ScriptCore.Session.Printing
import ScriptCore.Session.Program
import ScriptCore.Syntax.Basic
import ScriptCore.Syntax.Numbering
import ScriptCore.Syntax.Trace
import ScriptCore.Syntax.Tree
import ScriptCore.Syntax.Walk
import ScriptCore.Text.Hidden
import ScriptCore.Text.Quoted
import ScriptCore.Text.Utf8
import ScriptCore.Types.Basic
import ScriptCore.Types.Descriptor
import ScriptCore.Types.Error
import ScriptCore.Types.Flags
import ScriptCore.Types.Kind
import ScriptCore.Types.Layout
import ScriptCore.Types.Signature
import ScriptCore.Types.Table
import ScriptCore.Types.Universe
import ScriptCore.Values.Basic
import ScriptCore.Values.Error
import ScriptCore.Values.Heap
import ScriptCore.Values.Key
import ScriptCore.Values.Operators
import ScriptCore.Values.Text
import ScriptCore.Proofs.Graph.Cycle
import ScriptCore.Proofs.Declaration.Dependency
import ScriptCore.Proofs.Declaration.InitCycle
import ScriptCore.Proofs.Declaration.Emission
import ScriptCore.Proofs.Declaration.Places
import ScriptCore.Proofs.Declaration.Restore
import ScriptCore.Proofs.Control.Elaborate
import ScriptCore.Proofs.Control.Placed
import ScriptCore.Proofs.Control.WellFormed
import ScriptCore.Proofs.Control.Walk
import ScriptCore.Proofs.Control.Simulation
import ScriptCore.Proofs.Control.Agreement
import ScriptCore.Proofs.Registers.Execution
import ScriptCore.Proofs.Registers.Values
import ScriptCore.Proofs.Straight.Folding
import ScriptCore.Proofs.Straight.Expression
import ScriptCore.Proofs.Straight.Variables
import ScriptCore.Proofs.Straight.Statement
import ScriptCore.Proofs.Straight.Return
import ScriptCore.Proofs.Declaration.Batches
import ScriptCore.Proofs.Graph.Sources
import ScriptCore.Proofs.Declaration.Sources
import ScriptCore.Proofs.Declaration.Loading
import ScriptCore.Proofs.Declaration.Entries
import ScriptCore.Proofs.Addressing.Parts
import ScriptCore.Proofs.Addressing.Scopes
import ScriptCore.Proofs.Addressing.Checked
import ScriptCore.Proofs.Addressing.Fits
import ScriptCore.Proofs.Addressing.Agrees
import ScriptCore.Proofs.Addressing.Terms
import ScriptCore.Proofs.Addressing.Operands
import ScriptCore.Proofs.Addressing.Statements
import ScriptCore.Proofs.Addressing.Landing
import ScriptCore.Proofs.Addressing.Elaboration
import ScriptCore.Proofs.Addressing.Declarations
import ScriptCore.Proofs.Addressing.Package
import ScriptCore.Proofs.Addressing.Contents
import ScriptCore.Proofs.Runs.Values
import ScriptCore.Proofs.Runs.Watched
import ScriptCore.Proofs.Runs.Sound
import ScriptCore.Proofs.Runs.Keeping
import ScriptCore.Proofs.Runs.Evaluation
import ScriptCore.Proofs.Runs.Execution
import ScriptCore.Proofs.Runs.Programs
import ScriptCore.Proofs.Runs.Initialization
import ScriptCore.Proofs.Runs.Hidden
import ScriptCore.Proofs.Runs.Sparing
import ScriptCore.Proofs.Runs.Ordered
import ScriptCore.Proofs.Types.Lockstep
import ScriptCore.Proofs.Types.Comparable
import ScriptCore.Proofs.Types.Steps
import ScriptCore.Proofs.Types.Identity
import ScriptCore.Proofs.Constants.Execution
import ScriptCore.Proofs.Number.Single
import ScriptCore.Proofs.Constants.Boxing
import ScriptCore.Proofs.Dependencies.Occurrences
import ScriptCore.Proofs.Dependencies.Regular
import ScriptCore.Proofs.Dependencies.Views
import ScriptCore.Proofs.Dependencies.Rules
import ScriptCore.Proofs.Dependencies.Bodies
import ScriptCore.Proofs.Dependencies.Syntax
import ScriptCore.Proofs.Dependencies.Declarations
import ScriptCore.Proofs.Straight.Routine
import ScriptCore.Proofs.Straight.Entry
import ScriptCore.Proofs.Straight.Function
import ScriptCore.Proofs.Straight.Agreement
import ScriptCore.Proofs.Assignment.Tables
import ScriptCore.Proofs.Assignment.Stable
import ScriptCore.Proofs.Assignment.Rules
import ScriptCore.Proofs.Assignment.Syntax
import ScriptCore.Proofs.Assignment.Reading
import ScriptCore.Proofs.Assignment.Update
import ScriptCore.Proofs.Assignment.Compound
import ScriptCore.Proofs.Assignment.Categories
import ScriptCore.Proofs.Assignment.Apart
import ScriptCore.Proofs.Assignment.Together
import ScriptCore.Proofs.Assignment.Staging
import ScriptCore.Proofs.Assignment.Grounded
import ScriptCore.Proofs.Assignment.Parallel
import ScriptCore.Proofs.Registers.Discipline
import ScriptCore.Proofs.Straight.Discipline
import ScriptCore.Proofs.Lowering.Steps
import ScriptCore.Proofs.Lowering.Syntax
import ScriptCore.Proofs.Lowering.Total
import ScriptCore.Proofs.Lowering.Unobserved
import ScriptCore.Proofs.Operands.Plans
import ScriptCore.Proofs.Operands.Made
import ScriptCore.Proofs.Operands.Rules
import ScriptCore.Proofs.Operands.Order
import ScriptCore.Proofs.Results.Written
import ScriptCore.Proofs.Results.Calls
import ScriptCore.Proofs.Results.Programs
import ScriptCore.Proofs.Registers.Encoding
import ScriptCore.Proofs.Types.Containment
import ScriptCore.Proofs.Types.Unfolding
import ScriptCore.Proofs.Types.Placement
import ScriptCore.Proofs.Types.Extent
import ScriptCore.Proofs.Types.Layouts
import ScriptCore.Proofs.Graph.Condensation
import ScriptCore.Proofs.Registers.Interpretation
import ScriptCore.Proofs.Registers.Refusal
import ScriptCore.Proofs.Values.Keys
import ScriptCore.Proofs.Locations.Cells
import ScriptCore.Proofs.Locations.Stores
import ScriptCore.Proofs.Values.Slices
import ScriptCore.Proofs.Declaration.Reassembly
import ScriptCore.Proofs.Scopes.Names
import ScriptCore.Proofs.Scopes.Lines
import ScriptCore.Proofs.Scopes.Blocks
import ScriptCore.Proofs.Scopes.Tables
import ScriptCore.Proofs.Scopes.Redeclared
import ScriptCore.Proofs.Scopes.Constants
import ScriptCore.Proofs.Constants.Names
import ScriptCore.Proofs.Constants.Blocks
import ScriptCore.Proofs.Number.Digits
import ScriptCore.Proofs.Values.Arithmetic
import ScriptCore.Proofs.Constants.Folding
import ScriptCore.Proofs.Number.Order
import ScriptCore.Proofs.Values.Maps
import ScriptCore.Proofs.Values.Printing
import ScriptCore.Proofs.Text.Decoding
import ScriptCore.Proofs.Values.Conversion
import ScriptCore.Proofs.Types.Satisfaction
import ScriptCore.Proofs.Runs.Counting
import ScriptCore.Proofs.Runs.Depth
import ScriptCore.Proofs.Syntax.Building
import ScriptCore.Proofs.Syntax.Numbered
import ScriptCore.Proofs.Names.Interning
import ScriptCore.Proofs.Names.Interning
import ScriptCore.Proofs.Graph.Shortest
