import Javelet.Command.Memory
import Javelet.Compile
import Javelet.Diagnostic.Report
import Javelet.Lowering.Session
import Javelet.Main
import Javelet.Proofs.Lowering.CodeBlocks
import Javelet.Proofs.Preservation.Method
import Javelet.Proofs.Lowering.Visits
import Javelet.Proofs.Scope.Visits
import Javelet.Proofs.Token.RoundTrip
import Javelet.Syntax.Printer
import Javelet.Proofs.Scope.Chain
import Javelet.Proofs.Scope.Faultless
import Javelet.Proofs.Scope.Finished
import Javelet.Proofs.Lowering.Coupling
import Javelet.Proofs.Lowering.Tours
import Javelet.Proofs.Lowering.Traced
import Javelet.Proofs.Lowering.Entities
import Javelet.Proofs.Scope.Slots
import Javelet.Proofs.Grammar.Receivers
import Javelet.Proofs.Lowering.Slots
import Javelet.Proofs.Types.Lookups
import Javelet.Proofs.Types.Collecting
import Javelet.Proofs.Types.Faultless
import Javelet.Proofs.Lowering.References
import Javelet.Proofs.Types.Declared
import Javelet.Proofs.Types.Inheritance
import Javelet.Proofs.Phrases.Switches
import Javelet.Proofs.Lowering.Sections
import Javelet.Proofs.Lowering.Conformance
import Javelet.Proofs.Lowering.Order
import Javelet.Proofs.Lowering.FallThrough
import Javelet.Proofs.Phrases.Read.Declaration
import Javelet.Proofs.Lowering.Gate
import Javelet.Proofs.Positions.Layout
import Javelet.Proofs.Lowering.Initialized
import Javelet.Proofs.Lowering.Sinks
import Javelet.Proofs.Types.Rules
import Javelet.Proofs.Types.Members
import Javelet.Proofs.Lowering.Definitions
import Javelet.Proofs.Lowering.Text
import Javelet.Proofs.Types.Assignability
import Javelet.Proofs.Types.Overloads
import Javelet.Proofs.Assembly.Kinds
import Javelet.Proofs.Lowering.Kinds
import Javelet.Proofs.Lowering.Storages
import Javelet.Proofs.Assembly.Operands
import Javelet.Proofs.Lowering.Constants
import Javelet.Proofs.Lowering.Operands
import Javelet.Proofs.Scope.Redeclarations
import Javelet.Proofs.Scope.Inherited
import Javelet.Proofs.Execution.Machine
import Javelet.Proofs.Execution.Compound
import Javelet.Proofs.Source.Spans
import Javelet.Proofs.Grammar.IntegerValues
import Javelet.Proofs.Phrases.Printed
import Javelet.Proofs.Token.Lines
import Javelet.Proofs.Diagnostic.Carets
import Javelet.Proofs.Assembly.Quotations
import Javelet.Proofs.Assembly.HighWater
import Javelet.Proofs.Types.Climbs
import Javelet.Proofs.Scope.Histories
import Javelet.Proofs.Progress.Calls
