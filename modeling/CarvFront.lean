import CarvFront.FrontEnd
import CarvFront.Proofs.Snapshots
import CarvFront.Proofs.Congruence
import CarvFront.Proofs.Frames
import CarvFront.Proofs.Simulation
import CarvFront.Proofs.Bindings
import CarvFront.Proofs.Rendering
import CarvFront.Proofs.Precedence
import CarvFront.Proofs.RoundTrip
import CarvFront.Proofs.TokenTrees
import CarvFront.Proofs.Nesting
import CarvFront.Proofs.WholeTexts
import CarvFront.Proofs.Writing
import CarvFront.Proofs.Deriving
import CarvFront.Proofs.Soundness
import CarvFront.Proofs.Precision
import CarvFront.Proofs.StatePrecision
import CarvFront.Proofs.Loosening
import CarvFront.Proofs.Refinement
import CarvFront.Proofs.GradualGuarantee
import CarvFront.Proofs.Advice
import CarvFront.Proofs.TypeOrder
import CarvFront.Proofs.Implementations
import CarvFront.Proofs.Lending
import CarvFront.Proofs.Lexemes
import CarvFront.Proofs.Positions
import CarvFront.Proofs.Outline
import CarvFront.Proofs.Yielding
import CarvFront.Proofs.ExpressionSpans
import CarvFront.Proofs.Spans
import CarvFront.Proofs.Visits
import CarvFront.Proofs.InStep
import CarvFront.Proofs.Independence
import CarvFront.Proofs.Declarations
import CarvFront.Proofs.DeclarationOrder
import CarvFront.Proofs.Occurrences
import CarvFront.Proofs.Desugaring
import CarvFront.Proofs.Causes
import CarvFront.Proofs.Placement
import CarvFront.Proofs.LiveBorrows
import CarvFront.Proofs.Paths
import CarvFront.Proofs.Budget
import CarvFront.Proofs.Heights
import CarvFront.Proofs.DepthLimit
import CarvFront.Proofs.MethodSets
import CarvFront.Proofs.Recording
import CarvFront.Proofs.Marks
import CarvFront.Proofs.MarkedTrees
import CarvFront.Proofs.Telling
import CarvFront.Proofs.UnknownNames
import CarvFront.Proofs.NestedTypes
import CarvFront.Proofs.NominalTypes
import CarvFront.Proofs.KnownTypes
import CarvFront.Proofs.RegisteredTypes
import CarvFront.Proofs.TypeTokens
import CarvFront.Proofs.TypeRoundTrip
import CarvFront.Proofs.KindsOnly
import CarvFront.Proofs.TextOnly
import CarvFront.Proofs.ReferenceTypes
import CarvFront.Proofs.ScanEnd
import CarvFront.Proofs.Laws
import CarvFront.Proofs.LawfulGrammar
import CarvFront.Proofs.Passing
import CarvFront.Proofs.Progress
import CarvFront.Proofs.Locality
import CarvFront.Proofs.CleanCode
import CarvFront.Proofs.Recovery
import CarvFront.Proofs.LostBrace
import CarvFront.Proofs.Scripts
import CarvFront.Proofs.Balance
import CarvFront.Proofs.ExpressionHeight
import CarvFront.Proofs.Reporting
import CarvFront.Proofs.TruncatedLogs
import CarvFront.Proofs.Reports
import CarvFront.Proofs.SpanOrder
import CarvFront.Proofs.GrowingTables
import CarvFront.Proofs.TrackedValues
import CarvFront.Proofs.CompoundAssignment
import CarvFront.Proofs.Provenance
