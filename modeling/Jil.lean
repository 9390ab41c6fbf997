import Jil.Main
import Jil.Pseudo.Effect
import Jil.Ty.Catalog
import Jil.Proofs.Arguments
import Jil.Proofs.Computing
import Jil.Proofs.EdgeCopies
import Jil.Proofs.FieldAccess
import Jil.Proofs.FixedRegisters
import Jil.Proofs.FrameDiscipline
import Jil.Proofs.MemberLayout
import Jil.Proofs.Interference
import Jil.Proofs.Promises
import Jil.Proofs.Simulation
import Jil.Proofs.StaticBlock
import Jil.Proofs.Operands
import Jil.Proofs.StatementText
import Jil.Proofs.Declarations
import Jil.Proofs.UnitText
import Jil.Proofs.StatementReading
import Jil.Proofs.UnitReading
import Jil.Proofs.Encoding
import Jil.Proofs.RegularCode
import Jil.Proofs.EncodableText
import Jil.Proofs.Symbols
import Jil.Proofs.References
import Jil.Proofs.DefinedNames
import Jil.Proofs.NameFamilies
import Jil.Proofs.Linkage
import Jil.Proofs.SparedNumbers
import Jil.Proofs.ParameterBinding
import Jil.Proofs.FloatingCalls
import Jil.Proofs.CommonSupertype
import Jil.Proofs.MemberLookup
import Jil.Proofs.TextOrder
import Jil.Proofs.Building
import Jil.Proofs.IndexFreshness
import Jil.Proofs.Footprint
import Jil.Proofs.FunctionOrder
import Jil.Proofs.Conservation
import Jil.Proofs.UnstoredLocals
import Jil.Proofs.ClosedLifetimes
import Jil.Proofs.IntegerLiterals
import Jil.Proofs.SessionStatistics
import Jil.Proofs.QuotedConstants
import Jil.Proofs.Reported
