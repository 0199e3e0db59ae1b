import Bytecode.Binary.BigEndian
import Bytecode.Binary.ModifiedUtf8
import Bytecode.Body
import Bytecode.ClassFile.Attribute
import Bytecode.ClassFile.Basic
import Bytecode.ClassFile.Constant
import Bytecode.ClassFile.ConstantPool
import Bytecode.ClassFile.FormatError
import Bytecode.CommandLine
import Bytecode.Conversion.Basic
import Bytecode.Conversion.File
import Bytecode.Descriptor.Basic
import Bytecode.Descriptor.Parser
import Bytecode.Event
import Bytecode.Failure
import Bytecode.FileTree
import Bytecode.Hex
import Bytecode.Inlining.Basic
import Bytecode.Inlining.Call
import Bytecode.Inlining.Expansion
import Bytecode.Inlining.Layout
import Bytecode.Instruction.Basic
import Bytecode.Instruction.Op
import Bytecode.Instruction.Opcode
import Bytecode.Instruction.Relocation
import Bytecode.Main
import Bytecode.Name
import Bytecode.PositionMap
import Bytecode.Proofs.DecodedBody
import Bytecode.Proofs.Decoding
import Bytecode.Proofs.Outcomes
import Bytecode.Tiling
import Bytecode.Verification.Execution
import Bytecode.Verification.Frame
import Bytecode.Verification.Inference
import Bytecode.Verification.Method
import Bytecode.Verification.Policy
import Bytecode.Verification.Progress
import Bytecode.Verification.Resolver
import Bytecode.Verification.Session
import Bytecode.Verification.Subroutine
import Bytecode.Verification.VType
import Bytecode.Verification.VerifyError
import Bytecode.Word
import Bytecode.Proofs.Copies
import Bytecode.Proofs.Placement
import Bytecode.Proofs.Effects
import Bytecode.Proofs.TypeOrder
import Bytecode.Proofs.Growth
import Bytecode.Proofs.Exploration
import Bytecode.Proofs.Fixpoint
import Bytecode.Proofs.FallThrough
import Bytecode.Proofs.Encoding
import Bytecode.Proofs.Emission
import Bytecode.Proofs.Transfers
import Bytecode.Proofs.Simulation
import Bytecode.Proofs.ReturnEdges
import Bytecode.Proofs.Typing
import Bytecode.Proofs.Acceptance
import Bytecode.Proofs.DecodedCopies
import Bytecode.Proofs.ExceptionRanges
import Bytecode.Proofs.Reverification
import Bytecode.Proofs.Closure
import Bytecode.Proofs.Protection
import Bytecode.Proofs.InliningOutcome
import Bytecode.Proofs.Accesses
import Bytecode.Proofs.NestedCalls
import Bytecode.Proofs.RegularFrames
import Bytecode.Proofs.RegularSessions
import Bytecode.Proofs.Accounts
import Bytecode.Proofs.ReturnBindings
import Bytecode.Proofs.Termination
import Bytecode.Proofs.Recording
import Bytecode.Proofs.ClassReading
import Bytecode.Proofs.ClassConversion
import Bytecode.Proofs.ModifiedUtf8
import Bytecode.Proofs.RoundTrip
import Bytecode.Proofs.MethodByMethod
import Bytecode.Proofs.Limits
import Bytecode.Proofs.SubroutineRemoval
import Bytecode.Proofs.Reencoding
import Bytecode.Proofs.PlainCode
import Bytecode.Proofs.MonotoneExecution
import Bytecode.Proofs.ChangedLocals
import Bytecode.Proofs.NewObjects
import Bytecode.Proofs.ObjectNumbers
import Bytecode.Proofs.FileContents
import Bytecode.Proofs.CommandRuns
import Bytecode.Proofs.EncodedLength
import Bytecode.Proofs.ExactTiling
import Bytecode.Proofs.EmittedCode
import Bytecode.Proofs.Dispatch
import Bytecode.Proofs.Relocations
import Bytecode.Proofs.ArrivalOrder
import Bytecode.Proofs.Merging
import Bytecode.Proofs.OperandKinds
import Bytecode.Proofs.SubroutineBoundary
import Bytecode.Proofs.StackWords
import Bytecode.Proofs.TableBounds
import Bytecode.Proofs.DebugTables
import Bytecode.Proofs.Worklist
import Bytecode.Proofs.Faults
import Bytecode.Proofs.Consistency
import Bytecode.Proofs.Descriptors
import Bytecode.Proofs.TilingEdits
import Bytecode.Proofs.Interning
import Bytecode.Proofs.Duplication
import Bytecode.Proofs.LastLooks
import Bytecode.Proofs.ReturnStores
