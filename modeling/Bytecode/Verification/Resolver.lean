import Bytecode.ClassFile.ConstantPool
import Bytecode.Verification.VerifyError

/-!
# Types behind constants

Instructions name classes, fields, methods and values by the index of a constant.  A `Resolver` gives the
types behind these indices; `ConstantPool.resolver` is the one of a constant pool.  A constant that does
not fit is found out only when an instruction that uses it is looked at.
-/

namespace Bytecode

/-- A method named by a constant. -/
structure ResolvedMethod where
  owner : RefType
  name : UnqualifiedName
  descriptor : MethodDescriptor
  deriving DecidableEq, Repr

/-- The types behind constant pool indices. -/
structure Resolver where
  /-- Type of the value that loading the constant pushes. -/
  loadable : UInt16 → Except VerifyFault VType
  classType : UInt16 → Except VerifyFault RefType
  field : UInt16 → Except VerifyFault FieldType
  method : UInt16 → Except VerifyFault ResolvedMethod
  /-- Parameters and result of a dynamic call. -/
  callSite : UInt16 → Except VerifyFault MethodDescriptor

namespace Resolver

/-- Take a malformed constant for a fault of the instruction that uses it. -/
def known {α : Type} : Except FormatError α → Except VerifyFault α :=
  Except.mapError fun cause => .badConstant (.malformed cause)

/-- Read a descriptor; a fault names the whole text. -/
def described {α : Type} (read : String → Except DescriptorError α) (text : String) :
    Except VerifyFault α :=
  (read text).mapError fun _ => .badDescriptor text

/-- Check the name of a method. -/
def named (text : String) : Except VerifyFault UnqualifiedName :=
  (UnqualifiedName.ofString text).mapError .badMethodName

end Resolver

namespace ConstantPool

open Resolver

def loadable (pool : ConstantPool) (index : UInt16) : Except VerifyFault VType :=
  match pool.get? index with
  | some (.integer _) => .ok .int
  | some (.float _) => .ok .float
  | some (.long _) => .ok .long
  | some (.double _) => .ok .double
  | some (.string _) => .ok (.ofClass .string)
  | some (.classInfo _) => .ok (.ofClass .classObject)
  | some (.methodHandle _ _) => .ok (.ofClass .methodHandle)
  | some (.methodType _) => .ok (.ofClass .methodType)
  | some (.dynamic _ signature) => do
    let (_, descriptor) ← known (pool.nameAndType signature)
    return .ofField (← described FieldType.ofDescriptor descriptor)
  | some other => .error (.badConstant (.notLoadable other.kind index))
  | none => .error (.badConstant (.missing index))

def classType (pool : ConstantPool) (index : UInt16) : Except VerifyFault RefType := do
  described RefType.ofConstantName (← known (pool.className index))

def fieldType (pool : ConstantPool) (index : UInt16) : Except VerifyFault FieldType := do
  described FieldType.ofDescriptor (← known (pool.fieldRef index)).descriptor

def resolvedMethod (pool : ConstantPool) (index : UInt16) : Except VerifyFault ResolvedMethod := do
  let member ← known (pool.methodRef index)
  let owner ← described RefType.ofConstantName member.owner
  let name ← named member.name
  let descriptor ← described MethodDescriptor.ofDescriptor member.descriptor
  return ⟨owner, name, descriptor⟩

def callSite (pool : ConstantPool) (index : UInt16) : Except VerifyFault MethodDescriptor :=
  match pool.get? index with
  | some (.invokeDynamic _ signature) => do
    let (_, descriptor) ← known (pool.nameAndType signature)
    described MethodDescriptor.ofDescriptor descriptor
  | _ => .error (.badConstant (.malformed (.badConstantIndex index .invokeDynamic)))

/-- The types behind the constants of a pool. -/
def resolver (pool : ConstantPool) : Resolver where
  loadable := pool.loadable
  classType := pool.classType
  field := pool.fieldType
  method := pool.resolvedMethod
  callSite := pool.callSite

end ConstantPool

end Bytecode
