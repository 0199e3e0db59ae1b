import Bytecode.Verification.Frame
import Bytecode.Verification.Resolver

/-!
# Abstract execution

What an instruction does to a frame.  `Op.run` takes the operands of an operation off the stack, checks
their types and pushes the type of the result.  `Frame.execute` also notes which locals were accessed by
the active subroutines, and checks the height of the stack at the end.
-/

namespace Bytecode

/-- What an instruction needs to know of the method it is in. -/
structure ExecutionContext where
  /-- Position of the instruction. -/
  position : Nat
  maxStack : Nat
  thisClass : BinaryName
  returnType : Option FieldType
  constants : Resolver

/-- Changes to a frame that can fail. -/
abbrev Exec := StateT Frame (Except VerifyFault)

namespace Exec

/-- Fail because of the type of an operand. -/
def incompatible {α : Type} (expected : Expectation) (found : VType) : Exec α :=
  throw (.incompatibleType expected found)

/-! ## Operands -/

def push (t : VType) : Exec Unit := modify fun f => { f with stack := t :: f.stack }

/-- Push several values, the last of which ends on top. -/
def pushAll (ts : List VType) : Exec Unit := modify fun f => { f with stack := ts.reverse ++ f.stack }

def pop : Exec VType := do
  let f ← get
  match f.stack with
  | [] => throw .emptyStack
  | t :: stack =>
    set { f with stack }
    return t

/-- Pop a value of one word. -/
def popWord : Exec VType := do
  let t ← pop
  if width t ≠ 1 then throw .invalidWidth
  return t

/-- Pop a value of exactly this type. -/
def popExactly (expected : VType) : Exec Unit := do
  let found ← pop
  if found ≠ expected then incompatible (.exactly expected) found

def popReference : Exec Unit := do
  let found ← pop
  if !found.isReference then incompatible .reference found

/-- Pop `null` or an object whose constructor has run. -/
def popInitialized (expected : Expectation) : Exec Unit := do
  let found ← pop
  if !found.isInitialized then incompatible expected found

/-- Pop a value that can be assigned to a type. -/
def popAssignable (expected : VType) : Exec Unit := do
  let found ← pop
  if !found.assignable expected then incompatible (.exactly expected) found

/-- Pop the arguments of a call, the last parameter first. -/
def popArguments (parameters : List FieldType) : Exec Unit :=
  parameters.reverse.forM fun parameter => do
    let found ← pop
    let expected := VType.ofField parameter
    if !found.assignable expected then throw (.incompatibleArgument expected found)

def pushResult (returnType : Option FieldType) : Exec Unit :=
  match returnType with
  | none => pure ()
  | some t => push (.ofField t)

/-! ## Locals -/

def getLocal (index : UInt16) : Exec VType := do
  match (← get).locals[index.toNat]? with
  | some t => return t
  | none => throw (.invalidLocal index)

/-- Check that a local has exactly this type. -/
def checkLocal (index : UInt16) (expected : VType) : Exec Unit := do
  let found ← getLocal index
  if found ≠ expected then incompatible (.exactly expected) found

/-- Set a slot to `top` if another slot has a value of two words. -/
def clearIfWide (locals : List VType) (slot cleared : Nat) : List VType :=
  match locals[slot]? with
  | some t => if width t = 2 then locals.set cleared .top else locals
  | none => locals

/-- Write a value into the locals; values of two words that it overlaps with are given up. -/
def assigned (locals : List VType) (index : Nat) (t : VType) : List VType :=
  let locals := clearIfWide locals index (index + 1)
  let locals := if 0 < index then clearIfWide locals (index - 1) (index - 1) else locals
  let locals :=
    if width t = 2 then (clearIfWide locals (index + 1) (index + 2)).set (index + 1) .top else locals
  locals.set index t

def setLocal (index : UInt16) (t : VType) : Exec Unit := do
  let f ← get
  if f.locals.length < index.toNat + width t then throw (.invalidLocal index)
  set { f with locals := assigned f.locals index.toNat t }

/-- Once a constructor has run, all copies of the object are initialized. -/
def replaceAll (uninitialized initialized : VType) : Exec Unit :=
  let swap (t : VType) : VType := if t = uninitialized then initialized else t
  modify fun f => { f with locals := f.locals.map swap, stack := f.stack.map swap }

/-! ## Arrays -/

/-- Does an array instruction for `element` fit arrays with elements of this type? -/
def fits : FieldType → ArrayElement → Bool
  | .ref _, .reference => true
  | .base .int, .int => true
  | .base .long, .long => true
  | .base .float, .float => true
  | .base .double, .double => true
  | .base .byte, .byte => true
  | .base .boolean, .byte => true
  | .base .char, .char => true
  | .base .short, .short => true
  | _, _ => false

/-- Type of the elements of `null` taken for an array. -/
def nullElement : ArrayElement → VType
  | .reference => .null
  | .long => .long
  | .float => .float
  | .double => .double
  | .int | .byte | .char | .short => .int

/-- Check the array operand of an array instruction, giving the type of its elements. -/
def arrayElementType (array : VType) (element : ArrayElement) : Except VerifyFault VType :=
  match array with
  | .null => .ok (nullElement element)
  | .object type =>
    match type.elementType? with
    | some t =>
      if fits t element then .ok (.ofField t)
      else .error (.incompatibleType (.arrayOf element) array)
    | none => .error (.incompatibleType (.arrayOf element) array)
  | _ => .error (.incompatibleType (.arrayOf element) array)

/-- Can a value be stored where elements have a type?  References are not compared. -/
def storable (element value : VType) : Bool :=
  match element with
  | .null | .object _ => value.isInitialized
  | _ => element = value

/-! ## Moving words of the stack -/

/-- The values are popped one after the other, each `popWord` where the instruction would otherwise cut a
value in two. -/
def shuffle : Shuffle → Exec Unit
  | .pop => do
    let _ ← popWord
  | .pop2 => do
    let a ← pop
    if width a = 1 then
      let _ ← popWord
  | .dup => do
    let a ← popWord
    pushAll [a, a]
  | .dupX1 => do
    let a ← popWord
    let b ← popWord
    pushAll [a, b, a]
  | .dupX2 => do
    let a ← popWord
    let b ← pop
    if width b = 1 then
      let c ← popWord
      pushAll [a, c, b, a]
    else
      pushAll [a, b, a]
  | .dup2 => do
    let a ← pop
    if width a = 1 then
      let b ← popWord
      pushAll [b, a, b, a]
    else
      pushAll [a, a]
  | .dup2X1 => do
    let a ← pop
    let b ← popWord
    if width a = 1 then
      let c ← popWord
      pushAll [b, a, c, b, a]
    else
      pushAll [a, b, a]
  | .dup2X2 => do
    let a ← pop
    if width a = 1 then
      let b ← popWord
      let c ← pop
      if width c = 1 then
        let d ← popWord
        pushAll [b, a, d, c, b, a]
      else
        pushAll [b, a, c, b, a]
    else
      let b ← pop
      if width b = 1 then
        let c ← popWord
        pushAll [a, c, b, a]
      else
        pushAll [a, b, a]
  | .swap => do
    let a ← popWord
    let b ← popWord
    pushAll [a, b]

/-! ## Calls and returns -/

/-- Run the constructor of the object on top of the stack. -/
def construct (thisClass : BinaryName) : Exec Unit := do
  match ← pop with
  | .uninitializedThis => replaceAll .uninitializedThis (.ofClass thisClass)
  | .uninitialized position name => replaceAll (.uninitialized position name) (.ofClass name)
  | other => incompatible .uninitializedObject other

/-- Call a method: constructors only in their own way, others on an initialized receiver. -/
def invoke (context : ExecutionContext) (kind : InvokeKind) (index : UInt16) : Exec Unit := do
  let method ← context.constants.method index
  popArguments method.descriptor.parameters
  if method.name = .init then
    if kind ≠ .special ∨ method.descriptor.returnType.isSome then
      throw (.badConstant (.constructorCall index))
    construct context.thisClass
  else
    if kind ≠ .static then popInitialized (.receiver method.owner)
    pushResult method.descriptor.returnType

/-- Return a value: it must fit the result of the method, and both must be references or neither. -/
def returnValue (context : ExecutionContext) (type : LocalType) : Exec Unit := do
  match context.returnType with
  | none => throw .badReturn
  | some returnType =>
    let expected := VType.ofField returnType
    let found ← pop
    if (type == .reference) ≠ expected.isReference ∨ !found.assignable expected then
      throw .badReturn

end Exec

open Exec in
/-- What an operation does to the operands and locals. -/
def Op.run (op : Op) (context : ExecutionContext) : Exec Unit := do
  match op with
  | .nop => pure ()
  | .pushNull => push .null
  | .const type => push (.ofNumeric type)
  | .ldc index =>
    let t ← context.constants.loadable index
    if width t ≠ 1 then throw (.badConstant (.twoWords index))
    push t
  | .ldc2 index =>
    let t ← context.constants.loadable index
    if width t ≠ 2 then throw (.badConstant (.oneWord index))
    push t
  | .load .reference index =>
    let t ← getLocal index
    if !t.isReference then incompatible .reference t
    push t
  | .load (.numeric type) index =>
    checkLocal index (.ofNumeric type)
    push (.ofNumeric type)
  | .store .reference index =>
    let t ← pop
    match t with
    | .returnAddress new =>
      match (← get).locals[index.toNat]? with
      | some (.returnAddress old) => if old ≠ new then throw .subroutineMerge
      | _ => pure ()
    | _ => if !t.isReference then incompatible .referenceOrReturnAddress t
    setLocal index t
  | .store (.numeric type) index =>
    popExactly (.ofNumeric type)
    setLocal index (.ofNumeric type)
  | .arrayLoad element =>
    popExactly .int
    push (← arrayElementType (← pop) element)
  | .arrayStore element =>
    let value ← pop
    popExactly .int
    let t ← arrayElementType (← pop) element
    if !storable t value then incompatible (.exactly t) value
  | .shuffle how => Exec.shuffle how
  | .arithmetic type =>
    popExactly (.ofNumeric type)
    popExactly (.ofNumeric type)
    push (.ofNumeric type)
  | .negate type =>
    popExactly (.ofNumeric type)
    push (.ofNumeric type)
  | .shift type =>
    popExactly .int
    popExactly (.ofNumeric type)
    push (.ofNumeric type)
  | .increment index _ => checkLocal index .int
  | .convert source target =>
    popExactly (.ofNumeric source)
    push (.ofNumeric target)
  | .compare type =>
    popExactly (.ofNumeric type)
    popExactly (.ofNumeric type)
    push .int
  | .leave none => if context.returnType.isSome then throw .badReturn
  | .leave (some type) => returnValue context type
  | .throwException =>
    popInitialized .throwable
    modify fun f => { f with stack := [] }
  | .getStatic index => push (.ofField (← context.constants.field index))
  | .putStatic index => popAssignable (.ofField (← context.constants.field index))
  | .getField index =>
    let t ← context.constants.field index
    popInitialized .object
    push (.ofField t)
  | .putField index =>
    let t ← context.constants.field index
    popAssignable (.ofField t)
    -- a constructor may set its own fields before it calls another constructor
    let object ← pop
    if !object.isInitialized ∧ object ≠ .uninitializedThis then incompatible .object object
  | .invoke kind index => Exec.invoke context kind index
  | .invokeDynamic index =>
    let descriptor ← context.constants.callSite index
    popArguments descriptor.parameters
    pushResult descriptor.returnType
  | .newObject index =>
    match ← context.constants.classType index with
    | .object name => push (.uninitialized context.position name)
    | array => throw (.badConstant (.newOfArray array))
  | .newArray element =>
    popExactly .int
    push (.object (.arrayOf (.base element)))
  | .newRefArray index =>
    let element ← context.constants.classType index
    popExactly .int
    push (.object (.arrayOf (.ref element)))
  | .newMultiArray index dimensions =>
    let array ← context.constants.classType index
    if dimensions = 0 ∨ array.dimensions < dimensions.toNat then
      throw (.badConstant (.dimensions dimensions array))
    (List.range dimensions.toNat).forM fun _ => popExactly .int
    push (.object array)
  | .arrayLength =>
    match ← pop with
    | .null | .object (.array _ _) => push .int
    | other => incompatible .array other
  | .checkCast index =>
    let type ← context.constants.classType index
    popInitialized .object
    push (.object type)
  | .instanceOf index =>
    let _ ← context.constants.classType index
    popInitialized .object
    push .int
  | .monitorEnter | .monitorExit => popInitialized .object

/-- The locals that an operation reads or writes. -/
def Op.slots : Op → List Nat
  | .load (.numeric type) index | .store (.numeric type) index =>
    List.range' index.toNat (width (VType.ofNumeric type))
  | .load .reference index | .store .reference index | .increment index _ => [index.toNat]
  | _ => []

namespace Frame

/-- Run an operation: the accesses are noted once it has gone through, even if the stack is then too
high. -/
def execute (f : Frame) (op : Op) (context : ExecutionContext) (registry : Registry) :
    Registry × Except VerifyFault Frame :=
  match (op.run context).run f with
  | .error fault => (registry, .error fault)
  | .ok (_, f') => (registry.charge f.nesting op.slots, f'.checkHeight context.maxStack)

/-- What a branch pops. -/
def executeBranch (f : Frame) (kind : BranchKind) : Except VerifyFault Frame :=
  let pops : Exec Unit := do
    match kind with
    | .ifInt => Exec.popExactly .int
    | .ifIntCompare =>
      Exec.popExactly .int
      Exec.popExactly .int
    | .ifRefCompare =>
      Exec.popReference
      Exec.popReference
    | .ifNull => Exec.popReference
    | .goto => pure ()
  Prod.snd <$> pops.run f

/-- What a switch pops. -/
def executeSelect (f : Frame) : Except VerifyFault Frame :=
  Prod.snd <$> (Exec.popExactly .int).run f

end Frame

end Bytecode
