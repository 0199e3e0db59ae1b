import Bytecode.ClassFile.Constant

/-!
# The constant pool

Constants are numbered from one, and eight-byte constants take two numbers, so the pool is a tiling that
starts at one.  `intern` finds a constant that is already there or adds it at the end; the lookups follow
the references between constants.
-/

namespace Bytecode

/-- The constants of a class. -/
structure ConstantPool where
  constants : Tiling Constant

/-- Owner, name and descriptor of a field or method. -/
structure MemberRef where
  owner : String
  name : String
  descriptor : String
  deriving DecidableEq, Repr

namespace ConstantPool

/-- The pool with no constant. -/
def empty : ConstantPool := ⟨Tiling.empty 1⟩

instance : Inhabited ConstantPool := ⟨empty⟩

/-- Constant with an index. -/
def get? (pool : ConstantPool) (index : ConstantIndex) : Option Constant :=
  (pool.constants.locate index.toNat).item?

/-- The constants, each with its index. -/
def toList (pool : ConstantPool) : List (ConstantIndex × Constant) :=
  pool.constants.toList.map fun (offset, constant) => (UInt16.ofNat offset, constant)

/-- Text of a `Utf8` constant. -/
def utf8 (pool : ConstantPool) (index : ConstantIndex) : Except FormatError String :=
  match pool.get? index with
  | some (.utf8 text) => .ok text
  | _ => .error (.badConstantIndex index .utf8)

/-- Name in a `Class` constant. -/
def className (pool : ConstantPool) (index : ConstantIndex) : Except FormatError String :=
  match pool.get? index with
  | some (.classInfo name) => pool.utf8 name
  | _ => .error (.badConstantIndex index .classInfo)

/-- Name and descriptor in a `NameAndType` constant. -/
def nameAndType (pool : ConstantPool) (index : ConstantIndex) : Except FormatError (String × String) :=
  match pool.get? index with
  | some (.nameAndType name descriptor) => do return (← pool.utf8 name, ← pool.utf8 descriptor)
  | _ => .error (.badConstantIndex index .nameAndType)

/-- Resolve the owner, then the name and descriptor. -/
def memberRef (pool : ConstantPool) (owner nameAndType : ConstantIndex) :
    Except FormatError MemberRef := do
  let owner ← pool.className owner
  let (name, descriptor) ← pool.nameAndType nameAndType
  return ⟨owner, name, descriptor⟩

/-- Field named by a `Fieldref` constant. -/
def fieldRef (pool : ConstantPool) (index : ConstantIndex) : Except FormatError MemberRef :=
  match pool.get? index with
  | some (.field owner nameAndType) => pool.memberRef owner nameAndType
  | _ => .error (.badConstantIndex index .field)

/-- Method named by a `Methodref` or `InterfaceMethodref` constant. -/
def methodRef (pool : ConstantPool) (index : ConstantIndex) : Except FormatError MemberRef :=
  match pool.get? index with
  | some (.method owner nameAndType _) => pool.memberRef owner nameAndType
  | _ => .error (.badConstantIndex index .method)

/-- Find a constant that is already in the pool, or add it, and give its index. -/
def intern (constant : Constant) : StateM ConstantPool ConstantIndex := fun pool =>
  match pool.constants.tiles.find? fun tile => tile.2.same constant with
  | some (offset, _) => (UInt16.ofNat offset, pool)
  | none => (UInt16.ofNat pool.constants.stop, ⟨pool.constants.push constant⟩)

def internUtf8 (text : String) : StateM ConstantPool ConstantIndex := intern (.utf8 text)

def internClass (name : String) : StateM ConstantPool ConstantIndex := do
  intern (.classInfo (← internUtf8 name))

def internString (text : String) : StateM ConstantPool ConstantIndex := do
  intern (.string (← internUtf8 text))

def internNameAndType (name descriptor : String) : StateM ConstantPool ConstantIndex := do
  let name ← internUtf8 name
  let descriptor ← internUtf8 descriptor
  intern (.nameAndType name descriptor)

def internField (owner name descriptor : String) : StateM ConstantPool ConstantIndex := do
  let owner ← internClass owner
  let nameAndType ← internNameAndType name descriptor
  intern (.field owner nameAndType)

def internMethod (owner name descriptor : String) (ofInterface : Bool) :
    StateM ConstantPool ConstantIndex := do
  let owner ← internClass owner
  let nameAndType ← internNameAndType name descriptor
  intern (.method owner nameAndType ofInterface)

/-- Read constants until they take up all indices below `count`. -/
def readUpTo (count : UInt16) (constants : Tiling Constant) (input : List UInt8) :
    Except FormatError (Tiling Constant × List UInt8) :=
  if constants.stop < count.toNat then
    match (Constant.readAt (UInt16.ofNat constants.stop)).on input with
    | .error e => .error e
    | .ok (constant, rest) => readUpTo count (constants.push constant) rest
  else .ok (constants, input)
termination_by count.toNat - constants.stop
decreasing_by
  have hpos := Constant.width_pos constant
  have hle := Constant.width_le constant
  have hcount := count.toNat_lt
  rw [Tiling.stop_push_of_lt constants constant (by omega)]
  omega

/-- The pool is written after the first index that it does not use. -/
instance : Serial ConstantPool where
  write pool := write (UInt16.ofNat pool.constants.stop) ++ pool.constants.items.flatMap Constant.bytes
  read := do
    let count : UInt16 ← read
    let constants ← (readUpTo count (Tiling.empty 1) : Reader (Tiling Constant))
    return ⟨constants⟩

end ConstantPool

end Bytecode
