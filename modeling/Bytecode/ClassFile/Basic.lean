import Bytecode.ClassFile.Attribute

/-!
# Class files

A class file: version, constant pool, flags, names, members and attributes, with their encoding.  Bits of
flags and attributes that mean nothing here are kept as they are.
-/

namespace Bytecode

/-- A field or a method. -/
structure Member where
  accessFlags : UInt16
  nameIndex : ConstantIndex
  descriptorIndex : ConstantIndex
  attributes : List Attribute
  deriving DecidableEq, Repr

instance : Serial Member where
  write m :=
    write m.accessFlags ++ write m.nameIndex ++ write m.descriptorIndex ++ write m.attributes
  read := return ⟨← read, ← read, ← read, ← read⟩

namespace Member

/-- Flag of methods without a receiver. -/
def staticFlag : UInt16 := 0x0008

/-- All flags that methods have. -/
def methodFlagMask : UInt16 := 0x1DFF

/-- The access flags that are known for methods. -/
def methodFlags (m : Member) : UInt16 := m.accessFlags &&& methodFlagMask

def isStatic (m : Member) : Bool := m.methodFlags &&& staticFlag != 0

def name (m : Member) (pool : ConstantPool) : Except FormatError String := pool.utf8 m.nameIndex

def descriptor (m : Member) (pool : ConstantPool) : Except FormatError String :=
  pool.utf8 m.descriptorIndex

/-- Place of the first attribute with code. -/
def codeAttribute? (m : Member) (pool : ConstantPool) : Option Nat :=
  m.attributes.findIdx? fun a => a.isNamed (attributeName Code) pool

/-- Body of a method, if it has one. -/
def code? (m : Member) (pool : ConstantPool) : Except FormatError (Option Code) :=
  match m.attributes.find? fun a => a.isNamed (attributeName Code) pool with
  | none => .ok none
  | some a => (a.decode Code).map some

/-- Replace the body of a method in place, or add one at the end. -/
def replaceCode (m : Member) (code : Code) : StateM ConstantPool Member := do
  let encoded ← Attribute.encode code
  let pool ← get
  match m.codeAttribute? pool with
  | some place => return { m with attributes := m.attributes.set place encoded }
  | none => return { m with attributes := m.attributes ++ [encoded] }

end Member

/-- Version of the class file format. -/
structure Version where
  major : UInt16
  minor : UInt16
  deriving DecidableEq, Repr

namespace Version

/-- First version that comes with types at branch targets. -/
def java6 : Version := ⟨50, 0⟩

/-- Versions are ordered by their major, then by their minor number. -/
def atLeast (v w : Version) : Bool := w.major < v.major || (w.major == v.major && w.minor ≤ v.minor)

end Version

/-- A class file. -/
structure ClassFile where
  version : Version
  constants : ConstantPool
  accessFlags : UInt16
  thisClass : ConstantIndex
  superClass : ConstantIndex
  interfaces : List ConstantIndex
  fields : List Member
  methods : List Member
  attributes : List Attribute

namespace ClassFile

/-- The first bytes of every class file. -/
def magic : UInt32 := 0xCAFEBABE

/-- Binary name of the class. -/
def name (c : ClassFile) : Except FormatError String := c.constants.className c.thisClass

instance : Serial ClassFile where
  write c :=
    write magic ++ write c.version.minor ++ write c.version.major ++ write c.constants ++
      write c.accessFlags ++ write c.thisClass ++ write c.superClass ++ write c.interfaces ++
      write c.fields ++ write c.methods ++ write c.attributes
  read := do
    let found : UInt32 ← read
    if found != magic then
      throw (.badMagic found)
    let minor ← read
    let major ← read
    return ⟨⟨major, minor⟩, ← read, ← read, ← read, ← read, ← read, ← read, ← read, ← read⟩

/-- Read a class file; bytes after it are ignored. -/
def ofBytes (bytes : List UInt8) : Except FormatError ClassFile :=
  (·.1) <$> (read : Reader ClassFile).on bytes

def toBytes (c : ClassFile) : List UInt8 := write c

/-- Class, name and descriptor of a method, as far as they can be read. -/
def describeMethod (c : ClassFile) (index : Nat) : String :=
  let orElse (text : Except FormatError String) (otherwise : String) : String :=
    match text with
    | .ok text => text
    | .error _ => otherwise
  let owner := orElse c.name "<unknown class>"
  match c.methods[index]? with
  | some m =>
    let name := orElse (m.name c.constants) "<unknown method>"
    let descriptor := orElse (m.descriptor c.constants) ""
    s!"{owner}.{name}{descriptor}"
  | none => s!"{owner}.<method #{index}>"

end ClassFile

end Bytecode
