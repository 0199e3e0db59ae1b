import Bytecode.Failure
import Bytecode.Inlining.Layout

/-!
# Inlining of subroutines

`Verified.inline` makes the code of a verified method anew, without `jsr` and `ret`.  Code that is never
reached is dropped.  The tables of positions are made anew under their names, the table of stack maps is
dropped, and all other attributes stay.
-/

namespace Bytecode

namespace Layout

/-- The attributes of the new code. -/
def attributes (l : Layout) (pool : ConstantPool) (old : List Attribute) :
    Except FormatError (List Attribute) :=
  List.flatten <$> old.mapM fun a =>
    if a.isNamed (attributeName LineNumberTable) pool then do
      return [a.withContents (l.lineNumbers (← a.decode LineNumberTable))]
    else if a.isNamed (attributeName LocalVariableTable) pool then do
      let table ← a.decode LocalVariableTable
      return [a.withContents (⟨l.localVariables table.entries⟩ : LocalVariableTable)]
    else if a.isNamed (attributeName LocalVariableTypeTable) pool then do
      let table ← a.decode LocalVariableTypeTable
      return [a.withContents (⟨l.localVariables table.entries⟩ : LocalVariableTypeTable)]
    else if a.isNamed Code.stackMapTable pool then .ok []
    else .ok [a]

/-- The new body of a method. -/
def code (l : Layout) (old : Code) (pool : ConstantPool) : Except Failure Code := do
  let bytes ← (l.emit old.bytes).mapError .verify
  let attributes ← (l.attributes pool old.attributes).mapError .format
  return { old with bytes, exceptionTable := l.exceptionTable old.exceptionTable, attributes }

end Layout

namespace Verified

/-- Copy the reachable code of a method, and lay out the copies. -/
def layout (v : Verified) : Except VerifyError Layout := do
  let expansion ← (Expansion.ofCopies v.body.codeLength v.copies).bindReturns v
  Layout.ofExpansion expansion

/-- Inline the subroutines of a method.  What happens is only told when it is recorded. -/
def inlineTraced (v : Verified) (recording : Bool) (code : Code) (pool : ConstantPool) :
    Traced (Except Failure Code) :=
  match v.layout with
  | .error e => ⟨.error (.verify e), []⟩
  | .ok layout => ⟨layout.code code pool, if recording then layout.listing else []⟩

/-- Inline the subroutines of a method. -/
def inline (v : Verified) (code : Code) (pool : ConstantPool) : Except Failure Code :=
  (v.inlineTraced false code pool).value

end Verified

end Bytecode
