import Bytecode.Verification.VerifyError

/-!
# Failures

What can go wrong with a method or a class: it cannot be stored, its bytes are no class file, or it is
refused by verification or inlining.
-/

namespace Bytecode

/-- Why something failed. -/
inductive Failure where
  /-- A file cannot be written. -/
  | unwritable
  | format (cause : FormatError)
  | verify (cause : VerifyError)
  deriving DecidableEq, Repr

/-- Text of a failure. -/
def Failure.message : Failure → String
  | .unwritable => "I/O error"
  | .format cause => s!"Malformed class file: {cause.message}"
  | .verify cause => cause.message

end Bytecode
