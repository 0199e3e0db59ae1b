import Bytecode.Event
import Bytecode.Inlining.Expansion

/-!
# Layout of inlined code

The copies are laid end to end, each with the size it has at its place.  Copies that are left out have no
size, so they share the position of the next one.
-/

namespace Bytecode

/-- Copies with their new positions. -/
structure Layout where
  expansion : Expansion
  /-- Position of the copy with each number. -/
  positions : Array Nat
  /-- Number of bytes of the new code. -/
  size : Nat

namespace Layout

/-- Longest code that a method can have. -/
def maxCodeLength : Nat := 65535

/-- Lay copies end to end from a position on, behind the positions already known. -/
def placeFrom (positions : Array Nat) (position : Nat) : List Copy → Array Nat × Nat
  | [] => (positions, position)
  | c :: rest => placeFrom (positions.push position) (position + c.sizeAt position) rest

/-- Lay out all copies. -/
def ofExpansion (e : Expansion) : Except VerifyError Layout :=
  let (positions, size) := placeFrom #[] 0 e.copies.toList
  if maxCodeLength < size then .error (.nowhere (.codeTooLarge size))
  else .ok ⟨e, positions, size⟩

/-- Copies with their new positions, in order. -/
def toList (l : Layout) : List (Copy × Nat) := l.expansion.copies.toList.zip l.positions.toList

/-- Copies that are not left out, with their new positions. -/
def emitted (l : Layout) : List (Copy × Nat) := l.toList.filter fun (c, _) => c.isEmitted

/-- New position of the copy with a number. -/
def positionOf (l : Layout) (number : Nat) : Nat := l.positions[number]?.getD 0

/-- New position of the copy that code in a call can go to. -/
def resolve (l : Layout) (position : Nat) (source : Call) : Except VerifyError Nat :=
  l.positionOf <$> l.expansion.resolve position source

/-- What happened to every copy. -/
def listing (l : Layout) : List Event :=
  l.toList.map fun (c, position) =>
    .listed ⟨position, c.instruction.mnemonic, c.position, c.call.listing, c.disposition.name⟩

/-! ## Emission -/

/-- A `goto` between new positions. -/
def goto (source target : Nat) : Except VerifyError (List UInt8) := do
  return Opcode.goto :: write (← Instruction.shortOffset source target)

/-- A `goto_w` between new positions. -/
def gotoWide (source target : Nat) : Except VerifyError (List UInt8) := do
  return Opcode.gotoW :: write (← Instruction.longOffset source target)

/-- The bytes of a copy. -/
def emitCopy (l : Layout) (code : Array UInt8) (placed : Copy × Nat) : Except VerifyError (List UInt8) :=
  let (c, position) := placed
  let i := c.instruction
  match c.disposition with
  | .skip => .ok []
  | .keep =>
    match i.flow with
    | .plain _ => .ok (code.extract i.position i.next).toList
    | .branch _ _ | .select _ _ =>
      i.relocated position fun target =>
        (l.resolve target c.call).mapError fun e => .located c.position e.fault
    | .jsr _ | .ret _ => .error (.located c.position .missingContinuation)
  | .jsrGoto callee =>
    match i.flow with
    | .jsr target => do
      let target ← l.resolve target callee
      if i.opcode = Opcode.jsrW then gotoWide position target else goto position target
    | _ => .error (.located c.position .missingContinuation)
  | .retGoto target => goto position (l.positionOf target)

/-- The new code. -/
def emit (l : Layout) (code : List UInt8) : Except VerifyError (List UInt8) := do
  let code := code.toArray
  return (← l.toList.mapM (l.emitCopy code)).flatten

/-! ## Tables of positions -/

/-- Ranges of the covered among some positions, each up to the next position that is not covered; `first` is
where an open range began, and `stop` ends the last. -/
def rangesFrom (stop : Nat) : (first : Option Nat) → List (Nat × Bool) → List (Nat × Nat)
  | none, [] => []
  | some first, [] => [(first, stop)]
  | none, (position, covered) :: rest => rangesFrom stop (if covered then some position else none) rest
  | some first, (position, covered) :: rest =>
    if covered then rangesFrom stop (some first) rest
    else (first, position) :: rangesFrom stop none rest

/-- Maximal ranges of new positions in which all copies are covered. -/
def ranges (l : Layout) (covered : Copy → Bool) : List (Nat × Nat) :=
  let marked := l.emitted.map fun (c, position) => (position, covered c)
  (rangesFrom l.size none marked).filter fun (first, stop) => first < stop

/-- A handler gets an entry for each of its copies, over the copies of the protected code that can go to
it. -/
def handlerEntries (l : Layout) (h : ExceptionHandler) : List ExceptionHandler :=
  (l.expansion.copiesOf h.handlerPc.toNat).flatMap fun number =>
    match l.expansion.copies[number]? with
    | none => []
    | some handler =>
      let covered (c : Copy) : Bool :=
        h.startPc.toNat ≤ c.position && c.position < h.endPc.toNat && c.call.canGoto handler.call
      (l.ranges covered).map fun (first, stop) =>
        { h with
          startPc := UInt16.ofNat first
          endPc := UInt16.ofNat stop
          handlerPc := UInt16.ofNat (l.positionOf number) }

/-- The exception table; the order in which handlers are tried stays. -/
def exceptionTable (l : Layout) (handlers : List ExceptionHandler) : List ExceptionHandler :=
  handlers.flatMap l.handlerEntries

/-- The line of a position: that of the last start at or before it, of equal starts the last entry. -/
def lineAt (entries : List LineNumber) (position : Nat) : Option UInt16 :=
  let later (best : Option LineNumber) (entry : LineNumber) : Option LineNumber :=
    if entry.startPc.toNat ≤ position ∧ best.all fun b => b.startPc ≤ entry.startPc then some entry
    else best
  (entries.foldl later none).map LineNumber.line

/-- An entry wherever the line changes. -/
def lineChanges : (current : Option UInt16) → List (Nat × Option UInt16) → List LineNumber
  | _, [] => []
  | current, (position, line) :: rest =>
    if line = current then lineChanges current rest
    else
      match line with
      | some number => ⟨UInt16.ofNat position, number⟩ :: lineChanges line rest
      | none => lineChanges none rest

def lineNumbers (l : Layout) (table : LineNumberTable) : LineNumberTable :=
  ⟨lineChanges none (l.emitted.map fun (c, position) => (position, lineAt table.entries c.position))⟩

/-- A variable lives wherever there is a copy of code in which it lived. -/
def variableEntries (l : Layout) (v : LocalVariable) : List LocalVariable :=
  let first := v.startPc.toNat
  let covered (c : Copy) : Bool := first ≤ c.position && c.position < first + v.length.toNat
  (l.ranges covered).map fun (first, stop) =>
    { v with startPc := UInt16.ofNat first, length := UInt16.ofNat (stop - first) }

def localVariables (l : Layout) (entries : List LocalVariable) : List LocalVariable :=
  entries.flatMap l.variableEntries

end Layout

end Bytecode
