import Bytecode.Verification.Subroutine

/-!
# Frames

A frame is what is known at a place of the code: the types of the locals, the types on the operand stack,
and the active subroutines.  A value of two words takes two locals, the second of which is `top`.

* `Frame.merge` is the least frame above two frames that meet at a place, if their stacks fit;
* `Frame.rank` bounds how often merging can change a frame.
-/

namespace Bytecode

/-- What is known at a place of the code. -/
structure Frame where
  /-- Types of the locals, one for every slot. -/
  locals : List VType
  /-- Types on the operand stack, the top of the stack first. -/
  stack : List VType
  nesting : Nesting
  deriving DecidableEq, Repr

namespace Frame

/-- Number of words on a stack. -/
def stackHeight (stack : List VType) : Nat := stack.foldl (fun height t => height + width t) 0

theorem foldl_width (stack : List VType) (height : Nat) :
    stack.foldl (fun height t => height + width t) height = height + stackHeight stack := by
  induction stack generalizing height with
  | nil => rfl
  | cons t ts ih =>
    rw [stackHeight, List.foldl_cons, List.foldl_cons, ih, ih (0 + width t)]
    omega

@[simp] theorem stackHeight_nil : stackHeight [] = 0 := rfl

@[simp] theorem stackHeight_cons (t : VType) (ts : List VType) :
    stackHeight (t :: ts) = width t + stackHeight ts := by
  rw [stackHeight, List.foldl_cons, foldl_width, Nat.zero_add]

def height (f : Frame) : Nat := stackHeight f.stack

/-- The stack as laid out in words, from the bottom. -/
def stackTiling (f : Frame) : Tiling VType := .ofList 0 f.stack.reverse

/-- Structure of a frame, spelled out for listings. -/
def listing (f : Frame) : String :=
  let locals := ", ".intercalate (f.locals.map VType.listing)
  let stack := f.stackTiling.render VType.listing
  s!"Frame \x7b locals: [{locals}], stack: {stack}, subroutines: {f.nesting.render} \x7d"

/-! ## Entry of a method -/

/-- Put values into the locals from a slot on, each after the other. -/
def placeFrom (next : Nat) : List VType → List VType → Except VerifyFault (List VType)
  | locals, [] => .ok locals
  | locals, t :: rest =>
    if locals.length < next + width t then .error (.invalidLocal (UInt16.ofNat next))
    else placeFrom (next + width t) (locals.set next t) rest

/-- Types of the receiver and the parameters of a method.  The receiver of a constructor is not
initialized, except in `java/lang/Object`. -/
def parameterTypes (thisClass : BinaryName) (isStatic isConstructor : Bool)
    (descriptor : MethodDescriptor) : List VType :=
  let receiver :=
    if isStatic then []
    else if isConstructor ∧ thisClass ≠ .object then [.uninitializedThis]
    else [.ofClass thisClass]
  receiver ++ descriptor.parameters.map .ofField

/-- The frame in which a method starts. -/
def entry (thisClass : BinaryName) (isStatic isConstructor : Bool) (descriptor : MethodDescriptor)
    (maxLocals : Nat) : Except VerifyFault Frame := do
  let types := parameterTypes thisClass isStatic isConstructor descriptor
  let locals ← placeFrom 0 (List.replicate maxLocals .top) types
  return ⟨locals, [], []⟩

/-! ## Locals -/

/-- Give up values of two words whose second local is not `top`. -/
def normalized : List VType → List VType
  | [] => []
  | t :: rest => (if width t = 2 ∧ rest.head? ≠ some .top then .top else t) :: normalized rest

def normalizeLocals (f : Frame) : Frame := { f with locals := normalized f.locals }

/-- The locals that hold objects whose constructor has not run. -/
def uninitializedLocals (f : Frame) : List Nat :=
  f.locals.zipIdx.filterMap fun (t, index) => if t.isUninitialized then some index else none

/-- Make every uninitialized object in the locals unusable. -/
def withoutUninitialized (f : Frame) : Frame :=
  { f with locals := f.locals.map fun t => if t.isUninitialized then .top else t }

/-- Uninitialized objects do not pass into or out of subroutines; giving them up counts as an access by
the active subroutines. -/
def killUninitialized (f : Frame) (registry : Registry) : Frame × Registry :=
  (f.withoutUninitialized, registry.charge f.nesting f.uninitializedLocals)

/-- Read a local, which counts as an access by the active subroutines. -/
def load (f : Frame) (index : UInt16) (registry : Registry) : Except VerifyFault (VType × Registry) :=
  match f.locals[index.toNat]? with
  | none => .error (.invalidLocal index)
  | some t => .ok (t, registry.chargeFrom f.nesting index.toNat (width t))

/-! ## Stack -/

/-- Fail when the stack is higher than allowed. -/
def checkHeight (maxStack : Nat) (f : Frame) : Except VerifyFault Frame :=
  if maxStack < f.height then .error .stackOverflow else .ok f

/-- Push a value, if it still fits. -/
def push (f : Frame) (t : VType) (maxStack : Nat) : Except VerifyFault Frame :=
  checkHeight maxStack { f with stack := t :: f.stack }

/-! ## Merging -/

/-- Join the locals of another frame into some; locals that the other frame does not have stay. -/
def joinLocals : List VType → List VType → List VType
  | t :: ts, u :: us => t.join u :: joinLocals ts us
  | ts, _ => ts

/-- Join stacks slot by slot; every slot must stay usable. -/
def joinStacks : List VType → List VType → Except VerifyFault (List VType)
  | t :: ts, u :: us => do
    let rest ← joinStacks ts us
    let joined := t.join u
    if joined = .top then throw .incompatibleStackSlot
    return joined :: rest
  | _, _ => .ok []

/-- Join the locals and the nesting of another frame into a frame, leaving its stack. -/
def absorb (f other : Frame) : Frame :=
  { f with
    locals := normalized (joinLocals f.locals other.locals)
    nesting := f.nesting.merge other.nesting }

/-- Merge a frame that arrives at the same place. -/
def merge (f incoming : Frame) : Except VerifyFault Frame :=
  if f.stack.length ≠ incoming.stack.length ∨ f.height ≠ incoming.height then
    .error .stackHeightMismatch
  else
    match joinStacks f.stack incoming.stack with
    | .error fault => .error fault
    | .ok stack => .ok { f.absorb incoming with stack }

/-! ## Rank -/

/-- Sum of the ranks of some types. -/
def typesRank (ts : List VType) : Nat := ts.foldr (fun t rank => t.rank + rank) 0

/-- Number of times merging can still change a frame. -/
def rank (f : Frame) : Nat := typesRank f.locals + typesRank f.stack + f.nesting.length

theorem rank_joinLocals (ts us : List VType) :
    typesRank (joinLocals ts us) < typesRank ts ∨ joinLocals ts us = ts := by
  induction ts generalizing us with
  | nil => exact Or.inr (by cases us <;> rfl)
  | cons t ts ih =>
    cases us with
    | nil => exact Or.inr rfl
    | cons u us =>
      have hhead := t.rank_join u
      have hle := t.rank_join_le u
      simp only [joinLocals, typesRank, List.foldr_cons] at ih ⊢
      rcases ih us with h | h
      · left
        omega
      · rw [h]
        rcases hhead with hlt | heq
        · left
          omega
        · exact Or.inr (by rw [heq])

theorem rank_normalized (ts : List VType) :
    typesRank (normalized ts) < typesRank ts ∨ normalized ts = ts := by
  induction ts with
  | nil => exact Or.inr rfl
  | cons t ts ih =>
    simp only [normalized, typesRank, List.foldr_cons] at ih ⊢
    by_cases h : width t = 2 ∧ ts.head? ≠ some .top
    · have hrank : VType.rank .top < t.rank := by
        cases t <;> simp_all [width, VType.rank]
      rw [if_pos h]
      left
      rcases ih with hlt | heq
      · omega
      · rw [heq]
        omega
    · rw [if_neg h]
      rcases ih with hlt | heq
      · left
        omega
      · exact Or.inr (by rw [heq])

/-- Joining and normalizing locals lowers their rank whenever it changes them. -/
theorem rank_normalized_joinLocals (ts us : List VType) :
    typesRank (normalized (joinLocals ts us)) < typesRank ts ∨ normalized (joinLocals ts us) = ts := by
  rcases rank_joinLocals ts us with hj | hj <;> rcases rank_normalized (joinLocals ts us) with hn | hn
  · exact Or.inl (Nat.lt_trans hn hj)
  · rw [hn]
    exact Or.inl hj
  · rw [hj] at hn ⊢
    exact Or.inl hn
  · rw [hn]
    exact Or.inr hj

/-- Absorbing lowers the rank of a frame whenever it changes it. -/
theorem rank_absorb (f other : Frame) : (f.absorb other).rank < f.rank ∨ f.absorb other = f := by
  have hlocals := rank_normalized_joinLocals f.locals other.locals
  have hnest := f.nesting.length_merge other.nesting
  simp only [absorb, rank]
  rcases hlocals with hl | hl <;> rcases hnest with hm | hm
  · left; omega
  · left; rw [hm]; omega
  · left; rw [hl]; omega
  · right; rw [hl, hm]

theorem rank_joinStacks {ts us joined : List VType} (h : joinStacks ts us = .ok joined)
    (hlen : ts.length = us.length) : typesRank joined < typesRank ts ∨ joined = ts := by
  induction ts generalizing us joined with
  | nil =>
    cases us with
    | nil =>
      simp only [joinStacks, Except.ok.injEq] at h
      exact Or.inr h.symm
    | cons u us => simp at hlen
  | cons t ts ih =>
    cases us with
    | nil => simp at hlen
    | cons u us =>
      simp only [List.length_cons, Nat.add_right_cancel_iff] at hlen
      cases hrest : joinStacks ts us with
      | error fault => simp [joinStacks, hrest, bind, Except.bind] at h
      | ok rest =>
        by_cases htop : t.join u = .top
        · simp [joinStacks, hrest, htop, bind, Except.bind, throw, throwThe, MonadExceptOf.throw] at h
        · have heq : joined = t.join u :: rest := by
            simp only [joinStacks, hrest, bind, Except.bind, htop, if_false, pure, Except.pure,
              Except.ok.injEq] at h
            exact h.symm
          have hhead := t.rank_join u
          have hle := t.rank_join_le u
          have hih := ih hrest hlen
          subst heq
          simp only [typesRank, List.foldr_cons] at hih ⊢
          rcases hih with hlt | heq
          · left
            omega
          · rw [heq]
            rcases hhead with hlt | hsame
            · left
              omega
            · exact Or.inr (by rw [hsame])

/-- Merging lowers the rank of a frame whenever it changes it. -/
theorem rank_merge {f incoming merged : Frame} (h : f.merge incoming = .ok merged) :
    merged.rank < f.rank ∨ merged = f := by
  unfold merge at h
  split at h
  · simp at h
  · rename_i hshape
    have hlen : f.stack.length = incoming.stack.length := by
      by_cases hl : f.stack.length = incoming.stack.length
      · exact hl
      · exact absurd (Or.inl hl) hshape
    split at h
    · simp at h
    · rename_i stack hstack
      have hs := rank_joinStacks hstack hlen
      have ha := rank_absorb f incoming
      simp only [Except.ok.injEq] at h
      subst h
      have hrank : ∀ g : Frame, ({ g with stack } : Frame).rank + typesRank g.stack
          = g.rank + typesRank stack := by
        intro g
        simp only [rank]
        omega
      have hg := hrank (f.absorb incoming)
      have habs : (f.absorb incoming).stack = f.stack := rfl
      rw [habs] at hg
      rcases hs with hs | hs <;> rcases ha with ha | ha
      · left; omega
      · left; rw [ha] at hg ⊢; omega
      · left; rw [hs] at hg ⊢; omega
      · right
        rw [ha, hs]

end Frame

end Bytecode
