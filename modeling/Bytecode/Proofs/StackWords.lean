import Bytecode.Proofs.Effects
import Bytecode.Proofs.RegularFrames

/-!
# Stack instructions on words

The instructions that move operands are defined on words: a `long` or `double` is two adjacent words, and
`dup2_x1` copies two words below a third whatever values they belong to.  The stack of a frame holds values, so each
instruction has a form for every way in which words can make up values.

* `stackWords`: the words of a stack, top first, which determine its values;
* `WordMove`: what an instruction does to words of any kind, and where it cuts the stack;
* `WordMove.Moves`: the same with whole values, related to words by `WordMove.exists_moves_iff`;
* `Shuffle.run_on_words`: an instruction runs exactly if no cut falls inside a value, and then moves words.
-/

namespace Bytecode

/-! ## Words -/

/-- A word of the stack: a value of one word, or a half of a value of two words. -/
inductive StackWord where
  | whole (t : VType)
  | upper (t : VType)
  | lower (t : VType)
  deriving DecidableEq

def StackWord.isLower : StackWord → Bool
  | .lower _ => true
  | _ => false

/-- The value that starts at a word. -/
def StackWord.value? : StackWord → Option VType
  | .whole t | .upper t => some t
  | .lower _ => none

def VType.words (t : VType) : List StackWord :=
  if width t = 2 then [.upper t, .lower t] else [.whole t]

/-- The words of a stack, the topmost first. -/
def stackWords (stack : List VType) : List StackWord := stack.flatMap VType.words

/-- A cut below this many words falls inside a value: the word that follows is a lower half. -/
def SplitsAt (words : List StackWord) (depth : Nat) : Prop := words[depth]?.any StackWord.isLower

theorem VType.width_cases (t : VType) : width t = 1 ∨ width t = 2 := by
  cases t <;> simp [width]

theorem VType.words_of_word {t : VType} (h : width t = 1) : t.words = [.whole t] := by
  rw [VType.words, if_neg (by omega)]

theorem VType.words_of_wide {t : VType} (h : width t = 2) : t.words = [.upper t, .lower t] := by
  rw [VType.words, if_pos h]

@[simp] theorem stackWords_cons (t : VType) (stack : List VType) :
    stackWords (t :: stack) = t.words ++ stackWords stack := rfl

@[simp] theorem stackWords_append (a b : List VType) : stackWords (a ++ b) = stackWords a ++ stackWords b :=
  List.flatMap_append

@[simp] theorem VType.length_words (t : VType) : t.words.length = width t := by
  obtain h | h := t.width_cases
  · rw [VType.words_of_word h, h, List.length_singleton]
  · rw [VType.words_of_wide h, h, List.length_cons, List.length_singleton]

@[simp] theorem length_stackWords (stack : List VType) : (stackWords stack).length = Frame.stackHeight stack := by
  induction stack with
  | nil => rfl
  | cons t stack ih => rw [stackWords_cons, List.length_append, VType.length_words, ih, Frame.stackHeight_cons]

theorem VType.values_words (t : VType) : t.words.filterMap StackWord.value? = [t] := by
  obtain h | h := t.width_cases
  · rw [VType.words_of_word h]
    rfl
  · rw [VType.words_of_wide h]
    rfl

theorem values_stackWords (stack : List VType) : (stackWords stack).filterMap StackWord.value? = stack := by
  induction stack with
  | nil => rfl
  | cons t stack ih => rw [stackWords_cons, List.filterMap_append, VType.values_words, ih, List.singleton_append]

theorem stackWords_injective : Function.Injective stackWords :=
  Function.LeftInverse.injective values_stackWords

/-- The topmost word of a stack is no lower half. -/
theorem not_splitsAt_zero (stack : List VType) : ¬ SplitsAt (stackWords stack) 0 := by
  cases stack with
  | nil => simp [SplitsAt]
  | cons t stack =>
    obtain h | h := t.width_cases
    · simp [SplitsAt, VType.words_of_word h, StackWord.isLower]
    · simp [SplitsAt, VType.words_of_wide h, StackWord.isLower]

theorem splitsAt_append (above below : List StackWord) (depth : Nat) :
    SplitsAt (above ++ below) (above.length + depth) ↔ SplitsAt below depth := by
  unfold SplitsAt
  rw [List.getElem?_append_right (Nat.le_add_right _ _), Nat.add_sub_cancel_left]

/-- A stack can be cut between two values exactly where its words can. -/
theorem exists_cut_iff {stack : List VType} {depth : Nat} :
    (∃ top rest, stack = top ++ rest ∧ Frame.stackHeight top = depth) ↔
      depth ≤ (stackWords stack).length ∧ ¬ SplitsAt (stackWords stack) depth := by
  constructor
  · rintro ⟨top, rest, rfl, rfl⟩
    rw [stackWords_append]
    refine ⟨by simp, fun hsplit => not_splitsAt_zero rest ?_⟩
    rw [← length_stackWords, ← Nat.add_zero (stackWords top).length] at hsplit
    exact (splitsAt_append _ _ _).mp hsplit
  · rintro ⟨hdepth, hwhole⟩
    induction stack generalizing depth with
    | nil =>
      have hzero : depth = 0 := Nat.le_zero.mp hdepth
      exact ⟨[], [], rfl, hzero.symm⟩
    | cons t stack ih =>
      rw [stackWords_cons] at hdepth hwhole
      obtain rfl | hpos := Nat.eq_zero_or_pos depth
      · exact ⟨[], t :: stack, rfl, rfl⟩
      -- a cut just below the first half of `t` is the one that splits it
      have hbelow : width t ≤ depth := by
        obtain h | h := t.width_cases
        · omega
        · by_contra hlt
          obtain rfl : depth = 1 := by omega
          exact hwhole (by simp [SplitsAt, VType.words_of_wide h, StackWord.isLower])
      obtain ⟨rest, rfl⟩ := Nat.exists_eq_add_of_le hbelow
      rw [← VType.length_words, splitsAt_append] at hwhole
      rw [List.length_append, VType.length_words] at hdepth
      obtain ⟨top, below, rfl, htop⟩ := ih (by omega) hwhole
      exact ⟨t :: top, below, rfl, by rw [Frame.stackHeight_cons, htop]⟩

/-! ## Moves -/

/-- What is done to the words on top of the stack. -/
inductive WordMove where
  /-- Remove words. -/
  | drop (count : Nat)
  /-- Copy the top words to below the words that follow them. -/
  | copy (count under : Nat)
  /-- Exchange the two top words. -/
  | swap
  deriving DecidableEq

namespace WordMove

def apply {α : Type} : WordMove → List α → List α
  | .drop count, words => words.drop count
  | .copy count under, words => words.take (count + under) ++ words.take count ++ words.drop (count + under)
  | .swap, words => (words.take 2).reverse ++ words.drop 2

/-- The depths at which words part that were next to each other or are treated differently. -/
def cuts : WordMove → List Nat
  | .drop count => [count]
  | .copy count under => [count, count + under]
  | .swap => [1, 2]

/-- There are words enough, and every cut leaves values whole. -/
def Allowed (move : WordMove) (words : List StackWord) : Prop :=
  ∀ depth ∈ move.cuts, depth ≤ words.length ∧ ¬ SplitsAt words depth

instance (words : List StackWord) (depth : Nat) : Decidable (SplitsAt words depth) :=
  inferInstanceAs (Decidable (_ = true))

instance (move : WordMove) (words : List StackWord) : Decidable (move.Allowed words) :=
  inferInstanceAs (Decidable (∀ depth ∈ move.cuts, depth ≤ words.length ∧ ¬ SplitsAt words depth))

/-- A move of whole values that take up the words to be moved. -/
def Moves : WordMove → List VType → List VType → Prop
  | .drop count, stack, after => ∃ top, stack = top ++ after ∧ Frame.stackHeight top = count
  | .copy count under, stack, after => ∃ top next rest, stack = top ++ (next ++ rest) ∧
      Frame.stackHeight top = count ∧ Frame.stackHeight next = under ∧ after = top ++ (next ++ (top ++ rest))
  | .swap, stack, after => ∃ top next rest, stack = top ++ (next ++ rest) ∧
      Frame.stackHeight top = 1 ∧ Frame.stackHeight next = 1 ∧ after = next ++ (top ++ rest)

/-- Words on top of others are taken and left as a whole. -/
theorem apply_drop {α : Type} {count : Nat} {top rest : List α} (htop : top.length = count) :
    (drop count).apply (top ++ rest) = rest := by
  subst htop
  exact List.drop_left

theorem apply_copy {α : Type} {count under : Nat} {top next rest : List α} (htop : top.length = count)
    (hnext : next.length = under) :
    (copy count under).apply (top ++ (next ++ rest)) = top ++ (next ++ (top ++ rest)) := by
  subst htop hnext
  rw [apply, List.take_left, ← List.append_assoc top next rest, ← List.length_append, List.take_left,
    List.drop_left]
  simp only [List.append_assoc]

theorem apply_swap {α : Type} {top next rest : List α} (htop : top.length = 1) (hnext : next.length = 1) :
    swap.apply (top ++ (next ++ rest)) = next ++ (top ++ rest) := by
  obtain ⟨a, rfl⟩ := List.length_eq_one_iff.mp htop
  obtain ⟨b, rfl⟩ := List.length_eq_one_iff.mp hnext
  rfl

/-- Moved values have moved words. -/
theorem Moves.stackWords_eq {move : WordMove} {stack after : List VType} (h : move.Moves stack after) :
    stackWords after = move.apply (stackWords stack) := by
  cases move with
  | drop count =>
    obtain ⟨top, rfl, htop⟩ := h
    rw [stackWords_append, apply_drop (by rw [length_stackWords, htop])]
  | copy count under =>
    obtain ⟨top, next, rest, rfl, htop, hnext, rfl⟩ := h
    simp only [stackWords_append]
    rw [apply_copy (by rw [length_stackWords, htop]) (by rw [length_stackWords, hnext])]
  | swap =>
    obtain ⟨top, next, rest, rfl, htop, hnext, rfl⟩ := h
    simp only [stackWords_append]
    rw [apply_swap (by rw [length_stackWords, htop]) (by rw [length_stackWords, hnext])]

/-- Two cuts, one below the other, leave three parts of the stack. -/
theorem exists_cuts_iff (stack : List VType) (count under : Nat) :
    (∃ top next rest, stack = top ++ (next ++ rest) ∧ Frame.stackHeight top = count ∧
      Frame.stackHeight next = under) ↔
    ∀ depth ∈ [count, count + under],
      depth ≤ (stackWords stack).length ∧ ¬ SplitsAt (stackWords stack) depth := by
  simp only [List.forall_mem_cons, List.not_mem_nil, false_implies, implies_true, and_true]
  constructor
  · rintro ⟨top, next, rest, rfl, htop, hnext⟩
    refine ⟨exists_cut_iff.mp ⟨top, next ++ rest, rfl, htop⟩, exists_cut_iff.mp ⟨top ++ next, rest, ?_, ?_⟩⟩
    · rw [List.append_assoc]
    · rw [Frame.stackHeight_append, htop, hnext]
  · rintro ⟨hupper, hdepth, hwhole⟩
    obtain ⟨top, below, rfl, rfl⟩ := exists_cut_iff.mpr hupper
    rw [stackWords_append, List.length_append, length_stackWords] at hdepth
    rw [stackWords_append, ← length_stackWords, splitsAt_append] at hwhole
    obtain ⟨next, rest, rfl, hnext⟩ := exists_cut_iff.mpr ⟨Nat.le_of_add_le_add_left hdepth, hwhole⟩
    exact ⟨top, next, rest, rfl, rfl, hnext⟩

/-- However the two upper parts are put back, only the cuts decide whether there are such parts. -/
theorem exists_arranged_iff {stack : List VType} {count under : Nat}
    (arranged : List VType → List VType → List VType → List VType) :
    (∃ after top next rest, stack = top ++ (next ++ rest) ∧ Frame.stackHeight top = count ∧
      Frame.stackHeight next = under ∧ after = arranged top next rest) ↔
    ∀ depth ∈ [count, count + under],
      depth ≤ (stackWords stack).length ∧ ¬ SplitsAt (stackWords stack) depth := by
  rw [← exists_cuts_iff]
  constructor
  · rintro ⟨after, top, next, rest, hstack, htop, hnext, -⟩
    exact ⟨top, next, rest, hstack, htop, hnext⟩
  · rintro ⟨top, next, rest, hstack, htop, hnext⟩
    exact ⟨_, top, next, rest, hstack, htop, hnext, rfl⟩

/-- Whole values can be moved exactly where no cut falls inside a value. -/
theorem exists_moves_iff {move : WordMove} {stack : List VType} :
    (∃ after, move.Moves stack after) ↔ move.Allowed (stackWords stack) := by
  cases move with
  | drop count =>
    simp only [Allowed, cuts, List.forall_mem_singleton, ← exists_cut_iff]
    exact exists_comm
  | copy count under => exact exists_arranged_iff fun top next rest => top ++ (next ++ (top ++ rest))
  | swap => exact exists_arranged_iff fun top next rest => next ++ (top ++ rest)

end WordMove

/-! ## Instructions -/

/-- What an instruction is defined to do to the words of the stack. -/
def Shuffle.move : Shuffle → WordMove
  | .pop => .drop 1
  | .pop2 => .drop 2
  | .dup => .copy 1 0
  | .dupX1 => .copy 1 1
  | .dupX2 => .copy 1 2
  | .dup2 => .copy 2 0
  | .dup2X1 => .copy 2 1
  | .dup2X2 => .copy 2 2
  | .swap => .swap

theorem Frame.stackHeight_eq_zero {ts : List VType} : stackHeight ts = 0 ↔ ts = [] := by
  cases ts with
  | nil => simp
  | cons t ts =>
    have hwidth := t.width_cases
    simp only [stackHeight_cons, reduceCtorEq, iff_false]
    omega

namespace Exec

/-- Pop whole values that take up a number of words. -/
def popWords : Nat → Exec (List VType)
  | 0 => pure []
  | 1 => do
    let a ← popWord
    return [a]
  | n + 2 => do
    let a ← pop
    if width a = 1 then
      let rest ← popWords (n + 1)
      return a :: rest
    else
      let rest ← popWords n
      return a :: rest

variable {α : Type} {f g : Frame} {r : α × Frame}

theorem popWord_bind_eq_ok {k : VType → Exec α} :
    (popWord >>= k) f = .ok r ↔
      ∃ t rest, f.stack = t :: rest ∧ width t = 1 ∧ k t { f with stack := rest } = .ok r := by
  rw [popWord, bind_assoc, pop_bind_eq_ok]
  constructor
  · rintro ⟨t, rest, hstack, h⟩
    by_cases ht : width t = 1
    · rw [if_neg (not_not.mpr ht)] at h
      exact ⟨t, rest, hstack, ht, h⟩
    · rw [if_pos ht] at h
      obtain ⟨_, _, hreturn, -⟩ := state_bind_eq_ok.mp h
      obtain ⟨_, _, hthrow, -⟩ := state_bind_eq_ok.mp hreturn
      exact (state_throw_ne_ok.mp hthrow).elim
  · rintro ⟨t, rest, hstack, ht, h⟩
    refine ⟨t, rest, hstack, ?_⟩
    rw [if_neg (not_not.mpr ht)]
    exact h

theorem pushAll_eq_ok {ts : List VType} {u : Unit} :
    pushAll ts f = .ok (u, g) ↔ g = { f with stack := ts.reverse ++ f.stack } := by
  change Except.ok ((), ({ f with stack := ts.reverse ++ f.stack } : Frame)) = .ok (u, g) ↔ _
  constructor
  · intro h
    exact (Prod.mk.inj (Except.ok.inj h)).2.symm
  · rintro rfl
    rfl

@[simp] theorem popWords_zero_bind (k : List VType → Exec α) : popWords 0 >>= k = k [] := by
  rw [popWords, pure_bind]

/-- One word is a value of one word, two are such values or one value of two words. -/
theorem popWords_one_bind (k : List VType → Exec α) : popWords 1 >>= k = popWord >>= fun a => k [a] := by
  simp only [popWords, bind_assoc, pure_bind]

theorem popWords_two_bind (k : List VType → Exec α) : popWords 2 >>= k =
    pop >>= fun a => if width a = 1 then popWord >>= fun b => k [a, b] else k [a] := by
  rw [popWords, bind_assoc]
  congr 1
  funext a
  split
  · rw [bind_assoc, popWords_one_bind]
    simp only [pure_bind]
  · simp only [popWords, pure_bind]

/-- Words are popped exactly if they are the words of the values on top. -/
theorem popWords_bind_eq_ok {n : Nat} {k : List VType → Exec α} :
    (popWords n >>= k) f = .ok r ↔
      ∃ top rest, f.stack = top ++ rest ∧ Frame.stackHeight top = n ∧ k top { f with stack := rest } = .ok r := by
  induction n using popWords.induct generalizing f k with
  | case1 =>
    rw [popWords_zero_bind]
    constructor
    · intro h
      exact ⟨[], f.stack, rfl, rfl, h⟩
    · rintro ⟨top, rest, hstack, htop, h⟩
      obtain rfl := Frame.stackHeight_eq_zero.mp htop
      rw [List.nil_append] at hstack
      rwa [← hstack] at h
  | case2 =>
    rw [popWords_one_bind, popWord_bind_eq_ok]
    constructor
    · rintro ⟨a, rest, hstack, ha, h⟩
      exact ⟨[a], rest, hstack, by rw [Frame.stackHeight_cons, ha, Frame.stackHeight_nil], h⟩
    · rintro ⟨top, rest, hstack, htop, h⟩
      cases top with
      | nil => simp at htop
      | cons a top =>
        have hwidth := a.width_cases
        rw [Frame.stackHeight_cons] at htop
        obtain rfl := Frame.stackHeight_eq_zero.mp (show Frame.stackHeight top = 0 by omega)
        exact ⟨a, rest, hstack, htop, h⟩
  | case3 n ihword ihwide =>
    rw [popWords, bind_assoc, pop_bind_eq_ok]
    constructor
    · rintro ⟨a, below, hstack, h⟩
      by_cases ha : width a = 1
      · rw [if_pos ha, bind_assoc, ihword] at h
        obtain ⟨top, rest, rfl, htop, h⟩ := h
        exact ⟨a :: top, rest, hstack, by rw [Frame.stackHeight_cons]; omega, h⟩
      · rw [if_neg ha, bind_assoc, ihwide] at h
        obtain ⟨top, rest, rfl, htop, h⟩ := h
        have hwidth := a.width_cases
        exact ⟨a :: top, rest, hstack, by rw [Frame.stackHeight_cons]; omega, h⟩
    · rintro ⟨top, rest, hstack, htop, h⟩
      cases top with
      | nil => simp at htop
      | cons a top =>
        have hwidth := a.width_cases
        rw [Frame.stackHeight_cons] at htop
        refine ⟨a, top ++ rest, hstack, ?_⟩
        by_cases ha : width a = 1
        · rw [if_pos ha, bind_assoc, ihword]
          exact ⟨top, rest, rfl, by omega, h⟩
        · rw [if_neg ha, bind_assoc, ihwide]
          exact ⟨top, rest, rfl, by omega, h⟩

/-- The values of two groups of words are popped, and some of them pushed back. -/
theorem popWords_twice_eq_ok {count under : Nat} {back : List VType → List VType → List VType} {u : Unit} :
    (popWords count >>= fun top => popWords under >>= fun next => pushAll (back top next).reverse) f = .ok (u, g) ↔
      ∃ stack, (∃ top next rest, f.stack = top ++ (next ++ rest) ∧ Frame.stackHeight top = count ∧
        Frame.stackHeight next = under ∧ stack = back top next ++ rest) ∧ g = { f with stack } := by
  simp only [popWords_bind_eq_ok, pushAll_eq_ok, List.reverse_reverse]
  constructor
  · rintro ⟨top, _, hstack, htop, next, rest, rfl, hnext, rfl⟩
    exact ⟨_, ⟨top, next, rest, hstack, htop, hnext, rfl⟩, rfl⟩
  · rintro ⟨_, ⟨top, next, rest, hstack, htop, hnext, rfl⟩, rfl⟩
    exact ⟨top, _, hstack, htop, next, rest, rfl, hnext, rfl⟩

end Exec

namespace WordMove

/-- Pop the values that take up the words to be moved, and push them back in their places. -/
def run : WordMove → Exec Unit
  | .drop count => do
    let _ ← Exec.popWords count
  | .copy count under => do
    let top ← Exec.popWords count
    let next ← Exec.popWords under
    Exec.pushAll (top ++ (next ++ top)).reverse
  | .swap => do
    let top ← Exec.popWords 1
    let next ← Exec.popWords 1
    Exec.pushAll (next ++ top).reverse

theorem run_eq_ok {move : WordMove} {f g : Frame} {u : Unit} :
    move.run f = .ok (u, g) ↔ ∃ stack, move.Moves f.stack stack ∧ g = { f with stack } := by
  cases move with
  | drop count =>
    rw [run, Exec.popWords_bind_eq_ok]
    constructor
    · rintro ⟨top, rest, hstack, htop, h⟩
      exact ⟨rest, ⟨top, hstack, htop⟩, (Prod.mk.inj (state_pure_eq_ok.mp h)).2.symm⟩
    · rintro ⟨rest, ⟨top, hstack, htop⟩, rfl⟩
      exact ⟨top, rest, hstack, htop, rfl⟩
  | copy count under =>
    rw [run, Exec.popWords_twice_eq_ok]
    simp only [Moves, List.append_assoc]
  | swap =>
    rw [run, Exec.popWords_twice_eq_ok]
    simp only [Moves, List.append_assoc]

end WordMove

/-- The forms of an instruction are the ways in which values can take up the words that it moves. -/
theorem Exec.shuffle_eq_run (how : Shuffle) : shuffle how = how.move.run := by
  cases how with
  | dup2X1 =>
    simp only [shuffle, Shuffle.move, WordMove.run, popWords_one_bind, popWords_two_bind]
    congr 1
    funext a
    by_cases ha : width a = 1
    · simp only [ha, if_true]
      rfl
    · simp only [ha, if_false]
      rfl
  | pop | pop2 =>
    simp only [shuffle, Shuffle.move, WordMove.run, popWords_one_bind, popWords_two_bind]
  | _ =>
    simp only [shuffle, Shuffle.move, WordMove.run, popWords_zero_bind, popWords_one_bind, popWords_two_bind]
    rfl

/-- An instruction that moves operands runs exactly if there are words enough and no cut falls inside a value; then
it does to the words of the stack what it is defined to do, and to the rest of the frame nothing. -/
theorem Shuffle.run_on_words (how : Shuffle) (context : ExecutionContext) (f : Frame) :
    ((∃ g, Op.run (.shuffle how) context f = .ok ((), g)) ↔ how.move.Allowed (stackWords f.stack)) ∧
    ∀ g, Op.run (.shuffle how) context f = .ok ((), g) ↔
      how.move.Allowed (stackWords f.stack) ∧ stackWords g.stack = how.move.apply (stackWords f.stack) ∧
        g.locals = f.locals ∧ g.nesting = f.nesting := by
  have hrun (g : Frame) : Op.run (.shuffle how) context f = .ok ((), g) ↔
      ∃ stack, how.move.Moves f.stack stack ∧ g = { f with stack } := by
    show Exec.shuffle how f = .ok ((), g) ↔ _
    rw [Exec.shuffle_eq_run, WordMove.run_eq_ok]
  simp only [hrun, ← WordMove.exists_moves_iff]
  refine ⟨⟨?_, ?_⟩, fun g => ⟨?_, ?_⟩⟩
  · rintro ⟨g, stack, hmoves, -⟩
    exact ⟨stack, hmoves⟩
  · rintro ⟨stack, hmoves⟩
    exact ⟨_, stack, hmoves, rfl⟩
  · rintro ⟨stack, hmoves, rfl⟩
    exact ⟨⟨stack, hmoves⟩, hmoves.stackWords_eq, rfl, rfl⟩
  · rintro ⟨⟨stack, hmoves⟩, hwords, hlocals, hnesting⟩
    rw [← hmoves.stackWords_eq] at hwords
    obtain ⟨locals, stack', nesting⟩ := g
    obtain rfl := stackWords_injective hwords
    obtain rfl := hlocals
    obtain rfl := hnesting
    exact ⟨stack', hmoves, rfl⟩

example : (Shuffle.move .dup2X2).apply [1, 2, 3, 4, 5] = [1, 2, 3, 4, 1, 2, 5] := rfl

example : (Shuffle.move .dup2X1).Allowed (stackWords [.long, .int]) ∧
    ¬ (Shuffle.move .dup2X1).Allowed (stackWords [.int, .long]) := by decide

end Bytecode
