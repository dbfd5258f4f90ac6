import WordMachine.Word

/-!
Stacks of words, of a capacity fixed when they are made.
-/

namespace WordMachine

/-- Words with the top first. The depth is kept beside them, so that pushing need not count. -/
structure Stack where
  items : List Word
  capacity : Nat
  depth : Nat := items.length
  depth_eq : depth = items.length := by rfl

/-- Why a stack refused. -/
inductive StackFault
  | overflow
  /-- It did not reach down so far. -/
  | underflow
  deriving DecidableEq, Repr

namespace Stack

/-- The depth says nothing that the words do not say. -/
@[ext] theorem ext {s t : Stack} (hi : s.items = t.items) (hc : s.capacity = t.capacity) :
    s = t := by
  obtain ⟨items, capacity, depth, hs⟩ := s
  obtain ⟨items', capacity', depth', ht⟩ := t
  subst hs ht hi hc
  rfl

def empty (capacity : Nat) : Stack := { items := [], capacity }

def clear (s : Stack) : Stack := empty s.capacity

def push (s : Stack) (w : Word) : Except StackFault Stack :=
  if s.depth < s.capacity then
    .ok { items := w :: s.items, capacity := s.capacity, depth := s.depth + 1,
          depth_eq := by simp [s.depth_eq] }
  else .error .overflow

def pop (s : Stack) : Except StackFault (Word × Stack) :=
  match h : s.items with
  | [] => .error .underflow
  | w :: rest =>
    .ok (w, { items := rest, capacity := s.capacity, depth := s.depth - 1,
              depth_eq := by simp [s.depth_eq, h] })

/-- The word `n` places below the top. -/
def peek (s : Stack) (n : Nat) : Except StackFault Word :=
  match s.items[n]? with
  | none => .error .underflow
  | some w => .ok w

/-- The words from the bottom up. -/
def toList (s : Stack) : List Word := s.items.reverse

end Stack

end WordMachine
