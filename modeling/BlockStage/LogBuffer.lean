import BlockStage.Engine.Basic

/-! # The log

The latest lines and the block that is highlighted. A log holds at least one line; when it is full
the oldest line gives way.
-/
namespace BlockStage

structure LogBuffer where
  capacity : Nat := 200
  /-- The lines, the newest first. -/
  recent : List String := []
  highlighted : Option String := none

namespace LogBuffer

def withCapacity (capacity : Nat) : LogBuffer := { capacity := max capacity 1 }

def push (b : LogBuffer) (line : String) : LogBuffer :=
  { b with recent := (line :: b.recent).take b.capacity }

def highlight (b : LogBuffer) (block : Option String) : LogBuffer :=
  { b with highlighted := block }

def receive (b : LogBuffer) : Signal → LogBuffer
  | .log line => b.push line
  | .highlight block => b.highlight block

def receiveAll (b : LogBuffer) (signals : List Signal) : LogBuffer :=
  { b with
    recent := ((signals.filterMap Signal.line?).reverse ++ b.recent).take b.capacity
    highlighted := signals.foldl (fun block s => s.highlighted?.getD block) b.highlighted }

def lines (b : LogBuffer) : List String := b.recent.reverse

def occursIn (needle : List Char) : List Char → Bool
  | [] => needle.isEmpty
  | c :: cs => needle.isPrefixOf (c :: cs) || occursIn needle cs

def contains (b : LogBuffer) (text : String) : Bool :=
  b.recent.any fun line => occursIn text.toList line.toList

theorem take_append_take {α : Type} (n : Nat) (xs ys : List α) :
    (xs ++ ys.take n).take n = (xs ++ ys).take n := by
  simp only [List.take_append, List.take_take]
  congr 2
  omega

theorem receiveAll_nil {b : LogBuffer} (h : b.recent.length ≤ b.capacity) :
    b.receiveAll [] = b := by
  simp [receiveAll, List.take_of_length_le h]

/-- It makes no difference whether reports are taken up together or one by one. -/
theorem receiveAll_cons (b : LogBuffer) (s : Signal) (signals : List Signal) :
    b.receiveAll (s :: signals) = (b.receive s).receiveAll signals := by
  cases s with
  | log line =>
    simp [receiveAll, receive, push, Signal.line?, Signal.highlighted?, take_append_take]
  | highlight block =>
    simp [receiveAll, receive, highlight, List.filterMap_cons, Signal.line?, Signal.highlighted?]

end LogBuffer

end BlockStage
