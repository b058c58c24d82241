import Mathlib.Data.List.Induction
import Mathlib.Order.Lattice

/-!
# Bounded output

A sink counts whatever is put into it and stores it as long as there is room.
-/

namespace Sbunix.Lib

open List Function

structure Sink (α : Type) where
  pos : ℕ
  mem : ℕ → α

/-- Memory with a list stored at its start. -/
def stored {α : Type} (mem : ℕ → α) (l : List α) : ℕ → α := fun i => l[i]?.getD (mem i)

namespace Sink

variable {α : Type} (room : ℕ)

def put (s : Sink α) (a : α) : Sink α :=
  ⟨s.pos + 1, if s.pos < room then update s.mem s.pos a else s.mem⟩

def puts (s : Sink α) (l : List α) : Sink α := l.foldl (put room) s

end Sink

end Sbunix.Lib
