/-
  Aworker.Lib.File — files that are replaced, at the granularity of whole writes.

  A writer unlinks the name, creates a new inode under it and fills that in the
  background. Who opens the name meanwhile gets the new inode and may read any part of it;
  who had the old inode open keeps reading the old content.
-/

import Mathlib

namespace Aworker.Lib

variable {α : Type}

/-- A name's inode, what is being written into it, and whether all of it has been. -/
structure File (α : Type) where
  inode : Nat
  content : α
  complete : Bool

/-- What a reader finds at the name when it opens it. -/
inductive Opened (α : Type) where
  | missing
  | torn
  | whole (a : α)

def Opened.of : Option (File α) → Opened α
  | none => .missing
  | some f => if f.complete then .whole f.content else .torn

/-- What the reader ends with; `t` is what it makes of a file it opened half written. -/
def Opened.read : Opened α → Option α → Option α
  | .missing, _ => none
  | .torn, t => t
  | .whole a, _ => some a

/-- The writer of `inode` is done. The name may belong to another inode by then. -/
def File.finish (inode : Nat) (f : File α) : File α := if f.inode = inode then { f with complete := true } else f

/-- Nobody is writing: the name is free, or all of its content is there. -/
def Settled (f : Option (File α)) : Prop := ∀ g, f = some g → g.complete = true

theorem Settled.opened {f : Option (File α)} (h : Settled f) (t : Option α) : (Opened.of f).read t = f.map File.content := by
  cases f with
  | none => rfl
  | some g => simp [Opened.of, Opened.read, h g rfl]

end Aworker.Lib
