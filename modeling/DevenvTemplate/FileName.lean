import Mathlib.Order.Lattice
import Mathlib.Data.String.Basic

/-!
# POSIX file names

The name of a directory entry is not empty, contains no slash, and is neither of
the two names every directory reserves.
-/

namespace FileTrees

def IsFileName (s : String) : Prop :=
  s ≠ "" ∧ s ≠ "." ∧ s ≠ ".." ∧ '/' ∉ s.toList

instance (s : String) : Decidable (IsFileName s) := by unfold IsFileName; infer_instance

abbrev FileName := { s : String // IsFileName s }

end FileTrees
