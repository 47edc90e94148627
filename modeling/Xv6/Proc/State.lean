import Xv6.Param
import Mathlib.Logic.Function.Basic

/-!
# Process states
-/

namespace Xv6

inductive ProcState where
  | unused
  | used
  | sleeping
  | runnable
  | running
  | zombie
  deriving DecidableEq, Repr

/-- A slot of the process table `proc[NPROC]`. -/
abbrev Slot : Type := Fin nproc

end Xv6
