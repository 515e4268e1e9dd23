import Mathlib.Algebra.Ring.Nat

/-!
# Sizes of the kernel's tables

The constants of `param.h` that several parts of the kernel share.
-/

namespace Xv6

/-- `NPROC`. -/
abbrev nproc : ℕ := 64

/-- `NOFILE`. -/
abbrev nofile : ℕ := 16

/-- `NFILE`. -/
abbrev nfile : ℕ := 100

/-- `NINODE`. -/
abbrev ninode : ℕ := 50

instance neZero_nproc : NeZero nproc := ⟨by decide⟩

/-- An index of the process table. -/
abbrev ProcId := Fin nproc

end Xv6
