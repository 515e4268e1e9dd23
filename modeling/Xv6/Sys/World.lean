import Xv6.Vm.Slots
import Xv6.Fs.Sysfile

/-!
# Files and memory together

The calls that work on files and on memory, `fork` and `exec`, are programs over both: an operation of
the file system, or a section over physical memory and the process table. `world` is the meaning of
these programs; a section that stops in a `panic` stops the machine, and so does a loop that never
ends.
-/

namespace Xv6.Vm

open Conc Eff

/-- The calls of such a program. -/
inductive KOp : Type → Type 1
  /-- A call of the file system. -/
  | fs {β : Type} (e : Op β) : KOp β
  /-- A section over memory and the process table. -/
  | mach {β : Type} (p : SysM β) : KOp β

/-- Programs over files and memory. -/
abbrev Kern := Free KOp

/-- The state of the file system and of the machine. -/
structure World where
  fs : FsSt
  mach : Mach

/-- A world of one process, whose page is not mapped yet. -/
def oneProc (fs : FsSt) (ph : Phys) (root : ℕ) : World :=
  ⟨fs, ph, fun q => if q = 0 then { Pcb.blank with
    state := .running, sz := 0x1000, pagetable := some root, trapframe := some 0x2000 } else .blank, 1⟩

variable {α : Type}

/-- A program of the file system. -/
def onFs (p : Fs α) : Kern α := p.translate fun _ e => .fs e

/-- A section over memory and the process table. -/
def onMach (p : SysM α) : Kern α := .call (.mach p)

/-- What is printed when the machine stops. -/
def haltMessage : Halt → String
  | .panic msg => msg
  | .spin => "loop without end"
  | .bounds => "index out of bounds"

/-- The outcome of a section. -/
def sectionOutcome (w : World) : Except Halt (α × Mach) → Outcome World α
  | .ok (a, m) => .ok a { w with mach := m }
  | .error h => .panic (haltMessage h)

/-- The interface, for thread `t`. -/
def world (t : Tid) : Handler KOp World := fun _ op w o =>
  match op with
  | .fs e => ∃ o', store t e w.fs o' ∧ o = within (fun fs => { w with fs := fs }) o'
  | .mach p => o = sectionOutcome w (p w.mach)

/-- The files of the world. -/
def filesPart : Lens World FsSt :=
  ⟨World.fs, fun w fs => { w with fs := fs }, fun _ _ => rfl, fun _ _ _ => rfl, fun _ => rfl⟩

variable {t : Tid} {err : String → Prop} {Q : α → World → Prop} {w : World}

theorem wp_onFs {p : Fs α} (h : wp (store t) err p (fun a fs => Q a { w with fs := fs }) w.fs) :
    wp (world t) err (onFs p) Q w :=
  wp_translate (L := filesPart) (fun _ _ _ _ ho => ho) h

theorem wp_onMach {p : SysM α}
    (h : Det.Ends (fun e => err (haltMessage e)) p w.mach fun a m => Q a { w with mach := m }) :
    wp (world t) err (onMach p) Q w := by
  refine wp_call fun o ho => ?_
  obtain rfl : o = sectionOutcome w (p w.mach) := ho
  unfold Det.Ends at h
  cases hp : p w.mach with
  | ok r =>
    rw [hp] at h
    exact h
  | error e =>
    rw [hp] at h
    exact h

end Xv6.Vm
