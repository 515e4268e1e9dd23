import Xv6.Param
import Xv6.Proc.Pipe
import Xv6.Proc.Console

/-!
# Processes, `sleep` and `wakeup`

The process table of `proc.c` on one CPU, and the objects that processes wait for: sleep locks, the
log, pipes, exiting children, console input and the clock. A process in the kernel is in one of the
functions of `Task`, at a point where it next looks at shared state; `turn` is what it does from
there until it returns, sleeps, or lets go of its locks. The CPU runs with interrupts off during a
turn, so turns are atomic. Between them the scheduler may dispatch any process, and interrupts may
come in. The scans of `allocproc` and `kkill` hold the lock of one process at a time, so that each
slot they look at is a turn of its own; `kwait` and `reparent` scan under `wait_lock`, in one turn.

A process calls the functions in any order; the orders in which the system calls do so are special
cases. The user's memory and the results of `kalloc` are a parameter of each turn (`Env`).

`uartwrite` also sleeps, but nothing calls it, and the disk driver polls; both are left out.
-/

namespace Xv6

/-- `enum procstate`. -/
inductive ProcState
  | unused
  | used
  | sleeping
  | runnable
  | running
  | zombie
  deriving DecidableEq

/-- The addresses that processes sleep on. -/
inductive Chan
  | sleeplock (l : ℕ)
  | log
  | nread (pi : ℕ)
  | nwrite (pi : ℕ)
  | proc (p : ProcId)
  | cons
  | ticks
  deriving DecidableEq

/-- `struct proc`, as far as scheduling and the life of a process go. -/
structure Proc where
  state : ProcState
  chan : Option Chan
  killed : Bool
  xstate : ℤ
  pid : BitVec 32
  parent : Option ProcId

/-- `struct sleeplock`. -/
structure Sleeplock where
  locked : Bool
  pid : BitVec 32

/-- The variables of `log.c` that processes wait for; `n` is `log_lh.n`. -/
structure LogCounts where
  outstanding : ℤ
  committing : Bool
  n : ℕ

/-- Where a process is in the kernel. A constructor names the function, with its arguments and
the local variables it has on reaching the point. -/
inductive Task
  /-- In user space, or between two of the functions below. -/
  | user
  | acquiresleep (l : ℕ)
  | releasesleep (l : ℕ)
  | beginOp
  /-- `log_write`, of a block not in the log or of one that is. -/
  | logWrite (fresh : Bool)
  | endOp
  /-- `log_lh.n = 0` in `commit`. -/
  | clearLog
  /-- The end of `end_op` after `commit`. -/
  | endCommit
  | pipealloc (pi : ℕ)
  | pipewrite (pi : ℕ) (n : ℤ) (i : ℕ)
  | piperead (pi : ℕ) (n : ℤ)
  | pipeclose (pi : ℕ) (writable : Bool)
  /-- `kfork`, with the scan of `allocproc` at slot `i`. -/
  | kfork (i : ℕ)
  /-- `kfork` before it sets the parent of the new process. -/
  | forkParent (np : ProcId) (pid : BitVec 32)
  /-- `kfork` before it makes the new process runnable. -/
  | forkRunnable (np : ProcId) (pid : BitVec 32)
  | kexit (status : ℤ)
  | kwait (addr : BitVec 32)
  /-- `kkill`, with its scan at slot `i`. -/
  | kkill (pid : BitVec 32) (i : ℕ)
  | setkilled
  | pause (n : ℤ)
  /-- The loop of `sys_pause`. -/
  | pauseLoop (n ticks0 : BitVec 32)
  | consoleread (n target : ℕ)
  deriving DecidableEq

/-- What a turn finds outside the modelled state: the bytes `copyin` reads (`none` where it fails),
the bytes `copyout` can write, the successive results of allocations, and the contents of a new
page. -/
structure Env where
  src : ℕ → Option UInt8
  dst : ℕ → Bool
  mem : ℕ → Bool
  page : ℕ → UInt8

/-- The value of a function that returns. -/
inductive Ret
  /-- The function has not returned yet. -/
  | going
  | val (r : ℤ)
  /-- `kwait` returns the pid of a child, with its exit status. -/
  | child (q : ProcId) (pid : BitVec 32) (xstate : ℤ)
  deriving DecidableEq

/-- The state of the kernel. -/
structure Kernel where
  proc : ProcId → Proc
  /-- `c->proc`. -/
  cpu : Option ProcId
  nextpid : BitVec 32
  initproc : ProcId
  ticks : BitVec 32
  cons : Cons
  pipe : ℕ → Pipe
  lock : ℕ → Sleeplock
  log : LogCounts
  task : ProcId → Task
  /-- The process is inside `commit`. -/
  inCommit : ProcId → Bool

namespace Kernel

/-- Replace a process. -/
def setProc (K : Kernel) (p : ProcId) (x : Proc) : Kernel :=
  { K with proc := fun q => if q = p then x else K.proc q }

/-- Set where a process is. -/
def setTask (K : Kernel) (p : ProcId) (t : Task) : Kernel :=
  { K with task := fun q => if q = p then t else K.task q }

/-- Replace a pipe. -/
def setPipe (K : Kernel) (pi : ℕ) (x : Pipe) : Kernel :=
  { K with pipe := fun j => if j = pi then x else K.pipe j }

/-- Replace a sleep lock. -/
def setLock (K : Kernel) (l : ℕ) (x : Sleeplock) : Kernel :=
  { K with lock := fun j => if j = l then x else K.lock j }

section

variable (K : Kernel) (p q : ProcId) (x : Proc) (t : Task)

@[simp] theorem setProc_proc : (K.setProc p x).proc q = if q = p then x else K.proc q := rfl

@[simp] theorem setProc_task : (K.setProc p x).task = K.task := rfl

@[simp] theorem setProc_cpu : (K.setProc p x).cpu = K.cpu := rfl

@[simp] theorem setProc_pipe : (K.setProc p x).pipe = K.pipe := rfl

@[simp] theorem setProc_initproc : (K.setProc p x).initproc = K.initproc := rfl

@[simp] theorem setTask_proc : (K.setTask p t).proc = K.proc := rfl

@[simp] theorem setTask_task : (K.setTask p t).task q = if q = p then t else K.task q := rfl

@[simp] theorem setTask_cpu : (K.setTask p t).cpu = K.cpu := rfl

@[simp] theorem setTask_pipe : (K.setTask p t).pipe = K.pipe := rfl

@[simp] theorem setTask_initproc : (K.setTask p t).initproc = K.initproc := rfl

end

/-! ## `sleep`, `wakeup` and the scheduler -/

/-- `wakeup`; the null channel is `none`. -/
def wakeup (K : Kernel) (ch : Option Chan) : Kernel :=
  { K with proc := fun q =>
      if some q ≠ K.cpu ∧ (K.proc q).state = .sleeping ∧ (K.proc q).chan = ch then
        { K.proc q with state := .runnable }
      else K.proc q }

/-- `sleep`, up to the switch to the scheduler; `t` is where the process goes on. -/
def sleep (K : Kernel) (p : ProcId) (ch : Chan) (t : Task) : Kernel :=
  { (K.setProc p { K.proc p with state := .sleeping, chan := some ch }).setTask p t with
    cpu := none }

/-- The turn of the scheduler that starts process `p`. -/
def dispatch (K : Kernel) (p : ProcId) : Kernel :=
  { K.setProc p { K.proc p with state := .running } with cpu := some p }

/-- `yield`. -/
def yield (K : Kernel) (p : ProcId) : Kernel :=
  { K.setProc p { K.proc p with state := .runnable } with cpu := none }

/-- A function returns to its caller. -/
def done (K : Kernel) (p : ProcId) (r : ℤ) : Option (Ret × Kernel) :=
  some (.val r, K.setTask p .user)

/-- A function sleeps. -/
def block (K : Kernel) (p : ProcId) (ch : Chan) (t : Task) : Option (Ret × Kernel) :=
  some (.going, K.sleep p ch t)

/-! ## Sleep locks and the log -/

/-- `acquiresleep`. -/
def acquiresleep (K : Kernel) (p : ProcId) (l : ℕ) : Option (Ret × Kernel) :=
  if (K.lock l).locked then K.block p (.sleeplock l) (.acquiresleep l)
  else (K.setLock l ⟨true, (K.proc p).pid⟩).done p 0

/-- `releasesleep`. -/
def releasesleep (K : Kernel) (p : ProcId) (l : ℕ) : Option (Ret × Kernel) :=
  ((K.setLock l ⟨false, 0⟩).wakeup (some (.sleeplock l))).done p 0

/-- `begin_op`. -/
def beginOp (K : Kernel) (p : ProcId) : Option (Ret × Kernel) :=
  if K.log.committing then K.block p .log .beginOp
  else if (K.log.n : ℤ) + (K.log.outstanding + 1) * 10 > 30 then K.block p .log .beginOp
  else { K with log := { K.log with outstanding := K.log.outstanding + 1 } }.done p 0

/-- `log_write`. -/
def logWrite (K : Kernel) (p : ProcId) (fresh : Bool) : Option (Ret × Kernel) :=
  if K.log.n ≥ 30 then none
  else if K.log.outstanding < 1 then none
  else { K with log := { K.log with n := if fresh then K.log.n + 1 else K.log.n } }.done p 0

/-- The first section of `end_op`. -/
def endOp (K : Kernel) (p : ProcId) : Option (Ret × Kernel) :=
  if K.log.committing then none
  else if K.log.outstanding - 1 = 0 then
    { K with
      log := { K.log with outstanding := K.log.outstanding - 1, committing := true }
      inCommit := fun q => if q = p then true else K.inCommit q }.done p 0
  else
    ({ K with log := { K.log with outstanding := K.log.outstanding - 1 } }.wakeup
      (some .log)).done p 0

/-- `log_lh.n = 0`. -/
def clearLog (K : Kernel) (p : ProcId) : Option (Ret × Kernel) :=
  { K with log := { K.log with n := 0 } }.done p 0

/-- The last section of `end_op` after a commit. -/
def endCommit (K : Kernel) (p : ProcId) : Option (Ret × Kernel) :=
  ({ K with
    log := { K.log with committing := false }
    inCommit := fun q => if q = p then false else K.inCommit q }.wakeup (some .log)).done p 0

/-! ## Pipes -/

/-- `pipealloc`. The page `pi` that `kalloc` returns is not in use, so it is no open pipe. -/
def pipealloc (K : Kernel) (env : Env) (p : ProcId) (pi : ℕ) : Option (Ret × Kernel) :=
  if env.mem 0 = false then K.done p (-1)
  else if (K.pipe pi).readopen ∨ (K.pipe pi).writeopen then none
  else (K.setPipe pi (.fresh env.page)).done p 0

/-- `pipewrite`. -/
def pipewrite (K : Kernel) (env : Env) (p : ProcId) (pi : ℕ) (n : ℤ) (i : ℕ) :
    Option (Ret × Kernel) :=
  match (K.pipe pi).writeLoop (K.proc p).killed env.src (n.toNat - i) i with
  | (x, .fail) => (K.setPipe pi x).done p (-1)
  | (x, .full j) =>
    ((K.setPipe pi x).wakeup (some (.nread pi))).block p (.nwrite pi) (.pipewrite pi n j)
  | (x, .done j) => ((K.setPipe pi x).wakeup (some (.nread pi))).done p j

/-- `piperead`. -/
def piperead (K : Kernel) (env : Env) (p : ProcId) (pi : ℕ) (n : ℤ) : Option (Ret × Kernel) :=
  if (K.pipe pi).Empty ∧ (K.pipe pi).writeopen then
    if (K.proc p).killed then K.done p (-1) else K.block p (.nread pi) (.piperead pi n)
  else
    ((K.setPipe pi ((K.pipe pi).readLoop env.dst n.toNat 0).1).wakeup (some (.nwrite pi))).done p
      ((K.pipe pi).readLoop env.dst n.toNat 0).2

/-- `pipeclose`. -/
def pipeclose (K : Kernel) (p : ProcId) (pi : ℕ) (writable : Bool) : Option (Ret × Kernel) :=
  ((K.setPipe pi ((K.pipe pi).close writable)).wakeup
    (some (if writable then .nread pi else .nwrite pi))).done p 0

/-! ## The life of a process -/

/-- `freeproc`. -/
def freeproc (K : Kernel) (q : ProcId) : Kernel :=
  K.setProc q ⟨.unused, none, false, 0, 0, none⟩

/-- `allocproc` at an unused slot, before it allocates memory. -/
def takeSlot (K : Kernel) (np : ProcId) : Kernel :=
  { K.setProc np { K.proc np with pid := K.nextpid, state := .used } with
    nextpid := K.nextpid + 1 }

/-- A turn of `kfork`: the scan of `allocproc` looks at slot `i`. An unused slot is taken, and the
turn goes on to the release of the new process's lock. Its allocations are the trapframe, the page
table and the copy of the parent's memory. -/
def kfork (K : Kernel) (env : Env) (p : ProcId) (i : ℕ) : Option (Ret × Kernel) :=
  if h : i < nproc then
    if (K.proc ⟨i, h⟩).state = .unused then
      if env.mem 0 ∧ env.mem 1 ∧ env.mem 2 then
        some (.going, ((K.takeSlot ⟨i, h⟩).setTask ⟨i, h⟩ .user).setTask p
          (.forkParent ⟨i, h⟩ K.nextpid))
      else ((K.takeSlot ⟨i, h⟩).freeproc ⟨i, h⟩).done p (-1)
    else some (.going, K.setTask p (.kfork (i + 1)))
  else K.done p (-1)

/-- `np->parent = p`. -/
def forkParent (K : Kernel) (p np : ProcId) (pid : BitVec 32) : Option (Ret × Kernel) :=
  some (.going, (K.setProc np { K.proc np with parent := some p }).setTask p (.forkRunnable np pid))

/-- `np->state = RUNNABLE`. -/
def forkRunnable (K : Kernel) (p np : ProcId) (pid : BitVec 32) : Option (Ret × Kernel) :=
  (K.setProc np { K.proc np with state := .runnable }).done p pid.toInt

/-- The loop of `reparent`, without its calls of `wakeup`. -/
def adopt (K : Kernel) (p : ProcId) : Kernel :=
  { K with proc := fun q =>
      if (K.proc q).parent = some p then { K.proc q with parent := some K.initproc } else K.proc q }

/-- `reparent`. It calls `wakeup(initproc)` for each child, and the second call finds nobody. -/
def reparent (K : Kernel) (p : ProcId) : Kernel :=
  if ∃ q, (K.proc q).parent = some p then (K.adopt p).wakeup (some (.proc K.initproc)) else K

/-- `p->xstate = status`, `p->state = ZOMBIE` and the switch to the scheduler. -/
def exitProc (K : Kernel) (p : ProcId) (status : ℤ) : Kernel :=
  { (K.setProc p { K.proc p with xstate := status, state := .zombie }).setTask p .user with
    cpu := none }

/-- The end of `kexit`, under `wait_lock`. -/
def kexit (K : Kernel) (p : ProcId) (status : ℤ) : Option (Ret × Kernel) :=
  if p = K.initproc then none
  else
    let K₁ := K.reparent p
    some (.going, (K₁.wakeup ((K₁.proc p).parent.map .proc)).exitProc p status)

/-- The first child of `p` in the table that is a zombie. -/
def zombieChild (K : Kernel) (p : ProcId) : Option ProcId :=
  (List.finRange nproc).find? fun q => (K.proc q).parent = some p ∧ (K.proc q).state = .zombie

/-- `kwait`. -/
def kwait (K : Kernel) (env : Env) (p : ProcId) (addr : BitVec 32) : Option (Ret × Kernel) :=
  match K.zombieChild p with
  | some q =>
    if addr ≠ 0 ∧ env.dst 0 = false then K.done p (-1)
    else some (.child q (K.proc q).pid (K.proc q).xstate, (K.freeproc q).setTask p .user)
  | none =>
    if (¬ ∃ q, (K.proc q).parent = some p) ∨ (K.proc p).killed then K.done p (-1)
    else K.block p (.proc p) (.kwait addr)

/-- What `kkill` does to the process it finds. -/
def kill (K : Kernel) (q : ProcId) : Kernel :=
  K.setProc q { K.proc q with
    killed := true
    state := if (K.proc q).state = .sleeping then .runnable else (K.proc q).state }

/-- A turn of `kkill`: its scan looks at slot `i`. -/
def kkill (K : Kernel) (p : ProcId) (pid : BitVec 32) (i : ℕ) : Option (Ret × Kernel) :=
  if h : i < nproc then
    if (K.proc ⟨i, h⟩).pid = pid then (K.kill ⟨i, h⟩).done p 0
    else some (.going, K.setTask p (.kkill pid (i + 1)))
  else K.done p (-1)

/-- `setkilled`, which a process calls on itself. -/
def setkilled (K : Kernel) (p : ProcId) : Option (Ret × Kernel) :=
  (K.setProc p { K.proc p with killed := true }).done p 0

/-! ## The clock and the console -/

/-- The loop of `sys_pause`. -/
def pauseLoop (K : Kernel) (p : ProcId) (n ticks0 : BitVec 32) : Option (Ret × Kernel) :=
  if (K.ticks - ticks0).toNat < n.toNat then
    if (K.proc p).killed then K.done p (-1) else K.block p .ticks (.pauseLoop n ticks0)
  else K.done p 0

/-- `sys_pause`. -/
def pause (K : Kernel) (p : ProcId) (n : ℤ) : Option (Ret × Kernel) :=
  K.pauseLoop p (BitVec.ofInt 32 (if n < 0 then 0 else n)) K.ticks

/-- `consoleread`, with `n` of `target` bytes to go. -/
def consoleread (K : Kernel) (env : Env) (p : ProcId) (n target : ℕ) : Option (Ret × Kernel) :=
  match K.cons.readLoop (K.proc p).killed env.dst target n with
  | (c, .fail) => { K with cons := c }.done p (-1)
  | (c, .wait m) => { K with cons := c }.block p .cons (.consoleread m target)
  | (c, .done m) => { K with cons := c }.done p (target - m)

/-- `clockintr`. -/
def clockintr (K : Kernel) : Kernel := { K with ticks := K.ticks + 1 }.wakeup (some .ticks)

/-- `consoleintr`. -/
def consoleintr (K : Kernel) (ch : UInt8) : Kernel :=
  if (K.cons.intr ch).2 then { K with cons := (K.cons.intr ch).1 }.wakeup (some .cons)
  else { K with cons := (K.cons.intr ch).1 }

/-! ## Runs -/

/-- `p->chan = 0`, at the end of `sleep`; a process that did not sleep has no channel. -/
def resume (K : Kernel) (p : ProcId) : Kernel := K.setProc p { K.proc p with chan := none }

/-- What a process does at a point in the kernel. There is no turn where the kernel panics. -/
def act (K : Kernel) (env : Env) (p : ProcId) : Task → Option (Ret × Kernel)
  | .user => none
  | .acquiresleep l => K.acquiresleep p l
  | .releasesleep l => K.releasesleep p l
  | .beginOp => K.beginOp p
  | .logWrite fresh => K.logWrite p fresh
  | .endOp => K.endOp p
  | .clearLog => K.clearLog p
  | .endCommit => K.endCommit p
  | .pipealloc pi => K.pipealloc env p pi
  | .pipewrite pi n i => K.pipewrite env p pi n i
  | .piperead pi n => K.piperead env p pi n
  | .pipeclose pi writable => K.pipeclose p pi writable
  | .kfork i => K.kfork env p i
  | .forkParent np pid => K.forkParent p np pid
  | .forkRunnable np pid => K.forkRunnable p np pid
  | .kexit status => K.kexit p status
  | .kwait addr => K.kwait env p addr
  | .kkill pid i => K.kkill p pid i
  | .setkilled => K.setkilled p
  | .pause n => K.pause p n
  | .pauseLoop n ticks0 => K.pauseLoop p n ticks0
  | .consoleread n target => K.consoleread env p n target

/-- A turn of process `p`. -/
def turn (K : Kernel) (env : Env) (p : ProcId) : Option (Ret × Kernel) :=
  (K.resume p).act env p (K.task p)

/-- Where a process may be on calling a function: at its start. The steps of a commit are open to
the process that commits. -/
def entry (K : Kernel) (p : ProcId) : Task → Bool
  | .user | .forkParent _ _ | .forkRunnable _ _ | .pauseLoop _ _ => false
  | .clearLog | .endCommit => K.inCommit p
  | .pipewrite _ _ i | .kfork i | .kkill _ i => i = 0
  | .consoleread n target => n = target
  | _ => true

/-- What a step shows. -/
inductive Label
  | silent
  /-- Process `p` had a turn at `t`, which ended with `r`. -/
  | turn (p : ProcId) (t : Task) (env : Env) (r : Ret)

/-- The steps of the kernel. -/
inductive Step (K : Kernel) : Label → Kernel → Prop
  | dispatch (p : ProcId) (hc : K.cpu = none) (hs : (K.proc p).state = .runnable) :
    Step K .silent (K.dispatch p)
  | yield (p : ProcId) (hc : K.cpu = some p) : Step K .silent (K.yield p)
  | call (p : ProcId) (t : Task) (hc : K.cpu = some p) (hu : K.task p = .user)
    (ht : K.entry p t = true) : Step K .silent (K.setTask p t)
  | turn (p : ProcId) (env : Env) (r : Ret) (K' : Kernel) (hc : K.cpu = some p)
    (h : K.turn env p = some (r, K')) : Step K (.turn p (K.task p) env r) K'
  | clockintr : Step K .silent K.clockintr
  | consoleintr (ch : UInt8) : Step K .silent (K.consoleintr ch)

/-- A run, with what its steps show. -/
inductive Run : Kernel → List Label → Kernel → Prop
  | refl (K : Kernel) : Run K [] K
  | step {K K₁ K₂ : Kernel} {ls : List Label} {l : Label} (h : Run K ls K₁) (hs : Step K₁ l K₂) :
    Run K (ls ++ [l]) K₂

/-- The kernel when `main` calls `scheduler`: `userinit` has made the first process. -/
def boot : Kernel where
  proc p :=
    if p = 0 then ⟨.runnable, none, false, 0, 1, none⟩ else ⟨.unused, none, false, 0, 0, none⟩
  cpu := none
  nextpid := 2
  initproc := 0
  ticks := 0
  cons := ⟨fun _ => 0, 0, 0, 0⟩
  pipe _ := ⟨⟨fun _ => 0, 0, 0⟩, false, false, [], []⟩
  lock _ := ⟨false, 0⟩
  log := ⟨0, false, 0⟩
  task _ := .user
  inCommit _ := false

/-- A choice of the next step. -/
inductive Move
  | dispatch (p : ProcId)
  | yield
  | call (t : Task)
  | turn (env : Env)

/-- Take the chosen step, where there is one. -/
def move (K : Kernel) : Move → Option (Label × Kernel)
  | .dispatch p =>
    if K.cpu = none ∧ (K.proc p).state = .runnable then some (.silent, K.dispatch p) else none
  | .yield => K.cpu.map fun p => (.silent, K.yield p)
  | .call t => K.cpu.bind fun p =>
    if K.task p = .user ∧ K.entry p t then some (.silent, K.setTask p t) else none
  | .turn env => K.cpu.bind fun p =>
    (K.turn env p).map fun out => (.turn p (K.task p) env out.1, out.2)

theorem step_of_move {K K' : Kernel} {m : Move} {l : Label} (h : K.move m = some (l, K')) :
    Step K l K' := by
  cases m with
  | dispatch p =>
    simp only [move] at h
    split at h
    · rename_i hp
      cases h
      exact .dispatch p hp.1 hp.2
    · cases h
  | yield =>
    obtain ⟨p, hc, he⟩ := Option.map_eq_some_iff.1 h
    cases he
    exact .yield p hc
  | call t =>
    obtain ⟨p, hc, he⟩ := Option.bind_eq_some_iff.1 h
    split at he
    · rename_i ht
      cases he
      exact .call p t hc ht.1 ht.2
    · cases he
  | turn env =>
    obtain ⟨p, hc, he⟩ := Option.bind_eq_some_iff.1 h
    obtain ⟨⟨r, K₁⟩, ht, he⟩ := Option.map_eq_some_iff.1 he
    cases he
    exact .turn p env r K₁ hc ht

/-- Take the chosen steps. -/
def moves : List Move → Kernel → Option Kernel
  | [], K => some K
  | m :: ms, K => (K.move m).bind fun out => moves ms out.2

theorem Run.head {K K₁ K₂ : Kernel} {ls : List Label} {l : Label} (hs : Step K l K₁)
    (h : Run K₁ ls K₂) : Run K (l :: ls) K₂ := by
  induction h with
  | refl => exact .step (.refl K) hs
  | step _ hstep ih => exact .step ih hstep

theorem run_of_moves {ms : List Move} {K K' : Kernel} (h : moves ms K = some K') :
    ∃ ls, Run K ls K' := by
  induction ms generalizing K with
  | nil =>
    cases h
    exact ⟨[], .refl _⟩
  | cons m ms ih =>
    obtain ⟨⟨l, K₁⟩, hm, hms⟩ := Option.bind_eq_some_iff.1 h
    obtain ⟨ls, hrun⟩ := ih hms
    exact ⟨l :: ls, hrun.head (step_of_move hm)⟩

/-- A state that chosen steps lead to, by a property that can be evaluated. -/
theorem exists_run {ms : List Move} {K : Kernel} {P : Kernel → Bool}
    (h : (moves ms K).any P = true) : ∃ ls K', Run K ls K' ∧ P K' = true := by
  cases hm : moves ms K with
  | none => simp [hm] at h
  | some K' =>
    obtain ⟨ls, hrun⟩ := run_of_moves hm
    exact ⟨ls, K', hrun, by simpa [hm] using h⟩

/-- A property that holds at boot and that every step keeps holds in every run. -/
theorem Run.invariant {I : Kernel → Prop} (h₀ : I boot)
    (hs : ∀ K l K', I K → Step K l K' → I K') {ls : List Label} {K : Kernel} (h : Run boot ls K) :
    I K := by
  induction h with
  | refl => exact h₀
  | step _ hstep ih => exact hs _ _ _ ih hstep

end Kernel

end Xv6
