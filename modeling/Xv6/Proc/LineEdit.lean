import Xv6.Proc.Console
import Mathlib.Data.Int.Notation
import Mathlib.Data.List.Basic
import Mathlib.Data.List.Count
import Mathlib.Data.List.Induction
import Mathlib.Logic.Function.Basic

/-!
# Console input is a line editor

`console.c` keeps its input in a ring of 128 cells with three free-running counters of 32 bits. What
the ring is for is an editor of lines (`Editor`): the characters typed since the last commit, which
can still be erased, and those committed, which the readers take. Any number of processes call
`consoleread`, sleep in it and go on after a `wakeup`, in any order and with characters arriving
in between (`Tty.run`). The same run over the ring and over the editor gives every reader the same
bytes and the same results (`console_refines_editor`), however often the counters wrap.
-/

namespace Xv6

/-! ## Processes at a terminal -/

/-- The bytes that a turn of `consoleread` copies to the user. -/
def Cons.readBytes (dst : ℕ → Bool) (target : ℕ) : ℕ → Cons → List UInt8
  | 0, _ => []
  | n + 1, c =>
    if c.r = c.w then []
    else
      let ch := c.buf (c.r.toNat % Cons.size)
      if ch = 4 then []
      else if dst (target - (n + 1)) = false then []
      else if ch = 10 then [ch]
      else ch :: readBytes dst target n { c with r := c.r + 1 }

/-- A source of input: what a key does, and what a reader that was killed or not gets, who asked
for `target` bytes and has `n` to go. -/
structure Tty (δ : Type) where
  key : UInt8 → δ → δ
  take : Bool → ℕ → ℕ → δ → δ × ConsEnd × List UInt8

/-- What happens at a terminal. -/
inductive TtyEvent
  /-- A character arrives. -/
  | key (ch : UInt8)
  /-- A process calls `consoleread` for `n` bytes. -/
  | read (pid n : ℕ) (killed : Bool)
  /-- A process that sleeps in `consoleread` runs. -/
  | resume (pid : ℕ) (killed : Bool)

/-- What a turn of a reader did: the bytes it got, and the result if the call returned. -/
structure ReadTurn where
  pid : ℕ
  bytes : List UInt8
  ret : Option ℤ
  deriving DecidableEq

/-- The result of `consoleread`. -/
def ConsEnd.ret (target : ℕ) : ConsEnd → Option ℤ
  | .fail => some (-1)
  | .wait _ => none
  | .done n => some (target - n)

/-- The bytes to go of a reader that sleeps. -/
def ConsEnd.asleep (target : ℕ) : ConsEnd → Option (ℕ × ℕ)
  | .wait n => some (target, n)
  | _ => none

/-- A source of input and the processes that sleep in `consoleread`, with what they asked for and
what they still miss. -/
structure TtyState (δ : Type) where
  dev : δ
  asleep : ℕ → Option (ℕ × ℕ)

namespace Tty

variable {δ ε : Type}

/-- A turn of a reader. -/
def turn (T : Tty δ) (s : TtyState δ) (pid : ℕ) (killed : Bool) (target n : ℕ) :
    TtyState δ × List ReadTurn :=
  let o := T.take killed target n s.dev
  (⟨o.1, Function.update s.asleep pid (o.2.1.asleep target)⟩, [⟨pid, o.2.2, o.2.1.ret target⟩])

/-- One event. A process in `consoleread` makes no other call, and one outside it does not
resume. -/
def step (T : Tty δ) (s : TtyState δ) : TtyEvent → TtyState δ × List ReadTurn
  | .key ch => (⟨T.key ch s.dev, s.asleep⟩, [])
  | .read pid n killed =>
    match s.asleep pid with
    | none => T.turn s pid killed n n
    | some _ => (s, [])
  | .resume pid killed =>
    match s.asleep pid with
    | none => (s, [])
    | some (target, n) => T.turn s pid killed target n

/-- A sequence of events, with the turns of the readers in order. -/
def run (T : Tty δ) : TtyState δ → List TtyEvent → TtyState δ × List ReadTurn
  | s, [] => (s, [])
  | s, e :: es => ((T.run (T.step s e).1 es).1, (T.step s e).2 ++ (T.run (T.step s e).1 es).2)

/-- Two sources that a relation keeps together and that agree on what readers get. -/
structure Matches (T : Tty δ) (U : Tty ε) (R : δ → ε → Prop) : Prop where
  key : ∀ {d e} ch, R d e → R (T.key ch d) (U.key ch e)
  take : ∀ {d e} killed target n, n ≤ target → R d e →
    R (T.take killed target n d).1 (U.take killed target n e).1 ∧
      (T.take killed target n d).2 = (U.take killed target n e).2
  short : ∀ killed target n e m, (U.take killed target n e).2.1 = .wait m → 0 < m ∧ m ≤ n

/-- The processes that sleep miss some of what they asked for. -/
def Asked (s : ℕ → Option (ℕ × ℕ)) : Prop :=
  ∀ pid target n, s pid = some (target, n) → 0 < n ∧ n ≤ target

/-- Every call asks for some input. -/
def Positive (es : List TtyEvent) : Prop := ∀ pid n killed, .read pid n killed ∈ es → 0 < n

theorem asked_turn {T : Tty δ} {s : TtyState δ} (hs : Asked s.asleep) (pid : ℕ) (killed : Bool)
    {target n : ℕ} (hn : n ≤ target)
    (hshort : ∀ m, (T.take killed target n s.dev).2.1 = .wait m → 0 < m ∧ m ≤ n) :
    Asked (T.turn s pid killed target n).1.asleep := by
  intro q target' m hq
  simp only [Tty.turn] at hq
  by_cases hqp : q = pid
  · subst hqp
    rw [Function.update_self] at hq
    cases ho : (T.take killed target n s.dev).2.1 with
    | fail => simp [ho, ConsEnd.asleep] at hq
    | done k => simp [ho, ConsEnd.asleep] at hq
    | wait k =>
      obtain ⟨rfl, rfl⟩ : target = target' ∧ k = m := by simpa [ho, ConsEnd.asleep] using hq
      have := hshort k ho
      exact ⟨this.1, by omega⟩
  · rw [Function.update_of_ne hqp] at hq
    exact hs q target' m hq

/-- Two runs side by side. -/
structure Alike (R : δ → ε → Prop) (s : TtyState δ) (t : TtyState ε) : Prop where
  dev : R s.dev t.dev
  asleep : s.asleep = t.asleep
  asked : Asked s.asleep

variable {T : Tty δ} {U : Tty ε} {R : δ → ε → Prop} {s : TtyState δ} {t : TtyState ε}

theorem Matches.turn (h : Matches T U R) (ha : Alike R s t) (pid : ℕ) (killed : Bool)
    {target n : ℕ} (hn : n ≤ target) :
    Alike R (T.turn s pid killed target n).1 (U.turn t pid killed target n).1 ∧
      (T.turn s pid killed target n).2 = (U.turn t pid killed target n).2 := by
  obtain ⟨hR, he⟩ := h.take killed target n hn ha.dev
  refine ⟨⟨hR, ?_, asked_turn ha.asked pid killed hn fun m => ?_⟩, ?_⟩
  · simp only [Tty.turn, ha.asleep, he]
  · rw [he]
    exact h.short killed target n t.dev m
  · simp only [Tty.turn, he]

theorem Matches.step (h : Matches T U R) (ha : Alike R s t) (e : TtyEvent) :
    Alike R (T.step s e).1 (U.step t e).1 ∧ (T.step s e).2 = (U.step t e).2 := by
  cases e with
  | key ch => exact ⟨⟨h.key ch ha.dev, ha.asleep, ha.asked⟩, rfl⟩
  | read pid n killed =>
    simp only [Tty.step, ← ha.asleep]
    cases s.asleep pid with
    | none => exact h.turn ha pid killed (Nat.le_refl n)
    | some v => exact ⟨ha, rfl⟩
  | resume pid killed =>
    simp only [Tty.step, ← ha.asleep]
    cases hp : s.asleep pid with
    | none => exact ⟨ha, rfl⟩
    | some v => exact h.turn ha pid killed (ha.asked pid v.1 v.2 hp).2

/-- Whole runs agree. -/
theorem Matches.run (h : Matches T U R) (ha : Alike R s t) (es : List TtyEvent) :
    Alike R (T.run s es).1 (U.run t es).1 ∧ (T.run s es).2 = (U.run t es).2 := by
  induction es generalizing s t with
  | nil => exact ⟨ha, rfl⟩
  | cons e es ih =>
    obtain ⟨ha', he⟩ := h.step ha e
    obtain ⟨ha'', he'⟩ := ih ha'
    exact ⟨ha'', by simp only [Tty.run, he, he']⟩

end Tty

/-- The console. The copies to the user succeed. -/
def consTty : Tty Cons where
  key ch c := (c.intr ch).1
  take killed target n c :=
    ((c.readLoop killed (fun _ => true) target n).1, (c.readLoop killed (fun _ => true) target n).2,
      c.readBytes (fun _ => true) target n)

/-- The console at boot. -/
def Cons.init : Cons := ⟨fun _ => 0, 0, 0, 0⟩

/-! ## The editor -/

/-- Lines of input: the characters readers have consumed, those committed for them, and those of
the line that is being typed. -/
structure Editor where
  used : List UInt8
  ready : List UInt8
  line : List UInt8

namespace Editor

/-- The number of characters that take up room. -/
def held (d : Editor) : ℕ := d.ready.length + d.line.length

/-- A character of text: it is not stored when 128 are held, and ends the line when it is a newline,
`^D` or the 128th. -/
def type (x : UInt8) (d : Editor) : Editor :=
  if 128 ≤ d.held then d
  else if x = 10 ∨ x = 4 ∨ d.held + 1 = 128 then ⟨d.used, d.ready ++ (d.line ++ [x]), []⟩
  else ⟨d.used, d.ready, d.line ++ [x]⟩

/-- A key: `^P` and NUL are ignored, `^U` erases the line, backspace and delete its last character,
and a carriage return is a newline. -/
def key (ch : UInt8) (d : Editor) : Editor :=
  if ch = 16 ∨ ch = 0 then d
  else if ch = 21 then { d with line := [] }
  else if ch = 8 ∨ ch = 127 then { d with line := d.line.dropLast }
  else d.type (if ch = 13 then 10 else ch)

/-- A reader with `n` characters to go takes those of the list `ready`. It stops after a newline, and
at `^D`, which it consumes only when it has nothing yet (`first`). The parts are the characters
consumed, those left, how the turn ends, and the bytes the reader gets. -/
def takeFrom (killed : Bool) : Bool → ℕ → List UInt8 →
    List UInt8 × List UInt8 × ConsEnd × List UInt8
  | _, 0, l => ([], l, .done 0, [])
  | _, n + 1, [] => ([], [], if killed then .fail else .wait (n + 1), [])
  | first, n + 1, x :: l =>
    if x = 4 then
      if first then ([x], l, .done (n + 1), []) else ([], x :: l, .done (n + 1), [])
    else if x = 10 then ([x], l, .done n, [x])
    else
      let o := takeFrom killed false n l
      (x :: o.1, o.2.1, o.2.2.1, x :: o.2.2.2)

/-- The editor as a source of input. -/
def tty : Tty Editor where
  key := key
  take killed target n d :=
    let o := takeFrom killed (decide (n = target)) n d.ready
    (⟨d.used ++ o.1, o.2.1, d.line⟩, o.2.2)

/-- The empty editor. -/
def empty : Editor := ⟨[], [], []⟩

/-! ### What readers get from the editor -/

/-- The number of readers that a turn sends away with nothing. -/
def eofs (l : List ReadTurn) : ℕ := l.countP fun t => t.ret = some 0

/-- What a turn gives to a reader: the characters it consumes without `^D`, one line at most; it
consumes `^D` only as the whole of a call that returns 0, and no other call that asks for input
returns 0. -/
theorem takeFrom_spec (killed first : Bool) (n : ℕ) (l : List UInt8) :
    (takeFrom killed first n l).1 ++ (takeFrom killed first n l).2.1 = l ∧
      (takeFrom killed first n l).2.2.2 = (takeFrom killed first n l).1.filter (· ≠ 4) ∧
      (10 ∉ (takeFrom killed first n l).2.2.2.dropLast) ∧
      (10 ∈ (takeFrom killed first n l).2.2.2 → ∃ m, (takeFrom killed first n l).2.2.1 = .done m) ∧
      (∀ m, (takeFrom killed first n l).2.2.1 = .wait m ∨ (takeFrom killed first n l).2.2.1 = .done m →
        m + (takeFrom killed first n l).2.2.2.length = n) ∧
      (4 ∈ (takeFrom killed first n l).1 → first = true ∧ (takeFrom killed first n l).1 = [4] ∧
        (takeFrom killed first n l).2.2.1 = .done n) ∧
      (0 < n → (takeFrom killed first n l).2.2.1 = .done n → first = true →
        (takeFrom killed first n l).1 = [4]) := by
  induction n generalizing first l with
  | zero => simp [takeFrom]
  | succ n ih =>
    cases l with
    | nil => cases killed <;> simp [takeFrom]
    | cons x l =>
      by_cases h4 : x = 4
      · subst h4
        cases first <;> simp [takeFrom]
      by_cases h10 : x = 10
      · subst h10
        simp [takeFrom]
      obtain ⟨h₁, h₂, h₃, h₄, h₅, h₆, h₇⟩ := ih false l
      have hno4 : 4 ∉ (takeFrom killed false n l).1 := fun h => Bool.false_ne_true (h₆ h).1
      simp only [takeFrom, if_neg h4, if_neg h10]
      refine ⟨by simp [h₁], by simp [h₂, h4], ?_, fun h => ?_, fun m hm => ?_, fun h => ?_, ?_⟩
      · cases hb : (takeFrom killed false n l).2.2.2 with
        | nil => simp
        | cons y ys =>
          rw [hb] at h₃
          rw [List.dropLast_cons_cons]
          simp [Ne.symm h10, h₃]
      · exact h₄ (by simpa [Ne.symm h10] using h)
      · have := h₅ m hm
        simp only [List.length_cons]
        omega
      · simp [Ne.symm h4, hno4] at h
      · intro _ hm
        have := h₅ (n + 1) (.inr hm)
        omega

/-- The bytes that the turns of a run deliver. -/
def delivered (l : List ReadTurn) : List UInt8 := l.flatMap ReadTurn.bytes

/-- The readers of a run consume `X`: they get its characters without `^D`, and as many calls return
0 as there are `^D`s in it. -/
structure Consumes (l : List ReadTurn) (X : List UInt8) : Prop where
  bytes : delivered l = X.filter (· ≠ 4)
  eofs : eofs l = X.count 4
  lines : ∀ t ∈ l, 10 ∉ t.bytes.dropLast ∧ (10 ∈ t.bytes → t.ret.isSome)

theorem consumes_nil : Consumes [] [] := ⟨rfl, rfl, fun _ h => absurd h List.not_mem_nil⟩

theorem Consumes.append {l l' : List ReadTurn} {X X' : List UInt8} (h : Consumes l X)
    (h' : Consumes l' X') : Consumes (l ++ l') (X ++ X') where
  bytes := by
    have h₁ := h.bytes
    have h₂ := h'.bytes
    simp only [delivered] at *
    rw [List.flatMap_append, List.filter_append, h₁, h₂]
  eofs := by
    have h₁ := h.eofs
    have h₂ := h'.eofs
    simp only [Editor.eofs] at *
    rw [List.countP_append, List.count_append, h₁, h₂]
  lines t ht := (List.mem_append.1 ht).elim (h.lines t) (h'.lines t)

theorem turn_consumes (s : TtyState Editor) (pid : ℕ) (killed : Bool) {target n : ℕ} (h0 : 0 < n)
    (hn : n ≤ target) :
    ∃ X, (tty.turn s pid killed target n).1.dev.used = s.dev.used ++ X ∧
      Consumes (tty.turn s pid killed target n).2 X := by
  obtain ⟨-, h₂, h₃, h₄, h₅, h₆, h₇⟩ :=
    takeFrom_spec killed (decide (n = target)) n s.dev.ready
  refine ⟨_, rfl, by simp [delivered, Tty.turn, tty, h₂], ?_, ?_⟩
  · simp only [eofs, Tty.turn, tty, List.countP_singleton, decide_eq_true_eq]
    cases ho : (takeFrom killed (decide (n = target)) n s.dev.ready).2.2.1 with
    | fail =>
      rw [if_neg (by simp [ConsEnd.ret])]
      exact (List.count_eq_zero.2 fun h => by simp [(h₆ h).2.2] at ho).symm
    | wait m =>
      rw [if_neg (by simp [ConsEnd.ret])]
      exact (List.count_eq_zero.2 fun h => by simp [(h₆ h).2.2] at ho).symm
    | done m =>
      have hm := h₅ m (.inr ho)
      by_cases hmt : m = target
      · -- the call returns 0 although it asked for input
        obtain rfl : m = n := by omega
        rw [h₇ h0 ho (by simp [hmt]), if_pos (by simp [ConsEnd.ret, hmt])]
        rfl
      · rw [if_neg (by simp [ConsEnd.ret]; omega)]
        refine (List.count_eq_zero.2 fun h => ?_).symm
        obtain ⟨hf, -, hd⟩ := h₆ h
        rw [ho, ConsEnd.done.injEq] at hd
        exact hmt (hd.trans (by simpa using hf))
  · intro t ht
    obtain rfl := List.mem_singleton.1 ht
    refine ⟨h₃, fun h => ?_⟩
    obtain ⟨m, hm⟩ := h₄ h
    simp [tty, hm, ConsEnd.ret]

theorem short (killed : Bool) (target n : ℕ) (d : Editor) (m : ℕ)
    (h : (tty.take killed target n d).2.1 = .wait m) : 0 < m ∧ m ≤ n := by
  have h₅ := (takeFrom_spec killed (decide (n = target)) n d.ready).2.2.2.2.1 m (.inl h)
  refine ⟨?_, by omega⟩
  simp only [tty] at h
  generalize decide (n = target) = first at h
  generalize d.ready = l at h
  clear h₅
  induction n generalizing first l with
  | zero => simp [takeFrom] at h
  | succ n ih =>
    cases l with
    | nil =>
      cases killed with
      | true => simp [takeFrom] at h
      | false =>
        obtain rfl : n + 1 = m := by simpa [takeFrom] using h
        exact Nat.succ_pos n
    | cons x l =>
      by_cases h4 : x = 4
      · cases first <;> simp [takeFrom, h4] at h
      by_cases h10 : x = 10
      · simp [takeFrom, h10] at h
      simp only [takeFrom, if_neg h4, if_neg h10] at h
      exact ih false l h

theorem key_used (ch : UInt8) (d : Editor) : (d.key ch).used = d.used := by
  unfold key type
  split_ifs <;> rfl

theorem step_consumes (s : TtyState Editor) (hs : Tty.Asked s.asleep) (e : TtyEvent)
    (he : Tty.Positive [e]) :
    ∃ X, (tty.step s e).1.dev.used = s.dev.used ++ X ∧ Consumes (tty.step s e).2 X ∧
      Tty.Asked (tty.step s e).1.asleep := by
  have idle : ∃ X, s.dev.used = s.dev.used ++ X ∧ Consumes [] X ∧ Tty.Asked s.asleep :=
    ⟨[], (List.append_nil _).symm, consumes_nil, hs⟩
  cases e with
  | key ch =>
    obtain ⟨X, hX, h⟩ := idle
    exact ⟨X, (key_used ch s.dev).trans hX, h⟩
  | read pid n killed =>
    simp only [Tty.step]
    cases s.asleep pid with
    | none =>
      obtain ⟨X, hX, h⟩ := turn_consumes s pid killed (he pid n killed (List.mem_singleton_self _))
        (Nat.le_refl n)
      exact ⟨X, hX, h, Tty.asked_turn hs pid killed (Nat.le_refl n) (short killed n n s.dev)⟩
    | some v => exact idle
  | resume pid killed =>
    simp only [Tty.step]
    cases hp : s.asleep pid with
    | none => exact idle
    | some v =>
      have hv := hs pid v.1 v.2 hp
      obtain ⟨X, hX, h⟩ := turn_consumes s pid killed hv.1 hv.2
      exact ⟨X, hX, h, Tty.asked_turn hs pid killed hv.2 (short killed v.1 v.2 s.dev)⟩

/-- The readers of a run get what was committed, in order. -/
theorem run_consumes (s : TtyState Editor) (hs : Tty.Asked s.asleep) (es : List TtyEvent)
    (hes : Tty.Positive es) :
    ∃ X, (tty.run s es).1.dev.used = s.dev.used ++ X ∧ Consumes (tty.run s es).2 X := by
  induction es generalizing s with
  | nil => exact ⟨[], (List.append_nil _).symm, consumes_nil⟩
  | cons e es ih =>
    obtain ⟨X, hX, hc, hs'⟩ := step_consumes s hs e fun pid n killed h =>
      hes pid n killed (List.mem_cons.2 (.inl (List.mem_singleton.1 h)))
    obtain ⟨Y, hY, hc'⟩ := ih _ hs' fun pid n killed h => hes pid n killed (List.mem_cons_of_mem _ h)
    exact ⟨X ++ Y, by rw [Tty.run, hY, hX, List.append_assoc], hc.append hc'⟩

end Editor

/-! ## The ring -/

namespace Cons

/-- The ring holds the characters of `ready` from `cons_r` on and those of `line` after them. -/
structure Shows (c : Cons) (ready line : List UInt8) : Prop where
  w : c.w = c.r + BitVec.ofNat 32 ready.length
  e : c.e = c.w + BitVec.ofNat 32 line.length
  room : ready.length + line.length ≤ size
  cell : ∀ i (h : i < (ready ++ line).length), c.buf ((c.r.toNat + i) % size) = (ready ++ line)[i]

variable {c : Cons} {ready line : List UInt8}

/-- The counters differ by the numbers of characters. -/
theorem Shows.counts (h : c.Shows ready line) : (c.w - c.r).toNat = ready.length ∧
    (c.e - c.w).toNat = line.length ∧ (c.e - c.r).toNat = ready.length + line.length := by
  have hw := h.w
  have he := h.e
  have hroom := h.room
  simp only [size] at hroom
  refine ⟨?_, ?_, ?_⟩ <;> bv_omega

/-- The last character of the line is gone. -/
theorem Shows.erase {x : UInt8} (h : c.Shows ready (line ++ [x])) :
    ({ c with e := c.e - 1 } : Cons).Shows ready line where
  w := h.w
  e := by
    have he := h.e
    have hroom := h.room
    simp only [size, List.length_append, List.length_singleton] at he hroom
    simp only
    bv_omega
  room := by
    have hroom := h.room
    simp only [List.length_append, List.length_singleton] at hroom
    omega
  cell i hi := by
    have hcell := h.cell i (by simp at hi ⊢; omega)
    rw [hcell]
    simp only [← List.append_assoc]
    exact List.getElem_append_left hi

/-- The cell before `cons_e` has the last character. -/
theorem Shows.last {x : UInt8} (h : c.Shows ready (line ++ [x])) :
    c.buf ((c.e - 1).toNat % size) = x := by
  have hw := h.w
  have he := h.e
  have hroom := h.room
  have hcell := h.cell (ready.length + line.length) (by simp)
  simp only [size, List.length_append, List.length_singleton] at he hroom hcell ⊢
  have hidx : (c.e - 1).toNat % 128 = (c.r.toNat + (ready.length + line.length)) % 128 := by
    bv_omega
  rw [hidx, hcell]
  simp

/-- `^U` erases the line: no character of it is a newline. -/
theorem Shows.killLine (h : c.Shows ready line) (hl : 10 ∉ line) :
    (c.killLine line.length).Shows ready [] := by
  induction line using List.reverseRecOn generalizing c with
  | nil => exact h
  | append_singleton l x ih =>
    have hne : c.e ≠ c.w := fun he => by
      have := h.counts.2.1
      simp [he] at this
    have hx : x ≠ 10 := fun e => hl (by simp [e])
    rw [List.length_append, List.length_singleton, Cons.killLine,
      if_pos ⟨hne, by rw [h.last]; exact hx⟩]
    exact ih h.erase fun h' => hl (List.mem_append_left _ h')

/-- A character is stored. -/
theorem Shows.push (h : c.Shows ready line) (x : UInt8)
    (hroom : ready.length + line.length < size) : ({ c with
      buf := fun j => if j = c.e.toNat % size then x else c.buf j
      e := c.e + 1 } : Cons).Shows ready (line ++ [x]) := by
  have hw := h.w
  have he := h.e
  simp only [size] at hroom
  refine ⟨hw, ?_, ?_, fun i hi => ?_⟩
  · simp only [List.length_append, List.length_singleton]
    bv_omega
  · simp only [size, List.length_append, List.length_singleton]
    omega
  · have hidx : c.e.toNat % size = (c.r.toNat + (ready.length + line.length)) % size := by
      simp only [size]
      bv_omega
    simp only [List.length_append, List.length_singleton] at hi
    simp only [hidx]
    by_cases hil : i = ready.length + line.length
    · subst hil
      simp
    · -- less than 128 characters: the cells differ
      rw [if_neg (by simp only [size]; omega), h.cell i (by simp; omega)]
      simp only [← List.append_assoc]
      exact (List.getElem_append_left (by simp; omega)).symm

/-- The line is committed. -/
theorem Shows.commit (h : c.Shows ready line) :
    ({ c with w := c.e } : Cons).Shows (ready ++ line) [] where
  w := by
    have hw := h.w
    have he := h.e
    simp only [List.length_append]
    bv_omega
  e := by simp
  room := by simpa using h.room
  cell i hi := by simpa using h.cell i (by simpa using hi)

/-- The first committed character is in the cell of `cons_r`. -/
theorem Shows.front {x : UInt8} (h : c.Shows (x :: ready) line) :
    c.buf (c.r.toNat % size) = x ∧ c.r ≠ c.w := by
  refine ⟨by simpa using h.cell 0 (by simp), fun he => ?_⟩
  have := h.counts.1
  simp [he] at this

/-- A character is read. -/
theorem Shows.pop {x : UInt8} (h : c.Shows (x :: ready) line) :
    ({ c with r := c.r + 1 } : Cons).Shows ready line where
  w := by
    have hw := h.w
    have hroom := h.room
    simp only [size, List.length_cons] at hw hroom
    simp only
    bv_omega
  e := h.e
  room := by
    have hroom := h.room
    simp only [List.length_cons] at hroom
    omega
  cell i hi := by
    have hcell := h.cell (i + 1) (by simp at hi ⊢; omega)
    have hidx : ((c.r + 1).toNat + i) % size = (c.r.toNat + (i + 1)) % size := by
      simp only [size]
      bv_omega
    simp only [hidx, hcell]
    simp

theorem Shows.empty (h : c.Shows [] line) : c.r = c.w := by
  have hw := h.w
  simp at hw
  exact hw.symm

/-- A turn of `consoleread` does what a reader of the editor does. -/
theorem Shows.readLoop (h : c.Shows ready line) (killed : Bool) {target n : ℕ} (hn : n ≤ target) :
    (c.readLoop killed (fun _ => true) target n).1.Shows
        (Editor.takeFrom killed (decide (n = target)) n ready).2.1 line ∧
      (c.readLoop killed (fun _ => true) target n).2 =
        (Editor.takeFrom killed (decide (n = target)) n ready).2.2.1 ∧
      c.readBytes (fun _ => true) target n =
        (Editor.takeFrom killed (decide (n = target)) n ready).2.2.2 := by
  induction n generalizing c ready with
  | zero => exact ⟨h, rfl, rfl⟩
  | succ n ih =>
    cases ready with
    | nil =>
      have he := h.empty
      simp only [Cons.readLoop, Cons.readBytes, if_pos he, Editor.takeFrom]
      exact ⟨h, trivial, trivial⟩
    | cons x l =>
      obtain ⟨hx, hne⟩ := h.front
      simp only [Cons.readLoop, Cons.readBytes, if_neg hne, hx, Editor.takeFrom]
      by_cases h4 : x = 4
      · simp only [if_pos h4]
        by_cases ht : n + 1 = target
        · rw [if_neg (by omega), if_pos (by simp [ht])]
          exact ⟨h.pop, rfl, rfl⟩
        · rw [if_pos (by omega), if_neg (by simp [ht])]
          refine ⟨?_, rfl, rfl⟩
          have hr : c.r + 1 - 1 = c.r := by bv_omega
          simpa only [hr] using h
      by_cases h10 : x = 10
      · subst h10
        simp only [if_neg h4]
        exact ⟨h.pop, rfl, rfl⟩
      · have hfirst : decide (n = target) = false := decide_eq_false (by omega)
        obtain ⟨h₁, h₂, h₃⟩ := ih h.pop (by omega)
        rw [hfirst] at h₁ h₂ h₃
        simp only [if_neg h4, if_neg h10, Bool.true_eq_false, if_false]
        exact ⟨h₁, h₂, by rw [h₃]⟩

/-- The console shows the state of an editor. -/
def Edits (c : Cons) (d : Editor) : Prop := c.Shows d.ready d.line ∧ 10 ∉ d.line

/-- A character of text. -/
theorem Edits.store {d : Editor} (h : c.Edits d) (x : UInt8) (hroom : (c.e - c.r).toNat < size) :
    (c.store x).1.Edits (d.type x) := by
  obtain ⟨hs, hl⟩ := h
  have hheld : (c.e - c.r).toNat = d.held := hs.counts.2.2
  rw [hheld] at hroom
  have hp := hs.push x hroom
  have hfull : c.e + 1 - c.r = BitVec.ofNat 32 size ↔ d.held + 1 = 128 := by
    have hcount := hp.counts.2.2
    simp only [List.length_append, List.length_singleton] at hcount
    simp only [Editor.held]
    rw [← BitVec.toNat_inj, hcount]
    simp [size]
    omega
  unfold Cons.store Editor.type
  simp only [hfull]
  rw [if_neg (show ¬ 128 ≤ d.held by simp only [size] at hroom; omega)]
  by_cases hend : x = 10 ∨ x = 4 ∨ d.held + 1 = 128
  · rw [if_pos hend, if_pos hend]
    exact ⟨hp.commit, List.not_mem_nil⟩
  · rw [if_neg hend, if_neg hend]
    exact ⟨hp, by simp [hl, Ne.symm (fun h => hend (.inl h))]⟩

/-- `consoleintr` does what a key does to the editor. -/
theorem Edits.intr {d : Editor} (h : c.Edits d) (ch : UInt8) : (c.intr ch).1.Edits (d.key ch) := by
  obtain ⟨hs, hl⟩ := h
  have hheld : (c.e - c.r).toNat = d.held := hs.counts.2.2
  unfold Cons.intr Editor.key
  by_cases hp : ch = 16
  · rw [if_pos hp, if_pos (.inl hp)]
    exact ⟨hs, hl⟩
  by_cases hu : ch = 21
  · rw [if_neg hp, if_pos hu, if_neg (by simp [hu]), if_pos hu, hs.counts.2.1]
    exact ⟨hs.killLine hl, List.not_mem_nil⟩
  by_cases hb : ch = 8 ∨ ch = 127
  · have h0 : ¬ (ch = 16 ∨ ch = 0) := by
      rintro (rfl | rfl) <;> simp at hb hp
    rw [if_neg hp, if_neg hu, if_pos hb, if_neg h0, if_neg hu, if_pos hb]
    rcases List.eq_nil_or_concat d.line with hnil | ⟨l, x, hlx⟩
    · have he : c.e = c.w := by
        have := hs.e
        simpa [hnil] using this
      rw [if_neg (by simp [he])]
      simpa [Edits, hnil] using hs
    · rw [List.concat_eq_append] at hlx
      have hne : c.e ≠ c.w := fun he => by
        have := hs.counts.2.1
        simp [he, hlx] at this
      rw [if_pos hne]
      rw [hlx] at hs hl
      refine ⟨?_, ?_⟩
      · simpa [hlx] using hs.erase
      · simpa [hlx] using fun h' => hl (List.mem_append_left _ h')
  rw [if_neg hp, if_neg hu, if_neg hb]
  by_cases h0 : ch = 0
  · rw [if_neg (by simp [h0]), if_pos (.inr h0)]
    exact ⟨hs, hl⟩
  rw [if_neg (show ¬ (ch = 16 ∨ ch = 0) from not_or.2 ⟨hp, h0⟩), if_neg hu, if_neg hb]
  by_cases hroom : (c.e - c.r).toNat < size
  · rw [if_pos ⟨h0, hroom⟩]
    exact Edits.store ⟨hs, hl⟩ _ hroom
  · rw [if_neg fun h => hroom h.2, Editor.type, if_pos (by simp only [size] at hroom; omega)]
    exact ⟨hs, hl⟩

theorem edits_matches : Tty.Matches consTty Editor.tty Edits where
  key ch h := h.intr ch
  take killed target n hn h := by
    obtain ⟨h₁, h₂, h₃⟩ := h.1.readLoop killed hn
    exact ⟨⟨h₁, h.2⟩, Prod.ext h₂ h₃⟩
  short := Editor.short

theorem edits_init : init.Edits Editor.empty :=
  ⟨⟨rfl, rfl, by simp [Editor.empty], fun i hi => by simp [Editor.empty] at hi⟩, List.not_mem_nil⟩

end Cons

/-- **Console input refines a line editor.** After any sequence of characters and turns of readers
that ask for some input, the counters are in order with at most 128 characters between the first
and the last; the readers got the bytes and results that the editor gives them; and these are, in
order, the characters `used` that the editor committed, without `^D`, one line at most for each call,
with one call that returns 0 for each `^D`. -/
theorem console_refines_editor (es : List TtyEvent) (hes : Tty.Positive es) :
    let s := consTty.run ⟨Cons.init, fun _ => none⟩ es
    let t := Editor.tty.run ⟨Editor.empty, fun _ => none⟩ es
    (s.1.dev.w - s.1.dev.r).toNat ≤ (s.1.dev.e - s.1.dev.r).toNat ∧
      (s.1.dev.e - s.1.dev.r).toNat ≤ Cons.size ∧ s.2 = t.2 ∧ Editor.Consumes s.2 t.1.dev.used := by
  intro s t
  have asked : Tty.Asked fun _ => none := fun pid target n h => by cases h
  obtain ⟨ha, he⟩ := Cons.edits_matches.run (s := ⟨Cons.init, fun _ => none⟩)
    (t := ⟨Editor.empty, fun _ => none⟩) ⟨Cons.edits_init, rfl, asked⟩ es
  obtain ⟨X, hX, hc⟩ := Editor.run_consumes ⟨Editor.empty, fun _ => none⟩ asked es hes
  obtain ⟨h₁, -, h₃⟩ := ha.dev.1.counts
  have hroom := ha.dev.1.room
  refine ⟨by rw [h₁, h₃]; exact Nat.le_add_right _ _, by rw [h₃]; exact hroom, he, ?_⟩
  rw [he]
  have hu : t.1.dev.used = X := hX
  rw [hu]
  exact hc

/-- The keys `h`, backspace, `i`, carriage return and `^D`, and two readers. -/
theorem console_refines_editor_hi :
    let es := [.read 1 5 false, .key 104, .key 8, .key 105, .key 13, .key 4, .resume 1 false,
      .read 2 9 false]
    Tty.Positive es ∧ (consTty.run ⟨Cons.init, fun _ => none⟩ es).2 =
      [⟨1, [], none⟩, ⟨1, [105, 10], some 2⟩, ⟨2, [], some 0⟩] := by
  have hes : Tty.Positive [.read 1 5 false, .key 104, .key 8, .key 105, .key 13, .key 4,
      .resume 1 false, .read 2 9 false] := by
    intro pid n killed h
    simp at h
    omega
  refine ⟨hes, (console_refines_editor _ hes).2.2.1.trans ?_⟩
  decide

end Xv6
