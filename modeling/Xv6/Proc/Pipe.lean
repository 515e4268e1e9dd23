import Xv6.Lib.RingBuf

/-!
# Pipes

The buffer of a pipe and the loops of `pipewrite` and `piperead`, as functions on the pipe. Each
function is what a process does to the pipe while it holds `pi->lock`, up to the point where it
returns or sleeps. The user's memory is a parameter: which bytes `copyin` delivers, and at which
`copyout` fails.

`sent` and `got` are auxiliary: the bytes `pipewrite` has stored and the bytes `piperead` has
copied out, in order.
-/

namespace Xv6

/-- `PIPESIZE`. -/
abbrev pipesize : ℕ := 512

/-- `struct pipe`. -/
structure Pipe extends RingBuf UInt8 32 where
  readopen : Bool
  writeopen : Bool
  sent : List UInt8
  got : List UInt8

/-- How a turn of `pipewrite` ends: the reader is gone or the process killed, the pipe is full with
`i` bytes written, or all is done that can be, with `i` bytes written. -/
inductive WriteEnd
  | fail
  | full (i : ℕ)
  | done (i : ℕ)
  deriving DecidableEq

namespace Pipe

/-- The pipe as `pipealloc` leaves it; the contents of the page are arbitrary. -/
def fresh (data : ℕ → UInt8) : Pipe := ⟨⟨data, 0, 0⟩, true, true, [], []⟩

/-- `pi->data[pi->nwrite++ % PIPESIZE] = ch`. -/
def put (p : Pipe) (ch : UInt8) : Pipe :=
  { p with toRingBuf := p.toRingBuf.push pipesize ch, sent := p.sent ++ [ch] }

/-- `pi->nread++`, after the copy of the byte. -/
def take (p : Pipe) : Pipe :=
  { p with toRingBuf := p.toRingBuf.pop, got := p.got ++ [p.front pipesize] }

/-- `pi->nwrite == pi->nread + PIPESIZE`. -/
def Full (p : Pipe) : Prop := p.nwrite = p.nread + BitVec.ofNat 32 pipesize

instance (p : Pipe) : Decidable p.Full := inferInstanceAs (Decidable (_ = _))

/-- `pi->nread == pi->nwrite`. -/
def Empty (p : Pipe) : Prop := p.nread = p.nwrite

instance (p : Pipe) : Decidable p.Empty := inferInstanceAs (Decidable (_ = _))

/-- The loop of `pipewrite` with `k` bytes to go, of which `i` is the next: `src` is what `copyin`
reads. -/
def writeLoop (killed : Bool) (src : ℕ → Option UInt8) : ℕ → ℕ → Pipe → Pipe × WriteEnd
  | 0, i, p => (p, .done i)
  | k + 1, i, p =>
    if p.readopen = false ∨ killed then (p, .fail)
    else if p.Full then (p, .full i)
    else match src i with
      | none => (p, .done i)
      | some ch => writeLoop killed src k (i + 1) (p.put ch)

/-- The second loop of `piperead` with `k` turns to go, of which `i` is the next: `dst` says which
bytes `copyout` can write. -/
def readLoop (dst : ℕ → Bool) : ℕ → ℕ → Pipe → Pipe × ℤ
  | 0, i, p => (p, i)
  | k + 1, i, p =>
    if p.Empty then (p, i)
    else if dst i then readLoop dst k (i + 1) p.take
    else (p, if i = 0 then -1 else i)

/-- `pipeclose`, under the lock. -/
def close (p : Pipe) (writable : Bool) : Pipe :=
  if writable then { p with writeopen := false } else { p with readopen := false }

/-! ## The bytes come out as they went in -/

/-- The pipe holds what was sent and not yet got. -/
def Sound (p : Pipe) : Prop := p.toRingBuf.Tracks pipesize p.sent p.got

variable {p : Pipe} {killed : Bool} {src : ℕ → Option UInt8} {dst : ℕ → Bool} {k i : ℕ}

theorem sound_fresh (data : ℕ → UInt8) : (fresh data).Sound := RingBuf.tracks_empty data

theorem Sound.put (h : p.Sound) (hf : ¬ p.Full) (ch : UInt8) : (p.put ch).Sound := by
  have hne : p.sent.length ≠ p.got.length + pipesize := fun he =>
    hf ((RingBuf.Tracks.full_iff h (by decide)).2 he)
  have hroom := h.room
  exact RingBuf.Tracks.push h (by decide) ch (by omega)

theorem Sound.take (h : p.Sound) (he : ¬ p.Empty) : p.take.Sound := by
  have hne : p.sent.length ≠ p.got.length := fun hl =>
    he ((RingBuf.Tracks.empty_iff h (by decide)).2 hl)
  have hle := h.length_le
  have hlt : p.got.length < p.sent.length := by omega
  exact RingBuf.Tracks.pop h (by decide) hlt

theorem Sound.writeLoop (h : p.Sound) : (p.writeLoop killed src k i).1.Sound := by
  induction k generalizing i p with
  | zero => exact h
  | succ k ih =>
    unfold Pipe.writeLoop
    split
    · exact h
    · split
      · exact h
      · rename_i hf
        split
        · exact h
        · exact ih (h.put hf _)

theorem Sound.readLoop (h : p.Sound) : (p.readLoop dst k i).1.Sound := by
  induction k generalizing i p with
  | zero => exact h
  | succ k ih =>
    unfold Pipe.readLoop
    split
    · exact h
    · rename_i he
      split
      · exact ih (h.take he)
      · exact h

theorem Sound.close (h : p.Sound) (writable : Bool) : (p.close writable).Sound := by
  unfold Pipe.close
  split <;> exact h

/-! ## What the loops leave alone -/

/-- `pipewrite` does not touch the reading end. A turn that fails has written nothing, since the
conditions that make it fail cannot come up in the middle of it. -/
theorem writeLoop_spec (p : Pipe) (killed : Bool) (src : ℕ → Option UInt8) (k i : ℕ) :
    (p.writeLoop killed src k i).1.readopen = p.readopen ∧
    (p.writeLoop killed src k i).1.writeopen = p.writeopen ∧
    match (p.writeLoop killed src k i).2 with
    | .fail => (p.writeLoop killed src k i).1 = p
    | .full _ => (p.writeLoop killed src k i).1.Full ∧ p.readopen = true ∧ killed = false
    | .done _ => True := by
  by_cases hf : p.readopen = false ∨ killed = true
  · cases k with
    | zero => exact ⟨rfl, rfl, trivial⟩
    | succ k =>
      unfold writeLoop
      rw [if_pos hf]
      exact ⟨rfl, rfl, rfl⟩
  · have hopen : p.readopen = true ∧ killed = false := by simpa using hf
    -- from here on the turn cannot fail
    suffices h : ∀ (k i : ℕ) (q : Pipe), q.readopen = p.readopen → q.writeopen = p.writeopen →
        (q.writeLoop killed src k i).1.readopen = p.readopen ∧
        (q.writeLoop killed src k i).1.writeopen = p.writeopen ∧
        (q.writeLoop killed src k i).2 ≠ .fail ∧
        ∀ j, (q.writeLoop killed src k i).2 = .full j → (q.writeLoop killed src k i).1.Full by
      obtain ⟨hr, hw, hne, hfull⟩ := h k i p rfl rfl
      refine ⟨hr, hw, ?_⟩
      cases he : (p.writeLoop killed src k i).2 with
      | fail => exact absurd he hne
      | full j => exact ⟨hfull j he, hopen⟩
      | done j => trivial
    intro k
    induction k with
    | zero => exact fun i q hr hw => ⟨hr, hw, by simp [writeLoop], by simp [writeLoop]⟩
    | succ k ih =>
      intro i q hr hw
      unfold writeLoop
      rw [if_neg (by rw [hr]; exact hf)]
      split
      · rename_i hfull
        exact ⟨hr, hw, by simp, fun _ _ => hfull⟩
      · split
        · exact ⟨hr, hw, by simp, by simp⟩
        · exact ih (i + 1) _ hr hw

/-- `pipewrite` puts nothing in a full pipe. -/
theorem writeLoop_full (h : p.Full) (killed : Bool) (src : ℕ → Option UInt8) (k i : ℕ) :
    (p.writeLoop killed src k i).1 = p := by
  cases k with
  | zero => rfl
  | succ k =>
    unfold writeLoop
    rw [if_pos h]
    split <;> rfl

/-- `piperead` takes the bytes it has copied, and those alone. -/
theorem readLoop_spec (p : Pipe) (dst : ℕ → Bool) (k i : ℕ) :
    ∃ l : List UInt8, (p.readLoop dst k i).1.got = p.got ++ l ∧
    (∀ j < l.length, dst (i + j) = true) ∧
    (p.readLoop dst k i).1.nread = p.nread + BitVec.ofNat 32 l.length ∧
    (p.readLoop dst k i).1.readopen = p.readopen ∧
    (p.readLoop dst k i).1.writeopen = p.writeopen ∧
    ((p.readLoop dst k i).2 = i + l.length ∨
      i = 0 ∧ l = [] ∧ (p.readLoop dst k i).2 = -1 ∧ dst 0 = false) ∧
    (l = [] → 0 < k → (p.readLoop dst k i).2 = i → i = 0 → p.Empty) := by
  induction k generalizing i p with
  | zero => exact ⟨[], by simp [readLoop]⟩
  | succ k ih =>
    unfold readLoop
    split
    · rename_i he
      exact ⟨[], by simp [he]⟩
    · rename_i he
      split
      · rename_i hd
        obtain ⟨l, hgot, hdst, hn, hr, hw, hret, -⟩ := ih p.take (i + 1)
        refine ⟨p.front pipesize :: l, ?_, fun j hj => ?_, ?_, hr, hw, .inl ?_, by simp⟩
        · rw [hgot]
          simp [take]
        · cases j with
          | zero => exact hd
          | succ j =>
            rw [show i + (j + 1) = i + 1 + j by omega]
            exact hdst j (by simpa using hj)
        · rw [hn, List.length_cons, BitVec.ofNat_add, BitVec.add_comm (BitVec.ofNat 32 l.length),
            ← BitVec.add_assoc]
          rfl
        · rcases hret with hret | ⟨h0, -⟩
          · rw [hret, List.length_cons]
            push_cast
            omega
          · omega
      · rename_i hd
        by_cases hi : i = 0
        · subst hi
          exact ⟨[], by simp_all⟩
        · exact ⟨[], by simp [hi]⟩

end Pipe

end Xv6
