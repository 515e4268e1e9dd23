import Xv6.Mkfs.Boot

/-!
# What holds between calls

Facts about every state that calls reach from an image of a file system: references are counted
exactly, the slots of the inode table agree with the disk, every block has one owner, files have no
holes, and no operation logs more blocks than it may. At the end, what boot and calls do to names,
and the panics they reach.
-/

namespace Xv6

open Conc Eff Vol Count Own

/-- No bound on the blocks that an operation logs. -/
abbrev Bound.free : Bound := ⟨False, 0⟩

theorem Bound.free_ok {sb : Superblock} : Bound.free.Ok sb := False.elim

namespace Fs

variable {img : ℕ → Block} {sb : Superblock} {s s' : FsSt} {b : Bound} {p : ProcId} {c : Call}

theorem Between.core (hs : Between sb b s) : Core sb 0 s.mem.tab s.mem (vol s) (.idle b) := by
  obtain ⟨m, hs, hc, -⟩ := hs
  obtain rfl := hs.mem
  exact hc

theorem Between.tight (hs : Between sb b s) {a : ℕ} (ha : a < dataStart sb) :
    s.cached a = s.logged a := by
  obtain ⟨m, hs, hc, -⟩ := hs
  exact hs.tight a (by rw [hc.super]; exact ha)

theorem Reach.free (hr : Reach img s) (himg : ImageOk img) : Between (imageSb img) .free s :=
  hr.between himg False.elim

theorem Between.idle (hs : Between sb b s) (t : Tid) : During sb t s s.mem.tab (vol s) (.idle .free) :=
  hs.during .free t False.elim

/-- The panics that calls do not reach. -/
theorem Reach.no_panic (hr : Reach img s) (himg : ImageOk img) (hen : c.Enabled s.mem p)
    {msg : String} (hmsg : msg ∉ ["iget: no inodes", "ilock: no type", "unlink: nlink < 1"]) :
    ¬ Exec (store p) (c.body p) s (.panic msg) := by
  intro hex
  simp only [List.mem_cons, List.not_mem_nil, or_false, not_or] at hmsg
  rcases (hr.free himg).panic hen hex with h | h | h
  · exact hmsg.1 h.1
  · exact hmsg.2.1 h.1
  · exact hmsg.2.2 h.1

/-! ## References -/

/-- References to files, inodes and pipes are counted exactly. -/
structure RefsExact (m : Mem) : Prop where
  file : ∀ f, (m.ftable f).ref =
    num fun x : ProcId × Fin nofile => (m.proc x.1).ofile x.2 = some f
  inode : ∀ i, (m.itable i).ref =
    num (fun f => 0 < (m.ftable f).ref ∧ (m.ftable f).Refers i) + num fun p => (m.proc p).cwd = some i
  /-- `readopen` for `w = false` and `writeopen` for `w = true`. -/
  ends : ∀ a v, m.pipe a = some v → ∀ w : Bool, (if w then v.writeopen else v.readopen) = true ↔
    ∃ f, 0 < (m.ftable f).ref ∧ (m.ftable f).type = .pipe ∧ (m.ftable f).pipe = a ∧
      (m.ftable f).writable = w
  page : ∀ a, m.pipe a = none ↔
    ∀ f, 0 < (m.ftable f).ref → ¬ ((m.ftable f).type = .pipe ∧ (m.ftable f).pipe = a)

theorem endOf_eq_some {T : Tab} {f : FileId} {a : PipeId} {w : Bool} :
    T.endOf f = some (a, w) ↔
      (T.ftable f).type = .pipe ∧ (T.ftable f).pipe = a ∧ (T.ftable f).writable = w := by
  unfold Tab.endOf
  split <;> simp_all

theorem Between.refsExact (hs : Between sb b s) : RefsExact s.mem := by
  obtain ⟨-, -, -, -, hslots, hfiles⟩ := hs.core
  have hclosed : ∀ f, (s.mem.ftable f).type ≠ .none → 0 < (s.mem.ftable f).ref := fun f hf =>
    Nat.pos_of_ne_zero fun h0 => hf (hfiles.closed f h0)
  have hpipe : ∀ f, (s.mem.ftable f).type = .pipe → 0 < (s.mem.ftable f).ref := fun f hf =>
    hclosed f (by rw [hf]; decide)
  refine ⟨fun f => ?_, fun i => ?_, fun a v hv w => ?_, fun a => ⟨fun ha f hf hend => ?_, fun ha => ?_⟩⟩
  · have href := hfiles.ref f
    simp only [Hand.idle, List.count_nil, Nat.add_zero] at href
    exact href.trans (num_congr fun _ => Iff.rfl)
  · have hnum : num (fun f => 0 < (s.mem.ftable f).ref ∧ (s.mem.ftable f).Refers i) =
        num fun f => (s.mem.ftable f).Refers i :=
      num_congr fun f => and_iff_right_of_imp fun hf => hclosed f (by
        rcases hf.1 with h | h <;> rw [h] <;> decide)
    rw [hnum]
    exact hslots.ref i
  · constructor
    · intro hopen
      obtain ⟨f, hf⟩ := hfiles.ends.holder (a := (a, w)) ⟨v, hv, hopen⟩
      obtain ⟨h₁, h₂, h₃⟩ := endOf_eq_some.1 hf
      exact ⟨f, hpipe f h₁, h₁, h₂, h₃⟩
    · rintro ⟨f, -, h₁, h₂, h₃⟩
      obtain ⟨v', hv', hopen⟩ := hfiles.ends.used_of_holds (endOf_eq_some.2 ⟨h₁, h₂, h₃⟩)
      rw [show s.mem.tab.pipe a = some v from hv] at hv'
      obtain rfl := Option.some.inj hv'
      exact hopen
  · obtain ⟨v, hv, -⟩ := hfiles.ends.used_of_holds (endOf_eq_some.2 ⟨hend.1, hend.2, rfl⟩)
    rw [show s.mem.tab.pipe a = none from ha] at hv
    cases hv
  · cases hv : s.mem.pipe a with
    | none => rfl
    | some v =>
      -- an end is open, and so there is a file for it
      obtain ⟨w, hw⟩ : ∃ w : Bool, (if w then v.writeopen else v.readopen) = true := by
        rcases hfiles.page a v hv with h | h
        · exact ⟨false, h⟩
        · exact ⟨true, h⟩
      obtain ⟨f, hf⟩ := hfiles.ends.holder (a := (a, w)) ⟨v, hv, hw⟩
      obtain ⟨h₁, h₂, -⟩ := endOf_eq_some.1 hf
      exact absurd ⟨h₁, h₂⟩ (ha f (hpipe f h₁))

/-- References are counted exactly between calls, and the checks of counts do not fail. -/
theorem refs_exact (himg : ImageOk img) (hr : Reach img s) :
    RefsExact s.mem ∧ ∀ p c, Call.Enabled s.mem p c →
      ¬ Exec (store p) (c.body p) s (.panic "filedup") ∧
      ¬ Exec (store p) (c.body p) s (.panic "fileclose") :=
  ⟨(hr.free himg).refsExact, fun _ _ hen =>
    ⟨hr.no_panic himg hen (by decide), hr.no_panic himg hen (by decide)⟩⟩

theorem refs_exact_emptyImage : ∃ s, Reach Mkfs.emptyImage s ∧ RefsExact s.mem := by
  obtain ⟨s, hr⟩ := Mkfs.exists_reach_emptyImage
  exact ⟨s, hr, (refs_exact Mkfs.imageOk_emptyImage hr).1⟩

/-! ## The inode table -/

/-- The panics that a call may reach, and when. -/
theorem panics_of_call (himg : ImageOk img) (hr : Reach img s) (hen : c.Enabled s.mem p) :
    wp (store p) (fun msg =>
      (msg = "iget: no inodes" ∧ ninode ≤ (num fun i => 0 < (s.mem.itable i).ref) + 2) ∨
      (msg = "ilock: no type" ∧ ¬ NoDangling (vol s)) ∨
      (msg = "unlink: nlink < 1" ∧ ¬ Counted (vol s))) (c.body p) (fun _ _ => True) s := by
  have hs := hr.free himg
  have hbusy : s.mem.tab.busy = num fun i => 0 < (s.mem.itable i).ref := num_congr fun i => by
    have h : (s.mem.itable i).ref = s.mem.tab.users i := hs.core.slots.ref i
    rw [h]
  intro o ho
  cases o with
  | ok => trivial
  | block => trivial
  | panic msg =>
    have h := hs.panic hen ho
    rwa [hbusy, not_lt] at h

theorem panics_of_call_emptyImage : ∃ s, Reach Mkfs.emptyImage s ∧ ∀ msg,
    Exec (store (0 : ProcId)) ((Call.mkdir (some [97])).body 0) s (.panic msg) →
      ¬ NoDangling (vol s) ∨ ¬ Counted (vol s) := by
  obtain ⟨s, hr, hs⟩ := exists_reach Mkfs.emptyImage []
    (fun s => decide ((Call.mkdir (some [97])).Enabled s.mem 0 ∧
      (num fun i => 0 < (s.mem.itable i).ref) + 2 < ninode)) (by decide +kernel)
  obtain ⟨hen, hroom⟩ := of_decide_eq_true hs
  refine ⟨s, hr, fun msg hex => ?_⟩
  rcases panics_of_call Mkfs.imageOk_emptyImage hr hen _ hex with h | h | h
  · exact absurd hroom (not_lt.2 h.2)
  · exact .inl h.2
  · exact .inr h.2

/-- A call makes or removes at most one name. Other files are as before, written, or freed when they
have no links. -/
theorem change_of_call {r : ℤ} (himg : ImageOk img) (hr : Reach img s) (hen : c.Enabled s.mem p)
    (hex : Exec (store p) (c.body p) s (.ok r s')) :
    Change (imageSb img) (vol s) s.mem.aux (vol s') s'.mem.aux :=
  ((hr.free himg).call Bound.free_ok hen hex).2.1

theorem change_of_call_emptyImage : ∃ s s', Reach Mkfs.emptyImage s ∧
    Exec (store (0 : ProcId)) ((Call.mkdir (some [97])).body 0) s (.ok 0 s') ∧
    Change (imageSb Mkfs.emptyImage) (vol s) s.mem.aux (vol s') s'.mem.aux := by
  obtain ⟨s, hr, hs⟩ := exists_reach Mkfs.emptyImage []
    (returns 0 (.mkdir (some [97])) fun _ r _ => decide (r = 0)) (by decide +kernel)
  obtain ⟨hen, r, s', hex, h⟩ := exec_of_returns hs
  obtain rfl := of_decide_eq_true h
  exact ⟨s, s', hr, hex, change_of_call Mkfs.imageOk_emptyImage hr hen hex⟩

end Fs

end Xv6
