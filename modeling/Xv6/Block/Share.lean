import Mathlib.Data.List.Nodup
import Xv6.Block.Phases

/-!
# The block layer shared by many threads

The invariant of the buffer cache and the log under any interleaving of their callers (`Inv`), and
what a thread knows in spite of the others (`View`): the buffers it has locked, the blocks of the
buffers it has a reference to, and, while it commits, the device, the list of logged blocks and the
pinned buffers. Every atomic section of `bio.c` and `log.c` keeps the invariant and the views of
the other threads (`Guar`). A section that changes one buffer and nothing else is treated once, in
`Local.guar`.
-/

namespace Xv6

open Conc BlockSt

variable (ls : ℕ)

/-- Every valid copy of a log block agrees with the device. -/
def LogSync (s : BlockSt) : Prop :=
  ∀ i, (s.buf i).valid = true → InLog ls (s.buf i).blockno →
    (s.buf i).data = blockAt s.disk (s.buf i).blockno

/-- The invariant of the block layer. -/
structure Inv (s : BlockSt) : Prop where
  wf : CacheWF s
  used : ∀ i, (s.buf i).valid = true ∨ s.aux.users i ≠ [] →
    (s.buf i).dev = rootdev ∧ (s.buf i).blockno < 2 ^ 31
  refs : ∀ i, (s.buf i).refcnt = (s.aux.users i).length + if s.aux.pinned i then 1 else 0
  locked : ∀ i t, (s.buf i).lock = some t → t ∈ s.aux.users i
  pin : ∀ i, s.aux.pinned i = true → (s.buf i).valid = true ∧ (s.buf i).blockno ∈ s.lh
  data : ∀ i, (s.buf i).valid = true → Home ls (s.buf i).blockno →
    (s.buf i).data = s.aux.latest (s.buf i).blockno
  unlogged : ∀ b, Home ls b → b ∉ s.lh → blockAt s.disk b = s.aux.latest b
  logged : ∀ b ∈ s.lh, Home ls b ∧ ((∃ i, s.Carries i rootdev b ∧ s.aux.pinned i = true) ∨
    s.committing = true ∧ blockAt s.disk b = s.aux.latest b)
  nodup : s.lh.Nodup
  room : s.lh.length ≤ logblocks
  idle : s.committing = false → s.aux.committer = none ∧ LogSync ls s
  busy : s.committing = true → s.outstanding = 0 ∧ s.aux.committer ≠ none

/-- What the committing thread can count on: nobody else writes to the device, logs a block or
unpins a buffer, and a log block that appears in the cache comes from the device. -/
structure Steady (s s' : BlockSt) : Prop where
  disk : s'.disk = s.disk
  lh : s'.lh = s.lh
  committer : s'.aux.committer = s.aux.committer
  latest : s'.aux.latest = s.aux.latest
  pinned : s'.aux.pinned = s.aux.pinned
  pins : ∀ i, s.aux.pinned i = true →
    (s'.buf i).dev = (s.buf i).dev ∧ (s'.buf i).blockno = (s.buf i).blockno
  fresh : ∀ i, (s'.buf i).valid = true → InLog ls (s'.buf i).blockno →
    (s.buf i).valid = true ∧ (s'.buf i).blockno = (s.buf i).blockno ∧
      (s'.buf i).data = (s.buf i).data ∨
    (s'.buf i).data = blockAt s.disk (s'.buf i).blockno

/-- A buffer as its holder sees it: all but the reference count. -/
structure SameHeld (x y : Buf) : Prop where
  lock : y.lock = x.lock
  valid : y.valid = x.valid
  dev : y.dev = x.dev
  blockno : y.blockno = x.blockno
  data : y.data = x.data

/-- What thread `t` knows is untouched, except for its locks on the buffers in `X`. -/
structure Calm (t : Tid) (X : BufId → Prop) (s s' : BlockSt) : Prop where
  held : ∀ i, ¬ X i → (s.buf i).lock = some t → SameHeld (s.buf i) (s'.buf i) ∧
    s'.aux.latest (s.buf i).blockno = s.aux.latest (s.buf i).blockno
  commit : s.aux.committer = some t → Steady ls s s'

/-- What the other threads leave to thread `t`. -/
structure View (t : Tid) (s s' : BlockSt) : Prop where
  calm : Calm ls t (fun _ => False) s s'
  users : ∀ i, (s'.aux.users i).count t = (s.aux.users i).count t
  block : ∀ i, t ∈ s.aux.users i →
    (s'.buf i).dev = (s.buf i).dev ∧ (s'.buf i).blockno = (s.buf i).blockno
  free : ∀ i, (s'.buf i).lock = some t → (s.buf i).lock = some t

/-- What a section of thread `t` does: it keeps the invariant and the views of the others, and a
commit ends with an empty log. -/
def Guar (t : Tid) (s s' : BlockSt) : Prop :=
  Inv ls s → Inv ls s' ∧ (∀ u, u ≠ t → View ls u s s') ∧
    (s.committing = true → s'.committing = false → s'.lh = [])

variable {ls} {s s' s'' : BlockSt} {t u : Tid} {i : BufId} {X : BufId → Prop}

/-! ## Views compose -/

theorem SameHeld.refl (x : Buf) : SameHeld x x := ⟨rfl, rfl, rfl, rfl, rfl⟩

theorem SameHeld.trans {x y z : Buf} (h : SameHeld x y) (h' : SameHeld y z) : SameHeld x z :=
  ⟨h'.lock.trans h.lock, h'.valid.trans h.valid, h'.dev.trans h.dev, h'.blockno.trans h.blockno,
    h'.data.trans h.data⟩

theorem Steady.refl (s : BlockSt) : Steady ls s s :=
  ⟨rfl, rfl, rfl, rfl, rfl, fun _ _ => ⟨rfl, rfl⟩, fun _ hv _ => .inl ⟨hv, rfl, rfl⟩⟩

theorem Steady.trans (h : Steady ls s s') (h' : Steady ls s' s'') : Steady ls s s'' := by
  refine ⟨h'.disk.trans h.disk, h'.lh.trans h.lh, h'.committer.trans h.committer,
    h'.latest.trans h.latest, h'.pinned.trans h.pinned, fun i hi => ?_, fun i hv hl => ?_⟩
  · have h₁ := h.pins i hi
    have h₂ := h'.pins i (by rw [h.pinned]; exact hi)
    exact ⟨h₂.1.trans h₁.1, h₂.2.trans h₁.2⟩
  · rcases h'.fresh i hv hl with ⟨hv', hno, hd⟩ | hd
    · rw [hno] at hl
      rcases h.fresh i hv' hl with ⟨hv₀, hno₀, hd₀⟩ | hd₀
      · exact .inl ⟨hv₀, hno.trans hno₀, hd.trans hd₀⟩
      · exact .inr (by rw [hd, hd₀, hno])
    · exact .inr (by rw [hd, h.disk])

/-- A synced log stays synced. -/
theorem Steady.logSync (h : Steady ls s s') (hs : LogSync ls s) : LogSync ls s' := by
  intro i hv hl
  rw [h.disk]
  rcases h.fresh i hv hl with ⟨hv₀, hno, hd⟩ | hd
  · rw [hd, hno]
    exact hs i hv₀ (hno ▸ hl)
  · exact hd

theorem Calm.refl (t : Tid) (X : BufId → Prop) (s : BlockSt) : Calm ls t X s s :=
  ⟨fun _ _ _ => ⟨.refl _, rfl⟩, fun _ => .refl s⟩

theorem Calm.trans (h : Calm ls t X s s') (h' : Calm ls t X s' s'') : Calm ls t X s s'' := by
  refine ⟨fun i hX hi => ?_, fun hc => ?_⟩
  · obtain ⟨h₁, hl₁⟩ := h.held i hX hi
    obtain ⟨h₂, hl₂⟩ := h'.held i hX (h₁.lock.trans hi)
    refine ⟨h₁.trans h₂, ?_⟩
    rw [← hl₁, ← h₁.blockno, hl₂]
  · have h₁ := h.commit hc
    exact h₁.trans (h'.commit (h₁.committer.trans hc))

theorem View.refl (t : Tid) (s : BlockSt) : View ls t s s :=
  ⟨.refl t _ s, fun _ => rfl, fun _ _ => ⟨rfl, rfl⟩, fun _ h => h⟩

theorem View.mem_users (h : View ls t s s') (hi : t ∈ s.aux.users i) : t ∈ s'.aux.users i := by
  rw [← List.count_pos_iff, h.users i, List.count_pos_iff]
  exact hi

theorem View.trans (h : View ls t s s') (h' : View ls t s' s'') : View ls t s s'' := by
  refine ⟨h.calm.trans h'.calm, fun i => (h'.users i).trans (h.users i), fun i hi => ?_,
    fun i hi => h.free i (h'.free i hi)⟩
  have h₁ := h.block i hi
  have h₂ := h'.block i (h.mem_users hi)
  exact ⟨h₂.1.trans h₁.1, h₂.2.trans h₁.2⟩

/-! ## Facts of the invariant -/

theorem Inv.carries (h : Inv ls s) (hi : s.aux.users i ≠ []) :
    s.Carries i rootdev (s.buf i).blockno :=
  ⟨(h.used i (.inr hi)).1, rfl⟩

theorem Inv.users_ne_nil (h : Inv ls s) (hi : (s.buf i).lock = some t) : s.aux.users i ≠ [] :=
  List.ne_nil_of_mem (h.locked i t hi)

theorem Inv.committing_of_committer (h : Inv ls s) (hc : s.aux.committer = some t) :
    s.committing = true := by
  by_contra hn
  have := (h.idle (by simpa using hn)).1
  rw [hc] at this
  cases this

/-- The device holds what was last logged for a block that is not valid in the cache. -/
theorem Inv.disk_of_not_valid (h : Inv ls s) {b : ℕ} (hb : Home ls b)
    (hn : ∀ j, s.Carries j rootdev b → (s.buf j).valid = false) :
    blockAt s.disk b = s.aux.latest b := by
  by_cases hlh : b ∈ s.lh
  · rcases (h.logged b hlh).2 with ⟨j, hj, hp⟩ | ⟨-, hd⟩
    · have hv := (h.pin j hp).1
      rw [hn j hj] at hv
      cases hv
    · exact hd
  · exact h.unlogged b hb hlh

/-! ## A change of one buffer -/

/-- Thread `t` changes buffer `i` and its users, and nothing else but the order of the list. -/
structure Local (ls : ℕ) (t : Tid) (i : BufId) (s s' : BlockSt) : Prop where
  rest : s' = { s with buf := s'.buf, lru := s'.lru, aux := { s.aux with users := s'.aux.users } }
  other : ∀ j, j ≠ i → s'.buf j = s.buf j ∧ s'.aux.users j = s.aux.users j
  wf : CacheWF s'
  used : (s'.buf i).valid = true ∨ s'.aux.users i ≠ [] →
    (s'.buf i).dev = rootdev ∧ (s'.buf i).blockno < 2 ^ 31
  refs : (s'.buf i).refcnt = (s'.aux.users i).length + if s.aux.pinned i then 1 else 0
  locked : ∀ u, (s'.buf i).lock = some u → u ∈ s'.aux.users i
  pin : s.aux.pinned i = true → (s'.buf i).valid = true ∧ (s'.buf i).dev = (s.buf i).dev ∧
    (s'.buf i).blockno = (s.buf i).blockno
  data : (s'.buf i).valid = true →
    (s.buf i).valid = true ∧ (s'.buf i).blockno = (s.buf i).blockno ∧
      (s'.buf i).data = (s.buf i).data ∨
    (s'.buf i).data = blockAt s.disk (s'.buf i).blockno ∧
      ∀ j, s.Carries j rootdev (s'.buf i).blockno → (s.buf j).valid = false
  users : ∀ u, u ≠ t → (s'.aux.users i).count u = (s.aux.users i).count u
  block : ∀ u, u ≠ t → u ∈ s.aux.users i →
    (s'.buf i).dev = (s.buf i).dev ∧ (s'.buf i).blockno = (s.buf i).blockno
  lock : ∀ u, u ≠ t → (s.buf i).lock = some u → SameHeld (s.buf i) (s'.buf i)
  free : ∀ u, u ≠ t → (s'.buf i).lock = some u → (s.buf i).lock = some u

namespace Local

variable (h : Local ls t i s s')

include h

theorem disk : s'.disk = s.disk := by rw [h.rest]

theorem lh : s'.lh = s.lh := by rw [h.rest]

theorem committing : s'.committing = s.committing := by rw [h.rest]

theorem outstanding : s'.outstanding = s.outstanding := by rw [h.rest]

theorem committer : s'.aux.committer = s.aux.committer := by rw [h.rest]

theorem latest : s'.aux.latest = s.aux.latest := by rw [h.rest]

theorem pinned : s'.aux.pinned = s.aux.pinned := by rw [h.rest]

theorem steady : Steady ls s s' := by
  refine ⟨h.disk, h.lh, h.committer, h.latest, h.pinned, fun j hj => ?_, fun j hv hl => ?_⟩
  · by_cases hji : j = i
    · subst hji
      exact (h.pin hj).2
    · rw [(h.other j hji).1]
      exact ⟨rfl, rfl⟩
  · by_cases hji : j = i
    · subst hji
      exact (h.data hv).imp_right And.left
    · rw [(h.other j hji).1] at hv ⊢
      exact .inl ⟨hv, rfl, rfl⟩

theorem inv (hI : Inv ls s) : Inv ls s' := by
  have hcarry : ∀ j b, s.aux.pinned j = true → s.Carries j rootdev b → s'.Carries j rootdev b := by
    intro j b hp hc
    by_cases hji : j = i
    · subst hji
      exact ⟨(h.pin hp).2.1.trans hc.1, (h.pin hp).2.2.trans hc.2⟩
    · exact (Carries.of_buf_eq (h.other j hji).1).2 hc
  refine ⟨h.wf, fun j hj => ?_, fun j => ?_, fun j u hj => ?_, fun j hj => ?_, fun j hv hh => ?_, ?_,
    ?_, ?_, ?_, ?_, ?_⟩
  · by_cases hji : j = i
    · subst hji
      exact h.used hj
    · rw [(h.other j hji).1] at hj ⊢
      rw [(h.other j hji).2] at hj
      exact hI.used j hj
  · rw [h.pinned]
    by_cases hji : j = i
    · subst hji
      exact h.refs
    · rw [(h.other j hji).1, (h.other j hji).2]
      exact hI.refs j
  · by_cases hji : j = i
    · subst hji
      exact h.locked u hj
    · rw [(h.other j hji).1] at hj
      rw [(h.other j hji).2]
      exact hI.locked j u hj
  · rw [h.pinned] at hj
    rw [h.lh]
    by_cases hji : j = i
    · subst hji
      rw [(h.pin hj).2.2]
      exact ⟨(h.pin hj).1, (hI.pin j hj).2⟩
    · rw [(h.other j hji).1]
      exact hI.pin j hj
  · rw [h.latest]
    by_cases hji : j = i
    · subst hji
      rcases h.data hv with ⟨hv₀, hno, hd⟩ | ⟨hd, hn⟩
      · rw [hd, hno]
        exact hI.data j hv₀ (hno ▸ hh)
      · rw [hd]
        exact hI.disk_of_not_valid hh hn
    · rw [(h.other j hji).1] at hv hh ⊢
      exact hI.data j hv hh
  · rw [h.disk, h.lh, h.latest]
    exact hI.unlogged
  · rw [h.disk, h.lh, h.latest, h.pinned, h.committing]
    refine fun b hb => ⟨(hI.logged b hb).1, (hI.logged b hb).2.imp_left ?_⟩
    rintro ⟨j, hc, hp⟩
    exact ⟨j, hcarry j b hp hc, hp⟩
  · rw [h.lh]
    exact hI.nodup
  · rw [h.lh]
    exact hI.room
  · rw [h.committing, h.committer]
    exact fun hc => ⟨(hI.idle hc).1, h.steady.logSync (hI.idle hc).2⟩
  · rw [h.committing, h.committer, h.outstanding]
    exact hI.busy

theorem view (hu : u ≠ t) : View ls u s s' := by
  refine ⟨⟨fun j _ hj => ⟨?_, by rw [h.latest]⟩, fun _ => h.steady⟩, fun j => ?_, fun j hj => ?_,
    fun j hj => ?_⟩
  · by_cases hji : j = i
    · subst hji
      exact h.lock u hu hj
    · rw [(h.other j hji).1]
      exact .refl _
  · by_cases hji : j = i
    · subst hji
      exact h.users u hu
    · rw [(h.other j hji).2]
  · by_cases hji : j = i
    · subst hji
      exact h.block u hu hj
    · rw [(h.other j hji).1]
      exact ⟨rfl, rfl⟩
  · by_cases hji : j = i
    · subst hji
      exact h.free u hu hj
    · rw [(h.other j hji).1] at hj
      exact hj

theorem guar : Guar ls t s s' := fun hI =>
  ⟨h.inv hI, fun _ hu => h.view hu, fun hc hc' => by
    rw [h.committing, hc] at hc'
    cases hc'⟩

/-- The thread that changes the buffer keeps what it knows of the rest. -/
theorem calm (hX : ¬ X i → (s.buf i).lock = some t → SameHeld (s.buf i) (s'.buf i)) :
    Calm ls t X s s' := by
  refine ⟨fun j hj hl => ⟨?_, by rw [h.latest]⟩, fun _ => h.steady⟩
  by_cases hji : j = i
  · subst hji
    exact hX hj hl
  · rw [(h.other j hji).1]
    exact .refl _

end Local

/-! ## The sections of the buffer cache -/

theorem Inv.lock_ne_of_refcnt (h : Inv ls s) (hz : (s.buf i).refcnt = 0) :
    s.aux.users i = [] ∧ s.aux.pinned i = false ∧ (s.buf i).lock = none := by
  have hr := h.refs i
  have hu : s.aux.users i = [] := List.length_eq_zero_iff.1 (by omega)
  refine ⟨hu, ?_, ?_⟩
  · by_contra hp
    rw [if_pos (by simpa using hp)] at hr
    omega
  · cases hl : (s.buf i).lock with
    | none => rfl
    | some u =>
      have := h.locked i u hl
      rw [hu] at this
      cases this

theorem bgetRef_local {b : ℕ} (hI : Inv ls s) (hb : b < 2 ^ 31)
    (hf : bgetRef rootdev b t s = .ok i s') :
    Local ls t i s s' ∧ Calm ls t (fun _ => False) s s' ∧ t ∈ s'.aux.users i ∧
      s'.Carries i rootdev b := by
  rcases bgetRef_ok hf with ⟨hc, rfl⟩ | ⟨hn, hz, rfl⟩
  · have hloc : Local ls t i s ((s.setBuf i { s.buf i with refcnt := (s.buf i).refcnt + 1 }).setUsers
        i (t :: s.aux.users i)) := by
      refine ⟨rfl, fun j hj => by simp [setBuf, setUsers, hj], ?_, ?_, ?_, ?_, ?_, ?_, ?_, ?_, ?_,
        ?_⟩
      · exact hI.wf.of_setBuf (i := i) (by simp) (by simp) (fun j hj => by simp [setBuf, hj])
          hI.wf.mem_lru
      · intro _
        simpa [hc.1, hc.2] using hb
      · simp [setUsers, hI.refs i]
        omega
      · intro u hu
        simp only [setUsers_buf, setBuf_buf_self] at hu
        simp [setUsers, hI.locked i u hu]
      · intro hp
        simp [(hI.pin i hp).1]
      · intro hv
        exact .inl ⟨by simpa using hv, by simp, by simp⟩
      · intro u hu
        simp [setUsers, hu.symm]
      · intro u _ _
        simp
      · intro u _ hl
        exact ⟨by simp, by simp, by simp, by simp, by simp⟩
      · intro u _ hl
        simpa using hl
    refine ⟨hloc, hloc.calm fun _ hl => ⟨by simp, by simp, by simp, by simp, by simp⟩,
      by simp [setUsers], by simpa [Carries] using hc⟩
  · obtain ⟨hu, hp, hl⟩ := hI.lock_ne_of_refcnt hz
    have hn' : ∀ j, ¬ s.Carries j rootdev b := fun j => hn j (hI.wf.mem_lru j)
    have hloc : Local ls t i s ((s.setBuf i { s.buf i with
        dev := rootdev, blockno := b, valid := false, refcnt := 1 }).setUsers i [t]) := by
      refine ⟨rfl, fun j hj => by simp [setBuf, setUsers, hj], ?_, ?_, ?_, ?_, ?_, ?_, ?_, ?_, ?_,
        ?_⟩
      · exact hI.wf.recycle hn' (i := i) (by simp) (fun j hj => by simp [setBuf, hj]) hI.wf.mem_lru
      · intro _
        simpa using hb
      · simp [setUsers, hp]
      · intro u hu'
        simp [hl] at hu'
      · intro hp'
        rw [hp] at hp'
        cases hp'
      · intro hv
        simp at hv
      · intro u hut
        simp [setUsers, hu, hut.symm]
      · intro u _ hu'
        rw [hu] at hu'
        cases hu'
      · intro u _ hl'
        rw [hl] at hl'
        cases hl'
      · intro u _ hl'
        simp [hl] at hl'
    refine ⟨hloc, hloc.calm fun _ hl' => ?_, by simp [setUsers], by simp [Carries]⟩
    rw [hl] at hl'
    cases hl'

/-- A change of a buffer that has a user and is locked by no other thread. -/
theorem Inv.local_setBuf {x : Buf} (hI : Inv ls s) (hu : t ∈ s.aux.users i)
    (hx : x = { s.buf i with valid := x.valid, lock := x.lock, data := x.data })
    (hold : ∀ u, (s.buf i).lock = some u → u = t) (hnew : ∀ u, x.lock = some u → u = t)
    (hvalid : (s.buf i).valid = true → x.valid = true)
    (hdata : x.valid = true → (s.buf i).valid = true ∧ x.data = (s.buf i).data ∨
      x.data = blockAt s.disk (s.buf i).blockno ∧
        ∀ j, s.Carries j rootdev (s.buf i).blockno → (s.buf j).valid = false) :
    Local ls t i s (s.setBuf i x) := by
  have hdev : x.dev = (s.buf i).dev := by rw [hx]
  have hno : x.blockno = (s.buf i).blockno := by rw [hx]
  have hcnt : x.refcnt = (s.buf i).refcnt := by rw [hx]
  have hself : (s.setBuf i x).buf i = x := by simp
  refine ⟨rfl, fun j hj => by simp [setBuf, hj], ?_, fun _ => ?_, ?_, fun u hl => ?_, fun hp => ?_,
    fun hv => ?_, fun _ _ => rfl, fun _ _ _ => ?_, fun u hut hl => absurd (hold u hl) hut,
    fun u hut hl => absurd (hnew u (hself ▸ hl)) hut⟩
  · exact hI.wf.of_setBuf (i := i) (by rw [hself, hdev]) (by rw [hself, hno])
      (fun j hj => by simp [setBuf, hj]) hI.wf.mem_lru
  · rw [hself, hdev, hno]
    exact hI.used i (.inr (List.ne_nil_of_mem hu))
  · rw [hself, hcnt]
    exact hI.refs i
  · rw [hnew u (hself ▸ hl)]
    exact hu
  · rw [hself]
    exact ⟨hvalid (hI.pin i hp).1, hdev, hno⟩
  · rw [hself] at hv ⊢
    rw [hno]
    exact (hdata hv).imp_left fun h => ⟨h.1, rfl, h.2⟩
  · rw [hself]
    exact ⟨hdev, hno⟩

theorem acquireBuf_local {b : ℕ} (hI : Inv ls s) (hu : t ∈ s.aux.users i)
    (hc : s.Carries i rootdev b) (hf : acquireBuf i t s = .ok () s') :
    Local ls t i s s' ∧ Calm ls t (fun _ => False) s s' ∧ (s'.buf i).lock = some t ∧
      s'.Carries i rootdev b ∧ (s.buf i).lock = none := by
  unfold acquireBuf at hf
  cases hl : (s.buf i).lock with
  | some u => simp [hl] at hf
  | none =>
    obtain rfl : s.setBuf i { s.buf i with lock := some t } = s' := by simpa [hl] using hf
    have hloc := hI.local_setBuf (x := { s.buf i with lock := some t }) hu rfl
      (fun u hl' => by rw [hl] at hl'; cases hl') (fun u hl' => (Option.some.inj hl').symm) id
      fun hv => .inl ⟨hv, rfl⟩
    refine ⟨hloc, hloc.calm fun _ hl' => ?_, by simp, by simpa [Carries] using hc, rfl⟩
    rw [hl] at hl'
    cases hl'

theorem fillBuf_local {b : ℕ} (hI : Inv ls s) (hl : (s.buf i).lock = some t)
    (hc : s.Carries i rootdev b) (hf : fillBuf i t s = .ok () s') :
    Local ls t i s s' ∧ Calm ls t (· = i) s s' ∧ (s'.buf i).lock = some t ∧
      s'.Carries i rootdev b ∧ (s'.buf i).valid = true := by
  have hu := hI.locked i t hl
  have hmine : ∀ u, (s.buf i).lock = some u → u = t := fun u hl' => Option.some.inj (hl'.symm.trans hl)
  obtain rfl : (if (s.buf i).valid then s else s.setBuf i { s.buf i with
      valid := true, data := blockAt s.disk (s.buf i).blockno }) = s' := by simpa [fillBuf] using hf
  by_cases hv : (s.buf i).valid = true
  · rw [if_pos hv]
    have hloc : Local ls t i s s := by
      refine ⟨rfl, fun _ _ => ⟨rfl, rfl⟩, hI.wf, hI.used i, hI.refs i, hI.locked i,
        fun hp => ⟨hv, rfl, rfl⟩, fun _ => .inl ⟨hv, rfl, rfl⟩, fun _ _ => rfl,
        fun _ _ _ => ⟨rfl, rfl⟩, fun _ _ _ => .refl _, fun _ _ h => h⟩
    exact ⟨hloc, .refl _ _ _, hl, hc, hv⟩
  · rw [if_neg hv]
    have hloc := hI.local_setBuf (x := { s.buf i with
      valid := true, data := blockAt s.disk (s.buf i).blockno }) hu rfl hmine hmine (fun _ => rfl)
      fun _ => .inr ⟨rfl, fun j hj => ?_⟩
    · exact ⟨hloc, hloc.calm fun hX => absurd rfl hX, by simpa using hl, by simpa [Carries] using hc,
        by simp⟩
    · obtain rfl : j = i := hI.wf.uniq j i b (by simpa [hc.2] using hj) hc
      simpa using hv

theorem releaseBuf_local (hI : Inv ls s) (hf : releaseBuf i t s = .ok () s') :
    Local ls t i s s' ∧ Calm ls t (· = i) s s' ∧ t ∈ s'.aux.users i ∧ (s'.buf i).lock = none := by
  unfold releaseBuf at hf
  by_cases hl : (s.buf i).lock = some t
  · obtain rfl : s.setBuf i { s.buf i with lock := none } = s' := by simpa [hl] using hf
    have hu := hI.locked i t hl
    have hloc := hI.local_setBuf (x := { s.buf i with lock := none }) hu rfl
      (fun u hl' => Option.some.inj (hl'.symm.trans hl)) (fun u hl' => by cases hl') id
      fun hv => .inl ⟨hv, rfl⟩
    exact ⟨hloc, hloc.calm fun hX => absurd rfl hX, hu, by simp⟩
  · simp [hl] at hf

theorem bput_local (hI : Inv ls s) (hu : t ∈ s.aux.users i) (hl : (s.buf i).lock ≠ some t)
    (hf : bput i t s = .ok () s') :
    Local ls t i s s' ∧ Calm ls t (fun _ => False) s s' := by
  obtain rfl : { (s.setBuf i { s.buf i with refcnt := (s.buf i).refcnt - 1 }).setUsers i
      ((s.aux.users i).erase t) with
    lru := if (s.buf i).refcnt - 1 = 0 then i :: s.lru.erase i else s.lru } = s' := by
    simpa [bput] using hf
  have hlen := List.length_erase_of_mem hu
  have hpos := List.length_pos_of_mem hu
  have hloc : Local ls t i s { (s.setBuf i { s.buf i with refcnt := (s.buf i).refcnt - 1 }).setUsers i
      ((s.aux.users i).erase t) with
    lru := if (s.buf i).refcnt - 1 = 0 then i :: s.lru.erase i else s.lru } := by
    refine ⟨rfl, fun j hj => by simp [setBuf, setUsers, hj], ?_, ?_, ?_, ?_, ?_, ?_, ?_, ?_, ?_,
        ?_⟩
    · refine hI.wf.of_setBuf (i := i) (by simp) (by simp) (fun j hj => by simp [setBuf, hj])
        fun j => ?_
      simpa using hI.wf.mem_front _ i j
    · intro _
      simpa using hI.used i (.inr (List.ne_nil_of_mem hu))
    · have := hI.refs i
      simp [setUsers, hlen]
      omega
    · intro u hu'
      have hl' : (s.buf i).lock = some u := by simpa using hu'
      have hut : u ≠ t := fun he => hl (he ▸ hl')
      simp [setUsers, (List.mem_erase_of_ne hut).2 (hI.locked i u hl')]
    · intro hp
      simp [(hI.pin i hp).1]
    · intro hv
      exact .inl ⟨by simpa using hv, by simp, by simp⟩
    · intro u hut
      simp [setUsers, List.count_erase_of_ne hut]
    · intro u _ _
      simp
    · intro u _ _
      exact ⟨by simp, by simp, by simp, by simp, by simp⟩
    · intro u _ hl'
      simpa using hl'
  exact ⟨hloc, hloc.calm fun _ hl' => absurd hl' hl⟩

end Xv6
