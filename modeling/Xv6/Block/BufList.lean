import Xv6.Lib.Linked
import Xv6.Block.Bio
import Mathlib.Data.Fintype.Card

/-!
# The buffer list

`bio.c` with the list of buffers as the code has it: two pointers in each buffer and in `bhead`, the
stores of `binit` and `brelse` to them, and the two searches of `bget`, which follow the pointers until
they come to `bhead` again. `refcnt` is a `uint`. What a thread does under `bcache_lock` is one step, and
so are the two steps on the sleep lock; threads take their steps in any order.

The fields of `Refs` are auxiliary. They count who has a reference to a buffer: the threads that wait for
its sleep lock, those that are in `brelse` between its two sections, and the pins. A run from `binit` keeps
its steps, the last one first, so that the time of the last release of a buffer can be read from it.
-/

namespace Xv6.BufList

open Conc

/-- Who has a reference to a buffer, next to the holder of its sleep lock. -/
structure Refs where
  waiting : List Tid
  leaving : List Tid
  pins : ℕ

/-- The cache: the pointers, the buffers, and the auxiliary counts. -/
structure Cache where
  links : Links BufId
  buf : BufId → Buf
  refs : BufId → Refs

namespace Cache

/-- The state with buffer `i` replaced. -/
def setBuf (s : Cache) (i : BufId) (b : Buf) : Cache := { s with buf := Function.update s.buf i b }

/-- The state with the references to buffer `i` replaced. -/
def setRefs (s : Cache) (i : BufId) (r : Refs) : Cache := { s with refs := Function.update s.refs i r }

theorem buf_setBuf_self (s : Cache) (i : BufId) (b : Buf) : (s.setBuf i b).buf i = b :=
  Function.update_self ..

/-- Buffer `i` carries block `b` of device `dev`. -/
def Carries (s : Cache) (i : BufId) (dev b : ℕ) : Prop := (s.buf i).dev = dev ∧ (s.buf i).blockno = b

instance (s : Cache) (i : BufId) (dev b : ℕ) : Decidable (s.Carries i dev b) :=
  inferInstanceAs (Decidable (_ ∧ _))

/-- The threads that hold the buffer or wait for it; one in the middle of `brelse` counts until it has
given its reference back. -/
def users (s : Cache) (i : BufId) : ℕ :=
  (s.refs i).waiting.length + (s.buf i).lock.toList.length + (s.refs i).leaving.length

end Cache

open Cache

/-! ## The code -/

/-- `binit`, from pointers of any value. -/
def binit (L : Links BufId) : Cache where
  links := (List.finRange nbuf).foldl Links.insert L.reset
  buf _ := ⟨false, 0, 0, none, 0, .zero _⟩
  refs _ := ⟨[], [], 0⟩

/-- `bget` under `bcache_lock`. A search that does not come back to `bhead` never ends. -/
def bgetRef (dev b : ℕ) : Action Cache BufId := fun t s =>
  match Links.scan s.links.next (fun i => s.Carries i dev b) (nbuf + 1) (s.links.next none) with
  | none => .block
  | some (some i) =>
    .ok i ((s.setBuf i { s.buf i with refcnt := ((s.buf i).refcnt + 1) % 2 ^ 32 }).setRefs i
      { s.refs i with waiting := t :: (s.refs i).waiting })
  | some none =>
    match Links.scan s.links.prev (fun i => (s.buf i).refcnt == 0) (nbuf + 1) (s.links.prev none) with
    | none => .block
    | some (some i) =>
      .ok i ((s.setBuf i { s.buf i with dev := dev, blockno := b, valid := false, refcnt := 1 }).setRefs i
        { s.refs i with waiting := t :: (s.refs i).waiting })
    | some none => .panic "bget: no buffers"

/-- `acquiresleep(&b->lock)`. -/
def acquireBuf (i : BufId) : Action Cache Unit := fun t s =>
  match (s.buf i).lock with
  | some _ => .block
  | none =>
    .ok () ((s.setBuf i { s.buf i with lock := some t }).setRefs i
      { s.refs i with waiting := (s.refs i).waiting.erase t })

/-- `brelse` up to `releasesleep`. -/
def releaseBuf (i : BufId) : Action Cache Unit := fun t s =>
  if (s.buf i).lock = some t then
    .ok () ((s.setBuf i { s.buf i with lock := none }).setRefs i
      { s.refs i with leaving := t :: (s.refs i).leaving })
  else .panic "brelse"

/-- `brelse` under `bcache_lock`. -/
def bput (i : BufId) : Action Cache Unit := fun t s =>
  let n := ((s.buf i).refcnt + (2 ^ 32 - 1)) % 2 ^ 32
  .ok () { (s.setBuf i { s.buf i with refcnt := n }).setRefs i
      { s.refs i with leaving := (s.refs i).leaving.erase t } with
    links := if n = 0 then (s.links.unlink i).insert i else s.links }

/-- `bpin`. -/
def bpin (i : BufId) : Action Cache Unit := fun _ s =>
  .ok () ((s.setBuf i { s.buf i with refcnt := ((s.buf i).refcnt + 1) % 2 ^ 32 }).setRefs i
    { s.refs i with pins := (s.refs i).pins + 1 })

/-- `bunpin`. -/
def bunpin (i : BufId) : Action Cache Unit := fun _ s =>
  .ok () ((s.setBuf i { s.buf i with refcnt := ((s.buf i).refcnt + (2 ^ 32 - 1)) % 2 ^ 32 }).setRefs i
    { s.refs i with pins := (s.refs i).pins - 1 })

/-! ## Runs -/

/-- What a step does, and to which buffer. -/
inductive Ev
  | bget (t : Tid) (i : BufId)
  | acquire (t : Tid) (i : BufId)
  | release (t : Tid) (i : BufId)
  | put (t : Tid) (i : BufId)
  | pin (i : BufId)
  | unpin (i : BufId)

/-- The steps. A thread calls `brelse` on a buffer that it holds and is in the second half after the first
one; a buffer is unpinned as often as it was pinned. -/
inductive Step (s : Cache) : Ev → Cache → Prop
  | bget {t dev b i s'} : bgetRef dev b t s = .ok i s' → Step s (.bget t i) s'
  | acquire {t i s'} : t ∈ (s.refs i).waiting → acquireBuf i t s = .ok () s' → Step s (.acquire t i) s'
  | release {t i s'} : releaseBuf i t s = .ok () s' → Step s (.release t i) s'
  | put {t i s'} : t ∈ (s.refs i).leaving → bput i t s = .ok () s' → Step s (.put t i) s'
  | pin {t i s'} : bpin i t s = .ok () s' → Step s (.pin i) s'
  | unpin {t i s'} : 0 < (s.refs i).pins → bunpin i t s = .ok () s' → Step s (.unpin i) s'

/-- The runs from `binit` whose steps satisfy `P`, the last step first. -/
inductive Run (P : Cache → Ev → Cache → Prop) (L : Links BufId) : List Ev → Cache → Prop
  | binit : Run P L [] (binit L)
  | step {l s e s'} : Run P L l s → Step s e s' → P s e s' → Run P L (e :: l) s'

variable {s s' : Cache} {e : Ev} {order : List BufId} {i : BufId} {t : Tid} {dev b : ℕ}

/-- Both searches of `bget` end: the first at the buffer that carries the block, the second at the last
buffer of the list without references. -/
theorem bgetRef_eq (h : s.links.Ring order) (hlen : order.length < nbuf + 1) :
    bgetRef dev b t s =
      match order.find? fun i => s.Carries i dev b with
      | some i =>
        .ok i ((s.setBuf i { s.buf i with refcnt := ((s.buf i).refcnt + 1) % 2 ^ 32 }).setRefs i
          { s.refs i with waiting := t :: (s.refs i).waiting })
      | none =>
        match order.reverse.find? fun i => (s.buf i).refcnt == 0 with
        | some i =>
          .ok i ((s.setBuf i { s.buf i with dev := dev, blockno := b, valid := false, refcnt := 1 }).setRefs
            i { s.refs i with waiting := t :: (s.refs i).waiting })
        | none => .panic "bget: no buffers" := by
  unfold bgetRef
  rw [h.scan_next hlen, h.scan_prev hlen]
  cases order.find? fun i => s.Carries i dev b with
  | some i => rfl
  | none =>
    cases order.reverse.find? fun i => (s.buf i).refcnt == 0 with
    | some i => rfl
    | none => rfl

/-- What every state of a run has: the pointers are a circle of all buffers, no block of a device is in
two of them, and the counts count. -/
structure Inv (s : Cache) (order : List BufId) : Prop where
  ring : s.links.Ring order
  nodup : order.Nodup
  mem : ∀ i, i ∈ order
  unique : ∀ i j, (s.buf i).dev ≠ 0 → s.Carries j (s.buf i).dev (s.buf i).blockno → j = i
  count : ∀ i, (s.buf i).refcnt = (s.users i + (s.refs i).pins) % 2 ^ 32

theorem Inv.length_lt (h : Inv s order) : order.length < nbuf + 1 :=
  Nat.lt_succ_of_le ((List.Nodup.length_le_card h.nodup).trans (Fintype.card_fin nbuf).le)

theorem inv_binit (L : Links BufId) : Inv (binit L) (List.finRange nbuf).reverse where
  ring := by
    have hl : ((List.finRange nbuf).reverse ++ []).Nodup := by
      rw [List.append_nil, List.nodup_reverse]
      exact List.nodup_finRange nbuf
    have hring := Links.Ring.reset (L := L) |>.foldl_insert hl
    rwa [List.append_nil] at hring
  nodup := List.nodup_reverse.2 (List.nodup_finRange nbuf)
  mem i := List.mem_reverse.2 (List.mem_finRange i)
  unique i _ hi := absurd rfl hi
  count _ := rfl

/-- Buffer `i` and its references change: to the same block or to one that no buffer carries, and by as
much as the count. -/
theorem Inv.update (h : Inv s order) {x : Buf} {r : Refs} {L : Links BufId} {order' : List BufId}
    (hring : L.Ring order') (hperm : order'.Perm order)
    (hblock : (x.dev = (s.buf i).dev ∧ x.blockno = (s.buf i).blockno) ∨ ∀ j, ¬ s.Carries j x.dev x.blockno)
    (hcount : x.refcnt =
      (r.waiting.length + x.lock.toList.length + r.leaving.length + r.pins) % 2 ^ 32) :
    Inv { (s.setBuf i x).setRefs i r with links := L } order' where
  ring := hring
  nodup := hperm.nodup_iff.2 h.nodup
  mem j := hperm.mem_iff.2 (h.mem j)
  unique j k := by
    intro hdev hk
    unfold Carries setBuf setRefs at *
    simp only at hdev hk
    by_cases hj : j = i
    · rw [hj, Function.update_self] at hdev hk
      by_cases hki : k = i
      · rw [hki, hj]
      · rw [Function.update_of_ne hki] at hk
        obtain ⟨hd, hb⟩ | hno := hblock
        · rw [hd, hb] at hk
          rw [hj]
          exact h.unique i k (hd ▸ hdev) hk
        · exact absurd hk (hno k)
    · rw [Function.update_of_ne hj] at hdev hk
      by_cases hki : k = i
      · rw [hki, Function.update_self] at hk
        obtain ⟨hd, hb⟩ | hno := hblock
        · rw [hki]
          exact h.unique j i hdev ⟨hd.symm.trans hk.1, hb.symm.trans hk.2⟩
        · exact absurd ⟨hk.1.symm, hk.2.symm⟩ (hno j)
      · rw [Function.update_of_ne hki] at hk
        exact h.unique j k hdev hk
  count j := by
    unfold users setBuf setRefs
    by_cases hj : j = i
    · subst hj
      simp only [Function.update_self]
      exact hcount
    · simp only [Function.update_of_ne hj]
      exact h.count j

/-- A step keeps the invariant. The order changes in `brelse`, when the count comes down to 0. -/
theorem Inv.step (h : Inv s order) (hs : Step s e s') :
    (Inv s' order ∧ ∀ t i, e = .put t i → (s'.buf i).refcnt ≠ 0) ∨
    ∃ t i, e = .put t i ∧ Inv s' (i :: order.erase i) ∧ (s'.buf i).refcnt = 0 ∧
      ∀ j ≠ i, s'.buf j = s.buf j := by
  have hc := h.count
  unfold users at hc
  cases hs with
  | @bget t dev b i s' hget =>
    refine .inl ⟨?_, fun _ _ he => by cases he⟩
    have hci := hc i
    rw [bgetRef_eq h.ring h.length_lt] at hget
    cases hfind : order.find? fun i => s.Carries i dev b with
    | some j =>
      rw [hfind] at hget
      obtain ⟨rfl, rfl⟩ := Outcome.ok.inj hget
      refine h.update h.ring (.refl _) (.inl ⟨rfl, rfl⟩) ?_
      simp only [List.length_cons]
      omega
    | none =>
      rw [hfind] at hget
      cases hfree : order.reverse.find? fun i => (s.buf i).refcnt == 0 with
      | none =>
        rw [hfree] at hget
        cases hget
      | some j =>
        rw [hfree] at hget
        obtain ⟨rfl, rfl⟩ := Outcome.ok.inj hget
        have hzero : (s.buf j).refcnt = 0 := by
          have := List.find?_some hfree
          exact beq_iff_eq.1 this
        refine h.update h.ring (.refl _) (.inr fun k hk => ?_) ?_
        · exact List.find?_eq_none.1 hfind k (h.mem k) (decide_eq_true hk)
        · simp only [List.length_cons]
          omega
  | @acquire t i s' ht hacq =>
    refine .inl ⟨?_, fun _ _ he => by cases he⟩
    unfold acquireBuf at hacq
    have hci := hc i
    cases hlock : (s.buf i).lock with
    | some _ =>
      rw [hlock] at hacq
      cases hacq
    | none =>
      rw [hlock] at hacq hci
      obtain ⟨-, rfl⟩ := Outcome.ok.inj hacq
      refine h.update h.ring (.refl _) (.inl ⟨rfl, rfl⟩) ?_
      have hpos := List.length_pos_of_mem ht
      simp only [List.length_erase_of_mem ht, Option.toList_some, Option.toList_none, List.length_cons,
        List.length_nil] at hci ⊢
      omega
  | @release t i s' hrel =>
    refine .inl ⟨?_, fun _ _ he => by cases he⟩
    unfold releaseBuf at hrel
    have hci := hc i
    by_cases hlock : (s.buf i).lock = some t
    · rw [if_pos hlock] at hrel
      rw [hlock] at hci
      obtain ⟨-, rfl⟩ := Outcome.ok.inj hrel
      refine h.update h.ring (.refl _) (.inl ⟨rfl, rfl⟩) ?_
      simp only [Option.toList_some, Option.toList_none, List.length_cons, List.length_nil] at hci ⊢
      omega
    · rw [if_neg hlock] at hrel
      cases hrel
  | @put t i s' ht hput =>
    obtain ⟨-, rfl⟩ := Outcome.ok.inj hput
    have hci := hc i
    have hpos := List.length_pos_of_mem ht
    have hself := buf_setBuf_self s i { s.buf i with refcnt := ((s.buf i).refcnt + (2 ^ 32 - 1)) % 2 ^ 32 }
    have hcount : ((s.buf i).refcnt + (2 ^ 32 - 1)) % 2 ^ 32 = ((s.refs i).waiting.length +
        (s.buf i).lock.toList.length + ((s.refs i).leaving.erase t).length + (s.refs i).pins) % 2 ^ 32 := by
      rw [List.length_erase_of_mem ht]
      omega
    by_cases hzero : ((s.buf i).refcnt + (2 ^ 32 - 1)) % 2 ^ 32 = 0
    · refine .inr ⟨t, i, rfl, ?_, ?_, fun j hj => Function.update_of_ne hj ..⟩
      · rw [if_pos hzero]
        exact h.update (h.ring.moveFront h.nodup (h.mem i)) (List.perm_cons_erase (h.mem i)).symm
          (.inl ⟨rfl, rfl⟩) hcount
      · exact (congrArg Buf.refcnt hself).trans hzero
    · refine .inl ⟨?_, ?_⟩
      · rw [if_neg hzero]
        exact h.update h.ring (.refl _) (.inl ⟨rfl, rfl⟩) hcount
      · rintro _ _ he
        obtain ⟨rfl, rfl⟩ := Ev.put.inj he
        exact fun hz => hzero ((congrArg Buf.refcnt hself).symm.trans hz)
  | @pin t i s' hpin =>
    refine .inl ⟨?_, fun _ _ he => by cases he⟩
    obtain ⟨-, rfl⟩ := Outcome.ok.inj hpin
    have hci := hc i
    refine h.update h.ring (.refl _) (.inl ⟨rfl, rfl⟩) ?_
    simp only
    omega
  | @unpin t i s' hpos hunpin =>
    refine .inl ⟨?_, fun _ _ he => by cases he⟩
    obtain ⟨-, rfl⟩ := Outcome.ok.inj hunpin
    have hci := hc i
    refine h.update h.ring (.refl _) (.inl ⟨rfl, rfl⟩) ?_
    simp only
    omega

variable {P : Cache → Ev → Cache → Prop} {L : Links BufId} {l : List Ev}

theorem Run.inv (h : Run P L l s) : ∃ order, Inv s order := by
  induction h with
  | binit => exact ⟨_, inv_binit L⟩
  | step _ hs _ ih =>
    obtain ⟨order, h⟩ := ih
    obtain ⟨h', -⟩ | ⟨_, _, -, h', -⟩ := h.step hs
    · exact ⟨_, h'⟩
    · exact ⟨_, h'⟩

/-! ## The order of releases -/

/-- Two outcomes with the same value and related states, or the same stop. -/
def Agree {σ τ β : Type} (R : σ → τ → Prop) : Outcome σ β → Outcome τ β → Prop
  | .ok i s, .ok j u => i = j ∧ R s u
  | .block, .block => True
  | .panic m, .panic m' => m = m'
  | _, _ => False

/-- The pointers are the list that the state of the block layer has in their place. -/
structure Abs (s : Cache) (u : BlockSt) : Prop where
  ring : s.links.Ring u.lru
  nodup : u.lru.Nodup
  mem : ∀ i, i ∈ u.lru
  buf : s.buf = u.buf

section Abs

variable {u : BlockSt}

theorem Abs.length_lt (h : Abs s u) : u.lru.length < nbuf + 1 :=
  Nat.lt_succ_of_le ((List.Nodup.length_le_card h.nodup).trans (Fintype.card_fin nbuf).le)

/-- A buffer changes on both sides, and the list in the same way. -/
theorem Abs.update {s' : Cache} {u' : BlockSt} (h : Abs s u) (x : Buf) (hring : s'.links.Ring u'.lru)
    (hperm : u'.lru.Perm u.lru) (hs : s'.buf = Function.update s.buf i x)
    (hu : u'.buf = Function.update u.buf i x) : Abs s' u' where
  ring := hring
  nodup := hperm.nodup_iff.2 h.nodup
  mem j := hperm.mem_iff.2 (h.mem j)
  buf := by rw [hs, hu, h.buf]

theorem binit_abs (L : Links BufId) (d : Disk) : Abs (binit L) (Xv6.binit d) where
  ring := (inv_binit L).ring
  nodup := (inv_binit L).nodup
  mem := (inv_binit L).mem
  buf := rfl

theorem bgetRef_agree (h : Abs s u) (hcnt : ∀ i, (s.buf i).refcnt + 1 < 2 ^ 32) :
    Agree Abs (bgetRef dev b t s) (Xv6.bgetRef dev b t u) := by
  have hcarries : (fun i => decide (s.Carries i dev b)) = fun i => decide (u.Carries i dev b) := by
    funext i
    refine decide_eq_decide.2 ?_
    unfold Carries BlockSt.Carries
    rw [h.buf]
  rw [bgetRef_eq h.ring h.length_lt, hcarries]
  unfold Xv6.bgetRef
  cases u.lru.find? fun i => u.Carries i dev b with
  | some i =>
    refine ⟨rfl, ?_⟩
    rw [Nat.mod_eq_of_lt (hcnt i), h.buf]
    exact h.update _ h.ring (.refl _) rfl rfl
  | none =>
    rw [h.buf]
    cases u.lru.reverse.find? fun i => (u.buf i).refcnt == 0 with
    | some i => exact ⟨rfl, h.update _ h.ring (.refl _) rfl rfl⟩
    | none => rfl

theorem acquireBuf_agree (h : Abs s u) : Agree Abs (acquireBuf i t s) (Xv6.acquireBuf i t u) := by
  unfold acquireBuf Xv6.acquireBuf
  rw [h.buf]
  cases (u.buf i).lock with
  | some _ => trivial
  | none => exact ⟨rfl, h.update _ h.ring (.refl _) rfl rfl⟩

theorem releaseBuf_agree (h : Abs s u) : Agree Abs (releaseBuf i t s) (Xv6.releaseBuf i t u) := by
  unfold releaseBuf Xv6.releaseBuf
  rw [h.buf]
  by_cases hlock : (u.buf i).lock = some t
  · rw [if_pos hlock, if_pos hlock]
    exact ⟨rfl, h.update _ h.ring (.refl _) rfl rfl⟩
  · rw [if_neg hlock, if_neg hlock]
    rfl

/-- A count that is not 0 is one less. -/
theorem dec_uint {n : ℕ} (h0 : 0 < n) (hn : n < 2 ^ 32) : (n + (2 ^ 32 - 1)) % 2 ^ 32 = n - 1 := by
  omega

theorem bput_agree (h : Abs s u) (h0 : 0 < (s.buf i).refcnt) (hn : (s.buf i).refcnt < 2 ^ 32) :
    Agree Abs (bput i t s) (Xv6.bput i t u) := by
  unfold bput Xv6.bput
  simp only [dec_uint h0 hn]
  rw [h.buf]
  by_cases hzero : (u.buf i).refcnt - 1 = 0
  · rw [if_pos hzero, if_pos hzero]
    exact ⟨rfl, h.update _ (h.ring.moveFront h.nodup (h.mem i)) (List.perm_cons_erase (h.mem i)).symm rfl rfl⟩
  · rw [if_neg hzero, if_neg hzero]
    exact ⟨rfl, h.update _ h.ring (.refl _) rfl rfl⟩

theorem bunpin_agree (h : Abs s u) (h0 : 0 < (s.buf i).refcnt) (hn : (s.buf i).refcnt < 2 ^ 32) :
    Agree Abs (bunpin i t s) (Xv6.bunpin i t u) := by
  unfold bunpin Xv6.bunpin
  rw [dec_uint h0 hn, h.buf]
  exact ⟨rfl, h.update _ h.ring (.refl _) rfl rfl⟩

end Abs

end Xv6.BufList
