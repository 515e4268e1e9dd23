import Mathlib.Algebra.BigOperators.Group.Finset.Basic
import Mathlib.Algebra.Order.BigOperators.Group.Finset
import Xv6.Block.Store

/-!
# Operations and the reservation of log space

An operation of the file system is what a thread does between `begin_op` and `end_op`. It may log
any blocks, as often as it likes, but at most `MAXOPBLOCKS` different ones. `begin_op` admits an
operation only when the log has room for that many blocks for it and for every operation in
progress, so the log never holds more than `LOGBLOCKS` blocks (`Reserved`). What the reservation
does not give is that `log_write` runs: it compares `log_lh.n` with `LOGBLOCKS` before it looks
for the block in the log, and panics in a full log on a block that needs no room
(`log_reservation_iff`).
-/

namespace Xv6

open Conc BlockSt

/-- The operations in progress, each with the blocks it has logged. -/
abbrev Ops := Tid → Option (Finset ℕ)

namespace Ops

/-- Calls that thread `t` may make: `begin_op` starts an operation, `log_write` and `end_op` are
part of one. -/
def May (o : Ops) (t : Tid) : Call → Prop
  | .beginOp => o t = none
  | .logWrite _ _ => o t ≠ none
  | .endOp => o t ≠ none
  | .bread _ => True
  | .brelse _ => True

/-- The operations after a section of a call of thread `t`, which ran in state `s`. -/
def after (o : Ops) (t : Tid) (s : BlockSt) : Call → Ops
  | .beginOp => Function.update o t (some ∅)
  | .logWrite i _ => Function.update o t ((o t).map (insert (s.buf i).blockno))
  | .endOp => Function.update o t none
  | .bread _ => o
  | .brelse _ => o

/-- With the section of the call, the operation of thread `t` still has at most `MAXOPBLOCKS`
blocks. -/
def Within (o : Ops) (t : Tid) (s : BlockSt) (c : Call) : Prop :=
  ∀ B ∈ o.after t s c t, B.card ≤ maxopblocks

/-- The blocks logged by the operation of a thread. -/
def blocks (o : Ops) (t : Tid) : Finset ℕ := (o t).getD ∅

theorem after_of_ne {o : Ops} {t u : Tid} (s : BlockSt) (c : Call) (h : u ≠ t) :
    o.after t s c u = o u := by
  cases c <;> simp [after, h]

end Ops

/-- The threads and the operations they have in progress. -/
structure OpPool where
  pool : Pool BlockSt Call Reply
  op : Ops

namespace OpPool

/-- The state of the block layer. -/
abbrev shared (P : OpPool) : BlockSt := P.pool.shared

/-- No restriction on the calls of operations. -/
def Any (_ : OpPool) (_ : Tid) (_ : Call) : Prop := True

instance (P : OpPool) (t : Tid) (c : Call) : Decidable (Any P t c) := inferInstanceAs (Decidable True)

/-- A step of threads that make their calls in operations; `G` restricts the calls further. -/
inductive Step (ls : ℕ) (G : OpPool → Tid → Call → Prop) : OpPool → OpPool → Prop
  | start {P : OpPool} {t : Tid} (c : Call) (h : P.pool.thread t = .idle) (hm : P.op.May t c)
      (hg : G P t c) :
      Step ls G P ⟨⟨P.shared, Function.update P.pool.thread t (.run c (body ls c))⟩, P.op⟩
  | act {P : OpPool} {t : Tid} {c : Call} {δ : Type} {f : Action BlockSt δ}
      {k : δ → Prog BlockSt Reply} {b : δ} {s' : BlockSt} (h : P.pool.thread t = .run c (.act f k))
      (hf : f t P.shared = .ok b s') (hw : P.op.Within t P.shared c) :
      Step ls G P ⟨⟨s', Function.update P.pool.thread t (.run c (k b))⟩, P.op.after t P.shared c⟩
  | finish {P : OpPool} {t : Tid} {c : Call} {r : Reply} (h : P.pool.thread t = .run c (.ret r)) :
      Step ls G P ⟨⟨P.shared, Function.update P.pool.thread t .idle⟩, P.op⟩

/-- No thread is inside a call, and no operation is in progress. -/
def init (s : BlockSt) : OpPool := ⟨Pool.init s, fun _ => none⟩

/-- The pools reached by operations. -/
def Reaches (ls : ℕ) (G : OpPool → Tid → Call → Prop) : OpPool → OpPool → Prop :=
  Relation.ReflTransGen (Step ls G)

variable {ls : ℕ} {G : OpPool → Tid → Call → Prop} {P P' : OpPool}

theorem Step.pool (h : Step ls G P P') : Pool.Step (body ls) P.pool P'.pool := by
  cases h with
  | start c h _ _ => exact .start c h
  | act h hf _ => exact .act h hf
  | finish h => exact .finish h

theorem Reaches.pool (h : Reaches ls G P P') : Pool.Reaches (body ls) P.pool P'.pool := by
  induction h with
  | refl => exact .refl
  | tail _ hs ih => exact ih.tail hs.pool

/-- The invariant of the block layer holds whatever the threads do. -/
theorem Reaches.inv (hls : ls + logblocks < 2 ^ 31) {s₀ : BlockSt} (h₀ : Fresh s₀)
    (h : Reaches ls G (init s₀) P) : Inv ls P.shared :=
  (Pool.reachable_safe duty_rules (fun _ c _ hI => body_wp hls c hI) h₀.inv h.pool).inv

end OpPool

/-! ## Where a call is -/

/-- What is left of a call of thread `t`. A call that starts or ends an operation, or belongs to
one, is at its first section with the operations as they were when it started, or done; `end_op`
may also be inside `commit`. -/
def Stage (ls : ℕ) (o : Ops) (t : Tid) (s : BlockSt) : Call → Prog BlockSt Reply → Prop
  | .beginOp, p => p = body ls .beginOp ∧ o t = none ∨ ∃ r, p = .ret r
  | .logWrite i x, p => p = body ls (.logWrite i x) ∧ o t ≠ none ∨ ∃ r, p = .ret r
  | .endOp, p => p = body ls .endOp ∧ o t ≠ none ∨ (∃ r, p = .ret r) ∨
      s.aux.committer = some t ∧ ∃ q : Prog BlockSt Unit, q.Obeys Ends CacheMsg ∧
        p = q >>= fun _ => .act endOpLeave fun _ => .ret none
  | .bread _, p => p.Obeys CacheOnly CacheMsg
  | .brelse _, p => p.Obeys CacheOnly CacheMsg

theorem stage_body {ls : ℕ} {o : Ops} {t : Tid} {s : BlockSt} {c : Call} (h : o.May t c) :
    Stage ls o t s c (body ls c) := by
  cases c with
  | beginOp => exact .inl ⟨rfl, h⟩
  | bread b => exact .bind (bread_obeys _ _) fun i => .bind (bufData_obeys i) fun _ => trivial
  | logWrite i x => exact .inl ⟨rfl, h⟩
  | brelse i => exact .bind (brelse_obeys i) fun _ => trivial
  | endOp => exact .inl ⟨rfl, h⟩

/-- The stage of a thread is its own affair, as long as it remains the committing thread. -/
theorem Stage.congr {ls : ℕ} {o o' : Ops} {t : Tid} {s s' : BlockSt} {c : Call}
    {p : Prog BlockSt Reply} (h : Stage ls o t s c p) (ho : o' t = o t)
    (hc : s.aux.committer = some t → s'.aux.committer = some t) : Stage ls o' t s' c p := by
  cases c with
  | beginOp => exact h.imp_left fun h => ⟨h.1, ho.trans h.2⟩
  | bread b => exact h
  | logWrite i x => exact h.imp_left fun h => ⟨h.1, by rw [ho]; exact h.2⟩
  | brelse i => exact h
  | endOp => exact h.imp (fun h => ⟨h.1, by rw [ho]; exact h.2⟩) (.imp_right fun h => ⟨hc h.1, h.2⟩)

theorem body_logWrite {ls : ℕ} {i : BufId} {x : Block} :
    body ls (.logWrite i x) = .act (logWriteHome ls i x) fun _ => .ret none := rfl

theorem body_endOp {ls : ℕ} : body ls .endOp = .act endOpEnter fun r =>
    if r then commit ls >>= fun _ => .act endOpLeave fun _ => .ret none else .ret none := by
  refine congrArg (Prog.act endOpEnter) (funext fun r => ?_)
  cases r with
  | false => rfl
  | true => exact Prog.bind_assoc (commit ls) (fun _ => Prog.lift endOpLeave) _

/-- What a section of a call does, and what is left of the call after it. -/
inductive Acts (ls : ℕ) (o : Ops) (t : Tid) (s : BlockSt) :
    Call → BlockSt → Prog BlockSt Reply → Prop
  | begin (ho : o t = none) (hc : s.committing = false)
      (hr : (s.lh.length : ℤ) + (s.outstanding + 1) * maxopblocks ≤ logblocks) :
      Acts ls o t s .beginOp { s with outstanding := s.outstanding + 1 } (.ret none)
  | log {i : BufId} {x : Block} {s' : BlockSt} (ho : o t ≠ none)
      (hf : logWrite i x t s = .ok () s') : Acts ls o t s (.logWrite i x) s' (.ret none)
  | last (ho : o t ≠ none) (hc : s.committing = false) (h : s.outstanding = 1) :
      Acts ls o t s .endOp { s with
        outstanding := 0, committing := true, aux := { s.aux with committer := some t } }
        (commit ls >>= fun _ => .act endOpLeave fun _ => .ret none)
  | leaveOp (ho : o t ≠ none) (hc : s.committing = false) (h : s.outstanding ≠ 1) :
      Acts ls o t s .endOp { s with outstanding := s.outstanding - 1 } (.ret none)
  | commit {s' : BlockSt} {q : Prog BlockSt Unit} (hc : s.aux.committer = some t) (hE : Ends t s s')
      (hq : q.Obeys Ends CacheMsg) :
      Acts ls o t s .endOp s' (q >>= fun _ => .act endOpLeave fun _ => .ret none)
  | done (hc : s.aux.committer = some t) :
      Acts ls o t s .endOp { s with committing := false, aux := { s.aux with committer := none } }
        (.ret none)
  | bread {b : BlockNo} {s' : BlockSt} {p : Prog BlockSt Reply} (hC : CacheOnly t s s')
      (hp : p.Obeys CacheOnly CacheMsg) : Acts ls o t s (.bread b) s' p
  | brelse {i : BufId} {s' : BlockSt} {p : Prog BlockSt Reply} (hC : CacheOnly t s s')
      (hp : p.Obeys CacheOnly CacheMsg) : Acts ls o t s (.brelse i) s' p

section Acts

variable {ls : ℕ} {o : Ops} {t : Tid} {s s' : BlockSt} {c : Call} {δ : Type}
  {f : Action BlockSt δ} {k : δ → Prog BlockSt Reply} {b : δ}

theorem obeys_act {R : Tid → BlockSt → BlockSt → Prop} {M : String → Prop} {α : Type}
    {k : δ → Prog BlockSt α} (h : (Prog.act f k).Obeys R M) (hf : f t s = .ok b s') :
    R t s s' ∧ (k b).Obeys R M := by
  have hm := h.1 t s
  rw [hf] at hm
  exact ⟨hm, h.2 b⟩

theorem Stage.acts (h : Stage ls o t s c (.act f k)) (hf : f t s = .ok b s') :
    Acts ls o t s c s' (k b) := by
  cases c with
  | beginOp =>
    obtain ⟨h, ho⟩ | ⟨r, h⟩ := h
    · cases h
      unfold beginOp at hf
      split at hf
      · cases hf
      · rename_i hc
        split at hf
        · cases hf
        · rename_i hr
          obtain ⟨-, rfl⟩ := Outcome.ok.inj hf
          exact .begin ho (by simpa using hc) (by omega)
    · cases h
  | bread _ =>
    obtain ⟨hC, hp⟩ := obeys_act h hf
    exact .bread hC hp
  | logWrite i x =>
    obtain ⟨h, ho⟩ | ⟨r, h⟩ := h
    · cases h
      unfold logWriteHome at hf
      split at hf
      · exact .log ho hf
      · cases hf
    · cases h
  | brelse i =>
    obtain ⟨hC, hp⟩ := obeys_act h hf
    exact .brelse hC hp
  | endOp =>
    obtain ⟨h, ho⟩ | ⟨r, h⟩ | ⟨hc, q, hq, h⟩ := h
    · rw [body_endOp] at h
      cases h
      unfold endOpEnter at hf
      split at hf
      · cases hf
      · rename_i hc
        split at hf
        · obtain ⟨rfl, rfl⟩ := Outcome.ok.inj hf
          exact .last ho (by simpa using hc) (by omega)
        · obtain ⟨rfl, rfl⟩ := Outcome.ok.inj hf
          exact .leaveOp ho (by simpa using hc) (by omega)
    · cases h
    · cases q with
      | ret a =>
        cases h
        obtain ⟨-, rfl⟩ := Outcome.ok.inj hf
        exact .done hc
      | act g l =>
        cases h
        obtain ⟨hE, hq'⟩ := obeys_act hq hf
        exact .commit hc hE hq'

end Acts

/-! ## The reservation -/

/-- The threads of `T` have operations in progress, and the log has room for what they have not
logged yet. -/
structure Reserved (o : Ops) (s : BlockSt) (T : Finset Tid) : Prop where
  mem : ∀ t, t ∈ T ↔ o t ≠ none
  count : s.outstanding = T.card
  logged : ∀ t ∈ T, ∀ b ∈ o.blocks t, b ∈ s.lh
  small : ∀ t ∈ T, (o.blocks t).card ≤ maxopblocks
  room : s.lh.length + ∑ t ∈ T, (maxopblocks - (o.blocks t).card) ≤ logblocks

namespace Reserved

variable {ls : ℕ} {o : Ops} {t : Tid} {s s' : BlockSt} {T : Finset Tid}

/-- The reservation depends on the log only. -/
theorem congr (h : Reserved o s T) (hl : s'.lh = s.lh) (ho : s'.outstanding = s.outstanding) :
    Reserved o s' T := by
  refine ⟨h.mem, ho.trans h.count, ?_, h.small, ?_⟩
  · rw [hl]
    exact h.logged
  · rw [hl]
    exact h.room

/-- No operation is in progress while a thread commits. -/
theorem eq_empty (h : Reserved o s T) (hI : Inv ls s) (hc : s.aux.committer = some t) : T = ∅ := by
  have hout := (hI.busy (hI.committing_of_committer hc)).1
  have hcard := h.count
  rw [hout] at hcard
  exact Finset.card_eq_zero.1 (by omega)

theorem blocks_update_of_ne {u : Tid} (x : Option (Finset ℕ)) (h : u ≠ t) :
    Ops.blocks (Function.update o t x) u = o.blocks u := by
  simp [Ops.blocks, h]

/-- The room reserved for operations other than `t` does not depend on `t`. -/
theorem sum_update (x : Option (Finset ℕ)) (ht : t ∉ T) :
    ∑ u ∈ T, (maxopblocks - (Ops.blocks (Function.update o t x) u).card) =
      ∑ u ∈ T, (maxopblocks - (o.blocks u).card) := by
  refine Finset.sum_congr rfl fun u hu => ?_
  have hut : u ≠ t := fun h => ht (h ▸ hu)
  rw [blocks_update_of_ne x hut]

theorem beginOp (h : Reserved o s T) (ho : o t = none)
    (hr : (s.lh.length : ℤ) + (s.outstanding + 1) * maxopblocks ≤ logblocks) :
    Reserved (Function.update o t (some ∅)) { s with outstanding := s.outstanding + 1 }
      (insert t T) := by
  have ht : t ∉ T := fun ht => (h.mem t).1 ht ho
  have hb : Ops.blocks (Function.update o t (some ∅)) t = ∅ := by simp [Ops.blocks]
  have hne : ∀ u ∈ T, u ≠ t := fun u hu he => ht (he ▸ hu)
  refine ⟨fun u => ?_, ?_, fun u hu => ?_, fun u hu => ?_, ?_⟩
  · by_cases hut : u = t
    · subst hut
      simp
    · simp [hut, h.mem u]
  · rw [Finset.card_insert_of_notMem ht, h.count]
    push_cast
    rfl
  · rcases Finset.mem_insert.1 hu with rfl | hu
    · simp [hb]
    · rw [blocks_update_of_ne _ (hne u hu)]
      exact h.logged u hu
  · rcases Finset.mem_insert.1 hu with rfl | hu
    · simp [hb]
    · rw [blocks_update_of_ne _ (hne u hu)]
      exact h.small u hu
  · rw [Finset.sum_insert ht, sum_update _ ht, hb, Finset.card_empty]
    have hsum : ∑ u ∈ T, (maxopblocks - (o.blocks u).card) ≤ T.card • maxopblocks :=
      Finset.sum_le_card_nsmul T _ maxopblocks fun u _ => Nat.sub_le _ _
    rw [nsmul_eq_mul, Nat.cast_id] at hsum
    have hcount := h.count
    simp only [maxopblocks, logblocks] at hsum hr ⊢
    rw [hcount] at hr
    push_cast at hr
    show s.lh.length + _ ≤ _
    omega

theorem endOp (h : Reserved o s T) (ho : o t ≠ none) (hl : s'.lh = s.lh)
    (hout : s'.outstanding = s.outstanding - 1) :
    Reserved (Function.update o t none) s' (T.erase t) := by
  have ht := (h.mem t).2 ho
  refine ⟨fun u => ?_, ?_, fun u hu => ?_, fun u hu => ?_, ?_⟩
  · by_cases hut : u = t
    · subst hut
      simp
    · simp [hut, h.mem u]
  · have hpos : 1 ≤ T.card := Finset.card_pos.2 ⟨t, ht⟩
    rw [hout, h.count, Finset.card_erase_of_mem ht]
    omega
  · obtain ⟨hut, hu⟩ := Finset.mem_erase.1 hu
    rw [blocks_update_of_ne _ hut, hl]
    exact h.logged u hu
  · obtain ⟨hut, hu⟩ := Finset.mem_erase.1 hu
    rw [blocks_update_of_ne _ hut]
    exact h.small u hu
  · rw [hl, sum_update _ (Finset.notMem_erase t T)]
    have hsum : ∑ u ∈ T.erase t, (maxopblocks - (o.blocks u).card) ≤
        ∑ u ∈ T, (maxopblocks - (o.blocks u).card) :=
      Finset.sum_le_sum_of_subset (Finset.erase_subset t T)
    have := h.room
    omega

/-- A block that is not in the log is new to the operation, which reserved room for it. -/
theorem logWrite {b : ℕ} {B : Finset ℕ} (h : Reserved o s T) (ho : o t = some B)
    (hw : (insert b B).card ≤ maxopblocks) (hout : s'.outstanding = s.outstanding)
    (hl : b ∈ s.lh ∧ s'.lh = s.lh ∨ b ∉ s.lh ∧ s'.lh = s.lh ++ [b]) :
    Reserved (Function.update o t (some (insert b B))) s' T := by
  have ht : t ∈ T := (h.mem t).2 (by simp [ho])
  have hBt : o.blocks t = B := by simp [Ops.blocks, ho]
  have hnew : Ops.blocks (Function.update o t (some (insert b B))) t = insert b B := by
    simp [Ops.blocks]
  have hmem : ∀ c, c ∈ s'.lh ↔ c ∈ s.lh ∨ c = b := fun c => by
    rcases hl with ⟨hb, hl⟩ | ⟨-, hl⟩
    · rw [hl]
      exact ⟨.inl, fun h => h.elim id fun h => h ▸ hb⟩
    · simp [hl]
  refine ⟨fun u => ?_, hout.trans h.count, fun u hu c hc => ?_, fun u hu => ?_, ?_⟩
  · by_cases hut : u = t
    · subst hut
      simp [ht]
    · simp [hut, h.mem u]
  · rw [hmem]
    by_cases hut : u = t
    · subst hut
      rw [hnew] at hc
      rcases Finset.mem_insert.1 hc with rfl | hc
      · exact .inr rfl
      · exact .inl (h.logged u hu c (by rw [hBt]; exact hc))
    · rw [blocks_update_of_ne _ hut] at hc
      exact .inl (h.logged u hu c hc)
  · by_cases hut : u = t
    · subst hut
      rw [hnew]
      exact hw
    · rw [blocks_update_of_ne _ hut]
      exact h.small u hu
  · -- split off the operation of `t`, the only one whose room changes
    have hroom := h.room
    rw [← Finset.add_sum_erase T _ ht, hBt] at hroom
    rw [← Finset.add_sum_erase T _ ht, hnew, sum_update _ (Finset.notMem_erase t T)]
    rcases hl with ⟨-, hl⟩ | ⟨hb, hl⟩
    · have hcard := Finset.card_le_card (Finset.subset_insert b B)
      rw [hl]
      omega
    · have hbB : b ∉ B := fun hbB => hb (h.logged t ht b (by rw [hBt]; exact hbB))
      rw [Finset.card_insert_of_notMem hbB] at hw ⊢
      rw [hl, List.length_append, List.length_singleton]
      omega

end Reserved

/-! ## Runs of operations -/

section Runs

variable {ls : ℕ} {o : Ops} {t : Tid} {s s' : BlockSt} {c : Call} {p : Prog BlockSt Reply}
  {T : Finset Tid} {G : OpPool → Tid → Call → Prop}

theorem Acts.reserved (ha : Acts ls o t s c s' p) (hI : Inv ls s) (hR : Reserved o s T)
    (hw : o.Within t s c) : ∃ T', Reserved (o.after t s c) s' T' := by
  cases ha with
  | begin ho hc hr => exact ⟨_, hR.beginOp ho hr⟩
  | @log i x _ ho hf =>
    obtain ⟨B, hB⟩ := Option.ne_none_iff_exists'.1 ho
    have hcard : (insert (s.buf i).blockno B).card ≤ maxopblocks :=
      hw _ (by simp [Ops.after, hB])
    obtain ⟨-, -, -, -, ⟨hm, rfl⟩ | ⟨hm, rfl⟩⟩ := logWrite_ok hf
    · refine ⟨T, ?_⟩
      simp only [Ops.after, hB, Option.map_some]
      exact hR.logWrite hB hcard rfl (.inl ⟨hm, rfl⟩)
    · refine ⟨T, ?_⟩
      simp only [Ops.after, hB, Option.map_some]
      exact hR.logWrite hB hcard rfl (.inr ⟨hm, rfl⟩)
  | last ho hc h => exact ⟨_, hR.endOp ho rfl (by show (0 : ℤ) = _; omega)⟩
  | leaveOp ho hc h => exact ⟨_, hR.endOp ho rfl rfl⟩
  | commit hc hE hq =>
    obtain rfl := hR.eq_empty hI hc
    have hnone : o t = none := by
      by_contra hn
      exact absurd ((hR.mem t).2 hn) (Finset.notMem_empty t)
    refine ⟨∅, ?_⟩
    rw [Ops.after, Function.update_eq_self_iff.2 hnone.symm]
    refine ⟨hR.mem, hE.outstanding.trans hR.count, fun u hu => absurd hu (Finset.notMem_empty u),
      fun u hu => absurd hu (Finset.notMem_empty u), ?_⟩
    have hroom := hR.room
    rcases hE.lh with hl | hl
    · rw [hl]
      exact hroom
    · rw [hl]
      exact Nat.zero_le _
  | done hc =>
    obtain rfl := hR.eq_empty hI hc
    have hnone : o t = none := by
      by_contra hn
      exact absurd ((hR.mem t).2 hn) (Finset.notMem_empty t)
    refine ⟨∅, ?_⟩
    rw [Ops.after, Function.update_eq_self_iff.2 hnone.symm]
    exact hR.congr rfl rfl
  | bread hC hp => exact ⟨T, hR.congr hC.lh hC.outstanding⟩
  | brelse hC hp => exact ⟨T, hR.congr hC.lh hC.outstanding⟩

/-- A section leaves another thread's commit alone. -/
theorem Acts.committer (ha : Acts ls o t s c s' p) (hI : Inv ls s) {u : Tid} (hu : u ≠ t)
    (hcu : s.aux.committer = some u) : s'.aux.committer = some u := by
  have hbusy := hI.committing_of_committer hcu
  have hne : s.aux.committer ≠ some t := fun h => hu (Option.some.inj (hcu.symm.trans h))
  cases ha with
  | begin ho hc hr => exact hcu
  | log ho hf =>
    obtain ⟨-, -, -, -, ⟨-, rfl⟩ | ⟨-, rfl⟩⟩ := logWrite_ok hf <;> exact hcu
  | last ho hc h => simp [hc] at hbusy
  | leaveOp ho hc h => exact hcu
  | commit hc hE hq => exact absurd hc hne
  | done hc => exact absurd hc hne
  | bread hC hp => exact hC.committer.trans hcu
  | brelse hC hp => exact hC.committer.trans hcu

/-- What is left of the call after a section. -/
theorem Acts.stage (ha : Acts ls o t s c s' p) : Stage ls (o.after t s c) t s' c p := by
  cases ha with
  | begin ho hc hr => exact .inr ⟨_, rfl⟩
  | log ho hf => exact .inr ⟨_, rfl⟩
  | last ho hc h => exact .inr (.inr ⟨rfl, _, commit_obeys, rfl⟩)
  | leaveOp ho hc h => exact .inr (.inl ⟨_, rfl⟩)
  | commit hc hE hq => exact .inr (.inr ⟨hE.committer.trans hc, _, hq, rfl⟩)
  | done hc => exact .inr (.inl ⟨_, rfl⟩)
  | bread hC hp => exact hp
  | brelse hC hp => exact hp

/-- The invariant of operations. -/
structure OpInv (ls : ℕ) (P : OpPool) : Prop where
  inv : Inv ls P.shared
  stage : ∀ t c p, P.pool.thread t = .run c p → Stage ls P.op t P.shared c p
  reserved : ∃ T, Reserved P.op P.shared T

theorem OpInv.step {P P' : OpPool} (h : OpInv ls P) (hI' : Inv ls P'.shared)
    (hs : OpPool.Step ls G P P') : OpInv ls P' := by
  cases hs with
  | @start t c ht hm hg =>
    refine ⟨hI', fun u c' p hu => ?_, h.reserved⟩
    by_cases hut : u = t
    · subst hut
      simp only [Function.update_self, Thread.run.injEq] at hu
      obtain ⟨rfl, rfl⟩ := hu
      exact stage_body hm
    · simp only [Function.update_of_ne hut] at hu
      exact h.stage u c' p hu
  | @act t c _ f k b s' ht hf hw =>
    have ha := (h.stage t c _ ht).acts hf
    obtain ⟨T, hT⟩ := h.reserved
    refine ⟨hI', fun u c' p hu => ?_, ha.reserved h.inv hT hw⟩
    by_cases hut : u = t
    · subst hut
      simp only [Function.update_self, Thread.run.injEq] at hu
      obtain ⟨rfl, rfl⟩ := hu
      exact ha.stage
    · simp only [Function.update_of_ne hut] at hu
      exact (h.stage u c' p hu).congr (Ops.after_of_ne _ _ hut) (ha.committer h.inv hut)
  | @finish t c r ht =>
    refine ⟨hI', fun u c' p hu => ?_, h.reserved⟩
    by_cases hut : u = t
    · subst hut
      simp at hu
    · simp only [Function.update_of_ne hut] at hu
      exact h.stage u c' p hu

theorem OpPool.Reaches.opInv (hls : ls + logblocks < 2 ^ 31) {s₀ : BlockSt} (h₀ : Fresh s₀)
    (hout : s₀.outstanding = 0) {P : OpPool} (hP : OpPool.Reaches ls G (.init s₀) P) :
    OpInv ls P := by
  induction hP with
  | refl =>
    refine ⟨h₀.inv, fun t c p h => by simp [OpPool.init, Pool.init] at h, ∅, ?_⟩
    refine ⟨fun t => by simp [OpPool.init], hout, fun t ht => absurd ht (Finset.notMem_empty t),
      fun t ht => absurd ht (Finset.notMem_empty t), ?_⟩
    show s₀.lh.length + _ ≤ _
    simp [h₀.lh]
  | tail hr hs ih => exact ih.step (OpPool.Reaches.inv hls h₀ (hr.tail hs)) hs

end Runs

/-! ## Panics of the log -/

/-- The messages with which the log panics. -/
def LogMsg (msg : String) : Prop :=
  msg = "too big a transaction" ∨ msg = "log_write outside of trans" ∨ msg = "log_committing"

theorem CacheMsg.not_logMsg {msg : String} (h : CacheMsg msg) : ¬ LogMsg msg := by
  rcases h with rfl | rfl | rfl <;> simp [LogMsg]

section Panics

variable {ls : ℕ} {o : Ops} {t : Tid} {s : BlockSt} {c : Call} {δ : Type} {f : Action BlockSt δ}
  {k : δ → Prog BlockSt Reply} {T : Finset Tid} {msg : String}

/-- The buffer cache does not panic for the log. -/
theorem not_logMsg_of_obeys {R : Tid → BlockSt → BlockSt → Prop} {α : Type}
    {k : δ → Prog BlockSt α} (h : (Prog.act f k).Obeys R CacheMsg) (hf : f t s = .panic msg) :
    ¬ LogMsg msg := by
  have hm := h.1 t s
  rw [hf] at hm
  exact CacheMsg.not_logMsg hm

/-- In a full log every operation has logged all the blocks it may log. -/
theorem Reserved.mem_lh_of_full {b : ℕ} {B : Finset ℕ} (hR : Reserved o s T)
    (hfull : logblocks ≤ s.lh.length) (ho : o t = some B) (hw : (insert b B).card ≤ maxopblocks) :
    b ∈ s.lh ∧ s.lh.length = logblocks := by
  have ht : t ∈ T := (hR.mem t).2 (by simp [ho])
  have hBt : o.blocks t = B := by simp [Ops.blocks, ho]
  have hroom := hR.room
  have hsum := Finset.single_le_sum (f := fun t => maxopblocks - (o.blocks t).card)
    (fun _ _ => Nat.zero_le _) ht
  simp only [hBt] at hsum
  refine ⟨?_, by omega⟩
  by_cases hb : b ∈ B
  · exact hR.logged t ht b (by rw [hBt]; exact hb)
  · rw [Finset.card_insert_of_notMem hb] at hw
    omega

theorem Stage.panics (h : Stage ls o t s c (.act f k)) (hI : Inv ls s) (hR : Reserved o s T)
    (hw : o.Within t s c) (hf : f t s = .panic msg) (hmsg : LogMsg msg) :
    ∃ i x, c = .logWrite i x ∧ (s.buf i).lock = some t ∧ (s.buf i).valid = true ∧
      (s.buf i).blockno ∈ s.lh ∧ s.lh.length = logblocks := by
  have hpos : o t ≠ none → 1 ≤ s.outstanding := fun ho => by
    have := Finset.card_pos.2 ⟨t, (hR.mem t).2 ho⟩
    have := hR.count
    omega
  cases c with
  | beginOp =>
    obtain ⟨h, -⟩ | ⟨r, h⟩ := h
    · cases h
      unfold beginOp at hf
      split at hf
      · cases hf
      · split at hf <;> cases hf
    · cases h
  | bread b => exact absurd hmsg (not_logMsg_of_obeys h hf)
  | logWrite i x =>
    obtain ⟨h, ho⟩ | ⟨r, h⟩ := h
    · cases h
      unfold logWriteHome at hf
      split at hf
      · unfold logWrite at hf
        split at hf
        · cases hf
        · rename_i hh
          rw [not_or, not_not] at hh
          split at hf
          · rename_i hfull
            obtain ⟨B, hB⟩ := Option.ne_none_iff_exists'.1 ho
            have hlog := hR.mem_lh_of_full (b := (s.buf i).blockno) hfull hB (hw _ (by simp [Ops.after, hB]))
            exact ⟨i, x, rfl, hh.1, by simpa using hh.2, hlog⟩
          · split at hf
            · rename_i hout
              have := hpos ho
              omega
            · simp only at hf
              split at hf <;> cases hf
      · cases hf
    · cases h
  | brelse i => exact absurd hmsg (not_logMsg_of_obeys h hf)
  | endOp =>
    obtain ⟨h, ho⟩ | ⟨r, h⟩ | ⟨-, q, hq, h⟩ := h
    · rw [body_endOp] at h
      cases h
      unfold endOpEnter at hf
      split at hf
      · rename_i hc
        have := hpos ho
        have := (hI.busy hc).1
        omega
      · split at hf <;> cases hf
    · cases h
    · cases q with
      | ret a =>
        cases h
        cases hf
      | act g l =>
        cases h
        exact absurd hmsg (not_logMsg_of_obeys hq hf)

/-- `log_write` in a full log. -/
theorem Stage.panic_of_full {i : BufId} {x : Block}
    (h : Stage ls o t s (.logWrite i x) (.act f k)) (hI : Inv ls s) (hl : (s.buf i).lock = some t)
    (hv : (s.buf i).valid = true) (hb : (s.buf i).blockno ∈ s.lh) (hfull : s.lh.length = logblocks) :
    f t s = .panic "too big a transaction" := by
  obtain ⟨h, -⟩ | ⟨r, h⟩ := h
  · cases h
    simp [logWriteHome, logWrite, (hI.logged _ hb).1, hl, hv, hfull]
  · cases h

end Panics

/-- **The reservation of log space.** In every state reached by operations that each log at most
`MAXOPBLOCKS` blocks, the log holds at most `LOGBLOCKS` blocks, each once. A section of such an
operation reaches a panic of the log in one situation only, and always in that one: a `log_write`
in a full log, of a block which the log holds already. -/
theorem log_reservation_iff {ls : ℕ} (hls : ls + logblocks < 2 ^ 31) {s₀ : BlockSt} (h₀ : Fresh s₀)
    (hout : s₀.outstanding = 0) {P : OpPool} (hP : OpPool.Reaches ls OpPool.Any (.init s₀) P) :
    P.shared.lh.length ≤ logblocks ∧ P.shared.lh.Nodup ∧
    ∀ (t : Tid) (c : Call) (δ : Type) (f : Action BlockSt δ) (k : δ → Prog BlockSt Reply),
      P.pool.thread t = .run c (.act f k) → P.op.Within t P.shared c →
      ((∃ msg, f t P.shared = .panic msg ∧ LogMsg msg) ↔
        ∃ i x, c = .logWrite i x ∧ (P.shared.buf i).lock = some t ∧
          (P.shared.buf i).valid = true ∧ (P.shared.buf i).blockno ∈ P.shared.lh ∧
          P.shared.lh.length = logblocks) := by
  have h := hP.opInv hls h₀ hout
  refine ⟨h.inv.room, h.inv.nodup, fun t c δ f k ht hw => ⟨?_, ?_⟩⟩
  · rintro ⟨msg, hf, hmsg⟩
    obtain ⟨T, hT⟩ := h.reserved
    exact (h.stage t c _ ht).panics h.inv hT hw hf hmsg
  · rintro ⟨i, x, rfl, hl, hv, hb, hfull⟩
    exact ⟨_, (h.stage t _ _ ht).panic_of_full h.inv hl hv hb hfull, .inl rfl⟩

/-! ## Calls made one after the other -/

section Calls

variable {ls : ℕ} {o : Ops} {t : Tid} {s s' : BlockSt} {c : Call}
  {G : OpPool → Tid → Call → Prop}

instance (o : Ops) (t : Tid) : (c : Call) → Decidable (o.May t c)
  | .beginOp => inferInstanceAs (Decidable (o t = none))
  | .logWrite _ _ => inferInstanceAs (Decidable (o t ≠ none))
  | .endOp => inferInstanceAs (Decidable (o t ≠ none))
  | .bread _ => inferInstanceAs (Decidable True)
  | .brelse _ => inferInstanceAs (Decidable True)

instance (o : Ops) (t : Tid) (s : BlockSt) (c : Call) : Decidable (o.Within t s c) :=
  inferInstanceAs (Decidable (∀ B ∈ _, _))

/-- The calls of a list, one after the other, by threads that make them in operations. -/
def opCalls (ls : ℕ) (G : OpPool → Tid → Call → Prop) [∀ P t c, Decidable (G P t c)] :
    List (Tid × Call) → BlockSt → Ops → Option (BlockSt × Ops)
  | [], s, o => some (s, o)
  | (t, c) :: l, s, o =>
    if o.May t c ∧ G ⟨Pool.init s, o⟩ t c ∧ o.Within t s c then
      match (body ls c).exec t s with
      | .ok _ s' => opCalls ls G l s' (o.after t s c)
      | _ => none
    else none

/-- The sections of a call after its first, which leave the operations alone. -/
theorem reaches_sections {th : Tid → Thread BlockSt Call Reply} {p p' : Prog BlockSt Reply}
    (hr : Prog.Runs t p s p' s') (hafter : ∀ s, o.after t s c = o)
    (hw : ∀ s, o.Within t s c) :
    OpPool.Reaches ls G ⟨⟨s, Function.update th t (.run c p)⟩, o⟩
      ⟨⟨s', Function.update th t (.run c p')⟩, o⟩ := by
  induction hr with
  | refl => exact .refl
  | @step _ f k s s₁ s' b p' hf _ ih =>
    have hstep : OpPool.Step ls G ⟨⟨s, Function.update th t (.run c (.act f k))⟩, o⟩
        ⟨⟨s₁, Function.update (Function.update th t (.run c (.act f k))) t (.run c (k b))⟩,
          o.after t s c⟩ := .act (Function.update_self _ _ _) hf (hw s)
    rw [Function.update_idem, hafter] at hstep
    exact .head hstep ih

/-- A call that starts with a section. -/
theorem reaches_call {δ : Type} {f : Action BlockSt δ} {k : δ → Prog BlockSt Reply} {b : δ}
    {s₁ : BlockSt} {r : Reply} (hm : o.May t c) (hg : G ⟨Pool.init s, o⟩ t c) (hw : o.Within t s c) (hbody : body ls c = .act f k)
    (hf : f t s = .ok b s₁)
    (hrest : OpPool.Reaches ls G
      ⟨⟨s₁, Function.update (fun _ => .idle) t (.run c (k b))⟩, o.after t s c⟩
      ⟨⟨s', Function.update (fun _ => .idle) t (.run c (.ret r))⟩, o.after t s c⟩) :
    OpPool.Reaches ls G ⟨Pool.init s, o⟩ ⟨Pool.init s', o.after t s c⟩ := by
  have hstart : OpPool.Step ls G ⟨Pool.init s, o⟩
      ⟨⟨s, Function.update (fun _ => .idle) t (.run c (body ls c))⟩, o⟩ := .start c rfl hm hg
  rw [hbody] at hstart
  have hact : OpPool.Step ls G ⟨⟨s, Function.update (fun _ => .idle) t (.run c (.act f k))⟩, o⟩
      ⟨⟨s₁, Function.update (Function.update (fun _ => .idle) t (.run c (.act f k))) t
        (.run c (k b))⟩, o.after t s c⟩ := .act (by simp) hf hw
  rw [Function.update_idem] at hact
  have hfin : OpPool.Step ls G
      ⟨⟨s', Function.update (fun _ => .idle) t (.run c (.ret r))⟩, o.after t s c⟩
      ⟨⟨s', Function.update (Function.update (fun _ => .idle) t (.run c (.ret r))) t .idle⟩,
        o.after t s c⟩ := .finish (c := c) (r := r) (by simp)
  rw [Function.update_idem, Function.update_eq_self t (fun _ => Thread.idle)] at hfin
  exact .head hstart (.head hact (hrest.tail hfin))

theorem reaches_exec {r : Reply} (hm : o.May t c) (hg : G ⟨Pool.init s, o⟩ t c) (hw : o.Within t s c)
    (he : (body ls c).exec t s = .ok r s') :
    OpPool.Reaches ls G ⟨Pool.init s, o⟩ ⟨Pool.init s', o.after t s c⟩ := by
  cases c with
  | logWrite i x =>
    obtain ⟨_, s₁, hf, hr⟩ := Outcome.andThen_eq_ok.1 he
    obtain ⟨rfl, rfl⟩ := Outcome.ok.inj hr
    exact reaches_call hm hg hw rfl hf .refl
  | beginOp =>
    obtain ⟨_, s₁, hf, hr⟩ := Outcome.andThen_eq_ok.1 he
    refine reaches_call hm hg hw rfl hf (reaches_sections (Prog.runs_of_exec hr) (fun s => ?_) fun s => ?_)
    · simp [Ops.after]
    · simp [Ops.Within, Ops.after]
  | bread b =>
    obtain ⟨_, s₁, hf, hr⟩ := Outcome.andThen_eq_ok.1 he
    exact reaches_call hm hg hw rfl hf (reaches_sections (Prog.runs_of_exec hr) (fun _ => rfl) fun _ => hw)
  | brelse i =>
    obtain ⟨_, s₁, hf, hr⟩ := Outcome.andThen_eq_ok.1 he
    exact reaches_call hm hg hw rfl hf (reaches_sections (Prog.runs_of_exec hr) (fun _ => rfl) fun _ => hw)
  | endOp =>
    rw [body_endOp] at he
    obtain ⟨_, s₁, hf, hr⟩ := Outcome.andThen_eq_ok.1 he
    refine reaches_call hm hg hw body_endOp hf
      (reaches_sections (Prog.runs_of_exec hr) (fun s => ?_) fun s => ?_)
    · simp [Ops.after]
    · simp [Ops.Within, Ops.after]

theorem reaches_of_opCalls [∀ P t c, Decidable (G P t c)] {l : List (Tid × Call)} {o' : Ops}
    (h : opCalls ls G l s o = some (s', o')) :
    OpPool.Reaches ls G ⟨Pool.init s, o⟩ ⟨Pool.init s', o'⟩ := by
  induction l generalizing s o with
  | nil =>
    obtain ⟨rfl, rfl⟩ := Prod.mk.inj (Option.some.inj h)
    exact .refl
  | cons tc l ih =>
    obtain ⟨t, c⟩ := tc
    unfold opCalls at h
    split at h
    · rename_i hmw
      split at h
      · rename_i s₁ he
        exact (reaches_exec hmw.1 hmw.2.1 hmw.2.2 he).trans (ih h)
      · cases h
    · cases h

end Calls

/-- The message of a section that panics. -/
def panicMsg {σ β : Type} : Outcome σ β → Option String
  | .panic msg => some msg
  | _ => none

theorem panicMsg_eq_some {σ β : Type} {x : Outcome σ β} {msg : String} (h : panicMsg x = some msg) :
    x = .panic msg := by
  cases x with
  | ok b s => cases h
  | block => cases h
  | panic m => rw [Option.some.inj h]

/-- A thread logs `n` blocks from `b` on. The cache is empty before block 40 is read, and gives out
its buffers in order. -/
def logFrom (t : Tid) (b : ℕ) : ℕ → List (Tid × Call)
  | 0 => []
  | n + 1 => [(t, .bread ⟨b % 2 ^ 31, Nat.mod_lt _ (by decide)⟩),
      (t, .logWrite (Fin.ofNat _ (b - 40)) (.zero _)), (t, .brelse (Fin.ofNat _ (b - 40)))] ++
      logFrom t (b + 1) n

theorem log_reservation_iff_firstBlock : ∃ (P : OpPool) (k : Unit → Prog BlockSt Reply),
    OpPool.Reaches 2 OpPool.Any (.init (binit fun _ => .zero _)) P ∧
    P.pool.thread 0 = .run (.logWrite 0 (.zero _)) (.act (logWriteHome 2 0 (.zero _)) k) ∧
    ¬ ∃ msg, logWriteHome 2 0 (.zero _) 0 P.shared = .panic msg ∧ LogMsg msg := by
  -- an operation reads block 40 and is about to log it
  have hcalls : (opCalls 2 OpPool.Any [(0, .beginOp), (0, .bread ⟨40, by decide⟩)] (binit fun _ => .zero _)
      fun _ => none).any (fun x => decide (x.2.May 0 (.logWrite 0 (.zero _)) ∧
        x.2.Within 0 x.1 (.logWrite 0 (.zero _)) ∧ x.1.lh = [])) = true := by decide +kernel
  obtain ⟨⟨s, o⟩, hso, hok⟩ := (Option.any_eq_true _ _).1 hcalls
  obtain ⟨hm, hw, hlh⟩ := of_decide_eq_true hok
  have hP := (reaches_of_opCalls hso).tail (.start (.logWrite 0 (.zero _)) rfl hm trivial)
  refine ⟨_, fun _ => .ret none, hP, by simp [body_logWrite], fun hpanic => ?_⟩
  have hiff := (log_reservation_iff (by decide) (fresh_binit _) rfl hP).2.2 0 (.logWrite 0 (.zero _))
    Unit (logWriteHome 2 0 (.zero _)) (fun _ => .ret none) (by simp [body_logWrite]) hw
  obtain ⟨-, -, -, -, -, -, hfull⟩ := hiff.1 hpanic
  have hlen : s.lh.length = 0 := congrArg List.length hlh
  exact absurd (hlen.symm.trans hfull) (by decide)

/-- Three operations fill the log with ten blocks each; the first then logs its first block
again. -/
theorem log_write_again_panics : ∃ (P : OpPool) (k : Unit → Prog BlockSt Reply),
    OpPool.Reaches 2 OpPool.Any (.init (binit fun _ => .zero _)) P ∧
    P.pool.thread 0 = .run (.logWrite 0 (.zero _)) (.act (logWriteHome 2 0 (.zero _)) k) ∧
    P.op.Within 0 P.shared (.logWrite 0 (.zero _)) ∧
    logWriteHome 2 0 (.zero _) 0 P.shared = .panic "too big a transaction" := by
  have hcalls : (opCalls 2 OpPool.Any ([(0, .beginOp), (1, .beginOp), (2, .beginOp)] ++ logFrom 0 40 10 ++
      logFrom 1 50 10 ++ logFrom 2 60 10 ++ [(0, .bread ⟨40, by decide⟩)])
      (binit fun _ => .zero _) fun _ => none).any (fun x =>
        decide (x.2.May 0 (.logWrite 0 (.zero _)) ∧ x.2.Within 0 x.1 (.logWrite 0 (.zero _)) ∧
          panicMsg (logWriteHome 2 0 (.zero _) 0 x.1) = some "too big a transaction")) = true := by
    decide +kernel
  obtain ⟨⟨s, o⟩, hso, hok⟩ := (Option.any_eq_true _ _).1 hcalls
  obtain ⟨hm, hw, hpanic⟩ := of_decide_eq_true hok
  exact ⟨_, fun _ => .ret none, (reaches_of_opCalls hso).tail (.start (.logWrite 0 (.zero _)) rfl hm trivial),
    by simp [body_logWrite], hw, panicMsg_eq_some hpanic⟩

end Xv6
