import Mathlib.Data.List.Chain
import Mathlib.Data.List.Nodup
import Mathlib.Logic.Function.Basic
import Mathlib.Data.Nat.Notation
import Mathlib.Data.Option.Basic

/-!
# Circular doubly linked lists

Nodes of a type `α` are linked through two pointers each, with one more node, the head, that is never
taken out. A pointer is an `Option α`, the head being `none`. `Ring L l` says that the links `L` are the
circle head, `l`, head.

The operations are the usual ones, one store after the other: `reset`, `insert` behind the head, and
`unlink`. A search follows one of the two pointers from the head until a node passes a test or the head
is back; in a ring it ends, with the first node of the list, or of its reverse, that passes
(`Ring.scan_next`, `Ring.scan_prev`).
-/

/-- The two pointers of every node and of the head. -/
structure Links (α : Type) where
  next : Option α → Option α
  prev : Option α → Option α

namespace Links

variable {α : Type}

/-! ## Searching -/

/-- The search along a pointer, of at most `k` nodes; without a result it has not ended. -/
def scan (f : Option α → Option α) (test : α → Bool) : ℕ → Option α → Option (Option α)
  | 0, _ => none
  | _ + 1, none => some none
  | k + 1, some a => if test a then some (some a) else scan f test k (f (some a))

/-- Along the pointer `f` come the nodes `l`, and then the head. -/
def Walk (f : Option α → Option α) : Option α → List α → Prop
  | p, [] => p = none
  | p, a :: l => p = some a ∧ Walk f (f (some a)) l

/-- A search finds the first node that passes. -/
theorem scan_walk {f : Option α → Option α} {test : α → Bool} {k : ℕ} {p : Option α} {l : List α}
    (h : Walk f p l) (hk : l.length < k) : scan f test k p = some (l.find? test) := by
  induction l generalizing k p with
  | nil =>
    obtain ⟨k, rfl⟩ := Nat.exists_eq_add_of_lt hk
    obtain rfl : p = none := h
    rfl
  | cons a l ih =>
    obtain ⟨k, rfl⟩ := Nat.exists_eq_add_of_lt hk
    obtain ⟨rfl, hrest⟩ := h
    unfold scan
    cases htest : test a with
    | true => rw [if_pos rfl, List.find?_cons_of_pos htest]
    | false =>
      rw [if_neg Bool.false_ne_true, List.find?_cons_of_neg (by rw [htest]; exact Bool.false_ne_true)]
      exact ih hrest (by rw [List.length_cons]; omega)

/-- From a pointer there is one walk. -/
theorem Walk.unique {f : Option α → Option α} {p : Option α} {l l' : List α} (h : Walk f p l)
    (h' : Walk f p l') : l = l' := by
  induction l generalizing p l' with
  | nil =>
    obtain rfl : p = none := h
    cases l' with
    | nil => rfl
    | cons a l' => exact absurd h'.1.symm (Option.some_ne_none a)
  | cons a l ih =>
    obtain ⟨rfl, hrest⟩ := h
    cases l' with
    | nil => exact absurd h' (Option.some_ne_none a)
    | cons b l' =>
      obtain ⟨hab, hrest'⟩ := h'
      obtain rfl : a = b := Option.some.inj hab
      rw [ih hrest hrest']

/-! ## Rings -/

/-- The pointers between two neighbours. -/
def Linked (L : Links α) (p q : Option α) : Prop := L.next p = q ∧ L.prev q = p

/-- The links are the circle of the head and the nodes of `l`, in this order. -/
def Ring (L : Links α) (l : List α) : Prop := (none :: (l.map some ++ [none])).IsChain L.Linked

variable {L : Links α} {l : List α}

/-- A chain to the head is a walk, from behind its first node. -/
theorem walk_of_isChain {f : Option α → Option α} {p : Option α}
    (h : (p :: (l.map some ++ [none])).IsChain fun p q => f p = q) : Walk f (f p) l := by
  induction l generalizing p with
  | nil => exact (List.isChain_cons_cons.1 h).1
  | cons a l ih =>
    obtain ⟨hp, hrest⟩ := List.isChain_cons_cons.1 h
    exact ⟨hp, ih hrest⟩

namespace Ring

theorem walk_next (h : Ring L l) : Walk L.next (L.next none) l :=
  walk_of_isChain (h.imp fun _ _ => And.left)

theorem walk_prev (h : Ring L l) : Walk L.prev (L.prev none) l.reverse := by
  refine walk_of_isChain ?_
  have hrev : none :: (l.reverse.map some ++ [none]) = (none :: (l.map some ++ [none])).reverse := by
    simp
  rw [hrev, List.isChain_reverse]
  exact h.imp fun _ _ => And.right

theorem unique {l' : List α} (h : Ring L l) (h' : Ring L l') : l = l' := h.walk_next.unique h'.walk_next

theorem scan_next (h : Ring L l) {k : ℕ} (hk : l.length < k) (test : α → Bool) :
    scan L.next test k (L.next none) = some (l.find? test) := scan_walk h.walk_next hk

theorem scan_prev (h : Ring L l) {k : ℕ} (hk : l.length < k) (test : α → Bool) :
    scan L.prev test k (L.prev none) = some (l.reverse.find? test) :=
  scan_walk h.walk_prev (by rwa [List.length_reverse])

end Ring

/-! ## Operations -/

section Operations

variable [DecidableEq α]

/-- `p->next = q`. -/
def setNext (L : Links α) (p q : Option α) : Links α := { L with next := Function.update L.next p q }

/-- `p->prev = q`. -/
def setPrev (L : Links α) (p q : Option α) : Links α := { L with prev := Function.update L.prev p q }

section Stores

variable {L : Links α} {p q r : Option α}

@[simp] theorem next_setPrev : (L.setPrev p q).next = L.next := rfl

@[simp] theorem prev_setNext : (L.setNext p q).prev = L.prev := rfl

@[simp] theorem next_setNext_self : (L.setNext p q).next p = q := Function.update_self ..

@[simp] theorem prev_setPrev_self : (L.setPrev p q).prev p = q := Function.update_self ..

theorem next_setNext_of_ne (h : r ≠ p) : (L.setNext p q).next r = L.next r := Function.update_of_ne h ..

theorem prev_setPrev_of_ne (h : r ≠ p) : (L.setPrev p q).prev r = L.prev r := Function.update_of_ne h ..

end Stores

/-- The circle of the head alone. -/
def reset (L : Links α) : Links α := (L.setPrev none none).setNext none none

/-- A node is put behind the head. -/
def insert (L : Links α) (a : α) : Links α :=
  let L := L.setNext (some a) (L.next none)
  let L := L.setPrev (some a) none
  let L := L.setPrev (L.next none) (some a)
  L.setNext none (some a)

/-- A node is taken out. -/
def unlink (L : Links α) (a : α) : Links α :=
  let L := L.setPrev (L.next (some a)) (L.prev (some a))
  L.setNext (L.prev (some a)) (L.next (some a))

end Operations

/-- A chain stays when the pointers that it is made of stay. -/
theorem isChain_congr {L L' : Links α} {c : List (Option α)} (h : c.IsChain L.Linked)
    (hnext : ∀ p ∈ c.dropLast, L'.next p = L.next p) (hprev : ∀ p ∈ c.tail, L'.prev p = L.prev p) :
    c.IsChain L'.Linked := by
  induction c with
  | nil => exact .nil
  | cons p c ih =>
    cases c with
    | nil => exact .singleton p
    | cons q c =>
      obtain ⟨⟨hpq, hqp⟩, hrest⟩ := List.isChain_cons_cons.1 h
      refine List.isChain_cons_cons.2 ⟨⟨?_, ?_⟩, ih hrest ?_ ?_⟩
      · rw [hnext p (by simp), hpq]
      · rw [hprev q (by simp), hqp]
      · exact fun r hr => hnext r (List.mem_cons_of_mem p hr)
      · exact fun r hr => hprev r (List.mem_cons_of_mem q hr)

namespace Ring

variable [DecidableEq α] {L : Links α} {l l₁ l₂ : List α} {a : α}

theorem reset : Ring L.reset [] := by
  refine List.isChain_pair.2 ⟨next_setNext_self, ?_⟩
  unfold Links.reset
  rw [prev_setNext, prev_setPrev_self]

theorem insert (h : Ring L l) (hl : (a :: l).Nodup) : Ring (L.insert a) (a :: l) := by
  obtain ⟨ha, hnd⟩ := List.nodup_cons.1 hl
  obtain ⟨q, c, hq⟩ : ∃ q c, l.map some ++ [none] = q :: c := List.exists_cons_of_ne_nil (by simp)
  unfold Ring at h
  rw [hq, List.isChain_cons_cons] at h
  obtain ⟨⟨hnext, -⟩, hrest⟩ := h
  have hins : L.insert a = (((L.setNext (some a) q).setPrev (some a) none).setPrev q (some a)).setNext
      none (some a) := by
    unfold Links.insert
    rw [hnext]
    have hread : ((L.setNext (some a) q).setPrev (some a) none).next none = q := by
      rw [next_setPrev, next_setNext_of_ne (Option.some_ne_none a).symm, hnext]
    simp only [hread]
  -- The nodes are distinct, and the new one is none of them.
  have hqc : (q :: c).Nodup := by
    rw [← hq]
    exact List.Nodup.append (hnd.map (Option.some_injective α)) (List.nodup_singleton _) (by simp)
  have hsource : ∀ p ∈ (q :: c).dropLast, p ≠ none ∧ p ≠ some a := by
    rw [← hq, List.dropLast_concat]
    rintro _ hp
    obtain ⟨x, hx, rfl⟩ := List.mem_map.1 hp
    exact ⟨Option.some_ne_none x, fun he => ha (Option.some.inj he ▸ hx)⟩
  have htarget : ∀ p ∈ q :: c, p ≠ some a := by
    rw [← hq]
    intro p hp hpa
    subst hpa
    simp only [List.mem_append, List.mem_map, Option.some.injEq, exists_eq_right, List.mem_singleton,
      reduceCtorEq, or_false] at hp
    exact ha hp
  unfold Ring
  rw [List.map_cons, List.cons_append, hq, hins]
  refine List.isChain_cons_cons.2 ⟨⟨?_, ?_⟩, List.isChain_cons_cons.2 ⟨⟨?_, ?_⟩, ?_⟩⟩
  · exact next_setNext_self
  · exact (prev_setPrev_of_ne (htarget q (by simp)).symm).trans prev_setPrev_self
  · exact (next_setNext_of_ne (Option.some_ne_none a)).trans next_setNext_self
  · exact prev_setPrev_self
  · refine isChain_congr hrest (fun p hp => ?_) fun p hp => ?_
    · obtain ⟨hp₀, hpa⟩ := hsource p hp
      exact (next_setNext_of_ne hp₀).trans (next_setNext_of_ne hpa)
    · have hpq : p ≠ q := fun he => (List.nodup_cons.1 hqc).1 (he ▸ hp)
      exact (prev_setPrev_of_ne hpq).trans (prev_setPrev_of_ne (htarget p (List.mem_cons_of_mem q hp)))

/-- Nodes are put behind the head one after the other. -/
theorem foldl_insert {m : List α} (h : Ring L l) (hl : (m.reverse ++ l).Nodup) :
    Ring (m.foldl Links.insert L) (m.reverse ++ l) := by
  induction m generalizing L l with
  | nil => exact h
  | cons a m ih =>
    rw [List.reverse_cons, List.append_assoc] at hl ⊢
    exact ih (h.insert (List.nodup_append.1 hl).2.1) hl

theorem unlink (h : Ring L (l₁ ++ a :: l₂)) (hl : (l₁ ++ a :: l₂).Nodup) :
    Ring (L.unlink a) (l₁ ++ l₂) := by
  obtain ⟨b, p, hp⟩ : ∃ b p, none :: l₁.map some = b ++ [p] :=
    ⟨_, _, (List.dropLast_append_getLast (List.cons_ne_nil _ _)).symm⟩
  obtain ⟨q, c, hq⟩ : ∃ q c, l₂.map some ++ [none] = q :: c := List.exists_cons_of_ne_nil (by simp)
  have hsplit : ∀ m, none :: ((l₁ ++ m).map some ++ [none]) = b ++ p :: (m.map some ++ [none]) := by
    intro m
    rw [List.map_append, List.append_assoc, ← List.cons_append, hp, List.append_assoc]
    rfl
  have hmap : (l₁.map some ++ some a :: l₂.map some).Nodup := by
    rw [← List.map_cons, ← List.map_append]
    exact hl.map (Option.some_injective α)
  have hsources : (b ++ p :: some a :: l₂.map some).Nodup := by
    have hnone : none ∉ l₁.map some ++ some a :: l₂.map some := by simp
    have := List.nodup_cons.2 ⟨hnone, hmap⟩
    rwa [← List.cons_append, hp, List.append_assoc] at this
  have htargets : (l₁.map some ++ some a :: q :: c).Nodup := by
    rw [← hq, ← List.cons_append, ← List.append_assoc]
    exact hmap.append (List.nodup_singleton _) (by simp)
  unfold Ring at h
  rw [hsplit, List.map_cons, List.cons_append, hq, List.isChain_append_cons_cons,
    List.isChain_cons_cons] at h
  obtain ⟨hfront, ⟨-, hpa⟩, ⟨haq, -⟩, hback⟩ := h
  have hunlink : L.unlink a = (L.setPrev q p).setNext p q := by
    have hread : (L.setPrev q p).prev (some a) = p := by
      by_cases ha : some a = q
      · rw [ha, prev_setPrev_self]
      · rw [prev_setPrev_of_ne ha, hpa]
    unfold Links.unlink
    simp only [haq, hpa, hread]
    rw [show (L.setPrev q p).next (some a) = q from haq]
  unfold Ring
  rw [hsplit, hq, List.isChain_append_cons_cons, hunlink]
  refine ⟨isChain_congr hfront (fun r hr => ?_) fun r hr => ?_,
    ⟨next_setNext_self, prev_setPrev_self⟩,
    isChain_congr hback (fun r hr => ?_) fun r hr => ?_⟩
  · rw [List.dropLast_concat] at hr
    refine next_setNext_of_ne fun he => ?_
    exact (List.nodup_append.1 hsources).2.2 r hr p (by simp) he
  · rw [← hp, List.tail_cons] at hr
    refine prev_setPrev_of_ne fun he => ?_
    exact (List.nodup_append.1 htargets).2.2 r hr q (by simp) he
  · rw [← hq, List.dropLast_concat] at hr
    refine next_setNext_of_ne fun he => ?_
    have hnot := (List.nodup_cons.1 (List.nodup_append.1 hsources).2.1).1
    exact hnot (he ▸ List.mem_cons_of_mem _ hr)
  · refine prev_setPrev_of_ne fun he => ?_
    have hnot := (List.nodup_cons.1 (List.nodup_cons.1 (List.nodup_append.1 htargets).2.1).2).1
    exact hnot (he ▸ hr)

/-- A node is moved to the front. -/
theorem moveFront (h : Ring L l) (hl : l.Nodup) (ha : a ∈ l) :
    Ring ((L.unlink a).insert a) (a :: l.erase a) := by
  obtain ⟨l₁, l₂, hno, rfl, he⟩ := List.exists_erase_eq ha
  rw [he]
  refine insert (unlink h hl) ?_
  exact List.nodup_middle.1 hl

end Ring

end Links
