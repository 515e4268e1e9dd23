import Mathlib.Data.Nat.Notation
import Mathlib.Data.List.Infix
import Mathlib.Data.Nat.ModEq
import Mathlib.Tactic.Common

/-!
# Ring buffers with free-running counters

A buffer of `N` cells with two counters of `w` bits, which count the elements ever taken out and
ever put in and wrap around at `2 ^ w`. The cell of an element is its number modulo `N`, which is
meant to divide `2 ^ w`. `Tracks` relates a buffer to the two sequences of elements that went in
and came out: the second is a prefix of the first, and the buffer holds the rest. Neither
`Tracks.push` nor `Tracks.pop` bounds the lengths of the sequences.
-/

/-- The cells and the counters of a ring buffer. -/
structure RingBuf (α : Type) (w : ℕ) where
  data : ℕ → α
  nread : BitVec w
  nwrite : BitVec w

namespace RingBuf

variable {α : Type} {w N : ℕ} {r : RingBuf α w} {sent got : List α}

/-- Put an element in. -/
def push (N : ℕ) (a : α) (r : RingBuf α w) : RingBuf α w where
  data j := if j = r.nwrite.toNat % N then a else r.data j
  nread := r.nread
  nwrite := r.nwrite + 1

/-- The next element to come out. -/
def front (N : ℕ) (r : RingBuf α w) : α := r.data (r.nread.toNat % N)

/-- Take an element out. -/
def pop (r : RingBuf α w) : RingBuf α w := { r with nread := r.nread + 1 }

/-- The elements of `sent` went in, those of `got` came out. -/
structure Tracks (N : ℕ) (sent got : List α) (r : RingBuf α w) : Prop where
  order : got <+: sent
  room : sent.length ≤ got.length + N
  nread : r.nread = BitVec.ofNat w got.length
  nwrite : r.nwrite = BitVec.ofNat w sent.length
  cell : ∀ k (hk : k < sent.length), got.length ≤ k → r.data (k % N) = sent[k]

theorem tracks_empty (data : ℕ → α) : Tracks N [] [] (⟨data, 0, 0⟩ : RingBuf α w) :=
  ⟨List.prefix_rfl, Nat.zero_le _, rfl, rfl, fun k hk => absurd hk (Nat.not_lt_zero k)⟩

namespace Tracks

theorem length_le (h : Tracks N sent got r) : got.length ≤ sent.length := h.order.length_le

/-- The counters differ by the number of elements inside. -/
theorem size (h : Tracks N sent got r) (hN : N < 2 ^ w) :
    (r.nwrite - r.nread).toNat = sent.length - got.length := by
  have hle := h.length_le
  have hroom := h.room
  rw [h.nread, h.nwrite, show sent.length = (sent.length - got.length) + got.length by omega,
    BitVec.ofNat_add, BitVec.add_sub_cancel, BitVec.toNat_ofNat]
  exact (Nat.mod_eq_of_lt (by omega)).trans (by omega)

/-- Equal counters mean that nothing is inside. -/
theorem empty_iff (h : Tracks N sent got r) (hN : N < 2 ^ w) :
    r.nread = r.nwrite ↔ sent.length = got.length := by
  have hle := h.length_le
  refine ⟨fun he => ?_, fun he => by rw [h.nread, h.nwrite, he]⟩
  have hsize := h.size hN
  rw [he, BitVec.sub_self, BitVec.toNat_zero] at hsize
  omega

/-- The counters are `N` apart when there is no free cell. -/
theorem full_iff (h : Tracks N sent got r) (hN : N < 2 ^ w) :
    r.nwrite = r.nread + BitVec.ofNat w N ↔ sent.length = got.length + N := by
  refine ⟨fun he => ?_, fun he => by rw [h.nread, h.nwrite, he, BitVec.ofNat_add]⟩
  have hle := h.length_le
  have hsize := h.size hN
  rw [he, BitVec.add_comm, BitVec.add_sub_cancel, BitVec.toNat_ofNat, Nat.mod_eq_of_lt hN] at hsize
  omega

/-- The cell a counter points to is the one its sequence has reached. -/
theorem index (hd : N ∣ 2 ^ w) (n : ℕ) : (BitVec.ofNat w n).toNat % N = n % N := by
  rw [BitVec.toNat_ofNat, Nat.mod_mod_of_dvd n hd]

theorem push (h : Tracks N sent got r) (hd : N ∣ 2 ^ w) (a : α)
    (hroom : sent.length < got.length + N) : Tracks N (sent ++ [a]) got (r.push N a) := by
  have hle := h.length_le
  refine ⟨h.order.trans (List.prefix_append _ _), ?_, h.nread, ?_, fun k hk hg => ?_⟩
  · rw [List.length_append, List.length_singleton]
    omega
  · simp only [RingBuf.push]
    rw [h.nwrite, List.length_append, List.length_singleton, BitVec.ofNat_add]
    rfl
  · rw [List.length_append, List.length_singleton] at hk
    simp only [RingBuf.push, h.nwrite, index hd]
    by_cases hks : k = sent.length
    · subst hks
      simp
    · -- two positions less than `N` apart have different cells
      have hlt : k < sent.length := by omega
      have hne : k % N ≠ sent.length % N := by
        intro he
        have hdvd : N ∣ sent.length - k := (Nat.modEq_iff_dvd' hlt.le).1 he
        have := Nat.le_of_dvd (by omega) hdvd
        omega
      rw [if_neg hne, h.cell k hlt hg, List.getElem_append_left hlt]

/-- What comes out is the next element of those that went in. -/
theorem front_eq (h : Tracks N sent got r) (hd : N ∣ 2 ^ w) (hlt : got.length < sent.length) :
    r.front N = sent[got.length] := by
  rw [front, h.nread, index hd, h.cell got.length hlt (le_refl _)]

theorem pop (h : Tracks N sent got r) (hd : N ∣ 2 ^ w) (hlt : got.length < sent.length) :
    Tracks N sent (got ++ [r.front N]) r.pop := by
  refine ⟨?_, ?_, ?_, h.nwrite, fun k hk hg => h.cell k hk ?_⟩
  · rw [h.front_eq hd hlt]
    have htake : got = sent.take got.length := (List.prefix_iff_eq_take.1 h.order)
    rw [List.prefix_iff_eq_take, List.length_append, List.length_singleton,
      List.take_succ_eq_append_getElem hlt, ← htake]
  · rw [List.length_append, List.length_singleton]
    have := h.room
    omega
  · simp only [RingBuf.pop]
    rw [h.nread, List.length_append, List.length_singleton, BitVec.ofNat_add]
    rfl
  · rw [List.length_append, List.length_singleton] at hg
    omega

end Tracks

end RingBuf
