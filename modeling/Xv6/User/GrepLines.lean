import Xv6.User.Grep
import Xv6.Lib.ByteMem

/-!
# The lines that `grep` writes

The loop of `grep` over what `read` delivers. `read` may give any number of bytes up to the number
asked for; how many is said by `pick`, for each read. The part of a line that is not complete yet is
moved to the front of `buf`, and the next bytes are read behind it.

A line of 1023 characters or more, without its newline, fills the buffer: the next `read` is asked for
no bytes, and `grep` ends as if the input did. So `grep` writes the lines that match of those before
the first such line (`grep_eq`), whatever `read` does.
-/

namespace Xv6.Grep

/-- `sizeof(buf)`. -/
abbrev bufSize : ℕ := 1024

/-- The character `'\n'`. -/
abbrev newline : UInt8 := 10

/-- `strchr(p, c)`; there is no NUL in the buffer when the turns are used up. -/
def strchr (buf : ByteMem) (c : UInt8) : ℕ → ℕ → Option (Option ℕ)
  | 0, _ => none
  | fuel + 1, p =>
    if buf p = 0 then some none
    else if buf p = c then some (some p)
    else strchr buf c fuel (p + 1)

/-- The string that the pointer `p` points to. -/
def stringAt (buf : ByteMem) : ℕ → ℕ → Option (List UInt8)
  | 0, _ => none
  | fuel + 1, p => if buf p = 0 then some [] else (stringAt buf fuel (p + 1)).map (buf p :: ·)

/-- The inner loop of `grep`, over the lines that the buffer has from `p` on. -/
def lineLoop (pattern : List UInt8) : ℕ → ByteMem → ℕ → List UInt8 → Option (ByteMem × ℕ × List UInt8)
  | 0, _, _, _ => none
  | fuel + 1, buf, p, out => do
    match ← strchr buf newline bufSize p with
    | none => return (buf, p, out)
    | some q =>
      let buf := buf.write q [0]
      let text ← stringAt buf bufSize p
      if ← matchText pattern text then
        let buf := buf.write q [newline]
        lineLoop pattern fuel buf (q + 1) (out ++ buf.read p (q + 1 - p))
      else lineLoop pattern fuel buf (q + 1) out

/-- What `read` returns for a request of `n` bytes with `left` to come: any number from 1 on that is
possible, `want` if it is. -/
def readCount (want n left : ℕ) : ℕ := if n = 0 ∨ left = 0 then 0 else max 1 (min want (min n left))

/-- The loop of `grep`, before read number `i`, with `m` bytes in the buffer and `inp` to come. -/
def grepLoop (pattern : List UInt8) (pick : ℕ → ℕ) :
    ℕ → ℕ → ByteMem → ℕ → List UInt8 → List UInt8 → Option (List UInt8)
  | 0, _, _, _, _, _ => none
  | fuel + 1, i, buf, m, inp, out => do
    let n := readCount (pick i) (bufSize - m - 1) inp.length
    if n > 0 then
      let buf := buf.write m (inp.take n)
      let m := m + n
      let buf := buf.write m [0]
      let (buf, p, out) ← lineLoop pattern bufSize buf 0 out
      if m > 0 then
        let m := m - p
        grepLoop pattern pick fuel (i + 1) (buf.write 0 (buf.read p m)) m (inp.drop n) out
      else grepLoop pattern pick fuel (i + 1) buf m (inp.drop n) out
    else return out

/-- `grep` on an input: what it writes. -/
def grep (pattern : List UInt8) (pick : ℕ → ℕ) (inp : List UInt8) : Option (List UInt8) :=
  grepLoop pattern pick (inp.length + 1) 0 (fun _ => 0) 0 inp []

/-! ## Lines -/

/-- Lines with their newlines. -/
def unlines (ls : List (List UInt8)) : List UInt8 := ls.flatMap (· ++ [newline])

/-- Does `match` say that the line matches? -/
def matched (pattern l : List UInt8) : Bool := matchText pattern l == some true

/-- A line that the buffer can hold. -/
def short (l : List UInt8) : Bool := l.length + 1 < bufSize

/-- What a line is made of. -/
def IsLine (l : List UInt8) : Prop := 0 ∉ l ∧ newline ∉ l

variable {buf : ByteMem} {p fuel m i : ℕ} {l x y inp out pattern : List UInt8} {ls : List (List UInt8)}

theorem IsLine.ne_newline {c : UInt8} (h : IsLine (c :: l)) : c ≠ newline := fun e =>
  h.2 (by rw [e]; exact List.mem_cons_self)

theorem IsLine.tail {c : UInt8} (h : IsLine (c :: l)) : IsLine l :=
  ⟨fun h0 => h.1 (List.mem_cons_of_mem c h0), fun hn => h.2 (List.mem_cons_of_mem c hn)⟩

@[simp] theorem unlines_nil : unlines [] = [] := rfl

@[simp] theorem unlines_cons : unlines (l :: ls) = l ++ newline :: unlines ls := by
  simp [unlines]

theorem unlines_append (ls ls' : List (List UInt8)) : unlines (ls ++ ls') = unlines ls ++ unlines ls' :=
  List.flatMap_append

theorem length_le_unlines (ls : List (List UInt8)) : ls.length ≤ (unlines ls).length := by
  induction ls with
  | nil => simp
  | cons l ls ih =>
    rw [unlines_cons, List.length_append, List.length_cons, List.length_cons]
    omega

theorem unlines_eq_nil : unlines ls = [] ↔ ls = [] := by
  cases ls <;> simp

theorem zero_notMem_unlines (h : ∀ l ∈ ls, IsLine l) : 0 ∉ unlines ls := by
  intro h0
  obtain ⟨l, hl, h0⟩ := List.mem_flatMap.1 h0
  rcases List.mem_append.1 h0 with h0 | h0
  · exact (h l hl).1 h0
  · exact absurd (List.mem_singleton.1 h0) (by decide)

/-- Where a piece of the lines ends: after some whole lines, and inside the next. -/
theorem unlines_cut (h : ∀ l ∈ ls, IsLine l) (he : unlines ls = x ++ y) :
    ∃ ls₁ ls₂ rest, ls = ls₁ ++ ls₂ ∧ x = unlines ls₁ ++ rest ∧ newline ∉ rest ∧
      unlines ls₂ = rest ++ y := by
  induction ls generalizing x with
  | nil =>
    obtain ⟨rfl, rfl⟩ := List.append_eq_nil_iff.1 he.symm
    exact ⟨[], [], [], rfl, rfl, List.not_mem_nil, rfl⟩
  | cons l ls ih =>
    obtain ⟨hl, hls⟩ := List.forall_mem_cons.1 h
    rw [unlines_cons] at he
    rcases List.append_eq_append_iff.1 he with ⟨a, ha, hb⟩ | ⟨a, ha, hb⟩
    · cases a with
      | nil =>
        rw [List.append_nil] at ha
        refine ⟨[], l :: ls, l, rfl, ha, hl.2, ?_⟩
        rw [unlines_cons, hb]
        rfl
      | cons c a =>
        obtain ⟨rfl, hb'⟩ := List.cons.inj hb
        obtain ⟨ls₁, ls₂, rest, rfl, hx, hrest, hy⟩ := ih (x := a) hls hb'
        refine ⟨l :: ls₁, ls₂, rest, rfl, ?_, hrest, hy⟩
        rw [ha, hx, unlines_cons, List.append_assoc]
        rfl
    · refine ⟨[], l :: ls, x, rfl, rfl, fun hx => hl.2 ?_, ?_⟩
      · rw [ha]
        exact List.mem_append_left a hx
      · rw [unlines_cons, ha, hb, List.append_assoc]

/-! ## The buffer -/

/-- The buffer has the characters of `l` from `p` on. -/
def Text (buf : ByteMem) : ℕ → List UInt8 → Prop
  | _, [] => True
  | p, c :: l => buf p = c ∧ Text buf (p + 1) l

theorem text_append : Text buf p (x ++ y) ↔ Text buf p x ∧ Text buf (p + x.length) y := by
  induction x generalizing p with
  | nil => exact ⟨fun h => ⟨trivial, h⟩, And.right⟩
  | cons c x ih =>
    show buf p = c ∧ Text buf (p + 1) (x ++ y) ↔ _
    rw [ih, List.length_cons, Nat.add_assoc, Nat.add_comm 1]
    exact and_assoc.symm

theorem Text.congr {buf' : ByteMem} (h : Text buf p l) (hb : ∀ j, p ≤ j → j < p + l.length → buf' j = buf j) :
    Text buf' p l := by
  induction l generalizing p with
  | nil => trivial
  | cons c l ih =>
    rw [List.length_cons] at hb
    exact ⟨(hb p (Nat.le_refl _) (by omega)).trans h.1, ih h.2 fun j hj hlt => hb j (by omega) (by omega)⟩

theorem Text.read (h : Text buf p l) : buf.read p l.length = l := by
  induction l generalizing p with
  | nil => rfl
  | cons c l ih =>
    unfold ByteMem.read at ih ⊢
    rw [List.length_cons, List.range_succ_eq_map, List.map_cons, List.map_map]
    refine congrArg₂ _ h.1 (Eq.trans (List.map_congr_left fun i _ => congrArg buf ?_) (ih h.2))
    show p + (i + 1) = p + 1 + i
    omega

theorem text_write : Text (buf.write p l) p l := by
  have key : ∀ (x y : List UInt8), x ++ y = l → Text (buf.write p l) (p + x.length) y := by
    intro x y
    induction y generalizing x with
    | nil => exact fun _ => trivial
    | cons c y ih =>
      intro hl
      refine ⟨?_, ?_⟩
      · subst hl
        unfold ByteMem.write
        rw [if_pos (by simp only [List.length_append, List.length_cons]; omega), Nat.add_sub_cancel_left]
        simp
      · have := ih (x ++ [c]) (by simpa using hl)
        rwa [List.length_append] at this
  exact key [] l rfl

theorem strchr_found (h : Text buf p (l ++ [newline])) (hl : IsLine l) (hf : l.length < fuel) :
    strchr buf newline fuel p = some (some (p + l.length)) := by
  induction l generalizing p fuel with
  | nil =>
    obtain ⟨fuel, rfl⟩ : ∃ k, fuel = k + 1 := ⟨fuel - 1, by omega⟩
    rw [strchr, if_neg (by rw [h.1]; decide), if_pos h.1]
    rfl
  | cons c l ih =>
    obtain ⟨fuel, rfl⟩ : ∃ k, fuel = k + 1 := ⟨fuel - 1, by omega⟩
    rw [List.length_cons] at hf ⊢
    rw [strchr, h.1, if_neg (headD_ne_zero hl.1), if_neg hl.ne_newline, ih h.2 hl.tail (by omega)]
    congr 2
    omega

theorem strchr_none (h : Text buf p l) (h0 : buf (p + l.length) = 0) (hl : IsLine l)
    (hf : l.length < fuel) : strchr buf newline fuel p = some none := by
  induction l generalizing p fuel with
  | nil =>
    obtain ⟨fuel, rfl⟩ : ∃ k, fuel = k + 1 := ⟨fuel - 1, by omega⟩
    rw [strchr, if_pos (show buf p = 0 from h0)]
  | cons c l ih =>
    obtain ⟨fuel, rfl⟩ : ∃ k, fuel = k + 1 := ⟨fuel - 1, by omega⟩
    rw [List.length_cons] at hf h0
    rw [strchr, h.1, if_neg (headD_ne_zero hl.1), if_neg hl.ne_newline]
    exact ih h.2 (by rw [← h0]; congr 1; omega) hl.tail (by omega)

theorem stringAt_eq (h : Text buf p l) (h0 : buf (p + l.length) = 0) (hl : 0 ∉ l) (hf : l.length < fuel) :
    stringAt buf fuel p = some l := by
  induction l generalizing p fuel with
  | nil =>
    obtain ⟨fuel, rfl⟩ : ∃ k, fuel = k + 1 := ⟨fuel - 1, by omega⟩
    rw [stringAt, if_pos (show buf p = 0 from h0)]
  | cons c l ih =>
    obtain ⟨fuel, rfl⟩ : ∃ k, fuel = k + 1 := ⟨fuel - 1, by omega⟩
    rw [List.length_cons] at hf h0
    rw [stringAt, h.1, if_neg (headD_ne_zero hl),
      ih h.2 (by rw [← h0]; congr 1; omega) (not_mem_tail hl) (by omega)]
    rfl

/-! ## The loops -/

/-- The inner loop writes the lines that match, and stops at what follows the last newline. -/
theorem lineLoop_eq (hpat : 0 ∉ pattern) (hls : ∀ l ∈ ls, IsLine l) (hrest : IsLine l)
    (ht : Text buf p (unlines ls ++ l)) (h0 : buf (p + (unlines ls ++ l).length) = 0)
    (hlen : (unlines ls ++ l).length < bufSize) (hf : ls.length < fuel) :
    ∃ buf', lineLoop pattern fuel buf p out =
        some (buf', p + (unlines ls).length, out ++ unlines (ls.filter (matched pattern))) ∧
      Text buf' (p + (unlines ls).length) l := by
  induction ls generalizing buf p fuel out with
  | nil =>
    obtain ⟨fuel, rfl⟩ : ∃ k, fuel = k + 1 := ⟨fuel - 1, by omega⟩
    refine ⟨buf, ?_, ht⟩
    rw [lineLoop, strchr_none ht h0 hrest hlen]
    simp
  | cons line ls ih =>
    obtain ⟨fuel, rfl⟩ : ∃ k, fuel = k + 1 := ⟨fuel - 1, by omega⟩
    obtain ⟨hline, hls⟩ := List.forall_mem_cons.1 hls
    -- the buffer: the line, its newline, and the rest
    have hsplit : unlines (line :: ls) ++ l = (line ++ [newline]) ++ (unlines ls ++ l) := by simp
    rw [hsplit] at ht h0 hlen
    obtain ⟨htline, htrest⟩ := text_append.1 ht
    have hcount : (line ++ [newline]).length = line.length + 1 := List.length_append
    have hsum : (unlines (line :: ls)).length = line.length + 1 + (unlines ls).length := by
      rw [unlines_cons, List.length_append, List.length_cons]
      omega
    rw [List.length_append, hcount] at hlen h0
    rw [hcount] at htrest
    obtain ⟨q, hq⟩ : ∃ q, q = p + line.length := ⟨_, rfl⟩
    have hstr : strchr buf newline bufSize p = some (some q) :=
      (strchr_found htline hline (by omega)).trans (by rw [hq])
    have hafter : ∀ c j, q < j → buf.write q [c] j = buf j := fun c j hj => ByteMem.write_of_not_mem (.inr hj)
    -- the line as a string, with the newline overwritten
    have hbefore : Text (buf.write q [0]) p line :=
      (text_append.1 htline).1.congr fun j _ hj => ByteMem.write_of_not_mem (.inl (by omega))
    have hstring : stringAt (buf.write q [0]) bufSize p = some line :=
      stringAt_eq hbefore (by rw [← hq]; exact (text_write (l := [0])).1) hline.1 (by omega)
    obtain ⟨b, hmatch, -⟩ := matchText_spec hpat hline.1
    have hnext : p + (unlines (line :: ls)).length = q + 1 + (unlines ls).length := by omega
    rw [lineLoop, hstr]
    simp only [Option.bind_eq_bind, Option.bind_some, hstring, hmatch, hnext]
    cases b with
    | false =>
      have hno : matched pattern line = false := by simp [matched, hmatch]
      rw [List.filter_cons_of_neg (by rw [hno]; exact Bool.false_ne_true), if_neg Bool.false_ne_true]
      refine ih hls ?_ ?_ (by omega) (by rw [List.length_cons] at hf; omega)
      · rw [show q + 1 = p + (line.length + 1) by omega]
        exact htrest.congr fun j hj _ => hafter 0 j (by omega)
      · rw [hafter 0 _ (by omega), ← h0]
        congr 1
        omega
    | true =>
      have hyes : matched pattern line = true := by simp [matched, hmatch]
      have hback : ∀ j, q < j → ((buf.write q [0]).write q [newline]) j = buf j := fun j hj =>
        (ByteMem.write_of_not_mem (.inr hj)).trans (hafter 0 j hj)
      have htext : Text ((buf.write q [0]).write q [newline]) p (line ++ [newline]) := by
        refine text_append.2 ⟨hbefore.congr fun j _ hj => ByteMem.write_of_not_mem (.inl (by omega)), ?_⟩
        rw [← hq]
        exact text_write
      have hwritten : ((buf.write q [0]).write q [newline]).read p (q + 1 - p) = line ++ [newline] := by
        rw [show q + 1 - p = (line ++ [newline]).length by omega]
        exact htext.read
      rw [List.filter_cons_of_pos hyes, if_pos rfl, hwritten]
      have htail : Text ((buf.write q [0]).write q [newline]) (q + 1) (unlines ls ++ l) := by
        rw [show q + 1 = p + (line.length + 1) by omega]
        exact htrest.congr fun j hj _ => hback j (by omega)
      have hnul : ((buf.write q [0]).write q [newline]) (q + 1 + (unlines ls ++ l).length) = 0 := by
        rw [hback _ (by omega), ← h0]
        congr 1
        omega
      have hturns : ls.length < fuel := by
        rw [List.length_cons] at hf
        omega
      rw [show out ++ unlines (line :: ls.filter (matched pattern)) =
        out ++ (line ++ [newline]) ++ unlines (ls.filter (matched pattern)) by simp]
      exact ih hls htail hnul (by omega) hturns

theorem readCount_le (want n left : ℕ) : readCount want n left ≤ n ∧ readCount want n left ≤ left := by
  unfold readCount
  split <;> omega

theorem readCount_eq_zero (want n left : ℕ) : readCount want n left = 0 ↔ n = 0 ∨ left = 0 := by
  unfold readCount
  split <;> omega

/-- A line does not start with more characters than it has. -/
theorem short_of_fits {rest : List UInt8} (hx : newline ∉ x) (he : unlines (l :: ls) = x ++ rest) :
    x.length ≤ l.length := by
  rw [unlines_cons] at he
  rcases List.append_eq_append_iff.1 he with ⟨a, rfl, hb⟩ | ⟨a, rfl, -⟩
  · cases a with
    | nil => simp
    | cons c a =>
      obtain ⟨rfl, -⟩ := List.cons.inj hb
      exact absurd (by simp) hx
  · simp

/-- The loop, with a part of a line in the buffer. -/
theorem grepLoop_eq {pick : ℕ → ℕ} (hpat : 0 ∉ pattern) (hls : ∀ l ∈ ls, IsLine l) (hx : newline ∉ x)
    (he : unlines ls = x ++ inp) (ht : Text buf 0 x) (hlen : x.length < bufSize) (hf : inp.length < fuel) :
    grepLoop pattern pick fuel i buf x.length inp out =
      some (out ++ unlines ((ls.takeWhile short).filter (matched pattern))) := by
  induction fuel generalizing ls x inp i buf out with
  | zero => omega
  | succ fuel ih =>
    obtain ⟨n, hn⟩ : ∃ n, n = readCount (pick i) (bufSize - x.length - 1) inp.length := ⟨_, rfl⟩
    obtain ⟨hroom, hleft⟩ := readCount_le (pick i) (bufSize - x.length - 1) inp.length
    rw [← hn] at hroom hleft
    rw [grepLoop]
    simp only [← hn]
    by_cases h0 : n = 0
    · -- the input has ended, or the buffer is full
      rw [if_neg (by omega)]
      have hstop : ls.takeWhile short = [] := by
        cases ls with
        | nil => rfl
        | cons l ls =>
          have hl := short_of_fits hx he
          have hend : inp ≠ [] := by
            rintro rfl
            rw [List.append_nil] at he
            exact hx (he ▸ by simp)
          have hpos := List.length_pos_iff.2 hend
          rcases (readCount_eq_zero _ _ _).1 (hn.symm.trans h0) with hfull | hnone
          · refine List.takeWhile_cons_of_neg fun hs => ?_
            have hs := of_decide_eq_true hs
            omega
          · omega
      rw [hstop]
      simp
    · rw [if_pos (by omega)]
      -- the lines of the buffer, and what is left of it
      have hcut : unlines ls = (x ++ inp.take n) ++ inp.drop n := by
        rw [he, List.append_assoc, List.take_append_drop]
      obtain ⟨ls₁, ls₂, rest, rfl, hbuf, hrest, hy⟩ := unlines_cut hls hcut
      have hls₁ : ∀ l ∈ ls₁, IsLine l := fun l hl => hls l (List.mem_append_left _ hl)
      have hls₂ : ∀ l ∈ ls₂, IsLine l := fun l hl => hls l (List.mem_append_right _ hl)
      have htake : (inp.take n).length = n := List.length_take_of_le hleft
      have hsize : (unlines ls₁ ++ rest).length = x.length + n := by
        rw [← hbuf, List.length_append, htake]
      have hrest0 : 0 ∉ rest := fun h => zero_notMem_unlines hls₂ (hy ▸ List.mem_append_left _ h)
      have hin : Text ((buf.write x.length (inp.take n)).write (x.length + n) [0]) 0
          (unlines ls₁ ++ rest) := by
        rw [← hbuf]
        refine text_append.2 ⟨ht.congr fun j _ hj => ?_, ?_⟩
        · rw [ByteMem.write_of_not_mem (.inl (by omega)), ByteMem.write_of_not_mem (.inl (by omega))]
        · rw [Nat.zero_add]
          exact text_write.congr fun j _ hj => ByteMem.write_of_not_mem (.inl (by omega))
      have hnul : ((buf.write x.length (inp.take n)).write (x.length + n) [0]) (x.length + n) = 0 :=
        (text_write (l := [0])).1
      have hcount : ls₁.length < bufSize := by
        have := length_le_unlines ls₁
        rw [List.length_append] at hsize
        omega
      obtain ⟨buf', hloop, htext⟩ := lineLoop_eq hpat hls₁ ⟨hrest0, hrest⟩ hin
        (by rw [hsize, Nat.zero_add]; exact hnul) (by omega) hcount
      rw [hloop]
      simp only [Option.bind_eq_bind, Option.bind_some, Nat.zero_add] at htext ⊢
      rw [if_pos (by omega)]
      rw [List.length_append] at hsize
      have hm : x.length + n - (unlines ls₁).length = rest.length := by omega
      rw [hm, htext.read]
      have hshort : (ls₁ ++ ls₂).takeWhile short = ls₁ ++ ls₂.takeWhile short := by
        refine List.takeWhile_append_of_pos fun l hl => ?_
        obtain ⟨a, b, rfl⟩ := List.append_of_mem hl
        rw [unlines_append, unlines_cons, List.length_append, List.length_append, List.length_cons] at hsize
        simp only [short, decide_eq_true_eq]
        omega
      rw [ih hls₂ hrest hy text_write (by omega) (by rw [List.length_drop]; omega), hshort,
        List.filter_append, unlines_append, List.append_assoc]

/-- `grep` writes the lines that match before the first that the buffer cannot hold. -/
theorem grep_eq {pick : ℕ → ℕ} (hpat : 0 ∉ pattern) (hls : ∀ l ∈ ls, IsLine l) :
    grep pattern pick (unlines ls) = some (unlines ((ls.takeWhile short).filter (matched pattern))) := by
  have hempty : Text (fun _ => 0) 0 [] := trivial
  rw [grep, ← List.nil_append (unlines (List.filter _ _))]
  exact grepLoop_eq hpat hls List.not_mem_nil (List.nil_append _).symm hempty (by decide)
    (Nat.lt_succ_self _)

/-- **What `grep` writes.** For every input of whole lines, every pattern and whatever `read` does,
`grep` writes all lines that match if and only if none of them is one of 1023 characters or more, or
comes after one. -/
theorem grep_writes_matching_iff (pattern : List UInt8) (pick : ℕ → ℕ) (ls : List (List UInt8))
    (hpat : 0 ∉ pattern) (hls : ∀ l ∈ ls, IsLine l) :
    grep pattern pick (unlines ls) = some (unlines (ls.filter (matched pattern))) ↔
      ∀ l ∈ ls.dropWhile short, matched pattern l = false := by
  rw [grep_eq hpat hls, Option.some_inj]
  have hsplit : unlines (ls.filter (matched pattern)) =
      unlines ((ls.takeWhile short).filter (matched pattern)) ++
        unlines ((ls.dropWhile short).filter (matched pattern)) := by
    rw [← unlines_append, ← List.filter_append, List.takeWhile_append_dropWhile]
  rw [hsplit, List.self_eq_append_right, unlines_eq_nil, List.filter_eq_nil_iff]
  simp

theorem grep_writes_matching_abc : (∀ l ∈ [[97], [98], [97, 99]], IsLine l) ∧
    (grep [97] (fun _ => 2) (unlines [[97], [98], [97, 99]]) =
        some (unlines ([[97], [98], [97, 99]].filter (matched [97]))) ↔
      ∀ l ∈ [[97], [98], [97, 99]].dropWhile short, matched [97] l = false) := by
  have hls : ∀ l ∈ [[97], [98], [97, 99]], IsLine l := by
    simp [IsLine, newline]
  exact ⟨hls, grep_writes_matching_iff _ _ _ (by decide) hls⟩

/-- The line of 1023 times `a` matches the pattern `a`, and is not written. -/
theorem grep_loses_line : IsLine (List.replicate 1023 97) ∧
    matched [97] (List.replicate 1023 97) = true ∧
    ∀ pick, grep [97] pick (unlines [List.replicate 1023 97]) = some [] := by
  have hline : IsLine (List.replicate 1023 97) := by
    constructor <;> exact fun h => absurd (List.eq_of_mem_replicate h) (by decide)
  refine ⟨hline, by decide +kernel, fun pick => ?_⟩
  rw [grep_eq (by decide) (List.forall_mem_singleton.2 hline)]
  have hlong : ¬ short (List.replicate 1023 97) = true := by
    unfold short
    rw [List.length_replicate]
    decide
  rw [List.takeWhile_cons_of_neg hlong]
  rfl

end Xv6.Grep
