import Xv6.User.Grammar
import Mathlib.Data.List.Forall2
import Mathlib.Data.List.GetD

/-!
# `parsecmd` accepts its grammar

The functions of the source do over characters what those of `Toks` do over tokens: `gettoken` takes
the first token that the string after the cursor has, and `peek` sees the symbol it starts with. The
trees of the source have pointers into the buffer instead of words (`Reads`); after `nulterminate`
each of them points to its word as a C string (`text_nulterminate`).
-/

namespace Xv6.Sh

variable {s : List UInt8}

theorem ok_bind {α β : Type} (a : α) (f : α → Except Stop β) : (Except.ok a >>= f) = f a := rfl

/-! ## Characters -/

theorem charAt_eq {i : ℕ} (h : i ≤ s.length) : charAt s i = .ok ((s.drop i).headD 0) := by
  unfold charAt
  by_cases hi : i < s.length
  · rw [if_pos hi, List.drop_eq_getElem_cons hi, List.headD_cons, List.getD_eq_getElem _ _ hi]
  · obtain rfl : i = s.length := by omega
    simp

/-- A loop of `gettoken` or `peek` stops at the first character that is not one of `p`. -/
theorem skipWhile_eq (p : UInt8 → Bool) {fuel i : ℕ} (h : i ≤ s.length) (hf : s.length - i < fuel) :
    skipWhile s p fuel i = .ok (i + ((s.drop i).takeWhile p).length) := by
  induction fuel generalizing i with
  | zero => omega
  | succ fuel ih =>
    unfold skipWhile
    by_cases hi : i < s.length
    · rw [if_pos hi, charAt_eq h, List.drop_eq_getElem_cons hi, List.headD_cons]
      by_cases hp : p s[i] = true
      · rw [List.takeWhile_cons_of_pos hp, List.length_cons]
        show (if p s[i] = true then skipWhile s p fuel (i + 1) else pure i) = _
        rw [if_pos hp, ih (by omega) (by omega), Nat.add_assoc, Nat.add_comm 1]
      · rw [List.takeWhile_cons_of_neg hp]
        show (if p s[i] = true then skipWhile s p fuel (i + 1) else pure i) = _
        rw [if_neg hp]
        rfl
    · obtain rfl : i = s.length := by omega
      rw [if_neg hi, List.drop_length]
      rfl

/-- Where the loop stops. -/
theorem skipWhile_spec (p : UInt8 → Bool) {i : ℕ} (h : i ≤ s.length) :
    ∃ j ≤ s.length, skipWhile s p (s.length + 1) i = .ok j ∧
      j = i + ((s.drop i).takeWhile p).length ∧ s.drop j = (s.drop i).dropWhile p := by
  have hsplit := List.takeWhile_append_dropWhile (p := p) (l := s.drop i)
  have hlen := congrArg List.length hsplit
  simp only [List.length_append, List.length_drop] at hlen
  refine ⟨_, by omega, skipWhile_eq p h (by omega), rfl, ?_⟩
  calc s.drop (i + ((s.drop i).takeWhile p).length)
      = ((s.drop i).takeWhile p ++ (s.drop i).dropWhile p).drop ((s.drop i).takeWhile p).length := by
        rw [hsplit, List.drop_drop]
    _ = (s.drop i).dropWhile p := List.drop_left

/-! ## Tokens -/

theorem lexes_dropWhile {l : List UInt8} {ts : List Tok} (h : Lexes l ts) :
    Lexes (l.dropWhile isSpace) ts := by
  induction h with
  | nil => exact .nil
  | space hc _ ih =>
    rw [List.dropWhile_cons_of_pos hc]
    exact ih
  | @word c w l ts hw hl h _ =>
    have hc : isSpace c = false := by
      have := hw c List.mem_cons_self
      simp only [isWordChar, Bool.and_eq_true, Bool.not_eq_true'] at this
      exact this.1
    rw [List.cons_append, List.dropWhile_cons_of_neg (by simp [hc])]
    exact .word hw hl h
  | @symbol t c l ts ht hc h _ =>
    have hs : isSpace c = false := by
      cases t <;> simp only [Tok.symbol, Tok.code, Option.some.injEq, reduceCtorEq] at ht <;>
        subst ht <;> rfl
    rw [List.dropWhile_cons_of_neg (by simp [hs])]
    exact .symbol ht hc h
  | gt hl h _ => exact .gt hl h
  | gtgt h _ => exact .gtgt h

/-- The tokens after the cursor. -/
def At (s : List UInt8) (i : ℕ) (ts : List Tok) : Prop := i ≤ s.length ∧ Lexes (s.drop i) ts

/-- The pointers to the start and to the end of a word. -/
structure WordAt (s : List UInt8) (v : ℕ × ℕ) (w : List UInt8) : Prop where
  le : v.1 + w.length = v.2
  length : v.2 ≤ s.length
  text : (s.drop v.1).take w.length = w
  chars : ∀ c ∈ w, isWordChar c = true
  stop : ∀ c ∈ (s.drop v.2).head?, ¬ isWordChar c = true

/-- What `gettoken` returns for a token, or for none. -/
def Got (s : List UInt8) (a : UInt8 × ℕ × ℕ) (o : Option Tok) : Prop :=
  a.1 = o.elim 0 Tok.code ∧ ∀ w, o = some (.word w) → WordAt s a.2 w

/-- What is seen of the string after the cursor and the whitespace. -/
theorem At.skip {i : ℕ} {ts : List Tok} (h : At s i ts) :
    ∃ j, skipWhile s isSpace (s.length + 1) i = .ok j ∧ At s j ts ∧
      ∀ c ∈ (s.drop j).head?, ¬ isSpace c = true := by
  obtain ⟨j, hj, he, -, hd⟩ := skipWhile_spec isSpace h.1
  refine ⟨j, he, ⟨hj, ?_⟩, ?_⟩
  · rw [hd]
    exact lexes_dropWhile h.2
  · rw [hd]
    intro c hc
    have := List.head?_dropWhile_not isSpace (s.drop i)
    rw [hc] at this
    simpa using this

theorem sim_peek {cs : List UInt8} (hcs : cs.all isSymbol = true) :
    Det.Sim (At s) Eq (peek s cs) (Toks.look cs) := by
  intro i ts h
  replace hcs := List.all_eq_true.1 hcs
  obtain ⟨j, he, hj, hsp⟩ := h.skip
  have hpeek : peek s cs i = .ok ((s.drop j).headD 0 ≠ 0 && cs.contains ((s.drop j).headD 0), j) := by
    unfold peek
    rw [he, ok_bind, charAt_eq hj.1, ok_bind]
    rfl
  rw [hpeek]
  refine ⟨hj, ?_⟩
  obtain ⟨-, hl⟩ := hj
  revert hl hsp
  generalize s.drop j = l
  intro hsp hl
  have zero : (0 : UInt8) ∉ cs := fun h0 => by simpa [isSymbol] using hcs 0 h0
  cases hl with
  | nil => simp
  | space hc _ => exact absurd hc (hsp _ rfl)
  | @word c w l ts hw _ _ =>
    have hc : c ∉ cs := fun h => by
      have := hw c List.mem_cons_self
      simp [isWordChar, hcs c h] at this
    simp [Tok.symbol, hc]
  | @symbol t c l ts ht _ _ =>
    have hc : c ∈ cs → c ≠ 0 := fun h h0 => zero (h0 ▸ h)
    by_cases hm : c ∈ cs <;> simp [ht, hm, hc]
  | gt _ _ => simp [Tok.symbol, Tok.code]
  | gtgt _ => simp [Tok.symbol]

theorem takeWhile_word {w l : List UInt8} (hw : ∀ x ∈ w, isWordChar x = true)
    (hl : ∀ x ∈ l.head?, ¬ isWordChar x = true) : (w ++ l).takeWhile isWordChar = w := by
  rw [List.takeWhile_append_of_pos hw]
  cases l with
  | nil => simp
  | cons x l => rw [List.takeWhile_cons_of_neg (hl x rfl), List.append_nil]

/-- `gettoken` after the whitespace: what it returns and where the token ends. -/
theorem scan_spec (hs : 0 ∉ s) {q : ℕ} {ts : List Tok} (h : At s q ts)
    (hsp : ∀ c ∈ (s.drop q).head?, ¬ isSpace c = true) :
    ∃ ret eq o ts', scan s q = .ok (ret, eq) ∧ Toks.next ts = .ok (o, ts') ∧
      Got s (ret, q, eq) o ∧ At s eq ts' := by
  obtain ⟨hq, hl⟩ := h
  unfold scan
  rw [charAt_eq hq, ok_bind]
  generalize hd : s.drop q = l at hl hsp ⊢
  -- what is left after `k` characters
  have drop : ∀ k, k ≤ l.length → q + k ≤ s.length ∧ s.drop (q + k) = l.drop k := fun k hk => by
    have hlen := congrArg List.length hd
    rw [List.length_drop] at hlen
    exact ⟨by omega, by rw [← List.drop_drop, hd]⟩
  cases hl with
  | nil =>
    refine ⟨0, q, none, [], rfl, rfl, ⟨rfl, fun w hw => by cases hw⟩, hq, ?_⟩
    rw [hd]
    exact .nil
  | space hc _ => exact absurd hc (hsp _ rfl)
  | @word c w l ts hw hl h =>
    have hc := hw c List.mem_cons_self
    have h0 : c ≠ 0 := fun h0 => hs (by
      have hmem : c ∈ s.drop q := hd ▸ List.mem_cons_self
      exact h0 ▸ List.mem_of_mem_drop hmem)
    have hsym : ¬ (c = 124 ∨ c = 40 ∨ c = 41 ∨ c = 59 ∨ c = 38 ∨ c = 60) ∧ c ≠ 62 := by
      refine ⟨?_, ?_⟩
      · rintro (rfl | rfl | rfl | rfl | rfl | rfl) <;> exact absurd hc (by decide)
      · rintro rfl
        exact absurd hc (by decide)
    have htake : (s.drop q).takeWhile isWordChar = c :: w := by
      rw [hd]
      exact takeWhile_word hw hl
    obtain ⟨hlen, hdrop⟩ := drop (c :: w).length (by simp)
    rw [List.drop_left] at hdrop
    refine ⟨97, q + (c :: w).length, some (.word (c :: w)), ts, ?_, rfl, ⟨rfl, ?_⟩, hlen, ?_⟩
    · rw [show (c :: w ++ l).headD 0 = c from rfl, if_neg h0, if_neg hsym.1, if_neg hsym.2,
        skipWhile_eq isWordChar hq (by omega), htake]
      rfl
    · rintro _ ⟨rfl⟩
      refine ⟨rfl, hlen, ?_, hw, ?_⟩
      · rw [hd]
        exact List.take_left
      · rw [hdrop]
        exact hl
    · rw [hdrop]
      exact h
  | @symbol t c l ts ht hc h =>
    obtain ⟨hlen, hdrop⟩ := drop 1 (by simp)
    refine ⟨c, q + 1, some t, ts, ?_, rfl, ⟨?_, ?_⟩, hlen, ?_⟩
    · have hsym : c ≠ 0 ∧ (c = 124 ∨ c = 40 ∨ c = 41 ∨ c = 59 ∨ c = 38 ∨ c = 60) := by
        cases t <;> simp only [Tok.symbol, Tok.code, Option.some.injEq, reduceCtorEq] at ht <;>
          subst ht <;> simp at hc ⊢
      rw [show (c :: l).headD 0 = c from rfl, if_neg hsym.1, if_pos hsym.2]
      rfl
    · cases t <;> simp only [Tok.symbol, Tok.code, Option.some.injEq, reduceCtorEq] at ht <;>
        subst ht <;> first | rfl | exact absurd rfl hc
    · rintro w ⟨rfl⟩
      simp [Tok.symbol] at ht
    · rw [hdrop]
      exact h
  | @gt l ts hne h =>
    obtain ⟨hlen, hdrop⟩ := drop 1 (by simp)
    rw [List.drop_succ_cons, List.drop_zero] at hdrop
    refine ⟨62, q + 1, some .gt, ts, ?_, rfl, ⟨rfl, fun w hw => by cases hw⟩, hlen, ?_⟩
    · have hd : l.headD 0 ≠ 62 := by
        cases l with
        | nil => decide
        | cons x l => simpa using hne
      rw [charAt_eq hlen, hdrop, ok_bind, if_neg hd]
      rfl
    · rw [hdrop]
      exact h
  | @gtgt l ts h =>
    obtain ⟨hlen, hdrop⟩ := drop 1 (by simp)
    obtain ⟨hlen', hdrop'⟩ := drop 2 (by simp)
    refine ⟨43, q + 2, some .gtgt, ts, ?_, rfl, ⟨rfl, fun w hw => by cases hw⟩, hlen', ?_⟩
    · rw [charAt_eq hlen, hdrop]
      rfl
    · rw [hdrop']
      exact h

theorem sim_gettoken (hs : 0 ∉ s) : Det.Sim (At s) (Got s) (gettoken s) Toks.next := by
  intro i ts h
  obtain ⟨q, he, hq, hsp⟩ := h.skip
  obtain ⟨ret, eq, o, ts', hscan, hnext, hgot, hat⟩ := scan_spec hs hq hsp
  obtain ⟨j, he', hj, -⟩ := hat.skip
  have hget : gettoken s i = .ok ((ret, q, eq), j) := by
    unfold gettoken
    rw [he, ok_bind, hscan, ok_bind, he']
    rfl
  rw [hget, hnext]
  exact ⟨hj, hgot⟩

/-! ## Trees -/

/-- A redirection of the source and the one with its word. -/
def RedirAt (s : List UInt8) (r : Redir) (r' : Redirection) : Prop :=
  WordAt s (r.1, r.2.1) r'.1 ∧ r.2.2 = r'.2

/-- A tree with pointers and the same tree with words. -/
inductive Reads (s : List UInt8) : Cmd → Tree → Prop
  | exec {argv : List (ℕ × ℕ)} {ws : List (List UInt8)} (h : List.Forall₂ (WordAt s) argv ws) :
      Reads s (.exec argv) (.exec ws)
  | redir {c : Cmd} {t : Tree} {f e m d : ℕ} {w : List UInt8} (h : Reads s c t)
      (hw : WordAt s (f, e) w) : Reads s (.redir c f e m d) (.redir t w m d)
  | pipe {c c' : Cmd} {t t' : Tree} (h : Reads s c t) (h' : Reads s c' t') :
      Reads s (.pipe c c') (.pipe t t')
  | list {c c' : Cmd} {t t' : Tree} (h : Reads s c t) (h' : Reads s c' t') :
      Reads s (.list c c') (.list t t')
  | back {c : Cmd} {t : Tree} (h : Reads s c t) : Reads s (.back c) (.back t)

theorem Reads.wrap {rs : List Redir} {rs' : List Redirection}
    (hr : List.Forall₂ (RedirAt s) rs rs') {c : Cmd} {t : Tree} (h : Reads s c t) :
    Reads s (c.wrap rs) (t.wrap rs') := by
  induction hr generalizing c t with
  | nil => exact h
  | @cons r r' rs rs' hr _ ih =>
    obtain ⟨f, e, m, d⟩ := r
    obtain ⟨w, m', d'⟩ := r'
    obtain ⟨hw, hm⟩ := hr
    obtain ⟨rfl, rfl⟩ := Prod.mk.inj hm
    exact ih (.redir h hw)

/-- Only a word has the value `'a'`. -/
theorem Got.word {a : UInt8 × ℕ × ℕ} {o : Option Tok} (h : Got s a o) :
    (a.1 = 97 ∧ ∃ w, o = some (.word w) ∧ WordAt s a.2 w) ∨
      (a.1 ≠ 97 ∧ ∀ w, o ≠ some (.word w)) := by
  obtain ⟨hc, hw⟩ := h
  cases o with
  | none => exact .inr ⟨by simp [hc], fun w hw => by cases hw⟩
  | some t =>
    cases t with
    | word w => exact .inl ⟨hc, w, rfl, hw w rfl⟩
    | _ => exact .inr ⟨by rw [hc]; decide, fun w hw => by cases hw⟩

theorem sim_redirs (hs : 0 ∉ s) (fuel : ℕ) :
    Det.Sim (At s) (List.Forall₂ (RedirAt s)) (parseredirs s fuel) (Toks.redirs fuel) := by
  induction fuel with
  | zero => exact .throw _
  | succ fuel ih =>
    refine .bind (sim_peek rfl) ?_
    rintro b _ rfl
    refine .ite Iff.rfl ?_ (.pure .nil)
    refine .bind (sim_gettoken hs) fun a t ha => .bind (sim_gettoken hs) fun f o hf => ?_
    obtain ⟨hc, w, rfl, hw⟩ | ⟨hc, ho⟩ := hf.word
    · rw [if_neg (not_not_intro hc)]
      refine .bind ih fun rs rs' hrs => ?_
      -- the `switch` over the first token
      cases t with
      | none =>
        rw [if_neg (by rw [ha.1]; decide), if_neg (by rw [ha.1]; decide),
          if_neg (by rw [ha.1]; decide)]
        exact .pure hrs
      | some t =>
        cases t with
        | lt =>
          rw [if_pos (show a.1 = 60 from ha.1)]
          exact .pure (.cons ⟨hw, rfl⟩ hrs)
        | gt =>
          rw [if_neg (by rw [ha.1]; decide), if_pos (show a.1 = 62 from ha.1)]
          exact .pure (.cons ⟨hw, rfl⟩ hrs)
        | gtgt =>
          rw [if_neg (by rw [ha.1]; decide), if_neg (by rw [ha.1]; decide),
            if_pos (show a.1 = 43 from ha.1)]
          exact .pure (.cons ⟨hw, rfl⟩ hrs)
        | _ =>
          rw [if_neg (by rw [ha.1]; simp [Tok.code]), if_neg (by rw [ha.1]; simp [Tok.code]),
            if_neg (by rw [ha.1]; simp [Tok.code])]
          exact .pure hrs
    · rw [if_pos hc]
      cases o with
      | none => exact .throw _
      | some t =>
        cases t with
        | word w => exact absurd rfl (ho w)
        | _ => exact .throw _

theorem sim_setArg {argv : List (ℕ × ℕ)} {ws : List (List UInt8)} {v : ℕ × ℕ} {w : List UInt8}
    {V : List (ℕ × ℕ) → List (List UInt8) → Prop} (h : argv.length = ws.length)
    (hV : V (argv ++ [v]) (ws ++ [w])) :
    Det.Sim (At s) V (setArg argv v) (Toks.setArg ws w) :=
  .ite (by rw [h]) (.pure hV) (.throw _)

theorem sim_execLoop (hs : 0 ∉ s) (fuel : ℕ) {argv : List (ℕ × ℕ)} {ws : List (List UInt8)}
    {rs : List Redir} {rs' : List Redirection} (ha : List.Forall₂ (WordAt s) argv ws)
    (hr : List.Forall₂ (RedirAt s) rs rs') :
    Det.Sim (At s) (Reads s) (execLoop s fuel argv rs)
      (Toks.execLoop (s.length + 1) fuel ws rs') := by
  induction fuel generalizing argv ws rs rs' with
  | zero => exact .throw _
  | succ fuel ih =>
    have finish : Det.Sim (At s) (Reads s)
        (do
          let _ ← setArg argv (0, 0)
          return (Cmd.exec argv).wrap rs)
        (do
          let _ ← Toks.setArg ws []
          return (Tree.exec ws).wrap rs') :=
      .bind (V := fun _ _ => True) (sim_setArg ha.length_eq trivial)
        fun _ _ _ => .pure (.wrap hr (.exec ha))
    refine .bind (sim_peek rfl) ?_
    rintro b _ rfl
    refine .ite Iff.rfl finish ?_
    refine .bind (sim_gettoken hs) fun t o ht => ?_
    obtain ⟨hc, w, rfl, hw⟩ | ⟨hc, ho⟩ := ht.word
    · rw [if_neg (by rw [hc]; decide), if_neg (not_not_intro hc)]
      refine .bind (sim_setArg ha.length_eq (List.rel_append ha (.cons hw .nil))) fun argv' ws' ha' => ?_
      refine .ite (by rw [ha'.length_eq]) (.throw _) ?_
      exact .bind (sim_redirs hs _) fun r r' hr' => ih ha' (List.rel_append hr hr')
    · cases o with
      | none =>
        rw [if_pos (show t.1 = 0 from ht.1)]
        exact finish
      | some t' =>
        have hne : t.1 ≠ 0 := by
          rw [ht.1]
          cases t' <;> simp [Tok.code]
        rw [if_neg hne, if_pos hc]
        cases t' with
        | word w => exact absurd rfl (ho w)
        | _ => exact .throw _

theorem sim_backLoop (hs : 0 ∉ s) (fuel : ℕ) {c : Cmd} {t : Tree} (h : Reads s c t) :
    Det.Sim (At s) (Reads s) (backLoop s fuel c) (Toks.backLoop fuel t) := by
  induction fuel generalizing c t with
  | zero => exact .throw _
  | succ fuel ih =>
    refine .bind (sim_peek rfl) ?_
    rintro b _ rfl
    exact .ite Iff.rfl (.bind (sim_gettoken hs) fun _ _ _ => ih (.back h)) (.pure h)

/-- The parser over characters does what the parser over tokens does. -/
theorem sim_parse (hs : 0 ∉ s) (fuel : ℕ) :
    Det.Sim (At s) (Reads s) (parseline s fuel) (Toks.line (s.length + 1) fuel) ∧
    Det.Sim (At s) (Reads s) (parsepipe s fuel) (Toks.pipe (s.length + 1) fuel) ∧
    Det.Sim (At s) (Reads s) (parseblock s fuel) (Toks.block (s.length + 1) fuel) ∧
    Det.Sim (At s) (Reads s) (parseexec s fuel) (Toks.exec (s.length + 1) fuel) := by
  induction fuel with
  | zero => exact ⟨.throw _, .throw _, .throw _, .throw _⟩
  | succ fuel ih =>
    obtain ⟨hline, hpipe, hblock, hexec⟩ := ih
    refine ⟨?_, ?_, ?_, ?_⟩
    · rw [parseline, Toks.line]
      refine .bind hpipe fun c t h => .bind (sim_backLoop hs _ h) fun c' t' h' => ?_
      refine .bind (sim_peek rfl) ?_
      rintro b _ rfl
      exact .ite Iff.rfl (.bind (sim_gettoken hs) fun _ _ _ => .bind hline fun _ _ hr =>
        .pure (.list h' hr)) (.pure h')
    · rw [parsepipe, Toks.pipe]
      refine .bind hexec fun c t h => .bind (sim_peek rfl) ?_
      rintro b _ rfl
      exact .ite Iff.rfl (.bind (sim_gettoken hs) fun _ _ _ => .bind hpipe fun _ _ hr =>
        .pure (.pipe h hr)) (.pure h)
    · rw [parseblock, Toks.block]
      refine .bind (sim_peek rfl) ?_
      rintro b _ rfl
      refine .ite Iff.rfl ?_ (.throw _)
      refine .bind (sim_gettoken hs) fun _ _ _ => .bind hline fun c t h =>
        .bind (sim_peek rfl) ?_
      rintro b' _ rfl
      exact .ite Iff.rfl (.bind (sim_gettoken hs) fun _ _ _ => .bind (sim_redirs hs _)
        fun _ _ hr => .pure (.wrap hr h)) (.throw _)
    · rw [parseexec, Toks.exec]
      refine .bind (sim_peek rfl) ?_
      rintro b _ rfl
      exact .ite Iff.rfl hblock (.bind (sim_redirs hs _) fun _ _ hr => sim_execLoop hs _ .nil hr)

/-! ## The words after `nulterminate` -/

/-- The C string at a pointer. -/
def cstr (buf : List UInt8) (q : ℕ) : List UInt8 := (buf.drop q).takeWhile (· ≠ 0)

/-- A tree with the strings its pointers point to. -/
def Cmd.text (buf : List UInt8) : Cmd → Tree
  | .exec argv => .exec (argv.map fun v => cstr buf v.1)
  | .redir cmd file _ mode fd => .redir (cmd.text buf) (cstr buf file) mode fd
  | .pipe l r => .pipe (l.text buf) (r.text buf)
  | .list l r => .list (l.text buf) (r.text buf)
  | .back cmd => .back (cmd.text buf)

theorem getElem?_nuls (E : List ℕ) (buf : List UInt8) (j : ℕ) :
    (E.foldl (fun b i => b.set i 0) buf)[j]? =
      if j ∈ E ∧ j < buf.length then some 0 else buf[j]? := by
  induction E generalizing buf with
  | nil => simp
  | cons i E ih =>
    rw [List.foldl_cons, ih, List.length_set, List.getElem?_set]
    by_cases hi : i = j
    · subst hi
      by_cases hE : i ∈ E <;> by_cases hj : i < buf.length <;> simp [hE, hj]
    · by_cases hE : j ∈ E <;> simp [hE, hi, Ne.symm hi]

theorem takeWhile_eq_of_getElem? {w l : List UInt8} (hw : 0 ∉ w) (hl : ∀ k < w.length, l[k]? = w[k]?)
    (h0 : l[w.length]? = some 0) : l.takeWhile (· ≠ 0) = w := by
  induction w generalizing l with
  | nil =>
    cases l with
    | nil => rfl
    | cons x l =>
      obtain rfl : x = 0 := by simpa using h0
      rfl
  | cons c w ih =>
    cases l with
    | nil => simp at h0
    | cons x l =>
      obtain rfl : x = c := by simpa using hl 0 (by simp)
      have hx : x ≠ 0 := fun h => hw (by simp [h])
      rw [List.takeWhile_cons_of_pos (by simpa using hx), ih (fun h => hw (List.mem_cons_of_mem _ h))
        (fun k hk => by simpa using hl (k + 1) (by simpa using hk)) (by simpa using h0)]

/-- The character at a pointer does not belong to a word. -/
def EndAt (s : List UInt8) (e : ℕ) : Prop :=
  e ≤ s.length ∧ ∀ c ∈ (s.drop e).head?, ¬ isWordChar c = true

/-- A NUL at the ends of words makes a word a C string. -/
theorem WordAt.cstr (hs : 0 ∉ s) {E : List ℕ} (hE : ∀ e ∈ E, EndAt s e) {v : ℕ × ℕ}
    {w : List UInt8} (h : WordAt s v w) (hv : v.2 ∈ E) :
    cstr (E.foldl (fun b i => b.set i 0) (s ++ [0])) v.1 = w := by
  have hle := h.le
  have hlen := h.length
  have hchar : ∀ k < w.length, s[v.1 + k]? = w[k]? := fun k hk => by
    conv_rhs => rw [← h.text]
    rw [List.getElem?_take_of_lt hk, List.getElem?_drop]
  refine takeWhile_eq_of_getElem? (fun h0 => hs ?_) (fun k hk => ?_) ?_
  · rw [← h.text] at h0
    exact List.mem_of_mem_drop (List.mem_of_mem_take h0)
  · have hkE : v.1 + k ∉ E := fun hk' => by
      obtain ⟨-, hstop⟩ := hE _ hk'
      have hwk : w[k]? = some w[k] := List.getElem?_eq_getElem hk
      refine hstop w[k] ?_ (h.chars _ (List.getElem_mem hk))
      rw [List.head?_drop, hchar k hk, hwk]
      rfl
    rw [List.getElem?_drop, getElem?_nuls, if_neg fun h => hkE h.1,
      List.getElem?_append_left (by omega), hchar k hk]
  · rw [List.getElem?_drop, getElem?_nuls, hle, if_pos ⟨hv, by simp; omega⟩]

theorem Reads.ends {c : Cmd} {t : Tree} (h : Reads s c t) : ∀ e ∈ c.ends, EndAt s e := by
  induction h with
  | exec h =>
    induction h with
    | nil => exact fun e he => absurd he List.not_mem_nil
    | cons hw _ ih =>
      intro e he
      rcases List.mem_cons.1 he with rfl | he
      · exact ⟨hw.length, hw.stop⟩
      · exact ih e he
  | redir _ hw ih =>
    intro e he
    rcases List.mem_append.1 he with he | he
    · exact ih e he
    · obtain rfl := List.mem_singleton.1 he
      exact ⟨hw.length, hw.stop⟩
  | pipe _ _ ih ih' => exact fun e he => (List.mem_append.1 he).elim (ih e) (ih' e)
  | list _ _ ih ih' => exact fun e he => (List.mem_append.1 he).elim (ih e) (ih' e)
  | back _ ih => exact ih

theorem Reads.text (hs : 0 ∉ s) {E : List ℕ} (hE : ∀ e ∈ E, EndAt s e) {c : Cmd} {t : Tree}
    (h : Reads s c t) (hsub : c.ends ⊆ E) :
    c.text (E.foldl (fun b i => b.set i 0) (s ++ [0])) = t := by
  induction h with
  | @exec argv ws h =>
    have hsub' : ∀ v ∈ argv, v.2 ∈ E := fun v hv => hsub (List.mem_map_of_mem hv)
    clear hsub
    rw [Cmd.text, Tree.exec.injEq]
    induction h with
    | nil => rfl
    | @cons v w argv ws hw _ ih =>
      rw [List.map_cons, hw.cstr hs hE (hsub' v List.mem_cons_self),
        ih fun v hv => hsub' v (List.mem_cons_of_mem _ hv)]
  | redir _ hw ih =>
    simp only [Cmd.ends, List.append_subset, List.cons_subset, List.nil_subset, and_true] at hsub
    rw [Cmd.text, ih hsub.1, hw.cstr hs hE hsub.2]
  | pipe _ _ ih ih' =>
    simp only [Cmd.ends, List.append_subset] at hsub
    rw [Cmd.text, ih hsub.1, ih' hsub.2]
  | list _ _ ih ih' =>
    simp only [Cmd.ends, List.append_subset] at hsub
    rw [Cmd.text, ih hsub.1, ih' hsub.2]
  | back _ ih => rw [Cmd.text, ih hsub]

/-- `nulterminate` makes every word a C string. -/
theorem text_nulterminate (hs : 0 ∉ s) {c : Cmd} {t : Tree} (h : Reads s c t) :
    c.text (nulterminate c (s ++ [0])) = t :=
  h.text hs h.ends (List.Subset.refl _)

/-! ## The grammar -/

/-- Every string has tokens, no more than it has characters. -/
theorem exists_lexes (l : List UInt8) : ∃ ts, Lexes l ts := by
  induction hn : l.length using Nat.strongRecOn generalizing l with
  | _ n ih =>
    cases l with
    | nil => exact ⟨[], .nil⟩
    | cons c l =>
      simp only [List.length_cons] at hn
      obtain ⟨ts, hts⟩ := ih l.length (by omega) l rfl
      by_cases hsp : isSpace c = true
      · exact ⟨ts, .space hsp hts⟩
      by_cases hsy : isSymbol c = true
      · simp only [isSymbol, List.contains_iff_mem, List.mem_cons, List.not_mem_nil, or_false] at hsy
        rcases hsy with rfl | rfl | rfl | rfl | rfl | rfl | rfl
        · exact ⟨_, .symbol (t := .lt) rfl (by decide) hts⟩
        · exact ⟨_, .symbol (t := .bar) rfl (by decide) hts⟩
        · by_cases hg : l.head? = some 62
          · obtain ⟨l', rfl⟩ : ∃ l', l = 62 :: l' := by
              cases l with
              | nil => simp at hg
              | cons x l' => exact ⟨l', by simpa using hg⟩
            obtain ⟨ts', hts'⟩ := ih l'.length (by simp at hn; omega) l' rfl
            exact ⟨_, .gtgt hts'⟩
          · exact ⟨_, .gt hg hts⟩
        · exact ⟨_, .symbol (t := .amp) rfl (by decide) hts⟩
        · exact ⟨_, .symbol (t := .semi) rfl (by decide) hts⟩
        · exact ⟨_, .symbol (t := .lpar) rfl (by decide) hts⟩
        · exact ⟨_, .symbol (t := .rpar) rfl (by decide) hts⟩
      · -- a word, as long as it goes
        have hc : isWordChar c = true := by simp [isWordChar, hsp, hsy]
        have hsplit := List.takeWhile_append_dropWhile (p := isWordChar) (l := l)
        have hlen := congrArg List.length hsplit
        rw [List.length_append] at hlen
        obtain ⟨ts', hts'⟩ := ih (l.dropWhile isWordChar).length (by omega) _ rfl
        have hword : Lexes (c :: l.takeWhile isWordChar ++ l.dropWhile isWordChar)
            (.word (c :: l.takeWhile isWordChar) :: ts') := by
          refine .word (fun x hx => ?_) (fun x hx => ?_) hts'
          · rcases List.mem_cons.1 hx with rfl | hx
            · exact hc
            · exact List.all_eq_true.1 List.all_takeWhile x hx
          · have := List.head?_dropWhile_not isWordChar l
            rw [hx] at this
            simpa using this
        rw [List.cons_append, hsplit] at hword
        exact ⟨_, hword⟩

theorem Lexes.length_le {l : List UInt8} {ts : List Tok} (h : Lexes l ts) :
    ts.length ≤ l.length := by
  induction h with
  | nil => exact Nat.le_refl _
  | space _ _ ih =>
    simp only [List.length_cons]
    omega
  | word _ _ _ ih =>
    simp only [List.length_cons, List.length_append]
    omega
  | symbol _ _ _ ih =>
    simp only [List.length_cons]
    omega
  | gt _ _ ih =>
    simp only [List.length_cons]
    omega
  | gtgt _ ih =>
    simp only [List.length_cons]
    omega

/-- The end of `parsecmd`: the cursor is at the end when no token is left. -/
theorem At.rest {i : ℕ} {ts : List Tok} (h : At s i ts) :
    ∃ b j, peek s [] i = .ok (b, j) ∧ (j = s.length ↔ ts = []) := by
  obtain ⟨j, he, hj, hsp⟩ := h.skip
  have hpeek : peek s [] i = .ok ((s.drop j).headD 0 ≠ 0 && [].contains ((s.drop j).headD 0), j) := by
    unfold peek
    rw [he, ok_bind, charAt_eq hj.1, ok_bind]
    rfl
  refine ⟨_, j, hpeek, fun hjs => ?_, fun hts => ?_⟩
  · have hl := hj.2.length_le
    rw [hjs, List.drop_length] at hl
    exact List.eq_nil_of_length_eq_zero (Nat.le_zero.1 hl)
  · subst hts
    obtain ⟨hle, hl⟩ := hj
    generalize hd : s.drop j = l at hl hsp
    cases hl with
    | nil =>
      have := congrArg List.length hd
      simp only [List.length_drop, List.length_nil] at this
      omega
    | space hc _ => exact absurd hc (hsp _ rfl)

/-- What `parsecmd` does is what the parser over the tokens does: it returns a tree with pointers to
the words of a tree that the tokens derive, or it panics. -/
theorem parsecmd_outcome (hs : 0 ∉ s) {ts : List Tok} (hts : Lexes s ts) :
    (∃ cmd t, parsecmd s = .ok (cmd, nulterminate cmd (s ++ [0])) ∧ Reads s cmd t ∧
      Derives .line ts t) ∨ ∃ msg, parsecmd s = .error (.panic msg) := by
  have hlen := hts.length_le
  have hsound := (Toks.parse_sound (n := s.length + 1) (4 * (s.length + 1))).1 s.length (by omega) ts
    hlen (by omega)
  have hsim := (sim_parse hs (4 * (s.length + 1))).1 0 ts ⟨Nat.zero_le _, hts⟩
  unfold Det.Ends at hsound
  unfold parsecmd
  cases hp : parseline s (4 * (s.length + 1)) 0 with
  | error e =>
    cases hq : Toks.line (s.length + 1) (4 * (s.length + 1)) ts with
    | ok b => simp [hp, hq, Det.Agree] at hsim
    | error e' =>
      rw [hp, hq] at hsim
      rw [hq] at hsound
      obtain ⟨msg, rfl⟩ := hsound
      obtain rfl : e = .panic msg := hsim
      exact .inr ⟨msg, rfl⟩
  | ok a =>
    cases hq : Toks.line (s.length + 1) (4 * (s.length + 1)) ts with
    | error e' => simp [hp, hq, Det.Agree] at hsim
    | ok b =>
      obtain ⟨cmd, i⟩ := a
      obtain ⟨t, rest⟩ := b
      rw [hp, hq] at hsim
      rw [hq] at hsound
      obtain ⟨hat, hreads⟩ := hsim
      obtain ⟨c, rfl, hc⟩ := hsound
      obtain ⟨b, j, hpeek, hj⟩ := hat.rest
      rw [ok_bind]
      simp only [hpeek, ok_bind]
      by_cases hr : rest = []
      · rw [if_neg (not_not_intro (hj.2 hr))]
        refine .inl ⟨cmd, t, rfl, hreads, ?_⟩
        rw [hr, List.append_nil]
        exact hc
      · rw [if_pos fun h => hr (hj.1 h)]
        exact .inr ⟨_, rfl⟩

/-- A tree that `parsecmd` returns has pointers to the words of a tree that the tokens derive. -/
theorem parsecmd_reads (hs : 0 ∉ s) {ts : List Tok} (hts : Lexes s ts) {cmd : Cmd} {buf : List UInt8}
    (h : parsecmd s = .ok (cmd, buf)) : ∃ t, Reads s cmd t ∧ Derives .line ts t ∧ cmd.text buf = t := by
  obtain ⟨cmd', t, hok, hreads, hd⟩ | ⟨msg, herr⟩ := parsecmd_outcome hs hts
  · obtain ⟨rfl, rfl⟩ := Prod.mk.inj (Except.ok.inj (h.symm.trans hok))
    exact ⟨t, hreads, hd, text_nulterminate hs hreads⟩
  · rw [h] at herr
    cases herr

/-- **Every token stays what it was.** When `parsecmd` returns for a string without NUL, its tree has
for each word of the derivation, in the arguments and in the files of redirections, two pointers to
the two ends of that word in the string; and the C string at the first one, after all the words are
terminated, is the word. -/
theorem parsecmd_keeps_words (s : List UInt8) (hs : 0 ∉ s) (cmd : Cmd) (buf : List UInt8)
    (h : parsecmd s = .ok (cmd, buf)) :
    ∃ ts t, Lexes s ts ∧ Derives .line ts t ∧ Reads s cmd t ∧ cmd.text buf = t := by
  obtain ⟨ts, hts⟩ := exists_lexes s
  obtain ⟨t, hreads, hd, htext⟩ := parsecmd_reads hs hts h
  exact ⟨ts, t, hts, hd, hreads, htext⟩

/-- The command line `a>b|c`, where every word is next to a symbol. -/
theorem parsecmd_keeps_words_adjacent : (0 : UInt8) ∉ [97, 62, 98, 124, 99] ∧
    ∃ cmd buf, parsecmd [97, 62, 98, 124, 99] = .ok (cmd, buf) ∧
      ∃ ts t, Lexes [97, 62, 98, 124, 99] ts ∧ Derives .line ts t ∧
        Reads [97, 62, 98, 124, 99] cmd t ∧ cmd.text buf = t := by
  have hs : (0 : UInt8) ∉ [97, 62, 98, 124, 99] := by decide
  have hrun : parsecmd [97, 62, 98, 124, 99] =
      .ok (.pipe (.redir (.exec [(0, 1)]) 2 3 oTrunc 1) (.exec [(4, 5)]), [97, 0, 98, 0, 99, 0]) := rfl
  exact ⟨hs, _, _, hrun, parsecmd_keeps_words _ hs _ _ hrun⟩

/-- **`parsecmd` accepts exactly its grammar.** For every string without NUL it ends; it returns a
tree with the words of `t` exactly when the tokens of the string derive `t` as a line; and when they
derive nothing, it panics: it reads nothing past the NUL and stores nothing past the end of
`argv`. -/
theorem parsecmd_iff (s : List UInt8) (hs : 0 ∉ s) :
    (∀ t, (∃ cmd buf, parsecmd s = .ok (cmd, buf) ∧ cmd.text buf = t) ↔
      ∃ ts, Lexes s ts ∧ Derives .line ts t) ∧
    ((¬ ∃ t ts, Lexes s ts ∧ Derives .line ts t) → ∃ msg, parsecmd s = .error (.panic msg)) := by
  obtain ⟨ts, hts⟩ := exists_lexes s
  refine ⟨fun t => ⟨?_, ?_⟩, fun hno => ?_⟩
  · rintro ⟨cmd, buf, hok, rfl⟩
    obtain ⟨t, -, hd, htext⟩ := parsecmd_reads hs hts hok
    exact ⟨ts, hts, by rwa [htext]⟩
  · rintro ⟨ts', hts', hd⟩
    have hlen' := hts'.length_le
    have hparse : Toks.parse (s.length + 1) (4 * (s.length + 1)) .line (ts' ++ []) = .ok (t, []) :=
      Toks.parse_complete hd _ (fun t ht => by simp at ht)
      (by simp only [List.append_nil, Toks.depth]; omega) (by simp only [List.append_nil]; omega)
    rw [List.append_nil] at hparse
    have hsim' := (sim_parse hs (4 * (s.length + 1))).1 0 ts' ⟨Nat.zero_le _, hts'⟩
    simp only [Toks.parse] at hparse
    rw [hparse] at hsim'
    cases hp : parseline s (4 * (s.length + 1)) 0 with
    | error e => simp [hp, Det.Agree] at hsim'
    | ok a =>
      obtain ⟨cmd, i⟩ := a
      rw [hp] at hsim'
      obtain ⟨hat, hreads⟩ := hsim'
      obtain ⟨b, j, hpeek, hj⟩ := hat.rest
      refine ⟨cmd, nulterminate cmd (s ++ [0]), ?_, text_nulterminate hs hreads⟩
      unfold parsecmd
      rw [hp, ok_bind]
      simp only [hpeek, ok_bind]
      rw [if_neg (not_not_intro (hj.2 rfl))]
      rfl
  · obtain ⟨cmd, t, -, -, hd⟩ | herr := parsecmd_outcome hs hts
    · exact absurd ⟨t, ts, hts, hd⟩ hno
    · exact herr

/-- The command line `a>b`. -/
theorem parsecmd_iff_redirect : 0 ∉ [97, 62, 98] ∧ ∃ ts, Lexes [97, 62, 98] ts ∧
    Derives .line ts (.redir (.exec [[97]]) [98] oTrunc 1) :=
  ⟨by decide, ((parsecmd_iff [97, 62, 98] (by decide)).1 _).1
    ⟨.redir (.exec [(0, 1)]) 2 3 oTrunc 1, [97, 0, 98, 0], rfl, rfl⟩⟩

end Xv6.Sh
