import Xv6.User.Sh
import Mathlib.Data.List.TakeDrop

/-!
# The grammar of the shell

What `parsecmd` accepts, and the tree it returns. A command line is cut into tokens (`Lexes`), words
being maximal runs of characters that are neither whitespace nor symbols, and the tokens derive from
the grammar

* line ::= pipe `&`* [`;` line]
* pipe ::= exec [`|` pipe]
* exec ::= `(` line `)` redir* | redir* (word redir*)*
* redir ::= (`<` | `>` | `>>`) word

with fewer than `MAXARGS` words in an exec (`Derives`).

The proof has two steps. The functions of the source read characters through a cursor; the same
functions over a list of tokens (`Toks.line` and so on) do the same (`sim_parseline`), because
`gettoken` and `peek` see the first token after the cursor (`sim_gettoken`, `sim_peek`). Over tokens,
every tree that is returned is derived (`Toks.parse_sound`), and every derivation is found
(`Toks.parse_complete`).
-/

namespace Xv6.Sh

/-! ## Tokens and trees -/

/-- Tokens. -/
inductive Tok
  | word (w : List UInt8)
  | lpar
  | rpar
  | semi
  | amp
  | bar
  | lt
  | gt
  | gtgt
  deriving DecidableEq

/-- The value of `gettoken`. -/
def Tok.code : Tok → UInt8
  | .word _ => 97
  | .lpar => 40
  | .rpar => 41
  | .semi => 59
  | .amp => 38
  | .bar => 124
  | .lt => 60
  | .gt => 62
  | .gtgt => 43

/-- The symbol a token starts with; `none` for a word. -/
def Tok.symbol : Tok → Option UInt8
  | .word _ => none
  | .gtgt => some 62
  | t => some t.code

/-- The tokens of a string. -/
inductive Lexes : List UInt8 → List Tok → Prop
  | nil : Lexes [] []
  | space {c : UInt8} {l : List UInt8} {ts : List Tok} (hc : isSpace c) (h : Lexes l ts) :
      Lexes (c :: l) ts
  | word {c : UInt8} {w l : List UInt8} {ts : List Tok} (hw : ∀ x ∈ c :: w, isWordChar x)
      (hl : ∀ x ∈ l.head?, ¬ isWordChar x) (h : Lexes l ts) :
      Lexes (c :: w ++ l) (.word (c :: w) :: ts)
  | symbol {t : Tok} {c : UInt8} {l : List UInt8} {ts : List Tok} (ht : t.symbol = some c)
      (hc : c ≠ 62) (h : Lexes l ts) : Lexes (c :: l) (t :: ts)
  | gt {l : List UInt8} {ts : List Tok} (hl : l.head? ≠ some 62) (h : Lexes l ts) :
      Lexes (62 :: l) (.gt :: ts)
  | gtgt {l : List UInt8} {ts : List Tok} (h : Lexes l ts) : Lexes (62 :: 62 :: l) (.gtgt :: ts)

/-- Commands with their words. -/
inductive Tree
  | exec (argv : List (List UInt8))
  | redir (cmd : Tree) (file : List UInt8) (mode fd : ℕ)
  | pipe (left right : Tree)
  | list (left right : Tree)
  | back (cmd : Tree)
  deriving DecidableEq

/-- A redirection with its file. -/
abbrev Redirection := List UInt8 × ℕ × ℕ

/-- A command with redirections around it, the first one innermost. -/
def Tree.wrap (t : Tree) (rs : List Redirection) : Tree :=
  rs.foldl (fun c r => .redir c r.1 r.2.1 r.2.2) t

/-- A command in the background, `n` times over. -/
def Tree.backs (t : Tree) : ℕ → Tree
  | 0 => t
  | n + 1 => (Tree.back t).backs n

/-! ## The grammar -/

/-- The mode and the descriptor of a redirection. -/
def Tok.redirect : Tok → Option (ℕ × ℕ)
  | .lt => some (oRdonly, 0)
  | .gt => some (oTrunc, 1)
  | .gtgt => some (oAppend, 1)
  | _ => none

/-- redir*. -/
inductive Redirs : List Tok → List Redirection → Prop
  | nil : Redirs [] []
  | cons {t : Tok} {m : ℕ × ℕ} {w : List UInt8} {ts : List Tok} {rs : List Redirection}
      (ht : t.redirect = some m) (h : Redirs ts rs) : Redirs (t :: .word w :: ts) ((w, m) :: rs)

/-- (word redir*)*. -/
inductive Words : List Tok → List (List UInt8) → List Redirection → Prop
  | nil : Words [] [] []
  | cons {r ts : List Tok} {rs rs' : List Redirection} {w : List UInt8} {ws : List (List UInt8)}
      (h : Redirs r rs) (h' : Words ts ws rs') : Words (.word w :: (r ++ ts)) (w :: ws) (rs ++ rs')

/-- The nonterminals that parts of a tree belong to. -/
inductive Part
  | line
  | pipe
  | exec

/-- What derives from a nonterminal, with its tree. -/
inductive Derives : Part → List Tok → Tree → Prop
  | line {p : List Tok} {t : Tree} (n : ℕ) (h : Derives .pipe p t) :
      Derives .line (p ++ List.replicate n .amp) (t.backs n)
  | seq {p l : List Tok} {t u : Tree} (n : ℕ) (h : Derives .pipe p t) (h' : Derives .line l u) :
      Derives .line (p ++ (List.replicate n .amp ++ .semi :: l)) (.list (t.backs n) u)
  | pipe {e : List Tok} {t : Tree} (h : Derives .exec e t) : Derives .pipe e t
  | bar {e p : List Tok} {t u : Tree} (h : Derives .exec e t) (h' : Derives .pipe p u) :
      Derives .pipe (e ++ .bar :: p) (.pipe t u)
  | block {l r : List Tok} {t : Tree} {rs : List Redirection} (h : Derives .line l t)
      (hr : Redirs r rs) : Derives .exec (.lpar :: (l ++ .rpar :: r)) (t.wrap rs)
  | simple {r a : List Tok} {ws : List (List UInt8)} {rs rs' : List Redirection} (hr : Redirs r rs)
      (h : Words a ws rs') (hn : ws.length < maxargs) :
      Derives .exec (r ++ a) ((Tree.exec ws).wrap (rs ++ rs'))

/-! ## The parser over tokens -/

namespace Toks

/-- A part of the parser over the tokens that are left. -/
abbrev Parser := Det Stop (List Tok)

/-- The next token. -/
def next : Parser (Option Tok)
  | [] => .ok (none, [])
  | t :: ts => .ok (some t, ts)

/-- Is the next token a symbol of `cs`? -/
def look (cs : List UInt8) : Parser Bool := fun ts =>
  .ok (((ts.head?.bind Tok.symbol).map cs.contains).getD false, ts)

/-- `parseredirs`. -/
def redirs : ℕ → Parser (List Redirection)
  | 0 => throw .spin
  | fuel + 1 => do
    if ← look [60, 62] then
      let t ← next
      let f ← next
      match f with
      | some (.word w) =>
        let rs ← redirs fuel
        match t.bind Tok.redirect with
        | some m => return (w, m) :: rs
        | none => return rs
      | _ => throw (.panic "missing file for redirection")
    else
      return []

/-- `setArg`. -/
def setArg (argv : List (List UInt8)) (v : List UInt8) : Parser (List (List UInt8)) :=
  if argv.length < maxargs then return argv ++ [v] else throw .overrun

variable (n : ℕ)

/-- The loop of `parseexec`. -/
def execLoop : ℕ → List (List UInt8) → List Redirection → Parser Tree
  | 0, _, _ => throw .spin
  | fuel + 1, argv, rs => do
    let finish : Parser Tree := do
      let _ ← setArg argv []
      return (Tree.exec argv).wrap rs
    if ← look [124, 41, 38, 59] then finish
    else
      let t ← next
      match t with
      | none => finish
      | some (.word w) =>
        let argv ← setArg argv w
        if argv.length ≥ maxargs then
          throw (.panic "too many args")
        else
          let rs' ← redirs n
          execLoop fuel argv (rs ++ rs')
      | some _ => throw (.panic "syntax")

/-- The loop of `parseline`. -/
def backLoop : ℕ → Tree → Parser Tree
  | 0, _ => throw .spin
  | fuel + 1, t => do
    if ← look [38] then
      let _ ← next
      backLoop fuel (.back t)
    else
      return t

mutual

/-- `parseline`. -/
def line : ℕ → Parser Tree
  | 0 => throw .spin
  | fuel + 1 => do
    let t ← pipe fuel
    let t ← backLoop n t
    if ← look [59] then
      let _ ← next
      let rest ← line fuel
      return .list t rest
    else
      return t

/-- `parsepipe`. -/
def pipe : ℕ → Parser Tree
  | 0 => throw .spin
  | fuel + 1 => do
    let t ← exec fuel
    if ← look [124] then
      let _ ← next
      let rest ← pipe fuel
      return .pipe t rest
    else
      return t

/-- `parseblock`. -/
def block : ℕ → Parser Tree
  | 0 => throw .spin
  | fuel + 1 => do
    if ← look [40] then
      let _ ← next
      let t ← line fuel
      if ← look [41] then
        let _ ← next
        let rs ← redirs n
        return t.wrap rs
      else
        throw (.panic "syntax - missing )")
    else
      throw (.panic "parseblock")

/-- `parseexec`. -/
def exec : ℕ → Parser Tree
  | 0 => throw .spin
  | fuel + 1 => do
    if ← look [40] then
      block fuel
    else
      let rs ← redirs n
      execLoop n n [] rs

end

/-! ### Every tree is derived -/

/-- Is the next of the tokens a symbol of `cs`? -/
def sees (cs : List UInt8) (ts : List Tok) : Bool :=
  ((ts.head?.bind Tok.symbol).map cs.contains).getD false

/-- The parser stops with a panic. -/
def Panics (e : Stop) : Prop := ∃ msg, e = .panic msg

variable {n} {α : Type} {ts : List Tok} {Q : α → List Tok → Prop}

theorem ends_look {cs : List UInt8} {f : Bool → Parser α} (h : Det.Ends Panics (f (sees cs ts)) ts Q) :
    Det.Ends Panics (look cs >>= f) ts Q :=
  .bind (.of_eq rfl h)

theorem sees_cons {cs : List UInt8} (h : sees cs ts = true) :
    ∃ t ts' c, ts = t :: ts' ∧ t.symbol = some c ∧ c ∈ cs := by
  cases ts with
  | nil => simp [sees] at h
  | cons t ts' =>
    cases hc : t.symbol with
    | none => simp [sees, hc] at h
    | some c => exact ⟨t, ts', c, rfl, hc, by simpa [sees, hc] using h⟩

/-- The token of a symbol that starts one token only. -/
theorem sees_tok {t : Tok} (ht : t.symbol = some t.code) (hg : t ≠ .gt) (h : sees [t.code] ts = true) :
    ∃ ts', ts = t :: ts' := by
  obtain ⟨u, ts', c, rfl, hu, hc⟩ := sees_cons h
  obtain rfl := List.mem_singleton.1 hc
  refine ⟨ts', ?_⟩
  cases t <;> cases u <;> simp_all [Tok.symbol, Tok.code]

theorem redirect_of_sees (h : sees [60, 62] ts = true) :
    ∃ t ts' m, ts = t :: ts' ∧ t.redirect = some m := by
  obtain ⟨t, ts', c, rfl, ht, hc⟩ := sees_cons h
  refine ⟨t, ts', ?_⟩
  cases t <;> simp only [Tok.symbol, Tok.code, Option.some.injEq, reduceCtorEq] at ht <;>
    subst ht <;> simp [Tok.redirect] at hc ⊢

theorem redirs_sound {fuel : ℕ} (hf : ts.length < fuel) :
    Det.Ends Panics (redirs fuel) ts fun rs ts' => ∃ c, ts = c ++ ts' ∧ Redirs c rs := by
  induction fuel generalizing ts with
  | zero => omega
  | succ fuel ih =>
    refine ends_look ?_
    by_cases hs : sees [60, 62] ts = true
    · obtain ⟨t, ts', m, rfl, hm⟩ := redirect_of_sees hs
      rw [if_pos hs]
      refine .bind (.of_eq rfl ?_)
      cases ts' with
      | nil => exact .bind (.of_eq rfl (.throw ⟨_, rfl⟩))
      | cons f ts₁ =>
        refine .bind (.of_eq rfl ?_)
        cases f with
        | word w =>
          refine .bind (.mono (ih (by simp at hf; omega)) ?_)
          rintro rs ts₂ ⟨c, rfl, hc⟩
          rw [Option.bind_some, hm]
          exact .pure ⟨t :: .word w :: c, rfl, .cons hm hc⟩
        | _ => exact .throw ⟨_, rfl⟩
    · rw [if_neg hs]
      exact .pure ⟨[], rfl, .nil⟩

theorem execLoop_sound {fuel : ℕ} {argv : List (List UInt8)} {rs : List Redirection}
    (hf : ts.length < fuel) (hn : ts.length < n) (ha : argv.length < maxargs) :
    Det.Ends Panics (execLoop n fuel argv rs) ts fun t ts' => ∃ c ws rs', ts = c ++ ts' ∧
      Words c ws rs' ∧ (argv ++ ws).length < maxargs ∧
      t = (Tree.exec (argv ++ ws)).wrap (rs ++ rs') := by
  induction fuel generalizing ts argv rs with
  | zero => omega
  | succ fuel ih =>
    have finish : Det.Ends Panics (do
        let _ ← setArg argv []
        return (Tree.exec argv).wrap rs) ts fun t ts' => ∃ c ws rs', ts = c ++ ts' ∧
          Words c ws rs' ∧ (argv ++ ws).length < maxargs ∧
          t = (Tree.exec (argv ++ ws)).wrap (rs ++ rs') := by
      rw [setArg, if_pos ha]
      exact .bind (.pure (.pure ⟨[], [], [], rfl, .nil, by simpa using ha, by simp⟩))
    refine ends_look ?_
    split
    · exact finish
    · cases ts with
      | nil => exact .bind (.of_eq rfl finish)
      | cons t ts =>
        refine .bind (.of_eq rfl ?_)
        cases t with
        | word w =>
          simp only [setArg, if_pos ha]
          refine .bind (.pure ?_)
          split
          · exact .throw ⟨_, rfl⟩
          · rename_i hlt
            simp only [List.length_cons] at hf hn
            refine .bind (.mono (redirs_sound (by omega)) ?_)
            rintro rs₁ ts₁ ⟨r, rfl, hr⟩
            simp only [List.length_append] at hf hn
            refine .mono (ih (by omega) (by omega) (by omega)) ?_
            rintro t' ts' ⟨c, ws, rs₂, rfl, hw, hlen, rfl⟩
            exact ⟨.word w :: (r ++ c), w :: ws, rs₁ ++ rs₂, by simp, .cons hr hw,
              by simpa using hlen, by simp⟩
        | _ => exact .throw ⟨_, rfl⟩

theorem backLoop_sound {fuel : ℕ} {t : Tree} (hf : ts.length < fuel) :
    Det.Ends Panics (backLoop fuel t) ts fun u ts' =>
      ∃ k, ts = List.replicate k .amp ++ ts' ∧ u = t.backs k := by
  induction fuel generalizing ts t with
  | zero => omega
  | succ fuel ih =>
    refine ends_look ?_
    by_cases hs : sees [38] ts = true
    · obtain ⟨ts', rfl⟩ := sees_tok (t := .amp) rfl (by decide) hs
      rw [if_pos hs]
      refine .bind (.of_eq rfl (.mono (ih (by simp at hf; omega)) ?_))
      rintro u ts'' ⟨k, rfl, rfl⟩
      exact ⟨k + 1, by rw [List.replicate_succ, List.cons_append], rfl⟩
    · rw [if_neg hs]
      exact .pure ⟨0, rfl, rfl⟩

/-- A nonterminal is parsed: a first part of the tokens derives from it. -/
def Sound (n : ℕ) (p : Part) (q : Parser Tree) (len : ℕ) : Prop :=
  ∀ ts : List Tok, ts.length ≤ len → ts.length < n →
    Det.Ends Panics q ts fun t ts' => ∃ c, ts = c ++ ts' ∧ Derives p c t

/-- **The parser returns derived trees, or panics.** Four calls are enough for each token, since
between two calls of one function a token is consumed. -/
theorem parse_sound (fuel : ℕ) :
    (∀ len, 4 * len + 4 ≤ fuel → Sound n .line (line n fuel) len) ∧
    (∀ len, 4 * len + 3 ≤ fuel → Sound n .pipe (pipe n fuel) len) ∧
    (∀ len, 4 * len + 2 ≤ fuel → Sound n .exec (exec n fuel) len) ∧
    (∀ len, 4 * len + 1 ≤ fuel → Sound n .exec (block n fuel) len) := by
  induction fuel with
  | zero => refine ⟨?_, ?_, ?_, ?_⟩ <;> intro len h <;> omega
  | succ fuel ih =>
    obtain ⟨hline, hpipe, hexec, hblock⟩ := ih
    refine ⟨fun len hf ts hlen hn => ?_, fun len hf ts hlen hn => ?_, fun len hf ts hlen hn => ?_,
      fun len hf ts hlen hn => ?_⟩
    · rw [line]
      refine .bind (.mono (hpipe len (by omega) ts hlen hn) ?_)
      rintro t ts₁ ⟨p, rfl, hp⟩
      simp only [List.length_append] at hlen hn
      refine .bind (.mono (backLoop_sound (by omega)) ?_)
      rintro u ts₂ ⟨k, rfl, rfl⟩
      simp only [List.length_append] at hlen hn
      refine ends_look ?_
      by_cases hs : sees [59] ts₂ = true
      · obtain ⟨ts₃, rfl⟩ := sees_tok (t := .semi) rfl (by decide) hs
        simp only [List.length_cons] at hlen hn
        rw [if_pos hs]
        refine .bind (.of_eq rfl (.bind (.mono (hline ts₃.length (by omega) ts₃ (Nat.le_refl _) (by omega)) ?_)))
        rintro v ts₄ ⟨l, rfl, hl⟩
        exact .pure ⟨p ++ (List.replicate k .amp ++ .semi :: l), by simp, .seq k hp hl⟩
      · rw [if_neg hs]
        exact .pure ⟨p ++ List.replicate k .amp, by simp, .line k hp⟩
    · rw [pipe]
      refine .bind (.mono (hexec len (by omega) ts hlen hn) ?_)
      rintro t ts₁ ⟨e, rfl, he⟩
      simp only [List.length_append] at hlen hn
      refine ends_look ?_
      by_cases hs : sees [124] ts₁ = true
      · obtain ⟨ts₂, rfl⟩ := sees_tok (t := .bar) rfl (by decide) hs
        simp only [List.length_cons] at hlen hn
        rw [if_pos hs]
        refine .bind (.of_eq rfl (.bind (.mono (hpipe ts₂.length (by omega) ts₂ (Nat.le_refl _) (by omega)) ?_)))
        rintro u ts₃ ⟨p, rfl, hp⟩
        exact .pure ⟨e ++ .bar :: p, by simp, .bar he hp⟩
      · rw [if_neg hs]
        exact .pure ⟨e, rfl, .pipe he⟩
    · rw [exec]
      refine ends_look ?_
      split
      · exact hblock len (by omega) ts hlen hn
      · refine .bind (.mono (redirs_sound hn) ?_)
        rintro rs ts₁ ⟨r, rfl, hr⟩
        simp only [List.length_append] at hn
        refine .mono (execLoop_sound (by omega) (by omega) (by decide)) ?_
        rintro t ts₂ ⟨c, ws, rs', rfl, hw, hlt, rfl⟩
        exact ⟨r ++ c, by simp, .simple hr hw hlt⟩
    · rw [block]
      refine ends_look ?_
      by_cases hs : sees [40] ts = true
      · obtain ⟨ts₁, rfl⟩ := sees_tok (t := .lpar) rfl (by decide) hs
        simp only [List.length_cons] at hlen hn
        rw [if_pos hs]
        refine .bind (.of_eq rfl (.bind (.mono (hline ts₁.length (by omega) ts₁ (Nat.le_refl _) (by omega)) ?_)))
        rintro t ts₂ ⟨l, rfl, hl⟩
        simp only [List.length_append] at hlen hn
        refine ends_look ?_
        by_cases hs' : sees [41] ts₂ = true
        · obtain ⟨ts₃, rfl⟩ := sees_tok (t := .rpar) rfl (by decide) hs'
          simp only [List.length_cons] at hlen hn
          rw [if_pos hs']
          refine .bind (.of_eq rfl (.bind (.mono (redirs_sound (by omega)) ?_)))
          rintro rs ts₄ ⟨r, rfl, hr⟩
          exact .pure ⟨.lpar :: (l ++ .rpar :: r), by simp, .block hl hr⟩
        · rw [if_neg hs']
          exact .throw ⟨_, rfl⟩
      · rw [if_neg hs]
        exact .throw ⟨_, rfl⟩

/-! ### Every derivation is found -/

/-- The tokens that may come after a part. -/
def follow : Part → List Tok
  | .line => [.rpar]
  | .pipe => [.rpar, .amp, .semi]
  | .exec => [.rpar, .amp, .semi, .bar]

/-- The first of the tokens, if there is one, may come after a part. -/
def Follows (p : Part) (ts : List Tok) : Prop := ∀ t ∈ ts.head?, t ∈ follow p

theorem Follows.exec {p : Part} (h : Follows p ts) : Follows .exec ts := fun t ht => by
  have := h t ht
  cases p <;> simp [follow] at this ⊢ <;> grind

/-- A symbol that may not come next is not seen. -/
theorem Follows.sees {p : Part} {cs : List UInt8} (h : Follows p ts)
    (hcs : ((follow p).all fun t => t.symbol.all fun c => !cs.contains c) = true) :
    sees cs ts = false := by
  cases ts with
  | nil => rfl
  | cons t ts =>
    have ht := List.all_eq_true.1 hcs t (h t rfl)
    cases hc : t.symbol with
    | none => simp [Toks.sees, hc]
    | some c => simpa [Toks.sees, hc] using ht

theorem look_bind {cs : List UInt8} {f : Bool → Parser α} :
    (look cs >>= f) ts = f (sees cs ts) ts := Det.bind_ok rfl

theorem next_bind {f : Option Tok → Parser α} {t : Tok} : (next >>= f) (t :: ts) = f (some t) ts :=
  Det.bind_ok rfl

variable {rest : List Tok}

theorem redirs_complete {r : List Tok} {rs : List Redirection} (h : Redirs r rs)
    (hrest : sees [60, 62] rest = false) {fuel : ℕ} (hf : r.length < fuel) :
    redirs fuel (r ++ rest) = .ok (rs, rest) := by
  induction h generalizing fuel with
  | nil =>
    obtain ⟨fuel, rfl⟩ := Nat.exists_eq_add_one_of_ne_zero (Nat.ne_zero_of_lt hf)
    rw [redirs, look_bind, List.nil_append, hrest]
    rfl
  | @cons t m w ts rs ht _ ih =>
    obtain ⟨fuel, rfl⟩ := Nat.exists_eq_add_one_of_ne_zero (Nat.ne_zero_of_lt hf)
    have hs : sees [60, 62] (t :: .word w :: ts ++ rest) = true := by
      cases t <;> first | rfl | simp [Tok.redirect] at ht
    simp only [List.length_cons] at hf
    rw [redirs, look_bind, hs, if_pos rfl, List.cons_append, next_bind, List.cons_append, next_bind]
    simp only
    rw [Det.bind_ok (ih (by omega)), Option.bind_some, ht]
    rfl

/-- Neither a word nor what may follow an exec starts with a redirection. -/
theorem words_sees {a : List Tok} {ws : List (List UInt8)} {rs : List Redirection}
    (h : Words a ws rs) (hrest : Follows .exec rest) : sees [60, 62] (a ++ rest) = false := by
  cases h with
  | nil => exact hrest.sees rfl
  | cons _ _ => rfl

theorem execLoop_complete {a : List Tok} {ws : List (List UInt8)} {rs' : List Redirection}
    (h : Words a ws rs') (hrest : Follows .exec rest) {fuel : ℕ} {argv : List (List UInt8)}
    {rs : List Redirection} (hf : a.length < fuel) (hn : (a ++ rest).length < n)
    (ha : (argv ++ ws).length < maxargs) :
    execLoop n fuel argv rs (a ++ rest) =
      .ok ((Tree.exec (argv ++ ws)).wrap (rs ++ rs'), rest) := by
  induction h generalizing fuel argv rs with
  | nil =>
    obtain ⟨fuel, rfl⟩ := Nat.exists_eq_add_one_of_ne_zero (Nat.ne_zero_of_lt hf)
    rw [List.append_nil] at ha
    simp only [execLoop, look_bind, List.nil_append, List.append_nil, setArg, if_pos ha]
    cases rest with
    | nil => rfl
    | cons t rest =>
      have ht := hrest t rfl
      have hs : sees [124, 41, 38, 59] (t :: rest) = true := by
        simp only [follow, List.mem_cons, List.not_mem_nil, or_false] at ht
        rcases ht with rfl | rfl | rfl | rfl <;> rfl
      rw [hs, if_pos rfl]
      rfl
  | @cons r ts rs₁ rs₂ w ws hr hw ih =>
    obtain ⟨fuel, rfl⟩ := Nat.exists_eq_add_one_of_ne_zero (Nat.ne_zero_of_lt hf)
    simp only [List.length_cons, List.length_append, List.cons_append] at hf hn ha ⊢
    rw [execLoop, look_bind, if_neg (by simp [Toks.sees, Tok.symbol]), next_bind]
    simp only [setArg]
    rw [if_pos (by omega), Det.bind_ok (Det.pure_apply _ _),
      if_neg (by simp only [List.length_append, List.length_singleton]; omega), List.append_assoc,
      Det.bind_ok (redirs_complete hr (words_sees hw hrest) (by omega)),
      ih (by omega) (by simp only [List.length_append]; omega)
        (by simp only [List.length_append, List.length_singleton]; omega)]
    simp

theorem backLoop_complete (hrest : sees [38] rest = false) (k : ℕ) {fuel : ℕ} {t : Tree}
    (hf : k < fuel) :
    backLoop fuel t (List.replicate k .amp ++ rest) = .ok (t.backs k, rest) := by
  induction k generalizing fuel t with
  | zero =>
    obtain ⟨fuel, rfl⟩ := Nat.exists_eq_add_one_of_ne_zero (Nat.ne_zero_of_lt hf)
    rw [List.replicate_zero, List.nil_append, backLoop, look_bind, hrest]
    rfl
  | succ k ih =>
    obtain ⟨fuel, rfl⟩ := Nat.exists_eq_add_one_of_ne_zero (Nat.ne_zero_of_lt hf)
    have hs : sees [38] (List.replicate (k + 1) .amp ++ rest) = true := rfl
    rw [backLoop, look_bind, hs, if_pos rfl, List.replicate_succ, List.cons_append, next_bind,
      ih (by omega)]
    rfl

/-- The function for a part. -/
def parse (n fuel : ℕ) : Part → Parser Tree
  | .line => line n fuel
  | .pipe => pipe n fuel
  | .exec => exec n fuel

/-- The calls that a part needs besides those for its tokens. -/
def depth : Part → ℕ
  | .line => 4
  | .pipe => 3
  | .exec => 2

/-- What may come after a background mark, or in its place. -/
theorem follows_amps (h : Follows .line rest ∨ ∃ l, rest = .semi :: l) (k : ℕ) :
    Follows .pipe (List.replicate k .amp ++ rest) ∧ sees [38] rest = false := by
  constructor
  · cases k with
    | zero =>
      rcases h with h | ⟨l, rfl⟩
      · exact fun t ht => by have := h t ht; simp_all [follow]
      · exact fun t ht => by simp at ht; simp [← ht, follow]
    | succ k => exact fun t ht => by simp [List.replicate_succ] at ht; simp [← ht, follow]
  · rcases h with h | ⟨l, rfl⟩
    · exact h.sees rfl
    · rfl

/-- **Every derivation is found**, when what comes after it cannot belong to it. -/
theorem parse_complete {p : Part} {c : List Tok} {t : Tree} (h : Derives p c t) (fuel : ℕ)
    (hrest : Follows p rest) (hf : 4 * (c ++ rest).length + depth p ≤ fuel)
    (hn : (c ++ rest).length < n) : parse n fuel p (c ++ rest) = .ok (t, rest) := by
  induction h generalizing fuel rest with
  | @line p t k _ ih =>
    obtain ⟨fuel, rfl⟩ : ∃ k, fuel = k + 1 := ⟨fuel - 1, by simp only [depth] at hf; omega⟩
    obtain ⟨hfol, hamp⟩ := follows_amps (.inl hrest) k
    simp only [depth, List.length_append, List.length_replicate] at hf hn
    have hp := ih fuel hfol (by simp [depth]; omega) (by simp; omega)
    simp only [parse] at hp ⊢
    rw [line, List.append_assoc, Det.bind_ok hp, Det.bind_ok (backLoop_complete hamp k (by omega)),
      look_bind, hrest.sees rfl]
    rfl
  | @seq p l t u k _ _ ih ih' =>
    obtain ⟨fuel, rfl⟩ : ∃ k, fuel = k + 1 := ⟨fuel - 1, by simp only [depth] at hf; omega⟩
    obtain ⟨hfol, hamp⟩ := follows_amps (.inr ⟨l ++ rest, rfl⟩) k
    simp only [depth, List.length_append, List.length_replicate, List.length_cons] at hf hn
    have hp := ih fuel hfol (by simp [depth]; omega) (by simp; omega)
    have hl := ih' fuel hrest (by simp [depth]; omega) (by simp; omega)
    have hs : sees [59] (.semi :: (l ++ rest)) = true := rfl
    simp only [parse] at hp hl ⊢
    rw [line, List.append_assoc, List.append_assoc, List.cons_append, Det.bind_ok hp,
      Det.bind_ok (backLoop_complete hamp k (by omega)), look_bind, hs, if_pos rfl, next_bind,
      Det.bind_ok hl]
    rfl
  | @pipe e t _ ih =>
    obtain ⟨fuel, rfl⟩ : ∃ k, fuel = k + 1 := ⟨fuel - 1, by simp only [depth] at hf; omega⟩
    have he := ih fuel hrest.exec (by simp [depth] at hf ⊢; omega) hn
    simp only [parse] at he ⊢
    rw [pipe, Det.bind_ok he, look_bind, hrest.sees rfl]
    rfl
  | @bar e p t u _ _ ih ih' =>
    obtain ⟨fuel, rfl⟩ : ∃ k, fuel = k + 1 := ⟨fuel - 1, by simp only [depth] at hf; omega⟩
    simp only [depth, List.length_append, List.length_cons] at hf hn
    have hbar : Follows .exec (.bar :: (p ++ rest)) := fun t ht => by simp at ht; simp [← ht, follow]
    have he := ih fuel hbar (by simp [depth]; omega) (by simp; omega)
    have hp := ih' fuel hrest (by simp [depth]; omega) (by simp; omega)
    have hs : sees [124] (.bar :: (p ++ rest)) = true := rfl
    simp only [parse] at he hp ⊢
    rw [pipe, List.append_assoc, List.cons_append, Det.bind_ok he, look_bind, hs, if_pos rfl,
      next_bind, Det.bind_ok hp]
    rfl
  | @block l r t rs _ hr ih =>
    obtain ⟨fuel, rfl⟩ : ∃ k, fuel = k + 2 := ⟨fuel - 2, by simp only [depth] at hf; omega⟩
    simp only [depth, List.length_append, List.length_cons, List.cons_append] at hf hn ⊢
    have hpar : Follows .line (.rpar :: (r ++ rest)) := fun t ht => by
      simp at ht
      simp [← ht, follow]
    have hl := ih fuel hpar (by simp [depth]; omega) (by simp; omega)
    have hs : ∀ ts, sees [40] (.lpar :: ts) = true := fun _ => rfl
    have hs' : sees [41] (.rpar :: (r ++ rest)) = true := rfl
    simp only [parse] at hl ⊢
    rw [exec, look_bind, hs, if_pos rfl, block, look_bind, hs, if_pos rfl, next_bind,
      List.append_assoc, List.cons_append, Det.bind_ok hl, look_bind, hs', if_pos rfl, next_bind,
      Det.bind_ok (redirs_complete hr (hrest.sees rfl) (by omega))]
    rfl
  | @simple r a ws rs rs' hr hw hlt =>
    obtain ⟨fuel, rfl⟩ : ∃ k, fuel = k + 1 := ⟨fuel - 1, by simp only [depth] at hf; omega⟩
    simp only [List.length_append] at hn
    have hs : sees [40] (r ++ (a ++ rest)) = false := by
      cases hr with
      | nil =>
        cases hw with
        | nil => exact hrest.sees rfl
        | cons _ _ => rfl
      | @cons t _ _ _ _ ht _ => cases t <;> first | rfl | simp [Tok.redirect] at ht
    simp only [parse]
    rw [exec, List.append_assoc, look_bind, hs, if_neg Bool.false_ne_true,
      Det.bind_ok (redirs_complete hr (words_sees hw hrest) (by omega)),
      execLoop_complete hw hrest (by omega) (by simp only [List.length_append]; omega)
        (by simpa using hlt)]
    rfl

end Toks

end Xv6.Sh
