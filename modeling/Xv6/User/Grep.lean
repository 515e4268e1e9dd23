import Mathlib.Computability.Language
import Mathlib.Tactic.Ring

/-!
# The matcher of `grep`

`match`, `matchhere` and `matchstar` of `grep.c`. A pointer to a character of a string is the list of
the characters from there on, and the character at the end of the list is the NUL. The functions call
each other and have loops, so they get a number of turns; `none` is what happens when the turns are
used up, and there is a number that is enough (`turns`).

What a pattern means is said by languages: it is read from left to right as a list of items, each
with a language of its own, and perhaps a final `$` (`readPattern`). The matcher finds a string of the
product of these languages in the text (`match_iff_matches`).
-/

namespace Xv6.Grep

/-- The characters `*`, `$`, `.` and `^`. -/
abbrev star : UInt8 := 42
abbrev dollar : UInt8 := 36
abbrev dot : UInt8 := 46
abbrev caret : UInt8 := 94

mutual

/-- `matchhere`. -/
def matchhere : ℕ → List UInt8 → List UInt8 → Option Bool
  | 0, _, _ => none
  | fuel + 1, re, text =>
    if re.headD 0 = 0 then some true
    else if re.tail.headD 0 = star then matchstar fuel (re.headD 0) (re.drop 2) text
    else if re.headD 0 = dollar ∧ re.tail.headD 0 = 0 then some (text.headD 0 = 0)
    else if text.headD 0 ≠ 0 ∧ (re.headD 0 = dot ∨ re.headD 0 = text.headD 0) then
      matchhere fuel re.tail text.tail
    else some false

/-- `matchstar`; a turn is one of its loop. -/
def matchstar : ℕ → UInt8 → List UInt8 → List UInt8 → Option Bool
  | 0, _, _, _ => none
  | fuel + 1, c, re, text => do
    if ← matchhere fuel re text then return true
    else if text.headD 0 ≠ 0 ∧ (text.headD 0 = c ∨ c = dot) then matchstar fuel c re text.tail
    else return false

end

/-- The loop of `match`. -/
def matchLoop : ℕ → List UInt8 → List UInt8 → Option Bool
  | 0, _, _ => none
  | fuel + 1, re, text => do
    if ← matchhere fuel re text then return true
    else if text.headD 0 ≠ 0 then matchLoop fuel re text.tail
    else return false

/-- Turns for a pattern of `r` characters and a text of `t`. -/
def turns (r t : ℕ) : ℕ := r * (t + 2) + t + 2

/-- `match`. -/
def matchText (re text : List UInt8) : Option Bool :=
  if re.headD 0 = caret then matchhere (turns re.length text.length) re.tail text
  else matchLoop (turns re.length text.length) re text

/-! ## The language of a pattern -/

/-- An item of a pattern: a character, or a character with a star. -/
inductive Item
  | one (c : UInt8)
  | many (c : UInt8)

/-- The strings of one character that an item for `c` is about. -/
def charLang (c : UInt8) : Language UInt8 := {w | ∃ x, w = [x] ∧ (c = dot ∨ x = c)}

/-- The strings that an item stands for. -/
def Item.lang : Item → Language UInt8
  | .one c => charLang c
  | .many c => KStar.kstar (charLang c)

/-- The items of a pattern, read from left to right, and whether there is a final `$`. -/
def readPattern : List UInt8 → List Item × Bool
  | [] => ([], false)
  | [c] => if c = dollar then ([], true) else ([.one c], false)
  | c :: d :: re =>
    if d = star then (.many c :: (readPattern re).1, (readPattern re).2)
    else (.one c :: (readPattern (d :: re)).1, (readPattern (d :: re)).2)

/-- A string of the language of the pattern starts the text, and ends it if the pattern says so. -/
def MatchesHere (re text : List UInt8) : Prop :=
  ∃ w rest, text = w ++ rest ∧ w ∈ ((readPattern re).1.map Item.lang).prod ∧
    ((readPattern re).2 = true → rest = [])

/-- Some position of the text, only the first if the pattern starts with `^`, has such a string. -/
def Matches (re text : List UInt8) : Prop :=
  if re.head? = some caret then MatchesHere re.tail text
  else ∃ before after, text = before ++ after ∧ MatchesHere re after

/-! ## What the matcher looks for, item by item -/

variable {re text : List UInt8} {c d x : UInt8} {fuel : ℕ}

theorem matchesHere_nil : MatchesHere [] text :=
  ⟨[], text, rfl, rfl, fun h => absurd h Bool.false_ne_true⟩

theorem matchesHere_dollar : MatchesHere [dollar] text ↔ text = [] := by
  constructor
  · rintro ⟨w, rest, rfl, hw, hrest⟩
    have hw' : w = [] := hw
    rw [hw', hrest rfl]
    rfl
  · rintro rfl
    exact ⟨[], [], rfl, rfl, fun _ => rfl⟩

/-- Two items apart: the string of the first is followed by one of the rest. -/
theorem matchesHere_cons {i : Item} {re' : List UInt8}
    (h : readPattern re' = (i :: (readPattern re).1, (readPattern re).2)) :
    MatchesHere re' text ↔ ∃ w ∈ i.lang, ∃ rest, text = w ++ rest ∧ MatchesHere re rest := by
  unfold MatchesHere
  rw [h]
  simp only [List.map_cons, List.prod_cons, Language.mem_mul]
  constructor
  · rintro ⟨_, rest, rfl, ⟨w, hw, v, hv, rfl⟩, hend⟩
    exact ⟨w, hw, v ++ rest, List.append_assoc w v rest, v, rest, rfl, hv, hend⟩
  · rintro ⟨w, hw, _, rfl, v, rest, rfl, hv, hend⟩
    exact ⟨w ++ v, rest, (List.append_assoc w v rest).symm, ⟨w, hw, v, hv, rfl⟩, hend⟩

theorem readPattern_star : readPattern (c :: star :: re) =
    (.many c :: (readPattern re).1, (readPattern re).2) := by
  rw [readPattern, if_pos rfl]

/-- A character that is not followed by a star and is not a final `$` is an item of its own. -/
theorem readPattern_one (hstar : re.head? ≠ some star) (hend : ¬ (c = dollar ∧ re = [])) :
    readPattern (c :: re) = (.one c :: (readPattern re).1, (readPattern re).2) := by
  cases re with
  | nil =>
    show (if c = dollar then ([], true) else ([Item.one c], false)) = _
    rw [if_neg fun h => hend ⟨h, rfl⟩]
    rfl
  | cons d re =>
    rw [readPattern, if_neg fun h => hstar (congrArg some h)]

theorem matchesHere_one (hstar : re.head? ≠ some star) (hend : ¬ (c = dollar ∧ re = [])) :
    MatchesHere (c :: re) text ↔ ∃ x rest, text = x :: rest ∧ (c = dot ∨ x = c) ∧ MatchesHere re rest := by
  rw [matchesHere_cons (readPattern_one hstar hend)]
  constructor
  · rintro ⟨_, ⟨x, rfl, hx⟩, rest, rfl, h⟩
    exact ⟨x, rest, rfl, hx, h⟩
  · rintro ⟨x, rest, rfl, hx, h⟩
    exact ⟨[x], ⟨x, rfl, hx⟩, rest, rfl, h⟩

/-- A star is passed over, or it takes a character and stays. -/
theorem matchesHere_star : MatchesHere (c :: star :: re) text ↔ MatchesHere re text ∨
    ∃ x rest, text = x :: rest ∧ (x = c ∨ c = dot) ∧ MatchesHere (c :: star :: re) rest := by
  have hread : readPattern (c :: star :: re) = (.many c :: (readPattern re).1, (readPattern re).2) :=
    readPattern_star
  rw [matchesHere_cons hread]
  have hlang : (Item.many c).lang = 1 + charLang c * (Item.many c).lang :=
    (Language.one_add_self_mul_kstar_eq_kstar (charLang c)).symm
  constructor
  · rintro ⟨w, hw, rest, rfl, h⟩
    rw [hlang, Language.mem_add, Language.mem_one, Language.mem_mul] at hw
    obtain rfl | ⟨_, ⟨x, rfl, hx⟩, v, hv, rfl⟩ := hw
    · exact .inl h
    · exact .inr ⟨x, v ++ rest, rfl, hx.symm, (matchesHere_cons hread).2 ⟨v, hv, rest, rfl, h⟩⟩
  · rintro (h | ⟨x, rest, rfl, hx, h⟩)
    · exact ⟨[], Language.nil_mem_kstar _, text, rfl, h⟩
    · obtain ⟨v, hv, rest', rfl, h'⟩ := (matchesHere_cons hread).1 h
      refine ⟨x :: v, ?_, rest', rfl, h'⟩
      rw [hlang, Language.mem_add, Language.mem_mul]
      exact .inr ⟨[x], ⟨x, rfl, hx.symm⟩, v, hv, rfl⟩

/-! ## The matcher -/

/-- A result that says whether `P`. -/
def Decides (o : Option Bool) (P : Prop) : Prop := ∃ b, o = some b ∧ (b = true ↔ P)

theorem Decides.congr {o : Option Bool} {P Q : Prop} (h : Decides o P) (hPQ : P ↔ Q) : Decides o Q := by
  obtain ⟨b, ho, hb⟩ := h
  exact ⟨b, ho, hb.trans hPQ⟩

theorem decides_true {P : Prop} (h : P) : Decides (some true) P := ⟨true, rfl, iff_of_true rfl h⟩

theorem decides_false {P : Prop} (h : ¬ P) : Decides (some false) P :=
  ⟨false, rfl, iff_of_false Bool.false_ne_true h⟩

theorem decides_decide {P : Prop} [Decidable P] : Decides (some (decide P)) P :=
  ⟨decide P, rfl, decide_eq_true_iff⟩

/-- One turn of a loop: a first result, and what is done when it is not `true`. -/
theorem Decides.orElse {o o' : Option Bool} {P Q : Prop} (h : Decides o P) (h' : ¬ P → Decides o' Q) :
    Decides (do if ← o then return true else o') (P ∨ Q) := by
  obtain ⟨b, rfl, hb⟩ := h
  cases b with
  | true => exact decides_true (.inl (hb.1 rfl))
  | false =>
    have hP : ¬ P := fun hp => Bool.false_ne_true (hb.2 hp)
    exact (h' hP).congr (or_iff_right hP).symm

theorem headD_ne_zero (h : 0 ∉ x :: text) : x ≠ 0 := fun h0 => h (h0 ▸ List.mem_cons_self)

theorem headD_eq_zero_iff (h : 0 ∉ text) : text.headD 0 = 0 ↔ text = [] := by
  cases text with
  | nil => exact iff_of_true rfl rfl
  | cons x text => exact iff_of_false (headD_ne_zero h) (List.cons_ne_nil x text)

theorem headD_eq_iff (hc : c ≠ 0) : re.headD 0 = c ↔ re.head? = some c := by
  cases re with
  | nil => exact iff_of_false hc.symm (Option.some_ne_none c).symm
  | cons d re => exact Option.some_inj.symm

theorem not_mem_tail (h : 0 ∉ text) : 0 ∉ text.tail := fun h0 => h (List.mem_of_mem_tail h0)

/-- The loop of `matchstar`, given what `matchhere` does with as many turns as are left to it. -/
theorem matchstar_spec (hre : ∀ text, 0 ∉ text → ∀ fuel, re.length * (text.length + 2) + 1 ≤ fuel →
      Decides (matchhere fuel re text) (MatchesHere re text)) (htext : 0 ∉ text)
    (hfuel : turns re.length text.length ≤ fuel) :
    Decides (matchstar fuel c re text) (MatchesHere (c :: star :: re) text) := by
  induction text generalizing fuel with
  | nil =>
    obtain ⟨fuel, rfl⟩ : ∃ k, fuel = k + 1 := ⟨fuel - 1, by unfold turns at hfuel; omega⟩
    unfold turns at hfuel
    have hhere := hre [] htext fuel (by simp only [List.length_nil] at *; omega)
    refine (hhere.orElse fun _ => ?_).congr matchesHere_star.symm
    rw [if_neg fun h => h.1 rfl]
    refine decides_false ?_
    rintro ⟨x, rest, h, -⟩
    exact absurd h (List.cons_ne_nil x rest).symm
  | cons x text ih =>
    obtain ⟨fuel, rfl⟩ : ∃ k, fuel = k + 1 := ⟨fuel - 1, by unfold turns at hfuel; omega⟩
    unfold turns at hfuel
    rw [List.length_cons] at hfuel
    have hsplit : re.length * (text.length + 1 + 2) = re.length * (text.length + 2) + re.length := by ring
    have hhere := hre (x :: text) htext fuel (by rw [List.length_cons]; omega)
    refine (hhere.orElse fun _ => ?_).congr matchesHere_star.symm
    by_cases hx : x = c ∨ c = dot
    · rw [if_pos ⟨headD_ne_zero htext, hx⟩]
      refine (ih (not_mem_tail htext) (by unfold turns; omega)).congr ⟨fun h => ⟨x, text, rfl, hx, h⟩, ?_⟩
      rintro ⟨x', rest, he, -, h⟩
      obtain ⟨rfl, rfl⟩ := List.cons.inj he
      exact h
    · rw [if_neg fun h => hx h.2]
      refine decides_false ?_
      rintro ⟨x', rest, he, hx', -⟩
      obtain ⟨rfl, rfl⟩ := List.cons.inj he
      exact hx hx'

theorem matchhere_spec (hre : 0 ∉ re) (htext : 0 ∉ text)
    (hfuel : re.length * (text.length + 2) + 1 ≤ fuel) :
    Decides (matchhere fuel re text) (MatchesHere re text) := by
  -- on the length of the pattern: a star takes two characters of it, and any other item one
  induction hn : re.length using Nat.strong_induction_on generalizing re text fuel with
  | _ n ih =>
    subst hn
    obtain ⟨fuel, rfl⟩ : ∃ k, fuel = k + 1 := ⟨fuel - 1, by omega⟩
    rw [matchhere]
    cases re with
    | nil => exact decides_true matchesHere_nil
    | cons c re =>
      have hc := headD_ne_zero hre
      have hre' : 0 ∉ re := not_mem_tail hre
      rw [List.length_cons] at hfuel ih
      have hsplit : (re.length + 1) * (text.length + 2) =
        re.length * (text.length + 2) + (text.length + 2) := by ring
      rw [if_neg (by exact hc), List.tail_cons]
      by_cases hstar : re.headD 0 = star
      · rw [if_pos hstar]
        obtain ⟨re, rfl⟩ : ∃ re', re = star :: re' := by
          rw [headD_eq_iff (by decide)] at hstar
          exact List.head?_eq_some_iff.1 hstar
        refine matchstar_spec (fun text ht fuel hf => ih re.length ?_ (not_mem_tail hre') ht hf rfl) htext ?_
        · rw [List.length_cons]
          omega
        · have : (re.length + 1) * (text.length + 2) = re.length * (text.length + 2) + (text.length + 2) := by
            ring
          show turns re.length text.length ≤ fuel
          unfold turns
          rw [List.length_cons] at hsplit hfuel
          omega
      · rw [if_neg hstar]
        rw [headD_eq_iff (by decide)] at hstar
        by_cases hend : c = dollar ∧ re = []
        · obtain ⟨rfl, rfl⟩ := hend
          rw [if_pos ⟨rfl, rfl⟩]
          exact decides_decide.congr ((headD_eq_zero_iff htext).trans matchesHere_dollar.symm)
        · have hend' : ¬ (c = dollar ∧ re.headD 0 = 0) := by rwa [headD_eq_zero_iff hre']
          rw [if_neg (by exact hend')]
          refine Decides.congr ?_ (matchesHere_one hstar hend).symm
          cases text with
          | nil =>
            rw [if_neg fun h => h.1 rfl]
            refine decides_false ?_
            rintro ⟨x, rest, he, -⟩
            exact absurd he (List.cons_ne_nil x rest).symm
          | cons x text =>
            rw [List.length_cons] at hfuel hsplit
            have hless : re.length * (text.length + 1 + 2) =
              re.length * (text.length + 2) + re.length := by ring
            by_cases hx : c = dot ∨ c = x
            · rw [if_pos ⟨headD_ne_zero htext, hx⟩]
              refine (ih re.length (by omega) hre' (not_mem_tail htext) (by rw [List.tail_cons]; omega)
                rfl).congr ⟨fun h => ⟨x, text, rfl, hx.imp_right Eq.symm, h⟩, ?_⟩
              rintro ⟨x', rest, he, -, h⟩
              obtain ⟨rfl, rfl⟩ := List.cons.inj he
              exact h
            · rw [if_neg fun h => hx h.2]
              refine decides_false ?_
              rintro ⟨x', rest, he, hx', -⟩
              obtain ⟨rfl, rfl⟩ := List.cons.inj he
              exact hx (hx'.imp_right Eq.symm)

/-- The loop of `match` tries every position of the text. -/
theorem matchLoop_spec (hre : 0 ∉ re) (htext : 0 ∉ text) (hfuel : turns re.length text.length ≤ fuel) :
    Decides (matchLoop fuel re text) (∃ before after, text = before ++ after ∧ MatchesHere re after) := by
  -- a match at the first position, or one further on
  have hcons : ∀ text : List UInt8, (∃ before after, text = before ++ after ∧ MatchesHere re after) ↔
      MatchesHere re text ∨ ∃ x rest before after, text = x :: rest ∧ rest = before ++ after ∧
        MatchesHere re after := fun text => by
    constructor
    · rintro ⟨before, after, rfl, h⟩
      cases before with
      | nil => exact .inl h
      | cons x before => exact .inr ⟨x, _, before, after, rfl, rfl, h⟩
    · rintro (h | ⟨x, _, before, after, rfl, rfl, h⟩)
      · exact ⟨[], text, rfl, h⟩
      · exact ⟨x :: before, after, rfl, h⟩
  induction text generalizing fuel with
  | nil =>
    obtain ⟨fuel, rfl⟩ : ∃ k, fuel = k + 1 := ⟨fuel - 1, by unfold turns at hfuel; omega⟩
    unfold turns at hfuel
    have hhere : Decides (matchhere fuel re []) (MatchesHere re []) :=
      matchhere_spec hre htext (by simp only [List.length_nil] at *; omega)
    refine (hhere.orElse fun _ => ?_).congr (hcons []).symm
    rw [if_neg fun h => h rfl]
    refine decides_false ?_
    rintro ⟨x, rest, before, after, h, -⟩
    exact absurd h (List.cons_ne_nil x rest).symm
  | cons x text ih =>
    obtain ⟨fuel, rfl⟩ : ∃ k, fuel = k + 1 := ⟨fuel - 1, by unfold turns at hfuel; omega⟩
    unfold turns at hfuel
    rw [List.length_cons] at hfuel
    have hsplit : re.length * (text.length + 1 + 2) = re.length * (text.length + 2) + re.length := by ring
    have hhere : Decides (matchhere fuel re (x :: text)) (MatchesHere re (x :: text)) :=
      matchhere_spec hre htext (by rw [List.length_cons]; omega)
    refine (hhere.orElse fun _ => ?_).congr (hcons _).symm
    have hx : (x :: text).headD 0 ≠ 0 := headD_ne_zero htext
    rw [if_pos hx]
    refine (ih (not_mem_tail htext) (by unfold turns; omega)).congr ⟨?_, ?_⟩
    · rintro ⟨before, after, h, hm⟩
      exact ⟨x, text, before, after, rfl, h, hm⟩
    · rintro ⟨x', rest, before, after, he, h, hm⟩
      obtain ⟨rfl, rfl⟩ := List.cons.inj he
      exact ⟨before, after, h, hm⟩

theorem matchText_spec (hre : 0 ∉ re) (htext : 0 ∉ text) :
    Decides (matchText re text) (Matches re text) := by
  unfold matchText Matches
  have hcaret : re.headD 0 = caret ↔ re.head? = some caret := headD_eq_iff (by decide)
  by_cases h : re.headD 0 = caret
  · rw [if_pos h, if_pos (hcaret.1 h)]
    refine matchhere_spec (not_mem_tail hre) htext ?_
    have hlen : re.tail.length ≤ re.length := by
      rw [List.length_tail]
      omega
    have hle := Nat.mul_le_mul_right (text.length + 2) hlen
    unfold turns
    omega
  · rw [if_neg h, if_neg (mt hcaret.2 h)]
    exact matchLoop_spec hre htext (Nat.le_refl _)

/-- **The matcher decides its language.** For all strings, `match` returns, and it returns 1 if and only
if the text has a string of the pattern's language where the pattern may start; `matchhere` and
`matchstar` return for all strings as well. -/
theorem match_iff_matches (re text : List UInt8) (hre : 0 ∉ re) (htext : 0 ∉ text) :
    (∃ b, matchText re text = some b ∧ (b = true ↔ Matches re text)) ∧
    ∀ fuel, turns re.length text.length ≤ fuel →
      (∃ b, matchhere fuel re text = some b ∧ (b = true ↔ MatchesHere re text)) ∧
      ∀ c, ∃ b, matchstar fuel c re text = some b ∧ (b = true ↔ MatchesHere (c :: star :: re) text) := by
  refine ⟨matchText_spec hre htext, fun fuel hfuel => ⟨matchhere_spec hre htext ?_, fun c => ?_⟩⟩
  · unfold turns at hfuel
    omega
  · exact matchstar_spec (fun text ht fuel hf => matchhere_spec hre ht hf) htext hfuel

/-- The pattern `^a*.$` and the text `aab`. -/
theorem match_iff_matches_aab : 0 ∉ ([94, 97, 42, 46, 36] : List UInt8) ∧
    0 ∉ ([97, 97, 98] : List UInt8) ∧
    (∃ b, matchText [94, 97, 42, 46, 36] [97, 97, 98] = some b ∧
      (b = true ↔ Matches [94, 97, 42, 46, 36] [97, 97, 98])) :=
  ⟨by decide, by decide, (match_iff_matches _ _ (by decide) (by decide)).1⟩

example : matchText [94, 97, 42, 46, 36] [97, 97, 98] = some true := by decide

end Xv6.Grep
