import Mathlib.Computability.Language
import OsbKernel.Vm.UserMemory

/-!
# The matcher of `grep`

`match`, `matchhere` and `matchstar` of `grep.c`.  A pointer into a string is the rest of its buffer
from there on, with the terminating NUL; to read beyond the end of the buffer gives `none`.
-/

namespace OsbKernel.Grep

open Paging Computability

def ch (c : Char) : Byte := BitVec.ofNat 8 c.toNat

/-- `matchstar`: search for `c*re` at the beginning of a text, where `here` is `matchhere` with
`re`. -/
def matchstar (here : List Byte → Option Bool) (c : Byte) : List Byte → Option Bool
  | [] => do
    if ← here [] then return true
    none
  | t :: text => do
    if ← here (t :: text) then return true
    if t ≠ 0 ∧ (t = c ∨ c = ch '.') then matchstar here c text
    else return false

/-- `matchhere`: search for `re` at the beginning of `text`. -/
def matchhere : List Byte → List Byte → Option Bool
  | [], _ => none
  | [c], _ => if c = 0 then some true else none
  | c :: d :: re, text =>
    if c = 0 then some true
    else if d = ch '*' then matchstar (matchhere re) c text
    else
      match text with
      | [] => none
      | t :: text =>
        if c = ch '$' ∧ d = 0 then some (t = 0)
        else if t ≠ 0 ∧ (c = ch '.' ∨ c = t) then matchhere (d :: re) text
        else some false

/-- The loop of `match` over the places of the text. -/
def matchLoop (re : List Byte) : List Byte → Option Bool
  | [] => do
    if ← matchhere re [] then return true
    none
  | t :: text => do
    if ← matchhere re (t :: text) then return true
    if t ≠ 0 then matchLoop re text
    else return false

def grepMatch (re text : List Byte) : Option Bool :=
  match re with
  | [] => none
  | c :: rest => if c = ch '^' then matchhere rest text else matchLoop re text

inductive Item where
  | star (c : Byte)
  | char (c : Byte)
  | anchor
  deriving DecidableEq, Repr

/-- The items of a pattern without its leading `^`. -/
def items : List Byte → List Item
  | [] => []
  | [c] => if c = ch '$' then [.anchor] else [.char c]
  | c :: d :: re => if d = ch '*' then .star c :: items re else .char c :: items (d :: re)

/-- The words of one character that `c` stands for. -/
def charLang (c : Byte) : Language Byte := {w | ∃ t, w = [t] ∧ (c = ch '.' ∨ c = t)}

def Item.lang : Item → Language Byte
  | .star c => (charLang c)∗
  | .char c => charLang c
  | .anchor => 1

def lang (is : List Item) : Language Byte := (is.map Item.lang).prod

def Anchored (is : List Item) : Prop := is.getLast? = some .anchor

/-- A word of the items stands at the beginning of the text, up to its end if the anchor asks for
it. -/
def MatchesHere (is : List Item) (text : List Byte) : Prop :=
  ∃ word rest, text = word ++ rest ∧ word ∈ lang is ∧ (Anchored is → rest = [])

variable {c : Byte} {is : List Item} {text : List Byte} {P : List Byte → Prop}

theorem mem_charLang {w : List Byte} :
    w ∈ charLang c ↔ ∃ t, w = [t] ∧ (c = ch '.' ∨ c = t) := Iff.rfl

/-- `c*` denotes the words all of whose characters are `c`, or all words if `c` is the dot. -/
theorem mem_star {w : List Byte} :
    w ∈ (charLang c)∗ ↔ ∀ t ∈ w, c = ch '.' ∨ c = t := by
  constructor
  · rintro ⟨parts, rfl, chars⟩ t mem
    obtain ⟨part, inside, held⟩ := List.mem_flatten.mp mem
    obtain ⟨t', rfl, fits⟩ := mem_charLang.mp (chars part inside)
    rw [List.mem_singleton.mp held]
    exact fits
  · intro fits
    refine ⟨w.map fun t => [t], ?_, ?_⟩
    · induction w with
      | nil => rfl
      | cons t w ih =>
        rw [List.map_cons, List.flatten_cons, ← ih fun t' mem => fits t' (List.mem_cons_of_mem t mem)]
        rfl
    · intro part inside
      obtain ⟨t, mem, rfl⟩ := List.mem_map.mp inside
      exact ⟨t, rfl, fits t mem⟩

theorem anchored_cons {i : Item} (other : i ≠ .anchor) :
    Anchored (i :: is) ↔ Anchored is := by
  unfold Anchored
  cases is with
  | nil => exact iff_of_false (fun last => other (Option.some.inj last)) (fun none => by cases none)
  | cons j is => rw [List.getLast?_cons_cons]

theorem matchesHere_star :
    MatchesHere (.star c :: is) text ↔
      ∃ word rest, text = word ++ rest ∧ (∀ t ∈ word, c = ch '.' ∨ c = t) ∧ MatchesHere is rest := by
  have anchored : Anchored (.star c :: is) ↔ Anchored is := anchored_cons Item.noConfusion
  constructor
  · rintro ⟨word, rest, rfl, inside, last⟩
    obtain ⟨first, starred, second, remaining, rfl⟩ := Language.mem_mul.mp inside
    exact ⟨first, second ++ rest, List.append_assoc _ _ _, mem_star.mp starred, second, rest, rfl, remaining,
      fun known => last (anchored.mpr known)⟩
  · rintro ⟨first, rest', rfl, starred, second, rest, rfl, remaining, last⟩
    refine ⟨first ++ second, rest, (List.append_assoc _ _ _).symm, ?_, fun known => last (anchored.mp known)⟩
    exact Language.mem_mul.mpr ⟨first, mem_star.mpr starred, second, remaining, rfl⟩

theorem matchesHere_char :
    MatchesHere (.char c :: is) text ↔
      ∃ t rest, text = t :: rest ∧ (c = ch '.' ∨ c = t) ∧ MatchesHere is rest := by
  have anchored : Anchored (.char c :: is) ↔ Anchored is := anchored_cons Item.noConfusion
  constructor
  · rintro ⟨word, rest, rfl, inside, last⟩
    obtain ⟨first, single, second, remaining, rfl⟩ := Language.mem_mul.mp inside
    obtain ⟨t, rfl, fits⟩ := mem_charLang.mp single
    exact ⟨t, second ++ rest, rfl, fits, second, rest, rfl, remaining, fun known => last (anchored.mpr known)⟩
  · rintro ⟨t, rest', rfl, fits, second, rest, rfl, remaining, last⟩
    refine ⟨t :: second, rest, rfl, ?_, fun known => last (anchored.mp known)⟩
    exact Language.mem_mul.mpr ⟨[t], ⟨t, rfl, fits⟩, second, remaining, rfl⟩

theorem matchesHere_nil (text : List Byte) : MatchesHere [] text :=
  ⟨[], text, rfl, rfl, fun none => by cases none⟩

theorem matchesHere_anchor : MatchesHere [.anchor] text ↔ text = [] := by
  constructor
  · rintro ⟨word, rest, rfl, inside, last⟩
    rw [last rfl, List.append_nil]
    obtain ⟨first, empty, second, empty', rfl⟩ := Language.mem_mul.mp inside
    rw [Set.mem_singleton_iff.mp empty, Set.mem_singleton_iff.mp empty']
    rfl
  · rintro rfl
    refine ⟨[], [], rfl, ?_, fun _ => rfl⟩
    exact Language.mem_mul.mpr ⟨[], rfl, [], rfl, rfl⟩

/-- A function on places of a text that answers whether `P` holds, on every text without NUL. -/
def Decides (f : List Byte → Option Bool) (P : List Byte → Prop) : Prop :=
  ∀ text junk, 0 ∉ text → ∃ b, f (text ++ 0 :: junk) = some b ∧ (b = true ↔ P text)

theorem matchstar_decides {here : List Byte → Option Bool}
    (decides : Decides here P) (c : Byte) :
    Decides (matchstar here c) fun text =>
      ∃ word rest, text = word ++ rest ∧ (∀ t ∈ word, c = ch '.' ∨ c = t) ∧ P rest := by
  intro text junk clean
  induction text with
  | nil =>
    obtain ⟨b, answer, means⟩ := decides [] junk clean
    refine ⟨b, ?_, means.trans ⟨?_, ?_⟩⟩
    · rw [List.nil_append] at answer ⊢
      rw [matchstar, answer]
      cases b <;> rfl
    · exact fun holds => ⟨[], [], rfl, fun _ mem => absurd mem List.not_mem_nil, holds⟩
    · rintro ⟨word, rest, split, -, holds⟩
      rw [(List.append_eq_nil_iff.mp split.symm).2] at holds
      exact holds
  | cons t text ih =>
    rw [List.mem_cons, not_or] at clean
    obtain ⟨b, answer, means⟩ := decides (t :: text) junk (List.mem_cons.not.mpr (not_or.mpr clean))
    rw [List.cons_append] at answer ⊢
    rw [matchstar, answer]
    cases b with
    | true =>
      refine ⟨true, rfl, iff_of_true rfl ⟨[], t :: text, rfl, ?_, means.mp rfl⟩⟩
      exact fun _ mem => absurd mem List.not_mem_nil
    | false =>
      have fails : ¬ P (t :: text) := fun holds => Bool.false_ne_true (means.mpr holds)
      by_cases fits : c = ch '.' ∨ c = t
      · obtain ⟨b', answer', means'⟩ := ih clean.2
        refine ⟨b', ?_, means'.trans ⟨?_, ?_⟩⟩
        · rw [← answer']
          exact if_pos ⟨Ne.symm clean.1, fits.symm.imp_left Eq.symm⟩
        · rintro ⟨word, rest, rfl, all, holds⟩
          refine ⟨t :: word, rest, rfl, fun t' mem => ?_, holds⟩
          rcases List.mem_cons.mp mem with rfl | later
          · exact fits
          · exact all t' later
        · rintro ⟨word, rest, split, all, holds⟩
          cases word with
          | nil =>
            exact absurd (split ▸ holds) fails
          | cons t' word =>
            obtain ⟨rfl, rfl⟩ := List.cons.inj split
            exact ⟨word, rest, rfl, fun t' mem => all t' (List.mem_cons_of_mem t mem), holds⟩
      · refine ⟨false, ?_, iff_of_false Bool.false_ne_true ?_⟩
        · exact if_neg fun both => fits (both.2.symm.imp_right Eq.symm)
        · rintro ⟨word, rest, split, all, holds⟩
          cases word with
          | nil =>
            exact fails (split ▸ holds)
          | cons t' word =>
            obtain ⟨rfl, rfl⟩ := List.cons.inj split
            exact fits (all t List.mem_cons_self)

theorem matchhere_end (junk text : List Byte) : matchhere (0 :: junk) text = some true := by
  cases junk with
  | nil | cons d junk => exact if_pos rfl

theorem matchhere_star (nonzero : c ≠ 0) (re text : List Byte) :
    matchhere (c :: ch '*' :: re) text = matchstar (matchhere re) c text :=
  (if_neg nonzero).trans (if_pos rfl)

theorem matchhere_char {d t : Byte} (nonzero : c ≠ 0) (plain : d ≠ ch '*') (re text : List Byte) :
    matchhere (c :: d :: re) (t :: text) =
      if c = ch '$' ∧ d = 0 then some (decide (t = 0))
      else if t ≠ 0 ∧ (c = ch '.' ∨ c = t) then matchhere (d :: re) text
      else some false := by
  rw [matchhere, if_neg nonzero, if_neg plain]

theorem char_decides {d : Byte} {re : List Byte} (nonzero : c ≠ 0)
    (plain : d ≠ ch '*') (inner : ¬ (c = ch '$' ∧ d = 0))
    (rest : Decides (matchhere (d :: re)) (MatchesHere is)) :
    Decides (matchhere (c :: d :: re)) (MatchesHere (.char c :: is)) := by
  intro text junk clean
  cases text with
  | nil =>
    refine ⟨false, ?_, iff_of_false Bool.false_ne_true fun matched => ?_⟩
    · rw [List.nil_append, matchhere_char nonzero plain, if_neg inner]
      exact if_neg fun both => both.1 rfl
    · obtain ⟨_, _, impossible, -⟩ := matchesHere_char.mp matched
      cases impossible
  | cons t text =>
    rw [List.mem_cons, not_or] at clean
    rw [List.cons_append, matchhere_char nonzero plain, if_neg inner, matchesHere_char]
    by_cases fits : c = ch '.' ∨ c = t
    · rw [if_pos ⟨Ne.symm clean.1, fits⟩]
      obtain ⟨b, answer, means⟩ := rest text junk clean.2
      refine ⟨b, answer, means.trans ⟨fun matched => ⟨t, text, rfl, fits, matched⟩, ?_⟩⟩
      rintro ⟨t', text', same, -, matched⟩
      rw [(List.cons.inj same).2]
      exact matched
    · rw [if_neg fun both => fits both.2]
      refine ⟨false, rfl, iff_of_false Bool.false_ne_true ?_⟩
      rintro ⟨t', text', same, fits', -⟩
      rw [← (List.cons.inj same).1] at fits'
      exact fits fits'

/-- `matchhere` decides whether a word of the pattern stands at the beginning of the text. -/
theorem matchhere_decides (re junk : List Byte) (clean : 0 ∉ re) :
    Decides (matchhere (re ++ 0 :: junk)) (MatchesHere (items re)) := by
  have empty : Decides (matchhere (0 :: junk)) (MatchesHere []) := fun text junk' _ =>
    ⟨true, matchhere_end _ _, iff_of_true rfl (matchesHere_nil text)⟩
  have unstarred : (0 : Byte) ≠ ch '*' := by decide
  induction re using items.induct with
  | case1 => exact empty
  | case2 =>
    intro text junk' clean'
    rw [items, if_pos rfl, matchesHere_anchor]
    cases text with
    | nil =>
      refine ⟨true, ?_, iff_of_true rfl rfl⟩
      exact (matchhere_char (by decide) unstarred junk junk').trans (if_pos ⟨rfl, rfl⟩)
    | cons t text =>
      rw [List.mem_cons, not_or] at clean'
      refine ⟨false, ?_, iff_of_false Bool.false_ne_true (List.cons_ne_nil t text)⟩
      refine (matchhere_char (by decide) unstarred junk _).trans ((if_pos ⟨rfl, rfl⟩).trans ?_)
      rw [decide_eq_false (Ne.symm clean'.1)]
  | case3 c other =>
    rw [List.mem_singleton] at clean
    rw [items, if_neg other]
    exact char_decides (Ne.symm clean) unstarred (fun both => other both.1) empty
  | case4 c re ih =>
    rw [List.mem_cons, List.mem_cons, not_or, not_or] at clean
    intro text junk' clean'
    rw [items, if_pos rfl, matchesHere_star]
    obtain ⟨b, answer, means⟩ := matchstar_decides (ih clean.2.2) c text junk' clean'
    exact ⟨b, (matchhere_star (Ne.symm clean.1) _ _).trans answer, means⟩
  | case5 c d re plain ih =>
    rw [List.mem_cons, not_or] at clean
    have rest := ih clean.2
    rw [List.mem_cons, not_or] at clean
    rw [items, if_neg plain]
    exact char_decides (Ne.symm clean.1) plain (fun both => clean.2.1 both.2.symm) rest

theorem matchLoop_decides {re : List Byte} (decides : Decides (matchhere re) P) :
    Decides (matchLoop re) fun text => ∃ front rest, text = front ++ rest ∧ P rest := by
  intro text junk clean
  induction text with
  | nil =>
    obtain ⟨b, answer, means⟩ := decides [] junk clean
    refine ⟨b, ?_, means.trans ⟨fun holds => ⟨[], [], rfl, holds⟩, ?_⟩⟩
    · rw [List.nil_append] at answer ⊢
      rw [matchLoop, answer]
      cases b <;> rfl
    · rintro ⟨front, rest, split, holds⟩
      rw [(List.append_eq_nil_iff.mp split.symm).2] at holds
      exact holds
  | cons t text ih =>
    obtain ⟨b, answer, means⟩ := decides (t :: text) junk clean
    rw [List.mem_cons, not_or] at clean
    rw [List.cons_append] at answer ⊢
    rw [matchLoop, answer]
    cases b with
    | true => exact ⟨true, rfl, iff_of_true rfl ⟨[], t :: text, rfl, means.mp rfl⟩⟩
    | false =>
      obtain ⟨b', answer', means'⟩ := ih clean.2
      refine ⟨b', ?_, means'.trans ⟨?_, ?_⟩⟩
      · rw [← answer']
        exact if_pos (Ne.symm clean.1)
      · rintro ⟨front, rest, rfl, holds⟩
        exact ⟨t :: front, rest, rfl, holds⟩
      · rintro ⟨front, rest, split, holds⟩
        cases front with
        | nil =>
          exact absurd (means.mpr (split ▸ holds)) Bool.false_ne_true
        | cons t' front => exact ⟨front, rest, (List.cons.inj split).2, holds⟩

/-- The pattern behind a leading `^`. -/
def body (re : List Byte) : List Byte := if re.head? = some (ch '^') then re.tail else re

/-- Some part of the text is a word of the pattern: a prefix behind `^`, a suffix before `$`. -/
def Matches (re text : List Byte) : Prop :=
  ∃ front word rest, text = front ++ word ++ rest ∧ word ∈ lang (items (body re)) ∧
    (re.head? = some (ch '^') → front = []) ∧ (Anchored (items (body re)) → rest = [])

theorem grepMatch_decides (re junk : List Byte) (pattern : 0 ∉ re) :
    Decides (grepMatch (re ++ 0 :: junk)) (Matches re) := by
  intro text junk' clean
  by_cases caret : re.head? = some (ch '^')
  · obtain ⟨re, rfl⟩ : ∃ rest, re = ch '^' :: rest := List.head?_eq_some_iff.mp caret
    rw [List.mem_cons, not_or] at pattern
    obtain ⟨b, answer, means⟩ := matchhere_decides re junk pattern.2 text junk' clean
    have entered : grepMatch (ch '^' :: re ++ 0 :: junk) (text ++ 0 :: junk') =
        matchhere (re ++ 0 :: junk) (text ++ 0 :: junk') := by
      rw [List.cons_append, grepMatch, if_pos rfl]
    refine ⟨b, entered.trans answer, means.trans ?_⟩
    have whole : body (ch '^' :: re) = re := if_pos rfl
    unfold Matches
    constructor
    · rintro ⟨word, rest, rfl, inside, last⟩
      exact ⟨[], word, rest, rfl, inside, fun _ => rfl, last⟩
    · rintro ⟨front, word, rest, rfl, inside, first, last⟩
      rw [first rfl]
      exact ⟨word, rest, rfl, inside, last⟩
  · obtain ⟨b, answer, means⟩ := matchLoop_decides (matchhere_decides re junk pattern) text junk' clean
    have whole : body re = re := if_neg caret
    refine ⟨b, ?_, means.trans ?_⟩
    · rw [← answer]
      cases re with
      | nil => rfl
      | cons c re => exact if_neg fun same => caret (congrArg some same)
    · unfold Matches
      rw [whole]
      constructor
      · rintro ⟨front, tail, rfl, word, rest, rfl, inside, last⟩
        exact ⟨front, word, rest, (List.append_assoc _ _ _).symm, inside, fun known => absurd known caret, last⟩
      · rintro ⟨front, word, rest, rfl, inside, -, last⟩
        exact ⟨front, word ++ rest, List.append_assoc _ _ _, word, rest, rfl, inside, last⟩

/-- `match` decides its pattern language, and never reads beyond the NUL of the pattern or of the
text. -/
theorem match_decides_pattern (re text junk junk' : List Byte) (pattern : 0 ∉ re) (clean : 0 ∉ text) :
    ∃ b, grepMatch (re ++ 0 :: junk) (text ++ 0 :: junk') = some b ∧ (b = true ↔ Matches re text) :=
  grepMatch_decides re junk pattern text junk' clean

/-- `^b*$` on a text of two bytes `b`. -/
theorem match_decides_pattern_stars :
    ∃ b, grepMatch ([ch '^', ch 'b', ch '*', ch '$'] ++ 0 :: []) ([ch 'b', ch 'b'] ++ 0 :: []) = some b ∧
      b = true ∧ (b = true ↔ Matches [ch '^', ch 'b', ch '*', ch '$'] [ch 'b', ch 'b']) := by
  obtain ⟨b, answer, means⟩ := match_decides_pattern [ch '^', ch 'b', ch '*', ch '$'] [ch 'b', ch 'b'] []
    [] (by decide) (by decide)
  have value : grepMatch ([ch '^', ch 'b', ch '*', ch '$'] ++ 0 :: []) ([ch 'b', ch 'b'] ++ 0 :: []) =
      some true := by decide
  exact ⟨b, answer, Option.some.inj (answer.symm.trans value), means⟩

end OsbKernel.Grep
