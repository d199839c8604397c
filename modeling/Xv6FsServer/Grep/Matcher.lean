/-
grep's regular expression matcher (grep.c) and the language it decides.

A C string is the list of its bytes before the NUL, so `*text != '\0'` is
a case split on the list. `matchstar` is called with the pattern behind
the star, and takes `matchhere` of that pattern in its place: this makes
the recursion of the two functions structural in the pattern.
-/
import Xv6FsServer.Lib.Words

namespace Xv6FsServer.Grep

open Computability Lib

abbrev Str := List UInt8

def star : UInt8 := 42
def dot : UInt8 := 46
def caret : UInt8 := 94
def dollar : UInt8 := 36

-- ==== the matcher

/-- `c == '.' || c == b`. -/
def fits (c b : UInt8) : Bool := c == dot || c == b

/-- Tries `here` at the text, and again behind each byte that fits `c`. -/
def matchstar (here : Str → Bool) (c : UInt8) : Str → Bool
  | [] => here []
  | b :: text => here (b :: text) || fits c b && matchstar here c text

def matchhere : Str → Str → Bool
  | [] => fun _ => true
  | [c] => fun text =>
    if c = dollar then text.isEmpty
    else match text with
      | [] => false
      | b :: _ => fits c b
  | c :: d :: re => fun text =>
    if d = star then matchstar (matchhere re) c text
    else match text with
      | [] => false
      | b :: text => fits c b && matchhere (d :: re) text

/-- The `do … while(*text++ != '\0')` of `match`. -/
def search (re : Str) : Str → Bool
  | [] => matchhere re []
  | b :: text => matchhere re (b :: text) || search re text

/-- `match(re, text)`; the name itself is a keyword. -/
def matchre (re text : Str) : Bool :=
  if re.head? = some caret then matchhere re.tail text else search re text

-- ==== the language of a pattern

inductive Item where
  | one (c : UInt8)
  | many (c : UInt8)

/-- A pattern without its `^`, read from left to right: a byte and a `*`
are one item, and a `$` in the last place is none. -/
def items : Str → List Item
  | [] => []
  | [c] => if c = dollar then [] else [.one c]
  | c :: d :: re =>
    if d = star then .many c :: items re else .one c :: items (d :: re)

def Item.language : Item → Language UInt8
  | .one c => letter (fits c)
  | .many c => (letter (fits c))∗

def language (re : Str) : Language UInt8 :=
  ((items (if re.head? = some caret then re.tail else re)).map Item.language).prod

-- ==== matching at one place

/-- What must hold of the text behind a match. -/
def Ending (re rest : Str) : Prop := re.getLast? = some dollar → rest = []

theorem ending_cons {c : UInt8} {re : Str} (hc : c ≠ dollar) :
    Ending (c :: re) = Ending re := by
  funext rest
  rw [Ending, Ending, List.getLast?_cons]
  cases re.getLast? with
  | none => simp [hc]
  | some d => simp

theorem ending_cons_cons {c d : UInt8} {re : Str} :
    Ending (c :: d :: re) = Ending (d :: re) := by
  funext rest
  rw [Ending, List.getLast?_cons_cons, Ending]

theorem matchstar_iff {here : Str → Bool} {P : Str → Prop} {c : UInt8}
    (hhere : ∀ text, here text = true ↔ P text) (text : Str) :
    matchstar here c text = true ↔ Reads (letter (fits c))∗ P text := by
  induction text with
  | nil =>
    rw [matchstar, reads_kstar, hhere]
    simp
  | cons b text ih =>
    rw [matchstar, reads_kstar]
    simp [hhere, ih]

theorem matchhere_iff (re text : Str) : matchhere re text = true ↔
    Reads ((items re).map Item.language).prod (Ending re) text := by
  induction re using items.induct generalizing text with
  | case1 => simp [matchhere, items, Ending]
  | case2 => simp [matchhere, items, Ending]
  | case3 c hc =>
    cases text with
    | nil => simp [matchhere, items, Item.language, hc]
    | cons b text => simp [matchhere, items, Ending, Item.language, hc]
  | case4 c re ih =>
    have hending : Ending (c :: star :: re) = Ending re := by
      rw [ending_cons_cons, ending_cons (by decide)]
    simp [matchhere, items, hending, reads_mul, Item.language, matchstar_iff ih]
  | case5 c d re hd ih =>
    cases text with
    | nil => simp [matchhere, items, reads_mul, Item.language, hd]
    | cons b text =>
      simp [matchhere, items, ending_cons_cons, reads_mul, Item.language, hd, ih]

-- ==== matching anywhere

theorem search_iff (re text : Str) :
    search re text = true ↔ ∃ rest, rest <:+ text ∧ matchhere re rest = true := by
  induction text with
  | nil => simp [search]
  | cons b text ih => simp [search, ih, List.suffix_cons_iff, or_and_right, exists_or]

/-- grep's matcher finds exactly the texts with a substring in the
language of the pattern, at the front of the text under `^` and at its
end under `$`. -/
theorem matchre_iff (re text : Str) : matchre re text = true ↔
    ∃ before found after, text = before ++ (found ++ after) ∧
      found ∈ language re ∧ (re.head? = some caret → before = []) ∧
      (re.getLast? = some dollar → after = []) := by
  unfold matchre language
  split
  next hc =>
    obtain ⟨re, rfl⟩ : ∃ tail, re = caret :: tail := by
      cases re with
      | nil => cases hc
      | cons c re =>
        cases hc
        exact ⟨re, rfl⟩
    rw [List.tail_cons, matchhere_iff, ← ending_cons (c := caret) (by decide)]
    simp [Reads, Ending]
  next hc =>
    simp only [search_iff, matchhere_iff, Reads, Ending, hc]
    constructor
    · rintro ⟨_, ⟨before, rfl⟩, found, after, rfl, hfound, hafter⟩
      exact ⟨before, found, after, rfl, hfound, False.elim, hafter⟩
    · rintro ⟨before, found, after, rfl, hfound, -, hafter⟩
      exact ⟨found ++ after, ⟨before, rfl⟩, found, after, rfl, hfound, hafter⟩

end Xv6FsServer.Grep
