/-
Reading a word of a language off the front of a text.

`Reads L P text`: the text is a word of `L` and then a rest with `P`.
A backtracking matcher computes such a predicate piece by piece, and
there is one lemma for each way a language is put together.
-/
import Mathlib.Computability.Language

namespace Xv6FsServer.Lib

open Computability

variable {α : Type} {L M : Language α} {P : List α → Prop} {text : List α}

def Reads (L : Language α) (P : List α → Prop) (text : List α) : Prop :=
  ∃ u v, text = u ++ v ∧ u ∈ L ∧ P v

/-- The words of one letter from a class of letters. -/
def letter (p : α → Bool) : Language α := fun w => ∃ b, w = [b] ∧ p b = true

@[simp] theorem reads_one : Reads 1 P text ↔ P text := by
  simp [Reads]

theorem reads_add : Reads (L + M) P text ↔ Reads L P text ∨ Reads M P text := by
  simp only [Reads, Language.mem_add]
  grind

theorem reads_mul : Reads (L * M) P text ↔ Reads L (Reads M P) text := by
  constructor
  · rintro ⟨_, v, rfl, ⟨a, ha, b, hb, rfl⟩, hv⟩
    exact ⟨a, b ++ v, List.append_assoc a b v, ha, b, v, rfl, hb, hv⟩
  · rintro ⟨a, _, rfl, ha, b, v, rfl, hb, hv⟩
    exact ⟨a ++ b, v, (List.append_assoc a b v).symm,
      Language.append_mem_mul ha hb, hv⟩

/-- No word of the repetition is read, or one of `L` and then more. -/
theorem reads_kstar :
    Reads L∗ P text ↔ P text ∨ Reads L (Reads L∗ P) text := by
  conv_lhs => rw [← Language.one_add_self_mul_kstar_eq_kstar]
  rw [reads_add, reads_one, reads_mul]

@[simp] theorem reads_letter_nil {p : α → Bool} : ¬ Reads (letter p) P [] := by
  rintro ⟨_, v, he, ⟨b, rfl, _⟩, _⟩
  cases he

@[simp] theorem reads_letter_cons {p : α → Bool} {b : α} :
    Reads (letter p) P (b :: text) ↔ p b = true ∧ P text := by
  constructor
  · rintro ⟨_, v, he, ⟨c, rfl, hc⟩, hv⟩
    cases he
    exact ⟨hc, hv⟩
  · exact fun ⟨hb, hp⟩ => ⟨[b], text, rfl, ⟨b, rfl, hb⟩, hp⟩

end Xv6FsServer.Lib
