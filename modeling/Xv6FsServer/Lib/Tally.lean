/-
Sums over a table, and what a change of one entry does to them.

A table that is counted is a function on the naturals of which the first
`n` entries matter. `copies` counts the entries of a table of pointers that
point at a given place.
-/
import Mathlib.Algebra.BigOperators.Group.Finset.Basic
import Mathlib.Algebra.Order.BigOperators.Group.Finset

namespace Xv6FsServer.Lib

open Finset Function

variable {i : Nat}
variable {s : Finset Nat} {n : Nat} {ofile : Nat → Option Nat}

/-- What the new entry has in common with the old. -/
theorem update_proj {α β γ : Type*} [DecidableEq α] {T : α → β} {i : α} {v : β}
    (f : β → γ) (h : f v = f (T i)) (j : α) : f (update T i v j) = f (T j) := by
  by_cases hj : j = i
  · subst hj
    rw [update_self, h]
  · rw [update_of_ne hj]

/-- An entry that is found is the new one, or was there. -/
theorem update_some {α β : Type*} [DecidableEq α] {T : α → Option β} {i j : α}
    {v : Option β} {b : β} (h : update T i v j = some b) :
    (j = i ∧ v = some b) ∨ (j ≠ i ∧ T j = some b) := by
  by_cases hj : j = i
  · subst hj
    rw [update_self] at h
    exact Or.inl ⟨rfl, h⟩
  · rw [update_of_ne hj] at h
    exact Or.inr ⟨hj, h⟩

/-- Two sums that differ at one place. -/
theorem sum_exchange (hi : i ∈ s) {g h : Nat → Nat}
    (heq : ∀ j ∈ s, j ≠ i → g j = h j) : ∑ j ∈ s, g j + h i = ∑ j ∈ s, h j + g i := by
  have hrest : ∑ j ∈ s.erase i, g j = ∑ j ∈ s.erase i, h j := by
    apply sum_congr rfl
    intro j hj
    exact heq j (mem_of_mem_erase hj) (ne_of_mem_erase hj)
  rw [← add_sum_erase s g hi, ← add_sum_erase s h hi, hrest]
  omega

/-- Two places of a sum. -/
theorem pair_le_sum (g : Nat → Nat) {j : Nat} (hi : i ∈ s) (hj : j ∈ s)
    (hne : j ≠ i) : g i + g j ≤ ∑ a ∈ s, g a := by
  have hle := single_le_sum (f := g) (fun _ _ => Nat.zero_le _) (mem_erase.mpr ⟨hne, hj⟩)
  rw [← add_sum_erase s g hi]
  omega

/-- A sum over a table after one entry has changed. -/
theorem sum_update {α : Type*} (T : Nat → α) (g : α → Nat) (hi : i < n) (v : α) :
    ∑ j ∈ range n, g (update T i v j) + g (T i) = ∑ j ∈ range n, g (T j) + g v := by
  have h := sum_exchange (mem_range.mpr hi) (g := fun j => g (update T i v j))
    (h := fun j => g (T j)) (by
      intro j _ hj
      rw [update_of_ne hj])
  rw [update_self] at h
  exact h

/-- The entries among the first `n` of a table of pointers that point at
`f`. -/
def copies (ofile : Nat → Option Nat) (n f : Nat) : Nat :=
  ∑ i ∈ range n, if ofile i = some f then 1 else 0

theorem copies_succ (ofile : Nat → Option Nat) (n f : Nat) :
    copies ofile (n + 1) f = copies ofile n f + if ofile n = some f then 1 else 0 :=
  sum_range_succ ..

theorem copies_none (h : ∀ i, ofile i = none) (f : Nat) : copies ofile n f = 0 := by
  apply sum_eq_zero
  intro i _
  rw [h i]
  rfl

theorem copies_pos {f : Nat} (hi : i < n)
    (h : ofile i = some f) : 0 < copies ofile n f := by
  have hle : (if ofile i = some f then 1 else 0) ≤ copies ofile n f :=
    single_le_sum (f := fun i => if ofile i = some f then 1 else 0)
      (fun _ _ => Nat.zero_le _) (mem_range.mpr hi)
  rw [if_pos h] at hle
  exact hle

theorem copies_update (ofile : Nat → Option Nat) (hi : i < n) (v : Option Nat)
    (f : Nat) :
    copies (update ofile i v) n f + (if ofile i = some f then 1 else 0)
      = copies ofile n f + if v = some f then 1 else 0 :=
  sum_update ofile (fun o => if o = some f then 1 else 0) hi v

end Xv6FsServer.Lib
