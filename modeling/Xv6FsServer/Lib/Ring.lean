/-
A ring of `cap` cells, read as the list that stands in it.

The reader is at the cell `r` and `n` cells are taken, so the list is the
`n` cells from `r` on, counted round the ring (`window`). A cell is filled
behind the last one and emptied at the first; positions may be kept modulo
any multiple of `cap`.
-/
import Mathlib.Data.List.Range
import Mathlib.Data.Nat.ModEq

namespace Xv6FsServer.Lib

open Function

variable {α : Type*} {cap r n : Nat} {data : Nat → α}

/-- The `n` cells from the cell `r` on. -/
def window (cap : Nat) (data : Nat → α) (r n : Nat) : List α :=
  (List.range n).map fun j => data ((r + j) % cap)

@[simp] theorem length_window : (window cap data r n).length = n := by
  simp [window]

/-- Fewer than `cap` steps round the ring lead to another cell. -/
theorem ring_ne {j : Nat} (hj : j < n) (hn : n < cap) :
    (r + j) % cap ≠ (r + n) % cap := by
  intro heq
  have hmod : j ≡ n [MOD cap] := Nat.ModEq.add_left_cancel' r heq
  have hjn : j % cap = n % cap := hmod
  rw [Nat.mod_eq_of_lt (by omega), Nat.mod_eq_of_lt hn] at hjn
  omega

theorem window_push (hn : n < cap) (x : α) :
    window cap (update data ((r + n) % cap) x) r (n + 1) = window cap data r n ++ [x] := by
  unfold window
  rw [List.range_succ, List.map_append, List.map_singleton, update_self]
  congr 1
  apply List.map_congr_left
  intro j hj
  exact update_of_ne (ring_ne (List.mem_range.mp hj) hn) ..

theorem window_pop :
    window cap data r (n + 1) = data (r % cap) :: window cap data (r + 1) n := by
  unfold window
  rw [List.range_succ_eq_map, List.map_cons, List.map_map]
  congr 1
  apply List.map_congr_left
  intro j _
  show data ((r + (j + 1)) % cap) = data ((r + 1 + j) % cap)
  rw [Nat.add_assoc, Nat.add_comm 1 j]

/-- The reader's position may be kept modulo a multiple of `cap`. -/
theorem window_mod {m : Nat} (h : cap ∣ m) :
    window cap data (r % m) n = window cap data r n := by
  apply List.map_congr_left
  intro j _
  have hr : r % m ≡ r [MOD cap] := (Nat.mod_modEq r m).of_dvd h
  exact congrArg data (hr.add_right j)

end Xv6FsServer.Lib
