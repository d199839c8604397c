/-
The two scans of a C array: upwards with a start, and downwards.

Both return the first index that passes a test, and each has one lemma
for what it found and one for what it did not find.
-/
import Mathlib.Logic.Basic

namespace Xv6FsServer.Lib

variable {i n k : Nat}

/-- `for(k = i; k < i + n; k++) if(p(k)) return k;`. -/
def first (p : Nat → Bool) : Nat → Nat → Option Nat
  | _, 0 => none
  | i, n + 1 => if p i then some i else first p (i + 1) n

/-- `for(k = n - 1; k >= 0; k--) if(p(k)) return k;`. -/
def last (p : Nat → Bool) : Nat → Option Nat
  | 0 => none
  | n + 1 => if p n then some n else last p n

variable {p : Nat → Bool}

theorem first_some (h : first p i n = some k) :
    i ≤ k ∧ k < i + n ∧ p k = true ∧ ∀ j, i ≤ j → j < k → p j = false := by
  induction n generalizing i with
  | zero => cases h
  | succ n ih =>
    unfold first at h
    split at h
    next hp =>
      cases h
      exact ⟨Nat.le_refl _, by omega, hp, fun j h1 h2 => by omega⟩
    next hp =>
      obtain ⟨h1, h2, h3, h4⟩ := ih h
      refine ⟨by omega, by omega, h3, ?_⟩
      intro j hj hk
      by_cases he : j = i
      · subst he
        exact Bool.eq_false_iff.mpr hp
      · exact h4 j (by omega) hk

theorem first_none (h : first p i n = none) :
    ∀ k, i ≤ k → k < i + n → p k = false := by
  induction n generalizing i with
  | zero => exact fun k h1 h2 => by omega
  | succ n ih =>
    unfold first at h
    split at h
    next => cases h
    next hp =>
      intro k h1 h2
      by_cases he : k = i
      · subst he
        exact Bool.eq_false_iff.mpr hp
      · exact ih h k (by omega) (by omega)

theorem first_congr {q : Nat → Bool}
    (h : ∀ k, i ≤ k → k < i + n → p k = q k) : first p i n = first q i n := by
  induction n generalizing i with
  | zero => rfl
  | succ n ih =>
    unfold first
    rw [h i (Nat.le_refl _) (by omega), ih fun k h1 h2 => h k (by omega) (by omega)]

/-- A scan in two parts. -/
theorem first_add (i m n : Nat) :
    first p i (m + n) = (first p i m).or (first p (i + m) n) := by
  induction m generalizing i with
  | zero => rw [Nat.zero_add, Nat.add_zero, first, Option.none_or]
  | succ m ih =>
    rw [show m + 1 + n = m + n + 1 by omega, first, first, ih,
      show i + 1 + m = i + (m + 1) by omega]
    split
    next => rfl
    next => rfl

/-- A scan relative to an offset. -/
theorem first_shift (b i n : Nat) :
    first p (b + i) n = (first (fun k => p (b + k)) i n).map (b + ·) := by
  induction n generalizing i with
  | zero => rfl
  | succ n ih =>
    rw [first, first, Nat.add_assoc, ih]
    split
    next => rfl
    next => rfl

theorem first_eq_find (i n : Nat) :
    first p i n = ((List.range n).map (i + ·)).find? p := by
  induction n generalizing i with
  | zero => rfl
  | succ n ih =>
    rw [first, ih, List.range_succ_eq_map, List.map_cons, List.map_map,
      List.find?_cons]
    have hmap : (fun k => i + 1 + k) = (fun k => i + k) ∘ Nat.succ := by
      funext k
      show i + 1 + k = i + (k + 1)
      omega
    rw [hmap, Nat.add_zero]
    cases p i with
    | true => rfl
    | false => rfl

theorem last_some (h : last p n = some k) : k < n ∧ p k = true := by
  induction n with
  | zero => cases h
  | succ n ih =>
    unfold last at h
    split at h
    next hp =>
      cases h
      exact ⟨by omega, hp⟩
    next =>
      obtain ⟨h1, h2⟩ := ih h
      exact ⟨by omega, h2⟩

theorem last_none (h : last p n = none) : ∀ k, k < n → p k = false := by
  induction n with
  | zero => exact fun k h1 => by omega
  | succ n ih =>
    unfold last at h
    split at h
    next => cases h
    next hp =>
      intro k hk
      by_cases he : k = n
      · subst he
        exact Bool.eq_false_iff.mpr hp
      · exact ih h k (by omega)

end Xv6FsServer.Lib
