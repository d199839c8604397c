/-
Trees of nodes that point at each other by index.

A store `child` gives the node that slot `i` of node `p` points at. The tree
of height `l` under a root is read off the store, level by level; `width`
says how many slots of a node count at each height, and height 0 is a leaf.
`below` lists the nodes of a tree, each after all that hang under it, so it
is also the order in which a recursive walk gives them up.

Where no node is listed twice, a slot can be reached in one way only, and a
change of one slot exchanges the subtree that hung there for the one that
hangs there now (`count_set`, `follow_set`).
-/
import Xv6FsServer.Lib.Tally
import Mathlib.Data.List.Count
import Mathlib.Data.List.Nodup
import Mathlib.Algebra.BigOperators.Group.List.Basic

namespace Xv6FsServer.Lib

open Finset Function

variable {child child' : Nat → Nat → Option Nat} {width : Nat → Nat}
variable {l k p q r i x : Nat} {path : List Nat} {v : Option Nat}
variable {path' : List Nat}

/-- The nodes of the tree of height `l` under `p`. -/
def below (child : Nat → Nat → Option Nat) (width : Nat → Nat) : Nat → Nat → List Nat
  | 0, p => [p]
  | l + 1, p =>
    ((List.range (width l)).flatMap fun i =>
      (child p i).elim [] (below child width l)) ++ [p]

/-- The nodes under a slot. -/
def hanging (child : Nat → Nat → Option Nat) (width : Nat → Nat) (l : Nat)
    (v : Option Nat) : List Nat :=
  v.elim [] (below child width l)

@[simp] theorem hanging_none : hanging child width l none = [] := rfl

@[simp] theorem hanging_some : hanging child width l (some q) = below child width l q :=
  rfl

theorem below_succ : below child width (l + 1) p
    = (List.range (width l)).flatMap (fun i => hanging child width l (child p i)) ++ [p] :=
  rfl

theorem self_mem_below (l p : Nat) : p ∈ below child width l p := by
  cases l with
  | zero => exact List.mem_singleton_self p
  | succ l => exact List.mem_append_right _ (List.mem_singleton_self p)

theorem mem_below_of_child (hi : i < width l) (hq : child p i = some q)
    (hx : x ∈ below child width l q) : x ∈ below child width (l + 1) p := by
  rw [below_succ]
  refine List.mem_append_left _ (List.mem_flatMap.mpr ⟨i, List.mem_range.mpr hi, ?_⟩)
  rw [hq]
  exact hx

/-- The nodes of a tree that are no leaves. -/
def inner (child : Nat → Nat → Option Nat) (width : Nat → Nat) : Nat → Nat → List Nat
  | 0, _ => []
  | l + 1, p =>
    ((List.range (width l)).flatMap fun i =>
      (child p i).elim [] (inner child width l)) ++ [p]

theorem inner_subset : inner child width l p ⊆ below child width l p := by
  induction l generalizing p with
  | zero => exact List.nil_subset _
  | succ l ih =>
    intro x hx
    rcases List.mem_append.mp hx with hx | hx
    · obtain ⟨i, hi, hx⟩ := List.mem_flatMap.mp hx
      cases hq : child p i with
      | none =>
        rw [hq] at hx
        cases hx
      | some q =>
        rw [hq] at hx
        exact mem_below_of_child (List.mem_range.mp hi) hq (ih hx)
    · exact List.mem_append_right _ hx

/-- A tree is read from its inner nodes. -/
theorem below_congr (h : ∀ q ∈ inner child width l p, child' q = child q) :
    below child' width l p = below child width l p := by
  induction l generalizing p with
  | zero => rfl
  | succ l ih =>
    have hself : child' p = child p :=
      h p (List.mem_append_right _ (List.mem_singleton_self p))
    rw [below_succ, below_succ, hself]
    congr 1
    apply List.flatMap_congr
    intro i hi
    cases hq : child p i with
    | none => rfl
    | some q =>
      apply ih
      intro x hx
      refine h x (List.mem_append_left _ (List.mem_flatMap.mpr ⟨i, hi, ?_⟩))
      rw [hq]
      exact hx

/-- The slots of a node share out what hangs under it. -/
theorem count_below_succ (x : Nat) : (below child width (l + 1) p).count x
    = ∑ i ∈ range (width l), (hanging child width l (child p i)).count x
      + if p = x then 1 else 0 := by
  rw [below_succ, List.count_append, List.count_flatMap, List.count_singleton]
  congr 1
  simp

/-- Where nothing is listed twice, a slot's nodes are not the root's, nor
another slot's. -/
theorem hanging_disjoint (hn : (below child width (l + 1) p).Nodup) (hi : i < width l)
    (hx : x ∈ hanging child width l (child p i)) :
    x ≠ p ∧ ∀ j, j < width l → j ≠ i → x ∉ hanging child width l (child p j) := by
  have hone := List.nodup_iff_count_le_one.mp hn x
  rw [count_below_succ] at hone
  have hpos : 0 < (hanging child width l (child p i)).count x := List.count_pos_iff.mpr hx
  have hle := single_le_sum
    (f := fun j => (hanging child width l (child p j)).count x)
    (fun _ _ => Nat.zero_le _) (mem_range.mpr hi)
  refine ⟨fun heq => ?_, fun j hj hne hmem => ?_⟩
  · rw [if_pos heq.symm] at hone
    omega
  · have hpair := pair_le_sum (fun j => (hanging child width l (child p j)).count x)
      (mem_range.mpr hi) (mem_range.mpr hj) hne
    have hmem : 0 < (hanging child width l (child p j)).count x :=
      List.count_pos_iff.mpr hmem
    omega

theorem nodup_of_child (hn : (below child width (l + 1) p).Nodup) (hi : i < width l)
    (hq : child p i = some q) : (below child width l q).Nodup := by
  rw [List.nodup_iff_count_le_one]
  intro x
  have hone := List.nodup_iff_count_le_one.mp hn x
  rw [count_below_succ] at hone
  have hle := single_le_sum
    (f := fun j => (hanging child width l (child p j)).count x)
    (fun _ _ => Nat.zero_le _) (mem_range.mpr hi)
  rw [hq] at hle
  exact Nat.le_trans hle (by omega)

-- ==== paths

/-- The node at the end of a path of slots. -/
def follow (child : Nat → Nat → Option Nat) : Nat → List Nat → Option Nat
  | p, [] => some p
  | p, i :: path => (child p i).bind fun q => follow child q path

/-- The slots of the path count, in a tree of height `l`. -/
def Fitting (width : Nat → Nat) : Nat → List Nat → Prop
  | _, [] => True
  | 0, _ :: _ => False
  | l + 1, i :: path => i < width l ∧ Fitting width l path

theorem fitting_nil (l : Nat) : Fitting width l [] := by
  cases l <;> exact trivial

theorem follow_cons (h : follow child p (i :: path) = some q) :
    ∃ r, child p i = some r ∧ follow child r path = some q :=
  Option.bind_eq_some_iff.mp h

theorem follow_append : follow child p (path ++ path')
    = (follow child p path).bind fun q => follow child q path' := by
  induction path generalizing p with
  | nil => rfl
  | cons i path ih =>
    show (child p i).bind _ = ((child p i).bind _).bind _
    cases child p i with
    | none => rfl
    | some r => exact ih

/-- A node at the end of a path is in the tree. -/
theorem mem_of_fitting (hfit : Fitting width l path) (h : follow child p path = some q) :
    q ∈ below child width l p := by
  induction path generalizing l p with
  | nil =>
    cases h
    exact self_mem_below ..
  | cons i path ih =>
    cases l with
    | zero => exact absurd hfit id
    | succ l =>
      obtain ⟨r, hr, hrest⟩ := follow_cons h
      exact mem_below_of_child hfit.1 hr (ih hfit.2 hrest)

/-- Where nothing is listed twice, a node is at the end of one path only. -/
theorem follow_inj (hn : (below child width l p).Nodup) (hfit : Fitting width l path)
    (hfit' : Fitting width l path') (h : follow child p path = some q)
    (h' : follow child p path' = some q) :
    path = path' := by
  -- a path that leaves the root does not come back to it
  have hoff : ∀ {l p i path}, (below child width l p).Nodup →
      Fitting width l (i :: path) → follow child p (i :: path) ≠ some p := by
    intro l p i path hn hfit h
    cases l with
    | zero => exact hfit
    | succ l =>
      obtain ⟨r, hr, hrest⟩ := follow_cons h
      have hmem : p ∈ hanging child width l (child p i) := by
        rw [hr]
        exact mem_of_fitting hfit.2 hrest
      exact (hanging_disjoint hn hfit.1 hmem).1 rfl
  induction path generalizing l p path' with
  | nil =>
    cases h
    cases path' with
    | nil => rfl
    | cons j path' => exact absurd h' (hoff hn hfit')
  | cons i path ih =>
    cases path' with
    | nil =>
      cases h'
      exact absurd h (hoff hn hfit)
    | cons j path' =>
      cases l with
      | zero => exact absurd hfit id
      | succ l =>
        obtain ⟨r, hr, hrest⟩ := follow_cons h
        obtain ⟨r', hr', hrest'⟩ := follow_cons h'
        have hmem : q ∈ hanging child width l (child p i) := by
          rw [hr]
          exact mem_of_fitting hfit.2 hrest
        have hmem' : q ∈ hanging child width l (child p j) := by
          rw [hr']
          exact mem_of_fitting hfit'.2 hrest'
        have hij : j = i := by
          by_contra hne
          exact (hanging_disjoint hn hfit.1 hmem).2 j hfit'.1 hne hmem'
        subst hij
        cases hr.symm.trans hr'
        rw [ih (nodup_of_child hn hfit.1 hr) hfit.2 hfit'.2 hrest hrest']

/-- A path leads where it led if the inner nodes are as they were. -/
theorem follow_of_inner (h : ∀ q ∈ inner child width l p, child' q = child q)
    (hfit : Fitting width l path) : follow child' p path = follow child p path := by
  induction path generalizing l p with
  | nil => rfl
  | cons i path ih =>
    cases l with
    | zero => exact absurd hfit id
    | succ l =>
      have hself : child' p = child p :=
        h p (List.mem_append_right _ (List.mem_singleton_self p))
      show (child' p i).bind _ = (child p i).bind _
      rw [hself]
      cases hq : child p i with
      | none => rfl
      | some q =>
        refine ih (fun x hx => ?_) hfit.2
        refine h x (List.mem_append_left _ (List.mem_flatMap.mpr
          ⟨i, List.mem_range.mpr hfit.1, ?_⟩))
        rw [hq]
        exact hx

-- ==== leaves

/-- The nodes of a tree at height 0. -/
def leaves (child : Nat → Nat → Option Nat) (width : Nat → Nat) : Nat → Nat → List Nat
  | 0, p => [p]
  | l + 1, p =>
    (List.range (width l)).flatMap fun i => (child p i).elim [] (leaves child width l)

/-- A node is listed as an inner node or as a leaf. -/
theorem count_inner_add_leaves (x : Nat) :
    (inner child width l p).count x + (leaves child width l p).count x
      = (below child width l p).count x := by
  induction l generalizing p with
  | zero => simp [inner, leaves, below]
  | succ l ih =>
    rw [inner, leaves, below, List.count_append, List.count_append,
      Nat.add_right_comm, List.count_flatMap, List.count_flatMap, List.count_flatMap]
    congr 1
    rw [← List.sum_map_add]
    congr 1
    apply List.map_congr_left
    intro i _
    cases hq : child p i with
    | none => simp [hq]
    | some q => simpa [hq] using ih

theorem mem_leaves (hfit : Fitting width l path) (hlen : path.length = l)
    (h : follow child p path = some q) : q ∈ leaves child width l p := by
  induction path generalizing l p with
  | nil =>
    cases h
    cases hlen
    exact List.mem_singleton_self _
  | cons i path ih =>
    cases l with
    | zero => exact absurd hfit id
    | succ l =>
      obtain ⟨r, hr, hrest⟩ := follow_cons h
      refine List.mem_flatMap.mpr ⟨i, List.mem_range.mpr hfit.1, ?_⟩
      rw [hr]
      exact ih hfit.2 (Nat.succ.inj hlen) hrest

/-- Where nothing is listed twice, no leaf is an inner node. -/
theorem leaf_not_mem_inner (hn : (below child width l p).Nodup)
    (h : q ∈ leaves child width l p) : q ∉ inner child width l p := by
  intro hq
  have hone := List.nodup_iff_count_le_one.mp hn q
  rw [← count_inner_add_leaves] at hone
  have hin := List.count_pos_iff.mpr hq
  have hout := List.count_pos_iff.mpr h
  omega

-- ==== one slot changes

/-- The store with `v` in slot `i` of node `q`. -/
def setSlot (child : Nat → Nat → Option Nat) (q i : Nat) (v : Option Nat) :
    Nat → Nat → Option Nat :=
  update child q (update (child q) i v)

theorem hanging_setSlot {w : Option Nat} (h : q ∉ hanging child width l w) :
    hanging (setSlot child q i v) width l w = hanging child width l w := by
  cases w with
  | none => rfl
  | some r =>
    apply below_congr
    intro x hx
    apply update_of_ne
    rintro rfl
    exact h (inner_subset hx)

/-- The subtree that hung at a slot is exchanged for the one put there. -/
theorem count_set (hn : (below child width (path.length + (k + 1)) p).Nodup)
    (hfit : Fitting width (path.length + (k + 1)) path)
    (hq : follow child p path = some q) (hi : i < width k)
    (hv : q ∉ hanging child width k v) (x : Nat) :
    (below (setSlot child q i v) width (path.length + (k + 1)) p).count x
        + (hanging child width k (child q i)).count x
      = (below child width (path.length + (k + 1)) p).count x
        + (hanging child width k v).count x := by
  induction path generalizing p with
  | nil =>
    obtain rfl : p = q := Option.some.inj hq
    rw [List.length_nil, Nat.zero_add] at hn ⊢
    have hsum := sum_exchange (mem_range.mpr hi)
      (g := fun j => (hanging (setSlot child p i v) width k
        (setSlot child p i v p j)).count x)
      (h := fun j => (hanging child width k (child p j)).count x) (by
        intro j hj hne
        have hp : p ∉ hanging child width k (child p j) := fun hmem =>
          (hanging_disjoint hn (mem_range.mp hj) hmem).1 rfl
        rw [show setSlot child p i v p j = child p j by
          simp [setSlot, hne], hanging_setSlot hp])
    have hself : hanging (setSlot child p i v) width k (setSlot child p i v p i)
        = hanging child width k v := by
      rw [show setSlot child p i v p i = v by simp [setSlot]]
      exact hanging_setSlot hv
    rw [hself] at hsum
    rw [count_below_succ, count_below_succ]
    omega
  | cons j path ih =>
    obtain ⟨r, hr, hrest⟩ := follow_cons hq
    rw [List.length_cons, Nat.add_right_comm] at hn hfit ⊢
    have hmem : q ∈ hanging child width (path.length + (k + 1)) (child p j) := by
      rw [hr]
      exact mem_of_fitting hfit.2 hrest
    obtain ⟨hqp, hothers⟩ := hanging_disjoint hn hfit.1 hmem
    have hroot : setSlot child q i v p = child p := update_of_ne (Ne.symm hqp) ..
    have hsum := sum_exchange (mem_range.mpr hfit.1)
      (g := fun j => (hanging (setSlot child q i v) width (path.length + (k + 1))
        (child p j)).count x)
      (h := fun j => (hanging child width (path.length + (k + 1)) (child p j)).count x)
      (by
        intro j' hj' hne
        rw [hanging_setSlot (hothers j' (mem_range.mp hj') hne)])
    have hstep := ih (nodup_of_child hn hfit.1 hr) hfit.2 hrest
    rw [hr, hanging_some, hanging_some] at hsum
    rw [count_below_succ, count_below_succ, hroot]
    omega

/-- A path leads where it led if the slots on its way are as they were. -/
theorem follow_congr (h : ∀ a j b r, path = a ++ j :: b → follow child p a = some r →
    child' r j = child r j) : follow child' p path = follow child p path := by
  induction path generalizing p with
  | nil => rfl
  | cons j path ih =>
    show (child' p j).bind _ = (child p j).bind _
    rw [h [] j path p rfl rfl]
    cases hr : child p j with
    | none => rfl
    | some r =>
      apply ih
      intro a j' b r' hpath hr'
      refine h (j :: a) j' b r' (by rw [hpath]; rfl) ?_
      show (child p j).bind _ = _
      rw [hr]
      exact hr'

theorem Fitting.left (h : Fitting width l (path ++ path')) : Fitting width l path := by
  induction path generalizing l with
  | nil => exact fitting_nil l
  | cons i path ih =>
    cases l with
    | zero => exact absurd h id
    | succ l => exact ⟨h.1, ih h.2⟩

/-- Paths that do not go through the slot lead where they led. -/
theorem follow_set_of_apart (hn : (below child width l p).Nodup)
    (hfit : Fitting width l path) (hq : follow child p path = some q)
    (hfit' : Fitting width l path') (hoff : ¬ (path ++ [i]) <+: path') :
    follow (setSlot child q i v) p path' = follow child p path' := by
  apply follow_congr
  rintro a j b r rfl hr
  unfold setSlot
  by_cases hrq : r = q
  · subst hrq
    have ha : path = a := follow_inj hn hfit hfit'.left hq hr
    subst ha
    rw [update_self]
    apply update_of_ne
    rintro rfl
    exact hoff ⟨b, by simp⟩
  · rw [update_of_ne hrq]

/-- A path through the slot goes on in what was put there. -/
theorem follow_set_self (hn : (below child width l p).Nodup) (hfit : Fitting width l path)
    (hq : follow child p path = some q) (hv : ∀ a j b r, path' = a ++ j :: b →
      (v.bind fun w => follow child w a) = some r → r ≠ q) :
    follow (setSlot child q i v) p (path ++ i :: path')
      = v.bind fun r => follow child r path' := by
  have hway : follow (setSlot child q i v) p path = some q := by
    rw [follow_set_of_apart hn hfit hq hfit, hq]
    intro hpre
    have hlen := hpre.length_le
    rw [List.length_append, List.length_singleton] at hlen
    omega
  rw [follow_append, hway]
  show (setSlot child q i v q i).bind _ = _
  rw [show setSlot child q i v q i = v by simp [setSlot]]
  cases v with
  | none => rfl
  | some w =>
    apply follow_congr
    intro a j b r hpath hr
    unfold setSlot
    rw [update_of_ne (hv a j b r hpath hr)]

end Xv6FsServer.Lib
