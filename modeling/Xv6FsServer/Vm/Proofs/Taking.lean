/-
Whole tables: made by `setupkvm` and `copyuvm`, given back by `freevm`.

`Gives s t L` is the way back from `Takes s t L`: the pages `L` are on the free
list, and no other page has been written.
-/
import Xv6FsServer.Vm.Proofs.Spaces

namespace Xv6FsServer.Vm

open Lib Function Meets

variable {s t u : Mem} {r d n sz page x : Nat} {H L L' : List Nat}
variable {l p i : Nat} {free : Nat → Op Unit}

structure Gives (s t : Mem) (L : List Nat) : Prop where
  free : t.freelist = L.reverse ++ s.freelist
  frame : ∀ q, q ∉ L → t.entry q = s.entry q
  endPage : t.endPage = s.endPage
  kpdpt : t.kpdpt = s.kpdpt

/-- No page is on the free list twice. -/
structure Stock (s : Mem) : Prop where
  kernel : 0 < s.endPage
  once : ∀ x, s.freelist.count x ≤ if s.endPage ≤ x ∧ x < physPages then 1 else 0

theorem Sound.stock (h : Sound r H s) : Stock s where
  kernel := h.kernel
  once x := Nat.le_trans (by unfold bag; omega) (h.once x)

theorem Takes.stock (h : Takes s t L) (hs : Stock s) : Stock t where
  kernel := by
    rw [h.endPage]
    exact hs.kernel
  once x := by
    have hbal := h.bal x
    rw [h.endPage]
    exact Nat.le_trans (by omega) (hs.once x)

theorem Takes.trans (h : Takes s t L) (h' : Takes t u L') : Takes s u (L ++ L') where
  bal x := by
    have hbal := h.bal x
    have hbal' := h'.bal x
    rw [List.count_append]
    omega
  frame q hq0 hq := (h'.frame q hq0 (mt h.free hq)).trans (h.frame q hq0 hq)
  endPage := h'.endPage.trans h.endPage
  kpdpt := h'.kpdpt.trans h.kpdpt

/-- A table that was taken is in order. -/
theorem Takes.sound (h : Takes s t (tree t d)) (hs : Stock s) : Sound d [] t where
  kernel := (h.stock hs).kernel
  once x := by
    have hbal := h.bal x
    rw [h.endPage]
    refine Nat.le_trans ?_ (hs.once x)
    unfold bag
    rw [List.count_nil]
    omega

/-- What is done to a table that was taken comes to more being taken. -/
theorem Takes.moves (h : Takes s t (tree t d)) (hm : Moves d [] [] t u) :
    Takes s u (tree u d) where
  bal x := by
    have hbal := h.bal x
    have hmoved := hm.bal x
    unfold bag at hmoved
    omega
  frame q hq0 hq := by
    have hnone : bag t d [] q = 0 := by
      have hbal := h.bal q
      rw [List.count_eq_zero.mpr hq] at hbal
      unfold bag
      rw [List.count_nil]
      omega
    exact (hm.frame q hq0 hnone).trans (h.frame q hq0 hq)
  endPage := hm.endPage.trans h.endPage
  kpdpt := hm.kpdpt.trans h.kpdpt

/-- A PML4 with nothing in its lower half. -/
theorem tree_of_empty (h : ∀ i, i < 256 → s.entry d i = none) : tree s d = [d] := by
  unfold tree
  rw [below_succ]
  have hnone : ∀ i ∈ List.range (widths 3),
      hanging (children s) widths 3 (children s d i) = [] := by
    intro i hi
    unfold children
    rw [h i (List.mem_range.mp hi)]
    rfl
  rw [List.flatMap_eq_nil_iff.mpr hnone]
  rfl

theorem gone_of_empty (h : ∀ i, i < 256 → s.entry d i = none) : Gone s d := by
  intro va hva
  show (children s d (pmx va)).bind _ = none
  unfold children
  rw [h _ (fitting_path hva).1]
  rfl

/-- The table that `setupkvm` makes: nothing is mapped in it, and the one entry
of its upper half is the kernel's. -/
theorem setupkvm_spec (s : Mem) :
    Safe Full setupkvm s fun d t => Takes s t (tree t d) ∧ Gone t d
      ∧ ∀ i, 256 < i → t.entry d i = none := by
  unfold setupkvm
  refine (kallocZeroed_takes s).seq fun d t ⟨htakes, hfree, hentry⟩ => ?_
  apply get_bind
  apply modify_bind
  apply ret
  have hslots : ∀ i, i ≠ 256 →
      (t.set d 256 (some ⟨t.kpdpt, true, false⟩)).entry d i = none := by
    intro i hi
    show update t.entry d (update (t.entry d) 256 _) d i = none
    rw [update_self, update_of_ne hi, hentry, update_self]
  have hlow : ∀ i, i < 256 →
      (t.set d 256 (some ⟨t.kpdpt, true, false⟩)).entry d i = none :=
    fun i hi => hslots i (by omega)
  change Takes s (t.set d 256 _) (tree (t.set d 256 _) d) ∧ Gone (t.set d 256 _) d ∧ _
  rw [tree_of_empty hlow]
  exact ⟨htakes.write hfree, gone_of_empty hlow, fun i hi => hslots i (by omega)⟩

-- ==== fork

theorem copyPage_spec {va : Nat} (hs : Sound d H s) (hva : va < 2 ^ 47)
    (hsrc : (mapped s r va).isSome) (hdst : mapped s d va = none) :
    Safe Full (copyPage r d va) s fun _ t => Moves d H H s t ∧
      ∃ page, ∀ vb, vb < 2 ^ 47 → mapped t d vb
        = if vb / pgSize = va / pgSize then some page else mapped s d vb := by
  obtain ⟨y, hy⟩ := Option.isSome_iff_exists.mp hsrc
  rw [mapped_eq] at hy
  obtain ⟨pt, htable, hchild⟩ := Option.bind_eq_some_iff.mp hy
  obtain ⟨e, hentry, -⟩ := Option.map_eq_some_iff.mp hchild
  unfold copyPage
  apply Meets.bind
  refine lift ((walkpgdir_find s r va).mono fun v t hwalk => ?_)
  rw [hwalk.1, hwalk.2, htable]
  apply get_bind
  rw [hentry]
  refine (kalloc_takes s).seq fun page s1 hpage => ?_
  obtain ⟨htakes, hfree, -⟩ := hpage
  apply get_bind
  apply modify_bind
  have htaken : Takes s (s1.write page (s1.entry e.page)) [page] := htakes.write hfree
  have hm := htaken.hand hs
  refine (mappages_spec (hm.sound hs) hva ?_).mono fun _ t ht => ?_
  · rw [htaken.mapped hs hva]
    exact hdst
  · obtain ⟨hm2, hmap⟩ := ht
    refine ⟨hm.trans hm2, page, fun vb hvb => ?_⟩
    rw [hmap vb hvb, htaken.mapped hs hvb]

theorem copyuvmLoop_spec {s0 : Mem} {a : Nat} (hs : Sound d H s)
    (hsame : ∀ q ∈ nodes s0 r, s.entry q = s0.entry q)
    (hapart : ∀ q ∈ nodes s0 r, q ≠ 0 ∧ bag s d H q = 0)
    (hsrc : Covers s0 r (pages sz)) (hsz : sz < 2 ^ 32)
    (hcov : Covers s d (a / pgSize)) (ha : a % pgSize = 0) (hpos : 1 ≤ a / pgSize)
    (hn : sz ≤ a + n * pgSize) :
    Safe Full (copyuvmLoop r d n a sz) s fun _ t => Moves d H H s t ∧
      Covers t d (max (a / pgSize) (pages sz)) := by
  induction n generalizing s a with
  | zero => exact ret ⟨.refl d H s, hcov.enough (by omega) ha⟩
  | succ n ih =>
    unfold copyuvmLoop
    split
    · rename_i hlt
      have hva : a < 2 ^ 47 := by omega
      have hlast : a / pgSize < pages sz := by
        unfold pages pgSize at *
        omega
      refine (copyPage_spec hs hva ?_ (hcov.not_mapped hva (Nat.le_refl _))).seq ?_
      · rw [mapped_congr hsame hva]
        exact (hsrc a hva).mpr ⟨hpos, hlast⟩
      · intro _ s1 ⟨hm, page, hmap⟩
        have hnext : (a + pgSize) / pgSize = a / pgSize + 1 :=
          Nat.add_div_right a (by decide)
        have hcov1 : Covers s1 d ((a + pgSize) / pgSize) := by
          rw [hnext]
          exact hcov.extend hpos rfl hmap
        refine (ih (hm.sound hs) (fun q hq => ?_) (fun q hq => ?_) hcov1
          (by unfold pgSize at *; omega) (by omega)
          (by rw [Nat.succ_mul] at hn; omega)).mono ?_
        · rw [hm.frame q (hapart q hq).1 (hapart q hq).2]
          exact hsame q hq
        · rw [hm.bal]
          exact hapart q hq
        · intro _ t ⟨hm2, hcov2⟩
          rw [hnext, Nat.max_eq_right hlast] at hcov2
          rw [Nat.max_eq_right (Nat.le_of_lt hlast)]
          exact ⟨hm.trans hm2, hcov2⟩
    · exact ret ⟨.refl d H s, hcov.enough (by omega) ha⟩

/-- `copyuvm` makes a table with the same pages. -/
theorem copyuvm_spec (hs : Sound r H s) (h : Space s r sz) :
    Safe Full (copyuvm r sz) s fun d t => Takes s t (tree t d) ∧ Space t d sz := by
  have hlt := h.lt hs
  unfold copyuvm
  rw [Nat.mod_eq_of_lt (by omega)]
  refine (setupkvm_spec s).seq fun d t ⟨htakes, hgone, _⟩ => ?_
  apply Meets.bind
  have hd := htakes.sound hs.stock
  have hout : ∀ q ∈ nodes s r, q ≠ 0 ∧ q ∉ s.freelist := by
    intro q hq
    have hmem := nodes_subset hq
    have hrange := hs.range (mem_tree_bag (H := H) hmem)
    have hkernel := hs.kernel
    exact ⟨by omega, fun hfree => (hs.free_not_mem hfree).1 hmem⟩
  refine (copyuvmLoop_spec hd (fun q hq => ?_) (fun q hq => ⟨(hout q hq).1, ?_⟩)
    h.covers (by omega) hgone.covers (by decide) (by decide) ?_).mono ?_
  · exact htakes.frame q (hout q hq).1 (hout q hq).2
  · have hbal := htakes.bal q
    rw [List.count_eq_zero.mpr (hout q hq).2] at hbal
    unfold bag
    rw [List.count_nil]
    omega
  · unfold pgSize
    omega
  · intro _ u ⟨hm, hcov⟩
    rw [show pgSize / pgSize = 1 from rfl, Nat.max_eq_right (pages_pos h.pos)] at hcov
    exact ret ⟨htakes.moves hm, h.pos, hcov⟩

-- ==== freevm

theorem Gives.nil (s : Mem) : Gives s s [] := ⟨rfl, fun _ _ => rfl, rfl, rfl⟩

theorem Gives.trans (h : Gives s t L) (h' : Gives t u L') : Gives s u (L ++ L') where
  free := by
    rw [h'.free, h.free, List.reverse_append, List.append_assoc]
  frame q hq := by
    rw [List.mem_append, not_or] at hq
    exact (h'.frame q hq.2).trans (h.frame q hq.1)
  endPage := h'.endPage.trans h.endPage
  kpdpt := h'.kpdpt.trans h.kpdpt

/-- All pages of a list can be freed. -/
def Freeable (s : Mem) (L : List Nat) : Prop :=
  L.Nodup ∧ ∀ x ∈ L, s.endPage ≤ x ∧ x < physPages

theorem Freeable.left (h : Freeable s (L ++ L')) : Freeable s L :=
  ⟨(List.nodup_append.mp h.1).1, fun x hx => h.2 x (List.mem_append_left _ hx)⟩

/-- What is freed first does not take from the rest. -/
theorem Freeable.right (h : Freeable s (L ++ L')) (hg : Gives s t L) : Freeable t L' := by
  refine ⟨(List.nodup_append.mp h.1).2.1, fun x hx => ?_⟩
  rw [hg.endPage]
  exact h.2 x (List.mem_append_right _ hx)

/-- `free` gives back the tree of height `l` under a page. -/
def Frees (l : Nat) (free : Nat → Op Unit) : Prop :=
  ∀ s p, Freeable s (below (children s) widths l p) →
    Ends (free p) s fun _ t => Gives s t (below (children s) widths l p)

theorem kfree_gives : Frees 0 kfree := by
  intro s p h
  refine (kfree_spec (h.2 p (List.mem_singleton_self p))).mono fun _ t ht => ?_
  rw [ht]
  refine ⟨rfl, fun q hq => Mem.release_of_ne fun heq => hq ?_, rfl, rfl⟩
  exact heq ▸ List.mem_singleton_self q

/-- What hangs under the slots `[i, i + n)` of a table. -/
def under (s : Mem) (l p i n : Nat) : List Nat :=
  (List.range' i n).flatMap fun j => hanging (children s) widths l (children s p j)

theorem under_succ (s : Mem) (l p i n : Nat) : under s l p i (n + 1)
    = hanging (children s) widths l (children s p i) ++ under s l p (i + 1) n := rfl

/-- The slots of a table keep what hangs there when other pages are freed. -/
theorem under_congr (hg : Gives s t L) (hp : p ∉ L)
    (hout : ∀ x ∈ under s l p i n, x ∉ L) : under t l p i n = under s l p i n := by
  unfold under
  apply List.flatMap_congr
  intro j hj
  rw [children_eq (hg.frame p hp)]
  cases hq : children s p j with
  | none => rfl
  | some q =>
    apply below_congr
    intro x hx
    apply children_eq
    refine hg.frame x (hout x (List.mem_flatMap.mpr ⟨j, hj, ?_⟩))
    rw [hq]
    exact inner_subset hx

theorem freeEntries_spec (hfree : Frees l free)
    (h : Freeable s (under s l p i n ++ [p])) :
    Ends (freeEntries free p n i) s fun _ t => Gives s t (under s l p i n) := by
  induction n generalizing s i with
  | zero => exact ret (.nil s)
  | succ n ih =>
    rw [under_succ] at h ⊢
    unfold freeEntries
    apply get_bind
    cases he : s.entry p i with
    | none =>
      have hnone : children s p i = none := by
        unfold children
        rw [he]
        rfl
      rw [hnone] at h ⊢
      exact ih h
    | some e =>
      have hsome : children s p i = some e.page := by
        unfold children
        rw [he]
        rfl
      rw [hsome, hanging_some] at h ⊢
      rw [List.append_assoc] at h
      refine (hfree s e.page h.left).seq fun _ t hg => ?_
      -- the subtree that went was apart from the table and its other slots
      have hdis : ∀ x, x ∈ below (children s) widths l e.page →
          x ∉ under s l p (i + 1) n ++ [p] := fun x hx hx' =>
        List.disjoint_of_nodup_append h.1 hx hx'
      have hp : p ∉ below (children s) widths l e.page := fun hmem =>
        hdis p hmem (List.mem_append_right _ (List.mem_singleton_self p))
      have hunder : under t l p (i + 1) n = under s l p (i + 1) n :=
        under_congr hg hp fun x hx hmem => hdis x hmem (List.mem_append_left _ hx)
      have hrest := h.right hg
      rw [← hunder] at hrest ⊢
      exact (ih hrest).mono fun _ u hg' => hg.trans hg'

theorem freeTable_gives (hfree : Frees l free) :
    Frees (l + 1) (freeTable free (widths l)) := by
  intro s p h
  have hbelow : below (children s) widths (l + 1) p
      = under s l p 0 (widths l) ++ [p] := by
    rw [below_succ]
    unfold under
    rw [List.range_eq_range']
  rw [hbelow] at h ⊢
  unfold freeTable
  refine (freeEntries_spec hfree h).seq fun _ t hg => ?_
  exact (kfree_gives t p (h.right hg)).mono fun _ u hg' => hg.trans hg'

theorem freevm_gives : Frees 4 freevm :=
  freeTable_gives (freeTable_gives (freeTable_gives (freeTable_gives kfree_gives)))

theorem Sound.freeable (h : Sound r H s) : Freeable s (tree s r) :=
  ⟨h.nodup, fun _ hx => h.range (mem_tree_bag (H := H) hx)⟩

end Xv6FsServer.Vm
