/-
Page tables as trees.

A PML4 is the root of a tree of height four whose leaves are the user pages;
of its slots only the lower half counts. What a routine does to one table is
said in terms of all the pages that table, the free list and the routine
itself hold (`bag`): `Moves r H H' s t` takes them from state `s`, with the
pages `H` in hand, to state `t`, with `H'` in hand, loses and doubles none,
and writes to no page but these.
-/
import Xv6FsServer.Lib.Radix
import Xv6FsServer.Vm.Model

namespace Xv6FsServer.Vm

open Lib Function List Meets

variable {s t u : Mem} {r q i k va page x : Nat} {H H' H'' L way : List Nat}
variable {vb : Nat} {contents : Nat → Option Pte} {e : Option Pte}

-- ==== the trees

/-- The pages the entries of a table name. -/
def children (s : Mem) (p i : Nat) : Option Nat := (s.entry p i).map Pte.page

/-- How many slots count in a table, by the height of what hangs there. -/
def widths (l : Nat) : Nat := if l = 3 then 256 else 512

/-- The page table nodes and user pages under a PML4. -/
def tree (s : Mem) (r : Nat) : List Nat := below (children s) widths 4 r

/-- Its page table nodes. -/
def nodes (s : Mem) (r : Nat) : List Nat := inner (children s) widths 4 r

/-- Its user pages. -/
def userPages (s : Mem) (r : Nat) : List Nat := leaves (children s) widths 4 r

def path (va : Nat) : List Nat := [pmx va, pdpx va, pdx va, ptx va]

/-- The page that `va` is mapped to. -/
def mapped (s : Mem) (r va : Nat) : Option Nat := follow (children s) r (path va)

theorem fitting_path (h : va < 2 ^ 47) : Fitting widths 4 (path va) := by
  have hp : va / 2 ^ 39 % 512 < 256 := by omega
  exact ⟨hp, Nat.mod_lt _ (by decide), Nat.mod_lt _ (by decide),
    Nat.mod_lt _ (by decide), trivial⟩

/-- Two addresses of one path are on one page. -/
theorem path_inj (ha : va < 2 ^ 47) (hb : vb < 2 ^ 47) (h : path va = path vb) :
    va / pgSize = vb / pgSize := by
  unfold path pmx pdpx pdx ptx at h
  simp only [cons.injEq, and_true] at h
  unfold pgSize
  omega

theorem path_congr (h : va / pgSize = vb / pgSize) : path va = path vb := by
  unfold pgSize at h
  unfold path pmx pdpx pdx ptx
  simp only [cons.injEq, and_true]
  omega

theorem lookup_page (h : va < 2 ^ 47) :
    (lookup s r va).map Pte.page = mapped s r va := by
  unfold lookup mapped path
  rw [if_neg (Nat.not_le.mpr h)]
  simp only [follow, children]
  cases s.entry r (pmx va) with
  | none => rfl
  | some e =>
    cases h2 : s.entry e.page (pdpx va) with
    | none => simp [h2]
    | some e2 =>
      cases h3 : s.entry e2.page (pdx va) with
      | none | some => simp [h2, h3]

theorem lookup_some {e : Pte} (h : lookup s r va = some e) :
    va < 2 ^ 47 ∧ mapped s r va = some e.page := by
  have hva : va < 2 ^ 47 := by
    by_contra hge
    unfold lookup at h
    rw [if_pos (Nat.not_lt.mp hge)] at h
    cases h
  have hmap := lookup_page (s := s) (r := r) hva
  rw [h] at hmap
  exact ⟨hva, hmap.symm⟩

theorem nodes_subset : nodes s r ⊆ tree s r := inner_subset

theorem root_mem_tree (s : Mem) (r : Nat) : r ∈ tree s r := self_mem_below 4 r

theorem root_mem_nodes (s : Mem) (r : Nat) : r ∈ nodes s r :=
  mem_append_right _ (mem_singleton_self r)

/-- A tree and its mapping are read from its page table nodes. -/
theorem children_eq (h : t.entry q = s.entry q) : children t q = children s q := by
  funext i
  unfold children
  rw [h]

theorem tree_congr (h : ∀ q ∈ nodes s r, t.entry q = s.entry q) :
    tree t r = tree s r :=
  below_congr fun q hq => children_eq (h q hq)

theorem mapped_congr (h : ∀ q ∈ nodes s r, t.entry q = s.entry q) (hva : va < 2 ^ 47) :
    mapped t r va = mapped s r va :=
  follow_of_inner (fun q hq => children_eq (h q hq)) (fitting_path hva)

theorem mapped_mem (hva : va < 2 ^ 47) (h : mapped s r va = some x) :
    x ∈ tree s r :=
  mem_of_fitting (fitting_path hva) h

theorem mapped_mem_userPages (hva : va < 2 ^ 47) (h : mapped s r va = some x) :
    x ∈ userPages s r :=
  mem_leaves (fitting_path hva) rfl h

theorem mapped_inj (hn : (tree s r).Nodup) (ha : va < 2 ^ 47) (hb : vb < 2 ^ 47)
    (hx : mapped s r va = some x) (hy : mapped s r vb = some x) :
    va / pgSize = vb / pgSize :=
  path_inj ha hb (follow_inj hn (fitting_path ha) (fitting_path hb) hx hy)

-- ==== changes of memory

/-- Memory with a page written. -/
def Mem.write (s : Mem) (page : Nat) (contents : Nat → Option Pte) : Mem :=
  { s with entry := update s.entry page contents }

/-- Memory with one entry written. -/
def Mem.set (s : Mem) (page i : Nat) (e : Option Pte) : Mem :=
  s.write page (update (s.entry page) i e)

theorem Mem.write_of_ne (h : q ≠ page) : (s.write page contents).entry q = s.entry q :=
  update_of_ne h ..

theorem Mem.set_of_ne (h : q ≠ page) : (s.set page i e).entry q = s.entry q :=
  update_of_ne h ..

theorem children_set (s : Mem) (q i : Nat) (e : Option Pte) :
    children (s.set q i e) = setSlot (children s) q i (e.map Pte.page) := by
  funext p j
  unfold children setSlot Mem.set Mem.write
  by_cases hp : p = q
  · subst hp
    by_cases hj : j = i
    · subst hj
      simp
    · simp [hj]
  · simp [hp]

-- ==== what moves pages

/-- How often a page is in a tree, on the free list or in hand. -/
def bag (s : Mem) (r : Nat) (H : List Nat) (x : Nat) : Nat :=
  (tree s r).count x + s.freelist.count x + H.count x

structure Moves (r : Nat) (H H' : List Nat) (s t : Mem) : Prop where
  bal : ∀ x, bag t r H' x = bag s r H x
  frame : ∀ q, q ≠ 0 → bag s r H q = 0 → t.entry q = s.entry q
  upper : ∀ i, 256 ≤ i → t.entry r i = s.entry r i
  endPage : t.endPage = s.endPage
  kpdpt : t.kpdpt = s.kpdpt

theorem Moves.refl (r : Nat) (H : List Nat) (s : Mem) : Moves r H H s s :=
  ⟨fun _ => rfl, fun _ _ _ => rfl, fun _ _ => rfl, rfl, rfl⟩

theorem Moves.trans (h : Moves r H H' s t) (h' : Moves r H' H'' t u) :
    Moves r H H'' s u where
  bal x := (h'.bal x).trans (h.bal x)
  frame q hq0 hq := by
    have ht : bag t r H' q = 0 := (h.bal q).trans hq
    exact (h'.frame q hq0 ht).trans (h.frame q hq0 hq)
  upper i hi := (h'.upper i hi).trans (h.upper i hi)
  endPage := h'.endPage.trans h.endPage
  kpdpt := h'.kpdpt.trans h.kpdpt

/-- No page is held twice, and only pages behind the kernel are. -/
structure Sound (r : Nat) (H : List Nat) (s : Mem) : Prop where
  kernel : 0 < s.endPage
  once : ∀ x, bag s r H x ≤ if s.endPage ≤ x ∧ x < physPages then 1 else 0

theorem Moves.sound (h : Moves r H H' s t) (hs : Sound r H s) : Sound r H' t where
  kernel := by
    rw [h.endPage]
    exact hs.kernel
  once x := by
    rw [h.bal, h.endPage]
    exact hs.once x

theorem Sound.le_one (h : Sound r H s) (x : Nat) : bag s r H x ≤ 1 := by
  have hx := h.once x
  split at hx
  · exact hx
  · exact Nat.le_trans hx (Nat.zero_le _)

theorem Sound.nodup (h : Sound r H s) : (tree s r).Nodup := by
  rw [nodup_iff_count_le_one]
  intro x
  have hx := h.le_one x
  unfold bag at hx
  omega

theorem Sound.range (h : Sound r H s) (hx : 0 < bag s r H x) :
    s.endPage ≤ x ∧ x < physPages := by
  have hone := h.once x
  split at hone
  · assumption
  · omega

theorem mem_tree_bag (hx : x ∈ tree s r) : 0 < bag s r H x := by
  have hpos := count_pos_iff.mpr hx
  unfold bag
  omega

theorem mem_free_bag (hx : x ∈ s.freelist) : 0 < bag s r H x := by
  have hpos := count_pos_iff.mpr hx
  unfold bag
  omega

/-- What is held in one place is not in another. -/
theorem Sound.free_not_mem (h : Sound r H s) (hx : x ∈ s.freelist) :
    x ∉ tree s r ∧ x ∉ H := by
  have hone := h.le_one x
  unfold bag at hone
  have hpos := count_pos_iff.mpr hx
  refine ⟨fun hmem => ?_, fun hmem => ?_⟩
  · have := count_pos_iff.mpr hmem
    omega
  · have := count_pos_iff.mpr hmem
    omega

theorem Sound.hand_not_mem (h : Sound r H s) (hx : x ∈ H) :
    x ∉ tree s r ∧ x ∉ s.freelist := by
  have hone := h.le_one x
  unfold bag at hone
  have hpos := count_pos_iff.mpr hx
  refine ⟨fun hmem => ?_, fun hmem => ?_⟩
  · have := count_pos_iff.mpr hmem
    omega
  · have := count_pos_iff.mpr hmem
    omega

/-- A page that is no node of the tree can be written, if it is held or is
page 0. -/
theorem Moves.write (hpage : page ∉ nodes s r) (hheld : page = 0 ∨ 0 < bag s r H page) :
    Moves r H H s (s.write page contents) := by
  have htree : tree (s.write page contents) r = tree s r := by
    apply tree_congr
    intro q hq
    apply Mem.write_of_ne
    rintro rfl
    exact hpage hq
  refine ⟨fun x => ?_, fun q hq0 hq => ?_, fun i _ => ?_, rfl, rfl⟩
  · unfold bag
    rw [htree]
    rfl
  · apply Mem.write_of_ne
    rintro rfl
    rcases hheld with hz | hpos
    · exact hq0 hz
    · exact absurd hq (Nat.ne_of_gt hpos)
  · rw [Mem.write_of_ne]
    rintro rfl
    exact hpage (root_mem_nodes s r)

theorem mapped_write (hpage : page ∉ nodes s r) (hva : va < 2 ^ 47) :
    mapped (s.write page contents) r va = mapped s r va := by
  apply mapped_congr _ hva
  intro q hq
  apply Mem.write_of_ne
  rintro rfl
  exact hpage hq

-- ==== the allocator

/-- The only panic there is when all is in order. -/
abbrev Full (e : Panic) : Prop := e = .outOfMemory

/-- On the way from `s` to `t` the pages `L` have left the free list, and no
page has been written that was not on it. -/
structure Takes (s t : Mem) (L : List Nat) : Prop where
  bal : ∀ x, t.freelist.count x + L.count x = s.freelist.count x
  frame : ∀ q, q ≠ 0 → q ∉ s.freelist → t.entry q = s.entry q
  endPage : t.endPage = s.endPage
  kpdpt : t.kpdpt = s.kpdpt

theorem Takes.free (h : Takes s t L) (hx : x ∈ t.freelist) : x ∈ s.freelist := by
  have hbal := h.bal x
  have hpos := count_pos_iff.mpr hx
  exact count_pos_iff.mp (by omega)

theorem kalloc_takes (s : Mem) :
    Safe Full kalloc s fun page t => Takes s t [page] ∧ page ∈ s.freelist
      ∧ t.entry = s.entry := by
  unfold kalloc
  apply get_bind
  cases hfree : s.freelist with
  | nil => exact fault rfl
  | cons page rest =>
    apply modify_bind
    apply ret
    refine ⟨⟨fun x => ?_, fun _ _ _ => rfl, rfl, rfl⟩, mem_cons_self, rfl⟩
    rw [hfree, count_singleton, count_cons]

theorem Takes.write (h : Takes s t L) (hpage : page ∈ s.freelist) :
    Takes s (t.write page contents) L where
  bal := h.bal
  frame q hq0 hq := by
    rw [Mem.write_of_ne, h.frame q hq0 hq]
    rintro rfl
    exact hq hpage
  endPage := h.endPage
  kpdpt := h.kpdpt

theorem kallocZeroed_takes (s : Mem) :
    Safe Full kallocZeroed s fun page t => Takes s t [page] ∧ page ∈ s.freelist
      ∧ t.entry = update s.entry page fun _ => none := by
  unfold kallocZeroed
  refine (kalloc_takes s).seq fun page t ⟨htakes, hfree, hentry⟩ => ?_
  apply modify_bind
  apply ret
  refine ⟨htakes.write hfree, hfree, ?_⟩
  rw [← hentry]

/-- The pages of a table were not there to take. -/
theorem Takes.untouched (h : Takes s t L) (hs : Sound r H s) (hq : q ∈ tree s r) :
    t.entry q = s.entry q := by
  have hrange := hs.range (mem_tree_bag (H := H) hq)
  have hkernel := hs.kernel
  exact h.frame q (by omega) fun hfree => (hs.free_not_mem hfree).1 hq

theorem Takes.mapped (h : Takes s t L) (hs : Sound r H s) (hva : va < 2 ^ 47) :
    mapped t r va = mapped s r va :=
  mapped_congr (fun _ hq => h.untouched hs (nodes_subset hq)) hva

/-- Pages that were taken are in hand. -/
theorem Takes.hand (h : Takes s t L) (hs : Sound r H s) : Moves r H (L ++ H) s t := by
  refine ⟨fun x => ?_, fun q hq0 hq => ?_, fun i _ => ?_, h.endPage, h.kpdpt⟩
  · have hbal := h.bal x
    unfold bag
    rw [tree_congr fun q hq => h.untouched hs (nodes_subset hq), count_append]
    omega
  · refine h.frame q hq0 fun hfree => ?_
    exact absurd hq (Nat.ne_of_gt (mem_free_bag hfree))
  · rw [h.untouched hs (root_mem_tree s r)]

-- ==== one entry set

/-- `way` leads from the PML4 to the table `q`, and slot `i` of it to what
stands `k` levels over the user pages. -/
structure Slot (s : Mem) (r : Nat) (way : List Nat) (k q i : Nat) : Prop where
  table : follow (children s) r way = some q
  height : way.length + (k + 1) = 4
  fitting : Fitting widths 4 (way ++ [i])

theorem fitting_last {l : Nat} (hlen : way.length + (k + 1) = l)
    (h : Fitting widths l (way ++ [i])) : i < widths k := by
  induction way generalizing l with
  | nil =>
    subst hlen
    rw [length_nil, Nat.zero_add] at h
    exact h.1
  | cons j way ih =>
    cases l with
    | zero => exact absurd h id
    | succ l =>
      rw [length_cons] at hlen
      exact ih (by omega) h.2

section

variable (h : Slot s r way k q i)
include h

theorem Slot.mem_tree : q ∈ tree s r :=
  mem_of_fitting h.fitting.left h.table

theorem Slot.count_set (hn : (tree s r).Nodup)
    (he : q ∉ hanging (children s) widths k (e.map Pte.page)) (x : Nat) :
    (tree (s.set q i e) r).count x
        + (hanging (children s) widths k (children s q i)).count x
      = (tree s r).count x
        + (hanging (children s) widths k (e.map Pte.page)).count x := by
  obtain ⟨htable, hheight, hfit⟩ := h
  have hi := fitting_last hheight hfit
  unfold tree at hn ⊢
  rw [← hheight] at hn hfit ⊢
  rw [children_set]
  exact Lib.count_set hn hfit.left htable hi he x

/-- The tables on the way to a slot stay where they are. -/
theorem Slot.follow_set (hn : (tree s r).Nodup) {dest : List Nat}
    (hfit : Fitting widths 4 dest) (hoff : ¬ (way ++ [i]) <+: dest) :
    follow (children (s.set q i e)) r dest = follow (children s) r dest := by
  rw [children_set]
  exact follow_set_of_apart hn h.fitting.left h.table hfit hoff

theorem Slot.follow_set_self (hn : (tree s r).Nodup) :
    follow (children (s.set q i e)) r (way ++ [i]) = e.map Pte.page := by
  rw [children_set, Lib.follow_set_self hn h.fitting.left h.table]
  · cases e <;> rfl
  · intro a j b w hnil
    cases a <;> cases hnil

/-- The upper half of the PML4 is no slot. -/
theorem Slot.upper (hn : (tree s r).Nodup) {j : Nat}
    (hj : 256 ≤ j) : (s.set q i e).entry r j = s.entry r j := by
  by_cases hq : r = q
  · subst hq
    have hway : way = [] :=
      follow_inj hn h.fitting.left (fitting_nil 4) h.table rfl
    have hi : i < 256 := by
      have hfit := h.fitting
      rw [hway] at hfit
      exact hfit.1
    show update s.entry r (update (s.entry r) i e) r j = _
    rw [update_self, update_of_ne (by omega)]
  · rw [Mem.set_of_ne hq]

/-- A new page without entries is put into an empty slot. -/
theorem Slot.link {e : Pte} (hs : Sound r (e.page :: H) s)
    (hempty : children s q i = none)
    (hleaf : k = 0 ∨ s.entry e.page = fun _ => none) :
    Moves r (e.page :: H) H s (s.set q i (some e)) := by
  have hhand := hs.hand_not_mem (mem_cons_self (l := H))
  have hq := h.mem_tree
  have hself : hanging (children s) widths k (some e.page) = [e.page] := by
    rw [hanging_some]
    cases k with
    | zero => rfl
    | succ k =>
      rcases hleaf with hk | hzero
      · cases hk
      have hnone : children s e.page = fun _ => none := by
        funext j
        unfold children
        rw [hzero]
        rfl
      rw [below_succ, hnone]
      simp
  have hne : q ≠ e.page := fun heq => hhand.1 (heq ▸ hq)
  have hcount := h.count_set hs.nodup (e := some e) (by
    rw [Option.map_some, hself]
    exact fun hmem => hne (mem_singleton.mp hmem))
  rw [hempty, Option.map_some, hself] at hcount
  refine ⟨fun x => ?_, fun y hy0 hy => ?_, fun j hj => h.upper hs.nodup hj, rfl, rfl⟩
  · have hx := hcount x
    rw [hanging_none, count_nil, count_singleton] at hx
    unfold bag
    rw [count_cons]
    show _ + s.freelist.count x + _ = _
    omega
  · apply Mem.set_of_ne
    rintro rfl
    exact absurd hy (Nat.ne_of_gt (mem_tree_bag hq))

/-- Addresses whose path does not go through a slot keep their page. -/
theorem Slot.mapped_set (hn : (tree s r).Nodup)
    (hva : va < 2 ^ 47) (hoff : ¬ (way ++ [i]) <+: path va) :
    mapped (s.set q i e) r va = mapped s r va :=
  h.follow_set hn (fitting_path hva) hoff

theorem Slot.mapped_of_prefix (hempty : children s q i = none)
    (hon : (way ++ [i]) <+: path va) : mapped s r va = none := by
  obtain ⟨rest, hrest⟩ := hon
  unfold mapped
  rw [← hrest, append_assoc, follow_append, h.table]
  show (children s q i).bind _ = none
  rw [hempty]
  rfl

/-- A new table changes no mapping. -/
theorem Slot.mapped_link (hn : (tree s r).Nodup) {e : Pte}
    (hempty : children s q i = none) (hk : 0 < k) (hne : e.page ≠ q)
    (hzero : s.entry e.page = fun _ => none) (hva : va < 2 ^ 47) :
    mapped (s.set q i (some e)) r va = mapped s r va := by
  by_cases hon : (way ++ [i]) <+: path va
  · rw [h.mapped_of_prefix hempty hon]
    obtain ⟨rest, hrest⟩ := hon
    have hlen : (way ++ [i] ++ rest).length = 4 := by
      rw [hrest]
      rfl
    rw [length_append, length_append, length_singleton] at hlen
    unfold mapped
    rw [← hrest, follow_append, h.follow_set_self hn]
    have hheight := h.height
    cases rest with
    | nil =>
      rw [length_nil] at hlen
      omega
    | cons j rest =>
      show (children (s.set q i (some e)) e.page j).bind _ = none
      unfold children
      rw [Mem.set_of_ne hne, hzero]
      rfl
  · exact h.mapped_set hn hva hon

/-- What does not touch the nodes of a tree leaves its slots. -/
theorem Slot.congr (hsame : ∀ q ∈ nodes s r, t.entry q = s.entry q) : Slot t r way k q i where
  table := by
    rw [follow_of_inner (fun q hq => children_eq (hsame q hq)) h.fitting.left]
    exact h.table
  height := h.height
  fitting := h.fitting

end

-- ==== walking

/-- Page table nodes may have come; no mapping has changed. -/
structure Walked (r : Nat) (H : List Nat) (s t : Mem) : Prop where
  moves : Moves r H H s t
  same : ∀ va, va < 2 ^ 47 → mapped t r va = mapped s r va

theorem Walked.refl (r : Nat) (H : List Nat) (s : Mem) : Walked r H s s :=
  ⟨.refl r H s, fun _ _ => rfl⟩

theorem Walked.trans (h : Walked r H s t) (h' : Walked r H t u) : Walked r H s u :=
  ⟨h.moves.trans h'.moves, fun va hva => (h'.same va hva).trans (h.same va hva)⟩

theorem nextTable_spec (hs : Sound r H s) (h : Slot s r way k q i) (hk : 0 < k) :
    Safe Full (nextTable true q i) s fun v t => Walked r H s t ∧
      ∃ n, v = some n ∧ follow (children t) r (way ++ [i]) = some n := by
  unfold nextTable
  apply get_bind
  cases he : s.entry q i with
  | some e =>
    apply ret
    refine ⟨.refl r H s, e.page, rfl, ?_⟩
    rw [follow_append, h.table]
    show (children s q i).bind _ = _
    unfold children
    rw [he]
    rfl
  | none =>
    show Safe Full (do
      let page ← kallocZeroed
      setEntry q i (some ⟨page, true, true⟩)
      pure (some page)) s _
    refine (kallocZeroed_takes s).seq fun page t ⟨htakes, hfree, hentry⟩ => ?_
    have hmove := htakes.hand hs
    have hzero : t.entry page = fun _ => none := by rw [hentry, update_self]
    have hsame : ∀ x, x ≠ page → t.entry x = s.entry x := by
      intro x hx
      rw [hentry, update_of_ne hx]
    apply modify_bind
    apply ret
    have hnot := (hs.free_not_mem hfree).1
    have hnodes : ∀ x ∈ nodes s r, t.entry x = s.entry x := by
      intro x hx
      apply hsame
      rintro rfl
      exact hnot (nodes_subset hx)
    have ht := hmove.sound hs
    have hslot := h.congr hnodes
    have hqp : page ≠ q := by
      rintro rfl
      exact hnot h.mem_tree
    have hempty : children t q i = none := by
      unfold children
      rw [hsame q hqp.symm, he]
      rfl
    refine ⟨⟨hmove.trans (hslot.link (e := ⟨page, true, true⟩) ht hempty (.inr hzero)),
      fun va hva => ?_⟩, page, rfl, ?_⟩
    · exact (hslot.mapped_link (e := ⟨page, true, true⟩) ht.nodup hempty hk hqp
        hzero hva).trans (mapped_congr hnodes hva)
    · exact hslot.follow_set_self ht.nodup

/-- The way to the page table of an address. -/
def tables (va : Nat) : List Nat := [pmx va, pdpx va, pdx va]

theorem mapped_eq (s : Mem) (r va : Nat) : mapped s r va
    = (follow (children s) r (tables va)).bind fun pt => children s pt (ptx va) := by
  show follow (children s) r (tables va ++ [ptx va]) = _
  rw [follow_append]
  congr 1
  funext pt
  show (children s pt (ptx va)).bind some = _
  cases children s pt (ptx va) <;> rfl

theorem slot_of_follow {pt : Nat} (hva : va < 2 ^ 47)
    (h : follow (children s) r (tables va) = some pt) :
    Slot s r (tables va) 0 pt (ptx va) :=
  ⟨h, rfl, fitting_path hva⟩

theorem walkpgdir_alloc (hs : Sound r H s) (hva : va < 2 ^ 47) :
    Safe Full (walkpgdir r va true) s fun v t => Walked r H s t ∧
      ∃ pt, v = some (pt, ptx va) ∧ Slot t r (tables va) 0 pt (ptx va) := by
  obtain ⟨hp, hpd, hd, ht, -⟩ := fitting_path hva
  unfold walkpgdir
  apply Meets.bind
  have hroot : Slot s r [] 3 r (pmx va) := ⟨rfl, rfl, hp, trivial⟩
  refine (nextTable_spec hs hroot (by decide)).mono ?_
  rintro _ s1 ⟨hw1, pdp, rfl, hpdp⟩
  have hs1 := hw1.moves.sound hs
  apply Meets.bind
  have hslot1 : Slot s1 r [pmx va] 2 pdp (pdpx va) := ⟨hpdp, rfl, hp, hpd, trivial⟩
  refine (nextTable_spec hs1 hslot1 (by decide)).mono ?_
  rintro _ s2 ⟨hw2, pd, rfl, hpd'⟩
  have hs2 := hw2.moves.sound hs1
  apply Meets.bind
  have hslot2 : Slot s2 r [pmx va, pdpx va] 1 pd (pdx va) :=
    ⟨hpd', rfl, hp, hpd, hd, trivial⟩
  refine (nextTable_spec hs2 hslot2 (by decide)).mono ?_
  rintro _ s3 ⟨hw3, pt, rfl, hpt⟩
  apply ret
  exact ⟨(hw1.trans hw2).trans hw3, pt, rfl, slot_of_follow hva hpt⟩

theorem nextTable_find (s : Mem) (q i : Nat) :
    Ends (nextTable false q i) s fun v t => t = s ∧ v = children s q i := by
  unfold nextTable
  apply get_bind
  unfold children
  cases s.entry q i with
  | some | none => exact ret ⟨rfl, rfl⟩

theorem walkpgdir_find (s : Mem) (r va : Nat) :
    Ends (walkpgdir r va false) s fun v t => t = s ∧
      v = (follow (children s) r (tables va)).map fun pt => (pt, ptx va) := by
  unfold walkpgdir tables
  refine (nextTable_find s r (pmx va)).seq fun v t ⟨ht, hv⟩ => ?_
  rw [ht, hv]
  simp only [follow]
  cases children s r (pmx va) with
  | none => exact ret ⟨rfl, rfl⟩
  | some pdp =>
    refine (nextTable_find s pdp (pdpx va)).seq fun v t ⟨ht, hv⟩ => ?_
    rw [ht, hv]
    simp only [Option.bind_some]
    cases children s pdp (pdpx va) with
    | none => exact ret ⟨rfl, rfl⟩
    | some pd =>
      refine (nextTable_find s pd (pdx va)).seq fun v t ⟨ht, hv⟩ => ?_
      rw [ht, hv]
      simp only [Option.bind_some]
      cases children s pd (pdx va) with
      | none | some => exact ret ⟨rfl, rfl⟩

theorem prefix_path_iff (hva : va < 2 ^ 47) (hvb : vb < 2 ^ 47) :
    (tables va ++ [ptx va]) <+: path vb ↔ vb / pgSize = va / pgSize := by
  show path va <+: path vb ↔ _
  constructor
  · intro h
    exact (path_inj hva hvb (h.eq_of_length rfl)).symm
  · intro h
    rw [path_congr h]

theorem mappages_spec {w us : Bool} (hs : Sound r (page :: H) s) (hva : va < 2 ^ 47)
    (hfree : mapped s r va = none) :
    Safe Full (mappages r va page w us) s fun _ t => Moves r (page :: H) H s t ∧
      ∀ vb, vb < 2 ^ 47 → mapped t r vb
        = if vb / pgSize = va / pgSize then some page else mapped s r vb := by
  have hdown : pgRoundDown va / pgSize = va / pgSize := by
    unfold pgRoundDown pgSize
    omega
  have hlt : pgRoundDown va < 2 ^ 47 := Nat.lt_of_le_of_lt (Nat.div_mul_le_self ..) hva
  unfold mappages
  refine (walkpgdir_alloc hs hlt).seq ?_
  rintro _ t ⟨hw, pt, rfl, hslot⟩
  have ht := hw.moves.sound hs
  have hempty : children t pt (ptx (pgRoundDown va)) = none := by
    have hnone := hw.same va hva
    rw [hfree] at hnone
    unfold mapped at hnone
    rw [path_congr hdown.symm] at hnone
    change mapped t r (pgRoundDown va) = none at hnone
    rw [mapped_eq, hslot.table] at hnone
    exact hnone
  apply get_bind
  have hentry : t.entry pt (ptx (pgRoundDown va)) = none := Option.map_eq_none_iff.mp hempty
  rw [hentry]
  apply Meets.change
  refine ⟨hw.moves.trans (hslot.link (e := ⟨page, w, us⟩) ht hempty (.inl rfl)), ?_⟩
  intro vb hvb
  have hiff := prefix_path_iff hlt hvb
  rw [hdown] at hiff
  by_cases hon : vb / pgSize = va / pgSize
  · rw [if_pos hon]
    show follow _ r (path vb) = _
    rw [path_congr (hon.trans hdown.symm)]
    exact hslot.follow_set_self (e := some ⟨page, w, us⟩) ht.nodup
  · rw [if_neg hon, ← hw.same vb hvb]
    exact hslot.mapped_set ht.nodup hvb (mt hiff.mp hon)

-- ==== unmapping

/-- Memory with a page freed. -/
def Mem.release (s : Mem) (page : Nat) : Mem :=
  { s.write page junk with freelist := page :: s.freelist }

theorem kfree_spec (h : s.endPage ≤ page ∧ page < physPages) :
    Ends (kfree page) s fun _ t => t = s.release page := by
  unfold kfree
  apply get_bind
  rw [if_neg (by omega)]
  apply modify_bind
  apply Meets.change
  rfl

theorem Mem.release_of_ne (h : q ≠ page) : (s.release page).entry q = s.entry q :=
  update_of_ne h ..

/-- A user page is taken out of its table and freed. -/
theorem Slot.unlink (h : Slot s r way 0 q i) (hs : Sound r H s)
    (hpage : children s q i = some page) (hleaf : page ∉ nodes s r) (hne : q ≠ page) :
    Moves r H H s ((s.release page).set q i none) := by
  have hnodes : ∀ x ∈ nodes s r, (s.release page).entry x = s.entry x := by
    intro x hx
    apply Mem.release_of_ne
    rintro rfl
    exact hleaf hx
  have htree : tree (s.release page) r = tree s r := tree_congr hnodes
  have hcount := (h.congr hnodes).count_set (e := none) (htree ▸ hs.nodup)
    not_mem_nil
  have hchild : children (s.release page) q i = some page := by
    rw [children_eq (Mem.release_of_ne hne), hpage]
  have hmem : page ∈ tree s r := by
    have hway : follow (children s) r (way ++ [i]) = some page := by
      rw [follow_append, h.table]
      show (children s q i).bind _ = _
      rw [hpage]
      rfl
    exact mem_of_fitting h.fitting hway
  rw [hchild, htree] at hcount
  refine ⟨fun x => ?_, fun y hy0 hy => ?_, fun j hj => ?_, rfl, rfl⟩
  · have hx := hcount x
    change _ + count x [page] = _ + 0 at hx
    rw [count_singleton] at hx
    unfold bag
    show _ + count x (page :: s.freelist) + _ = _
    rw [count_cons]
    omega
  · have hyq : y ≠ q := by
      rintro rfl
      exact absurd hy (Nat.ne_of_gt (mem_tree_bag h.mem_tree))
    have hyp : y ≠ page := by
      rintro rfl
      exact absurd hy (Nat.ne_of_gt (mem_tree_bag hmem))
    rw [Mem.set_of_ne hyq, Mem.release_of_ne hyp]
  · rw [(h.congr hnodes).upper (htree ▸ hs.nodup) hj, hnodes r (root_mem_nodes s r)]

theorem unmapPage_spec (hs : Sound r H s) (hva : va < 2 ^ 47) :
    Ends (unmapPage r va) s fun _ t => Moves r H H s t ∧
      ∀ vb, vb < 2 ^ 47 → mapped t r vb
        = if vb / pgSize = va / pgSize then none else mapped s r vb := by
  have hrest : mapped s r va = none → Moves r H H s s ∧
      ∀ vb, vb < 2 ^ 47 → mapped s r vb
        = if vb / pgSize = va / pgSize then none else mapped s r vb := by
    intro hnone
    refine ⟨.refl r H s, fun vb hvb => ?_⟩
    split
    · rename_i heq
      unfold mapped
      rw [path_congr heq]
      exact hnone
    · rfl
  unfold unmapPage
  refine (walkpgdir_find s r va).seq fun v t ⟨ht, hv⟩ => ?_
  rw [ht, hv]
  have hmapped := mapped_eq s r va
  cases htable : follow (children s) r (tables va) with
  | none =>
    apply ret
    apply hrest
    rw [hmapped, htable]
    rfl
  | some pt =>
    have hslot := slot_of_follow hva htable
    rw [htable] at hmapped
    change mapped s r va = children s pt (ptx va) at hmapped
    apply get_bind
    cases hentry : s.entry pt (ptx va) with
    | none =>
      apply ret
      apply hrest
      rw [hmapped]
      unfold children
      rw [hentry]
      rfl
    | some e =>
      have hchild : children s pt (ptx va) = some e.page := by
        unfold children
        rw [hentry]
        rfl
      rw [hchild] at hmapped
      have hleaf := leaf_not_mem_inner hs.nodup (mapped_mem_userPages hva hmapped)
      have hrange := hs.range (mem_tree_bag (H := H) (mapped_mem hva hmapped))
      have hne : pt ≠ e.page := by
        rintro rfl
        have hway := follow_inj hs.nodup (fitting_path hva) hslot.fitting.left hmapped
          hslot.table
        cases hway
      have hzero : e.page ≠ 0 := by
        have := hs.kernel
        omega
      show Ends (if e.page = 0 then throw .kfree
        else do
          kfree e.page
          setEntry pt (ptx va) none) s _
      rw [if_neg hzero]
      refine (kfree_spec hrange).seq fun _ t ht => ?_
      rw [ht]
      apply Meets.change
      refine ⟨hslot.unlink hs hchild hleaf hne, fun vb hvb => ?_⟩
      have hnodes : ∀ x ∈ nodes s r, (s.release e.page).entry x = s.entry x := by
        intro x hx
        apply Mem.release_of_ne
        rintro rfl
        exact hleaf hx
      have hnodup : (tree (s.release e.page) r).Nodup := by
        rw [tree_congr hnodes]
        exact hs.nodup
      have hiff := prefix_path_iff hva hvb
      by_cases hon : vb / pgSize = va / pgSize
      · rw [if_pos hon]
        show follow _ r (path vb) = _
        rw [path_congr hon]
        exact (hslot.congr hnodes).follow_set_self (e := none) hnodup
      · rw [if_neg hon, ← mapped_congr hnodes hvb]
        exact (hslot.congr hnodes).mapped_set hnodup hvb (mt hiff.mp hon)

end Xv6FsServer.Vm
