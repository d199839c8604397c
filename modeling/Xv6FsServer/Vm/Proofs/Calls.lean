/-
The calls that take and give back pages, from boot on.

A page behind the kernel is on the free list, or is held by a process (its
kernel stack, a node of its page table, a page of its memory), by a pipe or
by what was set up at boot, and all of that adds up to one (`Sys.Owned`).
Calls take pages from the list and give them back; a call of one process does
not write to what another holds, so the other's memory keeps its shape.
-/
import Xv6FsServer.Vm.Proofs.Images

namespace Xv6FsServer.Vm

open Lib Function Finset Meets

variable {k k' : Sys} {m : Mem} {p q x : Nat} {L L' : List Nat} {X : Proc}
variable {t s : Mem}
variable {Y : Proc} {r va : Nat} {contents code : Nat → Option Pte}

-- ==== what is held

/-- The pages of a process. -/
def Proc.holds (X : Proc) (m : Mem) : List Nat :=
  if X.used then X.kstack :: tree m X.pgdir else []

def Sys.pipePages (k : Sys) : List Nat := k.pipes.map PipePage.page

/-- The number of times a page is held by the processes. -/
def held (procs : Nat → Proc) (m : Mem) (x : Nat) : Nat :=
  ∑ p ∈ range nproc, ((procs p).holds m).count x

/-- The number of times a page is on the free list or held. -/
def Sys.total (k : Sys) (x : Nat) : Nat :=
  k.mem.freelist.count x + held k.procs k.mem x + k.pipePages.count x
    + k.early.count x

structure Sys.Owned (k : Sys) : Prop where
  kernel : 0 < k.mem.endPage
  once : ∀ x, k.total x
    = if k.mem.endPage ≤ x ∧ x < physPages then 1 else 0
  kpdpt : k.mem.kpdpt ∈ k.early

theorem Sys.Owned.le_one (h : k.Owned) (x : Nat) : k.total x ≤ 1 := by
  rw [h.once x]
  split
  · exact Nat.le_refl 1
  · exact Nat.zero_le 1

theorem Sys.Owned.range (h : k.Owned) (hx : 0 < k.total x) :
    k.mem.endPage ≤ x ∧ x < physPages := by
  rw [h.once x] at hx
  split at hx
  · assumption
  · omega

theorem holds_le (procs : Nat → Proc) (m : Mem) (hp : p < nproc) (x : Nat) :
    ((procs p).holds m).count x ≤ held procs m x :=
  single_le_sum (f := fun p => ((procs p).holds m).count x)
    (fun _ _ => Nat.zero_le _) (mem_range.mpr hp)

theorem holds_add_le (procs : Nat → Proc) (m : Mem) (hp : p < nproc) (hq : q < nproc)
    (hne : q ≠ p) (x : Nat) :
    ((procs p).holds m).count x + ((procs q).holds m).count x ≤ held procs m x :=
  pair_le_sum (fun p => ((procs p).holds m).count x) (mem_range.mpr hp)
    (mem_range.mpr hq) hne

theorem mem_holds (hu : X.used = true) (hx : x ∈ tree m X.pgdir) : x ∈ X.holds m := by
  unfold Proc.holds
  rw [if_pos hu]
  exact List.mem_cons_of_mem _ hx

theorem holds_of_unused (hu : X.used = false) : X.holds m = [] := by
  unfold Proc.holds
  rw [if_neg (by simp [hu])]

/-- The table of a process is in order. -/
theorem Sys.Owned.sound (h : k.Owned) (hp : p < nproc) (hu : (k.procs p).used = true) :
    Sound (k.procs p).pgdir [] k.mem where
  kernel := h.kernel
  once x := by
    rw [← h.once x]
    have hle := holds_le k.procs k.mem hp x
    unfold Proc.holds at hle
    rw [if_pos hu, List.count_cons] at hle
    unfold bag Sys.total
    rw [List.count_nil]
    omega

-- ==== what a call leaves

/-- A page that a process holds is written only by a call that has it in
hand. -/
theorem Sys.Owned.untouched (h : k.Owned) (hw : Swaps k.mem m L L') (hq : q < nproc)
    (hx : x ∈ (k.procs q).holds k.mem) (hout : x ∉ L) : m.entry x = k.mem.entry x := by
  have hone := h.le_one x
  have hle := holds_le k.procs k.mem hq x
  have hpos := List.count_pos_iff.mpr hx
  unfold Sys.total at hone
  have hfree : x ∉ k.mem.freelist := List.count_eq_zero.mp (by omega)
  have hrange := h.range (x := x) (by unfold Sys.total; omega)
  have hkernel := h.kernel
  exact hw.frame x (by omega) hfree hout

/-- A process whose pages the call does not have in hand keeps them, and its
mapping. -/
structure Kept (X : Proc) (m m' : Mem) : Prop where
  holds : X.holds m' = X.holds m
  same : X.used = true → ∀ va, va < 2 ^ 47 → mapped m' X.pgdir va = mapped m X.pgdir va

theorem Sys.Owned.kept (h : k.Owned) (hw : Swaps k.mem m L L') (hq : q < nproc)
    (hout : ∀ x ∈ (k.procs q).holds k.mem, x ∉ L) : Kept (k.procs q) k.mem m := by
  have hnodes : (k.procs q).used = true → ∀ x ∈ nodes k.mem (k.procs q).pgdir,
      m.entry x = k.mem.entry x := by
    intro hu x hx
    have hmem := mem_holds hu (nodes_subset hx)
    exact h.untouched hw hq hmem (hout x hmem)
  refine ⟨?_, fun hu va hva => mapped_congr (hnodes hu) hva⟩
  unfold Proc.holds
  split
  · rename_i hu
    rw [tree_congr (hnodes hu)]
  · rfl

/-- A call on the pages of one process. -/
theorem Sys.Owned.swap (h : k.Owned) (hp : p < nproc)
    (hw : Swaps k.mem m ((k.procs p).holds k.mem) (X.holds m)) :
    (Sys.setProc { k with mem := m } p X).Owned
      ∧ ∀ q, q < nproc → q ≠ p → Kept (k.procs q) k.mem m := by
  have hkept : ∀ q, q < nproc → q ≠ p → Kept (k.procs q) k.mem m := by
    intro q hq hne
    refine h.kept hw hq fun x hx hin => ?_
    have hone := h.le_one x
    have hle := holds_add_le k.procs k.mem hp hq hne x
    have hpos := List.count_pos_iff.mpr hx
    have hpos' := List.count_pos_iff.mpr hin
    unfold Sys.total at hone
    omega
  refine ⟨⟨?_, fun x => ?_, ?_⟩, hkept⟩
  · show 0 < m.endPage
    rw [hw.endPage]
    exact h.kernel
  · have hsum : held (update k.procs p X) m x + ((k.procs p).holds k.mem).count x
        = held k.procs k.mem x + (X.holds m).count x := by
      have hex := sum_exchange (mem_range.mpr hp)
        (g := fun q => ((update k.procs p X q).holds m).count x)
        (h := fun q => ((k.procs q).holds k.mem).count x) (by
          intro q hq hne
          rw [update_of_ne hne, (hkept q (mem_range.mp hq) hne).holds])
      rw [update_self] at hex
      exact hex
    have hbal := hw.bal x
    have honce := h.once x
    unfold Sys.total at honce
    show m.freelist.count x + held (update k.procs p X) m x + k.pipePages.count x
      + k.early.count x = if m.endPage ≤ x ∧ x < physPages then 1 else 0
    rw [hw.endPage, ← honce]
    omega
  · show m.kpdpt ∈ k.early
    rw [hw.kpdpt]
    exact h.kpdpt

-- ==== the invariant

/-- The memory of a process has the shape of its size; `loose` allows for none
at all. -/
def Shape (loose : Prop) (m : Mem) (X : Proc) : Prop :=
  X.used = true → Space m X.pgdir X.sz ∨ (loose ∧ Gone m X.pgdir)

structure Sys.Inv (loose : Prop) (k : Sys) : Prop where
  owned : k.Owned
  shape : ∀ p, p < nproc → Shape loose k.mem (k.procs p)

variable {loose : Prop}

theorem Kept.shape {m' : Mem} (h : Kept X m m') (hs : Shape loose m X) :
    Shape loose m' X := by
  intro hu
  have hsame := h.same hu
  rcases hs hu with hsp | ⟨hl, hgone⟩
  · exact .inl ⟨hsp.pos, hsp.covers.congr hsame⟩
  · exact .inr ⟨hl, fun va hva => (hsame va hva).trans (hgone va hva)⟩

/-- A call on the pages of one process keeps the invariant. -/
theorem Sys.Inv.swap (h : k.Inv loose) (hp : p < nproc)
    (hw : Swaps k.mem m ((k.procs p).holds k.mem) (X.holds m)) (hs : Shape loose m X) :
    (Sys.setProc { k with mem := m } p X).Inv loose := by
  obtain ⟨howned, hkept⟩ := h.owned.swap hp hw
  refine ⟨howned, fun q hq => ?_⟩
  show Shape loose m (update k.procs p X q)
  by_cases hqp : q = p
  · subst hqp
    rw [update_self]
    exact hs
  · rw [update_of_ne hqp]
    exact (hkept q hq hqp).shape (h.shape q hq)

/-- A call that takes pages of no process and gives none back to one. -/
theorem Sys.Inv.others {pipes : List PipePage} (h : k.Inv loose)
    (hw : Swaps k.mem m L L') (hout : ∀ x, x ∈ L → x ∈ k.pipePages)
    (hbal : ∀ x, (pipes.map PipePage.page).count x + L.count x
      = k.pipePages.count x + L'.count x) :
    Sys.Inv loose { k with mem := m, pipes := pipes } := by
  have hkept : ∀ q, q < nproc → Kept (k.procs q) k.mem m := by
    intro q hq
    refine h.owned.kept hw hq fun x hx hin => ?_
    have hone := h.owned.le_one x
    have hle := holds_le k.procs k.mem hq x
    have hpos := List.count_pos_iff.mpr hx
    have hpos' := List.count_pos_iff.mpr (hout x hin)
    unfold Sys.total at hone
    omega
  refine ⟨⟨?_, fun x => ?_, ?_⟩, fun q hq => (hkept q hq).shape (h.shape q hq)⟩
  · show 0 < m.endPage
    rw [hw.endPage]
    exact h.owned.kernel
  · have hsum : held k.procs m x = held k.procs k.mem x := by
      apply sum_congr rfl
      intro q hq
      rw [(hkept q (mem_range.mp hq)).holds]
    have hfree := hw.bal x
    have hpages := hbal x
    have honce := h.owned.once x
    unfold Sys.total at honce
    show m.freelist.count x + held k.procs m x + (pipes.map PipePage.page).count x
      + k.early.count x = if m.endPage ≤ x ∧ x < physPages then 1 else 0
    rw [hw.endPage, ← honce, hsum]
    omega
  · show m.kpdpt ∈ k.early
    rw [hw.kpdpt]
    exact h.owned.kpdpt

-- ==== the calls

theorem Sys.on_some {α : Type} {y : Op α} {f : α → Sys → Sys} (h : k.on y f = some k') :
    ∃ a m, Lib.exec y k.mem = (.ok a, m) ∧ k' = f a { k with mem := m } := by
  unfold Sys.on at h
  split at h
  · rename_i a m heq
    exact ⟨a, m, heq, (Option.some.inj h).symm⟩
  · cases h

theorem Swaps.cons (h : Swaps s t L L') (a : Nat) : Swaps s t (a :: L) (a :: L') where
  bal y := by
    have hbal := h.bal y
    rw [List.count_cons, List.count_cons]
    omega
  frame q hq0 hfree hL := h.frame q hq0 hfree fun hmem => hL (List.mem_cons_of_mem _ hmem)
  endPage := h.endPage
  kpdpt := h.kpdpt

theorem holds_of_used (hu : X.used = true) :
    X.holds m = X.kstack :: tree m X.pgdir := if_pos hu

/-- A process that goes on keeps its kernel stack. -/
theorem Swaps.holds (h : Swaps s t (tree s X.pgdir) (tree t Y.pgdir))
    (hX : X.used = true) (hY : Y.used = true) (hstack : Y.kstack = X.kstack) :
    Swaps s t (X.holds s) (Y.holds t) := by
  rw [holds_of_used hX, holds_of_used hY, hstack]
  exact h.cons _

theorem forkPages_spec (hs : Sound X.pgdir [] m) (h : Space m X.pgdir X.sz) :
    Safe Full (forkPages X) m fun r t =>
      Takes m t (r.1 :: tree t r.2) ∧ Space t r.2 X.sz := by
  unfold forkPages
  refine (kalloc_takes m).seq fun kstack m1 ⟨htakes, _, hentry⟩ => ?_
  have hm := htakes.hand hs
  have hsp : Space m1 X.pgdir X.sz :=
    ⟨h.pos, h.covers.congr fun _ hva => htakes.mapped hs hva⟩
  refine (copyuvm_spec (hm.sound hs) hsp).seq fun d t ⟨htakes', hspace⟩ => ?_
  exact ret ⟨htakes.trans htakes', hspace⟩

section

variable (h : k.Inv loose) (hp : p < nproc) (hu : (k.procs p).used = true)
  (hsp : Space k.mem (k.procs p).pgdir (k.procs p).sz)
include h hp hu hsp

theorem Sys.Inv.fork (hk : k.fork p = some k') : k'.Inv loose := by
  unfold Sys.fork at hk
  split at hk
  · cases hk
    exact h
  rename_i np hnp
  obtain ⟨-, hnp, hfree, -⟩ := first_some hnp
  obtain ⟨r, m, hexec, rfl⟩ := Sys.on_some hk
  obtain ⟨htakes, hspace⟩ := (forkPages_spec (h.owned.sound hp hu) hsp).elim hexec
  refine h.swap (by omega) ?_ fun _ => .inl hspace
  have hunused : (k.procs np).used = false := by simpa using hfree
  rw [holds_of_unused hunused, holds_of_used rfl]
  have hswap := htakes.swaps []
  rw [List.append_nil] at hswap
  exact hswap

theorem Sys.Inv.exec {img : Image} (hk : k.exec p img = some k') : k'.Inv loose := by
  obtain ⟨r, m, hexec, rfl⟩ := Sys.on_some hk
  obtain ⟨hswap, hspace⟩ := (execImage_spec (h.owned.sound hp hu) hsp).elim hexec
  exact h.swap hp (.holds hswap hu hu rfl) fun _ => .inl hspace

theorem Sys.Inv.sbrk {n : Int}
    (hwipe : Wipes (k.procs p).sz n → loose) (hk : k.sbrk p n = some k') :
    k'.Inv loose := by
  obtain ⟨r, m, hexec, rfl⟩ := Sys.on_some hk
  have hs := h.owned.sound hp hu
  have hstep : Moves (k.procs p).pgdir [] [] k.mem m ∧ (Space m (k.procs p).pgdir
      (r.getD (k.procs p).sz) ∨ (loose ∧ Gone m (k.procs p).pgdir)) := by
    by_cases hw : Wipes (k.procs p).sz n
    · obtain ⟨-, hm, hgone⟩ := (growproc_wipes hs hsp hw).elim hexec
      exact ⟨hm, .inr ⟨hwipe hw, hgone⟩⟩
    · obtain ⟨hm, hspace, -⟩ := (growproc_spec hs hsp hw).elim hexec
      exact ⟨hm, .inl hspace⟩
  exact h.swap hp (.holds hstep.1.swaps hu hu rfl) fun _ => hstep.2

end

theorem Sys.Inv.exit (h : k.Inv loose) (p : Nat) : (k.exit p).Inv loose := by
  refine ⟨⟨h.owned.kernel, fun x => ?_, h.owned.kpdpt⟩, fun q hq => h.shape q hq⟩
  exact h.owned.once x

/-- What a process holds can be freed. -/
theorem Sys.Owned.freeable (h : k.Owned) (hp : p < nproc) :
    Freeable k.mem ((k.procs p).holds k.mem) := by
  refine ⟨List.nodup_iff_count_le_one.mpr fun x => ?_, fun x hx => h.range ?_⟩
  · have hone := h.le_one x
    have hle := holds_le k.procs k.mem hp x
    unfold Sys.total at hone
    omega
  · have hle := holds_le k.procs k.mem hp x
    have hpos := List.count_pos_iff.mpr hx
    unfold Sys.total
    omega

theorem reap_spec (h : Freeable m (X.kstack :: tree m X.pgdir)) :
    Ends (reap X) m fun _ t => Gives m t (X.kstack :: tree m X.pgdir) := by
  have hsplit : Freeable m ([X.kstack] ++ tree m X.pgdir) := h
  unfold reap
  refine (kfree_gives m X.kstack hsplit.left).seq fun _ m1 hg => ?_
  change Gives m m1 [X.kstack] at hg
  have htree : tree m1 X.pgdir = tree m X.pgdir := by
    apply tree_congr
    intro q hq
    apply hg.frame
    intro hmem
    rw [List.mem_singleton] at hmem
    exact (List.nodup_cons.mp h.1).1 (hmem ▸ nodes_subset hq)
  have hrest := hsplit.right hg
  rw [← htree] at hrest
  refine (freevm_gives m1 X.pgdir hrest).mono fun _ t hg' => ?_
  change Gives m1 t (tree m1 X.pgdir) at hg'
  rw [htree] at hg'
  exact hg.trans hg'

theorem Sys.Inv.wait (h : k.Inv loose) (hk : k.wait p = some k') : k'.Inv loose := by
  unfold Sys.wait at hk
  split at hk
  · cases hk
    exact h
  rename_i q hq
  obtain ⟨-, hq, hfound, -⟩ := first_some hq
  rw [Bool.and_eq_true, Bool.and_eq_true] at hfound
  have hu := hfound.1.1
  obtain ⟨_, m, hexec, rfl⟩ := Sys.on_some hk
  have hfree := h.owned.freeable (p := q) (by omega)
  rw [holds_of_used hu] at hfree
  have hgives := (reap_spec hfree).elim hexec
  have hswap := hgives.swaps []
  rw [List.append_nil, ← holds_of_used hu] at hswap
  exact h.swap (by omega) hswap fun hu' => nomatch hu'

theorem Sys.Inv.pipealloc {files : Bool} (h : k.Inv loose)
    (hk : k.pipealloc files = some k') : k'.Inv loose := by
  unfold Sys.pipealloc at hk
  split at hk
  · cases hk
    exact h
  obtain ⟨page, m, hexec, rfl⟩ := Sys.on_some hk
  obtain ⟨htakes, -, -⟩ := (kalloc_takes k.mem).elim hexec
  have hswap := htakes.swaps []
  refine h.others hswap (fun x hx => nomatch hx) fun x => ?_
  rw [List.append_nil, List.count_singleton, List.map_cons, List.count_cons]
  rfl

theorem Sys.Inv.pipeclose {i : Nat} {writable : Bool} (h : k.Inv loose)
    (hk : k.pipeclose i writable = some k') : k'.Inv loose := by
  unfold Sys.pipeclose at hk
  split at hk
  · cases hk
  rename_i P hP
  obtain ⟨hi, hget⟩ := List.getElem?_eq_some_iff.mp hP
  have hperm := (List.getElem_cons_eraseIdx_perm hi).map PipePage.page
  rw [hget, List.map_cons] at hperm
  generalize hQ : (if writable then { P with writeopen := false }
    else { P with readopen := false }) = Q at hk
  have hpage : Q.page = P.page := by
    rw [← hQ]
    split <;> rfl
  dsimp only at hk
  split at hk
  · obtain ⟨_, m, hexec, rfl⟩ := Sys.on_some hk
    have hmem : Q.page ∈ k.pipePages := by
      rw [hpage]
      exact hperm.subset List.mem_cons_self
    have hrange := h.owned.range (x := Q.page) (by
      have hpos := List.count_pos_iff.mpr hmem
      unfold Sys.total
      omega)
    have hgives : Gives k.mem m [Q.page] :=
      (kfree_gives k.mem Q.page ⟨List.nodup_singleton _, fun x hx => by
        rw [List.mem_singleton.mp hx]
        exact hrange⟩).elim hexec
    have hswap := hgives.swaps []
    rw [List.append_nil] at hswap
    refine h.others hswap (fun x hx => ?_) fun x => ?_
    · rw [List.mem_singleton.mp hx]
      exact hmem
    · have hcount := hperm.count_eq x
      rw [List.count_cons] at hcount
      rw [hpage, List.count_singleton]
      exact hcount
  · cases hk
    refine h.others (.refl k.mem []) (fun x hx => nomatch hx) fun x => ?_
    have hset : (k.pipes.set i Q).map PipePage.page = k.pipePages := by
      unfold Sys.pipePages
      rw [List.map_set, hpage, ← hget, ← List.getElem_map PipePage.page,
        List.set_getElem_self]
      rw [List.length_map]
      exact hi
    rw [hset]

/-- A store writes a page that the process maps, or nothing. -/
theorem userStore_cases :
    Ends (userStore r va contents) m fun _ t => t = m ∨ ∃ page, va < 2 ^ 47
      ∧ mapped m r va = some page ∧ t = m.write page contents := by
  unfold userStore
  apply get_bind
  cases hlook : lookup m r va with
  | none => exact ret (.inl rfl)
  | some e =>
    change Ends (if (e.user && e.writable) = true then fill e.page contents
      else pure ()) m _
    split
    · apply Meets.change
      obtain ⟨hva, hmap⟩ := lookup_some hlook
      exact .inr ⟨e.page, hva, hmap, rfl⟩
    · exact ret (.inl rfl)

theorem Shape.walked (hw : Walked r [] s t) (hr : Y.pgdir = r)
    (hs : Shape loose s Y) : Shape loose t Y := by
  intro hu
  rcases hs hu with hsp | ⟨hl, hgone⟩
  · exact .inl (hsp.walked (hr ▸ hw))
  · refine .inr ⟨hl, fun va hva => ?_⟩
    rw [hr, hw.same va hva, ← hr]
    exact hgone va hva

theorem Sys.Inv.store (h : k.Inv loose)
    (hp : p < nproc) (hu : (k.procs p).used = true)
    (hk : (k.on (userStore (k.procs p).pgdir va contents) fun _ k => k) = some k') :
    k'.Inv loose := by
  obtain ⟨_, m, hexec, rfl⟩ := Sys.on_some hk
  have hw : Walked (k.procs p).pgdir [] k.mem m := by
    rcases userStore_cases.elim hexec with rfl | ⟨page, hva, hmap, rfl⟩
    · exact .refl ..
    · exact .write (h.owned.sound hp hu) hva (.inr hmap)
  have hstep := h.swap hp (.holds hw.moves.swaps hu hu rfl)
    (Shape.walked hw rfl (h.shape p hp))
  unfold Sys.setProc at hstep
  rw [update_eq_self] at hstep
  exact hstep

/-- A process that has an instruction to execute has not lost its memory. -/
theorem Sys.Inv.space {pc : Nat} (h : k.Inv loose) (hp : p < nproc)
    (hu : (k.procs p).used = true) (hpc : k.fetches p pc = true) :
    Space k.mem (k.procs p).pgdir (k.procs p).sz := by
  rcases h.shape p hp hu with hsp | ⟨-, hgone⟩
  · exact hsp
  unfold Sys.fetches at hpc
  cases hlook : lookup k.mem (k.procs p).pgdir pc with
  | none =>
    rw [hlook] at hpc
    cases hpc
  | some e =>
    obtain ⟨hva, hmap⟩ := lookup_some hlook
    cases (hgone pc hva).symm.trans hmap

/-- An `sbrk` that takes all memory away and reports an error. -/
def Call.wipes (sz : Nat) : Call → Bool
  | .sbrk n => decide (Wipes sz n)
  | _ => false

def Sys.WipedBy (k : Sys) (a : Act) : Prop := a.call.wipes (k.procs a.proc).sz = true

instance (k : Sys) (a : Act) : Decidable (k.WipedBy a) :=
  inferInstanceAs (Decidable (_ = true))

theorem Sys.Inv.step {a : Act} (h : k.Inv loose) (hwipe : k.WipedBy a → loose)
    (hk : k.step a = some k') : k'.Inv loose := by
  obtain ⟨p, pc, call⟩ := a
  unfold Sys.step at hk
  by_cases hguard : p < nproc ∧ (k.procs p).used = true ∧ (k.procs p).zombie = false
      ∧ (call.instruction = true → k.fetches p pc = true)
  · rw [if_pos hguard] at hk
    obtain ⟨hp, hu, -, hpc⟩ := hguard
    have hspace := fun hi => h.space hp hu (hpc hi)
    cases call with
    | fork => exact h.fork hp hu (hspace rfl) hk
    | exec img => exact h.exec hp hu (hspace rfl) hk
    | sbrk n => exact h.sbrk hp hu (hspace rfl) (fun hw => hwipe (decide_eq_true hw)) hk
    | exit =>
      dsimp only at hk
      split at hk
      · cases hk
      · cases hk
        exact h.exit p
    | wait => exact h.wait hk
    | pipealloc files => exact h.pipealloc hk
    | pipeclose i writable => exact h.pipeclose hk
    | store va contents => exact h.store hp hu hk
  · rw [if_neg hguard] at hk
    cases hk

-- ==== boot

/-- The pages `L` have left the free list. -/
def Spends (s t : Mem) (L : List Nat) : Prop :=
  t.endPage = s.endPage ∧ ∀ x, t.freelist.count x + L.count x = s.freelist.count x

theorem Takes.spends (h : Takes s t L) : Spends s t L := ⟨h.endPage, h.bal⟩

theorem Spends.trans {u : Mem} (h : Spends s t L) (h' : Spends t u L') :
    Spends s u (L ++ L') := by
  refine ⟨h'.1.trans h.1, fun x => ?_⟩
  have hx := h.2 x
  have hx' := h'.2 x
  rw [List.count_append]
  omega

theorem startothers_spec (n : Nat) (s : Mem) :
    Safe Full (startothers n) s fun L t => Spends s t L ∧ t.kpdpt = s.kpdpt := by
  induction n generalizing s with
  | zero => exact ret ⟨⟨rfl, fun _ => rfl⟩, rfl⟩
  | succ n ih =>
    unfold startothers
    refine (kalloc_takes s).seq fun stack s1 ⟨h1, _⟩ => ?_
    refine (kallocZeroed_takes s1).seq fun loc s2 ⟨h2, _⟩ => ?_
    refine (ih s2).seq fun rest s3 ⟨h3, hkpdpt⟩ => ?_
    exact ret ⟨h1.spends.trans (h2.spends.trans h3),
      hkpdpt.trans (h2.kpdpt.trans h1.kpdpt)⟩

theorem bootPages_spec (ncpu : Nat) (s : Mem) :
    Safe Full (bootPages ncpu) s fun L t => Spends s t L ∧ t.kpdpt ∈ L := by
  unfold bootPages
  refine (kallocZeroed_takes s).seq fun kpml4 s1 ⟨h1, _⟩ => ?_
  refine (kallocZeroed_takes s1).seq fun kpdpt s2 ⟨h2, _⟩ => ?_
  apply modify_bind
  apply modify_bind
  apply modify_bind
  apply modify_bind
  refine (kallocZeroed_takes _).seq fun idt s3 ⟨h3, _⟩ => ?_
  have hspends3 : Spends s2 s3 [idt] := h3.spends
  have hkpdpt : s3.kpdpt = kpdpt := h3.kpdpt
  refine (kallocZeroed_takes s3).seq fun loc s4 ⟨h4, _⟩ => ?_
  refine (startothers_spec (ncpu - 1) s4).seq fun others s5 ⟨h5, hkpdpt'⟩ => ?_
  apply ret
  rw [hkpdpt', h4.kpdpt, hkpdpt]
  refine ⟨h1.spends.trans (h2.spends.trans (hspends3.trans (h4.spends.trans h5))), ?_⟩
  exact List.mem_cons_of_mem _ List.mem_cons_self

theorem userinitPages_spec (hs : Stock s) :
    Safe Full (userinitPages code) s fun r t =>
      Takes s t (r.1 :: tree t r.2) ∧ Space t r.2 (pgSize * 2) := by
  unfold userinitPages
  refine (kalloc_takes s).seq fun kstack s1 ⟨h1, _⟩ => ?_
  refine (setupkvm_spec s1).seq fun d s2 ⟨h2, hgone, _⟩ => ?_
  have hs2 := h2.sound (h1.stock hs)
  refine (kallocZeroed_takes s2).seq fun page s3 ⟨h3, _, _⟩ => ?_
  have hm3 := h3.hand hs2
  have hs3 := hm3.sound hs2
  have hgone3 : Gone s3 d := fun va hva => (h3.mapped hs2 hva).trans (hgone va hva)
  refine (mappages_spec hs3 (by decide) (hgone3 pgSize (by decide))).seq ?_
  intro _ s4 ⟨hm4, hmap⟩
  have hs4 := hm4.sound hs3
  have hpage : mapped s4 d pgSize = some page := by
    rw [hmap pgSize (by decide), if_pos rfl]
  apply modify_bind
  apply ret
  have hw : Walked d [] s4 (s4.write page code) := .write hs4 (by decide) (.inr hpage)
  have hcov : Covers s4 d 2 := hgone3.covers.extend (Nat.le_refl 1) rfl hmap
  refine ⟨h1.trans (h2.moves ((hm3.trans hm4).trans hw.moves)), by decide, ?_⟩
  exact hcov.congr hw.same

theorem count_range_reverse (a b x : Nat) : ((List.range' a (b - a)).reverse).count x
    = if a ≤ x ∧ x < b then 1 else 0 := by
  rw [List.count_reverse]
  split
  · apply List.count_eq_one_of_mem List.nodup_range'
    rw [List.mem_range'_1]
    omega
  · apply List.count_eq_zero.mpr
    rw [List.mem_range'_1]
    omega

theorem Sys.inv_boot {endPage ncpu : Nat} {low : Nat → Nat → Option Pte} (hend : 0 < endPage)
    (hk : Sys.boot endPage ncpu low code = some k) : k.Inv False := by
  unfold Sys.boot at hk
  obtain ⟨k1, hk1, hk⟩ := Option.bind_eq_some_iff.mp hk
  obtain ⟨L, m1, hexec1, rfl⟩ := Sys.on_some hk1
  obtain ⟨⟨hend1, hspends⟩, hkpdpt⟩ := (bootPages_spec ncpu _).elim hexec1
  have hinv : Sys.Inv False ⟨m1, fun _ => .none, [], L⟩ := by
    refine ⟨⟨?_, fun x => ?_, hkpdpt⟩, fun p _ hu => nomatch hu⟩
    · show 0 < m1.endPage
      rw [hend1]
      exact hend
    · have hx := hspends x
      have hnone : held (fun _ => .none) m1 x = 0 := by
        apply sum_eq_zero
        intro q _
        rfl
      show m1.freelist.count x + held (fun _ => .none) m1 x + 0 + L.count x = _
      rw [hnone, hend1]
      show _ = if endPage ≤ x ∧ x < physPages then 1 else 0
      rw [← count_range_reverse]
      exact hx
  obtain ⟨r, m, hexec, rfl⟩ := Sys.on_some hk
  have hstock : Stock m1 := by
    refine ⟨hinv.owned.kernel, fun x => ?_⟩
    have honce := hinv.owned.once x
    unfold Sys.total at honce
    dsimp only at honce
    omega
  obtain ⟨htakes, hspace⟩ := (userinitPages_spec hstock).elim hexec
  have hswap := htakes.swaps []
  rw [List.append_nil] at hswap
  exact hinv.swap (by decide) hswap fun _ => .inl hspace

end Xv6FsServer.Vm
