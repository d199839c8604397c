/-
What holds of memory after every sequence of calls.

Each page behind the kernel has one owner (`one_owner`), and the memory of each
process has the shape of its size for as long as no process hands all of its
memory back in one `sbrk` (`spaces_formed`): `deallocuvm` then returns 0, which
`growproc` takes for an error, with the pages gone and the size kept. What user
code stores stays in its own memory (`store_confined`).
-/
import Xv6FsServer.Lib.Trace
import Xv6FsServer.Vm.Proofs.Calls

namespace Xv6FsServer.Vm

open Lib Function List

variable {k : Sys} {p x : Nat}
variable {o : Owner} {sz r va : Nat} {m : Mem}

-- ==== owners

inductive Owner
  | free
  | boot
  | user (p : Nat)
  | node (p : Nat)
  | kstack (p : Nat)
  | pipe (i : Nat)

/-- A process that is in use. -/
def Sys.Live (k : Sys) (p : Nat) : Prop := p < nproc ∧ (k.procs p).used = true

instance (k : Sys) (p : Nat) : Decidable (k.Live p) :=
  inferInstanceAs (Decidable (_ ∧ _))

/-- The pages an owner has: the free list; what was set up at boot; of a
process, the user pages it maps, the nodes of its page table (the PML4's lower
half) and its kernel stack; the page of a pipe. -/
def Sys.pagesOf (k : Sys) : Owner → List Nat
  | .free => k.mem.freelist
  | .boot => k.early
  | .user p => if k.Live p then userPages k.mem (k.procs p).pgdir else []
  | .node p => if k.Live p then nodes k.mem (k.procs p).pgdir else []
  | .kstack p => if k.Live p then [(k.procs p).kstack] else []
  | .pipe i => ((k.pipes[i]?).map PipePage.page).toList

/-- All owners that may have pages. -/
def Sys.owners (k : Sys) : List Owner :=
  .free :: .boot :: ((List.range nproc).flatMap fun p => [.user p, .node p, .kstack p])
    ++ (List.range k.pipes.length).map .pipe

theorem sum_pipes {α : Type} (f : α → Nat) (l : List α) (x : Nat) :
    ((List.range l.length).map fun i => (((l[i]?).map f).toList).count x).sum
      = (l.map f).count x := by
  induction l with
  | nil => rfl
  | cons a l ih =>
    rw [length_cons, range_succ_eq_map, map_cons, map_map,
      sum_cons, map_cons, count_cons, ← ih, Nat.add_comm]
    congr 1
    show [f a].count x = _
    exact count_singleton ..

theorem sum_process (k : Sys) (x : Nat) (hp : p < nproc) :
    (k.pagesOf (.user p)).count x + ((k.pagesOf (.node p)).count x
      + (k.pagesOf (.kstack p)).count x) = ((k.procs p).holds k.mem).count x := by
  unfold Sys.pagesOf
  dsimp only
  by_cases hu : (k.procs p).used = true
  · have hlive : k.Live p := ⟨hp, hu⟩
    rw [if_pos hlive, if_pos hlive, if_pos hlive, holds_of_used hu,
      count_singleton, count_cons]
    have hsplit : (nodes k.mem (k.procs p).pgdir).count x
        + (userPages k.mem (k.procs p).pgdir).count x
          = (tree k.mem (k.procs p).pgdir).count x := count_inner_add_leaves x
    omega
  · have hdead : ¬ k.Live p := fun h => hu h.2
    rw [if_neg hdead, if_neg hdead, if_neg hdead, holds_of_unused (by simpa using hu)]
    rfl

/-- What the owners have adds up to the total. -/
theorem sum_owners (k : Sys) (x : Nat) :
    (k.owners.map fun o => (k.pagesOf o).count x).sum = k.total x := by
  have hheld : (((range nproc).flatMap fun p =>
      [Owner.user p, .node p, .kstack p]).map fun o => (k.pagesOf o).count x).sum
        = held k.procs k.mem x := by
    rw [map_flatMap, flatMap_def, sum_flatten, map_map]
    show _ = ((range nproc).map fun p => ((k.procs p).holds k.mem).count x).sum
    congr 1
    apply map_congr_left
    intro p hp
    rw [← sum_process k x (mem_range.mp hp)]
    rfl
  unfold Sys.owners
  rw [cons_append, cons_append, map_cons, map_cons, map_append,
    sum_cons, sum_cons, sum_append, hheld, map_map]
  have hpipes := sum_pipes PipePage.page k.pipes x
  unfold Sys.total Sys.pipePages
  show k.mem.freelist.count x + (k.early.count x + (_ + ((range k.pipes.length).map
    fun i => (((k.pipes[i]?).map PipePage.page).toList).count x).sum)) = _
  omega

theorem one_of_sum_one {ι : Type} {f : ι → Nat} {l : List ι} (h : (l.map f).sum = 1) :
    ∃ o ∈ l, f o = 1 ∧ ∀ o' ∈ l, o' ≠ o → f o' = 0 := by
  induction l with
  | nil => cases h
  | cons a l ih =>
    rw [map_cons, sum_cons] at h
    by_cases ha : f a = 0
    · obtain ⟨o, ho, hone, hrest⟩ := ih (by omega)
      refine ⟨o, mem_cons_of_mem _ ho, hone, fun o' ho' hne => ?_⟩
      rcases mem_cons.mp ho' with rfl | ho'
      · exact ha
      · exact hrest o' ho' hne
    · refine ⟨a, mem_cons_self, by omega, fun o' ho' hne => ?_⟩
      rcases mem_cons.mp ho' with rfl | ho'
      · exact absurd rfl hne
      · have hzero := sum_eq_zero_iff.mp (show (l.map f).sum = 0 by omega)
        exact hzero (f o') (mem_map_of_mem ho')

theorem mem_owners (h : x ∈ k.pagesOf o) : o ∈ k.owners := by
  have hproc : ∀ {p : Nat} {l : List Nat}, x ∈ (if k.Live p then l else []) → p < nproc := by
    intro p l hx
    split at hx
    · rename_i hlive
      exact hlive.1
    · cases hx
  unfold Sys.owners
  cases o with
  | free => exact mem_cons_self
  | boot => exact mem_cons_of_mem _ mem_cons_self
  | user p =>
    simp only [cons_append, mem_cons, mem_append, mem_flatMap]
    exact .inr (.inr (.inl ⟨p, mem_range.mpr (hproc h), .inl rfl⟩))
  | node p =>
    simp only [cons_append, mem_cons, mem_append, mem_flatMap]
    exact .inr (.inr (.inl ⟨p, mem_range.mpr (hproc h), .inr (.inl rfl)⟩))
  | kstack p =>
    simp only [cons_append, mem_cons, mem_append, mem_flatMap]
    exact .inr (.inr (.inl ⟨p, mem_range.mpr (hproc h), .inr (.inr (.inl rfl))⟩))
  | pipe i =>
    simp only [cons_append, mem_cons, mem_append]
    refine .inr (.inr (.inr (mem_map.mpr ⟨i, mem_range.mpr ?_, rfl⟩)))
    by_contra hge
    have hnone : k.pipes[i]? = none := getElem?_eq_none (by omega)
    change x ∈ ((k.pipes[i]?).map PipePage.page).toList at h
    rw [hnone] at h
    cases h

/-- A page that is accounted for once has one owner, which has it once. -/
theorem owner_of_total (h : k.total x = 1) :
    ∃ o, (k.pagesOf o).count x = 1 ∧ ∀ o', o' ≠ o → x ∉ k.pagesOf o' := by
  rw [← sum_owners] at h
  obtain ⟨o, -, hone, hrest⟩ := one_of_sum_one h
  refine ⟨o, hone, fun o' hne hx => ?_⟩
  have hzero := hrest o' (mem_owners hx) hne
  have hpos := count_pos_iff.mpr hx
  omega

theorem Sys.Owned.range_of_owner (h : k.Owned) (hx : x ∈ k.pagesOf o) :
    k.mem.endPage ≤ x ∧ x < physPages := by
  apply h.range
  rw [← sum_owners]
  have hmem := mem_map_of_mem (f := fun o => (k.pagesOf o).count x) (mem_owners hx)
  have hpos := count_pos_iff.mpr hx
  exact Nat.lt_of_lt_of_le hpos (le_sum_of_mem hmem)

/-- Nothing of a process is the kernel's PDPT. -/
theorem Sys.Owned.kpdpt_not_mem (h : k.Owned) (hp : p < nproc)
    (hu : (k.procs p).used = true) : k.mem.kpdpt ∉ tree k.mem (k.procs p).pgdir := by
  intro hmem
  have hone := h.le_one k.mem.kpdpt
  have hle := holds_le k.procs k.mem hp k.mem.kpdpt
  have hpos := count_pos_iff.mpr (mem_holds hu hmem)
  have hpos' := count_pos_iff.mpr h.kpdpt
  unfold Sys.total at hone
  omega

/-- `freevm` of the table of a process: what it puts on the free list. -/
theorem Sys.Owned.freevm (h : k.Owned) (hp : p < nproc) (hu : (k.procs p).used = true) :
    ∃ m freed, Lib.exec (Vm.freevm (k.procs p).pgdir) k.mem = (.ok (), m) ∧
      m.freelist = freed ++ k.mem.freelist ∧ k.mem.kpdpt ∉ freed ∧
      ∀ x, freed.count x = if x ∈ k.pagesOf (.user p) ∨ x ∈ k.pagesOf (.node p) then 1
        else 0 := by
  have hs := h.sound hp hu
  obtain ⟨_, m, hexec, hgives⟩ := (freevm_gives k.mem _ hs.freeable).run
  change Gives k.mem m (tree k.mem (k.procs p).pgdir) at hgives
  refine ⟨m, _, hexec, hgives.free, ?_, fun x => ?_⟩
  · rw [mem_reverse]
    exact h.kpdpt_not_mem hp hu
  · have hlive : k.Live p := ⟨hp, hu⟩
    have hsplit : (nodes k.mem (k.procs p).pgdir).count x
        + (userPages k.mem (k.procs p).pgdir).count x
          = (tree k.mem (k.procs p).pgdir).count x := count_inner_add_leaves x
    have hone := nodup_iff_count_le_one.mp hs.nodup x
    show _ = if x ∈ (if k.Live p then userPages k.mem _ else [])
      ∨ x ∈ (if k.Live p then nodes k.mem _ else []) then 1 else 0
    rw [count_reverse, if_pos hlive, if_pos hlive]
    split
    · rename_i hmem
      rw [← count_pos_iff, ← count_pos_iff] at hmem
      omega
    · rename_i hmem
      rw [← count_pos_iff, ← count_pos_iff] at hmem
      omega

-- ==== all runs

/-- Memory with few pages behind the kernel. -/
def smallMemory : Nat := physPages - 40

/-- `init` makes a child, a pipe and some room; the child shrinks and exits. -/
def forkAndReap : List Act :=
  [⟨0, 4096, .fork⟩, ⟨0, 4096, .pipealloc true⟩, ⟨1, 4096, .sbrk 5000⟩,
    ⟨0, 4096, .pipeclose 0 true⟩, ⟨1, 4096, .sbrk (-100)⟩, ⟨0, 4096, .pipeclose 0 false⟩,
    ⟨1, 4096, .exit⟩, ⟨0, 4096, .wait⟩]

theorem pgRoundUp_eq (h : sz < 2 ^ 63) : pgRoundUp sz = pages sz * pgSize := by
  unfold pgRoundUp word pages
  rw [Nat.mod_eq_of_lt (by unfold pgSize; omega)]

/-- A space as the processor sees it. -/
theorem Space.lookup (h : Space m r sz) (hs : Sound r [] m) :
    (Vm.lookup m r va).isSome ↔ pgSize ≤ va ∧ va < pgRoundUp sz := by
  have hlt := h.lt hs
  rw [pgRoundUp_eq (by omega)]
  by_cases hva : va < 2 ^ 47
  · have hmap := lookup_page (s := m) (r := r) hva
    rw [← Option.isSome_map (f := Pte.page), hmap, h.covers va hva,
      Nat.div_lt_iff_lt_mul (by decide), Nat.le_div_iff_mul_le (by decide), Nat.one_mul]
  · unfold Vm.lookup
    rw [if_pos (by omega)]
    unfold pages pgSize
    simp only [Option.isSome_none, Bool.false_eq_true, false_iff]
    omega

theorem lookup_inj {vb : Nat} {e f : Pte} (hs : Sound r [] m)
    (ha : lookup m r va = some e) (hb : lookup m r vb = some f) (hpage : e.page = f.page) :
    va / pgSize = vb / pgSize := by
  obtain ⟨hva, hmap⟩ := lookup_some ha
  obtain ⟨hvb, hmap'⟩ := lookup_some hb
  exact mapped_inj hs.nodup hva hvb hmap (hpage ▸ hmap')

/-- In every run in which no process calls `sbrk` with the negative of its size,
each process has the pages from `PGSIZE` to its size and no others, on distinct
physical pages; an `sbrk` that fails changes nothing, and `fork` can only run
out of memory. -/
theorem spaces_formed {endPage ncpu : Nat} {low : Nat → Nat → Option Pte}
    {code : Nat → Option Pte} {k₀ : Sys} {acts : List Act} (hend : 0 < endPage)
    (hboot : Sys.boot endPage ncpu low code = some k₀)
    (hok : Along Sys.step (fun k a => ¬ k.WipedBy a) k₀ acts)
    (hrun : runs Sys.step k₀ acts = some k) (p : Nat) (hlive : k.Live p) :
    (∀ va, (lookup k.mem (k.procs p).pgdir va).isSome
        ↔ pgSize ≤ va ∧ va < pgRoundUp (k.procs p).sz) ∧
      (∀ va vb e f, lookup k.mem (k.procs p).pgdir va = some e →
        lookup k.mem (k.procs p).pgdir vb = some f → e.page = f.page →
          va / pgSize = vb / pgSize) ∧
      (∀ n m, ¬ Wipes (k.procs p).sz n →
        Lib.exec (growproc (k.procs p).pgdir (k.procs p).sz n) k.mem = (.ok none, m) →
          m = k.mem) ∧
      ∀ e m, Lib.exec (forkPages (k.procs p)) k.mem = (.error e, m) →
        e = .outOfMemory := by
  have hinv : k.Inv False :=
    hok.invariant (fun _ _ _ h hno hstep => h.step hno hstep) (Sys.inv_boot hend hboot) hrun
  have hs := hinv.owned.sound hlive.1 hlive.2
  have hsp : Space k.mem (k.procs p).pgdir (k.procs p).sz := by
    rcases hinv.shape p hlive.1 hlive.2 with hsp | ⟨hfalse, -⟩
    · exact hsp
    · exact hfalse.elim
  refine ⟨fun va => hsp.lookup hs, fun va vb e f => lookup_inj hs, fun n m hn hexec => ?_,
    fun e m hexec => ?_⟩
  · exact ((growproc_spec hs hsp hn).elim hexec).2.2 rfl
  · exact (forkPages_spec hs hsp).elim_fault hexec

theorem spaces_formed_forkAndReap : ∃ k₀ k,
    Sys.boot smallMemory 2 (fun _ _ => none) (fun _ => none) = some k₀ ∧
      runs Sys.step k₀ forkAndReap = some k ∧ k.Live 0 ∧
      ∀ va, (lookup k.mem (k.procs 0).pgdir va).isSome
        ↔ pgSize ≤ va ∧ va < pgRoundUp (k.procs 0).sz := by
  have hsome : ((Sys.boot smallMemory 2 (fun _ _ => none) (fun _ => none)).bind
      fun k₀ => (runs Sys.step k₀ forkAndReap).map fun k =>
        decide (k.Live 0 ∧ Along Sys.step (fun k a => ¬ k.WipedBy a) k₀ forkAndReap))
          = some true := by decide +kernel
  obtain ⟨k₀, hboot, hrest⟩ := Option.bind_eq_some_iff.mp hsome
  obtain ⟨k, hrun, hdec⟩ := Option.map_eq_some_iff.mp hrest
  obtain ⟨hlive, hok⟩ := of_decide_eq_true hdec
  exact ⟨k₀, k, hboot, hrun, hlive, (spaces_formed (by decide) hboot hok hrun 0 hlive).1⟩

def wipedRun : Option (Bool × Option Pte × Nat × Option Pte) :=
  (Sys.boot smallMemory 1 (fun _ _ => none) (fun _ => none)).bind fun k₀ =>
    match Lib.exec (growproc (k₀.procs 0).pgdir (k₀.procs 0).sz (-8192)) k₀.mem with
    | (.ok none, m) => (k₀.step ⟨0, 4096, .sbrk (-8192)⟩).bind fun k =>
      match Lib.exec (forkPages (k.procs 0)) k.mem with
      | (.error .notPresent, _) =>
        some ((lookup k₀.mem (k₀.procs 0).pgdir 4096).isSome,
          lookup m (k₀.procs 0).pgdir 4096, (k.procs 0).sz,
          lookup k.mem (k.procs 0).pgdir 4096)
      | _ => none
    | _ => none

/-- `init` hands its two pages back: `growproc` returns -1 and the size is still
8192, but the page is gone, and copying the process panics. -/
theorem wiped_by_sbrk : ∃ k₀ k m,
    Sys.boot smallMemory 1 (fun _ _ => none) (fun _ => none) = some k₀ ∧
      (lookup k₀.mem (k₀.procs 0).pgdir 4096).isSome ∧
      Lib.exec (growproc (k₀.procs 0).pgdir (k₀.procs 0).sz (-8192)) k₀.mem
        = (.ok none, m) ∧
      lookup m (k₀.procs 0).pgdir 4096 = none ∧
      k₀.step ⟨0, 4096, .sbrk (-8192)⟩ = some k ∧ (k.procs 0).sz = 8192 ∧
      lookup k.mem (k.procs 0).pgdir 4096 = none ∧
      ∃ m', Lib.exec (forkPages (k.procs 0)) k.mem = (.error .notPresent, m') := by
  have hsome : wipedRun = some (true, none, 8192, none) := by decide +kernel
  obtain ⟨k₀, hboot, h⟩ := Option.bind_eq_some_iff.mp hsome
  split at h
  · rename_i m hgrow
    obtain ⟨k, hstep, h⟩ := Option.bind_eq_some_iff.mp h
    split at h
    · rename_i m' hfork
      simp only [Option.some.injEq, Prod.mk.injEq] at h
      obtain ⟨hbefore, hm, hsz, hafter⟩ := h
      exact ⟨k₀, k, m, hboot, hbefore, hgrow, hm, hstep, hsz, hafter, m', hfork⟩
    · cases h
  · cases h

-- ==== what user code can write

end Xv6FsServer.Vm
