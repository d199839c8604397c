/-
`exec`: a new image is built in a table of its own, and one of the two tables
is freed.

Building writes to user pages of the new table, and to page 0 where a segment
is to be loaded to an address that is not mapped. The arguments are copied to
below the top of the stack, from where their address can pass zero and wrap
around; it is then so high up that its PML4 slot is empty, and `copyout` does
not get past the walk.
-/
import Xv6FsServer.Vm.Proofs.Taking

namespace Xv6FsServer.Vm

open Lib Function Meets

variable {s t u : Mem} {r d n va sz page x : Nat} {H : List Nat}
variable {bytes : Nat → Nat → Option Pte} {L : List Nat}

abbrev Any (_ : Panic) : Prop := True

/-- A table that only the lower half of is in use, apart from the kernel's
entry. -/
structure Building (d : Nat) (s : Mem) : Prop where
  sound : Sound d [] s
  upper : ∀ i, 256 < i → s.entry d i = none

theorem Building.moves (h : Building d s) (hm : Moves d [] [] s t) : Building d t where
  sound := hm.sound h.sound
  upper i hi := by
    rw [hm.upper i (by omega)]
    exact h.upper i hi

/-- A page that user code could be in is written. -/
theorem Walked.write {contents : Nat → Option Pte} (hs : Sound r H s) (hva : va < 2 ^ 47)
    (hpage : page = 0 ∨ mapped s r va = some page) :
    Walked r H s (s.write page contents) := by
  have hleaf : page ∉ nodes s r := by
    intro hmem
    rcases hpage with rfl | hmap
    · have hrange := hs.range (mem_tree_bag (H := H) (nodes_subset hmem))
      have hkernel := hs.kernel
      omega
    · exact leaf_not_mem_inner hs.nodup (mapped_mem_userPages hva hmap) hmem
  refine ⟨.write hleaf ?_, fun vb hvb => mapped_write hleaf hvb⟩
  rcases hpage with hz | hmap
  · exact .inl hz
  · exact .inr (mem_tree_bag (mapped_mem hva hmap))

theorem Space.walked (h : Space s r sz) (hw : Walked r H s t) : Space t r sz :=
  ⟨h.pos, h.covers.congr hw.same⟩

-- ==== segments

theorem loaduvmLoop_spec {readable i addr : Nat} (hs : Sound d H s)
    (haddr : ∀ j, j < n → addr + j * pgSize < 2 ^ 47) :
    Safe Any (loaduvmLoop d bytes readable n i addr) s fun _ t => Walked d H s t := by
  induction n generalizing s i addr with
  | zero => exact ret (.refl d H s)
  | succ n ih =>
    have hva : addr < 2 ^ 47 := by
      have hzero := haddr 0 (Nat.succ_pos n)
      omega
    unfold loaduvmLoop
    apply Meets.bind
    refine lift ((walkpgdir_find s d addr).mono fun v t ⟨ht, hv⟩ => ?_)
    rw [ht, hv]
    have hmap := mapped_eq s d addr
    cases htable : follow (children s) d (tables addr) with
    | none => exact fault trivial
    | some pt =>
      rw [htable] at hmap
      apply get_bind
      apply modify_bind
      have hw : Walked d H s
          (s.write ((s.entry pt (ptx addr)).elim 0 Pte.page) (bytes addr)) := by
        apply Walked.write hs hva
        rw [hmap]
        show _ ∨ children s pt (ptx addr) = _
        unfold children
        cases s.entry pt (ptx addr) with
        | none => exact .inl rfl
        | some e => exact .inr rfl
      change Safe Any (if i < readable then _ else _) (s.write _ (bytes addr)) _
      split
      · refine (ih (hw.moves.sound hs) fun j hj => ?_).mono fun _ t hw' => hw.trans hw'
        have hnext := haddr (j + 1) (by omega)
        rw [Nat.succ_mul] at hnext
        omega
      · exact ret hw

theorem loaduvm_spec {ph : Ph} (hs : Sound d H s) (hend : ph.vaddr + ph.filesz ≤ 2 ^ 47) :
    Safe Any (loaduvm d bytes ph) s fun _ t => Walked d H s t := by
  unfold loaduvm
  apply loaduvmLoop_spec hs
  intro j hj
  have hle : ph.filesz % 2 ^ 32 ≤ ph.filesz := Nat.mod_le ..
  unfold pgSize at *
  omega

theorem loadSegments_spec {phs : List Ph} (hs : Sound d H s) (h : Space s d sz) :
    Safe Any (loadSegments d bytes phs sz) s fun res t => Moves d H H s t ∧
      ∀ sz', res = some sz' → Space t d sz' := by
  induction phs generalizing s sz with
  | nil =>
    refine ret ⟨.refl d H s, fun sz' hres => ?_⟩
    cases hres
    exact h
  | cons ph phs ih =>
    have hbad : Safe Any (pure none : Op (Option Nat)) s fun res t => Moves d H H s t ∧
        ∀ sz', res = some sz' → Space t d sz' :=
      ret ⟨.refl d H s, fun _ hres => nomatch hres⟩
    unfold loadSegments
    split
    · exact hbad
    split
    · exact ih hs h
    split
    · exact hbad
    split
    · exact hbad
    rename_i hfile hwrap
    refine ((allocuvm_spec hs h).weaken fun _ _ _ => trivial).seq ?_
    rintro res s1 ⟨hm, ⟨rfl, rfl⟩ | ⟨hres, -, hsp⟩⟩
    · exact hbad
    have hbad1 : Safe Any (pure none : Op (Option Nat)) s1 fun res t =>
        Moves d H H s t ∧ ∀ sz', res = some sz' → Space t d sz' :=
      ret ⟨hm, fun _ hres => nomatch hres⟩
    have hs1 := hm.sound hs
    split
    · exact hbad1
    split
    · exact hbad1
    have hend : ph.vaddr + ph.filesz ≤ 2 ^ 47 := by
      have hlt := hsp.lt hs1
      have hmem := ph.memsz_lt
      unfold word at hwrap hres
      omega
    refine (loaduvm_spec hs1 hend).seq fun ok s2 hw => ?_
    have hs2 := hw.moves.sound hs1
    split
    · exact (ih hs2 (hsp.walked hw)).mono fun _ t ⟨hm', hsp'⟩ =>
        ⟨(hm.trans hw.moves).trans hm', hsp'⟩
    · exact ret ⟨hm.trans hw.moves, fun _ hres => nomatch hres⟩

-- ==== the stack

/-- An entry can change but for the page it names. -/
theorem Walked.flags {way : List Nat} {k q i : Nat} {e : Option Pte}
    (hs : Sound r H s) (h : Slot s r way k q i)
    (hpage : e.map Pte.page = children s q i) : Walked r H s (s.set q i e) := by
  have hsame : children (s.set q i e) = children s := by
    rw [children_set, hpage]
    unfold setSlot
    rw [update_eq_self, update_eq_self]
  have htree : tree (s.set q i e) r = tree s r := by
    unfold tree
    rw [hsame]
  refine ⟨⟨fun x => ?_, fun y hy0 hy => ?_, fun j hj => h.upper hs.nodup hj, rfl, rfl⟩,
    fun vb _ => ?_⟩
  · unfold bag
    rw [htree]
    rfl
  · apply Mem.set_of_ne
    rintro rfl
    exact absurd hy (Nat.ne_of_gt (mem_tree_bag h.mem_tree))
  · unfold mapped
    rw [hsame]

theorem clearpteu_spec (hs : Sound d H s) (hva : va < 2 ^ 47) :
    Safe Any (clearpteu d va) s fun _ t => Walked d H s t := by
  unfold clearpteu
  apply Meets.bind
  refine lift ((walkpgdir_find s d va).mono fun v t ⟨ht, hv⟩ => ?_)
  rw [ht, hv]
  cases htable : follow (children s) d (tables va) with
  | none => exact fault trivial
  | some pt =>
    apply get_bind
    apply change
    apply Walked.flags hs (slot_of_follow hva htable)
    unfold children
    rw [Option.map_map]
    rfl

/-- `copyout` to a low address, or to one whose PML4 slot is empty. -/
theorem copyoutLoop_spec {len fuel : Nat} (hb : Building d s) (hcov : Covers s d n)
    (hva : va < 2 ^ 47 ∨ 256 < pmx (pgRoundDown va)) (hfuel : len ≤ fuel) :
    Safe Any (copyoutLoop d bytes fuel va len) s fun _ t =>
      Walked d [] s t ∧ (0 < len → va < 2 ^ 47) := by
  induction fuel generalizing s va len with
  | zero => exact ret ⟨.refl d [] s, by omega⟩
  | succ fuel ih =>
    unfold copyoutLoop
    split
    · exact ret ⟨.refl d [] s, by omega⟩
    rename_i hlen
    apply Meets.bind
    refine lift ((walkpgdir_find s d (pgRoundDown va)).mono fun v t ⟨ht, hv⟩ => ?_)
    rw [ht, hv]
    rcases hva with hva | hhigh
    · have hle : pgRoundDown va ≤ va := Nat.div_mul_le_self ..
      have hmap := mapped_eq s d (pgRoundDown va)
      cases htable : follow (children s) d (tables (pgRoundDown va)) with
      | none => exact fault trivial
      | some pt =>
        rw [htable] at hmap
        change mapped s d (pgRoundDown va) = children s pt _ at hmap
        apply get_bind
        cases hentry : s.entry pt (ptx (pgRoundDown va)) with
        | none => exact ret ⟨.refl d [] s, fun _ => hva⟩
        | some e =>
          unfold children at hmap
          rw [hentry] at hmap
          change Safe Any (if e.user = false then _ else _) s _
          split
          · exact ret ⟨.refl d [] s, fun _ => hva⟩
          apply modify_bind
          have hw : Walked d [] s (s.write e.page (bytes va)) :=
            .write hb.sound (by omega) (.inr hmap)
          have hpages := hcov.le hb.sound
          have hin := (hcov (pgRoundDown va) (by omega)).mp (by rw [hmap]; rfl)
          have hnext : pgRoundDown va + pgSize < 2 ^ 47 := by
            have hphys : physPages = 57344 := rfl
            unfold pgSize at *
            omega
          refine (ih (hb.moves hw.moves) (hcov.congr hw.same) (.inl hnext) ?_).mono
            fun _ t hrest => ⟨hw.trans hrest.1, fun _ => hva⟩
          unfold pgRoundDown pgSize
          omega
    · have hnone : children s d (pmx (pgRoundDown va)) = none := by
        unfold children
        rw [hb.upper _ hhigh]
        rfl
      have hwalk : follow (children s) d (tables (pgRoundDown va)) = none := by
        show (children s d _).bind _ = none
        rw [hnone]
        rfl
      rw [hwalk]
      exact fault trivial

/-- An address a little below `sp` is low, or wraps around to the top. -/
theorem below_sp {sp len : Nat} (hsp : sp < 2 ^ 47) (hlen : len ≤ 2 ^ 30) :
    word (sp + 2 ^ 64 - len) / 8 * 8 < 2 ^ 47
      ∨ 256 < pmx (pgRoundDown (word (sp + 2 ^ 64 - len) / 8 * 8)) := by
  unfold pmx pgRoundDown word pgSize
  omega

theorem pushArgs_spec {args : List Nat} {argc sp : Nat} (hb : Building d s)
    (hcov : Covers s d n) (hsp : sp < 2 ^ 47)
    (hargs : ∀ len ∈ args, len < physPages * pgSize) :
    Safe Any (pushArgs d bytes argc args sp) s fun res t => Walked d [] s t ∧
      ∀ sp', res = some sp' → sp' < 2 ^ 47 ∧ args.length ≤ maxArg - argc := by
  induction args generalizing s argc sp with
  | nil =>
    refine ret ⟨.refl d [] s, fun sp' hres => ?_⟩
    cases hres
    exact ⟨hsp, Nat.zero_le _⟩
  | cons len args ih =>
    unfold pushArgs
    split
    · exact ret ⟨.refl d [] s, fun _ hres => nomatch hres⟩
    rename_i hmax
    have hshort : len + 1 ≤ 2 ^ 30 := by
      have hlen := hargs len List.mem_cons_self
      have hmem : physPages * pgSize = 234881024 := rfl
      omega
    refine (copyoutLoop_spec hb hcov (below_sp hsp hshort) (Nat.le_refl _)).seq ?_
    intro ok s1 ⟨hw, hlow⟩
    have hrest : Safe Any (pushArgs d bytes (argc + 1) args
        (word (sp + 2 ^ 64 - (len + 1)) / 8 * 8)) s1 fun res t => Walked d [] s1 t ∧
          ∀ sp', res = some sp' → sp' < 2 ^ 47 ∧ args.length ≤ maxArg - (argc + 1) :=
      ih (hb.moves hw.moves) (hcov.congr hw.same) (hlow (Nat.succ_pos len))
        fun l hl => hargs l (List.mem_cons_of_mem _ hl)
    split
    · refine hrest.mono fun res t ⟨hw', hres⟩ => ⟨hw.trans hw', fun sp' hsp' => ?_⟩
      obtain ⟨hlt, hlength⟩ := hres sp' hsp'
      refine ⟨hlt, ?_⟩
      rw [List.length_cons]
      omega
    · exact ret ⟨hw, fun _ hres => nomatch hres⟩

-- ==== exec

theorem pages_pgRoundUp (h : sz < 2 ^ 63) : pages (pgRoundUp sz) = pages sz := by
  unfold pgRoundUp word pages pgSize
  omega

theorem Space.roundUp (h : Space s r sz) (hlt : sz < 2 ^ 63) : Space s r (pgRoundUp sz) := by
  have hpos := h.pos
  refine ⟨?_, ?_⟩
  · unfold pgRoundUp word pgSize
    omega
  · rw [pages_pgRoundUp hlt]
    exact h.covers

theorem buildStack_spec {img : Image} (hb : Building d s) (h : Space s d sz) :
    Safe Any (buildStack d img sz) s fun _ t => Walked d [] s t := by
  have hlt := h.lt hb.sound
  unfold buildStack
  refine (clearpteu_spec hb.sound (by omega)).seq fun _ s1 hw1 => ?_
  have hb1 := hb.moves hw1.moves
  have hsp1 := h.walked hw1
  refine (pushArgs_spec hb1 hsp1.covers (by omega) img.args_lt).seq ?_
  intro res s2 ⟨hw2, hres⟩
  cases res with
  | none => exact ret (hw1.trans hw2)
  | some sp =>
    obtain ⟨hsp, hlength⟩ := hres sp rfl
    have hb2 := hb1.moves hw2.moves
    have hsp2 := hsp1.walked hw2
    refine (copyoutLoop_spec hb2 hsp2.covers ?_ (Nat.le_refl _)).mono ?_
    · have hmax : maxArg = 32 := rfl
      unfold pmx pgRoundDown word pgSize
      omega
    · intro _ s3 ⟨hw3, _⟩
      exact (hw1.trans hw2).trans hw3

theorem buildImage_spec {img : Image} (hb : Building d s) (hgone : Gone s d) :
    Safe Any (buildImage d img) s fun res t => Moves d [] [] s t ∧
      ∀ sz, res = some sz → Space t d sz := by
  have hstart : Space s d pgSize := ⟨by decide, hgone.covers⟩
  unfold buildImage
  refine (loadSegments_spec hb.sound hstart).seq fun res s1 ⟨hm1, hres⟩ => ?_
  cases res with
  | none => exact ret ⟨hm1, fun _ hnone => nomatch hnone⟩
  | some sz =>
    have hb1 := hb.moves hm1
    have hsp1 := hres sz rfl
    have hlt := hsp1.lt hb1.sound
    generalize word (pgRoundUp sz + 2 * pgSize) = newsz
    refine ((allocuvm_spec hb1.sound (hsp1.roundUp (by omega))).weaken
      fun _ _ _ => trivial).seq ?_
    intro sz2 s2 ⟨hm2, hcase⟩
    have hm := hm1.trans hm2
    split
    · exact ret ⟨hm, fun _ hnone => nomatch hnone⟩
    rename_i hne
    have hsp2 : Space s2 d sz2 := by
      rcases hcase with ⟨hz, -⟩ | ⟨-, -, hsp⟩
      · exact absurd hz hne
      · exact hsp
    refine (buildStack_spec (hb1.moves hm2) hsp2).seq fun ok s3 hw => ?_
    split
    · refine ret ⟨hm.trans hw.moves, fun _ hsome => ?_⟩
      cases hsome
      exact hsp2.walked hw
    · exact ret ⟨hm.trans hw.moves, fun _ hnone => nomatch hnone⟩

/-- The caller's pages `L` are exchanged for `L'`, in part or as a whole. -/
structure Swaps (s t : Mem) (L L' : List Nat) : Prop where
  bal : ∀ x, t.freelist.count x + L'.count x = s.freelist.count x + L.count x
  frame : ∀ q, q ≠ 0 → q ∉ s.freelist → q ∉ L → t.entry q = s.entry q
  endPage : t.endPage = s.endPage
  kpdpt : t.kpdpt = s.kpdpt

theorem Swaps.trans {L' L'' : List Nat} (h : Swaps s t L L') (h' : Swaps t u L' L'') :
    Swaps s u L L'' where
  bal x := (h'.bal x).trans (h.bal x)
  frame q hq0 hfree hL := by
    have hbal := h.bal q
    rw [List.count_eq_zero.mpr hfree, List.count_eq_zero.mpr hL] at hbal
    have hfree' : q ∉ t.freelist := List.count_eq_zero.mp (by omega)
    have hL' : q ∉ L' := List.count_eq_zero.mp (by omega)
    exact (h'.frame q hq0 hfree' hL').trans (h.frame q hq0 hfree hL)
  endPage := h'.endPage.trans h.endPage
  kpdpt := h'.kpdpt.trans h.kpdpt

theorem Moves.swaps (h : Moves r [] [] s t) : Swaps s t (tree s r) (tree t r) where
  bal x := by
    have hbal := h.bal x
    unfold bag at hbal
    omega
  frame q hq0 hfree hL := by
    apply h.frame q hq0
    unfold bag
    rw [List.count_eq_zero.mpr hfree, List.count_eq_zero.mpr hL]
    rfl
  endPage := h.endPage
  kpdpt := h.kpdpt

theorem Takes.swaps (h : Takes s t L) (M : List Nat) : Swaps s t M (L ++ M) where
  bal x := by
    have hbal := h.bal x
    rw [List.count_append]
    omega
  frame q hq0 hfree _ := h.frame q hq0 hfree
  endPage := h.endPage
  kpdpt := h.kpdpt

theorem Gives.swaps (h : Gives s t L) (M : List Nat) : Swaps s t (L ++ M) M where
  bal x := by
    rw [h.free, List.count_append, List.count_append, List.count_reverse]
    omega
  frame q _ _ hL := h.frame q fun hmem => hL (List.mem_append_left _ hmem)
  endPage := h.endPage
  kpdpt := h.kpdpt

theorem Swaps.refl (s : Mem) (L : List Nat) : Swaps s s L L :=
  ⟨fun _ => rfl, fun _ _ _ _ => rfl, rfl, rfl⟩

theorem Swaps.swap {L' M : List Nat} (h : Swaps s t L (L' ++ M)) :
    Swaps s t L (M ++ L') where
  bal x := by
    have hbal := h.bal x
    rw [List.count_append] at hbal ⊢
    omega
  frame := h.frame
  endPage := h.endPage
  kpdpt := h.kpdpt

/-- Of what was free, nothing is in another table. -/
theorem Takes.apart (h : Takes s t L) (hs : Sound r H s) (hx : x ∈ tree s r) : x ∉ L := by
  have hbal := h.bal x
  have hfree : x ∉ s.freelist := fun hfree => (hs.free_not_mem hfree).1 hx
  rw [List.count_eq_zero.mpr hfree] at hbal
  exact List.count_eq_zero.mp (by omega)

theorem execImage_spec {img : Image} (hs : Sound r [] s) (h : Space s r sz) :
    Safe Any (execImage img r sz) s fun res t =>
      Swaps s t (tree s r) (tree t res.1) ∧ Space t res.1 res.2 := by
  unfold execImage
  split
  · exact ret ⟨.refl s _, h⟩
  refine ((setupkvm_spec s).weaken fun _ _ _ => trivial).seq ?_
  intro new s1 ⟨htakes1, hgone, hupper⟩
  have hb1 : Building new s1 := ⟨htakes1.sound hs.stock, hupper⟩
  refine (buildImage_spec hb1 hgone).seq fun res s2 ⟨hm, hsp⟩ => ?_
  have htakes := htakes1.moves hm
  have hnew := hm.sound hb1.sound
  have hold : tree s2 r = tree s r :=
    tree_congr fun q hq => htakes.untouched hs (nodes_subset hq)
  have hgot := htakes.swaps (tree s r)
  cases res with
  | none =>
    apply Meets.bind
    refine lift ((freevm_gives s2 new hnew.freeable).mono fun _ t hg => ?_)
    have hsame : ∀ q ∈ nodes s r, t.entry q = s.entry q := by
      intro q hq
      have hmem := nodes_subset hq
      rw [hg.frame q (htakes.apart hs hmem), htakes.untouched hs hmem]
    refine ret ⟨?_, h.pos, h.covers.congr fun va hva => mapped_congr hsame hva⟩
    show Swaps s t (tree s r) (tree t r)
    rw [tree_congr hsame]
    exact hgot.trans (hg.swaps _)
  | some newsz =>
    have hfreeable : Freeable s2 (tree s2 r) := by
      rw [hold]
      refine ⟨hs.nodup, fun x hx => ?_⟩
      rw [htakes.endPage]
      exact hs.freeable.2 x hx
    apply Meets.bind
    refine lift ((freevm_gives s2 r hfreeable).mono fun _ t hg => ?_)
    change Gives s2 t (tree s2 r) at hg
    rw [hold] at hg
    have hsame : ∀ q ∈ nodes s2 new, t.entry q = s2.entry q := by
      intro q hq
      exact hg.frame q fun hmem => htakes.apart hs hmem (nodes_subset hq)
    have hspace := hsp newsz rfl
    refine ret ⟨?_, hspace.pos,
      hspace.covers.congr fun va hva => mapped_congr hsame hva⟩
    show Swaps s t (tree s r) (tree t new)
    rw [tree_congr hsame]
    exact hgot.swap.trans (hg.swaps _)

end Xv6FsServer.Vm
