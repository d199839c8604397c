/-
The inode cache: `uiget`, `uilock` and `uiput` on the core, and the
invariant they keep.

# References

The slots of the cache are counted references: one for every descriptor
that points at the slot, and one for every pointer the running handler
holds. The second kind is the list `R` of `CacheOk`: `uiget` puts a slot
on it, `uiput` takes one off, and between requests it is empty.

# Eviction

A slot without a reference is free, and whatever it held is forgotten. For
an inode that was ahead of the disk that drops the blocks of a failed
write, which stay marked used; the volume shrinks to what is on the disk
and stays consistent (`CacheOk.put`).
-/
import Xv6FsServer.Server.Proofs.Volume
import Mathlib.Data.Finset.Card
import Mathlib.Data.Finset.Image
import Mathlib.Data.Finset.Union

namespace Xv6FsServer.Server

open Lib Fs Function Finset Meets

variable {c : Core} {s t : Srv} {H : List (Nat × Nat)} {R : List Nat}
variable {i j ip inum : Nat}
variable {c' : Core}

-- ==== on the core

def Core.setNode (c : Core) (i : Nat) (f : UInode → UInode) : Core :=
  { c with inodes := update c.inodes i (f (c.inodes i)) }

/-- `uiget(ROOTDEV, inum)`. -/
def Core.get (c : Core) (inum : Nat) : Option Nat × Core :=
  match c.cached inum with
  | some i => (some i, c.setNode i fun n => { n with ref := n.ref + 1 })
  | none =>
    match first (fun i => (c.inodes i).ref == 0) 0 ninode with
    | some i => (some i, c.setNode i fun n =>
      { n with dev := rootDev, inum := inum, ref := 1, valid := false })
    | none => (none, c)

/-- `uilock(ip)`. -/
def Core.lock (c : Core) (ip : Nat) : Core :=
  if (c.inodes ip).valid then c
  else c.setNode ip fun n =>
    { n with d := dinode c.sb c.disk n.inum, valid := true }

/-- `uiput(ip)`. -/
def Core.put (c : Core) (ip : Nat) : Core :=
  c.setNode ip fun n =>
    { n with
      ref := n.ref - 1
      valid := if n.ref - 1 = 0 then false else n.valid }

@[simp] theorem Core.setNode_self (c : Core) (i : Nat) (f : UInode → UInode) :
    (c.setNode i f).inodes i = f (c.inodes i) := by
  unfold setNode
  exact update_self ..

theorem Core.setNode_of_ne (c : Core) (f : UInode → UInode) (h : j ≠ i) :
    (c.setNode i f).inodes j = c.inodes j := by
  unfold setNode
  exact update_of_ne h ..

@[simp] theorem Core.setNode_setNode (c : Core) (i : Nat) (f g : UInode → UInode) :
    (c.setNode i f).setNode i g = c.setNode i fun n => g (f n) := by
  unfold setNode
  dsimp only
  rw [update_self, update_idem]

theorem Core.setNode_congr {f g : UInode → UInode}
    (h : f (c.inodes i) = g (c.inodes i)) : c.setNode i f = c.setNode i g := by
  unfold setNode
  rw [h]

theorem core_setNode (s : Srv) (i : Nat) (f : UInode → UInode) :
    (s.setInode i f).core = s.core.setNode i f := rfl

theorem uiget_spec (h : BufOk s H) (inum : Nat) :
    Ends (uiget rootDev inum) s fun r t => BufOk t H
      ∧ r = (s.core.get inum).1 ∧ t.core = (s.core.get inum).2 := by
  unfold uiget Core.get
  apply get_bind
  have hcached : s.core.cached inum = first (fun i =>
      decide (0 < (s.inodes i).ref) && (s.inodes i).dev == rootDev
        && (s.inodes i).inum == inum) 0 ninode := rfl
  have hfree : first (fun i => (s.core.inodes i).ref == 0) 0 ninode
      = first (fun i => (s.inodes i).ref == 0) 0 ninode := rfl
  rw [hcached, hfree]
  generalize first (fun i => decide (0 < (s.inodes i).ref)
    && (s.inodes i).dev == rootDev && (s.inodes i).inum == inum) 0 ninode = found
  generalize first (fun i => (s.inodes i).ref == 0) 0 ninode = free
  cases found with
  | some i =>
    apply modify_bind
    apply ret
    exact ⟨h.setInode _ _, rfl, rfl⟩
  | none =>
    cases free with
    | some i =>
      apply modify_bind
      apply ret
      exact ⟨h.setInode _ _, rfl, rfl⟩
    | none =>
      apply ret
      exact ⟨h, rfl, rfl⟩

theorem uiput_spec (h : BufOk s H) (ip : Nat) :
    Ends (uiput ip) s fun _ t => BufOk t H ∧ t.core = s.core.put ip := by
  unfold uiput
  apply Meets.change
  exact ⟨h.setInode _ _, rfl⟩

theorem uilock_spec (h : BufOk s H) (hlen : H.length < nbuf)
    (hdev : (s.inodes ip).dev = rootDev) :
    Ends (uilock ip) s fun _ t => BufOk t H ∧ t.core = s.core.lock ip := by
  unfold uilock
  apply get_bind
  split
  next hvalid =>
    apply ret
    exact ⟨h, (if_pos hvalid).symm⟩
  next hvalid =>
    rw [hdev]
    apply Meets.bind
    apply (ubread_spec h hlen _).mono
    rintro r t ⟨b, rfl, ht, hcore⟩
    have hdisk : t.disk = s.disk := congrArg Core.disk hcore
    apply get_bind
    apply modify_bind
    apply Meets.bind
    apply (ubrelse_spec (ht.setInode _ _)).mono
    rintro _ u ⟨hu, hucore⟩
    apply Meets.change
    refine ⟨hu.setInode _ _, ?_⟩
    have hlock : s.core.lock ip = s.core.setNode ip fun n =>
        { n with d := dinode s.sb s.disk n.inum, valid := true } := if_neg hvalid
    rw [hlock, core_setNode, hucore, core_setNode, hcore, Core.setNode_setNode]
    refine Core.setNode_congr ?_
    have hdata : (t.bufs b).data = s.disk (iblock (s.inodes ip).inum s.sb) := by
      rw [ht.data (List.mem_cons_self ..), hdisk]
    rw [hdata]
    rfl

-- ==== the table

theorem Core.tab_of_valid (h : c.Distinct) (hi : i < ninode)
    (hlive : (c.inodes i).Live) (hvalid : (c.inodes i).valid = true) :
    c.tab (c.inodes i).inum = (c.inodes i).d :=
  Loaded.tab ⟨hi, hlive, hvalid, rfl⟩ h

theorem Core.tab_of_none (h : ∀ i, i < ninode → (c.inodes i).Live →
    (c.inodes i).inum = inum → (c.inodes i).valid = false) :
    c.tab inum = dinode c.sb c.disk inum := by
  unfold Core.tab
  split
  next i hc =>
    obtain ⟨hi, hlive, heq⟩ := Core.cached_some hc
    rw [h i hi hlive heq]
    rfl
  next => rfl

theorem dinode_ok (sb : Superblock) (disk : Disk) (inum : Nat) :
    (dinode sb disk inum).Ok := getDInode_ok ..

/-- A slot may change as long as no inode comes to be in use twice, and what
it holds for a valid inode is what it held or what is on the disk. -/
theorem VolOk.setNode (h : VolOk c) {f : UInode → UInode}
    (hdist : ∀ j, j < ninode → j ≠ i → (c.inodes j).Live →
      (f (c.inodes i)).Live → (c.inodes j).inum ≠ (f (c.inodes i)).inum)
    (hinum : (f (c.inodes i)).Live → (f (c.inodes i)).inum < c.sb.ninodes)
    (hd : (f (c.inodes i)).Live → (f (c.inodes i)).valid = true →
      ((c.inodes i).Live ∧ (c.inodes i).valid = true
        ∧ (c.inodes i).inum = (f (c.inodes i)).inum
        ∧ (f (c.inodes i)).d = (c.inodes i).d)
      ∨ (f (c.inodes i)).d = dinode c.sb c.disk (f (c.inodes i)).inum) :
    VolOk (c.setNode i f) := by
  have hsame : ∀ j, j ≠ i → (c.setNode i f).inodes j = c.inodes j :=
    fun j hj => c.setNode_of_ne f hj
  have hself : (c.setNode i f).inodes i = f (c.inodes i) := c.setNode_self i f
  have hdistinct : (c.setNode i f).Distinct := by
    intro j k hj hk hjlive hklive heq
    by_cases hji : j = i
    · by_cases hki : k = i
      · rw [hji, hki]
      · subst hji
        rw [hself] at hjlive heq
        rw [hsame k hki] at hklive heq
        exact absurd heq.symm (hdist k hk hki hklive hjlive)
    · by_cases hki : k = i
      · subst hki
        rw [hself] at hklive heq
        rw [hsame j hji] at hjlive heq
        exact absurd heq (hdist j hj hji hjlive hklive)
      · rw [hsame j hji] at hjlive heq
        rw [hsame k hki] at hklive heq
        exact h.distinct j k hj hk hjlive hklive heq
  constructor
  case layout => exact h.layout
  case distinct => exact hdistinct
  case inums =>
    intro j hj hlive
    by_cases hji : j = i
    · subst hji
      rw [hself] at hlive ⊢
      exact hinum hlive
    · rw [hsame j hji] at hlive ⊢
      exact h.inums j hj hlive
  case ok =>
    intro j hj hlive hvalid
    by_cases hji : j = i
    · subst hji
      rw [hself] at hlive hvalid ⊢
      rcases hd hlive hvalid with ⟨hl, hv, -, heq⟩ | heq
      · rw [heq]
        exact h.ok j hj hl hv
      · rw [heq]
        exact dinode_ok ..
    · rw [hsame j hji] at hlive hvalid ⊢
      exact h.ok j hj hlive hvalid
  case older =>
    intro j hj hlive hvalid
    by_cases hji : j = i
    · subst hji
      rw [hself] at hlive hvalid ⊢
      rcases hd hlive hvalid with ⟨hl, hv, hin, heq⟩ | heq
      · rw [heq, ← hin]
        exact h.older j hj hl hv
      · rw [heq]
        exact .refl _
    · rw [hsame j hji] at hlive hvalid ⊢
      exact h.older j hj hlive hvalid
  case owns =>
    refine h.owns.of_older fun inum _ => ?_
    by_cases hv : ∃ j, j < ninode ∧ ((c.setNode i f).inodes j).Live
        ∧ ((c.setNode i f).inodes j).inum = inum
        ∧ ((c.setNode i f).inodes j).valid = true
    · obtain ⟨j, hj, hlive, rfl, hvalid⟩ := hv
      rw [Core.tab_of_valid hdistinct hj hlive hvalid]
      by_cases hji : j = i
      · subst hji
        rw [hself] at hlive hvalid ⊢
        rcases hd hlive hvalid with ⟨hl, hv, hin, heq⟩ | heq
        · rw [← hin, heq, Core.tab_of_valid h.distinct hj hl hv]
          exact .refl _
        · rw [heq]
          exact h.tab_older _
      · rw [hsame j hji] at hlive hvalid ⊢
        rw [Core.tab_of_valid h.distinct hj hlive hvalid]
        exact .refl _
    · rw [Core.tab_of_none]
      · exact h.tab_older inum
      · intro j hj hlive heq
        by_contra hvalid
        exact hv ⟨j, hj, hlive, heq, Bool.not_eq_false _ ▸ hvalid⟩

-- ==== the invariant

/-- How many descriptors point at the slot. -/
def Core.opens (c : Core) (i : Nat) : Nat :=
  ((Finset.range maxRemoteFds).filter fun f => c.fdInodes f = some i).card

theorem opens_pos {f : Nat} (hf : f < maxRemoteFds)
    (hopen : c.fdInodes f = some i) : 0 < c.opens i := by
  refine card_pos.mpr ⟨f, ?_⟩
  rw [mem_filter, mem_range]
  exact ⟨hf, hopen⟩

/-- The cache is in order while the running handler holds the pointers
`R`. -/
structure CacheOk (c : Core) (R : List Nat) : Prop where
  vol : VolOk c
  dev : ∀ i, i < ninode → 0 < (c.inodes i).ref → (c.inodes i).dev = rootDev
  alloc : ∀ i, i < ninode → 0 < (c.inodes i).ref →
    (dinode c.sb c.disk (c.inodes i).inum).type ≠ 0
  refs : ∀ i, i < ninode → (c.inodes i).ref = (c.opens i + R.count i : Nat)
  held : ∀ i ∈ R, i < ninode
  fds : ∀ f, f < maxRemoteFds → ∀ i, c.fdInodes f = some i →
    i < ninode ∧ (c.inodes i).valid = true

theorem CacheOk.live (h : CacheOk c R) (hi : i < ninode)
    (href : 0 < (c.inodes i).ref) : (c.inodes i).Live := ⟨href, h.dev i hi href⟩

theorem CacheOk.held_live (h : CacheOk c R) (hi : i ∈ R) : (c.inodes i).Live := by
  have hlt := h.held i hi
  refine h.live hlt ?_
  have hcount : 0 < R.count i := List.count_pos_iff.mpr hi
  rw [h.refs i hlt]
  omega

theorem CacheOk.open_live (h : CacheOk c R) {f : Nat} (hf : f < maxRemoteFds)
    (hopen : c.fdInodes f = some i) : (c.inodes i).Live := by
  have hlt := (h.fds f hf i hopen).1
  refine h.live hlt ?_
  have hcard := opens_pos hf hopen
  rw [h.refs i hlt]
  omega

theorem CacheOk.allocated (h : CacheOk c R) (hi : i < ninode)
    (href : 0 < (c.inodes i).ref) :
    Allocated c.sb (dinode c.sb c.disk) (c.inodes i).inum :=
  ⟨h.vol.inums i hi (h.live hi href), h.alloc i hi href⟩

-- ==== the operations

/-- The two cores differ in their inode caches only. -/
structure SameFiles (c c' : Core) : Prop where
  disk : c'.disk = c.disk
  sb : c'.sb = c.sb
  fdTable : c'.fdTable = c.fdTable
  fdInodes : c'.fdInodes = c.fdInodes

theorem SameFiles.refl (c : Core) : SameFiles c c := ⟨rfl, rfl, rfl, rfl⟩

theorem SameFiles.setNode (c : Core) (i : Nat) (f : UInode → UInode) :
    SameFiles c (c.setNode i f) := ⟨rfl, rfl, rfl, rfl⟩

theorem SameFiles.trans {c'' : Core} (h : SameFiles c c') (h' : SameFiles c' c'') :
    SameFiles c c'' :=
  ⟨h'.disk.trans h.disk, h'.sb.trans h.sb, h'.fdTable.trans h.fdTable,
    h'.fdInodes.trans h.fdInodes⟩

/-- The two slots hold the same inode. -/
structure SameNode (n n' : UInode) : Prop where
  inum : n'.inum = n.inum
  d : n'.d = n.d
  valid : n'.valid = n.valid

theorem SameNode.refl (n : UInode) : SameNode n n := ⟨rfl, rfl, rfl⟩

theorem SameNode.trans {n n' n'' : UInode} (h : SameNode n n')
    (h' : SameNode n' n'') : SameNode n n'' :=
  ⟨h'.inum.trans h.inum, h'.d.trans h.d, h'.valid.trans h.valid⟩

/-- What `uiget` can do. -/
inductive Obtains (c : Core) (inum : Nat) : Option Nat × Core → Prop
  | found (i : Nat) (hi : i < ninode) (hlive : (c.inodes i).Live)
      (hinum : (c.inodes i).inum = inum) :
      Obtains c inum (some i, c.setNode i fun n => { n with ref := n.ref + 1 })
  | fresh (i : Nat) (hi : i < ninode) (hfree : (c.inodes i).ref = 0)
      (hnone : ∀ j, j < ninode → (c.inodes j).Live → (c.inodes j).inum ≠ inum) :
      Obtains c inum (some i, c.setNode i fun n =>
        { n with dev := rootDev, inum := inum, ref := 1, valid := false })
  | full (hfull : ∀ j, j < ninode → (c.inodes j).ref ≠ 0)
      (hnone : ∀ j, j < ninode → (c.inodes j).Live → (c.inodes j).inum ≠ inum) :
      Obtains c inum (none, c)

theorem Core.get_cases (c : Core) (inum : Nat) : Obtains c inum (c.get inum) := by
  unfold Core.get
  cases hc : c.cached inum with
  | some i =>
    obtain ⟨hi, hlive, hinum⟩ := Core.cached_some hc
    exact .found i hi hlive hinum
  | none =>
    have hnone : ∀ j, j < ninode → (c.inodes j).Live →
        (c.inodes j).inum ≠ inum := by
      intro j hj hlive heq
      have := first_none hc j (by omega) (by omega)
      rw [(cached_test _ _).mpr ⟨hlive, heq⟩] at this
      cases this
    cases hf : first (fun i => (c.inodes i).ref == 0) 0 ninode with
    | some i =>
      obtain ⟨-, hi, hfree, -⟩ := first_some hf
      exact .fresh i (by omega) (beq_iff_eq.mp hfree) hnone
    | none =>
      refine .full (fun j hj h0 => ?_) hnone
      have := first_none hf j (by omega) (by omega)
      rw [h0] at this
      cases this

theorem Core.get_sameFiles (c : Core) (inum : Nat) :
    SameFiles c (c.get inum).2 := by
  have h := c.get_cases inum
  generalize c.get inum = r at h ⊢
  cases h with
  | found => exact ⟨rfl, rfl, rfl, rfl⟩
  | fresh => exact ⟨rfl, rfl, rfl, rfl⟩
  | full => exact ⟨rfl, rfl, rfl, rfl⟩

/-- The slots in use hold what they held. -/
theorem Core.get_sameNode (c : Core) (inum : Nat) (hlive : (c.inodes j).Live) :
    SameNode (c.inodes j) ((c.get inum).2.inodes j) := by
  have h := c.get_cases inum
  generalize c.get inum = r at h ⊢
  cases h with
  | found i hi hl hin =>
    by_cases hji : j = i
    · subst hji
      rw [c.setNode_self]
      exact ⟨rfl, rfl, rfl⟩
    · dsimp only
      rw [c.setNode_of_ne _ hji]
      exact .refl _
  | fresh i hi hfree hnone =>
    have hji : j ≠ i := by
      rintro rfl
      have := hlive.1
      omega
    rw [c.setNode_of_ne _ hji]
    exact .refl _
  | full => exact .refl _

theorem opens_setNode (c : Core) (i j : Nat) (f : UInode → UInode) :
    (c.setNode i f).opens j = c.opens j := rfl

/-- One slot changes, and with it the pointers to it that the handler
holds. -/
theorem CacheOk.setNode (h : CacheOk c R) (hi : i < ninode)
    {f : UInode → UInode} {R' : List Nat} (hvol : VolOk (c.setNode i f))
    (hdev : 0 < (f (c.inodes i)).ref → (f (c.inodes i)).dev = rootDev)
    (halloc : 0 < (f (c.inodes i)).ref →
      (dinode c.sb c.disk (f (c.inodes i)).inum).type ≠ 0)
    (hvalid : 0 < c.opens i → (f (c.inodes i)).valid = true)
    (href : (f (c.inodes i)).ref = (c.opens i + R'.count i : Nat))
    (hcount : ∀ j, j ≠ i → R'.count j = R.count j) :
    CacheOk (c.setNode i f) R' := by
  have hsame : ∀ j, j ≠ i → (c.setNode i f).inodes j = c.inodes j :=
    fun j hj => c.setNode_of_ne f hj
  have hself : (c.setNode i f).inodes i = f (c.inodes i) := c.setNode_self i f
  constructor
  case vol => exact hvol
  case dev =>
    intro j hj hjref
    by_cases hji : j = i
    · subst hji
      rw [hself] at hjref ⊢
      exact hdev hjref
    · rw [hsame j hji] at hjref ⊢
      exact h.dev j hj hjref
  case alloc =>
    intro j hj hjref
    by_cases hji : j = i
    · subst hji
      rw [hself] at hjref ⊢
      exact halloc hjref
    · rw [hsame j hji] at hjref ⊢
      exact h.alloc j hj hjref
  case refs =>
    intro j hj
    rw [opens_setNode]
    by_cases hji : j = i
    · subst hji
      rw [hself]
      exact href
    · rw [hsame j hji, hcount j hji]
      exact h.refs j hj
  case held =>
    intro j hj
    by_cases hji : j = i
    · rw [hji]
      exact hi
    · refine h.held j (List.count_pos_iff.mp ?_)
      rw [← hcount j hji]
      exact List.count_pos_iff.mpr hj
  case fds =>
    intro f' hf' j hopen
    obtain ⟨hj, hv⟩ := h.fds f' hf' j hopen
    refine ⟨hj, ?_⟩
    by_cases hji : j = i
    · subst hji
      rw [hself]
      exact hvalid (opens_pos hf' hopen)
    · rw [hsame j hji]
      exact hv

theorem CacheOk.opens_valid (h : CacheOk c R) (hopen : 0 < c.opens i) :
    i < ninode ∧ (c.inodes i).valid = true := by
  obtain ⟨f, hf⟩ := card_pos.mp hopen
  rw [mem_filter, mem_range] at hf
  exact h.fds f hf.1 i hf.2

/-- `uiget` of an allocated inode hands the handler a reference. -/
theorem CacheOk.get (h : CacheOk c R) (halloc : Allocated c.sb (dinode c.sb c.disk) inum)
    (hget : c.get inum = (some i, c')) :
    CacheOk c' (i :: R) ∧ (c'.inodes i).inum = inum := by
  have hcases := c.get_cases inum
  rw [hget] at hcases
  have hcount : ∀ j, j ≠ i → (i :: R).count j = R.count j :=
    fun j hj => List.count_cons_of_ne (Ne.symm hj)
  cases hcases with
  | found _ hi hlive hinum =>
    refine ⟨h.setNode hi ?_ ?_ ?_ ?_ ?_ hcount, by rw [c.setNode_self]; exact hinum⟩
    · refine h.vol.setNode ?_ ?_ ?_
      · exact fun j hj hji hjlive _ heq =>
          hji (h.vol.distinct j i hj hi hjlive hlive heq)
      · exact fun _ => h.vol.inums i hi hlive
      · exact fun _ hvalid => Or.inl ⟨hlive, hvalid, rfl, rfl⟩
    · exact fun _ => hlive.2
    · exact fun _ => h.alloc i hi hlive.1
    · exact fun hopen => (h.opens_valid hopen).2
    · have := h.refs i hi
      rw [List.count_cons_self]
      dsimp only
      omega
  | fresh _ hi hfree hnone =>
    refine ⟨h.setNode hi ?_ ?_ ?_ ?_ ?_ hcount, by rw [c.setNode_self]⟩
    · refine h.vol.setNode ?_ ?_ ?_
      · exact fun j hj _ hjlive _ => hnone j hj hjlive
      · exact fun _ => halloc.1
      · exact fun _ hvalid => nomatch hvalid
    · exact fun _ => rfl
    · exact fun _ => halloc.2
    · intro hopen
      have := h.refs i hi
      omega
    · have := h.refs i hi
      rw [List.count_cons_self]
      dsimp only
      omega

/-- `uilock` loads the inode. -/
theorem CacheOk.lock (h : CacheOk c R) (hi : i ∈ R) :
    CacheOk (c.lock i) R ∧ Loaded (c.lock i) i (c.inodes i).inum := by
  have hlt := h.held i hi
  have hlive := h.held_live hi
  unfold Core.lock
  split
  next hvalid => exact ⟨h, hlt, hlive, hvalid, rfl⟩
  next hvalid =>
    refine ⟨h.setNode hlt ?_ ?_ ?_ ?_ ?_ (fun _ _ => rfl), ?_⟩
    · refine h.vol.setNode ?_ ?_ ?_
      · exact fun j hj hji hjlive _ heq =>
          hji (h.vol.distinct j i hj hlt hjlive hlive heq)
      · exact fun _ => h.vol.inums i hlt hlive
      · exact fun _ _ => Or.inr rfl
    · exact fun _ => hlive.2
    · exact fun _ => h.alloc i hlt hlive.1
    · exact fun _ => rfl
    · exact h.refs i hlt
    · refine ⟨hlt, ?_, ?_, ?_⟩
      · rw [c.setNode_self]
        exact hlive
      · rw [c.setNode_self]
      · rw [c.setNode_self]

theorem Core.lock_sameFiles (c : Core) (i : Nat) : SameFiles c (c.lock i) := by
  unfold Core.lock
  split
  next => exact .refl c
  next => exact .setNode c _ _

theorem Core.lock_sameNode (c : Core) (i : Nat) (hvalid : (c.inodes j).valid = true) :
    SameNode (c.inodes j) ((c.lock i).inodes j) := by
  unfold Core.lock
  split
  next => exact .refl _
  next hv =>
    by_cases hji : j = i
    · subst hji
      exact absurd hvalid hv
    · rw [c.setNode_of_ne _ hji]
      exact .refl _

/-- `uiput` gives a reference back. -/
theorem CacheOk.put (h : CacheOk c (i :: R)) : CacheOk (c.put i) R := by
  have hmem : i ∈ i :: R := List.mem_cons_self ..
  have hlt := h.held i hmem
  have hlive := h.held_live hmem
  have href := h.refs i hlt
  rw [List.count_cons_self] at href
  refine h.setNode hlt ?_ ?_ ?_ ?_ ?_
    (fun j hj => (List.count_cons_of_ne (Ne.symm hj)).symm)
  · refine h.vol.setNode ?_ ?_ ?_
    · exact fun j hj hji hjlive _ heq =>
        hji (h.vol.distinct j i hj hlt hjlive hlive heq)
    · exact fun _ => h.vol.inums i hlt hlive
    · intro hl hvalid
      refine Or.inl ⟨hlive, ?_, rfl, rfl⟩
      split at hvalid
      next => cases hvalid
      next => exact hvalid
  · exact fun _ => hlive.2
  · exact fun _ => h.alloc i hlt hlive.1
  · intro hopen
    rw [if_neg (by omega)]
    exact (h.opens_valid hopen).2
  · dsimp only
    omega

theorem Core.put_sameFiles (c : Core) (i : Nat) : SameFiles c (c.put i) :=
  .setNode c _ _

theorem Core.put_sameNode (c : Core) (i : Nat) (hlive : ((c.put i).inodes j).Live) :
    SameNode (c.inodes j) ((c.put i).inodes j) := by
  unfold Core.put at hlive ⊢
  by_cases hji : j = i
  · subst hji
    rw [c.setNode_self] at hlive ⊢
    refine ⟨rfl, rfl, ?_⟩
    have := hlive.1
    dsimp only at this ⊢
    rw [if_neg (by omega)]
  · rw [c.setNode_of_ne _ hji]
    exact .refl _

/-- A slot that stays in use with its inode stays loaded. -/
theorem Loaded.of_sameNode (h : Loaded c ip inum) (hlive : (c'.inodes ip).Live)
    (hsame : SameNode (c.inodes ip) (c'.inodes ip)) :
    Loaded c' ip inum :=
  ⟨h.lt, hlive, hsame.valid.trans h.valid, hsame.inum.trans h.inum⟩

-- ==== room

/-- The inodes in use. -/
def Core.inUse (c : Core) : Finset Nat :=
  ((Finset.range ninode).filter fun i => 0 < (c.inodes i).ref).image
    fun i => (c.inodes i).inum

/-- The inodes open through a descriptor. -/
def Core.openInums (c : Core) : Finset Nat :=
  (Finset.range maxRemoteFds).biUnion fun f =>
    (c.fdInodes f).elim ∅ fun i => {(c.inodes i).inum}

theorem mem_inUse : inum ∈ c.inUse ↔
    ∃ i, i < ninode ∧ 0 < (c.inodes i).ref ∧ (c.inodes i).inum = inum := by
  unfold Core.inUse
  simp only [mem_image, mem_filter, mem_range, and_assoc]

theorem mem_openInums : inum ∈ c.openInums ↔
    ∃ f, f < maxRemoteFds ∧ ∃ i, c.fdInodes f = some i
      ∧ (c.inodes i).inum = inum := by
  unfold Core.openInums
  rw [mem_biUnion]
  constructor
  · rintro ⟨f, hf, hmem⟩
    refine ⟨f, mem_range.mp hf, ?_⟩
    cases hi : c.fdInodes f with
    | none =>
      rw [hi] at hmem
      cases notMem_empty _ hmem
    | some i =>
      rw [hi] at hmem
      exact ⟨i, rfl, (mem_singleton.mp hmem).symm⟩
  · rintro ⟨f, hf, i, hi, rfl⟩
    refine ⟨f, mem_range.mpr hf, ?_⟩
    rw [hi]
    exact mem_singleton_self _

/-- What is in use is open, or held by the handler. -/
theorem CacheOk.inUse (h : CacheOk c R) :
    c.inUse = c.openInums ∪ (R.map fun i => (c.inodes i).inum).toFinset := by
  ext n
  rw [mem_union, mem_inUse, mem_openInums, List.mem_toFinset, List.mem_map]
  constructor
  · rintro ⟨i, hi, href, hn⟩
    rw [h.refs i hi] at href
    by_cases hopen : 0 < c.opens i
    · obtain ⟨f, hf⟩ := card_pos.mp hopen
      rw [mem_filter, mem_range] at hf
      exact Or.inl ⟨f, hf.1, i, hf.2, hn⟩
    · exact Or.inr ⟨i, List.count_pos_iff.mp (by omega), hn⟩
  · rintro (⟨f, hf, i, hi, hn⟩ | ⟨i, hi, hn⟩)
    · exact ⟨i, (h.fds f hf i hi).1, (h.open_live hf hi).1, hn⟩
    · exact ⟨i, h.held i hi, (h.held_live hi).1, hn⟩

theorem CacheOk.card_inUse (h : CacheOk c R) :
    c.inUse.card
      = ((Finset.range ninode).filter fun i => 0 < (c.inodes i).ref).card := by
  refine card_image_of_injOn fun i hi j hj heq => ?_
  rw [mem_coe, mem_filter, mem_range] at hi hj
  exact h.vol.distinct i j hi.1 hj.1 (h.live hi.1 hi.2) (h.live hj.1 hj.2) heq

/-- `uiget` succeeds just when the inode fits into the cache. -/
theorem CacheOk.get_isSome (h : CacheOk c R) (inum : Nat) :
    (c.get inum).1.isSome = true ↔ (insert inum c.inUse).card ≤ ninode := by
  have hcard := h.card_inUse
  have hle : ∀ p : Nat → Prop, ∀ [DecidablePred p],
      ((range ninode).filter p).card ≤ ninode := by
    intro p _
    exact (card_filter_le _ _).trans (card_range _).le
  have hcases := c.get_cases inum
  generalize c.get inum = r at hcases ⊢
  cases hcases with
  | found i hi hlive hinum =>
    have hmem : inum ∈ c.inUse := mem_inUse.mpr ⟨i, hi, hlive.1, hinum⟩
    rw [insert_eq_of_mem hmem, hcard]
    exact iff_of_true rfl (hle _)
  | fresh i hi hfree hnone =>
    refine iff_of_true rfl ((card_insert_le _ _).trans ?_)
    have hsub : (range ninode).filter (fun i => 0 < (c.inodes i).ref)
        ⊂ range ninode := by
      refine filter_ssubset.mpr ⟨i, mem_range.mpr hi, ?_⟩
      rw [hfree]
      exact lt_irrefl 0
    have hlt := card_lt_card hsub
    rw [card_range] at hlt
    omega
  | full hfull hnone =>
    refine iff_of_false Bool.false_ne_true ?_
    have hall : (range ninode).filter (fun i => 0 < (c.inodes i).ref)
        = range ninode := by
      refine filter_true_of_mem fun i hi => ?_
      have hi := mem_range.mp hi
      have h0 := hfull i hi
      have := h.refs i hi
      omega
    rw [hall, card_range] at hcard
    have hnot : inum ∉ c.inUse := by
      intro hmem
      obtain ⟨i, hi, href, heq⟩ := mem_inUse.mp hmem
      exact hnone i hi (h.live hi href) heq
    rw [card_insert_of_notMem hnot, hcard]
    omega

theorem openInums_congr (hfd : c'.fdInodes = c.fdInodes)
    (hinum : ∀ f, f < maxRemoteFds → ∀ i, c.fdInodes f = some i →
      (c'.inodes i).inum = (c.inodes i).inum) : c'.openInums = c.openInums := by
  ext n
  rw [mem_openInums, mem_openInums, hfd]
  constructor
  · rintro ⟨f, hf, i, hi, hn⟩
    exact ⟨f, hf, i, hi, (hinum f hf i hi).symm.trans hn⟩
  · rintro ⟨f, hf, i, hi, hn⟩
    exact ⟨f, hf, i, hi, (hinum f hf i hi).trans hn⟩

end Xv6FsServer.Server
