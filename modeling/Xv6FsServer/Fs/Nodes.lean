/-
The files on the disk with their link counts, and what the kernel's
elementary changes do to them.

Everything the kernel changes on the disk is one of three: the fields of an
inode are written back (`Exact.put`), a range of a file is written
(`Exact.write`), or blocks that were taken from a file are marked free
(`Loose.release`). Each keeps the accounts exact, and each changes one node
and no other.
-/
import Xv6FsServer.Fs.Accounting

namespace Xv6FsServer.Fs

open Lib Function

variable {sb : Superblock} {tab : Nat → DInode} {disk disk' : Disk} {x y : Img}
variable {d : DInode} {i j k b c : Nat}
variable {tab' : Nat → DInode}

/-- A file, without the place where its bytes are. -/
structure Node where
  type : Nat
  nlink : Nat
  bytes : List UInt8
  deriving DecidableEq, Repr

def nodeOf (disk : Disk) (d : DInode) : Node :=
  ⟨d.type, d.nlink, (Img.mk disk d).content⟩

/-- The files on the disk by inode number. -/
def nodes (sb : Superblock) (disk : Disk) (j : Nat) : Option Node :=
  if j < sb.ninodes ∧ (dinode sb disk j).type ≠ 0 then
    some (nodeOf disk (dinode sb disk j))
  else none

theorem nodes_of_allocated (h : Allocated sb (dinode sb disk) j) :
    nodes sb disk j = some (nodeOf disk (dinode sb disk j)) := if_pos h

theorem nodes_eq_some {n : Node} (h : nodes sb disk j = some n) :
    Allocated sb (dinode sb disk) j ∧ n = nodeOf disk (dinode sb disk j) := by
  unfold nodes at h
  split at h
  next halloc => exact ⟨halloc, (Option.some.inj h).symm⟩
  next => cases h

theorem nodes_eq_none : nodes sb disk j = none ↔ ¬ Allocated sb (dinode sb disk) j := by
  unfold nodes
  split
  next halloc =>
    constructor
    · intro h
      cases h
    · intro h
      exact absurd halloc h
  next halloc => exact ⟨fun _ => halloc, fun _ => rfl⟩

-- ==== blocks that stay

/-- An inode whose blocks are data blocks, on a disk with the same data. -/
theorem slot_same (hind : d.addrs ndirect ≠ 0 → dataStart sb ≤ d.addrs ndirect)
    (hdata : ∀ c, dataStart sb ≤ c → disk' c = disk c) (k : Nat) :
    (Img.mk disk' d).slot k = (Img.mk disk d).slot k :=
  slot_congr (fun hne => hdata _ (hind hne)) k

theorem Consistent.slot_same (h : Consistent sb disk tab) (hj : Allocated sb tab j)
    (hdata : ∀ c, dataStart sb ≤ c → disk' c = disk c) (k : Nat) :
    (Img.mk disk' (tab j)).slot k = (Img.mk disk (tab j)).slot k :=
  Fs.slot_same (fun hne => h.indirect hj hne) hdata k

theorem Consistent.holds_same (h : Consistent sb disk tab)
    (hdata : ∀ c, dataStart sb ≤ c → disk' c = disk c) :
    Holds sb disk' tab j k b ↔ Holds sb disk tab j k b := by
  constructor
  · intro hh
    exact ⟨hh.alloc, hh.slot_lt, (h.slot_same hh.alloc hdata k).symm.trans hh.slot,
      hh.ne_zero⟩
  · intro hh
    exact ⟨hh.alloc, hh.slot_lt, (h.slot_same hh.alloc hdata k).trans hh.slot,
      hh.ne_zero⟩

theorem Consistent.content_same (h : Consistent sb disk tab) (hj : Allocated sb tab j)
    (hdata : ∀ c, dataStart sb ≤ c → disk' c = disk c) :
    (Img.mk disk' (tab j)).content = (Img.mk disk (tab j)).content := by
  refine Img.content_congr rfl (fun k _ => h.slot_same hj hdata k) fun k hk h0 => ?_
  exact hdata _ (h.area ⟨hj, hk, rfl, h0⟩).1

/-- The same table, inode by inode. -/
theorem Holds.congr_tab (h : Holds sb disk tab j k b)
    (heq : ∀ j, j < sb.ninodes → tab' j = tab j) : Holds sb disk tab' j k b := by
  have hj := heq j h.alloc.1
  refine ⟨⟨h.alloc.1, ?_⟩, h.slot_lt, ?_, h.ne_zero⟩
  · rw [hj]
    exact h.alloc.2
  · rw [hj]
    exact h.slot

theorem Consistent.congr_tab (h : Consistent sb disk tab)
    (heq : ∀ j, j < sb.ninodes → tab' j = tab j) : Consistent sb disk tab' := by
  have hback : ∀ {j k b}, Holds sb disk tab' j k b → Holds sb disk tab j k b :=
    fun hh => hh.congr_tab fun j hj => (heq j hj).symm
  exact ⟨fun hh => h.area (hback hh), fun hh => h.marked (hback hh),
    fun hh hh' => h.once (hback hh) (hback hh'), h.metadata⟩

theorem Covered.congr_tab {L : List Nat} (h : Covered sb disk tab L)
    (heq : ∀ j, j < sb.ninodes → tab' j = tab j) :
    Covered sb disk tab' L := by
  intro b hb hused
  rcases h b hb hused with hmeta | ⟨j, k, hh⟩ | hin
  · exact Or.inl hmeta
  · exact Or.inr (Or.inl ⟨j, k, hh.congr_tab heq⟩)
  · exact Or.inr (Or.inr hin)

-- ==== writing an inode back

/-- An account in which the inode `i` is `d`, on a disk where it is about to
be written. -/
structure Pending (sb : Superblock) (disk : Disk) (i : Nat) (d : DInode) : Prop where
  layout : Layout sb
  owns : Consistent sb disk (update (dinode sb disk) i d)
  covered : Covered sb disk (update (dinode sb disk) i d) []
  mapped : ∀ j, Allocated sb (update (dinode sb disk) i d) j →
    (Img.mk disk (update (dinode sb disk) i d j)).Mapped
  lt : i < sb.ninodes
  ok : d.Ok

theorem Pending.put (h : Pending sb disk i d) :
    Exact sb (putInode sb disk i d)
      ∧ nodes sb (putInode sb disk i d)
        = update (nodes sb disk) i
          (if d.type ≠ 0 then some (nodeOf disk d) else none) := by
  have hdata : ∀ c, dataStart sb ≤ c → putInode sb disk i d c = disk c := by
    intro c hc
    have := h.layout.bmapstart_lt
    exact h.layout.putInode_behind h.lt (by omega)
  have hdin : dinode sb (putInode sb disk i d) = update (dinode sb disk) i d :=
    dinode_putInode_eq h.ok
  have hholds : ∀ {j k b}, Holds sb (putInode sb disk i d)
      (update (dinode sb disk) i d) j k b
        ↔ Holds sb disk (update (dinode sb disk) i d) j k b := h.owns.holds_same hdata
  have hused : ∀ b, used sb (putInode sb disk i d) b = used sb disk b :=
    h.layout.used_putInode h.lt
  refine ⟨⟨h.layout, ?_, ?_, ?_⟩, ?_⟩
  · rw [hdin]
    refine ⟨fun hh => h.owns.area (hholds.mp hh), fun hh => ?_,
      fun hh hh' => h.owns.once (hholds.mp hh) (hholds.mp hh'), fun b hb => ?_⟩
    · rw [hused]
      exact h.owns.marked (hholds.mp hh)
    · rw [hused]
      exact h.owns.metadata b hb
  · rw [hdin]
    intro b hb hu
    rw [hused] at hu
    rcases h.covered b hb hu with hmeta | ⟨j, k, hh⟩ | hin
    · exact Or.inl hmeta
    · exact Or.inr (Or.inl ⟨j, k, hholds.mpr hh⟩)
    · exact Or.inr (Or.inr hin)
  · intro j hj o ho
    rw [hdin] at hj
    unfold onDisk at ho ⊢
    rw [hdin] at ho ⊢
    rw [h.owns.slot_same hj hdata]
    exact h.mapped j hj o ho
  · funext j
    unfold nodes
    rw [hdin]
    by_cases hji : j = i
    · subst hji
      rw [update_self, update_self]
      by_cases htype : d.type ≠ 0
      · rw [if_pos ⟨h.lt, htype⟩, if_pos htype]
        have hj : Allocated sb (update (dinode sb disk) j d) j :=
          ⟨h.lt, by rw [update_self]; exact htype⟩
        have hcont := h.owns.content_same hj hdata
        rw [update_self] at hcont
        unfold nodeOf
        rw [hcont]
      · rw [if_neg fun hc => htype hc.2, if_neg htype]
    · rw [update_of_ne hji, update_of_ne hji]
      split
      next halloc =>
        have hj : Allocated sb (update (dinode sb disk) i d) j :=
          ⟨halloc.1, by rw [update_of_ne hji]; exact halloc.2⟩
        have hcont := h.owns.content_same hj hdata
        rw [update_of_ne hji] at hcont
        unfold nodeOf
        rw [hcont]
      next => rfl

/-- An inode that is about to be written with the slots it has. -/
theorem Exact.pend (h : Exact sb disk) (hi : i < sb.ninodes) (hok : d.Ok)
    (hsame : ∀ k b, Holds sb disk (update (dinode sb disk) i d) i k b
      ↔ Holds sb disk (dinode sb disk) i k b)
    (hmapped : (Img.mk disk d).Mapped) : Pending sb disk i d := by
  have hholds : ∀ {j k b}, Holds sb disk (update (dinode sb disk) i d) j k b
      ↔ Holds sb disk (dinode sb disk) j k b := by
    intro j k b
    by_cases hji : j = i
    · subst hji
      exact hsame k b
    constructor
    · intro hh
      obtain ⟨halloc, hk, hslot, h0⟩ := hh
      unfold Allocated at halloc
      rw [update_of_ne hji] at halloc hslot
      exact ⟨halloc, hk, hslot, h0⟩
    · intro hh
      refine ⟨allocated_update hh.alloc hji _, hh.slot_lt, ?_, hh.ne_zero⟩
      rw [update_of_ne hji]
      exact hh.slot
  refine ⟨h.layout, ⟨fun hh => h.owns.area (hholds.mp hh),
    fun hh => h.owns.marked (hholds.mp hh),
    fun hh hh' => h.owns.once (hholds.mp hh) (hholds.mp hh'), h.owns.metadata⟩,
    ?_, ?_, hi, hok⟩
  · intro b hb hu
    rcases h.covered b hb hu with hmeta | ⟨j, k, hh⟩ | hin
    · exact Or.inl hmeta
    · exact Or.inr (Or.inl ⟨j, k, hholds.mpr hh⟩)
    · exact Or.inr (Or.inr hin)
  · intro j hj o ho
    by_cases hji : j = i
    · subst hji
      rw [update_self] at ho ⊢
      exact hmapped o ho
    · unfold Allocated at hj
      rw [update_of_ne hji] at hj ho ⊢
      exact h.mapped j hj o ho

/-- New fields for an inode that keeps its blocks, with a size they are enough
for. -/
theorem Exact.pendSize (h : Exact sb disk) (hi : Allocated sb (dinode sb disk) i)
    (hok : d.Ok) (htype : d.type ≠ 0) (haddrs : d.addrs = (dinode sb disk i).addrs)
    (hmapped : (Img.mk disk d).Mapped) : Pending sb disk i d := by
  refine h.pend hi.1 hok (fun k b => ?_) hmapped
  have hslot : (Img.mk disk (update (dinode sb disk) i d i)).slot k
      = (Img.mk disk (dinode sb disk i)).slot k := by
    rw [update_self]
    exact slot_addrs haddrs k
  have halloc : Allocated sb (update (dinode sb disk) i d) i :=
    ⟨hi.1, by rw [update_self]; exact htype⟩
  exact ⟨fun hh => ⟨hi, hh.slot_lt, hslot.symm.trans hh.slot, hh.ne_zero⟩,
    fun hh => ⟨halloc, hh.slot_lt, hslot.trans hh.slot, hh.ne_zero⟩⟩

/-- New fields for an inode that keeps its blocks and its size. -/
theorem Exact.pendFields (h : Exact sb disk) (hi : Allocated sb (dinode sb disk) i)
    (hok : d.Ok) (htype : d.type ≠ 0) (haddrs : d.addrs = (dinode sb disk i).addrs)
    (hsize : d.size = (dinode sb disk i).size) : Pending sb disk i d := by
  refine h.pendSize hi hok htype haddrs fun o ho => ?_
  rw [slot_addrs haddrs]
  exact h.mapped i hi o (hsize ▸ ho)

/-- The bytes do not depend on the other fields. -/
theorem content_fields {d' : DInode} (haddrs : d'.addrs = d.addrs)
    (hsize : d'.size = d.size) :
    (Img.mk disk d').content = (Img.mk disk d).content :=
  Img.content_congr hsize (fun k _ => slot_addrs haddrs k) fun _ _ _ => rfl

/-- The fields of an inode are written back. -/
theorem Exact.putFields (h : Exact sb disk) (hi : Allocated sb (dinode sb disk) i)
    (hok : d.Ok) (htype : d.type ≠ 0) (haddrs : d.addrs = (dinode sb disk i).addrs)
    (hsize : d.size = (dinode sb disk i).size) :
    Exact sb (putInode sb disk i d)
      ∧ nodes sb (putInode sb disk i d)
        = update (nodes sb disk) i
          (some ⟨d.type, d.nlink, (onDisk sb disk i).content⟩) := by
  obtain ⟨hexact, hnodes⟩ := (h.pendFields hi hok htype haddrs hsize).put
  refine ⟨hexact, ?_⟩
  rw [hnodes, if_pos htype]
  unfold nodeOf
  rw [content_fields haddrs hsize]
  rfl

theorem slot_empty (hd : ∀ k, d.addrs k = 0) (k : Nat) : (Img.mk disk d).slot k = 0 := by
  unfold Img.slot
  rw [hd ndirect, hd k]
  simp

/-- An inode without blocks becomes another inode without blocks. -/
theorem Exact.pendEmpty (h : Exact sb disk) (hi : i < sb.ninodes)
    (hnone : ∀ k b, ¬ Holds sb disk (dinode sb disk) i k b)
    (hd : ∀ k, d.addrs k = 0) (hsize : d.size = 0) (hok : d.Ok) :
    Pending sb disk i d := by
  refine h.pend hi hok (fun k b => ⟨fun hh => ?_, fun hh => absurd hh (hnone k b)⟩) ?_
  · have hslot := hh.slot
    rw [update_self, slot_empty hd] at hslot
    exact absurd hslot.symm hh.ne_zero
  · intro o ho
    dsimp only at ho
    omega

theorem content_empty (hsize : d.size = 0) : (Img.mk disk d).content = [] := by
  unfold Img.content
  rw [hsize]
  rfl

/-- A free inode is taken. -/
theorem Exact.putNew (h : Exact sb disk) (hi : i < sb.ninodes)
    (hfree : (dinode sb disk i).type = 0) (hok : d.Ok) (htype : d.type ≠ 0)
    (hd : ∀ k, d.addrs k = 0) (hsize : d.size = 0) :
    Exact sb (putInode sb disk i d)
      ∧ nodes sb (putInode sb disk i d)
        = update (nodes sb disk) i (some ⟨d.type, d.nlink, []⟩) := by
  have hnone : ∀ k b, ¬ Holds sb disk (dinode sb disk) i k b :=
    fun k b hh => hh.alloc.2 hfree
  obtain ⟨hexact, hnodes⟩ := (h.pendEmpty hi hnone hd hsize hok).put
  refine ⟨hexact, ?_⟩
  rw [hnodes, if_pos htype]
  unfold nodeOf
  rw [content_empty hsize]

/-- An inode without blocks is given back. -/
theorem Exact.putFree (h : Exact sb disk) (hi : i < sb.ninodes)
    (hempty : ∀ k, (dinode sb disk i).addrs k = 0) (hok : d.Ok) (htype : d.type = 0)
    (hd : ∀ k, d.addrs k = 0) (hsize : d.size = 0) :
    Exact sb (putInode sb disk i d)
      ∧ nodes sb (putInode sb disk i d) = update (nodes sb disk) i none := by
  have hnone : ∀ k b, ¬ Holds sb disk (dinode sb disk) i k b := by
    intro k b hh
    have hslot := hh.slot
    rw [slot_empty hempty] at hslot
    exact hh.ne_zero hslot.symm
  obtain ⟨hexact, hnodes⟩ := (h.pendEmpty hi hnone hd hsize hok).put
  refine ⟨hexact, ?_⟩
  rw [hnodes, if_neg (by rw [htype]; simp)]

-- ==== bitmap changes

/-- Blocks outside the bitmap are the same. -/
structure BitmapOnly (sb : Superblock) (disk disk' : Disk) : Prop where
  low : ∀ c, c < sb.bmapstart → disk' c = disk c
  data : ∀ c, dataStart sb ≤ c → disk' c = disk c

theorem BitmapOnly.refl (disk : Disk) : BitmapOnly sb disk disk :=
  ⟨fun _ _ => rfl, fun _ _ => rfl⟩

theorem BitmapOnly.trans {disk'' : Disk} (h : BitmapOnly sb disk disk')
    (h' : BitmapOnly sb disk' disk'') : BitmapOnly sb disk disk'' :=
  ⟨fun c hc => (h'.low c hc).trans (h.low c hc),
    fun c hc => (h'.data c hc).trans (h.data c hc)⟩

theorem BitmapOnly.dinode (h : BitmapOnly sb disk disk') (hl : Layout sb)
    (hj : j < sb.ninodes) : Fs.dinode sb disk' j = Fs.dinode sb disk j := by
  unfold Fs.dinode
  rw [h.low _ (hl.inodeArea j hj)]

theorem Exact.nodes_bitmap (h : Exact sb disk) (hb : BitmapOnly sb disk disk') :
    nodes sb disk' = nodes sb disk := by
  funext j
  unfold nodes
  by_cases hj : j < sb.ninodes
  · rw [hb.dinode h.layout hj]
    split
    next halloc =>
      unfold nodeOf
      rw [h.owns.content_same halloc hb.data]
    next => rfl
  · rw [if_neg fun hc => hj hc.1, if_neg fun hc => hj hc.1]

/-- A file whose blocks have all been marked free. -/
theorem Exact.putEmptied (h : Exact sb disk) (hi : i < sb.ninodes) (hok : d.Ok)
    (htype : d.type ≠ 0) (hsize : d.size = 0) (hb : BitmapOnly sb disk disk')
    (hloose : Loose sb disk' (update (dinode sb disk) i d) []) :
    Exact sb (putInode sb disk' i d)
      ∧ nodes sb (putInode sb disk' i d)
        = update (nodes sb disk) i (some ⟨d.type, d.nlink, []⟩) := by
  have htab : ∀ j, j < sb.ninodes →
      update (dinode sb disk') i d j = update (dinode sb disk) i d j := by
    intro j hj
    by_cases hji : j = i
    · rw [hji, update_self, update_self]
    · rw [update_of_ne hji, update_of_ne hji, hb.dinode h.layout hj]
  have hpend : Pending sb disk' i d := by
    refine ⟨h.layout, hloose.owns.congr_tab htab, hloose.covered.congr_tab htab,
      fun j hj o ho => ?_, hi, hok⟩
    by_cases hji : j = i
    · subst hji
      rw [update_self] at ho
      dsimp only at ho
      omega
    · unfold Allocated at hj
      rw [update_of_ne hji] at hj ho ⊢
      rw [hb.dinode h.layout hj.1] at hj ho ⊢
      rw [h.owns.slot_same hj hb.data]
      exact h.mapped j hj o ho
  obtain ⟨hexact, hnodes⟩ := hpend.put
  refine ⟨hexact, ?_⟩
  rw [hnodes, if_pos htype, h.nodes_bitmap hb]
  unfold nodeOf
  rw [content_empty hsize]

-- ==== writing a file

/-- A file is written, and its inode is on the disk as it is in memory. -/
theorem Exact.write {z : Img} (h : Exact sb disk) (hi : Allocated sb (dinode sb disk) i)
    (ht : Touch sb (dinode sb disk) i (onDisk sb disk i) z)
    (hcov : Covered sb z.disk (update (dinode sb disk) i z.d) [])
    (hmap : z.Mapped) (hflush : dinode sb z.disk i = z.d) :
    Exact sb z.disk
      ∧ nodes sb z.disk = update (nodes sb disk) i (some (nodeOf z.disk z.d)) := by
  have hx : IsFile sb (dinode sb disk) i (onDisk sb disk i) := by
    refine ⟨h.layout, ?_, hi.1, hi.2⟩
    unfold onDisk
    rw [update_eq_self]
    exact h.owns
  have htab : ∀ j, j < sb.ninodes →
      dinode sb z.disk j = update (dinode sb disk) i z.d j := by
    intro j hj
    by_cases hji : j = i
    · rw [hji, update_self, hflush]
    · rw [update_of_ne hji]
      exact ht.dinodes j hj hji
  have hother : ∀ {j}, j ≠ i → Allocated sb (dinode sb z.disk) j →
      dinode sb z.disk j = dinode sb disk j ∧ Allocated sb (dinode sb disk) j := by
    intro j hji hj
    have hd : dinode sb z.disk j = dinode sb disk j := ht.dinodes j hj.1 hji
    exact ⟨hd, hj.1, hd ▸ hj.2⟩
  refine ⟨⟨h.layout, ht.owns.congr_tab htab, hcov.congr_tab htab, fun j hj o ho => ?_⟩, ?_⟩
  · unfold onDisk at ho ⊢
    by_cases hji : j = i
    · subst hji
      rw [hflush] at ho ⊢
      exact hmap o ho
    · obtain ⟨hd, hj'⟩ := hother hji hj
      rw [hd] at ho ⊢
      rw [ht.other_slot hx hj' hji]
      exact h.mapped j hj' o ho
  · funext j
    by_cases hji : j = i
    · subst hji
      rw [update_self]
      have htype : z.d.type ≠ 0 := (hx.touch ht).type
      unfold nodes
      rw [hflush, if_pos ⟨hi.1, htype⟩]
    · rw [update_of_ne hji]
      unfold nodes
      by_cases hj : j < sb.ninodes
      · have hd : dinode sb z.disk j = dinode sb disk j := ht.dinodes j hj hji
        rw [hd]
        split
        next halloc =>
          unfold nodeOf
          have hcont := ht.other_content hx halloc hji
          rw [hcont]
          rfl
        next => rfl
      · rw [if_neg fun hc => hj hc.1, if_neg fun hc => hj hc.1]

end Xv6FsServer.Fs
