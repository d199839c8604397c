/-
`itrunc` and what `iput` does with the last reference to a file without
links.

The blocks are freed in the order of `slotOrder`, each once and each while
it is marked used: at every point the blocks still to come are the list of
`Loose`, and `bfree` takes its head. The inode on the disk names the blocks
until `iupdate`, so the account is kept with the inode taken to be empty
from the start.
-/
import Xv6FsServer.Kfs.Proofs.Writing

namespace Xv6FsServer.Kfs

open Lib Fs Function Meets

variable {s t : KFs} {ip i : Nat} {tab : Nat → DInode} {L : List Nat}
variable {sb : Superblock} {disk disk' : Disk} {d : DInode}

-- ==== bfree

theorem toNat_not_mask (i : Nat) (j : Nat) (hj : j < 8) :
    (~~~UInt8.ofNat (2 ^ (i % 8))).toNat.testBit j = decide (j ≠ i % 8) := by
  have hlt : 2 ^ (i % 8) < 2 ^ 8 :=
    Nat.pow_lt_pow_right (by omega) (Nat.mod_lt _ (by omega))
  rw [UInt8.toNat_not, toNat_mask,
    show UInt8.size - 1 - 2 ^ (i % 8) = 2 ^ 8 - (2 ^ (i % 8) + 1) by
      rw [Nat.sub_sub, Nat.add_comm 1]; rfl,
    Nat.testBit_two_pow_sub_succ hlt, Nat.testBit_two_pow, decide_eq_true hj,
    Bool.true_and]
  rw [← decide_not]
  exact decide_eq_decide.mpr (not_congr eq_comm)

theorem bit_clearBit {b : Block} (hi : i < bpb) (j : Nat) :
    bit (clearBit b i) j = (bit b j && decide (j ≠ i)) := by
  unfold bit clearBit
  unfold bpb at hi
  rw [Bytes.get_ofFn]
  by_cases hj : j / 8 = i / 8
  · rw [hj, if_pos (by unfold bsize; omega), if_pos rfl, UInt8.toNat_and,
      Nat.testBit_and, toNat_not_mask _ _ (by omega)]
    congr 1
    exact decide_eq_decide.mpr (by omega)
  · have hne : j ≠ i := fun e => hj (by rw [e])
    rw [if_neg hj, decide_eq_true hne, Bool.and_true]
    split
    next => rfl
    next h => rw [Bytes.get_of_le (by omega)]

theorem used_clearBit {b c : Nat} :
    used sb (update disk (bblock b sb) (clearBit (disk (bblock b sb)) (b % bpb))) c
      = (used sb disk c && decide (c ≠ b)) := by
  unfold used
  by_cases hblk : bblock c sb = bblock b sb
  · rw [hblk, update_self, bit_clearBit (Nat.mod_lt _ (by unfold bpb; omega))]
    congr 1
    refine decide_eq_decide.mpr (not_congr ⟨fun h => ?_, fun h => by rw [h]⟩)
    unfold bblock bpb at *
    omega
  · have hne : c ≠ b := fun h => hblk (by rw [h])
    rw [update_of_ne hblk, decide_eq_true hne, Bool.and_true]

/-- Bits of the bitmap were cleared until `L` was left. -/
structure Released (sb : Superblock) (disk : Disk) (tab : Nat → DInode) (L : List Nat)
    (disk' : Disk) : Prop where
  loose : Loose sb disk' tab L
  bitmap : BitmapOnly sb disk disk'

theorem Released.trans {disk'' : Disk} {L' : List Nat} (h : Released sb disk tab L disk')
    (h' : Released sb disk' tab L' disk'') :
    Released sb disk tab L' disk'' :=
  ⟨h'.loose, h.bitmap.trans h'.bitmap⟩

/-- What the accounts need of the superblock. -/
structure Grounded (s : KFs) : Prop where
  layout : Layout s.sb
  super : getSuperblock (s.disk 1) = s.sb

theorem Released.super (h : Released sb disk tab L disk') (hl : Layout sb) :
    disk' 1 = disk 1 :=
  h.bitmap.low 1 hl.super.1

theorem Released.grounded (h : Released s.sb s.disk tab L disk') (hg : Grounded s) :
    Grounded { s with disk := disk' } := by
  refine ⟨hg.layout, ?_⟩
  show getSuperblock (disk' 1) = s.sb
  rw [h.super hg.layout, hg.super]

/-- The next block on the list is freed. -/
theorem bfree_careful {b : Nat} (hg : Grounded s) (h : Loose s.sb s.disk tab (b :: L)) :
    Careful (bfree b) s fun _ t => ∃ disk', t = { s with disk := disk' }
      ∧ Released s.sb s.disk tab L disk' := by
  obtain ⟨hdata, hlt, hused, -⟩ := h.loose b List.mem_cons_self
  apply modify_bind
  rw [hg.super]
  apply get_bind
  rw [if_pos hused]
  apply Meets.change
  have hblk := hg.layout.bitmapArea b hlt
  have hstart : s.sb.bmapstart ≤ bblock b s.sb := Nat.le_add_left ..
  refine ⟨_, rfl, h.release hg.layout (fun c hc => update_of_ne hc ..)
    fun c _ => used_clearBit, fun c hc => update_of_ne ?_ ..,
    fun c hc => update_of_ne ?_ ..⟩
  · show c ≠ bblock b s.sb
    omega
  · show c ≠ bblock b s.sb
    omega

-- ==== itrunc

/-- The numbers other than 0 that `f` has from `k` on, `n` of them looked
at. -/
def filled (f : Nat → Nat) (k n : Nat) : List Nat :=
  (List.range' k n).filterMap fun j => if f j = 0 then none else some (f j)

theorem filled_succ (f : Nat → Nat) (k n : Nat) :
    filled f k (n + 1)
      = if f k = 0 then filled f (k + 1) n else f k :: filled f (k + 1) n := by
  unfold filled
  rw [List.range'_succ, List.filterMap_cons]
  split
  next h => rw [if_pos (by simpa using h)]
  next b h =>
    split at h
    next => cases h
    next h0 =>
      rw [if_neg h0]
      cases h
      rfl

/-- The blocks of a file, as `itrunc` comes to them. -/
theorem blocks_eq (disk : Disk) (d : DInode) :
    (Img.mk disk d).blocks = filled d.addrs 0 ndirect
      ++ if d.addrs ndirect = 0 then []
        else filled (fun j => (disk (d.addrs ndirect)).le32 (4 * j)) 0 nindirect
          ++ [d.addrs ndirect] := by
  have hslot := (Img.mk disk d).slot_direct (Nat.le_refl ndirect)
  unfold Img.blocks slotOrder
  rw [List.filterMap_append, List.filterMap_append]
  refine congrArg₂ (· ++ ·) ?_ ?_
  · refine List.filterMap_congr fun k hk => ?_
    rw [List.mem_range'_1] at hk
    unfold Img.block
    rw [Img.slot_direct _ (by omega)]
  · split
    next h0 =>
      have hnone : ∀ k, ndirect ≤ k → (Img.mk disk d).block k = none := by
        intro k hk
        unfold Img.block
        rcases Nat.eq_or_lt_of_le hk with rfl | hlt
        · rw [hslot, if_pos h0]
        · rw [Img.slot_zero_of_no_indirect h0 hlt, if_pos rfl]
      rw [List.append_eq_nil_iff, List.filterMap_eq_nil_iff, List.filterMap_eq_nil_iff]
      refine ⟨fun k hk => hnone k ?_, fun k hk => hnone k ?_⟩
      · rw [List.mem_range'_1] at hk
        omega
      · rw [List.mem_singleton.mp hk]
    next h0 =>
      refine congrArg₂ (· ++ ·) ?_ ?_
      · unfold filled
        rw [← Nat.add_zero (ndirect + 1), ← List.map_add_range', List.filterMap_map]
        refine List.filterMap_congr fun j _ => ?_
        have hentry := (Img.mk disk d).slot_entry (Nat.le_add_right ndirect j) h0
        rw [slotOf_entry (Nat.le_add_right ..), Nat.add_sub_cancel_left] at hentry
        show (Img.mk disk d).block (ndirect + 1 + j) = _
        unfold Img.block
        rw [show ndirect + 1 + j = ndirect + j + 1 by omega, hentry]
      · have hblock : (Img.mk disk d).block ndirect = some (d.addrs ndirect) := by
          unfold Img.block
          rw [hslot, if_neg h0]
        rw [List.filterMap_cons_some hblock, List.filterMap_nil]

theorem freeEntries_careful (a : Block) (n j : Nat) (hg : Grounded s)
    (h : Loose s.sb s.disk tab (filled (fun j => a.le32 (4 * j)) j n ++ L)) :
    Careful (freeEntries a n j) s fun _ t => ∃ disk', t = { s with disk := disk' }
      ∧ Released s.sb s.disk tab L disk' := by
  induction n generalizing s j with
  | zero => exact ret ⟨s.disk, rfl, h, .refl _⟩
  | succ n ih =>
    rw [filled_succ] at h
    unfold freeEntries
    split
    next h0 =>
      rw [if_neg h0] at h
      refine (bfree_careful hg h).seq ?_
      rintro _ t ⟨disk', rfl, hrel⟩
      refine (ih (j + 1) (hrel.grounded hg) hrel.loose).mono fun _ u hu => ?_
      obtain ⟨disk'', rfl, hrel'⟩ := hu
      exact ⟨disk'', rfl, hrel.trans hrel'⟩
    next h0 =>
      rw [if_pos (not_not.mp h0)] at h
      exact ih (j + 1) hg h

/-- An inode without the `n` direct blocks from `k` on. -/
def without (d : DInode) (k n : Nat) : DInode :=
  { d with addrs := fun j => if k ≤ j ∧ j < k + n then 0 else d.addrs j }

theorem without_zero (d : DInode) (k : Nat) : without d k 0 = d := by
  unfold without
  simp only [show ∀ j, ¬ (k ≤ j ∧ j < k + 0) from fun j => by omega, if_false]

theorem without_succ (d : DInode) (k n : Nat) :
    without d k (n + 1) = without (d.setAddr k 0) (k + 1) n := by
  unfold without DInode.setAddr
  congr 1
  funext j
  by_cases hj : j = k
  · dsimp only
    rw [if_pos (by omega), hj, update_self, ite_self]
  · dsimp only
    rw [update_of_ne hj]
    exact if_congr (by omega) rfl rfl

theorem setAddr_zero {k : Nat} (h : d.addrs k = 0) : d.setAddr k 0 = d := by
  unfold DInode.setAddr
  rw [← h, update_eq_self]

theorem filled_setAddr (d : DInode) {k l n : Nat} (hk : k < l) :
    filled (d.setAddr k 0).addrs l n = filled d.addrs l n := by
  unfold filled
  refine List.filterMap_congr fun j hj => ?_
  rw [List.mem_range'_1] at hj
  rw [d.addrs_setAddr_of_ne (by omega)]

/-- The direct blocks from `k` on are freed and taken out of the inode. -/
theorem freeAddrs_careful (n k : Nat) (hg : Grounded s)
    (h : Loose s.sb s.disk tab (filled (s.inodes ip).d.addrs k n ++ L)) :
    Careful (freeAddrs ip n k) s fun _ t => ∃ disk',
      t = s.setImg ip ⟨disk', without (s.inodes ip).d k n⟩
        ∧ Released s.sb s.disk tab L disk' := by
  induction n generalizing s k with
  | zero =>
    refine ret ⟨s.disk, ?_, h, .refl _⟩
    rw [without_zero]
    exact (setImg_img s ip).symm
  | succ n ih =>
    rw [filled_succ] at h
    rw [without_succ]
    apply get_bind
    split
    next h0 =>
      rw [if_neg h0] at h
      refine (bfree_careful hg h).seq ?_
      rintro _ t ⟨disk', rfl, hrel⟩
      apply modify_bind
      -- the state after the pass: `bfree`'s disk, and the slot emptied
      show Careful _ (s.setImg ip ⟨disk', (s.inodes ip).d.setAddr k 0⟩) _
      have hslot : ((s.setImg ip ⟨disk', (s.inodes ip).d.setAddr k 0⟩).inodes ip).d
          = (s.inodes ip).d.setAddr k 0 := by rw [setImg_inode]
      have hloose := hrel.loose
      rw [← filled_setAddr _ (Nat.lt_succ_self k), ← hslot] at hloose
      refine (ih (s := s.setImg ip ⟨disk', (s.inodes ip).d.setAddr k 0⟩) (k + 1)
        ⟨hg.layout, ?_⟩ hloose).mono fun _ u hu => ?_
      · exact (congrArg _ (hrel.super hg.layout)).trans hg.super
      · obtain ⟨disk'', rfl, hrel'⟩ := hu
        rw [hslot]
        exact ⟨disk'', setImg_setImg .., hrel.trans hrel'⟩
    next h0 =>
      rw [if_pos (not_not.mp h0)] at h
      rw [setAddr_zero (not_not.mp h0)]
      exact ih (k + 1) hg h

/-- A file without bytes. -/
def truncated (d : DInode) : DInode := { d with size := 0, addrs := fun _ => 0 }

theorem truncated_ok (h : d.Ok) : (truncated d).Ok :=
  ⟨h.type, h.major, h.minor, h.nlink, Nat.zero_lt_succ _, fun _ => Nat.zero_lt_succ _,
    fun _ _ => rfl⟩

/-- An inode that has lost its blocks and its size. -/
theorem eq_truncated {e : DInode} (hfields : e = { d with addrs := e.addrs })
    (haddrs : ∀ j, e.addrs j = 0) : { e with size := 0 } = truncated d := by
  rw [hfields]
  unfold truncated
  congr 1
  exact funext haddrs

theorem addrs_without (hok : d.Ok) {j : Nat} (hj : j ≠ ndirect) :
    (without d 0 ndirect).addrs j = 0 := by
  unfold without
  dsimp only
  split
  next => rfl
  next hout => exact hok.past j (by omega)

theorem without_indirect (d : DInode) :
    (without d 0 ndirect).addrs ndirect = d.addrs ndirect := by
  unfold without
  dsimp only
  rw [if_neg (by omega)]

/-- The file is taken apart, and its inode is written back. -/
theorem itrunc_careful (hdisk : Exact s.sb s.disk)
    (hsuper : getSuperblock (s.disk 1) = s.sb)
    (hi : Allocated s.sb (dinode s.sb s.disk) i) (hinum : (s.inodes ip).inum = i)
    (hd : (s.inodes ip).d = dinode s.sb s.disk i) :
    Careful (itrunc ip) s fun _ t => ∃ disk',
      t = s.setImg ip ⟨putInode s.sb disk' i (truncated (s.inodes ip).d),
        truncated (s.inodes ip).d⟩
      ∧ Released s.sb s.disk
        (update (dinode s.sb s.disk) i (truncated (s.inodes ip).d)) [] disk' := by
  have hok : (s.inodes ip).d.Ok := by
    rw [hd]
    exact getDInode_ok ..
  have hloose := hdisk.owns.loosen hdisk.covered hi
    (d := truncated (s.inodes ip).d) fun _ => rfl
  rw [← hd, blocks_eq] at hloose
  have hg : Grounded s := ⟨hdisk.layout, hsuper⟩
  -- the end of the call
  have hend : ∀ {disk' : Disk} {e : DInode},
      { e with size := 0 } = truncated (s.inodes ip).d →
      Released s.sb s.disk
        (update (dinode s.sb s.disk) i (truncated (s.inodes ip).d)) [] disk' →
      Careful (do
          setD ip fun d => { d with size := 0 }
          iupdate ip) (s.setImg ip ⟨disk', e⟩) fun _ t => ∃ disk',
        t = s.setImg ip ⟨putInode s.sb disk' i (truncated (s.inodes ip).d),
          truncated (s.inodes ip).d⟩
        ∧ Released s.sb s.disk
          (update (dinode s.sb s.disk) i (truncated (s.inodes ip).d)) [] disk' := by
    intro disk' e he hrel
    apply Meets.bind
    apply setD_careful
    rw [he]
    apply iupdate_careful hinum
    exact ⟨disk', rfl, hrel⟩
  refine (freeAddrs_careful ndirect 0 hg hloose).seq ?_
  rintro _ t ⟨disk', rfl, hrel⟩
  apply get_bind
  rw [setImg_inode]
  rw [without_indirect]
  split
  next h0 =>
    have hdata : dataStart s.sb ≤ (s.inodes ip).d.addrs ndirect := by
      rw [hd] at h0 ⊢
      exact hdisk.owns.indirect hi h0
    have hblock : (s.setImg ip ⟨disk', without (s.inodes ip).d 0 ndirect⟩).disk
        ((s.inodes ip).d.addrs ndirect) = s.disk ((s.inodes ip).d.addrs ndirect) :=
      hrel.bitmap.data _ hdata
    have hloose := hrel.loose
    rw [if_neg h0, ← hblock] at hloose
    have hg1 : Grounded (s.setImg ip ⟨disk', without (s.inodes ip).d 0 ndirect⟩) :=
      ⟨hdisk.layout, (congrArg _ (hrel.super hdisk.layout)).trans hsuper⟩
    refine (freeEntries_careful _ _ _ hg1 hloose).seq ?_
    rintro _ t ⟨disk2, rfl, hrel2⟩
    refine (bfree_careful (hrel2.grounded hg1) hrel2.loose).seq ?_
    rintro _ t ⟨disk3, rfl, hrel3⟩
    apply Meets.bind
    show Careful _ (s.setImg ip ⟨disk3, without (s.inodes ip).d 0 ndirect⟩) _
    apply setD_careful
    refine hend (eq_truncated rfl fun j => ?_)
      ((hrel.trans hrel2).trans hrel3)
    by_cases hj : j = ndirect
    · rw [hj]
      exact DInode.addrs_setAddr_self ..
    · dsimp only
      rw [DInode.addrs_setAddr_of_ne _ hj]
      exact addrs_without hok hj
  next h0 =>
    have hloose := hrel.loose
    rw [if_pos (not_not.mp h0)] at hloose
    refine hend (eq_truncated rfl fun j => ?_) ⟨hloose, hrel.bitmap⟩
    by_cases hj : j = ndirect
    · rw [hj, without_indirect]
      exact not_not.mp h0
    · exact addrs_without hok hj

/-- A file taken apart whose inode is marked free. -/
theorem Released.freed (hdisk : Exact sb disk) (hi : Allocated sb (dinode sb disk) i)
    (hd : d = dinode sb disk i)
    (h : Released sb disk (update (dinode sb disk) i (truncated d)) [] disk')
    {disk'' : Disk} (hdisk'' : disk'' = putInode sb (putInode sb disk' i (truncated d)) i
      { truncated d with type := 0 }) :
    Exact sb disk'' ∧ nodes sb disk'' = update (nodes sb disk) i none
      ∧ (∀ j, j < sb.ninodes → j ≠ i → dinode sb disk'' j = dinode sb disk j)
      ∧ disk'' 1 = disk 1 := by
  have hl := hdisk.layout
  have hok : d.Ok := hd ▸ getDInode_ok ..
  have hok0 : ({ truncated d with type := 0 } : DInode).Ok :=
    { truncated_ok hok with type := Nat.zero_lt_succ _ }
  obtain ⟨hexact, hnodes⟩ := hdisk.putEmptied hi.1 (truncated_ok hok)
    (by rw [hd]; exact hi.2) rfl h.bitmap h.loose
  obtain ⟨hexact', hnodes'⟩ := hexact.putFree (d := { truncated d with type := 0 }) hi.1
    (fun k => by rw [dinode_putInode (truncated_ok hok)]; rfl) hok0 rfl (fun _ => rfl) rfl
  rw [hnodes, update_idem] at hnodes'
  rw [hdisk'']
  refine ⟨hexact', hnodes', fun j hj hne => ?_, ?_⟩
  · rw [dinode_putInode_of_ne hne, dinode_putInode_of_ne hne, h.bitmap.dinode hl hj]
  · rw [putInode_of_ne (hl.super.2 i), putInode_of_ne (hl.super.2 i), h.super hl]

end Xv6FsServer.Kfs
