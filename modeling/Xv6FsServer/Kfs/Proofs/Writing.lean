/-
`writei` in the kernel: what a write does to the disk and to the inode in
memory.

While a write runs, the state is the one it started in but for the disk and
the one inode (`KFs.setImg`), and these two are an `Img`, so what `bmap` and
the loop do is said of images: they stay within `Spends`, and the bytes of
the range are the ones written. At the end the inode is on the disk as it is
in memory: either it was written back, or the range lay within the file,
which is mapped, and `bmap` had nothing to add.
-/
import Xv6FsServer.Kfs.Proofs.Lookup
import Xv6FsServer.Fs.Nodes

namespace Xv6FsServer.Kfs

open Lib Fs Function Meets

variable {s t : KFs} {ip : Nat} {tab : Nat → DInode} {i : Nat}
variable {x : Img} {b k bn a : Nat} {d : DInode}

/-- The program does not free a block that is free; if it returns, `Q`
holds. -/
abbrev Careful {α : Type} (x : Op α) (s : KFs) (Q : α → KFs → Prop) : Prop :=
  Safe (fun e => e ≠ Panic.freeingFreeBlock) x s Q

-- ==== images

/-- The disk and the inode in slot `ip` are those of `x`. -/
def KFs.setImg (s : KFs) (ip : Nat) (x : Img) : KFs :=
  { s with
    disk := x.disk
    inodes := update s.inodes ip { s.inodes ip with d := x.d } }

@[simp] theorem img_setImg (s : KFs) (ip : Nat) (x : Img) :
    (s.setImg ip x).img ip = x := by
  unfold KFs.setImg KFs.img
  dsimp only
  rw [update_self]

@[simp] theorem setImg_setImg (s : KFs) (ip : Nat) (x y : Img) :
    (s.setImg ip x).setImg ip y = s.setImg ip y := by
  unfold KFs.setImg
  dsimp only
  rw [update_self, update_idem]

@[simp] theorem setImg_img (s : KFs) (ip : Nat) : s.setImg ip (s.img ip) = s := by
  unfold KFs.setImg KFs.img
  rw [update_eq_self]

@[simp] theorem setImg_inode (s : KFs) (ip : Nat) (x : Img) :
    (s.setImg ip x).inodes ip = { s.inodes ip with d := x.d } := by
  unfold KFs.setImg
  dsimp only
  rw [update_self]

theorem setD_careful {f : DInode → DInode} {Q : Unit → KFs → Prop}
    (h : Q () (s.setImg ip ⟨x.disk, f x.d⟩)) : Careful (setD ip f) (s.setImg ip x) Q := by
  apply change
  rw [setImg_inode]
  unfold KFs.setImg at h ⊢
  rw [update_idem]
  exact h

theorem iupdate_careful {Q : Unit → KFs → Prop} (hinum : (s.inodes ip).inum = i)
    (h : Q () (s.setImg ip ⟨putInode s.sb x.disk i x.d, x.d⟩)) :
    Careful (iupdate ip) (s.setImg ip x) Q := by
  apply get_bind
  apply change
  rw [setImg_inode]
  rw [hinum]
  exact h

-- ==== balloc

/-- The lowest free block, cleared and marked used. -/
theorem balloc_careful {Q : Nat → KFs → Prop}
    (h : ∀ b, lowestFree s.sb s.disk = some b →
      Q b { s with disk := update (markUsed s.sb s.disk b) b Bytes.zero }) :
    Careful balloc s Q := by
  apply get_bind
  split
  next b hb =>
    apply modify_bind
    apply modify_bind
    apply ret
    exact h b hb
  next => exact fault (by nofun)

/-- Marking before clearing is clearing before marking. -/
theorem markUsed_clear {sb : Superblock} {disk : Disk} (hne : b ≠ bblock b sb) :
    update (markUsed sb disk b) b Bytes.zero
      = markUsed sb (update disk b Bytes.zero) b := by
  unfold markUsed
  rw [update_of_ne (Ne.symm hne), update_comm hne]

/-- What `bmap` did for the slot `k`. -/
structure Mapping (sb : Superblock) (tab : Nat → DInode) (i : Nat) (x : Img)
    (k a : Nat) (y : Img) : Prop where
  spends : Spends sb tab i x y
  slot : y.slot k = a
  ne_zero : a ≠ 0
  data : ∀ l, l < nslots → l ≠ ndirect → x.slot l ≠ 0 →
    y.disk (x.slot l) = x.disk (x.slot l)
  same : x.slot k ≠ 0 → y = x

theorem Mapping.held {sb : Superblock} (hx : IsFile sb tab i x)
    (h0 : x.slot k ≠ 0) : Mapping sb tab i x k (x.slot k) x :=
  ⟨.refl hx.owns, rfl, h0, fun _ _ _ _ => rfl, fun _ => rfl⟩

theorem Mapping.claimed {sb : Superblock}
    (hx : IsFile sb tab i x) (hk : k < nslots) (h0 : x.slot k = 0)
    (hind : ndirect < k → x.d.addrs ndirect ≠ 0)
    (hb : lowestFree sb x.disk = some b) :
    Mapping sb tab i x k b (x.claim sb k b) := by
  obtain ⟨hlt, hfree⟩ := lowestFree_some hb
  have hclaim : Claims sb x k b := ⟨hk, h0, hind, hfree, hlt⟩
  refine ⟨hclaim.spends hx, ?_, ?_, fun l hl hne hl0 => hclaim.data_block hx hl hne hl0,
    fun hne => absurd h0 hne⟩
  · rw [hclaim.slot hx, if_pos rfl]
  · exact (hclaim.takes hx).ne_zero (hx.clear hfree)

/-- An entry of the indirect block, in two steps of which each may have been
none. -/
theorem Mapping.entry {sb : Superblock} {y z : Img} {ind : Nat}
    (hx : IsFile sb tab i x) (hbn : ndirect ≤ bn)
    (hy : Mapping sb tab i x ndirect ind y) (hz : Mapping sb tab i y (slotOf bn) a z) :
    Mapping sb tab i x (slotOf bn) a z := by
  refine ⟨hy.spends.trans hx hz.spends, hz.slot, hz.ne_zero,
    fun l hl hne h0 => ?_, fun h0 => ?_⟩
  · have hkeep := hy.spends.touch.keep l hl h0
    have hdata := hz.data l hl hne (by rw [hkeep]; exact h0)
    rw [hkeep] at hdata
    exact hdata.trans (hy.data l hl hne h0)
  · have hind : x.slot ndirect ≠ 0 := by
      rw [Img.slot_direct _ (Nat.le_refl _)]
      exact addrs_ne_of_entry bn hbn h0
    have hyx := hy.same hind
    rw [hz.same (by rw [hyx]; exact h0), hyx]

/-- A free block is not the one that has its bit. -/
theorem free_ne_bblock {sb : Superblock}
    (hx : IsFile sb tab i x) (hb : lowestFree sb x.disk = some b) :
    b ≠ bblock b sb := by
  obtain ⟨hlt, hfree⟩ := lowestFree_some hb
  have h1 := (hx.owns.free hfree).1
  have h2 := hx.layout.bitmapArea b hlt
  omega

theorem bmapAddr_careful (hx : IsFile s.sb tab i (s.img ip)) (hk : k ≤ ndirect) :
    Careful (bmapAddr ip k) s fun a t => ∃ y, t = s.setImg ip y
      ∧ Mapping s.sb tab i (s.img ip) k a y := by
  have hslot : (s.img ip).slot k = (s.inodes ip).d.addrs k := Img.slot_direct _ hk
  apply get_bind
  split
  next h0 =>
    apply Meets.bind
    refine balloc_careful fun b hb => ?_
    apply modify_bind
    apply ret
    refine ⟨(s.img ip).claim s.sb k b, ?_, Mapping.claimed hx (lt_nslots_of_le hk)
      (hslot.trans h0) (fun hlt => by omega) hb⟩
    unfold Img.claim Img.take Img.clear KFs.setImg KFs.img
    rw [Img.assign_direct _ hk]
    rw [markUsed_clear (free_ne_bblock hx hb)]
  next h0 =>
    apply ret
    refine ⟨s.img ip, (setImg_img s ip).symm, ?_⟩
    rw [← hslot]
    exact Mapping.held hx (by rw [hslot]; exact h0)

theorem bmap_careful (hx : IsFile s.sb tab i (s.img ip)) (hbn : bn < maxFile) :
    Careful (bmap ip bn) s fun a t => ∃ y, t = s.setImg ip y
      ∧ Mapping s.sb tab i (s.img ip) (slotOf bn) a y := by
  unfold bmap
  split
  next hlt =>
    rw [slotOf_direct hlt]
    exact bmapAddr_careful hx (by omega)
  next hge =>
    unfold maxFile at hbn
    rw [if_pos (by omega)]
    refine (bmapAddr_careful hx (Nat.le_refl ndirect)).seq ?_
    rintro ind t ⟨y, rfl, hmap⟩
    have hy := hx.touch hmap.spends.touch
    have hind : y.d.addrs ndirect = ind := by
      rw [← Img.slot_direct y (Nat.le_refl _)]
      exact hmap.slot
    have hind0 : y.d.addrs ndirect ≠ 0 := by
      rw [hind]
      exact hmap.ne_zero
    have hent : y.slot (slotOf bn) = (y.disk ind).le32 (4 * (bn - ndirect)) := by
      rw [Img.slot_entry y (by omega) hind0, hind]
    have hgt : ndirect < slotOf bn := by
      rw [slotOf_entry (by omega)]
      omega
    have hlt : slotOf bn < nslots := slotOf_lt (by unfold maxFile; omega)
    apply get_bind
    split
    next h0 =>
      apply Meets.bind
      refine balloc_careful fun b hb => ?_
      apply modify_bind
      apply ret
      refine ⟨y.claim s.sb (slotOf bn) b, ?_, hmap.entry hx (by omega)
        (Mapping.claimed hy hlt (hent.trans h0) (fun _ => hind0) hb)⟩
      unfold Img.claim Img.take Img.clear KFs.setImg
      rw [Img.assign_entry _ hgt]
      rw [markUsed_clear (free_ne_bblock hy hb), hind, slotOf_entry (by omega),
        show bn + 1 - (ndirect + 1) = bn - ndirect by omega]
    next h0 =>
      apply ret
      refine ⟨y, rfl, hmap.entry hx (by omega) ?_⟩
      have hheld := Mapping.held (k := slotOf bn) hy (by rw [hent]; exact h0)
      rw [hent] at hheld
      exact hheld

-- ==== writei

/-- What a write of `src` at `off` did to the file. -/
structure Laid (sb : Superblock) (tab : Nat → DInode) (i : Nat) (x : Img)
    (off : Nat) (src : List UInt8) (y : Img) : Prop where
  spends : Spends sb tab i x y
  bytes : x.Overlays off src y
  same : (∀ o, off ≤ o → o < off + src.length → x.slot (slotOf (o / bsize)) ≠ 0) →
    y.d = x.d

theorem Laid.nil {sb : Superblock} (hx : IsFile sb tab i x) {off : Nat}
    {src : List UInt8} (hlen : src.length = 0) : Laid sb tab i x off src x := by
  refine ⟨.refl hx.owns, fun o ho => ?_, fun _ => rfl⟩
  rw [if_neg (by omega)]
  exact ⟨ho.resolve_right (by omega), rfl⟩

/-- One block of the range, and the rest of it. -/
theorem Laid.cons {sb : Superblock} {y z : Img} {off m : Nat} {src : List UInt8}
    (hx : IsFile sb tab i x) (hmap : Mapping sb tab i x (slotOf (off / bsize)) a y)
    (hm : m = min src.length (bsize - off % bsize)) (hlen : 0 < src.length)
    (hrest : Laid sb tab i (y.write a (off % bsize) (src.take m)) (off + m)
      (src.drop m) z) :
    Laid sb tab i x off src z := by
  have hmod : off % bsize < bsize := Nat.mod_lt _ (by unfold bsize; omega)
  have hy := hx.touch hmap.spends.touch
  have hne : y.slot (slotOf (off / bsize)) ≠ 0 := by
    rw [hmap.slot]
    exact hmap.ne_zero
  have hlt := slotOf_lt (slotOf_lt_of_slot hne)
  have hspend := hy.write_spends hlt (slotOf_ne _) hne (off % bsize) (src.take m)
  have hslot := hy.slot_write hlt (slotOf_ne _) hne (off % bsize) (src.take m)
  have hbyte := hy.byte_write hne (off % bsize) (src.take m)
  rw [hmap.slot] at hspend hslot hbyte
  have hdrop : (src.drop m).length = src.length - m := List.length_drop
  have hcut : (src.take m).length = m := by
    rw [List.length_take]
    omega
  refine ⟨(hmap.spends.trans hx hspend).trans hx hrest.spends, fun o ho => ?_,
    fun hall => ?_⟩
  · by_cases hin : off ≤ o ∧ o < off + src.length
    · rw [if_pos hin]
      by_cases hfirst : o < off + m
      · -- in the block just written
        have hdiv : o / bsize = off / bsize := by
          unfold bsize at *
          omega
        have hsub : o % bsize - off % bsize = o - off := by
          unfold bsize at *
          omega
        obtain ⟨hs, hb⟩ := hrest.bytes o (Or.inl (by
          rw [hslot, hdiv]
          exact hne))
        refine ⟨hs, ?_⟩
        rw [hb, if_neg (by omega), hbyte o, if_pos ?_, hsub]
        · rw [List.getD_eq_getElem?_getD, List.getD_eq_getElem?_getD,
            List.getElem?_take_of_lt (by omega)]
        · refine ⟨hdiv, ?_, ?_⟩
          · unfold bsize at *
            omega
          · rw [hcut]
            unfold bsize at *
            omega
      · obtain ⟨hs, hb⟩ := hrest.bytes o (Or.inr (by omega))
        refine ⟨hs, ?_⟩
        rw [hb, if_pos (by omega), List.getD_eq_getElem?_getD,
          List.getD_eq_getElem?_getD, List.getElem?_drop,
          show m + (o - (off + m)) = o - off by omega]
    · rw [if_neg hin]
      have h0 := ho.resolve_right hin
      have hl := slotOf_lt (slotOf_lt_of_slot h0)
      have hkeep := hmap.spends.touch.keep _ hl h0
      have hold : y.byte o = x.byte o := by
        unfold Img.byte
        rw [hkeep, hmap.data _ hl (slotOf_ne _) h0]
      obtain ⟨hs, hb⟩ := hrest.bytes o (Or.inl (by
        rw [hslot, hkeep]
        exact h0))
      refine ⟨hs, ?_⟩
      rw [hb, if_neg (by omega), hbyte o, if_neg ?_, hold]
      rintro ⟨h1, h2, h3⟩
      rw [hcut] at h3
      unfold bsize at *
      omega
  · have hyx := hmap.same (hall off (Nat.le_refl _) (by omega))
    have hd : z.d = (y.write a (off % bsize) (src.take m)).d := by
      refine hrest.same fun o h1 h2 => ?_
      rw [hslot, hyx]
      exact hall o (by omega) (by omega)
    rw [hd, ← hyx]
    rfl

theorem writeiLoop_careful (n : Nat) {off : Nat} {src : List UInt8}
    (hx : IsFile s.sb tab i (s.img ip)) (hn : src.length ≤ n)
    (hmax : off + src.length ≤ maxFile * bsize) :
    Careful (writeiLoop ip n off src) s fun r t => r = off + src.length
      ∧ ∃ y, t = s.setImg ip y ∧ Laid s.sb tab i (s.img ip) off src y := by
  induction n generalizing s off src with
  | zero =>
    exact ret ⟨by omega, s.img ip, (setImg_img s ip).symm, Laid.nil hx (by omega)⟩
  | succ n ih =>
    unfold writeiLoop
    split
    next hlen =>
      exact ret ⟨by omega, s.img ip, (setImg_img s ip).symm, Laid.nil hx hlen⟩
    next hlen =>
      have hmod : off % bsize < bsize := Nat.mod_lt _ (by unfold bsize; omega)
      have hbn : off / bsize < maxFile := Nat.div_lt_of_lt_mul (by
        rw [Nat.mul_comm]
        omega)
      refine (bmap_careful hx hbn).seq ?_
      rintro a t ⟨y, rfl, hmap⟩
      generalize hm : min src.length (bsize - off % bsize) = m
      apply modify_bind
      have hy := hx.touch hmap.spends.touch
      have hne : y.slot (slotOf (off / bsize)) ≠ 0 := by
        rw [hmap.slot]
        exact hmap.ne_zero
      have hspend := hy.write_spends (slotOf_lt hbn) (slotOf_ne _) hne
        (off % bsize) (src.take m)
      rw [hmap.slot] at hspend
      -- the state after the block was written
      have hstate : ({ s.setImg ip y with
          disk := update y.disk a ((y.disk a).blit (off % bsize) (src.take m)) } : KFs)
            = s.setImg ip (y.write a (off % bsize) (src.take m)) := rfl
      show Careful _ { s.setImg ip y with
          disk := update y.disk a ((y.disk a).blit (off % bsize) (src.take m)) } _
      rw [hstate]
      have hdrop : (src.drop m).length = src.length - m := List.length_drop
      have hw : IsFile (s.setImg ip (y.write a (off % bsize) (src.take m))).sb tab i
          ((s.setImg ip (y.write a (off % bsize) (src.take m))).img ip) := by
        rw [img_setImg]
        exact hy.touch hspend.touch
      refine (ih hw (by omega) (by omega)).mono fun r t ht => ?_
      obtain ⟨hr, z, rfl, hz⟩ := ht
      rw [img_setImg] at hz
      refine ⟨by omega, z, setImg_setImg .., ?_⟩
      exact Laid.cons hx hmap hm.symm (by omega) hz

/-- The file `i` has become `z`, in memory and on the disk, and is the node
`n`; nothing else has changed. -/
structure Rewrites (sb : Superblock) (disk : Disk) (i : Nat) (z : Img) (n : Node) :
    Prop where
  account : Exact sb z.disk
  nodes : nodes sb z.disk = update (nodes sb disk) i (some n)
  flushed : dinode sb z.disk i = z.d
  others : ∀ j, j < sb.ninodes → j ≠ i → dinode sb z.disk j = dinode sb disk j
  super : z.disk 1 = disk 1
  type : z.d.type = (dinode sb disk i).type

theorem isFile_onDisk {sb : Superblock} {disk : Disk} (h : Exact sb disk)
    (hi : Allocated sb (dinode sb disk) i) :
    IsFile sb (dinode sb disk) i (onDisk sb disk i) := by
  refine ⟨h.layout, ?_, hi.1, hi.2⟩
  unfold onDisk
  rw [update_eq_self]
  exact h.owns

section

variable {sb : Superblock} {disk : Disk} {off : Nat} {src : List UInt8} {y z : Img}

/-- A write that leaves the inode on the disk as it is in memory. -/
theorem rewrites_of_touch (hdisk : Exact sb disk) (hi : Allocated sb (dinode sb disk) i)
    (hoff : off ≤ (dinode sb disk i).size)
    (htouch : Touch sb (dinode sb disk) i (onDisk sb disk i) z)
    (hbytes : (onDisk sb disk i).Overlays off src z)
    (hsize : z.d.size = max (dinode sb disk i).size (off + src.length))
    (hcov : Covered sb z.disk (update (dinode sb disk) i z.d) [])
    (hflush : dinode sb z.disk i = z.d) (hsuper : z.disk 1 = disk 1) :
    Rewrites sb disk i z ⟨(dinode sb disk i).type, (dinode sb disk i).nlink,
      overlay (onDisk sb disk i).content off src⟩ := by
  obtain ⟨hmap, hcont⟩ := Img.content_overlay (hdisk.mapped i hi) hoff hbytes hsize
  obtain ⟨haccount, hnodes⟩ := hdisk.write hi htouch hcov hmap hflush
  have htype : z.d.type = (dinode sb disk i).type := by
    rw [htouch.fields]
    rfl
  have hnlink : z.d.nlink = (dinode sb disk i).nlink := by
    rw [htouch.fields]
    rfl
  refine ⟨haccount, ?_, hflush, fun j hj hne => htouch.dinodes j hj hne, hsuper, htype⟩
  rw [hnodes]
  unfold nodeOf
  rw [htype, hnlink, ← hcont]

section

variable (h : Laid sb (dinode sb disk) i (onDisk sb disk i) off src y)
include h

theorem Laid.low (hdisk : Exact sb disk) (hi : i < sb.ninodes) :
    y.disk 1 = disk 1 ∧ dinode sb y.disk i = dinode sb disk i := by
  refine ⟨h.spends.low 1 hdisk.layout.super.1, ?_⟩
  unfold dinode
  rw [h.spends.low _ (hdisk.layout.inodeArea i hi)]
  rfl

section

variable (hdisk : Exact sb disk) (hi : Allocated sb (dinode sb disk) i)
include hdisk hi

theorem Laid.covered : Covered sb y.disk (update (dinode sb disk) i y.d) [] := by
  refine h.spends.covered (isFile_onDisk hdisk hi) ?_
  unfold onDisk
  rw [update_eq_self]
  exact hdisk.covered

/-- The range lay within the file: its inode is as it was. -/
theorem Laid.inside (hend : off + src.length ≤ (dinode sb disk i).size) :
    Rewrites sb disk i y ⟨(dinode sb disk i).type, (dinode sb disk i).nlink,
      overlay (onDisk sb disk i).content off src⟩ := by
  have hmapped := hdisk.mapped i hi
  have hsame : y.d = dinode sb disk i := h.same fun o _ ho => hmapped o (by
    show o < (dinode sb disk i).size
    omega)
  obtain ⟨hsuper, hlow⟩ := h.low hdisk hi.1
  refine rewrites_of_touch hdisk hi (by omega) h.spends.touch h.bytes ?_
    (h.covered hdisk hi) (hlow.trans hsame.symm) hsuper
  rw [hsame]
  omega

/-- The inode is written back with the size the range ends at. -/
theorem Laid.flushed (hmax : off + src.length ≤ maxFile * bsize)
    (hd : d = { y.d with size := off + src.length }) :
    Touch sb (dinode sb disk) i y ⟨putInode sb y.disk i d, d⟩ := by
  have hy := (isFile_onDisk hdisk hi).touch h.spends.touch
  have hsmall : maxFile * bsize < 4294967296 := by decide
  have hsize : d.size = off + src.length := by rw [hd]
  exact hy.putInode_touch (by rw [hd]) (by omega)

/-- The file has grown, and its inode is written back. -/
theorem Laid.beyond (hoff : off ≤ (dinode sb disk i).size)
    (hend : (dinode sb disk i).size < off + src.length)
    (hmax : off + src.length ≤ maxFile * bsize)
    (hd : d = { y.d with size := off + src.length }) :
    Rewrites sb disk i ⟨putInode sb y.disk i d, d⟩ ⟨(dinode sb disk i).type,
      (dinode sb disk i).nlink, overlay (onDisk sb disk i).content off src⟩ := by
  have hx := isFile_onDisk hdisk hi
  have hy := hx.touch h.spends.touch
  have hsize : d.size = off + src.length := by rw [hd]
  have haddrs : d.addrs = y.d.addrs := by rw [hd]
  have hput := h.flushed hdisk hi hmax hd
  have hok : d.Ok := hput.ok (h.spends.touch.ok (getDInode_ok ..))
  have hlow := (h.low hdisk hi.1).1
  have hne := hdisk.layout.super.2 i
  refine rewrites_of_touch hdisk hi hoff (h.spends.touch.trans hx hput) (fun o ho => ?_)
    (by dsimp only; omega) ?_ (dinode_putInode hok) ((putInode_of_ne hne).trans hlow)
  · obtain ⟨h1, h2⟩ := hy.byte_putInode haddrs o
    rw [h1, h2]
    exact h.bytes o ho
  · intro b hb hu
    rw [hdisk.layout.used_putInode hi.1] at hu
    rcases h.covered hdisk hi b hb hu with hmeta | ⟨j, k, hh⟩ | hin
    · exact Or.inl hmeta
    · exact Or.inr (Or.inl ⟨j, k, hput.still_holds hy hh⟩)
    · exact Or.inr (Or.inr hin)

end

end

end

/-- `writei` refuses the range, or lays the bytes over those of the file. -/
theorem writei_careful (hdisk : Exact s.sb s.disk)
    (hi : Allocated s.sb (dinode s.sb s.disk) i) (hinum : (s.inodes ip).inum = i)
    (hd : (s.inodes ip).d = dinode s.sb s.disk i) (src : List UInt8) (off : Nat) :
    Careful (writei ip src off) s fun r t => (r = -1 ∧ t = s)
      ∨ (r = src.length ∧ off ≤ (dinode s.sb s.disk i).size
        ∧ ∃ z, t = s.setImg ip z ∧ Rewrites s.sb s.disk i z
          ⟨(dinode s.sb s.disk i).type, (dinode s.sb s.disk i).nlink,
            overlay (onDisk s.sb s.disk i).content off src⟩) := by
  have himg : s.img ip = onDisk s.sb s.disk i := by
    unfold KFs.img onDisk
    rw [hd]
  apply get_bind
  dsimp only
  split
  next => exact ret (Or.inl ⟨rfl, rfl⟩)
  next hrange =>
    split
    next => exact ret (Or.inl ⟨rfl, rfl⟩)
    next hmax =>
      rw [hd] at hrange
      have hx : IsFile s.sb (dinode s.sb s.disk) i (s.img ip) := by
        rw [himg]
        exact isFile_onDisk hdisk hi
      refine (writeiLoop_careful _ hx (Nat.le_refl _) (by omega)).seq ?_
      rintro off' t ⟨rfl, y, rfl, hlaid⟩
      rw [himg] at hlaid
      have hysize : y.d.size = (dinode s.sb s.disk i).size := hlaid.spends.size
      apply get_bind
      rw [setImg_inode]
      dsimp only
      split
      next hgrow =>
        apply Meets.bind
        apply setD_careful
        apply Meets.bind
        apply iupdate_careful hinum
        apply ret
        exact Or.inr ⟨rfl, by omega, _, rfl, hlaid.beyond hdisk hi (by omega) (by omega)
          (by omega) rfl⟩
      next hgrow =>
        apply ret
        refine Or.inr ⟨rfl, by omega, y, rfl, ?_⟩
        exact hlaid.inside hdisk hi (by omega)

end Xv6FsServer.Kfs
