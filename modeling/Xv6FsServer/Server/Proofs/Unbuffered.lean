/-
The server's file functions compute what their counterparts without a
cache do.

One lemma for each function, all of one form: started with the buffers in
order, it ends with the buffers in order, returns what the function on
the disk and the inode returns, and leaves the core with that function's
disk and inode. Nothing above this file looks at a buffer again, except
where the code holds one across a call.
-/
import Xv6FsServer.Server.Proofs.Buffer
import Xv6FsServer.Fs.File

namespace Xv6FsServer.Server

open Lib Fs Function Meets Server.Core

variable {s t : Srv} {H : List (Nat × Nat)} {ip : Nat}

-- ==== the core

def Core.img (c : Core) (ip : Nat) : Img := ⟨c.disk, (c.inodes ip).d⟩

def Core.setImg (c : Core) (ip : Nat) (x : Img) : Core :=
  { c with
    disk := x.disk
    inodes := update c.inodes ip { c.inodes ip with d := x.d } }

def Core.setDisk (c : Core) (disk : Disk) : Core := { c with disk := disk }

@[simp] theorem Core.img_setImg (c : Core) (ip : Nat) (x : Img) :
    (c.setImg ip x).img ip = x := by
  unfold img setImg
  dsimp only
  rw [update_self]

@[simp] theorem Core.setImg_img (c : Core) (ip : Nat) :
    c.setImg ip (c.img ip) = c := by
  show mk _ (update c.inodes ip (c.inodes ip)) _ _ _ = c
  rw [update_eq_self]
  rfl

@[simp] theorem Core.setImg_setImg (c : Core) (ip : Nat) (x y : Img) :
    (c.setImg ip x).setImg ip y = c.setImg ip y := by
  unfold setImg
  dsimp only
  rw [update_self, update_idem]

/-- Changing the disk alone. -/
theorem Core.setDisk_eq (c : Core) (ip : Nat) (disk : Disk) :
    c.setDisk disk = c.setImg ip ⟨disk, (c.img ip).d⟩ := by
  show _ = mk _ (update c.inodes ip (c.inodes ip)) _ _ _
  rw [update_eq_self]
  rfl

theorem core_setInode (s : Srv) (ip : Nat) (f : UInode → UInode) :
    (s.setInode ip f).core
      = { s.core with inodes := update s.inodes ip (f (s.inodes ip)) } := rfl

theorem BufOk.setInode (h : BufOk s H) (ip : Nat) (f : UInode → UInode) :
    BufOk (s.setInode ip f) H := ⟨h.io, h.uniq, h.coherent, h.refs, h.held⟩

/-- A server with these buffers and another core, as long as the disk is
the same. -/
theorem BufOk.congr (h : BufOk s H) (hb : t.bufs = s.bufs) (hd : t.disk = s.disk)
    (hio : t.diskOk = s.diskOk) : BufOk t H := by
  refine ⟨?_, ?_, ?_, ?_, ?_⟩
  · rw [hio]
    exact h.io
  · rw [hb]
    exact h.uniq
  · rw [hb, hd]
    exact h.coherent
  · rw [hb]
    exact h.refs
  · rw [hb]
    exact h.held

-- ==== balloc

/-- The scan for a free block, resumed at block `b`. -/
def freeFrom (sb : Superblock) (disk : Disk) (b : Nat) : Option Nat :=
  first (fun k => !used sb disk k) b (sb.size - b)

theorem used_offset (sb : Superblock) (disk : Disk) {b bi : Nat}
    (hb : b % bpb = 0) (hbi : bi < bpb) :
    used sb disk (b + bi) = bit (disk (bblock b sb)) bi := by
  have h1 : (b + bi) / bpb = b / bpb := by
    unfold bpb at *
    omega
  have h2 : (b + bi) % bpb = bi := by
    unfold bpb at *
    omega
  unfold used bblock
  rw [h1, h2]

/-- One bitmap block of the scan. -/
theorem freeFrom_block (sb : Superblock) (disk : Disk) {b : Nat} (hb : b % bpb = 0) :
    freeFrom sb disk b
      = ((first (fun bi => !bit (disk (bblock b sb)) bi) 0
          (min bpb (sb.size - b))).map (b + ·)).or (freeFrom sb disk (b + bpb)) := by
  have hblock : first (fun k => !used sb disk k) b (min bpb (sb.size - b))
      = (first (fun bi => !bit (disk (bblock b sb)) bi) 0
          (min bpb (sb.size - b))).map (b + ·) := by
    have hshift := first_shift (p := fun k => !used sb disk k) b 0
      (min bpb (sb.size - b))
    rw [Nat.add_zero] at hshift
    rw [hshift]
    congr 1
    refine first_congr fun k _ hk => ?_
    rw [used_offset sb disk hb (by omega)]
  unfold freeFrom
  rw [← hblock]
  by_cases hle : sb.size - b ≤ bpb
  · rw [Nat.min_eq_right hle, show sb.size - (b + bpb) = 0 by omega]
    show _ = Option.or _ none
    rw [Option.or_none]
  · rw [Nat.min_eq_left (by omega), ← first_add,
      show bpb + (sb.size - (b + bpb)) = sb.size - b by omega]

section

variable (h : BufOk s H)
include h

theorem ballocLoop_spec (hlen : H.length < nbuf) (n : Nat)
    {b : Nat} (hb : b % bpb = 0) (hn : s.sb.size ≤ b + n * bpb) :
    Ends (ballocLoop n b) s fun r t => BufOk t H
      ∧ match freeFrom s.sb s.disk b with
        | some a => r = a ∧ t.core = s.core.setDisk (markUsed s.sb s.disk a)
        | none => r = 0 ∧ t.core = s.core := by
  induction n generalizing b s with
  | zero =>
    have hnone : freeFrom s.sb s.disk b = none := by
      unfold freeFrom
      rw [show s.sb.size - b = 0 by omega]
      rfl
    unfold ballocLoop
    apply ret
    rw [hnone]
    exact ⟨h, rfl, rfl⟩
  | succ n ih =>
    rw [freeFrom_block s.sb s.disk hb]
    unfold ballocLoop
    apply get_bind
    apply Meets.bind
    apply (ubread_spec h hlen _).mono
    rintro r t ⟨i, rfl, ht, hcore⟩
    have hdisk : t.disk = s.disk := congrArg disk hcore
    have hdata : (t.bufs i).data = s.disk (bblock b s.sb) := by
      rw [ht.data (List.mem_cons_self ..), hdisk]
    apply get_bind
    rw [hdata]
    cases hfirst : first (fun bi => !bit (s.disk (bblock b s.sb)) bi) 0
        (min bpb (s.sb.size - b)) with
    | some bi =>
      obtain ⟨-, hbi, -, -⟩ := first_some hfirst
      have hmark : markUsed s.sb s.disk (b + bi) = update s.disk
          (bblock b s.sb) (setBit (s.disk (bblock b s.sb)) bi) := by
        have h1 : (b + bi) / bpb = b / bpb := by
          unfold bpb at *
          omega
        have h2 : (b + bi) % bpb = bi := by
          unfold bpb at *
          omega
        unfold markUsed bblock
        rw [h1, h2]
      apply modify_bind
      apply Meets.bind
      apply (ubwrite_spec ht (List.mem_cons_self ..) fun d => setBit d bi).mono
      rintro _ u ⟨hu, hucore⟩
      apply Meets.bind
      apply (ubrelse_spec hu).mono
      rintro _ v ⟨hv, hvcore⟩
      apply ret
      refine ⟨hv, rfl, ?_⟩
      show v.core = s.core.setDisk (markUsed s.sb s.disk (b + bi))
      rw [hvcore, hucore, hdisk, hmark, hcore]
      rfl
    | none =>
      apply Meets.bind
      apply (ubrelse_spec ht).mono
      rintro _ u ⟨hu, hucore⟩
      have husb : u.sb = s.sb := congrArg sb (hucore.trans hcore)
      have hudisk : u.disk = s.disk := congrArg disk (hucore.trans hcore)
      have hnext := ih hu (b := b + bpb)
        (by unfold bpb at *; omega) (by rw [husb]; unfold bpb at *; omega)
      rw [husb, hudisk, hucore, hcore] at hnext
      rw [Option.map_none, Option.none_or]
      exact hnext

theorem balloc_spec (hlen : H.length < nbuf) :
    Ends balloc s fun r t => BufOk t H ∧ r = (Fs.balloc s.sb s.disk).1
      ∧ t.core = s.core.setDisk (Fs.balloc s.sb s.disk).2 := by
  unfold balloc
  apply get_bind
  apply (ballocLoop_spec h hlen _ (b := 0) rfl ?_).mono
  · rintro r t ⟨ht, hr⟩
    refine ⟨ht, ?_⟩
    have hfree : freeFrom s.sb s.disk 0 = lowestFree s.sb s.disk := rfl
    rw [hfree] at hr
    unfold Fs.balloc
    cases hl : lowestFree s.sb s.disk with
    | some a =>
      rw [hl] at hr
      exact hr
    | none =>
      rw [hl] at hr
      exact ⟨hr.1, hr.2⟩
  · unfold bpb
    omega

end

-- ==== bmap

/-- What the function on the disk and the inode computes has been computed
in `ip`. -/
structure Computed {α : Type} (s : Srv) (H : List (Nat × Nat)) (ip : Nat) (y : α × Img)
    (r : α) (t : Srv) : Prop where
  buf : BufOk t H
  result : r = y.1
  core : t.core = s.core.setImg ip y.2

/-- First in `ip`, and then in `ip` again. -/
theorem Computed.after {α : Type} {x : Img} {y : α × Img} {r : α} {u : Srv}
    (h : Computed t H ip y r u) (ht : t.core = s.core.setImg ip x) :
    Computed s H ip y r u :=
  ⟨h.buf, h.result, by rw [h.core, ht, setImg_setImg]⟩

section

variable (h : BufOk s H)
include h

theorem Computed.still {α : Type} (r : α) : Computed s H ip (r, s.core.img ip) r s :=
  ⟨h, rfl, (setImg_img ..).symm⟩

theorem bmapAddr_spec (hlen : H.length < nbuf) {k : Nat} (hk : k ≤ ndirect) :
    Ends (bmapAddr ip k) s (Computed s H ip ((s.core.img ip).ensure s.sb k)) := by
  have hslot : (s.core.img ip).slot k = (s.inodes ip).d.addrs k :=
    Img.slot_direct _ hk
  have hdisk : (s.core.img ip).disk = s.disk := rfl
  unfold bmapAddr
  apply get_bind
  split
  next h0 =>
    rw [← hslot] at h0
    apply Meets.bind
    apply (balloc_spec h hlen).mono
    rintro r t ⟨ht, rfl, hcore⟩
    split
    next hfull =>
      apply ret
      rw [Img.ensure_full h0 hfull]
      exact ⟨ht, rfl, hcore.trans (setDisk_eq ..)⟩
    next hsome =>
      have hinode : t.inodes = s.inodes := congrArg inodes hcore
      apply modify_bind
      apply ret
      rw [Img.ensure_fresh h0 hsome, Img.assign_direct _ hk]
      refine ⟨ht.setInode _ _, rfl, ?_⟩
      rw [core_setInode, hcore, hinode]
      rfl
  next hne =>
    rw [← hslot] at hne ⊢
    rw [Img.ensure_held hne]
    exact ret (.still h _)

theorem bmapEntry_spec (hlen : H.length + 1 < nbuf) {bn : Nat}
    (hbn : ndirect ≤ bn) (hind : (s.core.img ip).d.addrs ndirect ≠ 0) :
    Ends (bmapEntry ((s.core.img ip).d.addrs ndirect) (bn - ndirect)) s
      (Computed s H ip ((s.core.img ip).ensure s.sb (slotOf bn))) := by
  have hslot := Img.slot_entry (s.core.img ip) hbn hind
  generalize ha : (s.core.img ip).d.addrs ndirect = a at hind hslot ⊢
  unfold bmapEntry
  apply Meets.bind
  apply (ubread_spec h (by omega) _).mono
  rintro r u ⟨i, rfl, hu, hucore⟩
  have hudisk : u.disk = s.disk := congrArg disk hucore
  have husb : u.sb = s.sb := congrArg sb hucore
  have hudata : (u.bufs i).data.le32 (4 * (bn - ndirect))
      = (s.core.img ip).slot (slotOf bn) := by
    rw [hu.data (List.mem_cons_self ..), hudisk, hslot]
    rfl
  apply get_bind
  rw [hudata]
  split
  next h0 =>
    apply Meets.bind
    apply (balloc_spec hu (by rw [List.length_cons]; omega)).mono
    rintro r v ⟨hv, rfl, hvcore⟩
    rw [hudisk, husb] at hvcore ⊢
    split
    next hfull =>
      apply Meets.bind
      apply (ubrelse_spec hv).mono
      rintro _ w ⟨hw, hwcore⟩
      apply ret
      rw [Img.ensure_full h0 hfull]
      refine ⟨hw, rfl, ?_⟩
      rw [hwcore, hvcore, hucore]
      exact setDisk_eq ..
    next hsome =>
      have hvdisk : v.disk = (Fs.balloc s.sb s.disk).2 :=
        congrArg disk hvcore
      apply modify_bind
      apply Meets.bind
      apply (ubwrite_spec hv (List.mem_cons_self ..) fun d =>
        d.put32 (4 * (bn - ndirect)) (Fs.balloc s.sb s.disk).1).mono
      rintro _ w ⟨hw, hwcore⟩
      apply Meets.bind
      apply (ubrelse_spec hw).mono
      rintro _ z ⟨hz, hzcore⟩
      apply ret
      rw [Img.ensure_fresh h0 hsome,
        Img.assign_entry _ (by rw [slotOf_entry hbn]; omega)]
      refine ⟨hz, rfl, ?_⟩
      rw [hzcore, hwcore, hvdisk]
      show v.core.setDisk _ = _
      rw [hvcore, hucore, setDisk_eq _ ip, setDisk_eq _ ip,
        setImg_setImg, img_setImg, slotOf_entry hbn,
        show bn + 1 - (ndirect + 1) = bn - ndirect by omega]
      show s.core.setImg ip ⟨update _ a _, _⟩
        = s.core.setImg ip ⟨update _ ((s.core.img ip).d.addrs ndirect) _, _⟩
      rw [ha]
      rfl
  next hne =>
    apply Meets.bind
    apply (ubrelse_spec hu).mono
    rintro _ v ⟨hv, hvcore⟩
    apply ret
    rw [Img.ensure_held hne]
    refine ⟨hv, rfl, ?_⟩
    rw [hvcore, hucore, setImg_img]

theorem bmap_spec (hlen : H.length + 1 < nbuf) (bn : Nat) :
    Ends (bmap ip bn) s (Computed s H ip ((s.core.img ip).bmap s.sb bn)) := by
  unfold bmap Img.bmap
  split
  next hdirect => exact bmapAddr_spec h (by omega) (by omega)
  next hdirect =>
    split
    next hbn =>
      apply Meets.bind
      apply (bmapAddr_spec h (by omega) (Nat.le_refl ndirect)).mono
      rintro r t ⟨ht, rfl, hcore⟩
      have hind : ((s.core.img ip).ensure s.sb ndirect).1 ≠ 0 → _ :=
        Img.addrs_ensure (Nat.le_refl ndirect)
      have htsb : t.sb = s.sb := congrArg sb hcore
      generalize (s.core.img ip).ensure s.sb ndirect = y at hcore hind ⊢
      have htimg : t.core.img ip = y.2 := by rw [hcore, img_setImg]
      dsimp only
      split
      next h0 =>
        apply ret
        exact ⟨ht, h0.symm, hcore⟩
      next hne =>
        rw [← htimg] at hind
        have hy : y.1 = (t.core.img ip).d.addrs ndirect := (hind hne).symm
        rw [hy]
        apply (bmapEntry_spec ht hlen (by omega) (hy ▸ hne)).mono
        rw [htsb, htimg]
        exact fun r u hu => hu.after hcore
    next hbig => exact ret (.still h _)

-- ==== ranges

theorem uwriteiLoop_spec (hlen : H.length + 1 < nbuf) (k off : Nat) (src : List UInt8) :
    Ends (uwriteiLoop ip k off src) s
      (Computed s H ip ((s.core.img ip).writeLoop s.sb k off src)) := by
  induction k generalizing s off src with
  | zero => exact ret (.still h _)
  | succ k ih =>
    unfold uwriteiLoop Img.writeLoop
    split
    next hend => exact ret (.still h _)
    next hmore =>
      apply Meets.bind
      apply (bmap_spec h hlen _).mono
      rintro r t ⟨ht, rfl, hcore⟩
      generalize (s.core.img ip).bmap s.sb (off / bsize) = y at hcore ⊢
      dsimp only
      split
      next h0 =>
        apply ret
        exact ⟨ht, rfl, hcore⟩
      next hne =>
        apply Meets.bind
        apply (ubread_spec ht (by omega) _).mono
        rintro r u ⟨i, rfl, hu, hucore⟩
        apply modify_bind
        apply Meets.bind
        apply (ubwrite_spec hu (List.mem_cons_self ..) fun d => d.blit
          (off % bsize) (src.take (min src.length (bsize - off % bsize)))).mono
        rintro _ v ⟨hv, hvcore⟩
        apply Meets.bind
        apply (ubrelse_spec hv).mono
        rintro _ w ⟨hw, hwcore⟩
        have hudisk : u.disk = y.2.disk :=
          congrArg disk (hucore.trans hcore)
        have hcore' : w.core = s.core.setImg ip (y.2.write y.1 (off % bsize)
            (src.take (min src.length (bsize - off % bsize)))) := by
          rw [hwcore, hvcore, hudisk]
          show u.core.setDisk _ = _
          rw [hucore, hcore, setDisk_eq _ ip, setImg_setImg,
            img_setImg]
          rfl
        have hwsb : w.sb = s.sb := congrArg sb hcore'
        have hnext := ih hw (off + min src.length (bsize - off % bsize))
          (src.drop (min src.length (bsize - off % bsize)))
        rw [hwsb, hcore', img_setImg] at hnext
        exact hnext.mono fun r z hz => hz.after hcore'

theorem ureadiLoop_spec (hlen : H.length + 1 < nbuf) (k off n : Nat) :
    Ends (ureadiLoop ip k off n) s
      (Computed s H ip ((s.core.img ip).readLoop s.sb k off n)) := by
  induction k generalizing s off n with
  | zero => exact ret (.still h _)
  | succ k ih =>
    unfold ureadiLoop Img.readLoop
    split
    next hend => exact ret (.still h _)
    next hmore =>
      apply Meets.bind
      apply (bmap_spec h hlen _).mono
      rintro r t ⟨ht, rfl, hcore⟩
      generalize (s.core.img ip).bmap s.sb (off / bsize) = y at hcore ⊢
      dsimp only
      split
      next h0 =>
        apply ret
        exact ⟨ht, rfl, hcore⟩
      next hne =>
        apply Meets.bind
        apply (ubread_spec ht (by omega) _).mono
        rintro r u ⟨i, rfl, hu, hucore⟩
        have hudata : (u.bufs i).data = y.2.disk y.1 := by
          have hudisk : u.disk = y.2.disk :=
            congrArg disk (hucore.trans hcore)
          rw [hu.data (List.mem_cons_self ..), hudisk]
        apply get_bind
        rw [hudata]
        apply Meets.bind
        apply (ubrelse_spec hu).mono
        rintro _ v ⟨hv, hvcore⟩
        have hcore' : v.core = s.core.setImg ip y.2 := by
          rw [hvcore, hucore, hcore]
        have hvsb : v.sb = s.sb := congrArg sb hcore'
        have hnext := ih hv (off + min n (bsize - off % bsize))
          (n - min n (bsize - off % bsize))
        rw [hvsb, hcore', img_setImg] at hnext
        apply Meets.bind
        apply hnext.mono
        intro r z hz
        obtain ⟨hzbuf, rfl, hzcore⟩ := hz.after hcore'
        generalize y.2.readLoop s.sb k (off + min n (bsize - off % bsize))
          (n - min n (bsize - off % bsize)) = q at hzcore ⊢
        obtain ⟨q1, q2⟩ := q
        cases q1 with
        | none =>
          apply ret
          exact ⟨hzbuf, rfl, hzcore⟩
        | some rest =>
          apply ret
          exact ⟨hzbuf, rfl, hzcore⟩

/-- `uiupdate` writes the inode to its place. -/
theorem uiupdate_spec (hlen : H.length < nbuf) (hdev : (s.inodes ip).dev = rootDev) :
    Ends (uiupdate ip) s fun _ t => BufOk t H
      ∧ t.core = s.core.setDisk
          (putInode s.sb s.disk (s.inodes ip).inum (s.inodes ip).d) := by
  unfold uiupdate
  apply get_bind
  rw [hdev]
  apply Meets.bind
  apply (ubread_spec h hlen _).mono
  rintro r t ⟨i, rfl, ht, hcore⟩
  apply modify_bind
  apply Meets.bind
  apply (ubwrite_spec ht (List.mem_cons_self ..) fun d =>
    putDInode d ((s.inodes ip).inum % ipb) (s.inodes ip).d).mono
  rintro _ u ⟨hu, hucore⟩
  apply (ubrelse_spec hu).mono
  rintro _ v ⟨hv, hvcore⟩
  refine ⟨hv, ?_⟩
  have hdisk : t.disk = s.disk := congrArg disk hcore
  rw [hvcore, hucore, hdisk, hcore]
  rfl

theorem uwritei_spec (hlen : H.length + 1 < nbuf)
    (hdev : (s.inodes ip).dev = rootDev) (src : List UInt8) (off : Nat) :
    Ends (uwritei ip src off) s (Computed s H ip
      ((s.core.img ip).uwritei s.sb (s.inodes ip).inum src off)) := by
  unfold uwritei Img.uwritei
  dsimp only
  split
  next hwrap => exact ret (.still h _)
  next hwrap =>
    apply Meets.bind
    apply (uwriteiLoop_spec h hlen _ _ _).mono
    rintro r t ⟨ht, rfl, hcore⟩
    generalize (s.core.img ip).writeLoop s.sb src.length off src = y at hcore ⊢
    obtain ⟨y1, y⟩ := y
    cases y1 with
    | none =>
      apply ret
      exact ⟨ht, rfl, hcore⟩
    | some off' =>
      have hinode : t.inodes ip = { s.inodes ip with d := y.d } := by
        have hi : t.inodes = _ := congrArg inodes hcore
        rw [hi]
        exact update_self ..
      apply get_bind
      rw [hinode]
      dsimp only
      split
      next hgrow =>
        apply modify_bind
        apply Meets.bind
        have hv : (t.setInode ip fun i =>
            { i with d := { i.d with size := off' } }).core
            = s.core.setImg ip ⟨y.disk, { y.d with size := off' }⟩ := by
          have htdisk : t.disk = y.disk := congrArg disk hcore
          show t.core.setImg ip
            ⟨t.disk, { (t.inodes ip).d with size := off' }⟩ = _
          rw [hcore, setImg_setImg, htdisk, hinode]
        have hvb := ht.setInode ip fun i =>
          { i with d := { i.d with size := off' } }
        generalize (t.setInode ip fun i =>
          { i with d := { i.d with size := off' } }) = v at hv hvb ⊢
        have hvi : v.inodes ip
            = { s.inodes ip with d := { y.d with size := off' } } := by
          have hi : v.inodes = _ := congrArg inodes hv
          rw [hi]
          exact update_self ..
        have hvsb : v.sb = s.sb := congrArg sb hv
        have hvdisk : v.disk = y.disk := congrArg disk hv
        apply (uiupdate_spec hvb (by omega) (by rw [hvi]; exact hdev)).mono
        rintro _ u ⟨hu, hucore⟩
        apply ret
        refine ⟨hu, rfl, ?_⟩
        rw [hucore, hvi, hvsb, hvdisk, hv, setDisk_eq _ ip,
          setImg_setImg, img_setImg]
      next hsame =>
        apply ret
        exact ⟨ht, rfl, hcore⟩

theorem ureadi_spec (hlen : H.length + 1 < nbuf) (off n : Nat) :
    Ends (ureadi ip off n) s (Computed s H ip ((s.core.img ip).ureadi s.sb off n)) := by
  unfold ureadi Img.ureadi
  apply get_bind
  dsimp only
  split
  next hend =>
    rw [if_pos (show (s.core.img ip).d.size ≤ off from hend)]
    exact ret (.still h _)
  next hmore =>
    rw [if_neg (show ¬ (s.core.img ip).d.size ≤ off from hmore)]
    exact ureadiLoop_spec h hlen _ _ _

end

end Xv6FsServer.Server
