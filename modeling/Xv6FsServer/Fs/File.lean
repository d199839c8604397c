/-
Files on the disk, without a cache: what `balloc`, `bmap`, `uwritei` and
`ureadi` compute from the disk and one inode.

An `Img` is the disk together with an inode as the server holds it in
memory (it may be ahead of its copy on the disk). The block numbers an
inode holds are numbered as slots: 0 to 11 the direct ones, 12 the
indirect block, 13 to 140 the entries of the indirect block. `bmap` then
is two uses of one operation: find a slot filled, or fill it with a free
block (`Img.ensure`).
-/
import Xv6FsServer.Fs.Layout
import Xv6FsServer.Lib.Search
import Mathlib.Logic.Function.Basic

namespace Xv6FsServer.Fs

open Lib Function

variable {k : Nat} {sb : Superblock}
variable {x : Img} {bn : Nat}

/-- The number of slots of an inode. -/
def nslots : Nat := ndirect + 1 + nindirect

-- ==== bitmap

def used (sb : Superblock) (disk : Disk) (b : Nat) : Bool :=
  bit (disk (bblock b sb)) (b % bpb)

def markUsed (sb : Superblock) (disk : Disk) (b : Nat) : Disk :=
  update disk (bblock b sb) (setBit (disk (bblock b sb)) (b % bpb))

def lowestFree (sb : Superblock) (disk : Disk) : Option Nat :=
  first (fun b => !used sb disk b) 0 sb.size

/-- The block `balloc` returns, and the disk after it. -/
def balloc (sb : Superblock) (disk : Disk) : Nat × Disk :=
  match lowestFree sb disk with
  | some b => (b, markUsed sb disk b)
  | none => (0, disk)

-- ==== slots

/-- The disk and an inode. -/
structure Img where
  disk : Disk
  d : DInode

def DInode.setAddr (d : DInode) (k b : Nat) : DInode :=
  { d with addrs := update d.addrs k b }

@[simp] theorem DInode.addrs_setAddr_self (d : DInode) (k b : Nat) :
    (d.setAddr k b).addrs k = b := by
  unfold setAddr
  exact update_self ..

theorem DInode.addrs_setAddr_of_ne (d : DInode) {l : Nat} (h : l ≠ k) (b : Nat) :
    (d.setAddr k b).addrs l = d.addrs l := by
  unfold setAddr
  exact update_of_ne h ..

theorem DInode.Ok.setAddr {d : DInode} {b : Nat} (h : d.Ok) (hk : k ≤ ndirect)
    (hb : b < 4294967296) : (d.setAddr k b).Ok := by
  refine ⟨h.type, h.major, h.minor, h.nlink, h.size, ?_, ?_⟩
  · intro j
    by_cases hj : j = k
    · rw [hj, d.addrs_setAddr_self]
      exact hb
    · rw [d.addrs_setAddr_of_ne hj]
      exact h.addrs j
  · intro j hj
    rw [d.addrs_setAddr_of_ne (by omega)]
    exact h.past j hj

/-- The block number in slot `k`; 0 if there is none. -/
def Img.slot (x : Img) (k : Nat) : Nat :=
  if k ≤ ndirect then x.d.addrs k
  else if x.d.addrs ndirect = 0 then 0
  else (x.disk (x.d.addrs ndirect)).le32 (4 * (k - (ndirect + 1)))

/-- Put a block number into slot `k`. -/
def Img.assign (x : Img) (k b : Nat) : Img :=
  if k ≤ ndirect then { x with d := x.d.setAddr k b }
  else
    { x with
      disk := update x.disk (x.d.addrs ndirect)
        ((x.disk (x.d.addrs ndirect)).put32 (4 * (k - (ndirect + 1))) b) }

/-- The block in slot `k`, allocated if there is none; 0 if that fails. -/
def Img.ensure (sb : Superblock) (x : Img) (k : Nat) : Nat × Img :=
  if x.slot k = 0 then
    let y : Img := { x with disk := (balloc sb x.disk).2 }
    if (balloc sb x.disk).1 = 0 then (0, y)
    else ((balloc sb x.disk).1, y.assign k (balloc sb x.disk).1)
  else (x.slot k, x)

theorem Img.slot_direct (x : Img) (hk : k ≤ ndirect) :
    x.slot k = x.d.addrs k := if_pos hk

theorem Img.assign_direct (x : Img) (hk : k ≤ ndirect) (b : Nat) :
    x.assign k b = ⟨x.disk, x.d.setAddr k b⟩ := if_pos hk

theorem Img.assign_entry (x : Img) (hk : ndirect < k) (b : Nat) :
    x.assign k b = ⟨update x.disk (x.d.addrs ndirect)
      ((x.disk (x.d.addrs ndirect)).put32 (4 * (k - (ndirect + 1))) b), x.d⟩ :=
  if_neg (by omega)

theorem Img.ensure_held (h : x.slot k ≠ 0) :
    x.ensure sb k = (x.slot k, x) := if_neg h

theorem Img.ensure_full (h : x.slot k = 0) (hb : (balloc sb x.disk).1 = 0) :
    x.ensure sb k = (0, ⟨(balloc sb x.disk).2, x.d⟩) := by
  unfold ensure
  rw [if_pos h]
  exact if_pos hb

theorem Img.ensure_fresh (h : x.slot k = 0) (hb : (balloc sb x.disk).1 ≠ 0) :
    x.ensure sb k = ((balloc sb x.disk).1,
      (Img.mk (balloc sb x.disk).2 x.d).assign k (balloc sb x.disk).1) := by
  unfold ensure
  rw [if_pos h]
  exact if_neg hb

/-- A direct slot that was ensured holds the block returned. -/
theorem Img.addrs_ensure (hk : k ≤ ndirect) (h : (x.ensure sb k).1 ≠ 0) :
    (x.ensure sb k).2.d.addrs k = (x.ensure sb k).1 := by
  by_cases hs : x.slot k = 0
  · by_cases hb : (balloc sb x.disk).1 = 0
    · rw [ensure_full hs hb] at h
      exact absurd rfl h
    · rw [ensure_fresh hs hb, assign_direct _ hk]
      exact update_self ..
  · rw [ensure_held hs]
    exact (slot_direct x hk).symm

/-- The slot of data block `bn`. -/
def slotOf (bn : Nat) : Nat := if bn < ndirect then bn else bn + 1

theorem slotOf_direct (h : bn < ndirect) : slotOf bn = bn := if_pos h

theorem slotOf_entry (h : ndirect ≤ bn) : slotOf bn = bn + 1 :=
  if_neg (by omega)

theorem Img.slot_entry (x : Img) (hbn : ndirect ≤ bn) (hind : x.d.addrs ndirect ≠ 0) :
    x.slot (slotOf bn)
      = (x.disk (x.d.addrs ndirect)).le32 (4 * (bn - ndirect)) := by
  unfold slot
  rw [slotOf_entry hbn, if_neg (by omega), if_neg hind,
    show bn + 1 - (ndirect + 1) = bn - ndirect by omega]

def Img.bmap (sb : Superblock) (x : Img) (bn : Nat) : Nat × Img :=
  if bn < ndirect then x.ensure sb bn
  else if bn - ndirect < nindirect then
    let y := x.ensure sb ndirect
    if y.1 = 0 then y else y.2.ensure sb (slotOf bn)
  else (0, x)

-- ==== ranges

/-- Overwrite part of a block. -/
def Img.write (x : Img) (addr off : Nat) (bytes : List UInt8) : Img :=
  { x with disk := update x.disk addr ((x.disk addr).blit off bytes) }

def Img.writeLoop (sb : Superblock) :
    Nat → Nat → List UInt8 → Img → Option Nat × Img
  | 0, off, _, x => (some off, x)
  | k + 1, off, src, x =>
    if src.length = 0 then (some off, x)
    else
      let y := x.bmap sb (off / bsize)
      if y.1 = 0 then (none, y.2)
      else
        let m := min src.length (bsize - off % bsize)
        writeLoop sb k (off + m) (src.drop m)
          (y.2.write y.1 (off % bsize) (src.take m))

def Img.readLoop (sb : Superblock) :
    Nat → Nat → Nat → Img → Option (List UInt8) × Img
  | 0, _, _, x => (some [], x)
  | k + 1, off, n, x =>
    if n = 0 then (some [], x)
    else
      let y := x.bmap sb (off / bsize)
      if y.1 = 0 then (none, y.2)
      else
        let m := min n (bsize - off % bsize)
        let z := readLoop sb k (off + m) (n - m) y.2
        (z.1.map fun rest => (y.2.disk y.1).slice (off % bsize) m ++ rest, z.2)

/-- Write an inode to its place on the disk. -/
def putInode (sb : Superblock) (disk : Disk) (inum : Nat) (d : DInode) : Disk :=
  update disk (iblock inum sb)
    (putDInode (disk (iblock inum sb)) (inum % ipb) d)

/-- An inode on the disk. -/
def dinode (sb : Superblock) (disk : Disk) (inum : Nat) : DInode :=
  getDInode (disk (iblock inum sb)) (inum % ipb)

/-- Write `src` at `off` of the file with number `inum`. -/
def Img.uwritei (sb : Superblock) (inum : Nat) (x : Img) (src : List UInt8)
    (off : Nat) : Int × Img :=
  if (off + src.length) % 4294967296 < off then (-1, x)
  else
    let y := x.writeLoop sb src.length off src
    match y.1 with
    | none => (-1, y.2)
    | some off' =>
      if 0 < src.length ∧ y.2.d.size < off' then
        let d := { y.2.d with size := off' }
        (src.length, ⟨putInode sb y.2.disk inum d, d⟩)
      else (src.length, y.2)

def Img.ureadi (sb : Superblock) (x : Img) (off n : Nat) :
    Option (List UInt8) × Img :=
  if x.d.size ≤ off then (some [], x)
  else
    let n := if x.d.size < (off + n) % 4294967296 then x.d.size - off else n
    x.readLoop sb n off n

end Xv6FsServer.Fs
