/-
The on-disk format (fs.h): superblock, inodes, bitmap and directory
entries as bytes of blocks.

Each record has a reader and a writer over a block, and the two facts its
users need: what is written reads back, and what lies elsewhere in the
block is untouched. Fields are naturals; a `DInode` that satisfies
`DInode.Ok` fits its 64 bytes.
-/
import Xv6FsServer.Param
import Mathlib.Data.Nat.Bitwise

namespace Xv6FsServer.Fs

open Lib Bytes

variable {b : Block}
variable {j k i off x : Nat} {d : DInode} {ws : List Nat}

def ndirect : Nat := 12
def nindirect : Nat := 128
def maxFile : Nat := ndirect + nindirect
def dirsiz : Nat := 14
def rootIno : Nat := 1

/-- Inodes per block. -/
def ipb : Nat := 8

/-- Bitmap bits per block. -/
def bpb : Nat := 4096

def tDir : Nat := 1
def tFile : Nat := 2

-- ==== superblock

/-- `struct superblock`. -/
structure Superblock where
  size : Nat
  nblocks : Nat
  ninodes : Nat
  nlog : Nat
  logstart : Nat
  inodestart : Nat
  bmapstart : Nat
  deriving DecidableEq, Repr

def getSuperblock (b : Block) : Superblock where
  size := b.le32 0
  nblocks := b.le32 4
  ninodes := b.le32 8
  nlog := b.le32 12
  logstart := b.le32 16
  inodestart := b.le32 20
  bmapstart := b.le32 24

/-- `IBLOCK`. -/
def iblock (inum : Nat) (sb : Superblock) : Nat := inum / ipb + sb.inodestart

/-- `BBLOCK`. -/
def bblock (b : Nat) (sb : Superblock) : Nat := b / bpb + sb.bmapstart

-- ==== inodes

/-- `struct dinode`; `addrs` is 0 from `NDIRECT + 1` on. -/
structure DInode where
  type : Nat
  major : Nat
  minor : Nat
  nlink : Nat
  size : Nat
  addrs : Nat → Nat

/-- `memset(dip, 0, sizeof(*dip)); dip->type = type;`. -/
def DInode.fresh (type : Nat) : DInode where
  type := type
  major := 0
  minor := 0
  nlink := 0
  size := 0
  addrs := fun _ => 0

/-- The `k`-th `struct dinode` of a block. -/
def getDInode (b : Block) (k : Nat) : DInode where
  type := b.le16 (64 * k)
  major := b.le16 (64 * k + 2)
  minor := b.le16 (64 * k + 4)
  nlink := b.le16 (64 * k + 6)
  size := b.le32 (64 * k + 8)
  addrs := fun j => if j ≤ ndirect then b.le32 (64 * k + 12 + 4 * j) else 0

def putDInode (b : Block) (k : Nat) (d : DInode) : Block :=
  (((((b.put16 (64 * k) d.type).put16 (64 * k + 2) d.major).put16
    (64 * k + 4) d.minor).put16 (64 * k + 6) d.nlink).put32
      (64 * k + 8) d.size).putWords (64 * k + 12)
        ((List.range (ndirect + 1)).map d.addrs)

/-- The values fit their fields. -/
structure DInode.Ok (d : DInode) : Prop where
  type : d.type < 65536
  major : d.major < 65536
  minor : d.minor < 65536
  nlink : d.nlink < 65536
  size : d.size < 4294967296
  addrs : ∀ j, d.addrs j < 4294967296
  past : ∀ j, ndirect < j → d.addrs j = 0

theorem getDInode_ok (b : Block) (k : Nat) : (getDInode b k).Ok := by
  refine ⟨b.le16_lt _, b.le16_lt _, b.le16_lt _, b.le16_lt _, b.le32_lt _, ?_, ?_⟩
  · intro j
    show (if j ≤ ndirect then _ else 0) < _
    split
    · exact b.le32_lt _
    · omega
  · intro j hj
    exact if_neg (by omega)

theorem DInode.fresh_ok {type : Nat} (h : type < 65536) : (fresh type).Ok := by
  refine ⟨h, ?_, ?_, ?_, ?_, ?_, ?_⟩ <;> simp [fresh]

/-- A `dinode` is its 64 bytes. -/
theorem getDInode_congr {a : Block}
    (h : ∀ i, i < 64 → a.get (64 * j + i) = b.get (64 * k + i)) :
    getDInode a j = getDInode b k := by
  have h16 : ∀ o, o + 2 ≤ 64 → a.le16 (64 * j + o) = b.le16 (64 * k + o) := by
    intro o ho
    refine le16_congr fun i hi => ?_
    rw [Nat.add_assoc, Nat.add_assoc]
    exact h (o + i) (by omega)
  have h32 : ∀ o, o + 4 ≤ 64 → a.le32 (64 * j + o) = b.le32 (64 * k + o) := by
    intro o ho
    refine le32_congr fun i hi => ?_
    rw [Nat.add_assoc, Nat.add_assoc]
    exact h (o + i) (by omega)
  unfold getDInode
  rw [DInode.mk.injEq]
  refine ⟨h16 0 (by omega), h16 2 (by omega), h16 4 (by omega), h16 6 (by omega),
    h32 8 (by omega), ?_⟩
  funext i
  split
  next hi =>
    unfold ndirect at hi
    have := h32 (12 + 4 * i) (by omega)
    rw [← Nat.add_assoc, ← Nat.add_assoc] at this
    exact this
  next => rfl

theorem length_addrs (d : DInode) :
    ((List.range (ndirect + 1)).map d.addrs).length = 13 := by
  simp [ndirect]

/-- Bytes outside a stored `dinode` are untouched. -/
theorem get_putDInode (h : i < 64 * k ∨ 64 * k + 64 ≤ i) :
    (putDInode b k d).get i = b.get i := by
  unfold putDInode
  rw [get_putWords, length_addrs, if_neg (by omega), get_put32,
    if_neg (by omega), get_put16, if_neg (by omega), get_put16,
    if_neg (by omega), get_put16, if_neg (by omega), get_put16,
    if_neg (by omega)]

theorem getDInode_putDInode_of_ne (h : j ≠ k) :
    getDInode (putDInode b k d) j = getDInode b j :=
  getDInode_congr fun i hi => get_putDInode (by omega)

/-- A 16-bit field is not touched by the words stored after it. -/
theorem le16_putWords_of_disjoint (b : Block)
    (h : x + 2 ≤ off) : (b.putWords off ws).le16 x = b.le16 x :=
  le16_congr fun k hk => by rw [get_putWords, if_neg (by omega)]

theorem le32_putWords_of_disjoint (b : Block)
    (h : x + 4 ≤ off) : (b.putWords off ws).le32 x = b.le32 x :=
  le32_congr fun k hk => by rw [get_putWords, if_neg (by omega)]

theorem getDInode_putDInode (hk : k < ipb) (hd : d.Ok) :
    getDInode (putDInode b k d) k = d := by
  unfold ipb at hk
  have hlen : 64 * k + 64 ≤ bsize := by
    unfold bsize
    omega
  have haddr : ∀ j, j ≤ ndirect →
      (putDInode b k d).le32 (64 * k + 12 + 4 * j) = d.addrs j := by
    intro j hj
    have hget : ((List.range (ndirect + 1)).map d.addrs).getD j 0 = d.addrs j := by
      rw [List.getD_eq_getElem?_getD, List.getElem?_map,
        List.getElem?_range (by omega)]
      rfl
    unfold putDInode
    rw [le32_putWords, hget]
    · rw [length_addrs]
      omega
    · rw [length_addrs]
      unfold ndirect at hj
      omega
    · rw [hget]
      exact hd.addrs j
  have hfields : getDInode (putDInode b k d) k
      = ⟨d.type, d.major, d.minor, d.nlink, d.size,
        fun j => if j ≤ ndirect then d.addrs j else 0⟩ := by
    unfold getDInode
    rw [DInode.mk.injEq]
    refine ⟨?_, ?_, ?_, ?_, ?_, ?_⟩
    · unfold putDInode
      rw [le16_putWords_of_disjoint _ (by omega),
        le16_put32_of_disjoint _ (by omega),
        le16_put16_of_disjoint _ (by omega),
        le16_put16_of_disjoint _ (by omega),
        le16_put16_of_disjoint _ (by omega),
        le16_put16 _ (by omega) hd.type]
    · unfold putDInode
      rw [le16_putWords_of_disjoint _ (by omega),
        le16_put32_of_disjoint _ (by omega),
        le16_put16_of_disjoint _ (by omega),
        le16_put16_of_disjoint _ (by omega),
        le16_put16 _ (by omega) hd.major]
    · unfold putDInode
      rw [le16_putWords_of_disjoint _ (by omega),
        le16_put32_of_disjoint _ (by omega),
        le16_put16_of_disjoint _ (by omega),
        le16_put16 _ (by omega) hd.minor]
    · unfold putDInode
      rw [le16_putWords_of_disjoint _ (by omega),
        le16_put32_of_disjoint _ (by omega),
        le16_put16 _ (by omega) hd.nlink]
    · unfold putDInode
      rw [le32_putWords_of_disjoint _ (by omega),
        le32_put32 _ (by omega) hd.size]
    · funext j
      split
      next hj => exact haddr j hj
      next => rfl
  rw [hfields]
  cases d with
  | mk type major minor nlink size addrs =>
    rw [DInode.mk.injEq]
    refine ⟨rfl, rfl, rfl, rfl, rfl, ?_⟩
    funext j
    split
    next => rfl
    next hj => exact (hd.past j (by omega)).symm

-- ==== bitmap

/-- `data[i/8] & (1 << (i%8))`. -/
def bit (b : Block) (i : Nat) : Bool := (b.get (i / 8)).toNat.testBit (i % 8)

/-- `data[i/8] |= 1 << (i%8)`. -/
def setBit (b : Block) (i : Nat) : Block :=
  Bytes.ofFn fun j =>
    if j = i / 8 then b.get j ||| UInt8.ofNat (2 ^ (i % 8)) else b.get j

theorem toNat_mask (i : Nat) : (UInt8.ofNat (2 ^ (i % 8))).toNat = 2 ^ (i % 8) := by
  have hlt : 2 ^ (i % 8) < 2 ^ 8 :=
    Nat.pow_lt_pow_right (by omega) (Nat.mod_lt _ (by omega))
  rw [UInt8.toNat_ofNat']
  exact Nat.mod_eq_of_lt hlt

theorem bit_setBit (hi : i < bpb) (j : Nat) :
    bit (setBit b i) j = (decide (j = i) || bit b j) := by
  unfold bit setBit
  unfold bpb at hi
  rw [get_ofFn]
  by_cases hj : j / 8 = i / 8
  · rw [hj, if_pos (by unfold bsize; omega), if_pos rfl, UInt8.toNat_or,
      Nat.testBit_or, toNat_mask, Nat.testBit_two_pow, Bool.or_comm]
    congr 1
    exact decide_eq_decide.mpr (by omega)
  · have hne : j ≠ i := fun e => hj (by rw [e])
    have hsame : (if j / 8 < bsize then
        (if j / 8 = i / 8 then b.get (j / 8) ||| UInt8.ofNat (2 ^ (i % 8))
          else b.get (j / 8)) else 0) = b.get (j / 8) := by
      rw [if_neg hj]
      split
      next => rfl
      next h => exact (get_of_le (by omega)).symm
    rw [hsame]
    simp [hne]

-- ==== directory entries

/-- `de.inum` of the 16 bytes of a `struct dirent`. -/
def direntInum (de : List UInt8) : Nat :=
  (de.getD 0 0).toNat + 256 * (de.getD 1 0).toNat

/-- `de.name`. -/
def direntName (de : List UInt8) : List UInt8 := de.drop 2

/-- The bytes of a `struct dirent` with this name field. -/
def mkDirent (inum : Nat) (name : List UInt8) : List UInt8 :=
  Bytes.byteOf inum 0 :: Bytes.byteOf inum 1 :: name

theorem direntInum_mkDirent {inum : Nat} (h : inum < 65536) (name : List UInt8) :
    direntInum (mkDirent inum name) = inum := by
  show (byteOf inum 0).toNat + 256 * (byteOf inum 1).toNat = inum
  rw [toNat_byteOf, toNat_byteOf]
  omega

@[simp] theorem direntName_mkDirent (inum : Nat) (name : List UInt8) :
    direntName (mkDirent inum name) = name := rfl

@[simp] theorem length_mkDirent (inum : Nat) (name : List UInt8) :
    (mkDirent inum name).length = name.length + 2 := rfl

-- ==== a small image

/-- A name as it stands in an entry. -/
def paddedName (name : List UInt8) : List UInt8 :=
  name ++ List.replicate (dirsiz - name.length) 0

/-- A root directory in block 4, and in it the file `a` of two bytes, in
block 5. The other blocks are free and zero, as mkfs leaves them. -/
def smallImage : Disk := fun b =>
  if b = 1 then Bytes.zero.putWords 0 [16, 12, 8, 0, 2, 2, 3]
  else if b = 2 then
    putDInode (putDInode Bytes.zero rootIno
      { DInode.fresh tDir with
        nlink := 1
        size := 48
        addrs := fun k => if k = 0 then 4 else 0 }) 2
      { DInode.fresh tFile with
        nlink := 1
        size := 2
        addrs := fun k => if k = 0 then 5 else 0 }
  else if b = 3 then Bytes.ofFn fun j => if j = 0 then 63 else 0
  else if b = 4 then
    Bytes.zero.blit 0 (mkDirent rootIno (paddedName [46])
      ++ mkDirent rootIno (paddedName [46, 46]) ++ mkDirent 2 (paddedName [97]))
  else if b = 5 then Bytes.zero.blit 0 [104, 105]
  else Bytes.zero

example : (getSuperblock (smallImage 1)).ninodes = 8
    ∧ (getDInode (smallImage 2) 1).size = 48
    ∧ (getDInode (smallImage 2) 2).type = tFile := by
  decide +kernel

end Xv6FsServer.Fs
