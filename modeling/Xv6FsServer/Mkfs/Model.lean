/-
mkfs: the program that makes the disk image (mkfs.c).

It runs on the build host and writes the image with two counters, the next
inode and the next block; nothing is ever given back. The bitmap is written
last, from the block counter. An input file is its name and what `read`
returns for it, piece by piece; inputs that cannot be opened are no inputs.

The state is the image file, by sectors, and the counters. Reading past its
end fails (`rsect`); writing there extends it. The program ends in `exit(0)`,
or in one of the ways of `Exit`.
-/
import Xv6FsServer.Fs.File
import Xv6FsServer.Lib.Prog

namespace Xv6FsServer.Mkfs

open Lib Fs Function

-- ==== the layout

def ninodes : Nat := 200
def nbitmap : Nat := fsSize / (bsize * 8) + 1
def ninodeblocks : Nat := ninodes / ipb + 1
def nlog : Nat := logSize

/-- The blocks in front of the data. -/
def nmeta : Nat := 2 + nlog + ninodeblocks + nbitmap
def nblocks : Nat := fsSize - nmeta

def sb : Superblock where
  size := fsSize
  nblocks := nblocks
  ninodes := ninodes
  nlog := nlog
  logstart := 2
  inodestart := 2 + nlog
  bmapstart := 2 + nlog + ninodeblocks

def putSuperblock (sb : Superblock) : Block :=
  Bytes.zero.putWords 0 [sb.size, sb.nblocks, sb.ninodes, sb.nlog, sb.logstart,
    sb.inodestart, sb.bmapstart]

-- ==== the state

structure Mk where
  disk : Disk
  /-- The length of the image file, in sectors. -/
  sectors : Nat
  freeinode : Nat
  freeblock : Nat

inductive Exit
  | failure
  | assertion
deriving DecidableEq, Repr

abbrev Op : Type → Type := Prog Mk Exit

def wsect (sec : Nat) (buf : Block) : Op Unit :=
  modify fun s =>
    { s with disk := update s.disk sec buf, sectors := max s.sectors (sec + 1) }

def rsect (sec : Nat) : Op Block := do
  let s ← get
  if s.sectors ≤ sec then throw .failure else pure (s.disk sec)

def winode (inum : Nat) (d : DInode) : Op Unit := do
  let buf ← rsect (iblock inum sb)
  wsect (iblock inum sb) (putDInode buf (inum % ipb) d)

def rinode (inum : Nat) : Op DInode := do
  let buf ← rsect (iblock inum sb)
  pure (getDInode buf (inum % ipb))

def ialloc (type : Nat) : Op Nat := do
  let s ← get
  modify fun s => { s with freeinode := s.freeinode + 1 }
  winode s.freeinode { DInode.fresh type with nlink := 1 }
  pure s.freeinode

/-- `freeblock++` -/
def nextBlock : Op Nat := do
  let s ← get
  modify fun s => { s with freeblock := s.freeblock + 1 }
  pure s.freeblock

/-- The blocks below `used` are marked. -/
def balloc (used : Nat) : Op Unit :=
  if bpb ≤ used then throw .assertion
  else wsect sb.bmapstart ((List.range used).foldl setBit Bytes.zero)

-- ==== appending

/-- The inode with a block in `addrs[k]`. -/
def slotFor (din : DInode) (k : Nat) : Op DInode :=
  if din.addrs k = 0 then din.setAddr k <$> nextBlock else pure din

/-- The block of `iappend` for block `fbn` of the file, with the inode that
holds it. -/
def blockFor (din : DInode) (fbn : Nat) : Op (DInode × Nat) :=
  if fbn < ndirect then do
    let din ← slotFor din fbn
    pure (din, din.addrs fbn)
  else do
    let din ← slotFor din ndirect
    let indirect ← rsect (din.addrs ndirect)
    if indirect.le32 (4 * (fbn - ndirect)) = 0 then do
      let b ← nextBlock
      wsect (din.addrs ndirect) (indirect.put32 (4 * (fbn - ndirect)) b)
      pure (din, b)
    else pure (din, indirect.le32 (4 * (fbn - ndirect)))

/-- The loop of `iappend`: the offset and the inode it ends with. -/
def iappendLoop : Nat → Nat → List UInt8 → DInode → Op (Nat × DInode)
  | 0, off, _, din => pure (off, din)
  | k + 1, off, p, din =>
    if p.length = 0 then pure (off, din)
    else
      let fbn := off / bsize
      if maxFile ≤ fbn then throw .assertion
      else do
        let r ← blockFor din fbn
        let n1 := min p.length ((fbn + 1) * bsize - off)
        let buf ← rsect r.2
        wsect r.2 (buf.blit (off - fbn * bsize) (p.take n1))
        iappendLoop k (off + n1) (p.drop n1) r.1

def iappend (inum : Nat) (p : List UInt8) : Op Unit := do
  let din ← rinode inum
  let r ← iappendLoop p.length din.size p din
  winode inum { r.2 with size := r.1 }

-- ==== main

/-- An input file: its name, a C string, and what `read` returns, of up to
`BSIZE` bytes at a time. -/
structure File where
  name : List UInt8
  chunks : List (List UInt8)
  name_ok : 0 ∉ name
  chunks_ok : ∀ c ∈ chunks, 0 < c.length ∧ c.length ≤ bsize

def File.bytes (f : File) : List UInt8 := f.chunks.flatten

/-- A leading `_` is skipped. -/
def skip : List UInt8 → List UInt8
  | 95 :: name => name
  | name => name

/-- The name in the image, of which `strncpy` takes `DIRSIZ` bytes. -/
def File.stored (f : File) : List UInt8 := (skip f.name).take dirsiz

/-- The bytes of a directory entry. -/
def entryBytes (inum : Nat) (name : List UInt8) : List UInt8 :=
  mkDirent inum (paddedName name)

def appendAll (inum : Nat) : List (List UInt8) → Op Unit
  | [] => pure ()
  | c :: cs => do
    iappend inum c
    appendAll inum cs

def addFile (f : File) : Op Unit :=
  if 47 ∈ f.name then throw .assertion
  else do
    let inum ← ialloc tFile
    iappend rootIno (entryBytes inum f.stored)
    appendAll inum f.chunks

def addFiles : List File → Op Unit
  | [] => pure ()
  | f :: fs => do
    addFile f
    addFiles fs

/-- `fix size of root inode dir` -/
def fixRoot : Op Unit := do
  let din ← rinode rootIno
  winode rootIno { din with size := (din.size / bsize + 1) * bsize }

/-- The root directory with its first two entries. -/
def makeRoot : Op Unit := do
  let rootino ← ialloc tDir
  if rootino ≠ rootIno then throw .assertion
  else do
    iappend rootino (entryBytes rootino [46])
    iappend rootino (entryBytes rootino [46, 46])

def main (files : List File) : Op Unit := do
  wsect 1 (putSuperblock sb)
  makeRoot
  addFiles files
  fixRoot
  let s ← get
  balloc s.freeblock

/-- The image file, with zeros in all its sectors. -/
def start : Mk where
  disk := fun _ => Bytes.zero
  sectors := fsSize
  freeinode := 1
  freeblock := nmeta

end Xv6FsServer.Mkfs
