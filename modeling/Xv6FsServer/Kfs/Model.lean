/-
The kernel's own file system (fs.c and sysfile.c), which still serves
`link`, `unlink`, `mkdir`, `mknod`, `chdir` and `exec` beside the server.

# State

The disk as `bread` shows it, the superblock and the inode cache
(`KFs`). The log and the buffer cache are not modelled here: within one
system call `log_write` makes a block visible to every later `bread`, and
the calls are whole transactions. A pointer to an inode is its index in
`icache`. Locks are left out, each call running by itself.

# Faults

A call that does not return has panicked (`Panic`).
-/
import Xv6FsServer.Fs.File
import Xv6FsServer.Lib.Prog

namespace Xv6FsServer.Kfs

open Lib Fs Function

/-- `NINODE`. -/
def ninode : Nat := 50

/-- `T_DEV`. -/
def tDev : Nat := 3

/-- `struct inode`; `valid` is the flag `I_VALID`, and `d` holds the fields
it shares with the `dinode`. -/
structure Inode where
  dev : Nat
  inum : Nat
  ref : Nat
  valid : Bool
  d : DInode

structure KFs where
  disk : Disk
  sb : Superblock
  inodes : Nat → Inode

/-- The messages of `panic`. -/
inductive Panic
  | ballocOutOfBlocks
  | freeingFreeBlock
  | iallocNoInodes
  | igetNoInodes
  | ilock
  | ilockNoType
  | bmapOutOfRange
  | dirlookupNotDir
  | dirlookupRead
  | dirlinkRead
  | dirlink
  | isdiremptyReadi
  | unlinkNlink
  | unlinkWritei
  | createDots
  | createDirlink
  deriving DecidableEq, Repr

abbrev Op : Type → Type := Prog KFs Panic

-- ==== state access

def setBlock (b : Nat) (f : Block → Block) : Op Unit :=
  modify fun s => { s with disk := update s.disk b (f (s.disk b)) }

def setInode (ip : Nat) (f : Inode → Inode) : Op Unit :=
  modify fun s => { s with inodes := update s.inodes ip (f (s.inodes ip)) }

def setD (ip : Nat) (f : DInode → DInode) : Op Unit :=
  setInode ip fun n => { n with d := f n.d }

-- ==== blocks

def readsb : Op Unit := modify fun s => { s with sb := getSuperblock (s.disk 1) }

def bzero (b : Nat) : Op Unit := setBlock b fun _ => Bytes.zero

/-- The lowest free block, marked used and cleared. -/
def balloc : Op Nat := do
  let s ← get
  match lowestFree s.sb s.disk with
  | some b => do
    setBlock (bblock b s.sb) fun x => setBit x (b % bpb)
    bzero b
    pure b
  | none => throw .ballocOutOfBlocks

/-- `data[i/8] &= ~(1 << (i%8))`. -/
def clearBit (b : Block) (i : Nat) : Block :=
  Bytes.ofFn fun j =>
    if j = i / 8 then b.get j &&& ~~~UInt8.ofNat (2 ^ (i % 8)) else b.get j

def bfree (b : Nat) : Op Unit := do
  readsb
  let s ← get
  if used s.sb s.disk b then setBlock (bblock b s.sb) fun x => clearBit x (b % bpb)
  else throw .freeingFreeBlock

-- ==== inodes

def iget (dev inum : Nat) : Op Nat := do
  let s ← get
  match first (fun i => decide (0 < (s.inodes i).ref) && (s.inodes i).dev == dev
      && (s.inodes i).inum == inum) 0 ninode with
  | some ip => do
    setInode ip fun n => { n with ref := n.ref + 1 }
    pure ip
  | none =>
    match first (fun i => (s.inodes i).ref == 0) 0 ninode with
    | some ip => do
      setInode ip fun n =>
        { n with dev := dev, inum := inum, ref := 1, valid := false }
      pure ip
    | none => throw .igetNoInodes

def idup (ip : Nat) : Op Nat := do
  setInode ip fun n => { n with ref := n.ref + 1 }
  pure ip

def ilock (ip : Nat) : Op Unit := do
  let s ← get
  if (s.inodes ip).ref < 1 then throw .ilock
  else if (s.inodes ip).valid then pure ()
  else do
    setInode ip fun n =>
      { n with d := dinode s.sb s.disk n.inum, valid := true }
    if (dinode s.sb s.disk (s.inodes ip).inum).type = 0 then throw .ilockNoType
    else pure ()

def iupdate (ip : Nat) : Op Unit := do
  let s ← get
  setBlock (iblock (s.inodes ip).inum s.sb) fun x =>
    putDInode x ((s.inodes ip).inum % ipb) (s.inodes ip).d

/-- `ialloc`'s loop over `n` inode numbers from `inum` on. -/
def iallocLoop (type : Nat) : Nat → Nat → Op Nat
  | 0, _ => throw .iallocNoInodes
  | n + 1, inum => do
    let s ← get
    if (dinode s.sb s.disk inum).type = 0 then do
      setBlock (iblock inum s.sb) fun x => putDInode x (inum % ipb) (.fresh type)
      iget rootDev inum
    else iallocLoop type n (inum + 1)

def ialloc (type : Nat) : Op Nat := do
  let s ← get
  iallocLoop type (s.sb.ninodes - 1) 1

-- ==== truncation

/-- `itrunc`'s loop over the direct blocks, `n` of them from `k` on. -/
def freeAddrs (ip : Nat) : Nat → Nat → Op Unit
  | 0, _ => pure ()
  | n + 1, k => do
    let s ← get
    if (s.inodes ip).d.addrs k ≠ 0 then do
      bfree ((s.inodes ip).d.addrs k)
      setD ip fun d => d.setAddr k 0
      freeAddrs ip n (k + 1)
    else freeAddrs ip n (k + 1)

/-- `itrunc`'s loop over the entries of the indirect block `a`. -/
def freeEntries (a : Block) : Nat → Nat → Op Unit
  | 0, _ => pure ()
  | n + 1, j =>
    if a.le32 (4 * j) ≠ 0 then do
      bfree (a.le32 (4 * j))
      freeEntries a n (j + 1)
    else freeEntries a n (j + 1)

def itrunc (ip : Nat) : Op Unit := do
  freeAddrs ip ndirect 0
  let s ← get
  if (s.inodes ip).d.addrs ndirect ≠ 0 then do
    freeEntries (s.disk ((s.inodes ip).d.addrs ndirect)) nindirect 0
    bfree ((s.inodes ip).d.addrs ndirect)
    setD ip fun d => d.setAddr ndirect 0
  else pure ()
  setD ip fun d => { d with size := 0 }
  iupdate ip

/-- Drop a reference; the last one frees an inode without links. -/
def iput (ip : Nat) : Op Unit := do
  let s ← get
  if (s.inodes ip).ref = 1 ∧ (s.inodes ip).valid ∧ (s.inodes ip).d.nlink = 0 then do
    itrunc ip
    setD ip fun d => { d with type := 0 }
    iupdate ip
    setInode ip fun n => { n with valid := false }
  else pure ()
  setInode ip fun n => { n with ref := n.ref - 1 }

-- ==== content

/-- `bmap`'s way with `ip->addrs[k]`. -/
def bmapAddr (ip k : Nat) : Op Nat := do
  let s ← get
  if (s.inodes ip).d.addrs k = 0 then do
    let addr ← balloc
    setD ip fun d => d.setAddr k addr
    pure addr
  else pure ((s.inodes ip).d.addrs k)

def bmap (ip bn : Nat) : Op Nat := do
  if bn < ndirect then bmapAddr ip bn
  else if bn - ndirect < nindirect then do
    let ind ← bmapAddr ip ndirect
    let s ← get
    if (s.disk ind).le32 (4 * (bn - ndirect)) = 0 then do
      let addr ← balloc
      setBlock ind fun x => x.put32 (4 * (bn - ndirect)) addr
      pure addr
    else pure ((s.disk ind).le32 (4 * (bn - ndirect)))
  else throw .bmapOutOfRange

/-- `readi`'s loop. -/
def readiLoop (ip : Nat) : Nat → Nat → Nat → Op (List UInt8)
  | 0, _, _ => pure []
  | k + 1, off, n =>
    if n = 0 then pure []
    else do
      let addr ← bmap ip (off / bsize)
      let s ← get
      let m := min n (bsize - off % bsize)
      let rest ← readiLoop ip k (off + m) (n - m)
      pure ((s.disk addr).slice (off % bsize) m ++ rest)

/-- `readi(ip, dst, off, n)` of a file or a directory: the bytes, or
nothing for -1. -/
def readi (ip off n : Nat) : Op (Option (List UInt8)) := do
  let s ← get
  let size := (s.inodes ip).d.size
  if size < off ∨ (off + n) % 4294967296 < off then pure none
  else
    let n := if size < off + n then size - off else n
    some <$> readiLoop ip n off n

/-- `writei`'s loop; returns the offset it ends at. -/
def writeiLoop (ip : Nat) : Nat → Nat → List UInt8 → Op Nat
  | 0, off, _ => pure off
  | k + 1, off, src =>
    if src.length = 0 then pure off
    else do
      let addr ← bmap ip (off / bsize)
      let m := min src.length (bsize - off % bsize)
      setBlock addr fun x => x.blit (off % bsize) (src.take m)
      writeiLoop ip k (off + m) (src.drop m)

/-- `writei(ip, src, off, n)` of a file or a directory. -/
def writei (ip : Nat) (src : List UInt8) (off : Nat) : Op Int := do
  let s ← get
  let n := src.length
  if (s.inodes ip).d.size < off ∨ (off + n) % 4294967296 < off then pure (-1)
  else if maxFile * bsize < off + n then pure (-1)
  else do
    let off' ← writeiLoop ip n off src
    let t ← get
    if 0 < n ∧ (t.inodes ip).d.size < off' then do
      setD ip fun d => { d with size := off' }
      iupdate ip
      pure n
    else pure n

-- ==== directories

/-- `strncmp(p, q, n) == 0`; a string that ends is a NUL there. -/
def strncmp : Nat → List UInt8 → List UInt8 → Bool
  | 0, _, _ => true
  | n + 1, p, q =>
    if p.headD 0 ≠ 0 ∧ p.headD 0 = q.headD 0 then strncmp n p.tail q.tail
    else p.headD 0 == q.headD 0

def namecmp (s t : List UInt8) : Bool := strncmp dirsiz s t

/-- `strncpy`: the string, padded with NULs to `n` bytes. -/
def strncpy (t : List UInt8) (n : Nat) : List UInt8 :=
  t.take n ++ List.replicate (n - t.length) 0

/-- `dirlookup`'s loop over the entries from `off` on. -/
def dirlookupLoop (dp : Nat) (name : List UInt8) :
    Nat → Nat → Op (Option (Nat × Nat))
  | 0, _ => pure none
  | k + 1, off => do
    let s ← get
    if off < (s.inodes dp).d.size then
      match ← readi dp off 16 with
      | none => throw .dirlookupRead
      | some de =>
        if de.length ≠ 16 then throw .dirlookupRead
        else if direntInum de = 0 then dirlookupLoop dp name k (off + 16)
        else if namecmp name (direntName de) then do
          let t ← get
          let ip ← iget (t.inodes dp).dev (direntInum de)
          pure (some (ip, off))
        else dirlookupLoop dp name k (off + 16)
    else pure none

/-- The inode of an entry, and the entry's offset. -/
def dirlookup (dp : Nat) (name : List UInt8) : Op (Option (Nat × Nat)) := do
  let s ← get
  if (s.inodes dp).d.type ≠ tDir then throw .dirlookupNotDir
  else dirlookupLoop dp name ((s.inodes dp).d.size / 16 + 1) 0

/-- `dirlink`'s search for an empty entry: its offset. -/
def dirlinkLoop (dp : Nat) : Nat → Nat → Op Nat
  | 0, off => pure off
  | k + 1, off => do
    let s ← get
    if off < (s.inodes dp).d.size then
      match ← readi dp off 16 with
      | none => throw .dirlinkRead
      | some de =>
        if de.length ≠ 16 then throw .dirlinkRead
        else if direntInum de = 0 then pure off
        else dirlinkLoop dp k (off + 16)
    else pure off

def dirlink (dp : Nat) (name : List UInt8) (inum : Nat) : Op Int := do
  match ← dirlookup dp name with
  | some (ip, _) => do
    iput ip
    pure (-1)
  | none => do
    let s ← get
    let off ← dirlinkLoop dp ((s.inodes dp).d.size / 16 + 1) 0
    let r ← writei dp (mkDirent inum (strncpy name dirsiz)) off
    if r ≠ 16 then throw .dirlink
    else pure 0

-- ==== paths

/-- The character `/`. -/
def slash : UInt8 := 47

/-- The first element of a path, in `char name[DIRSIZ]`, and what follows
it; nothing if there is none. -/
def skipelem (path : List UInt8) : Option (List UInt8 × List UInt8) :=
  let p := path.dropWhile (· == slash)
  if p.isEmpty then none
  else
    some ((p.takeWhile (· != slash)).take dirsiz,
      (p.dropWhile (· != slash)).dropWhile (· == slash))

def iunlockput (ip : Nat) : Op Unit := iput ip

/-- `namex`'s loop at the inode `ip`: the inode, and the last element if the
parent was asked for. -/
def namexLoop (nameiparent : Bool) :
    Nat → Nat → List UInt8 → Op (Option (Nat × List UInt8))
  | 0, ip, _ => pure (some (ip, []))
  | k + 1, ip, path =>
    match skipelem path with
    | none =>
      if nameiparent then do
        iput ip
        pure none
      else pure (some (ip, []))
    | some (name, path) => do
      ilock ip
      let s ← get
      if (s.inodes ip).d.type ≠ tDir then do
        iunlockput ip
        pure none
      else if nameiparent ∧ path.isEmpty then pure (some (ip, name))
      else
        match ← dirlookup ip name with
        | none => do
          iunlockput ip
          pure none
        | some (next, _) => do
          iunlockput ip
          namexLoop nameiparent k next path

def namex (cwd : Nat) (path : List UInt8) (nameiparent : Bool) :
    Op (Option (Nat × List UInt8)) := do
  let ip ← if path.head? = some slash then iget rootDev rootIno else idup cwd
  namexLoop nameiparent (path.length + 1) ip path

/-- `namei` in a process whose current directory is `cwd`. -/
def namei (cwd : Nat) (path : List UInt8) : Op (Option Nat) :=
  (Option.map Prod.fst) <$> namex cwd path false

def nameiparent (cwd : Nat) (path : List UInt8) :
    Op (Option (Nat × List UInt8)) := namex cwd path true

end Xv6FsServer.Kfs
