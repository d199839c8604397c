/-
fsserver: the file server's user-space code (fsserver.c).

# State

The server's static data (`Srv`): the buffer cache, the inode cache, its
copy of the superblock and the descriptor table; and the disk behind
`disk_request`, which is the kernel's `bread` view of it. Pointers to a
`ubuf` or a `uinode` are indices into their caches, and a null pointer is
`none`. `disk_request` may fail: `diskOk` says which calls succeed, by
their number. `written` (ghost) remembers the disk after each write; no
function reads it.

The buffers' list is built once and never reordered: following `next`
goes from the last buffer of `ubuf_cache` to the first, following `prev`
from the first to the last.

# Faults

A program here stops in one of three ways that are no return: the server
dereferences a null `uinode`, calls `exit`, or reads past the end of the
request while it looks for the NUL of a path.

Loops are structural: each carries a bound that its own condition reaches
first. `bfree` and `nameiparent` are never called and left out, as are the
messages printed to the console.
-/
import Xv6FsServer.Fs.Layout
import Xv6FsServer.Ipc.Protocol
import Xv6FsServer.Lib.Prog
import Xv6FsServer.Lib.Search

namespace Xv6FsServer.Server

open Lib Fs Function
open Ipc (IpcMsg IpcMsgType Answer ipcDataSize)

def maxRemoteFds : Nat := 64

/-- The server's own `NINODE`. -/
def ninode : Nat := 32

/-- The server's own `NBUF`. -/
def nbuf : Nat := 32

/-- `struct ubuf`; `valid` is the flag `B_VALID`. -/
structure UBuf where
  valid : Bool
  dev : Nat
  blockno : Nat
  refcnt : Int
  data : Block

/-- `struct uinode`; `d` holds the fields it shares with the `dinode`. -/
structure UInode where
  dev : Nat
  inum : Nat
  ref : Int
  d : DInode
  valid : Bool

/-- `struct fd_entry`. -/
structure FdEntry where
  used : Bool
  ownerPid : Int
  fd : Nat
  off : Nat
  readable : Bool
  writable : Bool

structure Srv where
  disk : Disk
  diskOk : Nat → Bool
  io : Nat
  written : List Disk
  bufs : Nat → UBuf
  inodes : Nat → UInode
  sb : Superblock
  fdTable : Nat → FdEntry
  fdInodes : Nat → Option Nat

inductive Fault
  | nullDeref
  | exit
  | overrun
  deriving DecidableEq, Repr

abbrev Op : Type → Type := Prog Srv Fault

-- ==== C library

/-- fsserver's own `strncpy`: the string, padded with NULs to `n` bytes. -/
def strncpy (t : List UInt8) (n : Nat) : List UInt8 :=
  t.take n ++ List.replicate (n - t.length) 0

/-- `unamecmp(s1, s2) == 0`: a string that ends is a NUL there. -/
def unamecmp : List UInt8 → List UInt8 → Bool
  | [], s2 => s2.headD 0 == 0
  | c1 :: _, [] => c1 == 0
  | c1 :: s1, c2 :: s2 =>
    if c1 ≠ 0 ∧ c2 ≠ 0 ∧ c1 = c2 then unamecmp s1 s2 else c1 == c2

-- ==== state access

def Srv.setBuf (s : Srv) (i : Nat) (f : UBuf → UBuf) : Srv :=
  { s with bufs := update s.bufs i (f (s.bufs i)) }

def Srv.setInode (s : Srv) (i : Nat) (f : UInode → UInode) : Srv :=
  { s with inodes := update s.inodes i (f (s.inodes i)) }

def Srv.setFd (s : Srv) (i : Nat) (f : FdEntry → FdEntry) : Srv :=
  { s with fdTable := update s.fdTable i (f (s.fdTable i)) }

def setBuf (i : Nat) (f : UBuf → UBuf) : Op Unit := modify fun s => s.setBuf i f

def setInode (i : Nat) (f : UInode → UInode) : Op Unit :=
  modify fun s => s.setInode i f

/-- `disk_request(b, data, 0)`: the block, or -1. -/
def diskRead (b : Nat) : Op (Option Block) := do
  let s ← get
  modify fun s => { s with io := s.io + 1 }
  pure (if s.diskOk s.io then some (s.disk b) else none)

/-- `disk_request(b, data, 1)`; no caller looks at its result. -/
def diskWrite (b : Nat) (data : Block) : Op Unit :=
  modify fun s =>
    let disk := if s.diskOk s.io then update s.disk b data else s.disk
    { s with io := s.io + 1, disk := disk, written := s.written ++ [disk] }

-- ==== buffers

def ubufGet (dev blockno : Nat) : Op (Option Nat) := do
  let s ← get
  match last (fun i => (s.bufs i).dev == dev && (s.bufs i).blockno == blockno)
      nbuf with
  | some i => do
    setBuf i fun b => { b with refcnt := b.refcnt + 1 }
    pure (some i)
  | none =>
    match first (fun i => (s.bufs i).refcnt == 0) 0 nbuf with
    | some i => do
      setBuf i fun b =>
        { b with dev := dev, blockno := blockno, valid := false, refcnt := 1 }
      pure (some i)
    | none => pure none

def ubread (dev blockno : Nat) : Op (Option Nat) := do
  match ← ubufGet dev blockno with
  | none => pure none
  | some i => do
    let s ← get
    if (s.bufs i).valid then pure (some i)
    else
      match ← diskRead blockno with
      | none => do
        setBuf i fun b => { b with refcnt := b.refcnt - 1 }
        pure none
      | some data => do
        setBuf i fun b => { b with data := data, valid := true }
        pure (some i)

def ubwrite (i : Nat) : Op Unit := do
  let s ← get
  diskWrite (s.bufs i).blockno (s.bufs i).data

def ubrelse (i : Nat) : Op Unit :=
  setBuf i fun b => { b with refcnt := b.refcnt - 1 }

-- ==== inodes

def uiget (dev inum : Nat) : Op (Option Nat) := do
  let s ← get
  match first (fun i => decide (0 < (s.inodes i).ref) && (s.inodes i).dev == dev
      && (s.inodes i).inum == inum) 0 ninode with
  | some i => do
    setInode i fun ip => { ip with ref := ip.ref + 1 }
    pure (some i)
  | none =>
    match first (fun i => (s.inodes i).ref == 0) 0 ninode with
    | some i => do
      setInode i fun ip =>
        { ip with dev := dev, inum := inum, ref := 1, valid := false }
      pure (some i)
    | none => pure none

def uilock (ip : Nat) : Op Unit := do
  let s ← get
  if (s.inodes ip).valid then pure ()
  else
    match ← ubread (s.inodes ip).dev (iblock (s.inodes ip).inum s.sb) with
    | none => pure ()
    | some bp => do
      let t ← get
      setInode ip fun n => { n with d := getDInode (t.bufs bp).data (n.inum % ipb) }
      ubrelse bp
      setInode ip fun n => { n with valid := true }

def uiput (ip : Nat) : Op Unit :=
  setInode ip fun n =>
    { n with
      ref := n.ref - 1
      valid := if n.ref - 1 = 0 then false else n.valid }

def uiupdate (ip : Nat) : Op Unit := do
  let s ← get
  match ← ubread (s.inodes ip).dev (iblock (s.inodes ip).inum s.sb) with
  | none => pure ()
  | some bp => do
    setBuf bp fun b =>
      { b with data := putDInode b.data ((s.inodes ip).inum % ipb) (s.inodes ip).d }
    ubwrite bp
    ubrelse bp

def readsb : Op Unit := do
  match ← ubread rootDev 1 with
  | none => pure ()
  | some bp => do
    modify fun s => { s with sb := getSuperblock (s.bufs bp).data }
    ubrelse bp

-- ==== blocks

/-- `balloc`'s loop over the bitmap blocks, `n` of them from block `b` on. -/
def ballocLoop : Nat → Nat → Op Nat
  | 0, _ => pure 0
  | n + 1, b => do
    let s ← get
    match ← ubread rootDev (bblock b s.sb) with
    | none => ballocLoop n (b + bpb)
    | some bp => do
      let t ← get
      match first (fun bi => !bit (t.bufs bp).data bi) 0
          (min bpb (s.sb.size - b)) with
      | some bi => do
        setBuf bp fun u => { u with data := setBit u.data bi }
        ubwrite bp
        ubrelse bp
        pure (b + bi)
      | none => do
        ubrelse bp
        ballocLoop n (b + bpb)

/-- The number of a free block, now marked used; 0 if there is none. -/
def balloc : Op Nat := do
  let s ← get
  ballocLoop ((s.sb.size + bpb - 1) / bpb) 0

/-- `bmap`'s way with a block number in the inode itself, `ip->addrs[k]`:
allocate the block if there is none. -/
def bmapAddr (ip k : Nat) : Op Nat := do
  let s ← get
  if (s.inodes ip).d.addrs k = 0 then do
    let addr ← balloc
    if addr = 0 then pure 0
    else do
      setInode ip fun n =>
        { n with d := { n.d with addrs := update n.d.addrs k addr } }
      pure addr
  else pure ((s.inodes ip).d.addrs k)

/-- `bmap`'s way with entry `k` of the indirect block `ind`. -/
def bmapEntry (ind k : Nat) : Op Nat := do
  match ← ubread rootDev ind with
  | none => pure 0
  | some bp => do
    let s ← get
    if (s.bufs bp).data.le32 (4 * k) = 0 then do
      let addr ← balloc
      if addr = 0 then do
        ubrelse bp
        pure 0
      else do
        setBuf bp fun b => { b with data := b.data.put32 (4 * k) addr }
        ubwrite bp
        ubrelse bp
        pure addr
    else do
      ubrelse bp
      pure ((s.bufs bp).data.le32 (4 * k))

/-- The block of an inode's data block `bn`, allocated on demand; 0 if that
fails. -/
def bmap (ip bn : Nat) : Op Nat := do
  if bn < ndirect then bmapAddr ip bn
  else if bn - ndirect < nindirect then do
    let ind ← bmapAddr ip ndirect
    if ind = 0 then pure 0
    else bmapEntry ind (bn - ndirect)
  else pure 0

-- ==== files

/-- `uwritei`'s loop over the blocks of the range; the first argument
bounds its passes. Returns the offset it ends at, or nothing if a block
could not be had. -/
def uwriteiLoop (ip : Nat) : Nat → Nat → List UInt8 → Op (Option Nat)
  | 0, off, _ => pure (some off)
  | k + 1, off, src =>
    if src.length = 0 then pure (some off)
    else do
      let addr ← bmap ip (off / bsize)
      if addr = 0 then pure none
      else
        match ← ubread rootDev addr with
        | none => pure none
        | some bp => do
          let m := min src.length (bsize - off % bsize)
          setBuf bp fun b =>
            { b with data := b.data.blit (off % bsize) (src.take m) }
          ubwrite bp
          ubrelse bp
          uwriteiLoop ip k (off + m) (src.drop m)

/-- `uwritei(ip, src, off, n)` with `n` the length of `src`. -/
def uwritei (ip : Nat) (src : List UInt8) (off : Nat) : Op Int := do
  let n := src.length
  if (off + n) % 4294967296 < off then pure (-1)
  else
    match ← uwriteiLoop ip n off src with
    | none => pure (-1)
    | some off' => do
      let s ← get
      if 0 < n ∧ (s.inodes ip).d.size < off' then do
        setInode ip fun i => { i with d := { i.d with size := off' } }
        uiupdate ip
        pure n
      else pure n

/-- `ureadi`'s loop; returns the bytes, or nothing if a block could not be
had. -/
def ureadiLoop (ip : Nat) : Nat → Nat → Nat → Op (Option (List UInt8))
  | 0, _, _ => pure (some [])
  | k + 1, off, n =>
    if n = 0 then pure (some [])
    else do
      let addr ← bmap ip (off / bsize)
      if addr = 0 then pure none
      else
        match ← ubread rootDev addr with
        | none => pure none
        | some bp => do
          let t ← get
          let m := min n (bsize - off % bsize)
          let chunk := (t.bufs bp).data.slice (off % bsize) m
          ubrelse bp
          match ← ureadiLoop ip k (off + m) (n - m) with
          | none => pure none
          | some rest => pure (some (chunk ++ rest))

/-- `ureadi(ip, dst, off, n)`: the bytes it stores at `dst` (their number
is its result), or nothing for -1. -/
def ureadi (ip off n : Nat) : Op (Option (List UInt8)) := do
  let s ← get
  let size := (s.inodes ip).d.size
  if size ≤ off then pure (some [])
  else
    let n := if size < (off + n) % 4294967296 then size - off else n
    ureadiLoop ip n off n

-- ==== directories

/-- `dirlookup`'s loop over the entries from `off` on. -/
def dirlookupLoop (dp : Nat) (name : List UInt8) : Nat → Nat → Op (Option Nat)
  | 0, _ => pure none
  | k + 1, off => do
    let s ← get
    if off < (s.inodes dp).d.size then
      match ← ureadi dp off 16 with
      | none => pure none
      | some de =>
        if de.length ≠ 16 then pure none
        else if direntInum de = 0 then dirlookupLoop dp name k (off + 16)
        else if unamecmp name (direntName de) then do
          let t ← get
          uiget (t.inodes dp).dev (direntInum de)
        else dirlookupLoop dp name k (off + 16)
    else pure none

def dirlookup (dp : Nat) (name : List UInt8) : Op (Option Nat) := do
  let s ← get
  if (s.inodes dp).d.type ≠ tDir then pure none
  else dirlookupLoop dp name ((s.inodes dp).d.size / 16 + 1) 0

/-- `dirlink`'s search for an empty entry: its offset. -/
def dirlinkLoop (dp : Nat) : Nat → Nat → Op Nat
  | 0, off => pure off
  | k + 1, off => do
    let s ← get
    if off < (s.inodes dp).d.size then
      match ← ureadi dp off 16 with
      | none => throw .exit
      | some de =>
        if de.length ≠ 16 then throw .exit
        else if direntInum de = 0 then pure off
        else dirlinkLoop dp k (off + 16)
    else pure off

def dirlink (dp : Nat) (name : List UInt8) (inum : Nat) : Op Int := do
  match ← dirlookup dp name with
  | some ip => do
    uiput ip
    pure (-1)
  | none => do
    let s ← get
    let off ← dirlinkLoop dp ((s.inodes dp).d.size / 16 + 1) 0
    let r ← uwritei dp (mkDirent inum (strncpy name dirsiz)) off
    if r ≠ 16 then throw .exit
    else pure 0

/-- The character `/`. -/
def slash : UInt8 := 47

def skipSlashes (p : List UInt8) : List UInt8 := p.dropWhile (· == slash)

/-- The first component of a path, as it is put into `char name[DIRSIZ]`:
cut to leave room for the NUL. -/
def component (p : List UInt8) : List UInt8 :=
  (p.takeWhile (· != slash)).take (dirsiz - 1)

def afterComponent (p : List UInt8) : List UInt8 :=
  skipSlashes (p.dropWhile (· != slash))

/-- `namei`'s loop over the components of `p`, at the inode `ip`. -/
def nameiLoop : Nat → Option Nat → List UInt8 → Op (Option Nat)
  | 0, ip, _ => pure ip
  | k + 1, ip, p =>
    if p.isEmpty then pure ip
    else
      match ip with
      | none => throw .nullDeref
      | some ip => do
        uilock ip
        let s ← get
        if (s.inodes ip).d.type ≠ tDir then do
          uiput ip
          pure none
        else
          match ← dirlookup ip (component p) with
          | none => do
            uiput ip
            pure none
          | some next => do
            uiput ip
            nameiLoop k (some next) (afterComponent p)

def namei (path : List UInt8) : Op (Option Nat) := do
  let ip ← uiget rootDev rootIno
  nameiLoop (path.length + 1) ip (skipSlashes path)

/-- `ialloc`'s loop over `n` inode numbers from `inum` on. -/
def iallocLoop (type : Nat) : Nat → Nat → Op (Option Nat)
  | 0, _ => pure none
  | n + 1, inum => do
    let s ← get
    match ← ubread rootDev (iblock inum s.sb) with
    | none => iallocLoop type n (inum + 1)
    | some bp => do
      let t ← get
      if (getDInode (t.bufs bp).data (inum % ipb)).type = 0 then do
        setBuf bp fun b =>
          { b with data := putDInode b.data (inum % ipb) (.fresh type) }
        ubwrite bp
        ubrelse bp
        uiget rootDev inum
      else do
        ubrelse bp
        iallocLoop type n (inum + 1)

def ialloc (type : Nat) : Op (Option Nat) := do
  let s ← get
  iallocLoop type (s.sb.ninodes - 1) 1

-- ==== descriptors

/-- Bit `k` of an `int`. -/
def hasFlag (flags : Int) (k : Nat) : Bool := flags / 2 ^ k % 2 == 1

/-- `flags & O_WRONLY`. -/
def wrOnly (flags : Int) : Bool := hasFlag flags 0

/-- `flags & O_RDWR`. -/
def rdWr (flags : Int) : Bool := hasFlag flags 1

/-- `flags & O_CREATE`. -/
def oCreate (flags : Int) : Bool := hasFlag flags 9

def allocRemoteFd (ownerPid flags : Int) : Op (Option Nat) := do
  let s ← get
  match first (fun i => !(s.fdTable i).used) 0 maxRemoteFds with
  | some i => do
    modify fun s => s.setFd i fun _ =>
      { used := true
        ownerPid := ownerPid
        fd := i
        off := 0
        readable := !wrOnly flags
        writable := wrOnly flags || rdWr flags }
    pure (some i)
  | none => pure none

/-- `lookup_remote_fd`: the entry's index. -/
def Srv.lookupRemoteFd (s : Srv) (ownerPid remoteFd : Int) : Option Nat :=
  if remoteFd < 0 ∨ (maxRemoteFds : Int) ≤ remoteFd then none
  else if (s.fdTable remoteFd.toNat).used = false then none
  else if (s.fdTable remoteFd.toNat).ownerPid ≠ ownerPid then none
  else some remoteFd.toNat

/-- `close_all_for_owner`'s loop over `n` entries from `i` on. -/
def closeAllLoop (ownerPid : Int) : Nat → Nat → Op Unit
  | 0, _ => pure ()
  | n + 1, i => do
    let s ← get
    if (s.fdTable i).used ∧ (s.fdTable i).ownerPid = ownerPid then do
      modify fun s => s.setFd i fun e => { e with used := false }
      match s.fdInodes i with
      | some ip => do
        uiput ip
        modify fun s => { s with fdInodes := update s.fdInodes i none }
        closeAllLoop ownerPid n (i + 1)
      | none => closeAllLoop ownerPid n (i + 1)
    else closeAllLoop ownerPid n (i + 1)

def closeAllForOwner (ownerPid : Int) : Op Unit :=
  closeAllLoop ownerPid maxRemoteFds 0

-- ==== main loop

/-- The string at `req.path`: up to the first NUL, which is looked for in
the bytes of the message from there on (`data` follows `path`). -/
def cString (req : IpcMsg) : Option (List UInt8) :=
  let bytes := req.path.slice 0 Ipc.ipcPathSize ++ req.data.slice 0 ipcDataSize
  if bytes.contains 0 then some (bytes.takeWhile (· != 0)) else none

/-- `send_reply(..., -1, fd, 0, 0)`. -/
def failed (fd : Int) : Answer := ⟨-1, fd, 0, Bytes.zero⟩

/-- The creation of a file in the root directory, after `namei` did not
find it. -/
def create (path : List UInt8) : Op (Option Nat) := do
  let name := component (skipSlashes path)
  match ← uiget rootDev rootIno with
  | none => pure none
  | some dp => do
    uilock dp
    match ← ialloc tFile with
    | none => do
      uiput dp
      pure none
    | some ip => do
      uilock ip
      setInode ip fun n => { n with d := { n.d with nlink := 1 } }
      uiupdate ip
      let s ← get
      let r ← dirlink dp name (s.inodes ip).inum
      if r < 0 then do
        setInode ip fun n => { n with d := { n.d with nlink := 0 } }
        uiupdate ip
        uiput ip
        uiput dp
        pure none
      else do
        uiput dp
        pure (some ip)

/-- `OPEN`'s search for the file, which `O_CREATE` turns into a creation
when it fails. -/
def openInode (path : List UInt8) (flags : Int) : Op (Option Nat) := do
  match ← namei path with
  | some ip => pure (some ip)
  | none => if oCreate flags then create path else pure none

/-- The end of `OPEN`: a descriptor for the inode. -/
def openFd (pid flags : Int) (ip : Nat) : Op Answer := do
  match ← allocRemoteFd pid flags with
  | none => do
    uiput ip
    pure (failed (-1))
  | some fd => do
    modify fun s => { s with fdInodes := update s.fdInodes fd (some ip) }
    pure ⟨fd, fd, 0, Bytes.zero⟩

def fsOpen (req : IpcMsg) : Op Answer := do
  match cString req with
  | none => throw .overrun
  | some path => do
    match ← openInode path req.flags with
    | none => pure (failed (-1))
    | some ip => do
      uilock ip
      openFd req.senderPid req.flags ip

/-- `n = req.nbytes; if(n > IPC_DATA_SIZE) n = IPC_DATA_SIZE;`. The kernel
lets no negative length through. -/
def clampLen (req : IpcMsg) : Nat := min req.nbytes.toNat ipcDataSize

def fsRead (req : IpcMsg) : Op Answer := do
  let s ← get
  match s.lookupRemoteFd req.senderPid req.fd with
  | none => pure (failed req.fd)
  | some fd =>
    if (s.fdTable fd).readable = false then pure (failed req.fd)
    else
      match s.fdInodes fd with
      | none => pure (failed req.fd)
      | some ip =>
        let off := (s.fdTable fd).off
        let size := (s.inodes ip).d.size
        if size ≤ off then pure ⟨0, req.fd, 0, Bytes.zero⟩
        else do
          match ← ureadi ip off (min (clampLen req) (size - off)) with
          | none => pure (failed req.fd)
          | some bs => do
            modify fun s => s.setFd fd fun e =>
              { e with off := e.off + bs.length }
            pure ⟨bs.length, req.fd, bs.length,
              Bytes.ofFn fun i => bs.getD i 0⟩

def fsWrite (req : IpcMsg) : Op Answer := do
  let s ← get
  match s.lookupRemoteFd req.senderPid req.fd with
  | none => pure (failed req.fd)
  | some fd =>
    if (s.fdTable fd).writable = false then pure (failed req.fd)
    else
      match s.fdInodes fd with
      | none => pure (failed req.fd)
      | some ip => do
        let n ← uwritei ip (req.data.slice 0 (clampLen req)) (s.fdTable fd).off
        if n < 0 then pure (failed req.fd)
        else do
          modify fun s => s.setFd fd fun e => { e with off := e.off + n.toNat }
          pure ⟨n, req.fd, 0, Bytes.zero⟩

def fsClose (req : IpcMsg) : Op Answer := do
  let s ← get
  match s.lookupRemoteFd req.senderPid req.fd with
  | none => pure (failed req.fd)
  | some fd => do
    match s.fdInodes fd with
    | some ip => do
      uiput ip
      modify fun s => { s with fdInodes := update s.fdInodes fd none }
    | none => pure ()
    modify fun s => s.setFd fd fun e => { e with used := false }
    pure ⟨0, req.fd, 0, Bytes.zero⟩

/-- What `main`'s loop does with one request: the answer it passes to
`send_reply`, or nothing for a `CLIENT_EXIT`. -/
def handle (req : IpcMsg) : Op (Option Answer) := do
  if req.type = IpcMsgType.fsShutdown.code then do
    closeAllForOwner req.senderPid
    pure (some ⟨0, -1, 0, Bytes.zero⟩)
  else if req.type = IpcMsgType.fsClientExit.code then do
    closeAllForOwner req.senderPid
    pure none
  else if req.type = IpcMsgType.fsOpen.code then some <$> fsOpen req
  else if req.type = IpcMsgType.fsRead.code then some <$> fsRead req
  else if req.type = IpcMsgType.fsWrite.code then some <$> fsWrite req
  else if req.type = IpcMsgType.fsClose.code then some <$> fsClose req
  else pure (some (failed req.fd))

-- ==== start-up

def UBuf.zero : UBuf where
  valid := false
  dev := 0
  blockno := 0
  refcnt := 0
  data := Bytes.zero

def UInode.zero : UInode where
  dev := 0
  inum := 0
  ref := 0
  d := .fresh 0
  valid := false

def FdEntry.zero : FdEntry where
  used := false
  ownerPid := 0
  fd := 0
  off := 0
  readable := false
  writable := false

/-- The server's zeroed static data over a disk. -/
def Srv.zero (disk : Disk) (diskOk : Nat → Bool) : Srv where
  disk := disk
  diskOk := diskOk
  io := 0
  written := []
  bufs := fun _ => .zero
  inodes := fun _ => .zero
  sb := ⟨0, 0, 0, 0, 0, 0, 0⟩
  fdTable := fun _ => .zero
  fdInodes := fun _ => none

/-- The server when it enters its loop. -/
def Srv.boot (disk : Disk) (diskOk : Nat → Bool) : Srv :=
  (exec readsb (.zero disk diskOk)).2

/-- The machine of `main`'s loop: one request, handled to its end. -/
def Srv.serve (s : Srv) (req : IpcMsg) : Option Srv :=
  match exec (handle req) s with
  | (.ok _, t) => some t
  | (.error _, _) => none

theorem Srv.serve_some {s t : Srv} {req : IpcMsg} (h : s.serve req = some t) :
    ∃ r, exec (handle req) s = (.ok r, t) := by
  unfold Srv.serve at h
  split at h
  next r u hexec =>
    cases h
    exact ⟨r, hexec⟩
  next => cases h

end Xv6FsServer.Server
