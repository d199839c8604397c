/-
The system calls the kernel serves with its own file system: sysfile.c and
file.c, `fork` and `exit` of proc.c and what exec.c does with the file it
runs.

# State

The file system of `Kfs/Model.lean`, the table of open files and, of every
process, its descriptors and its current directory. Each call runs by
itself and is one step; a call that panics is none, since the machine stops
there.

# What is left out

A call whose arguments `argstr`, `argint` or `argptr` refuse returns -1
before it does anything. A pipe is its two files: what the pipe holds is not
looked at by any of this. The exchange with the file server is the subject
of `Files/Model.lean`; of a remote file there is its slot in the table here,
and whether the server accepted an open is an argument of the call. So is
what a device's driver, a pipe or the server gives to a read or takes of a
write (`ext`), whether there is memory for a pipe or a process, and which
parts of a program `exec` reads.
-/
import Xv6FsServer.Kfs.Model
import Xv6FsServer.Lib.Trace

namespace Xv6FsServer.Kfs

open Lib Fs Function

-- ==== names (sysfile.c)

/-- `nlink++` of a `short`. -/
def addLink (d : DInode) : DInode := { d with nlink := (d.nlink + 1) % 65536 }

/-- `nlink--`. -/
def dropLink (d : DInode) : DInode := { d with nlink := (d.nlink + 65535) % 65536 }

/-- The name `.`. -/
def dot : List UInt8 := [46]

/-- The name `..`. -/
def dotdot : List UInt8 := [46, 46]

/-- `isdirempty`'s loop over the entries from `off` on. -/
def isdiremptyLoop (dp : Nat) : Nat → Nat → Op Bool
  | 0, _ => pure true
  | k + 1, off => do
    let s ← get
    if off < (s.inodes dp).d.size then
      match ← readi dp off 16 with
      | none => throw .isdiremptyReadi
      | some de =>
        if de.length ≠ 16 then throw .isdiremptyReadi
        else if direntInum de ≠ 0 then pure false
        else isdiremptyLoop dp k (off + 16)
    else pure true

def isdirempty (dp : Nat) : Op Bool := do
  let s ← get
  isdiremptyLoop dp ((s.inodes dp).d.size / 16 + 1) 32

/-- `sys_link` from `bad` on. -/
def linkBad (ip : Nat) : Op Int := do
  ilock ip
  setD ip dropLink
  iupdate ip
  iunlockput ip
  pure (-1)

/-- `sys_link` in a process whose current directory is `cwd`. -/
def link (cwd : Nat) (old new : List UInt8) : Op Int := do
  match ← namei cwd old with
  | none => pure (-1)
  | some ip => do
    ilock ip
    let s ← get
    if (s.inodes ip).d.type = tDir then do
      iunlockput ip
      pure (-1)
    else do
      setD ip addLink
      iupdate ip
      match ← nameiparent cwd new with
      | none => linkBad ip
      | some (dp, name) => do
        ilock dp
        let s ← get
        if (s.inodes dp).dev ≠ (s.inodes ip).dev then do
          iunlockput dp
          linkBad ip
        else do
          let r ← dirlink dp name (s.inodes ip).inum
          if r < 0 then do
            iunlockput dp
            linkBad ip
          else do
            iunlockput dp
            iput ip
            pure 0

/-- `ip->type == T_DIR && !isdirempty(ip)`. -/
def inUse (ip : Nat) : Op Bool := do
  let s ← get
  if (s.inodes ip).d.type = tDir then (!·) <$> isdirempty ip else pure false

/-- The link that `..` of a directory `ip` was to `dp`. -/
def dropParent (dp ip : Nat) : Op Unit := do
  let s ← get
  if (s.inodes ip).d.type = tDir then do
    setD dp dropLink
    iupdate dp
  else pure ()

/-- `sys_unlink` from the zeroed entry on: the entry at `off` of `dp` goes,
and with it a link of `ip`. -/
def unlinkEntry (dp ip off : Nat) : Op Int := do
  let r ← writei dp (List.replicate 16 0) off
  if r ≠ 16 then throw .unlinkWritei
  else do
    dropParent dp ip
    iunlockput dp
    setD ip dropLink
    iupdate ip
    iunlockput ip
    pure 0

def unlink (cwd : Nat) (path : List UInt8) : Op Int := do
  match ← nameiparent cwd path with
  | none => pure (-1)
  | some (dp, name) => do
    ilock dp
    if namecmp name dot || namecmp name dotdot then do
      iunlockput dp
      pure (-1)
    else
      match ← dirlookup dp name with
      | none => do
        iunlockput dp
        pure (-1)
      | some (ip, off) => do
        ilock ip
        let s ← get
        -- `nlink < 1` of a `short`
        if (s.inodes ip).d.nlink = 0 ∨ 32768 ≤ (s.inodes ip).d.nlink then
          throw .unlinkNlink
        else do
          let busy ← inUse ip
          if busy then do
            iunlockput ip
            iunlockput dp
            pure (-1)
          else unlinkEntry dp ip off

/-- `create`'s part for a directory: the entries `.` and `..`. -/
def createDots (dp ip type : Nat) : Op Unit :=
  if type = tDir then do
    setD dp addLink
    iupdate dp
    let s ← get
    let r ← dirlink ip dot (s.inodes ip).inum
    if r < 0 then throw .createDots
    else do
      let r ← dirlink ip dotdot (s.inodes dp).inum
      if r < 0 then throw .createDots else pure ()
  else pure ()

/-- `create` of a name that is not there. -/
def createNew (dp : Nat) (name : List UInt8) (type major minor : Nat) :
    Op (Option Nat) := do
  let ip ← ialloc type
  ilock ip
  setD ip fun d =>
    { d with major := major % 65536, minor := minor % 65536, nlink := 1 }
  iupdate ip
  createDots dp ip type
  let s ← get
  let r ← dirlink dp name (s.inodes ip).inum
  if r < 0 then throw .createDirlink
  else do
    iunlockput dp
    pure (some ip)

def create (cwd : Nat) (path : List UInt8) (type major minor : Nat) :
    Op (Option Nat) := do
  match ← nameiparent cwd path with
  | none => pure none
  | some (dp, name) => do
    ilock dp
    match ← dirlookup dp name with
    | some (ip, _) => do
      iunlockput dp
      ilock ip
      let s ← get
      if type = tFile ∧ (s.inodes ip).d.type = tFile then pure (some ip)
      else do
        iunlockput ip
        pure none
    | none => createNew dp name type major minor

/-- `sys_mkdir` and `sys_mknod`: `create`, and nothing is kept open. -/
def createAndPut (cwd : Nat) (path : List UInt8) (type major minor : Nat) :
    Op Int := do
  match ← create cwd path type major minor with
  | none => pure (-1)
  | some ip => do
    iunlockput ip
    pure 0

def mkdir (cwd : Nat) (path : List UInt8) : Op Int := createAndPut cwd path tDir 0 0

def mknod (cwd : Nat) (path : List UInt8) (major minor : Nat) : Op Int :=
  createAndPut cwd path tDev major minor

/-- `O_RDONLY`, and the bits of the other modes (fcntl.h). -/
def oRdonly : Nat := 0
def oWronly (omode : Nat) : Bool := omode.testBit 0
def oRdwr (omode : Nat) : Bool := omode.testBit 1
def oCreate (omode : Nat) : Bool := omode.testBit 9

/-- `sys_open` up to the inode. -/
def openInode (cwd : Nat) (path : List UInt8) (omode : Nat) : Op (Option Nat) := do
  if oCreate omode then create cwd path tFile 0 0
  else
    match ← namei cwd path with
    | none => pure none
    | some ip => do
      ilock ip
      let s ← get
      if (s.inodes ip).d.type = tDir ∧ omode ≠ oRdonly then do
        iunlockput ip
        pure none
      else pure (some ip)

/-- `sys_chdir` up to the new directory. -/
def chdirInode (cwd : Nat) (path : List UInt8) : Op (Option Nat) := do
  match ← namei cwd path with
  | none => pure none
  | some ip => do
    ilock ip
    let s ← get
    if (s.inodes ip).d.type ≠ tDir then do
      iunlockput ip
      pure none
    else pure (some ip)

/-- `readi`, of a device too. -/
def readiDev (ext : Option (List UInt8)) (ip off n : Nat) :
    Op (Option (List UInt8)) := do
  let s ← get
  if (s.inodes ip).d.type = tDev then pure ext else readi ip off n

/-- `writei`, of a device too. -/
def writeiDev (ext : Int) (ip : Nat) (src : List UInt8) (off : Nat) : Op Int := do
  let s ← get
  if (s.inodes ip).d.type = tDev then pure ext else writei ip src off

/-- The reads of `exec`, at any offsets and of any lengths. -/
def execReads (ext : Option (List UInt8)) (ip : Nat) : List (Nat × Nat) → Op Unit
  | [] => pure ()
  | (off, n) :: rest => do
    let _ ← readiDev ext ip off n
    execReads ext ip rest

/-- `exec`: whatever it finds in the file, it puts the inode down once. -/
def execFile (cwd : Nat) (path : List UInt8) (ext : Option (List UInt8))
    (reads : List (Nat × Nat)) : Op Unit := do
  match ← namei cwd path with
  | none => pure ()
  | some ip => do
    ilock ip
    execReads ext ip reads
    iunlockput ip

-- ==== open files (file.c)

/-- `NFILE`. -/
def nfile : Nat := 100

/-- `NOFILE`. -/
def nofile : Nat := 16

/-- The kinds of `struct file`. -/
inductive FileType
  | none
  | pipe
  | inode
  | remote
  deriving DecidableEq, Repr

/-- `struct file`; a pointer to one is its index in `ftable`. -/
structure File where
  type : FileType
  ref : Nat
  readable : Bool
  writable : Bool
  ip : Nat
  off : Nat

/-- `struct proc`; the process is `live` from the end of `fork` to the end
of `exit`. -/
structure Proc where
  live : Bool
  ofile : Nat → Option Nat
  cwd : Nat

structure Kernel where
  fs : KFs
  ftable : Nat → File
  procs : Nat → Proc

/-- The messages of `panic`, those of the file system among them. -/
inductive Stop
  | fs (why : Panic)
  | filedup
  | fileclose
  | fileread
  | filewrite
  | shortFilewrite
  | initExiting
  deriving DecidableEq, Repr

abbrev Call : Type → Type := Prog Kernel Stop

/-- A call's work on the file system. -/
def onFs {α : Type} (x : Op α) : Call α := do
  let k ← get
  match exec x k.fs with
  | (.ok a, s) => do
    modify fun k => { k with fs := s }
    pure a
  | (.error e, _) => throw (.fs e)

def setFile (f : Nat) (g : File → File) : Call Unit :=
  modify fun k => { k with ftable := update k.ftable f (g (k.ftable f)) }

def setProc (p : Nat) (g : Proc → Proc) : Call Unit :=
  modify fun k => { k with procs := update k.procs p (g (k.procs p)) }

/-- `proc->ofile[fd] = v`. -/
def setOfile (p fd : Nat) (v : Option Nat) : Call Unit :=
  setProc p fun P => { P with ofile := update P.ofile fd v }

def filealloc : Call (Option Nat) := do
  let k ← get
  match first (fun f => (k.ftable f).ref == 0) 0 nfile with
  | some f => do
    setFile f fun _ => ⟨.none, 1, false, false, 0, 0⟩
    pure (some f)
  | none => pure none

def filedup (f : Nat) : Call Unit := do
  let k ← get
  if (k.ftable f).ref < 1 then throw .filedup
  else setFile f fun F => { F with ref := F.ref + 1 }

def fileclose (f : Nat) : Call Unit := do
  let k ← get
  if (k.ftable f).ref < 1 then throw .fileclose
  else if 0 < (k.ftable f).ref - 1 then setFile f fun F => { F with ref := F.ref - 1 }
  else do
    setFile f fun F => { F with ref := 0, type := .none }
    match (k.ftable f).type with
    | .inode => onFs (iput (k.ftable f).ip)
    | .pipe => pure ()
    | .remote => pure ()
    | .none => pure ()

/-- `if(r > 0) f->off += r`. -/
def advance (f : Nat) (r : Int) : Call Unit :=
  if 0 < r then setFile f fun F => { F with off := (F.off + r.toNat) % 4294967296 }
  else pure ()

/-- The result of a read: the number of bytes, or -1. -/
def readResult : Option (List UInt8) → Int
  | none => -1
  | some bytes => bytes.length

def fileread (ext : Option (List UInt8)) (f n : Nat) : Call Int := do
  let k ← get
  if (k.ftable f).readable = false then pure (-1)
  else
    match (k.ftable f).type with
    | .pipe => pure (readResult ext)
    | .inode => do
      onFs (ilock (k.ftable f).ip)
      let r ← onFs (readiDev ext (k.ftable f).ip (k.ftable f).off n)
      advance f (readResult r)
      pure (readResult r)
    | .remote => throw .fileread
    | .none => throw .fileread

/-- `filewrite`'s loop: the rest of the bytes goes out in pieces of at most
`max`. Returns whether all were written. -/
def filewriteLoop (ext : Nat → Int) (f max : Nat) : Nat → List UInt8 → Call Bool
  | 0, src => pure src.isEmpty
  | n + 1, src =>
    if src.isEmpty then pure true
    else do
      let k ← get
      let piece := src.take max
      onFs (ilock (k.ftable f).ip)
      let r ← onFs (writeiDev (ext piece.length) (k.ftable f).ip piece
        (k.ftable f).off)
      advance f r
      if r < 0 then pure false
      else if r ≠ piece.length then throw .shortFilewrite
      else filewriteLoop ext f max n (src.drop max)

/-- `((LOGSIZE-1-1-2) / 2) * 512`. -/
def writeMax : Nat := (logSize - 1 - 1 - 2) / 2 * 512

def filewrite (ext : Nat → Int) (f : Nat) (src : List UInt8) : Call Int := do
  let k ← get
  if (k.ftable f).writable = false then pure (-1)
  else
    match (k.ftable f).type with
    | .pipe => pure (ext src.length)
    | .inode => do
      let all ← filewriteLoop ext f writeMax src.length src
      pure (if all then src.length else -1)
    | .remote => throw .filewrite
    | .none => throw .filewrite

-- ==== descriptors (sysfile.c, pipe.c)

/-- `argfd`. -/
def argfd (p fd : Nat) : Call (Option Nat) := do
  let k ← get
  pure (if fd < nofile then (k.procs p).ofile fd else none)

/-- A descriptor for `f`, if there is one. -/
def fdalloc (p f : Nat) : Call (Option Nat) := do
  let k ← get
  match first (fun fd => ((k.procs p).ofile fd).isNone) 0 nofile with
  | some fd => do
    setOfile p fd (some f)
    pure (some fd)
  | none => pure none

def sysDup (p fd : Nat) : Call Int := do
  match ← argfd p fd with
  | none => pure (-1)
  | some f => do
    let k ← get
    if (k.ftable f).type = .remote then pure (-1)
    else
      match ← fdalloc p f with
      | none => pure (-1)
      | some fd' => do
        filedup f
        pure fd'

def sysRead (ext : Option (List UInt8)) (p fd n : Nat) : Call Int := do
  match ← argfd p fd with
  | none => pure (-1)
  | some f => do
    let k ← get
    if (k.ftable f).type = .remote then pure (readResult ext)
    else fileread ext f n

def sysWrite (ext : Nat → Int) (p fd : Nat) (src : List UInt8) : Call Int := do
  match ← argfd p fd with
  | none => pure (-1)
  | some f => do
    let k ← get
    if (k.ftable f).type = .remote then pure (ext src.length)
    else filewrite ext f src

/-- `sys_close`; of a remote file the server is told first. -/
def sysClose (p fd : Nat) : Call Int := do
  match ← argfd p fd with
  | none => pure (-1)
  | some f => do
    setOfile p fd none
    fileclose f
    pure 0

/-- `filealloc` and `fdalloc`, one behind the other: the file and its
descriptor, or neither. -/
def openSlots (p : Nat) : Call (Option (Nat × Nat)) := do
  match ← filealloc with
  | none => pure none
  | some f =>
    match ← fdalloc p f with
    | none => do
      fileclose f
      pure none
    | some fd => pure (some (f, fd))

/-- The fields an open sets. -/
def opened (type : FileType) (ip omode : Nat) (F : File) : File :=
  { F with
    type := type
    ip := ip
    off := 0
    readable := !oWronly omode
    writable := oWronly omode || oRdwr omode }

/-- `sys_open` without the server. -/
def sysOpen (p : Nat) (path : List UInt8) (omode : Nat) : Call Int := do
  let k ← get
  match ← onFs (openInode (k.procs p).cwd path omode) with
  | none => pure (-1)
  | some ip =>
    match ← openSlots p with
    | none => do
      onFs (iunlockput ip)
      pure (-1)
    | some (f, fd) => do
      setFile f (opened .inode ip omode)
      pure fd

/-- `sys_open` with the server, which has `accepted` the path or not. -/
def sysOpenRemote (p omode : Nat) (accepted : Bool) : Call Int := do
  if accepted then
    match ← openSlots p with
    | none => pure (-1)
    | some (f, fd) => do
      setFile f (opened .remote 0 omode)
      pure fd
  else pure (-1)

/-- `pipealloc`; `memory` is whether `kalloc` had a page. -/
def pipealloc (memory : Bool) : Call (Option (Nat × Nat)) := do
  match ← filealloc with
  | none => pure none
  | some f0 =>
    match ← filealloc with
    | none => do
      fileclose f0
      pure none
    | some f1 =>
      if memory then do
        setFile f0 fun F =>
          { F with type := .pipe, readable := true, writable := false }
        setFile f1 fun F =>
          { F with type := .pipe, readable := false, writable := true }
        pure (some (f0, f1))
      else do
        fileclose f0
        fileclose f1
        pure none

def sysPipe (p : Nat) (memory : Bool) : Call Int := do
  match ← pipealloc memory with
  | none => pure (-1)
  | some (rf, wf) =>
    match ← fdalloc p rf with
    | none => do
      fileclose rf
      fileclose wf
      pure (-1)
    | some fd0 =>
      match ← fdalloc p wf with
      | none => do
        setOfile p fd0 none
        fileclose rf
        fileclose wf
        pure (-1)
      | some _ => pure 0

def sysChdir (p : Nat) (path : List UInt8) : Call Int := do
  let k ← get
  match ← onFs (chdirInode (k.procs p).cwd path) with
  | none => pure (-1)
  | some ip => do
    onFs (iput (k.procs p).cwd)
    setProc p fun P => { P with cwd := ip }
    pure 0

/-- A call that only works on names. -/
def withCwd {α : Type} (p : Nat) (x : Nat → Op α) : Call α := do
  let k ← get
  onFs (x (k.procs p).cwd)

-- ==== processes (proc.c)

/-- fork's loop over `n` descriptors from `fd` on. -/
def forkFiles (p np : Nat) : Nat → Nat → Call Unit
  | 0, _ => pure ()
  | n + 1, fd => do
    let k ← get
    match (k.procs p).ofile fd with
    | none => forkFiles p np n (fd + 1)
    | some f => do
      filedup f
      setOfile np fd (some f)
      forkFiles p np n (fd + 1)

/-- `fork` into the slot `np`. -/
def fork (p np : Nat) : Call Unit := do
  forkFiles p np nofile 0
  let k ← get
  let cwd ← onFs (idup (k.procs p).cwd)
  setProc np fun P => { P with cwd := cwd, live := true }

/-- exit's loop over `n` descriptors from `fd` on. -/
def exitFiles (p : Nat) : Nat → Nat → Call Unit
  | 0, _ => pure ()
  | n + 1, fd => do
    let k ← get
    match (k.procs p).ofile fd with
    | none => exitFiles p n (fd + 1)
    | some f => do
      fileclose f
      setOfile p fd none
      exitFiles p n (fd + 1)

/-- `initproc`. -/
def initproc : Nat := 0

def exit (p : Nat) : Call Unit :=
  if p = initproc then throw .initExiting
  else do
    exitFiles p nofile 0
    let k ← get
    onFs (iput (k.procs p).cwd)
    setProc p fun P => { P with cwd := 0, live := false }

/-- `userinit`: the first process, in the root directory. -/
def userinit : Call Unit := do
  match ← onFs (namei 0 [slash]) with
  | none => pure ()
  | some ip => setProc initproc fun P => { P with cwd := ip, live := true }

-- ==== the runs

inductive Act
  | sysOpen (path : List UInt8) (omode : Nat)
  | sysOpenRemote (omode : Nat) (accepted : Bool)
  | sysClose (fd : Nat)
  | sysDup (fd : Nat)
  | sysPipe (memory : Bool)
  | sysRead (fd n : Nat) (ext : Option (List UInt8))
  | sysWrite (fd : Nat) (src : List UInt8) (ext : Nat → Int)
  | sysChdir (path : List UInt8)
  | sysMkdir (path : List UInt8)
  | sysMknod (path : List UInt8) (major minor : Nat)
  | sysLink (old new : List UInt8)
  | sysUnlink (path : List UInt8)
  | sysExec (path : List UInt8) (ext : Option (List UInt8)) (reads : List (Nat × Nat))
  /-- `np` is the slot `allocproc` found. -/
  | fork (np : Nat)
  | exit

/-- The call of process `p`. -/
def call (p : Nat) : Act → Call Unit
  | .sysOpen path omode => discard (sysOpen p path omode)
  | .sysOpenRemote omode accepted => discard (sysOpenRemote p omode accepted)
  | .sysClose fd => discard (sysClose p fd)
  | .sysDup fd => discard (sysDup p fd)
  | .sysPipe memory => discard (sysPipe p memory)
  | .sysRead fd n ext => discard (sysRead ext p fd n)
  | .sysWrite fd src ext => discard (sysWrite ext p fd src)
  | .sysChdir path => discard (sysChdir p path)
  | .sysMkdir path => discard (withCwd p fun cwd => mkdir cwd path)
  | .sysMknod path major minor =>
    discard (withCwd p fun cwd => mknod cwd path major minor)
  | .sysLink old new => discard (withCwd p fun cwd => link cwd old new)
  | .sysUnlink path => discard (withCwd p fun cwd => unlink cwd path)
  | .sysExec path ext reads => withCwd p fun cwd => execFile cwd path ext reads
  | .fork np => fork p np
  | .exit => exit p

/-- `fork` needs a slot that no process is in. -/
def Kernel.allows (k : Kernel) : Act → Bool
  | .fork np => decide (np < nproc) && !(k.procs np).live
  | _ => true

/-- One call of a process, from its start to its end. -/
def Kernel.step (k : Kernel) (a : Nat × Act) : Option Kernel :=
  if a.1 < nproc ∧ (k.procs a.1).live ∧ k.allows a.2 then
    match exec (call a.1 a.2) k with
    | (.ok _, k') => some k'
    | (.error _, _) => none
  else none

/-- Before `userinit`: no process, no open file, no inode in use. -/
def Kernel.zero (disk : Disk) : Kernel where
  fs := ⟨disk, getSuperblock (disk 1), fun _ => ⟨0, 0, 0, false, .fresh 0⟩⟩
  ftable := fun _ => ⟨.none, 0, false, false, 0, 0⟩
  procs := fun _ => ⟨false, fun _ => none, 0⟩

/-- The kernel at work, with one process. -/
def Kernel.boot (disk : Disk) : Kernel := (exec userinit (Kernel.zero disk)).2

end Xv6FsServer.Kfs
