/-
The kernel's side of a remote file: `struct file` and the descriptor
tables (file.c, sysfile.c, and fork and exit of proc.c), over the server
of `Server/Model.lean`.

# What one step is

A system call is cut where another process can run. `fs_ipc_call` is one
exchange with the process registered as the server: request, handler and
reply in one step (`Files/Proofs/Atomic.lean` holds that against the
protocol machine, with one server). The call's steps on the kernel's own tables are
steps of their own, so an open is `sysOpen` (the exchange) and then
`sysOpenEnd` (the slots), or `sysOpenUndo` when there is no slot, and a
close is `sysClose` and then `sysCloseEnd`. A read or a write is one step
a chunk. A `CLIENT_EXIT` is queued by `exit` and handled by `exitSeen`.

# What is left out

Pipes, and the fields of `struct file` that only local files use; local
files are there, since they take slots. Processes are known by their
pids, which `allocproc` never gives out twice, and are not killed. Where
the server's handler does not return, the exchange is not a step.

The fields marked as history decide nothing: which open made a file, and
the accesses that were answered.
-/
import Xv6FsServer.Server.Model

namespace Xv6FsServer.Files

open Lib Function
open Ipc (IpcMsg IpcMsgType Answer ipcPathSize ipcDataSize clientExitMsg)
open Server (Srv handle wrOnly rdWr)

/-- `NOFILE`: open files per process. -/
def nofile : Nat := 16

/-- `NFILE`: open files per system. -/
def nfile : Nat := 100

-- ==== file.h

/-- The kinds of `struct file` (`FD_NONE`, `FD_INODE`, `FD_REMOTE`). -/
inductive FileType
  | none
  | inode
  | remote
  deriving DecidableEq, Repr

/-- `struct file`. -/
structure File where
  type : FileType
  ref : Nat
  readable : Bool
  writable : Bool
  remoteFd : Int
  remoteOwner : Int
  deriving DecidableEq, Repr

/-- What `filealloc` leaves in a slot. -/
def File.fresh : File where
  type := .none
  ref := 1
  readable := false
  writable := false
  remoteFd := -1
  remoteOwner := -1

/-- An unused slot. -/
def File.zero : File := { File.fresh with ref := 0, remoteFd := 0, remoteOwner := 0 }

/-- `filedup`. -/
def File.dup (f : File) : File := { f with ref := f.ref + 1 }

/-- `fileclose`: one reference less, and a free slot after the last. -/
def File.close (f : File) : File :=
  if 0 < f.ref - 1 then { f with ref := f.ref - 1 }
  else { f with ref := 0, type := .none, remoteFd := -1, remoteOwner := -1 }

-- ==== state

/-- The open that made a remote file: who called, which server answered,
and the inode the path led to. -/
structure Origin where
  opener : Nat
  server : Nat
  inum : Nat
  deriving DecidableEq, Repr

/-- How far a process is in a file call. -/
inductive Call
  | none
  /-- `OPEN` was answered with descriptor `fd`; the slots come next. -/
  | opened (server : Nat) (omode fd : Int) (inum : Nat)
  /-- No slot was left: descriptor `fd` has to be given back. -/
  | undoing (server : Nat) (omode fd : Int) (inum : Nat)
  /-- `CLOSE` is done at the server; descriptor `fd` is still here. -/
  | closing (fd : Nat)
  deriving DecidableEq, Repr

structure Proc where
  alive : Bool
  ofile : Nat → Option Nat
  call : Call

/-- A read or a write that the server answered. -/
structure Access where
  file : File
  origin : Origin
  caller : Nat
  server : Nat
  before : Srv
  req : IpcMsg
  ans : Answer

structure Sys where
  procs : Nat → Proc
  files : Nat → File
  servers : Nat → Option Srv
  fsserverPid : Int
  /-- The `CLIENT_EXIT` messages on their way: from whom, to whom. -/
  exits : List (Nat × Nat)
  nextpid : Nat
  /-- History: the open that made each file. -/
  origin : Nat → Origin
  /-- History: the accesses so far. -/
  log : List Access

/-- The first process, before any server is started. -/
def Sys.start : Sys where
  procs := fun p => ⟨p == 1, fun _ => none, .none⟩
  files := fun _ => .zero
  servers := fun _ => none
  fsserverPid := -1
  exits := []
  nextpid := 2
  origin := fun _ => ⟨0, 0, 0⟩
  log := []

def Sys.setProc (w : Sys) (p : Nat) (P : Proc) : Sys :=
  { w with procs := update w.procs p P }

def Sys.setFile (w : Sys) (f : Nat) (F : File) : Sys :=
  { w with files := update w.files f F }

def Sys.setServer (w : Sys) (S : Nat) (s : Option Srv) : Sys :=
  { w with servers := update w.servers S s }

/-- Process `p` goes to another point of its call. -/
def Sys.setCall (w : Sys) (p : Nat) (c : Call) : Sys :=
  w.setProc p { w.procs p with call := c }

/-- Process `p` is in no call. -/
def Sys.idle (w : Sys) (p : Nat) : Bool :=
  (w.procs p).alive && (w.procs p).call == .none

/-- The inode behind a server's descriptor. -/
def fileOf (s : Srv) (fd : Int) : Option Nat :=
  (s.fdInodes fd.toNat).map fun ip => (s.inodes ip).inum

-- ==== fs_ipc_call

/-- `fsserver_active`, as process `p` finds it. -/
def Sys.fsserverActive (w : Sys) (p : Nat) : Bool :=
  decide (0 < w.fsserverPid ∧ w.fsserverPid ≠ p)

/-- What `fs_ipc_call` comes back with: -1, or the reply of a server that
was in state `before`. -/
inductive Reply
  | failed
  | answered (server : Nat) (before : Srv) (ans : Answer)

/-- `fs_ipc_call`. -/
def Sys.fsIpcCall (w : Sys) (p : Nat) (req : IpcMsg) : Option (Reply × Sys) :=
  if w.fsserverPid < 0 then some (.failed, w)
  else
    match w.servers w.fsserverPid.toNat with
    | none => some (.failed, w)
    | some s =>
      match exec (handle (req.from p)) s with
      | (.ok (some ans), t) =>
        some (.answered w.fsserverPid.toNat s ans,
          w.setServer w.fsserverPid.toNat (some t))
      | (.ok none, _) => none
      | (.error _, _) => none

def openReq (path : List UInt8) (omode : Int) : IpcMsg :=
  { IpcMsg.zero with
    type := IpcMsgType.fsOpen.code
    flags := omode
    path := Bytes.zero.blit 0 path }

def readReq (remoteFd : Int) (chunk : Nat) : IpcMsg :=
  { IpcMsg.zero with
    type := IpcMsgType.fsRead.code
    fd := remoteFd
    nbytes := chunk }

def writeReq (remoteFd : Int) (chunk : List UInt8) : IpcMsg :=
  { IpcMsg.zero with
    type := IpcMsgType.fsWrite.code
    fd := remoteFd
    nbytes := chunk.length
    data := Bytes.zero.blit 0 chunk }

def closeReq (remoteFd : Int) : IpcMsg :=
  { IpcMsg.zero with type := IpcMsgType.fsClose.code, fd := remoteFd }

-- ==== the slots

/-- `filealloc`'s choice. -/
def Sys.filealloc (w : Sys) : Option Nat :=
  first (fun f => (w.files f).ref == 0) 0 nfile

/-- `fdalloc`'s choice. -/
def fdalloc (ofile : Nat → Option Nat) : Option Nat :=
  first (fun fd => (ofile fd).isNone) 0 nofile

/-- A file of `F`'s kind in the slots both allocators found. -/
def Sys.install (w : Sys) (p f fd : Nat) (F : File) : Sys :=
  (w.setFile f F).setProc p
    { w.procs p with ofile := update (w.procs p).ofile fd (some f), call := .none }

/-- `proc->ofile[fd] = 0; fileclose(f)`. -/
def Sys.drop (w : Sys) (p fd f : Nat) : Sys :=
  (w.setFile f (w.files f).close).setProc p
    { w.procs p with ofile := update (w.procs p).ofile fd none, call := .none }

/-- `readable` and `writable` as both sides take them from the mode. -/
def remoteFile (omode remoteFd remoteOwner : Int) : File :=
  { File.fresh with
    type := .remote
    readable := !wrOnly omode
    writable := wrOnly omode || rdWr omode
    remoteFd := remoteFd
    remoteOwner := remoteOwner }

/-- fork's `filedup` of the first `n` descriptors. -/
def dupFiles (ofile : Nat → Option Nat) : Nat → (Nat → File) → Nat → File
  | 0, files => files
  | n + 1, files =>
    match ofile n with
    | none => dupFiles ofile n files
    | some f =>
      update (dupFiles ofile n files) f (dupFiles ofile n files f).dup

/-- exit's `fileclose` of the first `n` descriptors. -/
def closeFiles (ofile : Nat → Option Nat) : Nat → (Nat → File) → Nat → File
  | 0, files => files
  | n + 1, files =>
    match ofile n with
    | none => closeFiles ofile n files
    | some f =>
      update (closeFiles ofile n files) f (closeFiles ofile n files f).close

-- ==== the system calls

/-- `sys_open` up to the server's reply. -/
def Sys.sysOpen (w : Sys) (p : Nat) (path : List UInt8) (omode : Int) :
    Option Sys :=
  if ipcPathSize ≤ path.length then some w
  else
    match w.fsIpcCall p (openReq path omode) with
    | none => none
    | some (.failed, w') => some w'
    | some (.answered S _ ans, w') =>
      if ans.result < 0 then some w'
      else
        let inum := ((w'.servers S).bind fun s => fileOf s ans.fd).getD 0
        some (w'.setCall p (.opened S omode ans.fd inum))

/-- The rest of `sys_open` after a reply. -/
def Sys.sysOpenEnd (w : Sys) (p : Nat) : Option Sys :=
  match (w.procs p).call with
  | .opened S omode remoteFd inum =>
    match w.filealloc with
    | none => some (w.setCall p (.undoing S omode remoteFd inum))
    | some f =>
      match fdalloc (w.procs p).ofile with
      | none =>
        some ((w.setFile f File.fresh.close).setCall p
          (.undoing S omode remoteFd inum))
      | some fd =>
        some { w.install p f fd (remoteFile omode remoteFd w.fsserverPid) with
          origin := update w.origin f ⟨p, S, inum⟩ }
  | _ => none

/-- `sys_open`'s second request, when it found no slot. -/
def Sys.sysOpenUndo (w : Sys) (p : Nat) : Option Sys :=
  match (w.procs p).call with
  | .undoing _ _ remoteFd _ =>
    match w.fsIpcCall p (closeReq remoteFd) with
    | none => none
    | some (_, w') => some (w'.setCall p .none)
  | _ => none

/-- `sys_open` of a file the kernel serves itself. -/
def Sys.sysOpenLocal (w : Sys) (p : Nat) (omode : Int) : Option Sys :=
  match w.filealloc with
  | none => some w
  | some f =>
    match fdalloc (w.procs p).ofile with
    | none => some (w.setFile f File.fresh.close)
    | some fd =>
      some (w.install p f fd { remoteFile omode (-1) (-1) with type := .inode })

def Sys.sysDup (w : Sys) (p fd : Nat) : Option Sys :=
  match (w.procs p).ofile fd with
  | none => some w
  | some f =>
    if (w.files f).type = .remote then some w
    else
      match fdalloc (w.procs p).ofile with
      | none => some w
      | some fd' => some (w.install p f fd' (w.files f).dup)

/-- One chunk of `sys_read` or `sys_write`. -/
def Sys.sysAccess (w : Sys) (p fd : Nat) (req : Int → IpcMsg) : Option Sys :=
  match (w.procs p).ofile fd with
  | none => some w
  | some f =>
    if (w.files f).type = .remote then
      match w.fsIpcCall p (req (w.files f).remoteFd) with
      | none => none
      | some (.failed, w') => some w'
      | some (.answered S s ans, w') =>
        some { w' with
          log := w'.log ++ [⟨w.files f, w.origin f, p, S, s,
            req (w.files f).remoteFd, ans⟩] }
    else some w

/-- `sys_close` up to the server's reply, which decides nothing. -/
def Sys.sysClose (w : Sys) (p fd : Nat) : Option Sys :=
  match (w.procs p).ofile fd with
  | none => some w
  | some f =>
    if (w.files f).type = .remote then
      match w.fsIpcCall p (closeReq (w.files f).remoteFd) with
      | none => none
      | some (_, w') => some (w'.setCall p (.closing fd))
    else some (w.drop p fd f)

def Sys.sysCloseEnd (w : Sys) (p : Nat) : Option Sys :=
  match (w.procs p).call with
  | .closing fd =>
    match (w.procs p).ofile fd with
    | none => none
    | some f => some (w.drop p fd f)
  | _ => none

def Sys.fork (w : Sys) (p : Nat) : Sys :=
  { w with
    files := dupFiles (w.procs p).ofile nofile w.files
    procs := update w.procs w.nextpid ⟨true, (w.procs p).ofile, .none⟩
    nextpid := w.nextpid + 1 }

/-- `exit`, of a server too: only then is `servers p` anything. -/
def Sys.exit (w : Sys) (p : Nat) : Sys :=
  { w with
    exits :=
      if w.fsserverActive p then w.exits ++ [(p, w.fsserverPid.toNat)] else w.exits
    files := closeFiles (w.procs p).ofile nofile w.files
    procs := update w.procs p ⟨false, fun _ => none, .none⟩
    servers := update w.servers p none
    fsserverPid := if w.fsserverPid = p then -1 else w.fsserverPid }

-- ==== the servers

/-- The server takes a `CLIENT_EXIT` of `p`; a server that has gone takes
nothing. -/
def Sys.exitSeen (w : Sys) (p S : Nat) : Option Sys :=
  if (p, S) ∈ w.exits then
    match w.servers S with
    | none => some { w with exits := w.exits.erase (p, S) }
    | some s =>
      match exec (handle (clientExitMsg.from p)) s with
      | (.ok _, t) =>
        some { w.setServer S (some t) with exits := w.exits.erase (p, S) }
      | (.error _, _) => none
  else none

/-- Process `p` runs fsserver: it registers and enters its loop. -/
def Sys.register (w : Sys) (p : Nat) (disk : Disk) (diskOk : Nat → Bool) : Sys :=
  { w.setServer p (some (Srv.boot disk diskOk)) with fsserverPid := p }

-- ==== the steps

inductive Act
  | sysOpen (p : Nat) (path : List UInt8) (omode : Int)
  | sysOpenEnd (p : Nat)
  | sysOpenUndo (p : Nat)
  | sysOpenLocal (p : Nat) (omode : Int)
  | sysDup (p fd : Nat)
  | sysRead (p fd chunk : Nat)
  | sysWrite (p fd : Nat) (chunk : List UInt8)
  | sysClose (p fd : Nat)
  | sysCloseEnd (p : Nat)
  | exec (p : Nat)
  | fork (p : Nat)
  | exit (p : Nat)
  | exitSeen (p S : Nat)
  | register (p : Nat) (disk : Disk) (diskOk : Nat → Bool)

/-- Calls are made by processes that are in none; fsserver makes none of
these. -/
def Sys.call (w : Sys) (p : Nat) (r : Option Sys) : Option Sys :=
  if w.idle p ∧ (w.servers p).isNone then r else none

def Sys.step (w : Sys) : Act → Option Sys
  | .sysOpen p path omode =>
    if w.fsserverActive p then w.call p (w.sysOpen p path omode) else none
  | .sysOpenEnd p => w.sysOpenEnd p
  | .sysOpenUndo p => w.sysOpenUndo p
  | .sysOpenLocal p omode =>
    if w.fsserverActive p then none else w.call p (w.sysOpenLocal p omode)
  | .sysDup p fd => w.call p (w.sysDup p fd)
  | .sysRead p fd chunk =>
    if 0 < chunk ∧ chunk ≤ ipcDataSize then
      w.call p (w.sysAccess p fd fun remoteFd => readReq remoteFd chunk)
    else none
  | .sysWrite p fd chunk =>
    if 0 < chunk.length ∧ chunk.length ≤ ipcDataSize then
      w.call p (w.sysAccess p fd fun remoteFd => writeReq remoteFd chunk)
    else none
  | .sysClose p fd => w.call p (w.sysClose p fd)
  | .sysCloseEnd p => w.sysCloseEnd p
  | .exec p => w.call p (some w)
  | .fork p => w.call p (some (w.fork p))
  | .exit p => if w.idle p then some (w.exit p) else none
  | .exitSeen p S => w.exitSeen p S
  | .register p disk diskOk => w.call p (some (w.register p disk diskOk))

end Xv6FsServer.Files
