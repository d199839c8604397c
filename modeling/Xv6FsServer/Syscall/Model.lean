/-
System calls that take a buffer: `argptr` of syscall.c and the calls that
use it (sysfile.c, sysproc.c), up to where they go to memory through the
pointer they got.

`argptr` returns an `addr_t`, which is unsigned, and its callers ask whether
the result is negative. When the check fails it leaves the caller's pointer
as it was: an uninitialised local variable (`stack`).

A call is followed to its first access through the pointer. What happens
before that decides whether it refuses, and is modelled as the code has it;
what it returns once it has begun to copy is that of the transfer and stands
here as a parameter (`transfer`).
-/
import Xv6FsServer.Ipc.Message

namespace Xv6FsServer.Syscall

def pgSize : UInt64 := 4096

/-- What `walkpgdir` finds for an address: no page table, or an entry with
the flags `PTE_P` and `PTE_U`. -/
inductive Walk
  | noTable
  | entry (present user : Bool)
deriving DecidableEq

/-- The process that calls: its pointer argument, its size and page table,
what its kernel stack holds where the call keeps its pointer, and the result
of the transfer. -/
structure Caller where
  arg : UInt64
  sz : UInt64
  stack : UInt64
  pages : UInt64 → Walk
  transfer : Option Int

/-- What a call came to: its result, if it returns, and the pointer it went to
memory through, if it did. -/
structure Outcome where
  ret : Option Int
  used : Option UInt64
deriving DecidableEq

def Outcome.returns (r : Int) : Outcome := ⟨some r, none⟩

/-- A panic or a fault in the kernel. -/
def Outcome.stops : Outcome := ⟨none, none⟩

def Caller.copies (c : Caller) (p : UInt64) : Outcome := ⟨c.transfer, some p⟩

/-- `argptr(n, pp, size)`: its result and what `*pp` holds then. -/
def argptr (c : Caller) (size : Int32) : UInt64 × UInt64 :=
  if size < 0 ∨ c.sz ≤ c.arg.toUInt32.toUInt64
      ∨ c.sz < (c.arg.toUInt32 + size.toUInt32).toUInt64 then (-1, c.stack)
  else (0, c.arg)

/-- `if(argptr(n, &p, size) < 0) return -1;` and the rest of the call. -/
def withBuffer (c : Caller) (size : Int32) (rest : UInt64 → Outcome) : Outcome :=
  let r := argptr c size
  if r.1 < 0 then .returns (-1) else rest r.2

-- ==== the files

/-- How the first wait of a pipe's reader or writer ends, with the number of
bytes or places there are. -/
inductive PipeWait
  | abandoned
  | ready (count : Nat)
deriving DecidableEq

/-- How the console's first wait for input ends. -/
inductive ConsoleWait
  | abandoned
  | eof
  | char
deriving DecidableEq

/-- What an open file stands for, with what its functions look at. `remote`
has the server's first reply (`result` and `nbytes`). -/
inductive Target
  | remote (reply : Option (Int × Int))
  | pipe (wait : PipeWait)
  | inode (off size : UInt32)
  | console (wait : ConsoleWait)
  /-- A device without a driver. -/
  | nodev
deriving DecidableEq

structure File where
  readable : Bool
  writable : Bool
  target : Target
deriving DecidableEq

/-- `readi`, for a regular file. -/
def readi (c : Caller) (p : UInt64) (off size n : UInt32) : Outcome :=
  if size < off ∨ off + n < off then .returns (-1)
  else
    let n := if size < off + n then size - off else n
    if n = 0 then .returns 0 else c.copies p

/-- `MAXFILE*BSIZE` -/
def maxBytes : UInt32 := 71680

/-- `writei` of the first `n` bytes; `filewrite` breaks off if it fails. -/
def writei (c : Caller) (p : UInt64) (off size n : UInt32) : Outcome :=
  if size < off ∨ off + n < off then .returns (-1)
  else if maxBytes < off + n then .returns (-1)
  else c.copies p

def fileread (c : Caller) (f : File) (p : UInt64) (n : Int32) : Outcome :=
  if f.readable = false then .returns (-1)
  else
    match f.target with
    | .remote _ => .stops
    | .pipe .abandoned => .returns (-1)
    | .pipe (.ready count) => if 0 < n ∧ 0 < count then c.copies p else .returns 0
    | .inode off size => readi c p off size n.toUInt32
    | .console wait =>
      if 0 < n then
        match wait with
        | .abandoned => .returns (-1)
        | .eof => .returns 0
        | .char => c.copies p
      else .returns 0
    | .nodev => .returns (-1)

/-- The most that `filewrite` writes at once: `((LOGSIZE-1-1-2) / 2) * 512`. -/
def maxChunk : Int32 := 6656

def filewrite (c : Caller) (f : File) (p : UInt64) (n : Int32) : Outcome :=
  if f.writable = false then .returns (-1)
  else
    match f.target with
    | .remote _ => .stops
    | .pipe wait =>
      if 0 < n then
        match wait with
        | .abandoned => .returns (-1)
        | .ready _ => c.copies p
      else .returns n.toInt
    | .inode off size =>
      if 0 < n then writei c p off size (if maxChunk < n then maxChunk else n).toUInt32
      else .returns (if n = 0 then 0 else -1)
    | .console _ =>
      if 0 < n then c.copies p else .returns (if n = 0 then 0 else -1)
    | .nodev => if n = 0 then .returns 0 else .returns (-1)

-- ==== the calls

/-- `sys_read` of a remote file. -/
def readRemote (c : Caller) (reply : Option (Int × Int)) (p : UInt64) (n : Int32) :
    Outcome :=
  if 0 < n then
    match reply with
    | none => .returns (-1)
    | some (result, nbytes) =>
      if result < 0 then .returns (-1)
      else if result < nbytes then .returns (-1)
      else if result = 0 then .returns 0
      else c.copies p
  else .returns 0

def sysRead (c : Caller) (file : Option File) (n : Int32) : Outcome :=
  match file with
  | none => .returns (-1)
  | some f =>
    withBuffer c n fun p =>
      match f.target with
      | .remote reply => readRemote c reply p n
      | _ => fileread c f p n

/-- The bytes of a remote write are copied into the request before it is
sent. -/
def sysWrite (c : Caller) (file : Option File) (n : Int32) : Outcome :=
  match file with
  | none => .returns (-1)
  | some f =>
    withBuffer c n fun p =>
      match f.target with
      | .remote _ => if 0 < n then c.copies p else .returns 0
      | _ => filewrite c f p n

/-- `sizeof(struct stat)` -/
def statSize : Int32 := 20

def sysFstat (c : Caller) (file : Option File) : Outcome :=
  match file with
  | none => .returns (-1)
  | some f =>
    withBuffer c statSize fun p =>
      match f.target with
      | .remote _ => .returns (-1)
      | .pipe _ => .returns (-1)
      | _ => c.copies p

/-- `sys_pipe`; `alloc` and `slots` say whether there are files and a page for
the pipe, and two free descriptors. -/
def sysPipe (c : Caller) (alloc slots : Bool) : Outcome :=
  withBuffer c 8 fun p =>
    if alloc = false then .returns (-1)
    else if slots = false then .returns (-1)
    else c.copies p

/-- `sizeof(struct ipc_msg)` -/
def ipcMsgSize : Int32 := 224

/-- `uva2ka`, which goes through the entry it may not have got. -/
def uva2ka (c : Caller) (va : UInt64) (found : Outcome) : Outcome :=
  match c.pages va with
  | .noTable => .stops
  | .entry present user =>
    if present = false then .returns (-1)
    else if user = false then .returns (-1)
    else found

def pgRoundDown (a : UInt64) : UInt64 := a &&& ~~~(pgSize - 1)

/-- `send`: `copyin` cuts the address of the page to 32 bits; `used` is the
pointer it is given. -/
def sysSend (c : Caller) : Outcome :=
  withBuffer c ipcMsgSize fun p =>
    uva2ka c (pgRoundDown p).toUInt32.toUInt64 (c.copies p)

/-- `recv`: `ipc_recv_msg` fails when the process is killed, then `copyout`. -/
def sysRecv (c : Caller) (killed : Bool) : Outcome :=
  withBuffer c ipcMsgSize fun p =>
    if killed = true then .returns (-1)
    else uva2ka c (pgRoundDown p) (c.copies p)

/-- `sys_disk_request`, called by the file server or by another process. -/
def sysDiskRequest (c : Caller) (server : Bool) (operation : Int32) : Outcome :=
  withBuffer c 512 fun p =>
    if server = false then .returns (-1)
    else if operation = 0 then c.copies p
    else if operation = 1 then c.copies p
    else .returns (-1)

inductive Call
  | sysRead (file : Option File) (n : Int32)
  | sysWrite (file : Option File) (n : Int32)
  | sysFstat (file : Option File)
  | sysPipe (alloc slots : Bool)
  | sysSend
  | sysRecv (killed : Bool)
  | sysDiskRequest (server : Bool) (operation : Int32)

def call (c : Caller) : Call → Outcome
  | .sysRead file n => sysRead c file n
  | .sysWrite file n => sysWrite c file n
  | .sysFstat file => sysFstat c file
  | .sysPipe alloc slots => sysPipe c alloc slots
  | .sysSend => sysSend c
  | .sysRecv killed => sysRecv c killed
  | .sysDiskRequest server operation => sysDiskRequest c server operation

/-- The size the call passes to `argptr`. -/
def Call.size : Call → Int32
  | .sysRead _ n => n
  | .sysWrite _ n => n
  | .sysFstat _ => statSize
  | .sysPipe _ _ => 8
  | .sysSend => ipcMsgSize
  | .sysRecv _ => ipcMsgSize
  | .sysDiskRequest _ _ => 512

end Xv6FsServer.Syscall
