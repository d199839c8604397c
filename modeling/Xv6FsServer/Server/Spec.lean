/-
The file store that the server implements.

A file is its type and its bytes, under its inode number; a directory is
the bytes of its entries. A descriptor is a file, an offset and a mode, and
belongs to a process. There are no blocks, no bitmap, no inodes in memory
and no buffers here.

`OPEN` follows the path through the directories, every component cut to
`DIRSIZ` bytes, and gives out the lowest free descriptor. `O_CREATE` of a
single name that is not there makes an empty file under the lowest free
inode number and enters it into the root. `READ` returns the bytes from the
offset on, `WRITE` lays its bytes over the file's; both move the offset.
-/
import Xv6FsServer.Fs.Creation
import Xv6FsServer.Server.Model

namespace Xv6FsServer.Server

open Lib Fs Function
open Ipc (IpcMsg IpcMsgType Answer ipcDataSize)

/-- An open file. -/
structure Fd where
  file : Nat
  off : Nat
  readable : Bool
  writable : Bool
  owner : Int
  deriving DecidableEq, Repr

structure Store where
  ninodes : Nat
  files : Nat → Option (Nat × List UInt8)
  fds : Nat → Option Fd

-- ==== descriptors

/-- The descriptor `fd` of the process `pid`. -/
def Store.held (st : Store) (pid fd : Int) : Option (Nat × Fd) :=
  if fd < 0 ∨ (maxRemoteFds : Int) ≤ fd then none
  else
    match st.fds fd.toNat with
    | none => none
    | some d => if d.owner = pid then some (fd.toNat, d) else none

/-- The lowest free descriptor, open on the file `i`. -/
def Store.grant (st : Store) (pid flags : Int) (i : Nat) : Store × Answer :=
  match first (fun f => (st.fds f).isNone) 0 maxRemoteFds with
  | none => (st, failed (-1))
  | some f =>
    ({ st with
        fds := update st.fds f (some
          { file := i
            off := 0
            readable := !wrOnly flags
            writable := wrOnly flags || rdWr flags
            owner := pid }) },
      ⟨f, f, 0, Bytes.zero⟩)

/-- All descriptors of `pid` are closed. -/
def Store.closeAll (st : Store) (pid : Int) : Store :=
  { st with fds := fun f => (st.fds f).filter fun d => d.owner != pid }

-- ==== files

/-- The entry for the inode `inum`. -/
def newEntry (name : List UInt8) (inum : Nat) : List UInt8 :=
  mkDirent inum (strncpy name dirsiz)

/-- The files after the creation of the inode `i` under `name`, in a root
directory that holds `bytes`. -/
def withFile (files : Nat → Option (Nat × List UInt8)) (bytes name : List UInt8)
    (i : Nat) : Nat → Option (Nat × List UInt8) :=
  update (update files i (some (tFile, []))) rootIno
    (some (tDir, addEntry bytes (newEntry name i)))

/-- The lowest inode number without a file. -/
def Store.freeFile (st : Store) : Option Nat :=
  first (fun i => (st.files i).isNone) 1 (st.ninodes - 1)

/-- A new file in the root. -/
def Store.create (st : Store) (name : List UInt8) : Option (Nat × Store) :=
  match st.freeFile, st.files rootIno with
  | some i, some (_, bytes) =>
    some (i, { st with files := withFile st.files bytes name i })
  | _, _ => none

-- ==== requests

def Store.openPath (st : Store) (pid flags : Int) (path : List UInt8) :
    Store × Answer :=
  match walk st.files dirsiz rootIno (components path) with
  | some i => st.grant pid flags i
  | none =>
    if oCreate flags then
      match components path with
      | [name] =>
        match st.create name with
        | some (i, st') => st'.grant pid flags i
        | none => (st, failed (-1))
      | _ => (st, failed (-1))
    else (st, failed (-1))

def Store.read (st : Store) (req : IpcMsg) : Store × Answer :=
  match st.held req.senderPid req.fd with
  | none => (st, failed req.fd)
  | some (f, d) =>
    if d.readable = false then (st, failed req.fd)
    else
      match st.files d.file with
      | none => (st, failed req.fd)
      | some (_, bytes) =>
        let data := (bytes.drop d.off).take (clampLen req)
        ({ st with
            fds := update st.fds f (some { d with off := d.off + data.length }) },
          ⟨data.length, req.fd, data.length, Bytes.ofFn fun i => data.getD i 0⟩)

def Store.write (st : Store) (req : IpcMsg) : Store × Answer :=
  match st.held req.senderPid req.fd with
  | none => (st, failed req.fd)
  | some (f, d) =>
    if d.writable = false then (st, failed req.fd)
    else
      match st.files d.file with
      | none => (st, failed req.fd)
      | some (type, bytes) =>
        let data := req.data.slice 0 (clampLen req)
        ({ st with
            files := update st.files d.file (some (type, overlay bytes d.off data))
            fds := update st.fds f (some { d with off := d.off + data.length }) },
          ⟨data.length, req.fd, 0, Bytes.zero⟩)

def Store.close (st : Store) (req : IpcMsg) : Store × Answer :=
  match st.held req.senderPid req.fd with
  | none => (st, failed req.fd)
  | some (f, _) => ({ st with fds := update st.fds f none }, ⟨0, req.fd, 0, Bytes.zero⟩)

/-- One request: the store after it, and the reply, if there is one. -/
def Store.serve (st : Store) (req : IpcMsg) : Store × Option Answer :=
  if req.type = IpcMsgType.fsShutdown.code then
    (st.closeAll req.senderPid, some ⟨0, -1, 0, Bytes.zero⟩)
  else if req.type = IpcMsgType.fsClientExit.code then
    (st.closeAll req.senderPid, none)
  else if req.type = IpcMsgType.fsOpen.code then
    match cString req with
    | none => (st, none)
    | some path =>
      let r := st.openPath req.senderPid req.flags path
      (r.1, some r.2)
  else if req.type = IpcMsgType.fsRead.code then
    let r := st.read req
    (r.1, some r.2)
  else if req.type = IpcMsgType.fsWrite.code then
    let r := st.write req
    (r.1, some r.2)
  else if req.type = IpcMsgType.fsClose.code then
    let r := st.close req
    (r.1, some r.2)
  else (st, some (failed req.fd))

end Xv6FsServer.Server
