/-
`sys_disk_request` (sysproc.c): the file server's way to the disk.

The call reads `fsserver_pid` once, without `ptable.lock`, and decides by
that copy. It is two steps here: `ask` is the read, `serve` all the rest.
Between them other processes run and `fsserver_pid` may change; the caller
itself is inside the call, so the kernel of `Model.lean` moves it no further
than the scheduler does.

A caller that is not the server is killed. The server reads or writes one
block; a block behind the end of the disk makes `iderw` panic, and a run
that panics ends there (`none`). `accesses` is ghost state: who read or
wrote which block.

The other calls that take a buffer go to memory through a pointer that
`argptr` does not hold back (`Syscall/Model.lean`). In the caller's own memory
that is nothing to the kernel; anywhere else it may be the kernel's own
variables that they write, `fsserver_pid` among them (`fill`). The calls that
are not here (`sbrk`, `exec`, `sleep` and the like) touch neither processes nor
`fsserver_pid`.
-/
import Xv6FsServer.Ipc.Model
import Xv6FsServer.Syscall.Model

namespace Xv6FsServer.Ipc

open Lib

variable {β : Type*}

/-- The arguments of a call; `buf` is what the caller's buffer holds. -/
structure DiskRequest (β : Type*) where
  sector : Nat
  buf : β
  operation : Int

structure Access where
  pid : Nat
  sector : Nat
  write : Bool
  deriving DecidableEq

/-- The kernel with its disk. `asked i` is the copy of `fsserver_pid` in the
call that process `i` is in, `bufs i` its buffer. -/
structure Machine (β : Type*) where
  kernel : Kernel
  asked : Nat → Option Int
  disksize : Nat
  disk : Nat → β
  bufs : Nat → Option β
  accesses : List Access

def Machine.boot (disksize : Nat) (disk : Nat → β) : Machine β :=
  ⟨Ipc.boot, fun _ => none, disksize, disk, fun _ => none, []⟩

/-- `get_fsserver_pid`, into the caller's local variable. -/
def Machine.ask (w : Machine β) (i : Nat) : Machine β :=
  { w with asked := Function.update w.asked i (some w.kernel.fsserverPid) }

/-- The end of the call. -/
def Machine.finish (w : Machine β) (i : Nat) (r : Int) : Machine β :=
  { w with
    kernel := w.kernel.modify i fun p => p.return r false
    asked := Function.update w.asked i none }

/-- The check failed: the caller is killed. -/
def Machine.refuse (w : Machine β) (i : Nat) : Machine β :=
  { w with
    kernel := w.kernel.modify i fun p => { p.return (-1) false with killed := true }
    asked := Function.update w.asked i none }

/-- `bread` and the copy of the block into the caller's buffer. -/
def Machine.read (w : Machine β) (i : Nat) (sector : Nat) : Machine β :=
  { w with
    bufs := Function.update w.bufs i (some (w.disk sector))
    accesses := w.accesses ++ [⟨(w.kernel.procs i).pid, sector, false⟩] }

/-- `bread`, the copy of the caller's buffer into the block, and `bwrite`. -/
def Machine.write (w : Machine β) (i : Nat) (sector : Nat) (buf : β) : Machine β :=
  { w with
    disk := Function.update w.disk sector buf
    accesses := w.accesses ++ [⟨(w.kernel.procs i).pid, sector, true⟩] }

/-- The rest of `sys_disk_request`, with `pid` the copy of `fsserver_pid`;
`none` for arguments that `argint` or `argptr` refuse. -/
def Machine.serve (w : Machine β) (i : Nat) (pid : Int) :
    Option (DiskRequest β) → Option (Machine β)
  | none => some (w.finish i (-1))
  | some r =>
    if pid ≤ 0 ∨ ((w.kernel.procs i).pid : Int) ≠ pid then some (w.refuse i)
    else if r.operation = 0 then
      if r.sector < w.disksize then some ((w.read i r.sector).finish i 0)
      else none
    else if r.operation = 1 then
      if r.sector < w.disksize then
        some ((w.write i r.sector r.buf).finish i 0)
      else none
    else some (w.finish i (-1))

inductive DiskAct (β : Type*)
  | kernel (a : Act)
  | ask (i : Nat)
  | serve (i : Nat) (args : Option (DiskRequest β))
  /-- A call with a buffer; `k` is what it makes of the kernel's memory if the
  buffer is there. -/
  | fill (i : Nat) (c : Syscall.Caller) (a : Syscall.Call) (k : Kernel)

/-- The pointer a call used, if it leads out of the caller's memory. -/
def strayPointer (c : Syscall.Caller) (a : Syscall.Call) : Option UInt64 :=
  (Syscall.call c a).used.filter fun p =>
    decide (c.sz.toNat < p.toNat + a.size.toInt.toNat)

/-- What may happen to a process inside the call. -/
def Act.isScheduling : Act → Bool
  | .sched _ | .yield _ => true
  | _ => false

def Machine.step (w : Machine β) : DiskAct β → Option (Machine β)
  | .kernel a =>
    if (w.asked a.actor).isSome && !a.isScheduling then none
    else
      match Ipc.step w.kernel a with
      | some k => some { w with kernel := k }
      | none => none
  | .ask i =>
    if i < nproc ∧ (w.kernel.procs i).state = .running then
      match (w.kernel.procs i).pc, w.asked i with
      | .user, none => some (w.ask i)
      | _, _ => none
    else none
  | .serve i args =>
    if (w.kernel.procs i).state = .running then
      match w.asked i with
      | some pid => w.serve i pid args
      | none => none
    else none
  | .fill i c a k =>
    if i < nproc ∧ (w.kernel.procs i).state = .running then
      match (w.kernel.procs i).pc, w.asked i with
      | .user, none =>
        match strayPointer c a with
        | some _ => some { w with kernel := k }
        | none => some w
      | _, _ => none
    else none

end Xv6FsServer.Ipc
