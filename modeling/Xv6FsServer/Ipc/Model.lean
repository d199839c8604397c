/-
The kernel's process table and its one-slot mailboxes (proc.c), with the
file-protocol call of sysfile.c on top.

# What one step is

A step is a stretch that runs under `ptable.lock`, or one unlocked
access to shared state. A process that sleeps in `ipc_send_msg`,
`ipc_recv_msg` or `wait` keeps its place in the loop (`Pc`); the
scheduler hands it the lock it slept with, so one `sched` step marks it
`RUNNING`, tests the loop again and goes on from there.

- `send`, `recv`, `call`, `exit` start what ends in a critical section;
  `enter` is that section. `call` is `fs_ipc_call` up to its `send`: it
  reads `fsserver_pid` and takes a request id. Only the caller ever looks
  at the id it took, so taking it together with the read changes nothing.
  Its callers are the four file calls, and their requests are the ones
  that can be made.
- `fork` is `allocproc`'s section, `forkReset` its unlocked clearing of
  the mailbox, and `forkFail`/`forkDone` the two ways it ends.
- `exit` sends the `CLIENT_EXIT` message first and `exitFinal` is the
  section that makes the process a zombie.
- `sysret` is the way back to user space, where a killed process exits.
- `fault` is the other source of `killed`: a trap of the process itself.

Slots are numbered from 0; slot 0 is `initproc`. Every slot is scanned
in order, as the source's loops do. Process ids never wrap here.

# Ghost state

`stored` remembers every message put into a mailbox together with what
the slot was at that moment, `taken` every message an `fs_ipc_call` took
out. No step reads them.
-/
import Xv6FsServer.Ipc.Message
import Xv6FsServer.Lib.Trace
import Mathlib.Logic.Function.Basic

namespace Xv6FsServer.Ipc

open Lib

/-- `enum procstate` (its last member, `WAITING_IPC_REPLY`, is never
used). -/
inductive ProcState
  | unused
  | embryo
  | sleeping
  | runnable
  | running
  | zombie
  deriving DecidableEq, Repr

/-- The addresses processes sleep on: a process, or its `has_msg`. -/
inductive Chan
  | null
  | proc (i : Nat)
  | hasMsg (i : Nat)
  deriving DecidableEq, Repr

/-- Who called `ipc_send_msg`: the `send` system call, `fs_ipc_call` with
the request it sends, or `exit`. -/
inductive SendFor
  | send
  | call (server : Int) (req : IpcMsg)
  | exit

/-- Who called `ipc_recv_msg`. -/
inductive RecvFor
  | recv
  | call (server : Int) (req : IpcMsg)

/-- Where a process is. `ret again` is the end of a system call; `again`
says that it may still make another `fs_ipc_call` before it returns. -/
inductive Pc
  | user
  | ret (again : Bool)
  | toSend (pid : Int) (msg : IpcMsg) (k : SendFor)
  | sendLoop (pid : Int) (slot : Nat) (msg : IpcMsg) (k : SendFor)
  | toRecv (k : RecvFor)
  | recvLoop (k : RecvFor)
  | waitLoop
  | forked (slot : Nat) (clean : Bool)
  | exiting

/-- `struct proc`, as far as processes and messages go, with the result
of the last system call and the message it copied out. -/
structure Proc where
  state : ProcState
  pid : Nat
  parent : Option Nat
  chan : Chan
  killed : Bool
  mailbox : IpcMsg
  hasMsg : Bool
  pc : Pc
  retval : Int
  buf : IpcMsg

/-- A slot of the zeroed process table. -/
def Proc.empty : Proc where
  state := .unused
  pid := 0
  parent := none
  chan := .null
  killed := false
  mailbox := .zero
  hasMsg := false
  pc := .user
  retval := 0
  buf := .zero

/-- A message put into a mailbox: the pid it was addressed to, and the
slot's occupant at that moment. -/
structure Stored where
  addressed : Int
  occupant : Nat
  state : ProcState
  killed : Bool
  msg : IpcMsg

/-- A message an `fs_ipc_call` took out of the caller's mailbox. -/
structure Taken where
  client : Nat
  server : Int
  req : IpcMsg
  msg : IpcMsg

structure Kernel where
  procs : Nat → Proc
  nextpid : Nat
  fsserverPid : Int
  nextFsRequestId : Int
  stored : List Stored
  taken : List Taken

/-- After `userinit`: init is the only process. -/
def boot : Kernel where
  procs := Function.update (fun _ => Proc.empty) 0
    { Proc.empty with state := .runnable, pid := 1 }
  nextpid := 2
  fsserverPid := -1
  nextFsRequestId := 1
  stored := []
  taken := []

-- ==== small operations

/-- Change one slot. -/
def Kernel.modify (s : Kernel) (i : Nat) (f : Proc → Proc) : Kernel :=
  { s with procs := Function.update s.procs i (f (s.procs i)) }

/-- `wakeup1`. -/
def Kernel.wakeup1 (s : Kernel) (c : Chan) : Kernel :=
  { s with
    procs := fun i =>
      if (s.procs i).state = .sleeping ∧ (s.procs i).chan = c then
        { s.procs i with state := .runnable }
      else s.procs i }

/-- `sleep` with `ptable.lock` held. -/
def Proc.sleep (p : Proc) (c : Chan) (pc : Pc) : Proc :=
  { p with state := .sleeping, chan := c, pc := pc }

/-- The end of a system call. -/
def Proc.return (p : Proc) (r : Int) (again : Bool) : Proc :=
  { p with pc := .ret again, retval := r }

/-- The first slot, in table order, that satisfies a test. -/
def Kernel.scan (s : Kernel) (test : Proc → Bool) : Option Nat :=
  (List.range nproc).find? fun i => test (s.procs i)

def Kernel.findPid (s : Kernel) (pid : Int) : Option Nat :=
  s.scan fun p => decide ((p.pid : Int) = pid)

/-- `ipc_send_msg` refuses such a target. -/
def Proc.rejects (p : Proc) : Bool :=
  decide (p.state = .unused ∨ p.state = .embryo ∨ p.state = .zombie)
    || p.killed

/-- `ipc_send_msg`'s loop gives up on such a target. -/
def Proc.gone (p : Proc) : Bool :=
  decide (p.state = .unused ∨ p.state = .zombie) || p.killed

-- ==== ipc_send_msg

/-- Return `r` from `ipc_send_msg` to its caller. -/
def sendDone (s : Kernel) (i : Nat) (r : Int) : SendFor → Kernel
  | .send => s.modify i fun p => p.return r false
  | .call server req =>
    if r < 0 then s.modify i fun p => p.return (-1) false
    else s.modify i fun p => { p with pc := .toRecv (.call server req) }
  | .exit => s.modify i fun p => { p with pc := .exiting }

/-- Put a message into a slot's mailbox. -/
def store (s : Kernel) (pid : Int) (t : Nat) (m : IpcMsg) : Kernel :=
  let filled : Kernel := s.modify t fun p =>
    { p with mailbox := m, hasMsg := true }
  { filled.wakeup1 (.proc t) with
    stored := s.stored ++
      [⟨pid, (s.procs t).pid, (s.procs t).state, (s.procs t).killed, m⟩] }

/-- One pass of `while(target_p->has_msg == 1)`, and what follows it. -/
def sendLoop (s : Kernel) (i : Nat) (pid : Int) (t : Nat) (m : IpcMsg)
    (k : SendFor) : Kernel :=
  if (s.procs t).hasMsg then
    if (s.procs i).killed || (s.procs t).gone then sendDone s i (-1) k
    else s.modify i fun p => p.sleep (.hasMsg t) (.sendLoop pid t m k)
  else sendDone (store s pid t m) i 0 k

/-- `ipc_send_msg` from its start. -/
def ipcSendMsg (s : Kernel) (i : Nat) (pid : Int) (msg : IpcMsg) (k : SendFor) :
    Kernel :=
  let kmsg := msg.from (s.procs i).pid
  if validIpcMsg kmsg then
    match s.findPid pid with
    | some t =>
      if (s.procs t).rejects then sendDone s i (-1) k
      else sendLoop s i pid t kmsg k
    | none => sendDone s i (-1) k
  else sendDone s i (-1) k

-- ==== ipc_recv_msg

/-- `fs_ipc_call`'s test of the message it received. -/
def accepts (req m : IpcMsg) : Bool :=
  decide (m.type = IpcMsgType.fsReply.code ∧ m.requestId = req.requestId)

/-- Return a message, or the failure of a killed process, from
`ipc_recv_msg` to its caller. -/
def recvDone (s : Kernel) (i : Nat) (got : Option IpcMsg) : RecvFor → Kernel
  | .recv =>
    match got with
    | some m => s.modify i fun p => { p.return 0 false with buf := m }
    | none => s.modify i fun p => p.return (-1) false
  | .call server req =>
    match got with
    | some m =>
      let t : Kernel :=
        if accepts req m then
          s.modify i fun p => { p.return 0 true with buf := m }
        else s.modify i fun p => p.return (-1) false
      { t with taken := s.taken ++ [⟨(s.procs i).pid, server, req, m⟩] }
    | none => s.modify i fun p => p.return (-1) false

/-- Empty the caller's mailbox and wake the senders waiting for it. -/
def take (s : Kernel) (i : Nat) : Kernel :=
  (s.modify i fun p => { p with hasMsg := false, mailbox := .zero }).wakeup1
    (.hasMsg i)

/-- One pass of `while(proc->has_msg == 0)`, and what follows it. -/
def ipcRecvMsg (s : Kernel) (i : Nat) (k : RecvFor) : Kernel :=
  if (s.procs i).hasMsg then
    recvDone (take s i) i (some (s.procs i).mailbox) k
  else if (s.procs i).killed then recvDone s i none k
  else s.modify i fun p => p.sleep (.proc i) (.recvLoop k)

-- ==== fs_ipc_call

/-- `__sync_fetch_and_add` on a 32-bit `int`. -/
def bumpId (n : Int) : Int := (n + 1).bmod 4294967296

/-- `fs_ipc_call` up to its `ipc_send_msg`. -/
def fsIpcCall (s : Kernel) (i : Nat) (req : IpcMsg) : Kernel :=
  if s.fsserverPid < 0 then s.modify i fun p => p.return (-1) false
  else
    let req := { req with requestId := s.nextFsRequestId }
    { s.modify i fun p =>
        { p with
          pc := .toSend s.fsserverPid req
            (.call s.fsserverPid (req.from p.pid)) } with
      nextFsRequestId := bumpId s.nextFsRequestId }

-- ==== exit, wait, fork

/-- `exit` up to its `ipc_send_msg`. -/
def exitStart (s : Kernel) (i : Nat) : Kernel :=
  if s.fsserverPid > 0 ∧ s.fsserverPid ≠ (s.procs i).pid then
    s.modify i fun p =>
      { p with pc := .toSend s.fsserverPid clientExitMsg .exit }
  else s.modify i fun p => { p with pc := .exiting }

/-- Pass the abandoned children of slot `i` to init, waking it for each
zombie. -/
def reparent (s : Kernel) (i : Nat) : Kernel :=
  let t : Kernel :=
    { s with
      procs := fun j =>
        if (s.procs j).parent = some i then
          { s.procs j with parent := some 0 }
        else s.procs j }
  if (s.scan fun p => decide (p.parent = some i ∧ p.state = .zombie)).isSome
  then t.wakeup1 (.proc 0) else t

/-- `exit`'s last critical section. -/
def exitFinal (s : Kernel) (i : Nat) : Kernel :=
  let s1 : Kernel :=
    { s with
      fsserverPid :=
        if s.fsserverPid = (s.procs i).pid then -1 else s.fsserverPid }
  let s2 := (s1.modify i fun p =>
    { p with hasMsg := false, mailbox := .zero }).wakeup1 (.hasMsg i)
  let s3 :=
    match (s.procs i).parent with
    | some j => s2.wakeup1 (.proc j)
    | none => s2.wakeup1 .null
  (reparent s3 i).modify i fun p => { p with state := .zombie }

/-- `wait`'s release of a zombie's slot. -/
def Proc.reap (p : Proc) : Proc :=
  { p with
    pid := 0
    parent := none
    killed := false
    mailbox := .zero
    hasMsg := false
    state := .unused }

/-- One pass of `wait`'s loop. -/
def wait (s : Kernel) (i : Nat) : Kernel :=
  match s.scan fun p => decide (p.parent = some i ∧ p.state = .zombie) with
  | some t =>
    (s.modify t Proc.reap).modify i fun p =>
      p.return (s.procs t).pid false
  | none =>
    if (s.scan fun p => decide (p.parent = some i)).isNone
        || (s.procs i).killed then
      s.modify i fun p => p.return (-1) false
    else s.modify i fun p => p.sleep (.proc i) .waitLoop

/-- `allocproc`'s critical section. -/
def fork (s : Kernel) (i : Nat) : Kernel :=
  match s.scan fun p => decide (p.state = .unused) with
  | some t =>
    { (s.modify t fun p =>
        { p with state := .embryo, pid := s.nextpid }).modify i fun p =>
          { p with pc := .forked t false } with
      nextpid := s.nextpid + 1 }
  | none => s.modify i fun p => p.return (-1) false

/-- `allocproc`'s unlocked reset of the new slot's mailbox. -/
def forkReset (s : Kernel) (i t : Nat) : Kernel :=
  (s.modify t fun p => { p with mailbox := .zero, hasMsg := false }).modify i
    fun p => { p with pc := .forked t true }

/-- No memory for the kernel stack or the address space. -/
def forkFail (s : Kernel) (i t : Nat) : Kernel :=
  (s.modify t fun p => { p with state := .unused }).modify i fun p =>
    p.return (-1) false

/-- The child becomes runnable. -/
def forkDone (s : Kernel) (i t : Nat) : Kernel :=
  (s.modify t fun p =>
    { p with parent := some i, state := .runnable, pc := .user }).modify i
      fun p => p.return (s.procs t).pid false

/-- `kill`. -/
def kill (s : Kernel) (i : Nat) (pid : Int) : Kernel :=
  match s.findPid pid with
  | some t =>
    (s.modify t fun p =>
      { p with
        killed := true
        state := if p.state = .sleeping then .runnable else p.state }).modify
      i fun p => p.return 0 false
  | none => s.modify i fun p => p.return (-1) false

/-- `register_fsserver`. -/
def register (s : Kernel) (i : Nat) : Kernel :=
  { s.modify i fun p => p.return 0 false with
    fsserverPid := (s.procs i).pid }

-- ==== the machine

inductive Act
  | sched (i : Nat)
  | yield (i : Nat)
  | enter (i : Nat)
  | sysret (i : Nat)
  | send (i : Nat) (pid : Int) (msg : IpcMsg)
  | recv (i : Nat)
  | call (i : Nat) (req : IpcMsg)
  | exit (i : Nat)
  | exitFinal (i : Nat)
  | wait (i : Nat)
  | fork (i : Nat)
  | forkReset (i : Nat)
  | forkFail (i : Nat)
  | forkDone (i : Nat)
  | kill (i : Nat) (pid : Int)
  | fault (i : Nat)
  | register (i : Nat)

/-- The process that takes the step. -/
def Act.actor : Act → Nat
  | .sched i | .yield i | .enter i | .sysret i | .send i _ _ | .recv i
  | .call i _ | .exit i | .exitFinal i | .wait i | .fork i | .forkReset i
  | .forkFail i | .forkDone i | .kill i _ | .fault i | .register i => i

/-- The steps a process chooses to take, as against those the kernel
takes for it. -/
def Act.isProgram : Act → Bool
  | .sched _ | .yield _ | .enter _ | .sysret _ | .exitFinal _ => false
  | _ => true

/-- The scheduler runs a process; one that slept goes on in its loop. -/
def resume (s : Kernel) (i : Nat) : Kernel :=
  let woken : Kernel := s.modify i fun p =>
    { p with state := .running, chan := .null }
  match (s.procs i).pc with
  | .sendLoop pid t m k => sendLoop woken i pid t m k
  | .recvLoop k => ipcRecvMsg woken i k
  | .waitLoop => wait woken i
  | _ => s.modify i fun p => { p with state := .running }

/-- What a running process does on a label that is open to it at its
place. -/
def act (s : Kernel) : Act → Option Kernel
  | .sched _ => none
  | .yield i => some (s.modify i fun p => { p with state := .runnable })
  | .enter i =>
    match (s.procs i).pc with
    | .toSend pid msg k => some (ipcSendMsg s i pid msg k)
    | .toRecv k => some (ipcRecvMsg s i k)
    | _ => none
  | .sysret i =>
    match (s.procs i).pc with
    | .ret _ =>
      if (s.procs i).killed then
        if i = 0 then none else some (exitStart s i)
      else some (s.modify i fun p => { p with pc := .user })
    | _ => none
  | .send i pid msg =>
    match (s.procs i).pc with
    | .user => some (s.modify i fun p => { p with pc := .toSend pid msg .send })
    | _ => none
  | .recv i =>
    match (s.procs i).pc with
    | .user => some (s.modify i fun p => { p with pc := .toRecv .recv })
    | _ => none
  | .call i req =>
    if req.isFileCall then
      match (s.procs i).pc with
      | .user | .ret true => some (fsIpcCall s i req)
      | _ => none
    else none
  | .exit i =>
    match (s.procs i).pc with
    | .user => if i = 0 then none else some (exitStart s i)
    | _ => none
  | .exitFinal i =>
    match (s.procs i).pc with
    | .exiting => some (exitFinal s i)
    | _ => none
  | .wait i =>
    match (s.procs i).pc with
    | .user => some (wait s i)
    | _ => none
  | .fork i =>
    match (s.procs i).pc with
    | .user => some (fork s i)
    | _ => none
  | .forkReset i =>
    match (s.procs i).pc with
    | .forked t false => some (forkReset s i t)
    | _ => none
  | .forkFail i =>
    match (s.procs i).pc with
    | .forked t true => some (forkFail s i t)
    | _ => none
  | .forkDone i =>
    match (s.procs i).pc with
    | .forked t true => some (forkDone s i t)
    | _ => none
  | .kill i pid =>
    match (s.procs i).pc with
    | .user => some (kill s i pid)
    | _ => none
  | .fault i =>
    match (s.procs i).pc with
    | .user => some (s.modify i fun p => { p with killed := true })
    | _ => none
  | .register i =>
    match (s.procs i).pc with
    | .user => some (register s i)
    | _ => none

/-- The machine: the scheduler picks a runnable process, every other step
is one of a running process. -/
def step (s : Kernel) (a : Act) : Option Kernel :=
  if a.actor < nproc then
    match a with
    | .sched i =>
      if (s.procs i).state = .runnable then some (resume s i) else none
    | a => if (s.procs a.actor).state = .running then act s a else none
  else none

end Xv6FsServer.Ipc
