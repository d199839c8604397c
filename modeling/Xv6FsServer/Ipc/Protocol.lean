/-
The file protocol: the kernel's processes together with fsserver's main
loop, one process among them.

The server is the process in slot 1, forked by init and registered. Its
user-space program is `main`'s request loop: `recv`, handle the request,
`send_reply`, again. What handling a request computes is a parameter
(`Handler`): the results here hold for every handler, since the loop
around it is all they use.

A `serve` step is the server's next stretch of user code up to its next
system call; the system calls themselves are the kernel's steps. Every
other process is free to take any step open to it; which ones a theorem
allows is said by a condition on the labels.
-/
import Xv6FsServer.Ipc.Model

namespace Xv6FsServer.Ipc

open Lib

/-- What a handler passes to `send_reply`. -/
structure Answer where
  result : Int
  fd : Int
  nbytes : Int
  data : Bytes ipcDataSize

/-- The request handlers of `main`: the file operations, and
`close_all_for_owner`. -/
structure Handler (σ : Type) where
  serve : σ → IpcMsg → σ × Answer
  closeAllForOwner : σ → Int → σ

/-- The message `send_reply` sends. -/
def sendReply (req : IpcMsg) (ans : Answer) : IpcMsg :=
  { IpcMsg.zero with
    type := IpcMsgType.fsReply.code
    requestId := req.requestId
    fd := ans.fd
    result := ans.result
    nbytes := ans.nbytes
    data := ans.data }

/-- Where `main` is: at the top of its loop, in (or just back from)
`recv`, in (or just back from) the `send` of a reply, or past the loop.
A reply remembers the request it answers. -/
inductive Phase
  | loop
  | receiving
  | replying (req reply : IpcMsg)
  | stopping (req reply : IpcMsg)
  | done

def Phase.isDone : Phase → Bool
  | .done => true
  | _ => false

/-- The kernel, the server's program and its state, and (ghost) the
requests it has answered with the replies as sent. -/
structure World (σ : Type) where
  kernel : Kernel
  phase : Phase
  fs : σ
  handled : List (IpcMsg × IpcMsg)

def serverSlot : Nat := 1
def serverPid : Nat := 2

/-- Init has forked the server, and the server has registered. -/
def start {σ : Type} (fs : σ) : World σ where
  kernel :=
    { boot with
      procs := Function.update
        (Function.update (fun _ => Proc.empty) 0
          { Proc.empty with state := .runnable, pid := 1 }) serverSlot
        { Proc.empty with state := .runnable, pid := serverPid, parent := some 0 }
      nextpid := 3
      fsserverPid := serverPid }
  phase := .loop
  fs := fs
  handled := []

/-- Answer a request: send the reply and wait for the `send` to return. -/
def World.answer {σ : Type} (w : World σ) (fs : σ) (req : IpcMsg) (ans : Answer)
    (phase : IpcMsg → IpcMsg → Phase) : Option (World σ) :=
  let reply := sendReply req ans
  match step w.kernel (.send serverSlot req.senderPid reply) with
  | some k =>
    some { w with
      kernel := k
      phase := phase req (reply.from serverPid)
      fs := fs
      handled := w.handled ++ [(req, reply.from serverPid)] }
  | none => none

/-- The server's next stretch of user code. -/
def mainLoop {σ : Type} (h : Handler σ) (w : World σ) : Option (World σ) :=
  match w.phase with
  | .loop =>
    match step w.kernel (.recv serverSlot) with
    | some k => some { w with kernel := k, phase := .receiving }
    | none => none
  | .receiving =>
    let req := (w.kernel.procs serverSlot).buf
    if (w.kernel.procs serverSlot).retval < 0 then
      some { w with phase := .loop }
    else if req.type = IpcMsgType.fsShutdown.code then
      w.answer (h.closeAllForOwner w.fs req.senderPid) req
        ⟨0, -1, 0, Bytes.zero⟩ .stopping
    else if req.type = IpcMsgType.fsClientExit.code then
      some { w with
        phase := .loop, fs := h.closeAllForOwner w.fs req.senderPid }
    else
      w.answer (h.serve w.fs req).1 req (h.serve w.fs req).2 .replying
  | .replying _ _ => some { w with phase := .loop }
  | .stopping _ _ =>
    match step w.kernel (.exit serverSlot) with
    | some k => some { w with kernel := k, phase := .done }
    | none => none
  | .done => none

inductive WAct
  | kernel (a : Act)
  | serve

/-- The protocol machine. The server takes program steps by `serve` only,
and only from user space. -/
def World.step {σ : Type} (h : Handler σ) (w : World σ) : WAct → Option (World σ)
  | .kernel a =>
    if a.actor = serverSlot ∧ a.isProgram = true ∧ w.phase.isDone = false then
      none
    else
      match Ipc.step w.kernel a with
      | some k => some { w with kernel := k }
      | none => none
  | .serve =>
    match (w.kernel.procs serverSlot).state, (w.kernel.procs serverSlot).pc with
    | .running, .user => mainLoop h w
    | _, _ => none

end Xv6FsServer.Ipc
