/-
The message of the file protocol (ipc.h) and the kernel's check of it
(`valid_ipc_msg` of proc.c).

Every field of `struct ipc_msg` is here, and each integer field is the
integer a process put there: a sender chooses all of them but
`sender_pid`, which `ipc_send_msg` overwrites.
-/
import Xv6FsServer.Param

namespace Xv6FsServer.Ipc

open Lib

def ipcPathSize : Nat := 64
def ipcDataSize : Nat := 128

/-- `enum ipc_msg_type`. -/
inductive IpcMsgType
  | fsOpen
  | fsRead
  | fsWrite
  | fsClose
  | fsLink
  | fsUnlink
  | fsMkdir
  | fsMknod
  | fsChdir
  | fsFstat
  | fsStat
  | fsReply
  | fsShutdown
  | fsClientExit
  deriving DecidableEq, Repr

/-- The numbers ipc.h gives the message types. -/
def IpcMsgType.code : IpcMsgType → Int
  | .fsOpen => 1
  | .fsRead => 2
  | .fsWrite => 3
  | .fsClose => 4
  | .fsLink => 5
  | .fsUnlink => 6
  | .fsMkdir => 7
  | .fsMknod => 8
  | .fsChdir => 9
  | .fsFstat => 10
  | .fsStat => 11
  | .fsReply => 100
  | .fsShutdown => 101
  | .fsClientExit => 102

/-- `struct ipc_msg`. -/
structure IpcMsg where
  senderPid : Int
  requestId : Int
  type : Int
  fd : Int
  flags : Int
  nbytes : Int
  result : Int
  error : Int
  path : Bytes ipcPathSize
  data : Bytes ipcDataSize

/-- `memset(&msg, 0, sizeof(msg))`. -/
def IpcMsg.zero : IpcMsg where
  senderPid := 0
  requestId := 0
  type := 0
  fd := 0
  flags := 0
  nbytes := 0
  result := 0
  error := 0
  path := Bytes.zero
  data := Bytes.zero

instance : Inhabited IpcMsg := ⟨.zero⟩

/-- `valid_ipc_msg`: a data length in range and one of the seven types a
process may send. -/
def validIpcMsg (m : IpcMsg) : Bool :=
  decide (0 ≤ m.nbytes ∧ m.nbytes ≤ ipcDataSize) &&
    decide (m.type = IpcMsgType.fsOpen.code ∨ m.type = IpcMsgType.fsRead.code
      ∨ m.type = IpcMsgType.fsWrite.code ∨ m.type = IpcMsgType.fsClose.code
      ∨ m.type = IpcMsgType.fsReply.code ∨ m.type = IpcMsgType.fsShutdown.code
      ∨ m.type = IpcMsgType.fsClientExit.code)

/-- The message `exit` sends for its process. -/
def clientExitMsg : IpcMsg :=
  { IpcMsg.zero with type := IpcMsgType.fsClientExit.code }

/-- The requests `sys_open`, `sys_read`, `sys_write` and `sys_close`
make. -/
def IpcMsg.isFileCall (m : IpcMsg) : Bool :=
  decide (m.type = IpcMsgType.fsOpen.code ∨ m.type = IpcMsgType.fsRead.code
    ∨ m.type = IpcMsgType.fsWrite.code ∨ m.type = IpcMsgType.fsClose.code)

/-- The sender the kernel writes into a message. -/
def IpcMsg.from (m : IpcMsg) (pid : Nat) : IpcMsg := { m with senderPid := pid }

@[simp] theorem IpcMsg.from_senderPid (m : IpcMsg) (pid : Nat) :
    (m.from pid).senderPid = pid := rfl

end Xv6FsServer.Ipc
