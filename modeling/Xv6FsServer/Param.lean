/-
The constants and record layouts the kernel and fsserver share:
`param.h`, `fs.h`, `ipc.h`, `fcntl.h` and `stat.h`.

Names keep the source's words in lower camel case (`MAXOPBLOCKS` is
`maxOpBlocks`). The two `NINODE`/`NBUF` pairs are kept apart: the
kernel's live here, the server's own (fsserver.c redefines both) with
the server model.
-/
import Xv6FsServer.Lib.Bytes

namespace Xv6FsServer

open Lib

-- ==== param.h

/-- Maximum number of processes. -/
def nproc : Nat := 64

/-- Maximum number of blocks any FS operation writes. -/
def maxOpBlocks : Nat := 10

/-- Maximum number of data blocks in the on-disk log. -/
def logSize : Nat := maxOpBlocks * 3

/-- Size of the kernel's disk block cache. -/
def nbuf : Nat := maxOpBlocks * 3

/-- Size of the file system image in blocks. -/
def fsSize : Nat := 1000

/-- Device number of the file system root disk. -/
def rootDev : Nat := 1

-- ==== fs.h

/-- Block size in bytes. -/
def bsize : Nat := 512

/-- The contents of one disk block. -/
abbrev Block : Type := Bytes bsize

/-- A disk: the contents of every block. -/
abbrev Disk : Type := Nat → Block

end Xv6FsServer
