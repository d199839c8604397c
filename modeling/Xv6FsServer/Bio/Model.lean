/-
The kernel's buffer cache (bio.c), the disk under it (memide.c) and the log
that pins its buffers (log.c).

`Log/Model.lean` looks at the cache from the log's side and leaves open
which buffer `bget` recycles. Here are the buffers themselves: their
device and block numbers, `B_VALID`, `B_DIRTY`, `refcnt`, the sleep lock,
and the list that `bget` scans, most recently used first.

# What one step is

- `get` is `bget`'s critical section: the scan for the block, the scan for
  a buffer to recycle, and the reference. `lock` is the rest of `bread`:
  `acquiresleep` and, if the buffer is not valid, the read. Between the two
  the process waits for the buffer (`waiting`).
- `logWrite` and `bwrite` are the caller's change of the buffer's data
  together with the call that follows it; both are made with the buffer
  locked, so nobody sees the change without the call.
- `beginOp` and `endOp` count the outstanding operations; the last one out
  commits. `tick` is one pass of a loop of `commit()`, or one `write_head`,
  with the `bread`s, the copy, the `bwrite` and the `brelse`s it is made of.

A step that panics is `none`: the kernel stops there.

# Ghost state

`given` is what each block was last given: by `log_write` or `bwrite`, or,
for the log's own blocks, by the commit that writes them. Installing a
transaction gives nothing: it must not be seen. No step reads `given`.
-/
import Xv6FsServer.Log.Model

namespace Xv6FsServer.Bio

open Lib

-- ==== the buffers

/-- `struct buf`; `lock` is the process that holds the sleep lock. -/
structure Buf where
  dev : Nat
  blockno : Nat
  valid : Bool
  dirty : Bool
  refcnt : Nat
  lock : Option Nat
  data : Block

/-- `bcache` and the memory disk. `order` is the linked list of buffers from
`head.next` on. -/
structure Cache where
  buf : Nat → Buf
  order : List Nat
  disksize : Nat
  disk : Disk

/-- `binit`, over zeroed memory. -/
def binit (disksize : Nat) (disk : Disk) : Cache where
  buf := fun _ => ⟨0, 0, false, false, 0, none, Bytes.zero⟩
  order := (List.range nbuf).reverse
  disksize := disksize
  disk := disk

def Cache.modify (c : Cache) (i : Nat) (f : Buf → Buf) : Cache :=
  { c with buf := Function.update c.buf i (f (c.buf i)) }

/-- `bget`'s first scan. -/
def Cache.find (c : Cache) (dev blockno : Nat) : Option Nat :=
  c.order.find? fun i =>
    decide ((c.buf i).dev = dev ∧ (c.buf i).blockno = blockno)

/-- `bget`'s second scan, from the other end. -/
def Cache.victim (c : Cache) : Option Nat :=
  c.order.reverse.find? fun i =>
    decide ((c.buf i).refcnt = 0 ∧ (c.buf i).dirty = false)

/-- `bget` up to its `acquiresleep`. -/
def bget (c : Cache) (dev blockno : Nat) : Option (Nat × Cache) :=
  match c.find dev blockno with
  | some i =>
    some (i, c.modify i fun b => { b with refcnt := b.refcnt + 1 })
  | none =>
    match c.victim with
    | some i =>
      some (i, c.modify i fun b =>
        { b with
          dev := dev
          blockno := blockno
          valid := false
          dirty := false
          refcnt := 1 })
    | none => none

/-- memide.c's `iderw`. -/
def iderw (c : Cache) (i : Nat) : Option Cache :=
  let b := c.buf i
  if b.valid ∧ ¬ b.dirty then none
  else if b.dev ≠ 1 then none
  else if b.blockno ≥ c.disksize then none
  else if b.dirty then
    some { c.modify i (fun b => { b with dirty := false, valid := true }) with
      disk := Function.update c.disk b.blockno b.data }
  else
    some (c.modify i fun b => { b with data := c.disk b.blockno, valid := true })

/-- The rest of `bread`: `acquiresleep`, and the read of a buffer that is
not valid. -/
def breadLocked (c : Cache) (p i : Nat) : Option Cache :=
  match (c.buf i).lock with
  | some _ => none
  | none =>
    let c := c.modify i fun b => { b with lock := some p }
    if (c.buf i).valid then some c else iderw c i

/-- `bread` in one go, where nobody is in the way. -/
def bread (c : Cache) (p dev blockno : Nat) : Option (Nat × Cache) := do
  let (i, c) ← bget c dev blockno
  let c ← breadLocked c p i
  return (i, c)

/-- A change of the data, and `bwrite`. -/
def bwrite (c : Cache) (p i : Nat) (v : Block) : Option Cache :=
  if (c.buf i).lock = some p then
    iderw (c.modify i fun b => { b with data := v, dirty := true }) i
  else none

/-- `brelse`. -/
def brelse (c : Cache) (p i : Nat) : Option Cache :=
  if (c.buf i).lock = some p then
    let c := c.modify i fun b => { b with lock := none, refcnt := b.refcnt - 1 }
    if (c.buf i).refcnt = 0 then some { c with order := i :: c.order.erase i }
    else some c
  else none

-- ==== the log

/-- Where `commit()` is. -/
inductive CommitPc
  | writeLog (tail : Nat)
  | writeHead
  | install (tail : Nat)
  | eraseHead
  deriving DecidableEq, Repr

/-- A process that sleeps in `acquiresleep`, with what it asked for. -/
structure Wait where
  proc : Nat
  buf : Nat
  dev : Nat
  blockno : Nat
  deriving DecidableEq

structure State where
  cache : Cache
  waiting : List Wait
  lh : List Nat
  outstanding : Nat
  commit : Option (Nat × CommitPc)
  given : Disk

/-- After `initlog` with nothing to recover. -/
def boot (disksize : Nat) (disk : Disk) : State where
  cache := binit disksize disk
  waiting := []
  lh := []
  outstanding := 0
  commit := none
  given := disk

inductive Act
  | get (p dev blockno : Nat)
  | lock (p : Nat)
  | logWrite (p i : Nat) (v : Block)
  | bwrite (p i : Nat) (v : Block)
  | brelse (p i : Nat)
  | beginOp
  | endOp (p : Nat)
  | tick

/-- The end of a pass of `write_log` or `install_trans`: copy a block into
another one and write that, release both. -/
def copyOut (c : Cache) (p src dst : Nat) : Option (Block × Cache) := do
  let v := (c.buf src).data
  let c ← bwrite c p dst v
  let c ← brelse c p src
  let c ← brelse c p dst
  return (v, c)

/-- A pass of `write_log`: block `b` goes into the log. -/
def writeLog (g : Log.Geometry) (c : Cache) (p tail b : Nat) :
    Option (Block × Cache) := do
  let (dst, c) ← bread c p rootDev (g.start + tail + 1)
  let (src, c) ← bread c p rootDev b
  copyOut c p src dst

/-- A pass of `install_trans`: block `b` comes out of the log. -/
def installTrans (g : Log.Geometry) (c : Cache) (p tail b : Nat) :
    Option (Block × Cache) := do
  let (lbuf, c) ← bread c p rootDev (g.start + tail + 1)
  let (dbuf, c) ← bread c p rootDev b
  copyOut c p lbuf dbuf

/-- `write_head`. -/
def writeHead (g : Log.Geometry) (c : Cache) (p : Nat) (lh : List Nat) :
    Option (Block × Cache) := do
  let (i, c) ← bread c p rootDev g.start
  let v := Log.putHead lh (c.buf i).data
  let c ← bwrite c p i v
  let c ← brelse c p i
  return (v, c)

/-- `log_write`, after a change of the data. -/
def logWrite (g : Log.Geometry) (s : State) (p i : Nat) (v : Block) :
    Option State :=
  let b := s.cache.buf i
  if b.lock = some p then
    if s.lh.length ≥ logSize ∨ s.lh.length ≥ g.size - 1 then none
    else if s.outstanding < 1 then none
    else
      some { s with
        cache := s.cache.modify i fun b => { b with data := v, dirty := true }
        lh := Log.absorb s.lh b.blockno
        given := Function.update s.given b.blockno v }
  else none

/-- `begin_op`, where it does not have to wait. -/
def beginOp (s : State) : Option State :=
  if s.commit.isSome ∨ s.lh.length + (s.outstanding + 1) * maxOpBlocks > logSize then
    none
  else some { s with outstanding := s.outstanding + 1 }

/-- `end_op`; the last operation out commits what there is. -/
def endOp (s : State) (p : Nat) : Option State :=
  if s.outstanding = 0 then none
  else if s.outstanding = 1 ∧ s.lh ≠ [] then
    some { s with outstanding := 0, commit := some (p, .writeLog 0) }
  else some { s with outstanding := s.outstanding - 1 }

/-- One pass of `commit()`. -/
def tick (g : Log.Geometry) (s : State) : Option State :=
  match s.commit with
  | none => none
  | some (p, .writeLog tail) =>
    match s.lh[tail]? with
    | some b => do
      let (v, c) ← writeLog g s.cache p tail b
      return { s with
        cache := c
        given := Function.update s.given (g.start + tail + 1) v
        commit := some (p, .writeLog (tail + 1)) }
    | none => some { s with commit := some (p, .writeHead) }
  | some (p, .writeHead) => do
    let (v, c) ← writeHead g s.cache p s.lh
    return { s with
      cache := c
      given := Function.update s.given g.start v
      commit := some (p, .install 0) }
  | some (p, .install tail) =>
    match s.lh[tail]? with
    | some b => do
      let (_, c) ← installTrans g s.cache p tail b
      return { s with cache := c, commit := some (p, .install (tail + 1)) }
    | none => some { s with lh := [], commit := some (p, .eraseHead) }
  | some (p, .eraseHead) => do
    let (v, c) ← writeHead g s.cache p s.lh
    return { s with
      cache := c
      given := Function.update s.given g.start v
      commit := none }

def step (g : Log.Geometry) (s : State) : Act → Option State
  | .get p dev blockno =>
    if s.waiting.any (fun e => decide (e.proc = p)) then none
    else do
      let (i, c) ← bget s.cache dev blockno
      return { s with cache := c, waiting := ⟨p, i, dev, blockno⟩ :: s.waiting }
  | .lock p =>
    match s.waiting.find? (fun e => decide (e.proc = p)) with
    | none => none
    | some e => do
      let c ← breadLocked s.cache p e.buf
      return { s with cache := c, waiting := s.waiting.erase e }
  | .logWrite p i v => logWrite g s p i v
  | .bwrite p i v => do
    let c ← bwrite s.cache p i v
    return { s with
      cache := c
      given := Function.update s.given (s.cache.buf i).blockno v }
  | .brelse p i => do
    let c ← brelse s.cache p i
    return { s with cache := c }
  | .beginOp => beginOp s
  | .endOp p => endOp s p
  | .tick => tick g s

end Xv6FsServer.Bio
