/-
The kernel's log (log.c) over its buffer cache (bio.c), as a machine
whose steps are the stretches of code no other process can see into.

# What one step is

- `begin p` is one pass of `begin_op`'s loop under `log.lock`; a pass
  that goes to sleep leaves the state alone and is taken again later.
- `log_write` is two steps. The bound check reads `log.lh.n` BEFORE
  `acquire(&log.lock)`, so another `log_write` can run between the check
  (`check p b`) and the locked absorption scan (`append p b f`). The
  caller's modification of the buffer, made under the buffer's sleep
  lock, is the `f` of the second step.
- `endOp p` is `end_op`'s first critical section; when it decides to
  commit, `commit()` then runs without any lock, one disk write a step
  (`tick`). Recovery (`recover_from_log`) shares `install_trans` and
  `write_head` with it and ticks through the same program counters.
- `diskRequest` is `sys_disk_request`'s write: it goes through the same
  buffers and outside `begin_op`/`end_op`.
- `crash` loses everything but the disk.

# The cache

`cached`/`dirty`/`bdata` are the buffers: which blocks have one, which
of these carry `B_DIRTY` (pinned by `log_write`), and the contents.
A `bread` that misses is the separate step `load`, recycling is
`evict`; which clean buffer `bget` recycles is left open, so every
order the LRU list can produce is covered. `load` panics as `bget` does
when all `nbuf` buffers are pinned. That capacity is load-bearing: it
is what stops a transaction that slipped past the racy check from
being written past the end of the log.

# Ghost state

`group`, `groups` and `ledger` record what was logged, by whom, for the
specifications only: no step reads them.
-/
import Xv6FsServer.Param
import Xv6FsServer.Lib.Trace
import Mathlib.Data.Finset.Card
import Mathlib.Data.Finset.Basic

namespace Xv6FsServer.Log

open Lib

-- ==== the header block

/-- `write_head`'s copy of the in-memory header into the header block:
`hb->n = n; hb->block[i] = block[i]`. -/
def putHead (lh : List Nat) (b : Block) : Block :=
  (b.putWords 4 lh).put32 0 lh.length

/-- `read_head`: the in-memory header read back from the header block. A
negative `n` reads no entries. -/
def getHead (b : Block) : List Nat :=
  if b.le32 0 < 2147483648 then b.words 4 (b.le32 0) else []

/-- A header of at most `logSize` block numbers survives the disk. -/
theorem getHead_putHead (b : Block) {lh : List Nat}
    (hlen : lh.length ≤ logSize) (hb : ∀ x ∈ lh, x < 4294967296) :
    getHead (putHead lh b) = lh := by
  have hle : lh.length ≤ 30 := hlen
  have hn : (putHead lh b).le32 0 = lh.length := by
    unfold putHead
    exact Bytes.le32_put32 _ (by unfold bsize; omega) (by omega)
  have hw : (putHead lh b).words 4 lh.length = lh := by
    have hframe : (putHead lh b).words 4 lh.length
        = (b.putWords 4 lh).words 4 lh.length := by
      unfold Bytes.words putHead
      refine List.map_congr_left fun i _ => ?_
      exact Bytes.le32_put32_of_disjoint _ (by omega)
    rw [hframe]
    exact Bytes.words_putWords b (by unfold bsize; omega) hb
  unfold getHead
  rw [hn, if_pos (by omega), hw]

-- ==== the state

/-- The panics of log.c and of `bget`. -/
inductive Panic
  | tooBig
  | outsideOfTrans
  | committing
  | noBuffers
  deriving DecidableEq, Repr

/-- Where a process is between `begin_op` and `end_op`: the ghost `id`
names the operation, the ghost `calls` the blocks it has passed to
`log_write`. `checked` is inside `log_write`, past the bound check and
before the lock. -/
inductive OpPc
  | idle
  | inOp (id : Nat) (calls : Finset Nat)
  | checked (id : Nat) (calls : Finset Nat) (b : Nat)
  deriving DecidableEq

/-- Program counter of `commit()` and of `recover_from_log()`. -/
inductive LogPc
  | readHead
  | writeLog (tail : Nat)
  | writeHead
  | install (tail : Nat)
  | eraseHead
  | finish
  deriving DecidableEq, Repr

/-- One logged block: the operation that logged it, its home location
and the contents it was given. -/
structure Write where
  op : Nat
  blockno : Nat
  data : Block

/-- Where mkfs put the log: `sb.logstart` and `sb.nlog`. -/
structure Geometry where
  start : Nat
  size : Nat

structure State where
  disk : Disk
  cached : Finset Nat
  dirty : Finset Nat
  bdata : Nat → Block
  outstanding : Nat
  committing : Bool
  lh : List Nat
  ops : Nat → OpPc
  pc : Option LogPc
  booted : Bool
  panicked : Option Panic
  nextOp : Nat
  group : List Write
  groups : List (List Write)
  ledger : List Write

/-- Power-on: an empty cache, no process, `initlog` about to recover. -/
def powerOn (d : Disk) : State where
  disk := d
  cached := ∅
  dirty := ∅
  bdata := fun _ => Bytes.zero
  outstanding := 0
  committing := false
  lh := []
  ops := fun _ => .idle
  pc := some .readHead
  booted := false
  panicked := none
  nextOp := 0
  group := []
  groups := []
  ledger := []

/-- What `bread` of block `b` returns. -/
def bread (s : State) (b : Nat) : Block :=
  if b ∈ s.cached then s.bdata b else s.disk b

/-- `bwrite`: the buffer and the disk take the contents, and `iderw`
clears `B_DIRTY`. -/
def bwrite (s : State) (b : Nat) (v : Block) : State :=
  { s with
    disk := Function.update s.disk b v
    bdata := Function.update s.bdata b v
    dirty := s.dirty.erase b }

/-- `log_write`'s absorption scan. -/
def absorb (lh : List Nat) (b : Nat) : List Nat :=
  if b ∈ lh then lh else lh ++ [b]

/-- The distinct blocks logged since the last commit. -/
def tally (s : State) : Finset Nat := (s.group.map Write.blockno).toFinset

-- ==== the operations

inductive Act
  | begin (p : Nat)
  | check (p b : Nat)
  | append (p b : Nat) (f : Block → Block)
  | endOp (p : Nat)
  | tick
  | load (b : Nat)
  | evict (b : Nat)
  | diskRequest (sector : Nat) (buf : Block)
  | crash

/-- One pass of `begin_op`'s loop. -/
def beginOp (p : Nat) (s : State) : Option State :=
  match s.ops p with
  | .idle =>
    if s.booted then
      if s.committing then some s
      else if s.lh.length + (s.outstanding + 1) * maxOpBlocks > logSize then
        some s
      else
        some { s with
          outstanding := s.outstanding + 1
          ops := Function.update s.ops p (.inOp s.nextOp ∅)
          nextOp := s.nextOp + 1 }
    else none
  | _ => none

/-- The two checks at the top of `log_write`, made without the lock. A
block number is a 32-bit `uint`. -/
def logCheck (g : Geometry) (p b : Nat) (s : State) : Option State :=
  match s.ops p with
  | .inOp id calls =>
    if b < 4294967296 then
      if s.lh.length ≥ logSize ∨ s.lh.length ≥ g.size - 1 then
        some { s with panicked := some .tooBig }
      else if s.outstanding < 1 then
        some { s with panicked := some .outsideOfTrans }
      else some { s with ops := Function.update s.ops p (.checked id calls b) }
    else none
  | _ => none

/-- The rest of `log_write`, under `log.lock`: absorb or append, pin the
buffer. `f` is what the caller did to the buffer's data. -/
def logAppend (p b : Nat) (f : Block → Block) (s : State) : Option State :=
  match s.ops p with
  | .checked id calls b' =>
    if b' = b ∧ b ∈ s.cached then
      some { s with
        lh := absorb s.lh b
        bdata := Function.update s.bdata b (f (s.bdata b))
        dirty := insert b s.dirty
        ops := Function.update s.ops p (.inOp id (insert b calls))
        group := s.group ++ [⟨id, b, f (s.bdata b)⟩]
        ledger := s.ledger ++ [⟨id, b, f (s.bdata b)⟩] }
    else none
  | _ => none

/-- `end_op`'s first critical section; the last operation out starts
`commit()`, which does nothing on an empty log. -/
def endOp (p : Nat) (s : State) : Option State :=
  match s.ops p with
  | .inOp _ _ =>
    if s.committing then some { s with panicked := some .committing }
    else if s.outstanding - 1 = 0 then
      some { s with
        outstanding := 0
        committing := true
        ops := Function.update s.ops p .idle
        pc := some (if s.lh = [] then .finish else .writeLog 0) }
    else
      some { s with
        outstanding := s.outstanding - 1
        ops := Function.update s.ops p .idle }
  | _ => none

/-- One disk write (or the end of a loop) of `commit()` or
`recover_from_log()`. The blocks it reads must be in the cache: a
missing one is loaded first. -/
def tick (g : Geometry) (s : State) : Option State :=
  match s.pc with
  | none => none
  | some .readHead =>
    if g.start ∈ s.cached then
      some { s with lh := getHead (s.bdata g.start), pc := some (.install 0) }
    else none
  | some (.writeLog tail) =>
    match s.lh[tail]? with
    | some b =>
      if g.start + tail + 1 ∈ s.cached ∧ b ∈ s.cached then
        some { bwrite s (g.start + tail + 1) (s.bdata b) with
          pc := some (.writeLog (tail + 1)) }
      else none
    | none => some { s with pc := some .writeHead }
  | some .writeHead =>
    if g.start ∈ s.cached then
      some { bwrite s g.start (putHead s.lh (s.bdata g.start)) with
        pc := some (.install 0)
        groups := s.groups ++ [s.group]
        group := [] }
    else none
  | some (.install tail) =>
    match s.lh[tail]? with
    | some b =>
      if g.start + tail + 1 ∈ s.cached ∧ b ∈ s.cached then
        some { bwrite s b (s.bdata (g.start + tail + 1)) with
          pc := some (.install (tail + 1)) }
      else none
    | none => some { s with lh := [], pc := some .eraseHead }
  | some .eraseHead =>
    if g.start ∈ s.cached then
      some { bwrite s g.start (putHead s.lh (s.bdata g.start)) with
        pc := some .finish }
    else none
  | some .finish =>
    some { s with committing := false, booted := true, pc := none }

variable {g : Geometry} {s : State}

theorem tick_readHead (hpc : s.pc = some .readHead) (hin : g.start ∈ s.cached) :
    tick g s = some { s with
      lh := getHead (s.bdata g.start), pc := some (.install 0) } := by
  unfold tick
  rw [hpc]
  exact if_pos hin

theorem tick_install_some {k b : Nat} (hpc : s.pc = some (.install k))
    (hb : s.lh[k]? = some b) (hin : g.start + k + 1 ∈ s.cached ∧ b ∈ s.cached) :
    tick g s = some { bwrite s b (s.bdata (g.start + k + 1)) with
      pc := some (.install (k + 1)) } := by
  unfold tick
  rw [hpc]
  dsimp only
  rw [hb]
  exact if_pos hin

theorem tick_install_none {k : Nat} (hpc : s.pc = some (.install k))
    (hb : s.lh[k]? = none) :
    tick g s = some { s with lh := [], pc := some .eraseHead } := by
  unfold tick
  rw [hpc]
  dsimp only
  rw [hb]

theorem tick_eraseHead (hpc : s.pc = some .eraseHead) (hin : g.start ∈ s.cached) :
    tick g s = some { bwrite s g.start (putHead s.lh (s.bdata g.start)) with
      pc := some .finish } := by
  unfold tick
  rw [hpc]
  exact if_pos hin

/-- `bread` of a block without a buffer: take a free buffer and read the
block, or panic when every buffer is pinned. With a clean buffer to
recycle, the recycling (`evict`) comes first. -/
def load (b : Nat) (s : State) : Option State :=
  if b ∈ s.cached then none
  else if s.cached.card < nbuf then
    some { s with
      cached := insert b s.cached
      bdata := Function.update s.bdata b (s.disk b) }
  else if s.cached ⊆ s.dirty then some { s with panicked := some .noBuffers }
  else none

/-- `bget` recycles a buffer that is not dirty. -/
def evict (b : Nat) (s : State) : Option State :=
  if b ∈ s.cached ∧ b ∉ s.dirty then
    some { s with cached := s.cached.erase b }
  else none

/-- `sys_disk_request(sector, buf, 1)`: `bread`, `memmove`, `bwrite`. -/
def diskRequest (sector : Nat) (buf : Block) (s : State) : Option State :=
  if s.booted ∧ sector ∈ s.cached then some (bwrite s sector buf) else none

/-- A power cut: the disk stays, and so does the record of what was
logged and committed. -/
def crash (s : State) : State :=
  { powerOn s.disk with
    nextOp := s.nextOp
    groups := s.groups
    ledger := s.ledger }

/-- What a label does to a running kernel. -/
def live (g : Geometry) (s : State) : Act → Option State
  | .begin p => beginOp p s
  | .check p b => logCheck g p b s
  | .append p b f => logAppend p b f s
  | .endOp p => endOp p s
  | .tick => tick g s
  | .load b => load b s
  | .evict b => evict b s
  | .diskRequest sector buf => diskRequest sector buf s
  | .crash => some (crash s)

def Act.isCrash : Act → Bool
  | .crash => true
  | _ => false

/-- The machine: a panicked kernel only waits for the power cut. -/
def step (g : Geometry) (s : State) (a : Act) : Option State :=
  if s.panicked = none ∨ a.isCrash = true then live g s a else none

theorem live_of_step {s' : State} {a : Act} (h : step g s a = some s') :
    live g s a = some s' := by
  unfold step at h
  split at h
  next => exact h
  next => cases h

theorem step_eq_live {a : Act} (hp : s.panicked = none) : step g s a = live g s a := by
  unfold step
  rw [if_pos (Or.inl hp)]

end Xv6FsServer.Log
