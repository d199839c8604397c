/-
pipe.c: one pipe, and the calls that any processes make on it.

A call holds the pipe's lock from where it starts or wakes up to where it
sleeps or returns, and such a stretch is one step here. A sleeper may wake
up at any time, with or without a wakeup, since the loops test again what
they wait for; `killed` is what the stretch reads in `proc->killed`.

`nread` and `nwrite` are unsigned 32-bit counters and wrap. What a process
has stored and what reads have returned is kept beside the pipe in the
order it happened.
-/
import Xv6FsServer.Lib.Ring

namespace Xv6FsServer.Pipes

open Lib Function

def pipeSize : Nat := 512

structure Pipe where
  data : Nat → UInt8
  nread : UInt32
  nwrite : UInt32
  readopen : Bool
  writeopen : Bool

/-- How a stretch under the lock ends. -/
inductive Stretch
  | returns (result : Int)
  | sleeps
deriving DecidableEq

/-- `pipealloc`, on a page that may hold anything. -/
def pipealloc (data : Nat → UInt8) : Pipe where
  data := data
  nread := 0
  nwrite := 0
  readopen := true
  writeopen := true

/-- `p->data[p->nwrite++ % PIPESIZE] = b` -/
def Pipe.put (p : Pipe) (b : UInt8) : Pipe :=
  { p with
    data := update p.data (p.nwrite.toNat % pipeSize) b
    nwrite := p.nwrite + 1 }

/-- `p->data[p->nread % PIPESIZE]` -/
def Pipe.front (p : Pipe) : UInt8 := p.data (p.nread.toNat % pipeSize)

def Pipe.take (p : Pipe) : Pipe := { p with nread := p.nread + 1 }

/-- The loop of `pipewrite` of `n` bytes from the byte `i` on, the bytes from
there on in hand. -/
def pipewriteLoop (killed : Bool) (n : Nat) :
    Pipe → Nat → List UInt8 → Pipe × Nat × Stretch
  | p, i, [] => (p, i, .returns n)
  | p, i, b :: rest =>
    if p.nwrite = p.nread + UInt32.ofNat pipeSize then
      if p.readopen = false ∨ killed = true then (p, i, .returns (-1))
      else (p, i, .sleeps)
    else pipewriteLoop killed n (p.put b) (i + 1) rest

/-- The copying loop of `piperead`, with what it copies. -/
def pipereadCopy : Nat → Pipe → Pipe × List UInt8
  | 0, p => (p, [])
  | n + 1, p =>
    if p.nread = p.nwrite then (p, [])
    else
      let r := pipereadCopy n p.take
      (r.1, p.front :: r.2)

/-- `piperead` from where it starts or wakes up. -/
def piperead (killed : Bool) (n : Nat) (p : Pipe) : Pipe × List UInt8 × Stretch :=
  if p.nread = p.nwrite ∧ p.writeopen = true then
    if killed = true then (p, [], .returns (-1)) else (p, [], .sleeps)
  else
    let r := pipereadCopy n p
    (r.1, r.2, .returns r.2.length)

def pipeclose (p : Pipe) (writable : Bool) : Pipe :=
  if writable = true then { p with writeopen := false } else { p with readopen := false }

/-- The bytes in the pipe. -/
def Pipe.buffered (p : Pipe) : List UInt8 :=
  window pipeSize p.data p.nread.toNat (p.nwrite - p.nread).toNat

-- ==== the system

/-- What a process is in the middle of. -/
inductive Phase
  | out
  | writing (addr : List UInt8) (i : Nat)
  | reading (n : Nat)

/-- A call of `pipewrite` that has returned, with the number of bytes it
stored. -/
structure Written where
  addr : List UInt8
  i : Nat
  result : Int

structure Sys where
  pipe : Pipe
  phase : Nat → Phase
  past : Nat → List Written
  stored : List (Nat × UInt8)
  taken : List UInt8

/-- A stretch of `pipewrite`, called by process `c`. -/
def Sys.write (s : Sys) (c : Nat) (addr : List UInt8) (i : Nat) (killed : Bool) : Sys :=
  let (q, j, e) := pipewriteLoop killed addr.length s.pipe i (addr.drop i)
  let s := { s with
    pipe := q
    stored := s.stored ++ ((addr.take j).drop i).map (Prod.mk c) }
  match e with
  | .sleeps => { s with phase := update s.phase c (.writing addr j) }
  | .returns r =>
    { s with
      phase := update s.phase c .out
      past := update s.past c (s.past c ++ [⟨addr, j, r⟩]) }

/-- A stretch of `piperead`. -/
def Sys.read (s : Sys) (c n : Nat) (killed : Bool) : Sys :=
  let (q, bytes, e) := piperead killed n s.pipe
  let s := { s with pipe := q, taken := s.taken ++ bytes }
  match e with
  | .sleeps => { s with phase := update s.phase c (.reading n) }
  | .returns _ => { s with phase := update s.phase c .out }

inductive Act
  | pipewrite (c : Nat) (addr : List UInt8) (killed : Bool)
  | piperead (c n : Nat) (killed : Bool)
  | wake (c : Nat) (killed : Bool)
  | pipeclose (writable : Bool)

/-- `pipeclose` gives the page back when both ends are closed: there is no
pipe from then on. -/
def Sys.step (s : Sys) (a : Act) : Option Sys :=
  if s.pipe.readopen = false ∧ s.pipe.writeopen = false then none
  else
    match a with
    | .pipewrite c addr killed =>
      match s.phase c with
      | .out => some (s.write c addr 0 killed)
      | _ => none
    | .piperead c n killed =>
      match s.phase c with
      | .out => some (s.read c n killed)
      | _ => none
    | .wake c killed =>
      match s.phase c with
      | .out => none
      | .writing addr i => some (s.write c addr i killed)
      | .reading n => some (s.read c n killed)
    | .pipeclose writable => some { s with pipe := pipeclose s.pipe writable }

/-- A new pipe, and nobody at work on it. -/
def Sys.init (data : Nat → UInt8) : Sys where
  pipe := pipealloc data
  phase := fun _ => .out
  past := fun _ => []
  stored := []
  taken := []

end Xv6FsServer.Pipes
