/-
Physical pages and address spaces: kalloc.c, vm.c, and the calls of proc.c,
exec.c and pipe.c that take and give back pages.

A page is known by its physical page number. `Mem.entry` is the contents of
every page, read as the 512 entries of a page table: nothing where `PTE_P` is
clear, which in a page table is the word 0. What user pages hold is of no
account here, and is whatever `fill` puts there.

Sizes and addresses are 64-bit numbers, kept below 2^64 where the arithmetic
can leave that range. `kalloc` does not return 0 but panics when the list is
empty, so the branches of its callers for that case are not reached and are
left out. A loop carries a bound that its own condition reaches first.
-/
import Xv6FsServer.Lib.Prog
import Xv6FsServer.Lib.Search
import Xv6FsServer.Param

namespace Xv6FsServer.Vm

open Lib Function

def pgSize : Nat := 4096

def kernBase : Nat := 0xFFFF800000000000

/-- The pages below `PHYSTOP`. -/
def physPages : Nat := 0xE000000 / pgSize

def nptentries : Nat := 512

/-- Arithmetic of `addr_t`. -/
def word (a : Nat) : Nat := a % 2 ^ 64

def pgRoundUp (a : Nat) : Nat := word (a + (pgSize - 1)) / pgSize * pgSize

def pgRoundDown (a : Nat) : Nat := a / pgSize * pgSize

/-- A page table entry with `PTE_P`: the address and the flags `PTE_W` and
`PTE_U`. -/
structure Pte where
  page : Nat
  writable : Bool
  user : Bool
deriving DecidableEq, Repr

structure Mem where
  /-- The first page behind the kernel, `PGROUNDUP(end)`. -/
  endPage : Nat
  kpdpt : Nat
  freelist : List Nat
  entry : Nat → Nat → Option Pte

inductive Panic
  | outOfMemory
  | kfree
  | remap
  | loaduvm
  | clearpteu
  | nullPte
  | noPte
  | notPresent
deriving DecidableEq, Repr

abbrev Op : Type → Type := Prog Mem Panic

-- ==== the allocator

/-- A page of bytes 1, as `kfree` leaves it. -/
def junk : Nat → Option Pte := fun _ => some ⟨0x101010101010, false, false⟩

/-- Write a page. -/
def fill (page : Nat) (contents : Nat → Option Pte) : Op Unit :=
  modify fun s => { s with entry := update s.entry page contents }

def setEntry (page i : Nat) (e : Option Pte) : Op Unit :=
  modify fun s =>
    { s with entry := update s.entry page (update (s.entry page) i e) }

def kalloc : Op Nat := do
  let s ← get
  match s.freelist with
  | [] => throw .outOfMemory
  | page :: rest => do
    modify fun s => { s with freelist := rest }
    pure page

def kfree (page : Nat) : Op Unit := do
  let s ← get
  if page < s.endPage ∨ physPages ≤ page then throw .kfree
  else do
    fill page junk
    modify fun s => { s with freelist := page :: s.freelist }

/-- `kalloc` and `memset(p, 0, PGSIZE)`. -/
def kallocZeroed : Op Nat := do
  let page ← kalloc
  fill page fun _ => none
  pure page

-- ==== page tables

def setupkvm : Op Nat := do
  let pml4 ← kallocZeroed
  let s ← get
  setEntry pml4 256 (some ⟨s.kpdpt, true, false⟩)
  pure pml4

def pmx (va : Nat) : Nat := va / 2 ^ 39 % 512
def pdpx (va : Nat) : Nat := va / 2 ^ 30 % 512
def pdx (va : Nat) : Nat := va / 2 ^ 21 % 512
def ptx (va : Nat) : Nat := va / 2 ^ 12 % 512

/-- One level of `walkpgdir`: the table that entry `i` of `table` names, made
if it is not there and `alloc` is set. -/
def nextTable (alloc : Bool) (table i : Nat) : Op (Option Nat) := do
  let s ← get
  match s.entry table i with
  | some e => pure (some e.page)
  | none =>
    if alloc = false then pure none
    else do
      let page ← kallocZeroed
      setEntry table i (some ⟨page, true, true⟩)
      pure (some page)

/-- The page table and the slot of the entry for `va`. -/
def walkpgdir (pml4 va : Nat) (alloc : Bool) : Op (Option (Nat × Nat)) := do
  match ← nextTable alloc pml4 (pmx va) with
  | none => pure none
  | some pdp =>
    match ← nextTable alloc pdp (pdpx va) with
    | none => pure none
    | some pd =>
      match ← nextTable alloc pd (pdx va) with
      | none => pure none
      | some pgtab => pure (some (pgtab, ptx va))

/-- `mappages` of the one page at `va`, which is all that is asked of it. -/
def mappages (pgdir va page : Nat) (writable user : Bool) : Op Unit := do
  match ← walkpgdir pgdir (pgRoundDown va) true with
  | none => pure ()
  | some (pgtab, i) => do
    let s ← get
    match s.entry pgtab i with
    | some _ => throw .remap
    | none => setEntry pgtab i (some ⟨page, writable, user⟩)

def allocuvmLoop (pgdir : Nat) : Nat → Nat → Nat → Op Unit
  | 0, _, _ => pure ()
  | n + 1, a, newsz =>
    if a < newsz then do
      let mem ← kallocZeroed
      mappages pgdir a mem true true
      allocuvmLoop pgdir n (a + pgSize) newsz
    else pure ()

def allocuvm (pgdir oldsz newsz : Nat) : Op Nat :=
  if kernBase ≤ newsz then pure 0
  else if newsz < oldsz then pure oldsz
  else do
    allocuvmLoop pgdir (newsz / pgSize + 1) (pgRoundUp oldsz) newsz
    pure newsz

/-- The page at `a` is freed, if there is one. -/
def unmapPage (pgdir a : Nat) : Op Unit := do
  match ← walkpgdir pgdir a false with
  | none => pure ()
  | some (pgtab, i) => do
    let s ← get
    match s.entry pgtab i with
    | none => pure ()
    | some e =>
      if e.page = 0 then throw .kfree
      else do
        kfree e.page
        setEntry pgtab i none

def deallocuvmLoop (pgdir : Nat) : Nat → Nat → Nat → Op Unit
  | 0, _, _ => pure ()
  | n + 1, a, oldsz =>
    if a < oldsz then do
      unmapPage pgdir a
      deallocuvmLoop pgdir n (a + pgSize) oldsz
    else pure ()

def deallocuvm (pgdir oldsz newsz : Nat) : Op Nat :=
  if oldsz ≤ newsz then pure oldsz
  else do
    deallocuvmLoop pgdir (oldsz / pgSize + 1) (pgRoundUp newsz) oldsz
    pure newsz

/-- One of the loops of `freevm`: what the first `n` entries of a table from
`i` on name is freed. -/
def freeEntries (free : Nat → Op Unit) (table : Nat) : Nat → Nat → Op Unit
  | 0, _ => pure ()
  | n + 1, i => do
    let s ← get
    match s.entry table i with
    | some e => do
      free e.page
      freeEntries free table n (i + 1)
    | none => freeEntries free table n (i + 1)

def freeTable (free : Nat → Op Unit) (n table : Nat) : Op Unit := do
  freeEntries free table n 0
  kfree table

def freePt : Nat → Op Unit := freeTable kfree nptentries
def freePd : Nat → Op Unit := freeTable freePt nptentries
def freePdp : Nat → Op Unit := freeTable freePd nptentries

/-- `freevm` leaves the upper half of the PML4, the kernel's, alone. -/
def freevm (pml4 : Nat) : Op Unit := freeTable freePdp (nptentries / 2) pml4

def clearpteu (pgdir uva : Nat) : Op Unit := do
  match ← walkpgdir pgdir uva false with
  | none => throw .clearpteu
  | some (pgtab, i) => do
    let s ← get
    setEntry pgtab i ((s.entry pgtab i).map fun e => { e with user := false })

/-- The page at `i` is copied into the table `d`. -/
def copyPage (pgdir d i : Nat) : Op Unit := do
  match ← walkpgdir pgdir i false with
  | none => throw .noPte
  | some (pgtab, slot) => do
    let s ← get
    match s.entry pgtab slot with
    | none => throw .notPresent
    | some e => do
      let mem ← kalloc
      let t ← get
      fill mem (t.entry e.page)
      mappages d i mem e.writable e.user

def copyuvmLoop (pgdir d : Nat) : Nat → Nat → Nat → Op Unit
  | 0, _, _ => pure ()
  | n + 1, i, sz =>
    if i < sz then do
      copyPage pgdir d i
      copyuvmLoop pgdir d n (i + pgSize) sz
    else pure ()

/-- `copyuvm(pgdir, uint sz)` -/
def copyuvm (pgdir sz : Nat) : Op Nat := do
  let sz := sz % 2 ^ 32
  let d ← setupkvm
  copyuvmLoop pgdir d (sz / pgSize + 1) pgSize sz
  pure d

-- ==== exec

/-- A program header, with what `readi` makes of it: whether it could be read,
and how many pages of its segment can be. -/
structure Ph where
  readable : Bool
  load : Bool
  vaddr : Nat
  memsz : Nat
  filesz : Nat
  pages : Nat
  memsz_lt : memsz < 2 ^ 64

/-- What `exec` finds: whether the file is a program, its headers, the lengths
of the arguments, and the bytes that go to user pages. The arguments are
strings in the caller's memory. -/
structure Image where
  elf : Bool
  phs : List Ph
  args : List Nat
  bytes : Nat → Nat → Option Pte
  args_lt : ∀ len ∈ args, len < physPages * pgSize

/-- The loop of `loaduvm`: page `i` of the segment goes to the page that `addr`
is mapped to, or to page 0 if that is none. -/
def loaduvmLoop (pgdir : Nat) (bytes : Nat → Nat → Option Pte) (readable : Nat) :
    Nat → Nat → Nat → Op Bool
  | 0, _, _ => pure true
  | n + 1, i, addr => do
    match ← walkpgdir pgdir addr false with
    | none => throw .loaduvm
    | some (pgtab, slot) => do
      let s ← get
      fill ((s.entry pgtab slot).elim 0 Pte.page) (bytes addr)
      if i < readable then loaduvmLoop pgdir bytes readable n (i + 1) (addr + pgSize)
      else pure false

/-- `loaduvm` of a segment of `uint` size. -/
def loaduvm (pgdir : Nat) (bytes : Nat → Nat → Option Pte) (ph : Ph) : Op Bool :=
  let sz := ph.filesz % 2 ^ 32
  loaduvmLoop pgdir bytes ph.pages ((sz + (pgSize - 1)) / pgSize) 0 ph.vaddr

/-- The segments: the size they make, or nothing for `goto bad`. -/
def loadSegments (pgdir : Nat) (bytes : Nat → Nat → Option Pte) :
    List Ph → Nat → Op (Option Nat)
  | [], sz => pure (some sz)
  | ph :: phs, sz =>
    if ph.readable = false then pure none
    else if ph.load = false then loadSegments pgdir bytes phs sz
    else if ph.memsz < ph.filesz then pure none
    else if word (ph.vaddr + ph.memsz) < ph.vaddr then pure none
    else do
      let sz ← allocuvm pgdir sz (word (ph.vaddr + ph.memsz))
      if sz = 0 then pure none
      else if ph.vaddr % pgSize ≠ 0 then pure none
      else if ← loaduvm pgdir bytes ph then loadSegments pgdir bytes phs sz
      else pure none

/-- `copyout` of `len` bytes to `va`. -/
def copyoutLoop (pgdir : Nat) (bytes : Nat → Nat → Option Pte) :
    Nat → Nat → Nat → Op Bool
  | 0, _, _ => pure true
  | n + 1, va, len =>
    if len = 0 then pure true
    else do
      let va0 := pgRoundDown va
      match ← walkpgdir pgdir va0 false with
      | none => throw .nullPte
      | some (pgtab, i) => do
        let s ← get
        match s.entry pgtab i with
        | none => pure false
        | some e =>
          if e.user = false then pure false
          else do
            fill e.page (bytes va)
            copyoutLoop pgdir bytes n (va0 + pgSize) (len - (pgSize - (va - va0)))

def copyout (pgdir : Nat) (bytes : Nat → Nat → Option Pte) (va len : Nat) : Op Bool :=
  copyoutLoop pgdir bytes len va len

def maxArg : Nat := 32

/-- The argument strings, pushed from `sp` on; the stack pointer then. -/
def pushArgs (pgdir : Nat) (bytes : Nat → Nat → Option Pte) :
    Nat → List Nat → Nat → Op (Option Nat)
  | _, [], sp => pure (some sp)
  | argc, len :: args, sp =>
    if maxArg ≤ argc then pure none
    else do
      let sp := word (sp + 2 ^ 64 - (len + 1)) / 8 * 8
      if ← copyout pgdir bytes sp (len + 1) then pushArgs pgdir bytes (argc + 1) args sp
      else pure none

/-- What goes to the new stack, whose top is `sz`: `exec` goes on if it did. -/
def buildStack (pgdir : Nat) (img : Image) (sz : Nat) : Op Bool := do
  clearpteu pgdir (sz - 2 * pgSize)
  match ← pushArgs pgdir img.bytes 0 img.args sz with
  | none => pure false
  | some sp =>
    let len := (1 + img.args.length + 1) * 8
    copyout pgdir img.bytes (word (sp + 2 ^ 64 - len)) len

/-- The new image of `exec` in the table `pgdir`: its size, or nothing for
`goto bad`. -/
def buildImage (pgdir : Nat) (img : Image) : Op (Option Nat) := do
  match ← loadSegments pgdir img.bytes img.phs pgSize with
  | none => pure none
  | some sz => do
    let sz := pgRoundUp sz
    let sz ← allocuvm pgdir sz (word (sz + 2 * pgSize))
    if sz = 0 then pure none
    else if ← buildStack pgdir img sz then pure (some sz)
    else pure none

/-- `exec`: the table and size of the process afterwards. -/
def execImage (img : Image) (pgdir sz : Nat) : Op (Nat × Nat) :=
  if img.elf = false then pure (pgdir, sz)
  else do
    let new ← setupkvm
    match ← buildImage new img with
    | none => do
      freevm new
      pure (pgdir, sz)
    | some newsz => do
      freevm pgdir
      pure (new, newsz)

/-- `growproc`: the size afterwards, or nothing for -1. On -1 the source
leaves out `switchuvm` and with it the reload of CR3, so the processor may go
on with the translations of pages that `deallocuvm` has freed. -/
def growproc (pgdir sz : Nat) (n : Int) : Op (Option Nat) :=
  let newsz := ((sz + n) % 2 ^ 64).toNat
  if 0 < n then do
    let sz ← allocuvm pgdir sz newsz
    pure (if sz = 0 then none else some sz)
  else if n < 0 then do
    let sz ← deallocuvm pgdir sz newsz
    pure (if sz = 0 then none else some sz)
  else pure (some sz)

-- ==== the system

/-- A slot of the process table; `used` is not `UNUSED`. -/
structure Proc where
  used : Bool
  zombie : Bool
  parent : Nat
  pgdir : Nat
  kstack : Nat
  sz : Nat

/-- A page with a pipe in it. -/
structure PipePage where
  page : Nat
  readopen : Bool
  writeopen : Bool

/-- `early` are the pages taken before there were processes, for as long as the
kernel runs. -/
structure Sys where
  mem : Mem
  procs : Nat → Proc
  pipes : List PipePage
  early : List Nat

def initproc : Nat := 0

/-- A call's work on the pages, and what follows if it does not panic. -/
def Sys.on {α : Type} (k : Sys) (x : Op α) (f : α → Sys → Sys) : Option Sys :=
  match exec x k.mem with
  | (.ok a, m) => some (f a { k with mem := m })
  | (.error _, _) => none

def Sys.setProc (k : Sys) (p : Nat) (X : Proc) : Sys :=
  { k with procs := update k.procs p X }

/-- The pages of a new process: a kernel stack and a copy of the parent's
memory. -/
def forkPages (X : Proc) : Op (Nat × Nat) := do
  let kstack ← kalloc
  let pgdir ← copyuvm X.pgdir X.sz
  pure (kstack, pgdir)

def Sys.fork (k : Sys) (p : Nat) : Option Sys :=
  match first (fun q => !(k.procs q).used) 0 nproc with
  | none => some k
  | some np => k.on (forkPages (k.procs p)) fun r k => k.setProc np
      { used := true
        zombie := false
        parent := p
        pgdir := r.2
        kstack := r.1
        sz := (k.procs p).sz }

def Sys.exec (k : Sys) (p : Nat) (img : Image) : Option Sys :=
  k.on (execImage img (k.procs p).pgdir (k.procs p).sz) fun r k => k.setProc p
    { k.procs p with pgdir := r.1, sz := r.2 }

def Sys.sbrk (k : Sys) (p : Nat) (n : Int) : Option Sys :=
  k.on (growproc (k.procs p).pgdir (k.procs p).sz n) fun r k => k.setProc p
    { k.procs p with sz := r.getD (k.procs p).sz }

/-- `exit` keeps the pages; children pass to `init`. -/
def Sys.exit (k : Sys) (p : Nat) : Sys :=
  { k with
    procs := fun q =>
      let X := k.procs q
      { X with
        zombie := if q = p then true else X.zombie
        parent := if X.parent = p then initproc else X.parent } }

def reap (X : Proc) : Op Unit := do
  kfree X.kstack
  freevm X.pgdir

/-- `wait`, once it has found what it is looking for. -/
def Sys.wait (k : Sys) (p : Nat) : Option Sys :=
  match first (fun q => (k.procs q).used && (k.procs q).zombie
      && (k.procs q).parent == p) 0 nproc with
  | none => some k
  | some q => k.on (reap (k.procs q)) fun _ k => k.setProc q
      { k.procs q with used := false }

/-- `pipealloc`; `files` says whether there were two files for it. -/
def Sys.pipealloc (k : Sys) (files : Bool) : Option Sys :=
  if files = false then some k
  else k.on kalloc fun page k => { k with pipes := ⟨page, true, true⟩ :: k.pipes }

/-- `pipeclose` of one end of pipe `i`. -/
def Sys.pipeclose (k : Sys) (i : Nat) (writable : Bool) : Option Sys :=
  match k.pipes[i]? with
  | none => none
  | some P =>
    let P := if writable then { P with writeopen := false }
      else { P with readopen := false }
    if P.readopen = false ∧ P.writeopen = false then
      k.on (kfree P.page) fun _ k => { k with pipes := k.pipes.eraseIdx i }
    else some { k with pipes := k.pipes.set i P }

/-- The entry the processor finds for a user address, by a walk at every
access: no TLB is modelled. The upper half of a PML4 is not for user code, the
kernel's entry there having no `PTE_U`. -/
def lookup (s : Mem) (pgdir va : Nat) : Option Pte :=
  if 2 ^ 47 ≤ va then none
  else
    (s.entry pgdir (pmx va)).bind fun e =>
      (s.entry e.page (pdpx va)).bind fun e =>
        (s.entry e.page (pdx va)).bind fun e => s.entry e.page (ptx va)

/-- A store by user code, to a page it may write. -/
def userStore (pgdir va : Nat) (contents : Nat → Option Pte) : Op Unit := do
  let s ← get
  match lookup s pgdir va with
  | none => pure ()
  | some e => if e.user && e.writable then fill e.page contents else pure ()

inductive Call
  | fork
  | exec (img : Image)
  | sbrk (n : Int)
  | exit
  | wait
  | pipealloc (files : Bool)
  | pipeclose (i : Nat) (writable : Bool)
  | store (va : Nat) (contents : Nat → Option Pte)

/-- What process `proc` does at the instruction `pc`. -/
structure Act where
  proc : Nat
  pc : Nat
  call : Call

/-- There is an instruction at `pc` for the process to execute. A process
whose pages are gone makes no call but `exit`; on a processor that still has
their translations it might. -/
def Sys.fetches (k : Sys) (p pc : Nat) : Bool :=
  (lookup k.mem (k.procs p).pgdir pc).any Pte.user

/-- Whether it takes an instruction of the process: a page fault where there is
none is answered by `trap` with `exit`. -/
def Call.instruction : Call → Bool
  | .exit => false
  | _ => true

/-- A call of a process that runs. -/
def Sys.step (k : Sys) (a : Act) : Option Sys :=
  let p := a.proc
  if p < nproc ∧ (k.procs p).used = true ∧ (k.procs p).zombie = false
      ∧ (a.call.instruction = true → k.fetches p a.pc = true) then
    match a.call with
    | .fork => k.fork p
    | .exec img => k.exec p img
    | .sbrk n => k.sbrk p n
    | .exit => if p = initproc then none else some (k.exit p)
    | .wait => k.wait p
    | .pipealloc files => k.pipealloc files
    | .pipeclose i writable => k.pipeclose i writable
    | .store va contents =>
      k.on (userStore (k.procs p).pgdir va contents) fun _ k => k
  else none

-- ==== boot

/-- Memory when `kinit1` has freed the pages behind the kernel; `low` is what
the others hold. -/
def Mem.start (endPage : Nat) (low : Nat → Nat → Option Pte) : Mem where
  endPage := endPage
  kpdpt := 0
  freelist := (List.range' endPage (physPages - endPage)).reverse
  entry := fun page => if endPage ≤ page ∧ page < physPages then junk else low page

/-- The pages of the other processors: a stack and the local storage each. -/
def startothers : Nat → Op (List Nat)
  | 0 => pure []
  | n + 1 => do
    let stack ← kalloc
    let loc ← kallocZeroed
    let rest ← startothers n
    pure (stack :: loc :: rest)

/-- `kvmalloc`, `tvinit`, `seginit` and `startothers`. -/
def bootPages (ncpu : Nat) : Op (List Nat) := do
  let kpml4 ← kallocZeroed
  let kpdpt ← kallocZeroed
  modify fun s => { s with kpdpt := kpdpt }
  setEntry kpml4 256 (some ⟨kpdpt, true, false⟩)
  setEntry kpdpt 0 (some ⟨0, true, false⟩)
  setEntry kpdpt 3 (some ⟨0xC0000, true, false⟩)
  let idt ← kallocZeroed
  let loc ← kallocZeroed
  let others ← startothers (ncpu - 1)
  pure (kpml4 :: kpdpt :: idt :: loc :: others)

/-- The pages of the first process. -/
def userinitPages (code : Nat → Option Pte) : Op (Nat × Nat) := do
  let kstack ← kalloc
  let pgdir ← setupkvm
  let mem ← kallocZeroed
  mappages pgdir pgSize mem true true
  fill mem code
  pure (kstack, pgdir)

def Proc.none : Proc where
  used := false
  zombie := false
  parent := 0
  pgdir := 0
  kstack := 0
  sz := 0

/-- The kernel when the first process is ready to run. -/
def Sys.boot (endPage ncpu : Nat) (low : Nat → Nat → Option Pte)
    (code : Nat → Option Pte) : Option Sys :=
  let k : Sys := ⟨.start endPage low, fun _ => .none, [], []⟩
  (k.on (bootPages ncpu) fun boot k => { k with early := boot }).bind fun k =>
    k.on (userinitPages code) fun r k => k.setProc initproc
      { used := true
        zombie := false
        parent := 0
        pgdir := r.2
        kstack := r.1
        sz := pgSize * 2 }

end Xv6FsServer.Vm
