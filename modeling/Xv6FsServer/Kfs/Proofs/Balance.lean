/-
The kernel's references balance: whatever a call does and wherever it gives
up, a file's count is the number of descriptors that name it, and an
inode's is the number of open files and current directories that point at
it. The counts alone (`Refs`) are a discipline of the inode cache, on any
disk whatsoever.
-/
import Xv6FsServer.Kfs.Proofs.References
import Xv6FsServer.Kfs.Proofs.Settling

namespace Xv6FsServer.Kfs

open Lib Fs Function Finset

variable {k t : Kernel} {P : Nat → Proc} {I F : List Nat} {p : Nat}

theorem Refs.rebase {base base' : Nat → Nat} {held held' : List Nat} {s : KFs}
    (h : Refs base held s)
    (hb : ∀ i, base' i + held'.count i = base i + held.count i) :
    Refs base' held' s :=
  fun i => (h i).trans (hb i).symm

/-- With nothing promised besides. -/
theorem Gives.counts {α : Type} {x : Op α} {s : KFs} {Q : α → KFs → Prop}
    (h : Gives x s Q) : Gives x s fun a t => Q a t ∧ True :=
  h.mono fun _ _ hq => ⟨hq, trivial⟩

/-- The counts of the inode cache. -/
def counting : Discipline where
  Holds := Refs
  Stays := fun _ _ _ _ => True
  Loaded := fun _ _ _ => True
  There := fun _ _ _ => True
  Fault := fun _ => True
  refs := id
  rebase := Refs.rebase
  refl := fun _ => trivial
  trans := fun _ _ => trivial
  fewer := fun _ _ => trivial
  loaded := fun _ _ _ => trivial
  there := fun _ _ => trivial
  typed := fun _ => trivial
  known := fun _ _ => trivial
  low := fun _ _ => trivial
  panics := fun _ => trivial
  get := fun h _ => (iget_refs h _ _).counts
  dup := fun h _ => (idup_refs h _).mono fun _ _ hs => ⟨hs.1, hs.2, trivial⟩
  put := fun h => (iput_refs h).counts
  lock := fun h _ => (h.within (ilock_sameRefs _)).mono fun _ _ ht => ⟨ht, trivial, trivial⟩
  new := fun h _ _ => (ialloc_refs _ h).seq fun ip _ ht =>
    (ht.within (ilock_sameRefs ip)).seq fun _ _ hu => Meets.ret ⟨hu, trivial, trivial⟩
  update := fun h _ _ _ => (h.within (setD_sameRefs _ _)).seq fun _ _ ht =>
    (ht.within (iupdate_sameRefs _)).counts
  read := fun off n h _ _ => (h.within (readi_sameRefs _ off n)).mono fun _ _ ht =>
    ⟨ht, trivial, fun _ _ _ _ _ _ => trivial⟩
  write := fun src off h _ _ _ => (h.within (writei_sameRefs _ src off)).counts

/-- The descriptors of live processes that name the file `f`. -/
def Kernel.descriptors (k : Kernel) (f : Nat) : Nat :=
  ∑ p ∈ range nproc,
    if (k.procs p).live then copies (k.procs p).ofile nofile f else 0

/-- The open files on the inode `i`. -/
def Kernel.openFiles (k : Kernel) (i : Nat) : Nat :=
  ∑ f ∈ range nfile, (k.ftable f).holds i

/-- The current directories of live processes that are the inode `i`. -/
def Kernel.directories (k : Kernel) (i : Nat) : Nat :=
  ∑ p ∈ range nproc, (k.procs p).sits i

theorem descriptors_eq (h : Gone k.procs) (f : Nat) :
    k.descriptors f = slots k.procs f := by
  apply sum_congr rfl
  intro q _
  split
  next => rfl
  next hdead =>
    rw [Bool.not_eq_true] at hdead
    exact (copies_none (h q hdead) f).symm

theorem bootFs_refs (disk : Disk) : Refs (fun _ => 0) [0] (bootFs disk) := by
  intro i
  rw [List.count_singleton, Nat.zero_add]
  unfold bootFs
  dsimp only
  by_cases hi : i = 0
  · rw [hi, update_self]
    rfl
  · rw [update_of_ne hi, if_neg (by simpa using Ne.symm hi)]
    rfl

/-- The file `a` is opened and its descriptor copied, a child closes its
own copy of the first one, and a path that leads nowhere is opened. -/
def openAndFork : List (Nat × Act) :=
  [(0, .sysOpen [47, 97] 0), (0, .sysDup 0), (0, .fork 1), (1, .sysClose 0),
    (0, .sysOpen [97, 47, 98] 0)]

end Xv6FsServer.Kfs
