/-
The reference counts of the kernel's inode cache, in the functions of fs.c.

`Refs base held s` counts: the references of a slot are `base`, those that
files and current directories have, and its entries in `held`, the list of
what the running code holds. A function that returns an inode returns one
reference with it, and no other function touches a count. The disk is
arbitrary; a function that panics says nothing.
-/
import Xv6FsServer.Kfs.Proofs.Discipline

namespace Xv6FsServer.Kfs

open Lib Fs Function Within

variable {s t : KFs} {base : Nat → Nat} {held : List Nat}
variable {ip : Nat}

/-- What holds if the program returns. -/
abbrev Gives {α : Type} (x : Op α) (s : KFs) (Q : α → KFs → Prop) : Prop :=
  Safe (fun _ => True) x s Q

-- ==== what touches no reference

/-- No count changes. -/
def SameRefs (s t : KFs) : Prop := ∀ i, (t.inodes i).ref = (s.inodes i).ref

instance : Std.Refl SameRefs := ⟨fun _ _ => rfl⟩

instance : IsTrans KFs SameRefs := ⟨fun _ _ _ h1 h2 i => (h2 i).trans (h1 i)⟩

/-- The account does not change with the rest of the file system. -/
theorem Refs.same (h : Refs base held s) (hst : SameRefs s t) : Refs base held t :=
  fun i => (hst i).trans (h i)

/-- A program that touches no count keeps them. -/
theorem Refs.within {α : Type} {x : Op α} (h : Refs base held s)
    (hx : Within SameRefs x) : Gives x s fun _ t => Refs base held t :=
  ((hx.leaves s).mono fun _ _ hst => h.same hst).weaken fun _ _ _ => trivial

theorem setBlock_sameRefs (b : Nat) (f : Block → Block) :
    Within SameRefs (setBlock b f) :=
  change fun _ _ => rfl

/-- New fields in a slot of the cache. -/
theorem setInode_sameRefs (ip : Nat) {f : Inode → Inode}
    (hf : ∀ n, (f n).ref = n.ref) : Within SameRefs (setInode ip f) := by
  apply change
  intro s i
  show (update s.inodes ip (f (s.inodes ip)) i).ref = _
  by_cases hi : i = ip
  · rw [hi, update_self]
    exact hf _
  · rw [update_of_ne hi]

theorem setD_sameRefs (ip : Nat) (f : DInode → DInode) :
    Within SameRefs (setD ip f) :=
  setInode_sameRefs ip fun _ => rfl

/-- Blocks have no counts. -/
theorem balloc_sameRefs : Within SameRefs balloc := by
  apply Within.bind Within.read
  intro s
  split
  next b _ =>
    apply Within.bind (setBlock_sameRefs _ _)
    intro _
    apply bind (setBlock_sameRefs _ _)
    exact fun _ => ret b
  next => exact fault _

theorem bfree_sameRefs (b : Nat) : Within SameRefs (bfree b) := by
  apply Within.bind (Within.change fun _ _ => rfl)
  intro _
  apply Within.bind Within.read
  intro s
  split
  next => exact setBlock_sameRefs _ _
  next => exact fault _

/-- A slot is loaded under the reference its caller has. -/
theorem ilock_sameRefs (ip : Nat) : Within SameRefs (ilock ip) := by
  apply Within.bind Within.read
  intro s
  split
  next => exact Within.fault _
  split
  next => exact ret _
  refine bind (setInode_sameRefs ip ?_) fun _ => ?_
  · exact fun _ => rfl
  · split
    next => exact fault _
    next => exact ret _

theorem iupdate_sameRefs (ip : Nat) : Within SameRefs (iupdate ip) :=
  bind read fun _ => setBlock_sameRefs _ _

theorem freeAddrs_sameRefs (ip n k : Nat) : Within SameRefs (freeAddrs ip n k) := by
  induction n generalizing k with
  | zero => exact Within.ret _
  | succ n ih =>
    apply Within.bind Within.read
    intro s
    split
    next =>
      apply bind (bfree_sameRefs _)
      intro _
      apply bind (setD_sameRefs ip _)
      exact fun _ => ih (k + 1)
    next => exact ih (k + 1)

theorem freeEntries_sameRefs (a : Block) (n j : Nat) :
    Within SameRefs (freeEntries a n j) := by
  induction n generalizing j with
  | zero => exact ret _
  | succ n ih =>
    unfold freeEntries
    split
    next => exact bind (bfree_sameRefs _) fun _ => ih (j + 1)
    next => exact ih (j + 1)

/-- The direct blocks, then the indirect block's entries and the block itself. -/
theorem itrunc_sameRefs (ip : Nat) : Within SameRefs (itrunc ip) := by
  have hend : Within SameRefs (do
      setD ip fun d => { d with size := 0 }
      iupdate ip) :=
    bind (setD_sameRefs ip _) fun _ => iupdate_sameRefs ip
  apply Within.bind (freeAddrs_sameRefs ip _ _)
  intro _
  apply Within.bind Within.read
  intro s
  split
  next =>
    apply bind (freeEntries_sameRefs _ _ _)
    intro _
    apply bind (bfree_sameRefs _)
    intro _
    exact bind (setD_sameRefs ip _) fun _ => hend
  next => exact hend

theorem bmapAddr_sameRefs (ip k : Nat) : Within SameRefs (bmapAddr ip k) := by
  apply Within.bind Within.read
  intro s
  split
  next =>
    apply Within.bind balloc_sameRefs
    intro b
    exact bind (setD_sameRefs ip _) fun _ => ret b
  next => exact ret _

/-- Whether a block is found or allocated. -/
theorem bmap_sameRefs (ip bn : Nat) : Within SameRefs (bmap ip bn) := by
  unfold bmap
  split
  next => exact bmapAddr_sameRefs ip bn
  split
  next =>
    apply Within.bind (bmapAddr_sameRefs ip _)
    intro ind
    apply Within.bind Within.read
    intro s
    split
    next =>
      apply bind balloc_sameRefs
      intro b
      exact bind (setBlock_sameRefs _ _) fun _ => ret b
    next => exact ret _
  next => exact fault _

/-- By induction on the blocks still to be read. -/
theorem readiLoop_sameRefs (ip k off n : Nat) :
    Within SameRefs (readiLoop ip k off n) := by
  induction k generalizing off n with
  | zero => exact ret _
  | succ k ih =>
    unfold readiLoop
    split
    next => exact ret _
    apply bind (bmap_sameRefs ip _)
    intro addr
    apply Within.bind Within.read
    intro s
    exact Within.bind (ih _ _) fun _ => Within.ret _

theorem readi_sameRefs (ip off n : Nat) : Within SameRefs (readi ip off n) := by
  apply Within.bind Within.read
  intro s
  dsimp only
  split
  next => exact Within.ret _
  next => exact map (readiLoop_sameRefs ip _ _ _)

theorem writeiLoop_sameRefs (ip k off : Nat) (src : List UInt8) :
    Within SameRefs (writeiLoop ip k off src) := by
  induction k generalizing off src with
  | zero => exact ret _
  | succ k ih =>
    unfold writeiLoop
    split
    next => exact ret _
    apply bind (bmap_sameRefs ip _)
    intro addr
    exact bind (setBlock_sameRefs _ _) fun _ => ih _ _

/-- A write changes the inode's size and slots only. -/
theorem writei_sameRefs (ip : Nat) (src : List UInt8) (off : Nat) :
    Within SameRefs (writei ip src off) := by
  apply Within.bind Within.read
  intro s
  dsimp only
  split
  next => exact Within.ret _
  split
  next => exact ret _
  apply Within.bind (writeiLoop_sameRefs ip _ _ _)
  intro off'
  apply Within.bind Within.read
  intro t
  split
  next =>
    apply bind (setD_sameRefs ip _)
    intro _
    exact bind (iupdate_sameRefs ip) fun _ => ret _
  next => exact ret _

-- ==== taking and giving back

/-- One more reference to `ip`, which the code holds. -/
theorem Refs.take (h : Refs base held s) {n : Inode} (hn : n.ref = (s.inodes ip).ref + 1) :
    Refs base (ip :: held) { s with inodes := update s.inodes ip n } := by
  intro i
  show (update s.inodes ip n i).ref = _
  by_cases hi : i = ip
  · subst hi
    rw [update_self, hn, h i, List.count_cons_self, Nat.add_assoc]
  · rw [update_of_ne hi, h i, List.count_cons_of_ne (Ne.symm hi)]

/-- One reference less. -/
theorem Refs.put {n : Inode} (h : Refs base (ip :: held) s)
    (hn : n.ref = (s.inodes ip).ref - 1) :
    Refs base held { s with inodes := update s.inodes ip n } := by
  intro i
  show (update s.inodes ip n i).ref = _
  have hi := h i
  by_cases hip : i = ip
  · subst hip
    rw [List.count_cons_self] at hi
    rw [update_self, hn]
    omega
  · rw [List.count_cons_of_ne (Ne.symm hip)] at hi
    rw [update_of_ne hip]
    exact hi

/-- The inode comes back as a reference, from a slot that has it or a free one. -/
theorem iget_refs (h : Refs base held s) (dev inum : Nat) :
    Gives (iget dev inum) s fun ip t => Refs base (ip :: held) t := by
  apply Meets.get_bind
  split
  next ip _ =>
    apply Meets.modify_bind
    apply Meets.ret
    exact h.take rfl
  next =>
    split
    next ip hfree =>
      obtain ⟨-, -, h0, -⟩ := first_some hfree
      rw [beq_iff_eq] at h0
      apply Meets.modify_bind
      apply Meets.ret
      refine h.take ?_
      show 1 = _
      rw [h0]
    next => exact Meets.fault trivial

/-- One reference more for the same slot. -/
theorem idup_refs (h : Refs base held s) (ip : Nat) :
    Gives (idup ip) s fun r t => r = ip ∧ Refs base (ip :: held) t := by
  apply Meets.modify_bind
  apply Meets.ret
  exact ⟨rfl, h.take rfl⟩

/-- The last reference of an unlinked inode frees it before it goes. -/
theorem iput_refs (h : Refs base (ip :: held) s) :
    Gives (iput ip) s fun _ t => Refs base held t := by
  have hend : ∀ t, Refs base (ip :: held) t →
      Gives (setInode ip fun n => { n with ref := n.ref - 1 }) t fun _ u =>
        Refs base held u := by
    intro t ht
    apply Meets.change
    exact ht.put rfl
  apply Meets.get_bind
  split
  next =>
    refine (h.within (itrunc_sameRefs ip)).seq fun _ t ht => ?_
    refine (ht.within (setD_sameRefs ip _)).seq fun _ t ht => ?_
    refine (ht.within (iupdate_sameRefs ip)).seq fun _ t ht => ?_
    refine (ht.within (setInode_sameRefs ip ?_)).seq fun _ t ht => hend t ht
    exact fun _ => rfl
  next => exact hend s h

/-- The inode is marked on disk, and `iget` takes the reference. -/
theorem iallocLoop_refs (type n inum : Nat) (h : Refs base held s) :
    Gives (iallocLoop type n inum) s fun ip t => Refs base (ip :: held) t := by
  induction n generalizing inum with
  | zero => exact Meets.fault trivial
  | succ n ih =>
    apply Meets.get_bind
    split
    next =>
      exact (h.within (setBlock_sameRefs _ _)).seq fun _ t ht => iget_refs ht _ _
    next => exact ih (inum + 1)

theorem ialloc_refs (type : Nat) (h : Refs base held s) :
    Gives (ialloc type) s fun ip t => Refs base (ip :: held) t := by
  apply Meets.get_bind
  exact iallocLoop_refs type _ _ h

end Xv6FsServer.Kfs
