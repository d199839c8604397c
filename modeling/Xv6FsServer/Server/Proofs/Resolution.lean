/-
The two path lookups on one directory tree.

The server cuts a component to 13 bytes and a NUL and compares names as
strings; the kernel cuts it to `DIRSIZ` bytes and compares that many. Both
walk the same tree, so they agree on a path exactly if the shorter cut
leads to the same file (`namei_agrees`). Names of 14 bytes, which mkfs and
the kernel's `dirlink` write, are out of the server's reach
(`fourteen_bytes`).
-/
import Xv6FsServer.Server.Proofs.Paths
import Xv6FsServer.Kfs.Proofs.Lookup

namespace Xv6FsServer.Server

open Lib Fs Function

variable {s : Srv} {k : Kfs.KFs} {cwd : Nat} {path name : List UInt8}

/-- The server between two requests and the kernel between two calls, over
the same directory tree, and a process whose current directory is the
root. -/
structure OneTree (s : Srv) (k : Kfs.KFs) (cwd : Nat) : Prop where
  buf : BufOk s []
  cache : CacheOk s.core []
  image : Image s.sb s.disk
  linked : Kfs.Linked s.sb s.disk
  disk : k.disk = s.disk
  sb : k.sb = s.sb
  ready : Kfs.Ready (fun i => (k.inodes i).ref) [] k
  room : Kfs.Room fun i => (k.inodes i).ref
  cwd_lt : cwd < Kfs.ninode
  cwd_ref : 0 < (k.inodes cwd).ref
  cwd_inum : (k.inodes cwd).inum = rootIno

/-- Both lookups return, with the same inode number or both with none. -/
def SameInode (s : Srv) (k : Kfs.KFs) (cwd : Nat) (path : List UInt8) : Prop :=
  ∃ r s' q k', exec (namei path) s = (.ok r, s')
    ∧ exec (Kfs.namei cwd path) k = (.ok q, k')
    ∧ r.map (fun ip => (s'.inodes ip).inum) = q.map (fun ip => (k'.inodes ip).inum)

theorem OneTree.kernel (h : OneTree s k cwd) (hnul : ∀ a ∈ path, a ≠ 0) :
    Ends (Kfs.namei cwd path) k fun q k' =>
      q.map (fun ip => (k'.inodes ip).inum)
        = walk (view s.sb s.disk) dirsiz rootIno (components path) := by
  have himg : Image k.sb k.disk := by
    rw [h.sb, h.disk]
    exact h.image
  have hlinked : Kfs.Linked k.sb k.disk := by
    rw [h.sb, h.disk]
    exact h.linked
  refine (Kfs.namei_spec hnul h.ready h.room himg hlinked ⟨h.cwd_lt, h.cwd_ref⟩
    h.cwd_inum).mono fun q k' hq => ?_
  obtain ⟨-, hq⟩ := hq
  rw [h.sb, h.disk] at hq
  cases q with
  | none => exact hq.2.symm
  | some ip => exact hq.2.symm

theorem OneTree.server (h : OneTree s k cwd) (hnul : ∀ a ∈ path, a ≠ 0)
    (hroot : s.core.Fits rootIno rootIno) :
    Ends (namei path) s fun r s' =>
      r.map (fun ip => (s'.inodes ip).inum)
        = s.core.walk rootIno (components path) := by
  refine (namei_spec hnul h.buf h.cache h.image
    (h.cache.get_root.mpr hroot)).mono fun r s' hr => ?_
  obtain ⟨-, -, hr⟩ := hr
  cases r with
  | none => exact hr.2.symm
  | some ip => exact hr.2.symm

/-- The server and the kernel agree on a path exactly if the server has a
place for the root, and cutting every component to one byte less, and
leaving out files that find no place in the server's cache, leads from the
root to the same file. -/
theorem namei_agrees (s : Srv) (k : Kfs.KFs) (cwd : Nat) (path : List UInt8)
    (h : OneTree s k cwd) (hnul : ∀ a ∈ path, a ≠ 0) :
    SameInode s k cwd path
      ↔ s.core.Fits rootIno rootIno
        ∧ s.core.walk rootIno (components path)
          = walk (view s.sb s.disk) dirsiz rootIno (components path) := by
  obtain ⟨q, k', hk, hq⟩ := (h.kernel hnul).run
  constructor
  · intro hsame
    obtain ⟨r, s', q', k'', hs, hk', heq⟩ := hsame
    rw [hk] at hk'
    cases hk'
    by_cases hroot : s.core.Fits rootIno rootIno
    · refine ⟨hroot, ?_⟩
      rw [← (h.server hnul hroot).elim hs, heq, hq]
    · obtain ⟨rfl, hcomp, -⟩ := (namei_rootless h.buf h.cache hroot).elim hs
      rw [hq, hcomp] at heq
      cases heq
  · intro hcond
    obtain ⟨hroot, hwalk⟩ := hcond
    obtain ⟨r, s', hs, hr⟩ := (h.server hnul hroot).run
    exact ⟨r, s', q, k', hs, hk, by rw [hr, hq, hwalk]⟩

-- ==== short names

/-- With two places left in the cache and no component of `DIRSIZ` bytes or
more, the cut changes nothing. -/
theorem walk_of_short {c : Core} (hroom : c.openInums.card + 2 ≤ ninode)
    {ns : List (List UInt8)} (hshort : ∀ n ∈ ns, n.length < dirsiz) (i : Nat) :
    c.walk i ns = walk (view c.sb c.disk) dirsiz i ns := by
  have hfits : ∀ i j, c.Fits i j := by
    intro i j
    have h1 := Finset.card_insert_le i c.openInums
    have h2 := Finset.card_insert_le j (insert i c.openInums)
    unfold Core.Fits
    omega
  induction ns generalizing i with
  | nil => rfl
  | cons n ns ih =>
    have hlen := hshort n List.mem_cons_self
    have hchild : child (view c.sb c.disk) (dirsiz - 1) i n
        = child (view c.sb c.disk) dirsiz i n := by
      unfold child
      rw [List.take_of_length_le (by omega), List.take_of_length_le (by omega)]
    cases hj : child (view c.sb c.disk) dirsiz i n with
    | none => rw [Core.walk_none (hchild.trans hj), walk_none hj]
    | some j =>
      rw [Core.walk_some (hchild.trans hj) (hfits i j), walk_some hj]
      exact ih (fun m hm => hshort m (List.mem_cons_of_mem _ hm)) j

-- ==== both at their start

/-- The kernel with the root as the first process's directory. -/
def kernelStart (disk : Disk) : Kfs.KFs where
  disk := disk
  sb := getSuperblock (disk 1)
  inodes := fun i => if i = 0 then ⟨rootDev, rootIno, 1, false, .fresh 0⟩
    else ⟨0, 0, 0, false, .fresh 0⟩

theorem namedImage_linked (h : name.length ≤ dirsiz) :
    Kfs.Linked smallSb (namedImage name) := by
  have hes := namedEntries_ok h
  rw [namedImage_eq]
  have hlinks : ∀ j, j = 1 ∨ j = 2 →
      (dinode smallSb (rootImage (namedEntries name)) j).nlink ≠ 0 := by
    intro j hj
    rw [rootImage_dinode hes (by omega)]
    rcases hj with rfl | rfl
    · exact ne_of_eq_of_ne smallImage_root.2.2.1 (by decide)
    · exact ne_of_eq_of_ne smallImage_root.2.2.2.2.2 (by decide)
  refine ⟨hlinks 1 (Or.inl rfl), fun {j bytes} hv k hk h0 => hlinks _ ?_⟩
  exact (rootImage_allocated hes).mp
    (isSome_view.mp ((rootImage_ok hes).files.named hv k hk h0))

theorem oneTree_start (h : name.length ≤ dirsiz) :
    OneTree (Srv.boot (namedImage name) fun _ => true)
      (kernelStart (namedImage name)) 0 := by
  obtain ⟨hbuf, hcore⟩ := boot_spec (namedImage name)
  have hsb : (Srv.boot (namedImage name) fun _ => true).sb = smallSb :=
    congrArg Core.sb hcore
  have hdisk : (Srv.boot (namedImage name) fun _ => true).disk = namedImage name :=
    congrArg Core.disk hcore
  have himg := namedImage_ok h
  refine ⟨hbuf, ?_, ?_, ?_, hdisk.symm, hsb.symm, ?_, ?_, by decide, Nat.one_pos, rfl⟩
  · rw [hcore]
    exact start_cache himg
  · rw [hsb, hdisk]
    exact himg
  · rw [hsb, hdisk]
    exact namedImage_linked h
  · refine ⟨fun _ _ => rfl, by simp, fun i _ hi => ?_, fun i _ _ hv => ?_⟩
    · unfold kernelStart at hi ⊢
      dsimp only at hi ⊢
      split at hi
      next h0 => rw [if_pos h0]
      next => cases hi
    · unfold kernelStart at hv
      dsimp only at hv
      split at hv
      next => cases hv
      next => cases hv
  · show ((List.range 50).filter fun i => decide (0 < ((if i = 0 then
      ⟨rootDev, rootIno, 1, false, .fresh 0⟩
      else ⟨0, 0, 0, false, .fresh 0⟩ : Kfs.Inode)).ref)).length + 2 ≤ 50
    decide

theorem namei_agrees_oneLetter :
    OneTree (Srv.boot (namedImage [97]) fun _ => true)
        (kernelStart (namedImage [97])) 0
      ∧ SameInode (Srv.boot (namedImage [97]) fun _ => true)
        (kernelStart (namedImage [97])) 0 [47, 97] := by
  have htree := oneTree_start (show [97].length ≤ dirsiz by decide)
  have hcore := (boot_spec (namedImage [97])).2
  have hcard : (Core.start (namedImage [97])).openInums.card = 0 := by decide +kernel
  have hnul : ∀ a ∈ ([47, 97] : List UInt8), a ≠ 0 := by simp
  refine ⟨htree, (namei_agrees _ _ _ _ htree hnul).mpr ⟨?_, ?_⟩⟩
  · rw [hcore]
    have h1 := Finset.card_insert_le rootIno (Core.start (namedImage [97])).openInums
    unfold Core.Fits
    rw [Finset.insert_idem]
    rw [hcard] at h1
    exact Nat.le_trans h1 (by decide)
  · refine walk_of_short ?_ (by decide) rootIno
    rw [hcore, hcard]
    decide

/-- "abcdefghijklmn". -/
def fourteenBytes : List UInt8 :=
  [97, 98, 99, 100, 101, 102, 103, 104, 105, 106, 107, 108, 109, 110]

/-- A file with a name of 14 bytes: the kernel finds it, the server does
not. -/
theorem fourteen_bytes :
    OneTree (Srv.boot (namedImage fourteenBytes) fun _ => true)
        (kernelStart (namedImage fourteenBytes)) 0
      ∧ ¬ SameInode (Srv.boot (namedImage fourteenBytes) fun _ => true)
        (kernelStart (namedImage fourteenBytes)) 0 fourteenBytes := by
  have hserver : ((exec (namei fourteenBytes)
      (Srv.boot (namedImage fourteenBytes) fun _ => true)).1.toOption.bind id).isSome
        = false := by
    decide +kernel
  have hkernel : ((exec (Kfs.namei 0 fourteenBytes)
      (kernelStart (namedImage fourteenBytes))).1.toOption.bind id).isSome
        = true := by
    decide +kernel
  refine ⟨oneTree_start (by decide), fun hsame => ?_⟩
  obtain ⟨r, s', q, k', hs, hk, heq⟩ := hsame
  rw [hs] at hserver
  rw [hk] at hkernel
  cases r with
  | none =>
    cases q with
    | none => cases hkernel
    | some ip => cases heq
  | some ip => cases hserver

end Xv6FsServer.Server
