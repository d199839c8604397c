/-
Kernel block accounting is exact: the bitmap marks the metadata and the
blocks of files, each block belongs to one file, and this survives every
call (`kernel_accounts_exact`).

The invariant of the inode cache is `Sound`; an open file has its inode
loaded, and a directory is not open for writing, since `sys_open` refuses
that. So `filewrite` writes no directory and the inode numbers in
directories are those `dirlink` put there. What can still stop a call is a
full disk or a full table, and never `bfree`: the blocks it is given are
those of a file, which are marked.
-/
import Xv6FsServer.Kfs.Proofs.Inodes
import Xv6FsServer.Kfs.Proofs.Balance

namespace Xv6FsServer.Kfs

open Lib Fs Function

variable {s t : KFs} {base base' : Nat → Nat} {held held' : List Nat} {k : Kernel}

-- ==== the discipline

theorem Sound.rebase (h : Sound base held s)
    (hb : ∀ i, base' i + held'.count i = base i + held.count i) : Sound base' held' s :=
  { h with refs := h.refs.rebase hb }

/-- The inode of an open file is loaded, and no directory if the file can be
written. -/
structure OpenFit (s : KFs) (X : File) : Prop where
  valid : (s.inodes X.ip).valid = true
  noDir : X.writable = true → (s.inodes X.ip).d.type ≠ tDir

def accounting : Discipline where
  Holds := Sound
  Stays := Stays
  Loaded := fun s ip type => (s.inodes ip).valid = true ∧ (s.inodes ip).d.type = type
  There := fun s dev inum => dev = rootDev ∧ inum < s.sb.ninodes
  Fault := fun e => e ≠ .freeingFreeBlock
  refs := Sound.refs
  rebase := Sound.rebase
  refl := Stays.refl
  trans := Stays.trans
  fewer := Stays.mono
  loaded := fun hst hp hl =>
    ⟨(hst.valid _ hp hl.1).1, (hst.valid _ hp hl.1).2.trans hl.2⟩
  there := fun hst hi => ⟨hi.1, hst.sb.symm ▸ hi.2⟩
  typed := fun hl => ⟨hl.1, rfl⟩
  known := fun h hp => (h.slot _ (h.ref_pos hp)).2
  low := fun h hi => ⟨rfl, Nat.lt_of_le_of_lt hi h.account.layout.ninodes.1⟩
  panics := id
  get := by
    rintro base held s dev inum h ⟨rfl, hi⟩
    exact (iget_sound h hi).mono fun _ _ ht => ⟨ht.1, ht.2.1⟩
  dup := fun h hp => (idup_sound h (h.ref_pos (by omega))).mono fun _ _ ht =>
    ⟨ht.1, ht.2.1, ht.2.2.1⟩
  put := iput_sound
  lock := fun h hp => (ilock_sound h (h.ref_pos hp)).mono fun _ _ ht =>
    ⟨ht.1, ht.2.1, ht.2.2.2.1.valid, rfl⟩
  new := fun h htype hlt => (new_sound h htype hlt).mono fun _ _ ht =>
    ⟨ht.1, ht.2.1, ht.2.2.1.valid, ht.2.2.2⟩
  update := fun h hp hl hf => updateFields_sound h ⟨h.ref_pos hp, hl.1⟩ hf
  read := by
    intro base held s ip type off n h hp hl
    refine (readi_sound h ⟨h.ref_pos hp, hl.1⟩ off n).mono ?_
    rintro r t ⟨rfl, hnum⟩
    exact ⟨h, .refl t, fun htype hoff hn de hr hlen =>
      ⟨(h.slot ip (h.ref_pos hp)).2.1, hnum (hl.2.trans htype) hoff hn de hr hlen⟩⟩
  write := by
    intro base held s ip type src off h hp hl hentry
    have hlocked : Locked s ip := ⟨h.ref_pos hp, hl.1⟩
    refine writei_sound h hlocked src off fun htype hlen => ?_
    obtain ⟨⟨k, rfl⟩, dev, inum, name, hi, rfl, hname⟩ := hentry (hl.2.symm.trans htype)
    refine (hlocked.entries h htype).overlay ?_ hlen ?_
    · rw [length_mkDirent, hname]
      rfl
    · have := h.account.layout.ninodes
      rw [direntInum_mkDirent (by have := hi.2; omega)]
      exact hi.2

theorem openFit_iff {X : File} : accounting.Fit s X ↔ OpenFit s X := by
  constructor
  · rintro ⟨type, ⟨hv, rfl⟩, hdir⟩
    exact ⟨hv, hdir⟩
  · exact fun h => ⟨_, ⟨h.valid, rfl⟩, h.noDir⟩

-- ==== a kernel in order

/-- A kernel between two calls whose disk, inode cache and tables agree: the
account of the disk is exact and its entries name inodes, the cache holds
one copy of an inode and it is the one on the disk, and the counts are the
numbers of pointers. -/
structure Kernel.InOrder (k : Kernel) : Prop where
  account : Exact k.fs.sb k.fs.disk
  super : getSuperblock (k.fs.disk 1) = k.fs.sb
  named : InRange k.fs.sb.ninodes k.fs.files
  slot : ∀ ip, 0 < (k.fs.inodes ip).ref → ip < ninode
    ∧ (k.fs.inodes ip).dev = rootDev ∧ (k.fs.inodes ip).inum < k.fs.sb.ninodes
  once : ∀ ip jp, 0 < (k.fs.inodes ip).ref → 0 < (k.fs.inodes jp).ref →
    (k.fs.inodes ip).inum = (k.fs.inodes jp).inum → ip = jp
  loaded : ∀ ip, 0 < (k.fs.inodes ip).ref → (k.fs.inodes ip).valid = true →
    (k.fs.inodes ip).d = dinode k.fs.sb k.fs.disk (k.fs.inodes ip).inum
      ∧ (k.fs.inodes ip).d.type ≠ 0
  nodeRefs : ∀ i, (k.fs.inodes i).ref = k.openFiles i + k.directories i
  fileRefs : ∀ f, (k.ftable f).ref = k.descriptors f
  inTable : ∀ p fd f, (k.procs p).ofile fd = some f → fd < nofile ∧ f < nfile
  gone : Gone k.procs
  fits : ∀ f, f < nfile → 0 < (k.ftable f).ref → (k.ftable f).type = .inode →
    OpenFit k.fs (k.ftable f)

theorem Kernel.InOrder.settled (h : k.InOrder) : Settled accounting k := by
  have hslots : ∀ f, k.descriptors f = slots k.procs f := descriptors_eq h.gone
  refine ⟨⟨fun f => ?_, ?_, h.inTable,
    fun f hf href htype => openFit_iff.mpr (h.fits f hf href htype)⟩, h.gone⟩
  · rw [h.fileRefs f, hslots f, List.count_nil, Nat.add_zero]
  · refine ⟨fun i => ?_, h.account, h.super, h.slot, h.once, h.loaded, h.named⟩
    rw [h.nodeRefs i, List.count_nil, Nat.add_zero]
    rfl

theorem Settled.inOrder (h : Settled accounting k) : k.InOrder := by
  have hs : Sound (users k.procs k.ftable) [] k.fs := h.ledger.nodes
  refine ⟨hs.account, hs.super, hs.named, hs.slot, hs.once, hs.loaded, fun i => ?_,
    fun f => ?_, h.ledger.inTable, h.gone,
    fun f hf href htype => openFit_iff.mp (h.ledger.fits f hf href htype)⟩
  · have hi := hs.refs i
    rw [List.count_nil, Nat.add_zero] at hi
    exact hi
  · have hf := h.ledger.files f
    rw [List.count_nil, Nat.add_zero] at hf
    rw [descriptors_eq h.gone f]
    exact hf

/-- A kernel has just come up on a disk in order. -/
theorem Kernel.inOrder_boot {disk : Disk} (h : Exact (getSuperblock (disk 1)) disk)
    (hn : InRange (getSuperblock (disk 1)).ninodes (nodes (getSuperblock (disk 1)) disk)) :
    (Kernel.boot disk).InOrder := by
  have hroot : ∀ ip, 0 < ((bootFs disk).inodes ip).ref →
      ip = 0 ∧ (bootFs disk).inodes ip = ⟨rootDev, rootIno, 1, false, .fresh 0⟩ := by
    intro ip hp
    by_cases hip : ip = 0
    · rw [hip]
      exact ⟨rfl, rfl⟩
    · have hz : (bootFs disk).inodes ip = ⟨0, 0, 0, false, .fresh 0⟩ := update_of_ne hip ..
      rw [hz] at hp
      cases hp
  apply Settled.inOrder
  refine settled_boot ⟨bootFs_refs disk, h, rfl, ?_, ?_, ?_, hn⟩
  · intro ip hp
    obtain ⟨rfl, heq⟩ := hroot ip hp
    rw [heq]
    exact ⟨by decide, rfl, h.layout.ninodes.1⟩
  · intro ip jp hi hj _
    rw [(hroot ip hi).1, (hroot jp hj).1]
  · intro ip hp hv
    rw [(hroot ip hp).2] at hv
    cases hv

-- ==== the runs

theorem used_iff {sb : Superblock} {disk : Disk} (h : Exact sb disk) {b : Nat}
    (hb : b < sb.size) : used sb disk b = true
      ↔ b < dataStart sb ∨ ∃ i l, Fs.Holds sb disk (dinode sb disk) i l b := by
  constructor
  · intro hu
    rcases h.covered b hb hu with hm | hh | hn
    · exact .inl hm
    · exact .inr hh
    · cases hn
  · rintro (hm | ⟨i, l, hh⟩)
    · exact h.owns.metadata b hm
    · exact h.owns.marked hh

theorem namedImage_exact {name : List UInt8} (h : name.length ≤ dirsiz) :
    Exact smallSb (namedImage name) := by
  have hes := namedEntries_ok h
  have hok := rootImage_ok hes
  rw [namedImage_eq]
  have hfirst : ∀ i, i = 1 ∨ i = 2 → Fs.Holds smallSb (rootImage (namedEntries name))
      (dinode smallSb (rootImage (namedEntries name))) i 0 (i + 3) := by
    intro i hi
    refine ⟨(rootImage_allocated hes).mpr hi, by decide, ?_, by omega⟩
    exact (rootImage_slot hes (by omega)).trans (if_pos ⟨rfl, hi⟩)
  refine ⟨hok.layout, hok.owns, fun b hb hu => ?_, hok.mapped⟩
  rw [rootImage_used hb, decide_eq_true_eq] at hu
  have hdata : dataStart smallSb = 4 := by decide
  rcases (show b < 4 ∨ b = 1 + 3 ∨ b = 2 + 3 by omega) with hlt | rfl | rfl
  · exact .inl (by omega)
  · exact .inr (.inl ⟨1, 0, hfirst 1 (.inl rfl)⟩)
  · exact .inr (.inl ⟨2, 0, hfirst 2 (.inr rfl)⟩)

theorem namedImage_inRange {name : List UInt8} (h : name.length ≤ dirsiz) :
    InRange smallSb.ninodes (nodes smallSb (namedImage name)) := by
  have hes := namedEntries_ok h
  rw [namedImage_eq]
  intro j node hj htype l hl
  obtain ⟨halloc, rfl⟩ := nodes_eq_some hj
  have hbytes : (nodeOf (rootImage (namedEntries name))
      (dinode smallSb (rootImage (namedEntries name)) j)).bytes
      = dirBytes (namedEntries name) := by
    apply rootImage_dir hes (j := j)
    rw [view_of_allocated halloc]
    exact congrArg some (Prod.ext htype rfl)
  rw [hbytes] at hl ⊢
  obtain ⟨e, he, -, hinum⟩ := rootImage_inum hes (k := l) (by omega)
  rw [hinum]
  show _ < 8
  have := hes.inums e he
  omega

/-- From a kernel in order every run of calls that come back keeps the
account: the bitmap marks the metadata and the blocks files hold, no block
is held twice and every byte of a file has one. And whatever is called next,
`bfree` finds the block in use. -/
theorem kernel_accounts_exact (k : Kernel) (h : k.InOrder) (acts : List (Nat × Act))
    (k' : Kernel) (hrun : runs Kernel.step k acts = some k') :
    Exact k'.fs.sb k'.fs.disk
      ∧ (∀ b, b < k'.fs.sb.size → (used k'.fs.sb k'.fs.disk b = true
        ↔ b < dataStart k'.fs.sb ∨ ∃ i l, Fs.Holds k'.fs.sb k'.fs.disk
            (dinode k'.fs.sb k'.fs.disk) i l b))
      ∧ ∀ p a, p < nproc → (k'.procs p).live = true → k'.allows a = true →
          (exec (call p a) k').1 ≠ .error (.fs .freeingFreeBlock) := by
  have hk : Settled accounting k' :=
    runs_invariant (fun _ _ _ hi hs => settled_step hi hs) h.settled hrun
  have hexact : Exact k'.fs.sb k'.fs.disk := hk.inOrder.account
  refine ⟨hexact, fun b hb => used_iff hexact hb, ?_⟩
  intro p a hp hlive hallow hstop
  have hsafe := call_settles hk hp hlive hallow
  have hfault : accounting.stops (.fs .freeingFreeBlock) :=
    hsafe.elim_fault (Prod.ext hstop rfl)
  exact hfault rfl

/-- A directory is made and a file in it, the file is written, renamed by
`link` and `unlink`, and removed while it is open. -/
def makeAndRemove : List (Nat × Act) :=
  [(0, .sysMkdir [47, 100]), (0, .sysChdir [100]), (0, .sysOpen [120] 514),
    (0, .sysWrite 0 [104, 105] fun _ => 0), (0, .sysLink [120] [121]),
    (0, .sysUnlink [120]), (0, .sysUnlink [121]), (0, .sysClose 0)]

theorem kernel_accounts_exact_makeAndRemove :
    ∃ k, runs Kernel.step (Kernel.boot (namedImage [97])) makeAndRemove = some k
      ∧ Exact k.fs.sb k.fs.disk ∧ used k.fs.sb k.fs.disk 7 = false := by
  have hrun : (runs Kernel.step (Kernel.boot (namedImage [97])) makeAndRemove).map
      (fun k => used k.fs.sb k.fs.disk 7) = some false := by
    decide +kernel
  obtain ⟨k, hk, hfree⟩ := Option.map_eq_some_iff.mp hrun
  have hboot : (Kernel.boot (namedImage [97])).InOrder :=
    Kernel.inOrder_boot (namedImage_exact (by decide)) (namedImage_inRange (by decide))
  exact ⟨k, hk, (kernel_accounts_exact _ hboot makeAndRemove k hk).1, hfree⟩

end Xv6FsServer.Kfs
