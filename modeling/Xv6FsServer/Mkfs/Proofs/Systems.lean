/-
The systems that start on an image of mkfs.

The root is the only directory on such an image and its entries name files, so
a kernel that boots on it is in order and a server that starts on it has a file
store. From there on `settled_step` and `handle_store` carry them.
-/
import Xv6FsServer.Mkfs.Proofs.Readers
import Xv6FsServer.Kfs.Proofs.Accounts
import Xv6FsServer.Server.Proofs.Opening

namespace Xv6FsServer.Mkfs

open Lib Fs Function
open Kfs (Kernel)
open Server (Srv)
open Ipc (IpcMsg IpcMsgType)

variable {s : Mk} {fs : List File} {j : Nat}
variable {t : Mk} {c : Server.Core} {srv : Srv} {req : IpcMsg} {f : File}

-- ==== the finished disk

theorem root_inum_lt (hlen : fs.length + 2 ≤ ninodes) (k : Nat) :
    entryInum (rootOf fs) k < fs.length + 2 := by
  rcases Nat.lt_or_ge k (fs.length + 2) with hk | hk
  · rw [← length_entries fs] at hk
    have he := List.getElem?_eq_getElem hk
    rw [(root_entry hlen he).1]
    exact (entry_ok (List.mem_of_getElem? he)).2.1
  · rw [root_behind hk]
    omega

section

variable (h : Made s fs) (hlen : fs.length + 2 ≤ ninodes)

include h hlen

theorem Made.type_finish (j : Nat) :
    (dinode sb s.finish j).type = (dinode sb s.seal j).type := by
  rw [h.dinode_finish hlen]
  exact update_proj DInode.type (by rfl) j

/-- The root is the only directory. -/
theorem Made.dir_content (hj : Allocated sb (dinode sb s.finish) j)
    (htype : (dinode sb s.finish j).type = tDir) :
    (onDisk sb s.finish j).content = rootOf fs := by
  rw [h.type_finish hlen] at htype
  have hseal : Allocated sb (dinode sb s.seal) j := ⟨hj.1, by rw [htype]; decide⟩
  have hn := nodes_of_allocated hseal
  rw [h.image.nodes] at hn
  rcases j with _ | _ | k
  · cases hn
  · exact h.root_content hlen
  · obtain ⟨f, -, hf⟩ := Option.map_eq_some_iff.mp hn
    cases (congrArg Node.type hf).trans htype

theorem Made.allocated_finish (h0 : j ≠ 0) (hj : j < fs.length + 2) :
    Allocated sb (dinode sb s.finish) j := by
  obtain ⟨n, hn⟩ : ∃ n, nodesOf (directory fs) fs j = some n := by
    rcases j with _ | _ | k
    · exact absurd rfl h0
    · exact ⟨_, rfl⟩
    · show ∃ n, fs[k]?.map _ = some n
      rw [List.getElem?_eq_getElem (by omega)]
      exact ⟨_, rfl⟩
  obtain ⟨hlt, htype⟩ := (h.image.file hn).1
  exact ⟨hlt, h.type_finish hlen j ▸ htype⟩

theorem Made.inRange : Kfs.InRange ninodes (nodes sb s.finish) := by
  intro j n hj htype l _
  obtain ⟨halloc, rfl⟩ := nodes_eq_some hj
  have hbytes : (nodeOf s.finish (dinode sb s.finish j)).bytes = rootOf fs :=
    h.dir_content hlen halloc htype
  rw [hbytes]
  exact Nat.lt_of_lt_of_le (root_inum_lt hlen l) hlen

theorem Made.filesOk : FilesOk (view sb s.finish) := by
  have hroot := h.allocated_finish hlen (j := rootIno) (by decide) (by unfold rootIno; omega)
  have hdir {j : Nat} {bytes : List UInt8} (hj : view sb s.finish j = some (tDir, bytes)) :
      bytes = rootOf fs := by
    have halloc := isSome_view.mp (by rw [hj]; rfl)
    rw [view_of_allocated halloc] at hj
    obtain ⟨htype, rfl⟩ := Prod.mk.inj (Option.some.inj hj)
    exact h.dir_content hlen halloc htype
  refine ⟨⟨rootOf fs, ?_⟩, fun hj => ?_, fun hj k _ h0 => ?_⟩
  · rw [view_of_allocated hroot, h.type_finish hlen, h.root.2.2.1, h.root_content hlen]
  · rw [hdir hj]
    unfold rootOf bsize
    rw [List.length_append, List.length_replicate, length_directory]
    omega
  · rw [hdir hj] at h0 ⊢
    exact isSome_view.mpr (h.allocated_finish hlen h0 (root_inum_lt hlen k))

end

theorem Made.free_zero {b : Nat} (h : Made s fs) (hlt : b < fsSize)
    (hb : used sb s.finish b = false) : s.finish b = Bytes.zero := by
  have hready := h.image.ready
  have hroot : rootIno < sb.ninodes := h.root.1.1
  unfold Mk.finish at hb ⊢
  rw [layout.used_putInode hroot, used_seal hready.high hlt, decide_eq_false_iff_not] at hb
  have hmeta : nmeta = 59 := rfl
  have hbmap : sb.bmapstart = 58 := rfl
  have hlow := hready.low
  rw [layout.putInode_behind hroot (by omega), seal_of_ne (by omega)]
  exact hready.zero b (by omega) hlt

/-- mkfs has made the image of files that are not too many, and the root does
not fill its last block. -/
structure Formatted (fs : List File) (t : Mk) : Prop where
  main : exec (main fs) start = (.ok (), t)
  few : fs.length + 2 ≤ ninodes
  root : (fs.length + 2) % 32 ≠ 0

theorem Formatted.made (h : Formatted fs t) :
    ∃ s, Made s fs ∧ t.disk = s.finish := by
  have hspec := main_spec (P := True) fs h.few fun hno => absurd trivial hno
  exact (hspec.elim h.main).2

theorem formatted_emptyFile : ∃ t, Formatted [emptyFile [97]] t := by
  obtain ⟨t, -, hmain, -⟩ := exists_made [emptyFile [97]] (by decide)
    ⟨by decide, by decide, by decide⟩
  exact ⟨t, hmain, by decide, by decide⟩

-- ==== the kernel

/-- What happens to a machine: a call of a process, or a reboot between two
calls, which starts again from the disk. -/
inductive Event
  | call (p : Nat) (a : Kfs.Act)
  | reboot

def machine (k : Kernel) : Event → Option Kernel
  | .call p a => k.step (p, a)
  | .reboot => some (Kernel.boot k.fs.disk)

theorem boot_again {k : Kernel} (h : k.InOrder) :
    (Kernel.boot k.fs.disk).InOrder
      ∧ (Kernel.boot k.fs.disk).fs.files = k.fs.files := by
  constructor
  · apply Kernel.inOrder_boot
    · exact h.super.symm ▸ h.account
    · rw [h.super]
      exact h.named
  · rw [Kfs.boot_eq]
    show nodes (getSuperblock (k.fs.disk 1)) k.fs.disk = _
    rw [h.super]
    rfl

theorem machine_inOrder {k k' : Kernel} {e : Event} (h : k.InOrder)
    (hstep : machine k e = some k') : k'.InOrder := by
  cases e with
  | call p a => exact (Kfs.settled_step h.settled hstep).inOrder
  | reboot =>
    cases hstep
    exact (boot_again h).1

/-- `exec("/")` after a boot reads the root inode, which is no program. -/
theorem execFile_root {disk : Disk}
    (htype : (dinode (getSuperblock (disk 1)) disk rootIno).type = tDir) :
    Ends (Kfs.execFile 0 [Kfs.slash] none []) (Kfs.bootFs disk) fun _ _ => True := by
  have hnamei : exec (Kfs.namei 0 [Kfs.slash]) (Kfs.bootFs disk) = (.ok (some 0),
      { Kfs.bootFs disk with
        inodes := update (Kfs.bootFs disk).inodes 0
          ⟨rootDev, rootIno, 2, false, .fresh 0⟩ }) := rfl
  have htype0 : (dinode (getSuperblock (disk 1)) disk rootIno).type ≠ 0 := by
    rw [htype]
    decide
  apply Meets.bind
  unfold Meets
  rw [hnamei]
  -- the slot has a reference and nothing read yet, so `ilock` reads the disk
  apply Meets.bind
  unfold Kfs.ilock
  apply Meets.get_bind
  rw [if_neg (by show ¬ 2 < 1; decide), if_neg (by show ¬ false = true; decide)]
  apply Meets.modify_bind
  rw [if_neg (by exact htype0)]
  apply Meets.ret
  apply Meets.bind
  apply Meets.ret
  unfold Kfs.iunlockput Kfs.iput
  apply Meets.get_bind
  rw [if_neg (by show ¬ (2 = 1 ∧ _); omega)]
  exact Meets.change trivial

theorem exec_root {disk : Disk}
    (htype : (dinode (getSuperblock (disk 1)) disk rootIno).type = tDir) :
    ∃ k, machine (Kernel.boot disk) (.call 0 (.sysExec [Kfs.slash] none [])) = some k := by
  have hcall : ∀ k : Kernel, (k.procs 0).cwd = 0 → k.fs = Kfs.bootFs disk →
      Ends (Kfs.call 0 (.sysExec [Kfs.slash] none [])) k fun _ _ => True := by
    intro k hcwd hfs
    apply Meets.get_bind
    rw [hcwd]
    exact (Kfs.onFs_meets (hfs ▸ execFile_root htype) fun _ _ => False.elim).mono
      fun _ _ _ => trivial
  obtain ⟨r, k, hrun, -⟩ := (hcall (Kernel.boot disk) (by rw [Kfs.boot_eq]; rfl)
    (by rw [Kfs.boot_eq])).run
  refine ⟨k, ?_⟩
  unfold machine Kernel.step
  dsimp only
  rw [if_pos ⟨by decide, rfl, rfl⟩, hrun]

/-- The free blocks hold zeros. -/
def FreeZero (c : Server.Core) : Prop :=
  ∀ b, b < c.sb.size → used c.sb c.disk b = false → c.disk b = Bytes.zero

theorem FreeZero.kept {c' : Server.Core} (h : FreeZero c) (hk : Server.FreeKept c c') :
    FreeZero c' := by
  intro b hlt hb
  rw [hk.sb] at hlt hb
  obtain ⟨hfree, hsame⟩ := hk.blocks b hlt hb
  rw [hsame]
  exact h b hlt hfree

/-- A fresh indirect block has no stale entry. -/
theorem FreeZero.indirectOk {i off n : Nat} (h : FreeZero c) :
    IndirectOk c.sb c.tab i (c.file i) off n := by
  intro _ _ _ _ b hb e _ hne
  obtain ⟨hlt, hfree⟩ := mem_freeBlocks.mp (List.mem_of_getElem? hb)
  have hzero : c.disk b = Bytes.zero := h b hlt hfree
  refine absurd ?_ hne
  show (c.disk b).le32 _ = 0
  rw [hzero, Bytes.le32_zero]

/-- A `WRITE` is not through a descriptor of a directory. -/
def SparesDirs (srv : Srv) (req : IpcMsg) : Prop :=
  req.type = IpcMsgType.fsWrite.code → ∀ f d, srv.store.target req = some (f, d) →
    ∀ type bytes, srv.store.files d.file = some (type, bytes) → type ≠ tDir

theorem FreeZero.tame (h : FreeZero srv.core)
    (hreq : SparesDirs srv req) : srv.Tame req where
  write hw f d hd := ⟨hreq hw f d hd, h.indirectOk⟩
  entry _ _ _ _ _ _ := h.indirectOk

/-- The server that starts on the image. -/
theorem Formatted.server (h : Formatted fs t) :
    Server.Inv (Srv.boot t.disk fun _ => true)
      ∧ FreeZero (Srv.boot t.disk fun _ => true).core := by
  obtain ⟨s, hmade, hdisk⟩ := h.made
  have hexact := (hmade.exact_iff h.few).mpr h.root
  constructor
  · apply Server.Inv.boot
    rw [hdisk, hmade.super]
    exact ⟨hexact.layout, hexact.owns, hexact.mapped, hmade.filesOk h.few⟩
  · rw [(Server.boot_spec t.disk).2, hdisk]
    intro b hlt hb
    have hsb : (Server.Core.start s.finish).sb = sb := hmade.super
    rw [hsb] at hlt hb
    exact hmade.free_zero hlt hb

/-- A server that starts on an image of mkfs has a file store, and it handles
every request as this store says or dies of it, as long as nobody writes into a
directory. The free blocks hold zeros at all times, so that no stale block is
ever taken for an indirect block. -/
theorem mkfs_server {t : Mk} (h : Formatted fs t) (reqs : List IpcMsg) {srv : Srv}
    (hok : Along Srv.serve SparesDirs (Srv.boot t.disk fun _ => true) reqs)
    (hrun : runs Srv.serve (Srv.boot t.disk fun _ => true) reqs = some srv)
    {req : IpcMsg} (hreq : SparesDirs srv req) :
    FreeZero srv.core
      ∧ Leaves (fun _ => srv.Dies req) (Server.handle req) srv
        fun r u => FreeZero u.core ∧ Server.Handled srv req (u.store, r) := by
  obtain ⟨hinv, hzero⟩ := Along.invariant (I := fun u => Server.Inv u ∧ FreeZero u.core)
    (fun _ _ _ hs hreq hstep => by
      obtain ⟨hinv, hfree, -⟩ := Server.serve_store hs.1 (hs.2.tame hreq) hstep
      exact ⟨hinv, hs.2.kept hfree⟩) h.server hok hrun
  exact ⟨hzero, (Server.handle_store req hinv (hzero.tame hreq)).mono
    fun r u hu => ⟨hzero.kept hu.2.1, hu.2.2⟩⟩

/-- The server survives a request that it does not die of. -/
theorem serve_alive (hinv : Server.Inv srv)
    (hzero : FreeZero srv.core) (hreq : SparesDirs srv req) (hlive : ¬ srv.Dies req) :
    ∃ u r, srv.serve req = some u ∧ Server.Handled srv req (u.store, r) := by
  have hleaves := Server.handle_store req hinv (hzero.tame hreq)
  unfold Leaves Meets at hleaves
  split at hleaves
  next r u hexec =>
    refine ⟨u, r, ?_, hleaves.2.2⟩
    unfold Srv.serve
    rw [hexec]
  next => exact absurd hleaves hlive

/-- The server finds a file under its stored name, unless it cuts the name. -/
theorem Made.walk_stored (h : Made s fs) (hlen : fs.length + 2 ≤ ninodes)
    (hnames : (storedNames fs).Nodup) {k : Nat} (hf : fs[k]? = some f)
    (hshort : f.stored.length < dirsiz) :
    (Server.Core.start s.finish).walk rootIno [f.stored] = some (k + 2) := by
  have hroot := h.allocated_finish hlen (j := rootIno) (by decide) (by unfold rootIno; omega)
  refine (Server.Core.walk_some ?_ (Server.start_fits ..)).trans rfl
  show child (view (getSuperblock (s.finish 1)) s.finish) _ _ _ = _
  unfold child
  rw [h.super, view_of_allocated hroot, h.type_finish hlen, h.root.2.2.1,
    List.take_of_length_le (by omega)]
  exact h.lookup_stored hlen hnames hf

/-- On a fresh server a file of mkfs is not a directory. -/
theorem Formatted.file_type (h : Formatted fs t) {k type : Nat}
    {bytes : List UInt8} (hk : k < fs.length)
    (hview : (Srv.boot t.disk fun _ => true).store.files (k + 2) = some (type, bytes)) :
    type ≠ tDir := by
  obtain ⟨s, hmade, hdisk⟩ := h.made
  change view (Srv.boot t.disk fun _ => true).core.sb (Srv.boot t.disk fun _ => true).core.disk
    (k + 2) = _ at hview
  rw [(Server.boot_spec t.disk).2, hdisk] at hview
  change view (getSuperblock (s.finish 1)) s.finish (k + 2) = _ at hview
  have hnode : nodesOf (directory fs) fs (k + 2) = some ⟨tFile, 1, fs[k].bytes⟩ := by
    show fs[k]?.map _ = _
    rw [List.getElem?_eq_getElem hk]
    rfl
  have htype := congrArg Node.type (hmade.image.file hnode).2
  rw [hmade.super, view_of_allocated (hmade.allocated_finish h.few (by omega) (by omega)),
    hmade.type_finish h.few] at hview
  rw [← (Prod.mk.inj (Option.some.inj hview)).1]
  exact fun hdir => by cases htype.trans hdir

theorem grant_first {st : Server.Store} (h : st.fds 0 = none) (pid flags : Int) (i : Nat) :
    (st.grant pid flags i).1 = { st with fds := update st.fds 0 (some
      ⟨i, 0, !Server.wrOnly flags, Server.wrOnly flags || Server.rdWr flags, pid⟩) } := by
  have hfirst : first (fun f => (st.fds f).isNone) 0 Server.maxRemoteFds = some 0 := by
    unfold Server.maxRemoteFds first
    rw [h]
    rfl
  unfold Server.Store.grant
  rw [hfirst]

theorem boot_fds (disk : Disk) (f : Nat) :
    (Srv.boot disk fun _ => true).store.fds f = none := by
  have hfd : (Srv.boot disk fun _ => true).fdTable f = _ :=
    congrFun (congrArg Server.Core.fdTable (Server.boot_spec disk).2) f
  refine if_neg fun h => ?_
  rw [hfd] at h
  cases h.2

/-- On a fresh server an `OPEN` by the stored name opens the file. -/
theorem Formatted.serve_open (h : Formatted fs t) (req : IpcMsg)
    (hsrv : srv = Srv.boot t.disk fun _ => true) (hnames : (storedNames fs).Nodup)
    {k : Nat} (hf : fs[k]? = some f) {path : List UInt8}
    (htype : req.type = IpcMsgType.fsOpen.code) (hpath : Server.cString req = some path)
    (hcomp : components path = [f.stored])
    (hshort : f.stored.length < dirsiz) (hcreate : Server.oCreate req.flags = false) :
    ∃ u, srv.serve req = some u
      ∧ u.store = (srv.store.grant req.senderPid req.flags (k + 2)).1 := by
  obtain ⟨s, hmade, hdisk⟩ := h.made
  obtain ⟨hinv, hzero⟩ := h.server
  have hcore := (Server.boot_spec t.disk).2
  rw [← hsrv] at hinv hzero hcore
  have hfits : srv.core.Fits rootIno rootIno := hcore ▸ Server.start_fits ..
  have hwalk : srv.core.walk rootIno (components path) = some (k + 2) := by
    rw [hcore, hcomp, hdisk]
    exact hmade.walk_stored h.few hnames hf hshort
  have hlive : ¬ srv.Dies req := by
    rintro ⟨-, hdies⟩
    obtain ⟨bytes, hroot⟩ := hinv.image.files.root
    rcases hdies path hpath bytes hroot with ⟨hfull, -⟩ | ⟨hnew, -⟩
    · exact hfull hfits
    · rw [hnew.create] at hcreate
      cases hcreate
  obtain ⟨u, r, hserve, hhandled⟩ := serve_alive hinv hzero
    (fun hw => absurd (htype.symm.trans hw) (by decide)) hlive
  refine ⟨u, hserve, ?_⟩
  generalize hst : (u.store, r) = st at hhandled
  cases hhandled with
  | served hopen => exact absurd htype hopen
  | short _ _ _ _ _ hw => exact absurd (htype.symm.trans hw) (by decide)
  | opened path' _ _ _ hpath' _ hr =>
    cases hpath.symm.trans hpath'
    cases hr with
    | found i hi =>
      cases hwalk.symm.trans hi
      exact (Prod.mk.inj hst).1
    | refused hmiss =>
      rcases hmiss with hmiss | hfull
      · cases hwalk.symm.trans hmiss
      · exact absurd hfits hfull
    | leaked _ hnew => cases hwalk.symm.trans hnew.missing
    | made _ hnew => cases hwalk.symm.trans hnew.missing

def closeZero : IpcMsg := { IpcMsg.zero with type := IpcMsgType.fsClose.code }

def openA : IpcMsg :=
  { IpcMsg.zero with
    senderPid := 3
    type := IpcMsgType.fsOpen.code
    flags := 2
    path := Bytes.ofFn fun i => if i = 0 then 97 else 0 }

def writeA : IpcMsg :=
  { IpcMsg.zero with senderPid := 3, type := IpcMsgType.fsWrite.code, nbytes := 1 }

/-- The file is opened and written, and the next request is served. -/
theorem mkfs_server_written :
    ∃ t u srv, Formatted [emptyFile [97]] t
      ∧ (Srv.boot t.disk fun _ => true).serve openA = some u
      ∧ u.store.target writeA = some (0, ⟨2, 0, true, true, 3⟩)
      ∧ u.serve writeA = some srv ∧ FreeZero srv.core
      ∧ Leaves (fun _ => srv.Dies closeZero) (Server.handle closeZero) srv
        fun r v => FreeZero v.core ∧ Server.Handled srv closeZero (v.store, r) := by
  obtain ⟨t, h⟩ := formatted_emptyFile
  have hpath : Server.cString openA = some [97] := by decide
  obtain ⟨u, hopen, hstore⟩ := h.serve_open openA rfl (f := emptyFile [97]) (k := 0)
    (by decide) rfl rfl hpath (by decide) (by decide) (by decide)
  rw [grant_first (boot_fds ..)] at hstore
  have htarget : u.store.target writeA = some (0, ⟨2, 0, true, true, 3⟩) := by
    rw [hstore]
    rfl
  have hfirst : SparesDirs (Srv.boot t.disk fun _ => true) openA := fun hw => by cases hw
  have hspares : SparesDirs u writeA := by
    intro _ f d hd type bytes hview
    cases htarget.symm.trans hd
    rw [hstore] at hview
    exact h.file_type (k := 0) (by decide) hview
  obtain ⟨hinv, hfree, -⟩ := Server.serve_store h.server.1 (h.server.2.tame hfirst) hopen
  obtain ⟨srv, r, hwrite, -⟩ := serve_alive hinv (h.server.2.kept hfree) hspares
    fun hdies => by cases hdies.1
  exact ⟨t, u, srv, h, hopen, htarget, hwrite,
    mkfs_server h [openA, writeA]
      (by simp only [Along, hopen, hwrite, hfirst, hspares, and_self])
      (by simp only [runs, hopen, hwrite]) fun hw => by cases hw⟩

end Xv6FsServer.Mkfs
