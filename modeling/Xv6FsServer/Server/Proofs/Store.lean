/-
The server as a file store.

`Srv.store` is what a server state means: the files on its disk and its
open descriptors. Between two requests the state is in order (`Inv`), and
then the handlers do to the store what the specification says: `READ`,
`CLOSE` and `CLIENT_EXIT` always (`fsRead_store`, `fsClose_store`,
`closeAllForOwner_store`), `WRITE` if it succeeds (`fsWrite_store`).
-/
import Xv6FsServer.Server.Proofs.Creation
import Xv6FsServer.Server.Proofs.Descriptors

namespace Xv6FsServer.Server

open Lib Fs Function Meets
open Ipc (IpcMsg IpcMsgType Answer)

variable {c c' : Core} {s t : Srv} {H : List (Nat × Nat)} {R : List Nat}
variable {i j ip inum f : Nat} {bytes : List UInt8} {type : Nat}

-- ==== the store

def Srv.fds (s : Srv) (f : Nat) : Option Fd :=
  if f < maxRemoteFds ∧ (s.fdTable f).used = true then
    (s.fdInodes f).map fun ip =>
      { file := (s.inodes ip).inum
        off := (s.fdTable f).off
        readable := (s.fdTable f).readable
        writable := (s.fdTable f).writable
        owner := (s.fdTable f).ownerPid }
  else none

def Srv.store (s : Srv) : Store where
  ninodes := s.sb.ninodes
  files := view s.sb s.disk
  fds := s.fds

/-- Descriptors are open on files, and not past their ends. -/
def Store.Ok (st : Store) : Prop :=
  ∀ f d, st.fds f = some d → ∃ type bytes,
    st.files d.file = some (type, bytes) ∧ d.off ≤ bytes.length

/-- The server while the running handler holds the inodes `R`. -/
structure Mid (s : Srv) (R : List Nat) : Prop where
  buf : BufOk s []
  cache : CacheOk s.core R
  image : Image s.sb s.disk
  paired : ∀ fd, fd < maxRemoteFds →
    ((s.fdTable fd).used = true ↔ (s.fdInodes fd).isSome = true)
  ok : s.store.Ok

/-- The server between two requests. -/
abbrev Inv (s : Srv) : Prop := Mid s []

/-- What the specification knows of an entry. -/
def FdEntry.toFd (e : FdEntry) (inum : Nat) : Fd :=
  ⟨inum, e.off, e.readable, e.writable, e.ownerPid⟩

theorem fds_eq (hf : f < maxRemoteFds) (hused : (s.fdTable f).used = true)
    (hip : s.fdInodes f = some ip) :
    s.fds f = some ⟨(s.inodes ip).inum, (s.fdTable f).off, (s.fdTable f).readable,
      (s.fdTable f).writable, (s.fdTable f).ownerPid⟩ :=
  look_eq (g := FdEntry.toFd) hf hused hip

theorem fds_unused (hused : (s.fdTable f).used = false) : s.fds f = none :=
  look_unused (g := FdEntry.toFd) hused

/-- A used entry has an inode. -/
theorem Inv.inode (h : Inv s) (hf : f < maxRemoteFds)
    (hused : (s.fdTable f).used = true) : ∃ ip, s.fdInodes f = some ip :=
  Option.isSome_iff_exists.mp ((h.paired f hf).mp hused)

theorem Inv.held_some (h : Inv s) {pid n : Int}
    (hfd : s.lookupRemoteFd pid n = some f) :
    f < maxRemoteFds ∧ ∃ ip, s.fdInodes f = some ip
      ∧ s.store.held pid n = some (f, ⟨(s.inodes ip).inum, (s.fdTable f).off,
        (s.fdTable f).readable, (s.fdTable f).writable, pid⟩) := by
  obtain ⟨hn, hf, hused, hown⟩ := lookupRemoteFd_some hfd
  obtain ⟨ip, hip⟩ := h.inode hf hused
  refine ⟨hf, ip, hip, ?_⟩
  have hrange : ¬ (n < 0 ∨ (maxRemoteFds : Int) ≤ n) := by omega
  have hnat : n.toNat = f := by omega
  have hfds : s.store.fds f = s.fds f := rfl
  unfold Store.held
  rw [if_neg hrange, hnat, hfds, fds_eq hf hused hip]
  dsimp only
  rw [if_pos hown, hown]

theorem held_none {pid n : Int} (hfd : s.lookupRemoteFd pid n = none) :
    s.store.held pid n = none := by
  unfold Srv.lookupRemoteFd at hfd
  unfold Store.held
  split at hfd
  next hrange => rw [if_pos hrange]
  next hrange =>
    rw [if_neg hrange]
    have hfds : s.store.fds n.toNat = s.fds n.toNat := rfl
    split at hfd
    next hused => rw [hfds, fds_unused hused]
    next hused =>
      split at hfd
      next hown =>
        rw [hfds]
        split
        next => rfl
        next d hd =>
          obtain ⟨-, -, ip, -, rfl⟩ := look_some (g := FdEntry.toFd) hd
          exact if_neg hown
      next => cases hfd

/-- The descriptors after steps that leave them and their files alone. -/
theorem Steady.fds (h : Steady s.core t.core) : t.fds = s.fds :=
  look_same (g := FdEntry.toFd) h.fdTable h.fdInodes fun _ ip hfd hip =>
    h.inum ip (opens_pos hfd hip)

/-- The inode of a descriptor is loaded. -/
theorem Inv.loaded (h : Inv s) (hf : f < maxRemoteFds)
    (hip : s.fdInodes f = some ip) : Loaded s.core ip (s.inodes ip).inum := by
  obtain ⟨hlt, hvalid⟩ := h.cache.fds f hf ip hip
  exact ⟨hlt, h.cache.open_live hf hip, hvalid, rfl⟩

/-- The file behind a descriptor. -/
theorem Inv.file (h : Inv s) (hf : f < maxRemoteFds)
    (hused : (s.fdTable f).used = true) (hip : s.fdInodes f = some ip) :
    s.store.files (s.inodes ip).inum
        = some ((s.inodes ip).d.type, (s.core.img ip).content)
      ∧ (s.core.img ip).Mapped
      ∧ (s.core.img ip).content.length = (s.inodes ip).d.size
      ∧ (s.fdTable f).off ≤ (s.inodes ip).d.size := by
  obtain ⟨hview, hmap, hlen⟩ := h.cache.content_loaded h.image (h.loaded hf hip)
  refine ⟨hview, hmap, hlen, ?_⟩
  obtain ⟨type, bytes, hfile, hoff⟩ := h.ok f _ (fds_eq hf hused hip)
  have hview : s.store.files (s.inodes ip).inum
      = some ((s.inodes ip).d.type, (s.core.img ip).content) := hview
  rw [hview] at hfile
  cases hfile
  exact hlen ▸ hoff

-- ==== READ

theorem CacheOk.setTable (h : CacheOk c R) (table : Nat → FdEntry) :
    CacheOk { c with fdTable := table } R where
  vol := ⟨h.vol.layout, h.vol.distinct, h.vol.inums, h.vol.ok, h.vol.older, h.vol.owns⟩
  dev := h.dev
  alloc := h.alloc
  refs := h.refs
  held := h.held
  fds := h.fds

/-- The offset of the descriptor `f` moves on. -/
def Srv.advance (s : Srv) (f n : Nat) : Srv :=
  s.setFd f fun e => { e with off := e.off + n }

theorem fds_advance {d : Fd} (hd : s.fds f = some d) (n : Nat) :
    (s.advance f n).fds = update s.fds f (some { d with off := d.off + n }) := by
  have hself : (s.advance f n).fds f = some { d with off := d.off + n } := by
    obtain ⟨hf, hused, ip, hip, rfl⟩ := look_some (g := FdEntry.toFd) hd
    have hentry : (s.advance f n).fdTable f
        = { s.fdTable f with off := (s.fdTable f).off + n } := update_self ..
    have hused' : ((s.advance f n).fdTable f).used = true := by
      rw [hentry]
      exact hused
    rw [fds_eq (s := s.advance f n) hf hused' hip, hentry]
    rfl
  rw [← hself]
  exact look_update (s := s) (g := FdEntry.toFd) (fun _ hj => update_of_ne hj ..)
    (fun _ _ => rfl) fun _ => rfl

theorem Inv.advance (h : Inv s) {d : Fd} (hd : s.fds f = some d) {n : Nat}
    (hfile : s.store.files d.file = some (type, bytes))
    (hn : d.off + n ≤ bytes.length) : Inv (s.advance f n) where
  buf := ⟨h.buf.io, h.buf.uniq, h.buf.coherent, h.buf.refs, h.buf.held⟩
  cache := h.cache.setTable _
  image := h.image
  paired := paired_setFd h.paired rfl
  ok := by
    intro g e he
    have he : (s.advance f n).fds g = some e := he
    rw [fds_advance hd] at he
    by_cases hg : g = f
    · rw [hg, update_self] at he
      cases he
      exact ⟨type, bytes, hfile, hn⟩
    · rw [update_of_ne hg] at he
      exact h.ok g e he

/-- What `ureadi` returns in the file of a descriptor. -/
theorem ureadi_file {x : Img} (hx : x.Mapped) {off n : Nat} (hoff : off < x.d.size)
    (hn : n ≤ x.d.size - off) (sb : Superblock) :
    x.ureadi sb off n = (some ((x.content.drop off).take n), x) := by
  rcases Nat.eq_zero_or_pos n with rfl | hpos
  · have hsize := hx.size_le
    unfold Img.ureadi
    rw [if_neg (by omega)]
    have hmax : maxFile * bsize < 4294967296 := by decide
    rw [if_neg (by rw [Nat.add_zero, Nat.mod_eq_of_lt (by omega)]; omega)]
    rfl
  · exact x.ureadi_mapped hx hpos (by omega)

theorem store_of_core (h : t.core = s.core) : t.store = s.store := by
  have hfds : t.fds = s.fds := by
    apply Steady.fds
    rw [h]
    exact ⟨rfl, rfl, rfl, fun _ _ => rfl⟩
  unfold Srv.store
  rw [hfds, show t.disk = s.disk from congrArg Core.disk h,
    show t.sb = s.sb from congrArg Core.sb h]

/-- Only the buffers have changed. -/
theorem Inv.of_core (h : Inv s) (hbuf : BufOk t []) (hcore : t.core = s.core) :
    Inv t where
  buf := hbuf
  cache := hcore ▸ h.cache
  image := by
    have hdisk : t.disk = s.disk := congrArg Core.disk hcore
    have hsb : t.sb = s.sb := congrArg Core.sb hcore
    rw [hdisk, hsb]
    exact h.image
  paired := by
    have htable : t.fdTable = s.fdTable := congrArg Core.fdTable hcore
    have hinodes : t.fdInodes = s.fdInodes := congrArg Core.fdInodes hcore
    rw [htable, hinodes]
    exact h.paired
  ok := by
    rw [store_of_core hcore]
    exact h.ok

theorem store_advance {d : Fd} (hd : s.fds f = some d) (n : Nat) :
    (s.advance f n).store = { s.store with
      fds := update s.store.fds f (some { d with off := d.off + n }) } := by
  unfold Srv.store
  rw [fds_advance hd]
  rfl

theorem store_update_self {d : Fd} (hd : s.fds f = some d) :
    { s.store with fds := update s.store.fds f (some d) } = s.store := by
  have hself : update s.fds f (some d) = s.fds := by
    rw [← hd, update_eq_self]
  show Store.mk _ _ (update s.fds f (some d)) = _
  rw [hself]
  rfl

theorem fsRead_store (req : IpcMsg) (h : Inv s) :
    Ends (fsRead req) s fun ans t => Inv t
      ∧ (t.disk = s.disk ∧ t.sb = s.sb) ∧ (t.store, ans) = s.store.read req := by
  unfold fsRead Store.read
  apply get_bind
  cases hfd : s.lookupRemoteFd req.senderPid req.fd with
  | none =>
    rw [held_none hfd]
    exact ret ⟨h, ⟨rfl, rfl⟩, rfl⟩
  | some f =>
    obtain ⟨hf, ip, hip, hheld⟩ := h.held_some hfd
    obtain ⟨hn, -, hused, hown⟩ := lookupRemoteFd_some hfd
    obtain ⟨hfile, hmap, hlen, hoff⟩ := h.file hf hused hip
    have hd := fds_eq hf hused hip
    rw [hown] at hd
    rw [hheld]
    dsimp only
    split
    next => exact ret ⟨h, ⟨rfl, rfl⟩, rfl⟩
    rw [hip, hfile]
    dsimp only
    split
    next hend =>
      -- at the end of the file
      have hnil : (s.core.img ip).content.drop (s.fdTable f).off = [] :=
        List.drop_eq_nil_of_le (by omega)
      refine ret ⟨h, ⟨rfl, rfl⟩, ?_⟩
      have hzero : (Bytes.ofFn fun i => ([] : List UInt8).getD i 0)
          = (Bytes.zero : Bytes Ipc.ipcDataSize) := Bytes.ext fun i _ => by simp
      rw [hnil, List.take_nil, hzero]
      exact Prod.ext (store_update_self hd).symm rfl
    next hlt =>
      refine (ureadi_spec h.buf (by decide) _ _).seq fun r t ⟨hbuf, hr, hcore⟩ => ?_
      have hlt : (s.fdTable f).off < (s.core.img ip).d.size := by
        show _ < (s.inodes ip).d.size
        omega
      have hread := ureadi_file hmap hlt
        (n := min (clampLen req) ((s.inodes ip).d.size - (s.fdTable f).off))
        (Nat.min_le_right ..) s.sb
      rw [hread] at hr hcore
      have hcore : t.core = s.core := hcore.trans (Core.setImg_img ..)
      have hdata : ((s.core.img ip).content.drop (s.fdTable f).off).take
          (min (clampLen req) ((s.inodes ip).d.size - (s.fdTable f).off))
          = ((s.core.img ip).content.drop (s.fdTable f).off).take
            (clampLen req) := by
        rw [← hlen, ← List.length_drop, ← List.take_eq_take_min]
      rw [hdata] at hr
      subst hr
      have ht := h.of_core hbuf hcore
      have hstore := store_of_core hcore
      have hdt := hd
      rw [← show t.fds = s.fds from congrArg Store.fds hstore] at hdt
      apply modify_bind
      generalize hbs : ((s.core.img ip).content.drop (s.fdTable f).off).take
        (clampLen req) = bs
      have hbslen : (s.fdTable f).off + bs.length
          ≤ (s.core.img ip).content.length := by
        rw [← hbs, List.length_take, List.length_drop]
        omega
      rw [← hstore] at hfile
      refine ret ⟨ht.advance hdt hfile hbslen,
        ⟨congrArg Core.disk hcore, congrArg Core.sb hcore⟩, ?_⟩
      refine Prod.ext ?_ rfl
      refine (store_advance hdt bs.length).trans ?_
      rw [hstore]

-- ==== WRITE

/-- The descriptor that a `WRITE` goes to. -/
def Store.target (st : Store) (req : IpcMsg) : Option (Nat × Fd) :=
  match st.held req.senderPid req.fd with
  | none => none
  | some (f, d) => if d.writable = false then none else some (f, d)

/-- The write does not take a block with harmful contents for an indirect
block. -/
def Srv.WriteSafe (s : Srv) (d : Fd) (n : Nat) : Prop :=
  IndirectOk s.sb s.core.tab d.file (s.core.file d.file) d.off n

/-- There is place for the bytes: in the file and on the disk. -/
structure Srv.WriteFits (s : Srv) (d : Fd) (n : Nat) : Prop where
  blocks : (s.core.file d.file).blocksFor (d.off / bsize) (blockCount d.off n)
    ≤ (freeBlocks s.sb s.disk).length
  size : d.off + n ≤ maxFile * bsize

/-- The files may have grown, and the descriptors are as they were. -/
theorem Inv.grown (h : Inv s) (hbuf : BufOk t []) (hc : CacheOk t.core R)
    (hsteady : Steady s.core t.core) (himg : Image t.sb t.disk)
    (hgrown : ∀ j type bytes, s.store.files j = some (type, bytes) →
      ∃ bytes', t.store.files j = some (type, bytes')
        ∧ bytes.length ≤ bytes'.length) :
    Mid t R ∧ t.store = { s.store with files := view t.sb t.disk } := by
  have htable : t.fdTable = s.fdTable := hsteady.fdTable
  have hinodes : t.fdInodes = s.fdInodes := hsteady.fdInodes
  have hsb : t.sb = s.sb := hsteady.sb
  refine ⟨⟨hbuf, hc, himg, ?_, ?_⟩, ?_⟩
  · rw [htable, hinodes]
    exact h.paired
  · intro f d hd
    have hd : t.fds f = some d := hd
    rw [hsteady.fds] at hd
    obtain ⟨type, bytes, hfile, hoff⟩ := h.ok f d hd
    obtain ⟨bytes', hfile', hlen⟩ := hgrown _ _ _ hfile
    exact ⟨type, bytes', hfile', Nat.le_trans hoff hlen⟩
  · unfold Srv.store
    rw [hsteady.fds, hsb]

/-- Between two requests again, if a file other than a directory has been
written to. -/
theorem Inv.of_wrote (h : Inv s) {src : List UInt8} {off : Nat} {n : Int}
    (hbuf : BufOk t []) (hw : Wrote s.core [] inum src off n t.core)
    (hfile : view s.sb s.disk inum = some (type, bytes)) (htype : type ≠ tDir)
    {bytes' : List UInt8} (hlen : bytes.length ≤ bytes'.length)
    (hview : view t.sb t.disk
      = update (view s.sb s.disk) inum (some (type, bytes'))) :
    Inv t ∧ t.store = { s.store with
      files := update s.store.files inum (some (type, bytes')) } := by
  have himg : Image t.sb t.disk := by
    refine ⟨hw.cache.vol.layout, hw.cache.vol.onDisk, hw.mapped, ?_⟩
    rw [hview]
    exact h.image.files.rewrite hfile htype bytes'
  obtain ⟨hinv, hstore⟩ := h.grown hbuf hw.cache hw.steady himg
    fun j ty b hj => by
      show ∃ b', view t.sb t.disk j = _ ∧ _
      rw [hview]
      by_cases he : j = inum
      · subst he
        have hj : view s.sb s.disk j = some (ty, b) := hj
        rw [hfile] at hj
        cases hj
        exact ⟨bytes', update_self .., hlen⟩
      · rw [update_of_ne he]
        exact ⟨b, hj, Nat.le_refl _⟩
  refine ⟨hinv, ?_⟩
  rw [hstore, hview]
  rfl

theorem fsWrite_store (req : IpcMsg) (h : Inv s)
    (hfile : ∀ f d, s.store.target req = some (f, d) →
      (∀ type bytes, s.store.files d.file = some (type, bytes) → type ≠ tDir)
      ∧ s.WriteSafe d (clampLen req)) :
    Ends (fsWrite req) s fun ans t => Inv t ∧ FreeKept s.core t.core
      ∧ ((t.store, ans) = s.store.write req
        ∨ ∃ f d type bytes bytes', s.store.target req = some (f, d)
          ∧ s.store.files d.file = some (type, bytes)
          ∧ bytes'.length = bytes.length ∧ ¬ s.WriteFits d (clampLen req)
          ∧ ans = failed req.fd ∧ t.store = { s.store with
            files := update s.store.files d.file (some (type, bytes')) }) := by
  have hsame : FreeKept s.core s.core := (SameFiles.refl _).freeKept
  unfold fsWrite Store.write
  apply get_bind
  cases hfd : s.lookupRemoteFd req.senderPid req.fd with
  | none =>
    rw [held_none hfd]
    exact ret ⟨h, hsame, Or.inl rfl⟩
  | some f =>
    obtain ⟨hf, ip, hip, hheld⟩ := h.held_some hfd
    obtain ⟨hn, -, hused, hown⟩ := lookupRemoteFd_some hfd
    obtain ⟨hview, hmap, hlen, hoff⟩ := h.file hf hused hip
    have hload := h.loaded hf hip
    have hd := fds_eq hf hused hip
    rw [hown] at hd
    rw [hheld]
    dsimp only
    split
    next => exact ret ⟨h, hsame, Or.inl rfl⟩
    next hmode =>
      have htarget : s.store.target req = some (f, ⟨(s.inodes ip).inum,
          (s.fdTable f).off, (s.fdTable f).readable, (s.fdTable f).writable,
          req.senderPid⟩) := by
        unfold Store.target
        rw [hheld]
        exact if_neg hmode
      obtain ⟨htype, hsafe⟩ := hfile _ _ htarget
      have htype := htype _ _ hview
      rw [hip, hview]
      have hsrc : (req.data.slice 0 (clampLen req)).length = clampLen req :=
        Bytes.length_slice ..
      unfold Srv.WriteSafe at hsafe
      have himg : s.core.file (s.inodes ip).inum = s.core.img ip :=
        hload.file h.cache.vol.distinct
      rw [himg, ← hsrc] at hsafe
      have hw := h.cache.wrote h.image.mapped hload
        (req.data.slice 0 (clampLen req)) (s.fdTable f).off hoff fun _ => hsafe
      refine (uwritei_spec h.buf (by decide) hload.live.2
        (req.data.slice 0 (clampLen req)) (s.fdTable f).off).seq
        fun r t ⟨hbuf, hr, hcore⟩ => ?_
      have hcore : t.core = (s.core.wrote ip (req.data.slice 0 (clampLen req))
        (s.fdTable f).off).2 := hcore
      have hr : r = (s.core.wrote ip (req.data.slice 0 (clampLen req))
        (s.fdTable f).off).1 := hr
      rw [← hcore, ← hr] at hw
      rcases hw.view hview with ⟨hfail, bytes', hlen', hv⟩ | ⟨hdone, hv⟩
      · -- some of the bytes may have been written
        obtain ⟨hinv, hstore⟩ := h.of_wrote hbuf hw hview htype (by omega) hv
        rw [if_pos (by omega)]
        refine ret ⟨hinv, hw.free, Or.inr ⟨f, _, _, _, bytes', htarget, hview,
          hlen', ?_, rfl, hstore⟩⟩
        intro hfits
        have hblocks := hfits.blocks
        rw [himg, ← hsrc] at hblocks
        have hisFile := h.cache.vol.isFile hload
          (h.cache.tab_allocated (h.cache.loaded_allocated hload))
        have hsome : r = ((req.data.slice 0 (clampLen req)).length : Nat) :=
          hr.trans (hisFile.uwritei_some hsafe (by rw [hsrc]; exact hfits.size) hblocks)
        omega
      · obtain ⟨hinv, hstore⟩ := h.of_wrote hbuf hw hview htype (by
          rw [length_overlay (by omega)]
          omega) hv
        have hdt := hd
        rw [← hw.steady.fds] at hdt
        rw [if_neg (by omega)]
        apply modify_bind
        rw [hdone, Int.toNat_natCast]
        refine ret ⟨?_, ?_, Or.inl ?_⟩
        · have hnew : t.store.files (s.inodes ip).inum = some ((s.inodes ip).d.type,
              overlay (s.core.img ip).content (s.fdTable f).off
                (req.data.slice 0 (clampLen req))) := by
            rw [hstore]
            exact update_self ..
          refine hinv.advance hdt hnew ?_
          dsimp only
          rw [length_overlay (by omega)]
          omega
        · exact ⟨hw.free.sb, hw.free.blocks⟩
        · refine Prod.ext ?_ rfl
          refine (store_advance hdt _).trans ?_
          rw [hstore]

-- ==== CLOSE

/-- A reference moves between the running code and a descriptor. -/
theorem CacheOk.setFdInode {R' : List Nat} (h : CacheOk c R) (hf : f < maxRemoteFds)
    {r : Option Nat} (hr : ∀ i, r = some i → i < ninode ∧ (c.inodes i).valid = true)
    (hheld : ∀ i ∈ R', i < ninode)
    (hcount : ∀ i, R'.count i + (if r = some i then 1 else 0)
      = R.count i + (if c.fdInodes f = some i then 1 else 0)) :
    CacheOk { c with fdInodes := update c.fdInodes f r } R' where
  vol := ⟨h.vol.layout, h.vol.distinct, h.vol.inums, h.vol.ok, h.vol.older, h.vol.owns⟩
  dev := h.dev
  alloc := h.alloc
  refs := by
    intro i hi
    have hrefs := h.refs i hi
    have hopens := opens_update c hf r i
    have hcount := hcount i
    show (c.inodes i).ref = _
    omega
  held := hheld
  fds := by
    intro g hg i hi
    have hi : update c.fdInodes f r g = some i := hi
    by_cases he : g = f
    · rw [he, update_self] at hi
      exact hr i hi
    · rw [update_of_ne he] at hi
      exact h.fds g hg i hi

theorem Inv.drop (h : Inv s) (hf : f < maxRemoteFds) (hip : s.fdInodes f = some ip) :
    Inv (s.dropFd f ip) ∧ (s.dropFd f ip).store
      = { s.store with fds := update s.store.fds f none } := by
  have hfds : (s.dropFd f ip).fds = update s.fds f none :=
    look_dropFd (g := FdEntry.toFd) s f ip
  have hstore : (s.dropFd f ip).store
      = { s.store with fds := update s.store.fds f none } := by
    unfold Srv.store
    rw [hfds]
    rfl
  refine ⟨⟨⟨h.buf.io, h.buf.uniq, h.buf.coherent, h.buf.refs, h.buf.held⟩, ?_, h.image,
    ?_, ?_⟩, hstore⟩
  · have hmove : CacheOk { s.core with fdInodes := update s.core.fdInodes f none }
        [ip] := by
      refine h.cache.setFdInode hf (fun i hi => by cases hi) ?_ fun i => ?_
      · intro i hi
        rw [List.mem_singleton.mp hi]
        exact (h.cache.fds f hf ip hip).1
      · have hip : s.core.fdInodes f = some ip := hip
        rw [hip, show [ip] = (some ip).toList from rfl, count_toList,
          if_neg (show ¬ (none : Option Nat) = some i by simp), List.count_nil,
          Nat.add_comm]
    exact hmove.put.setTable _
  · exact paired_dropFd h.paired f ip
  · rw [hstore]
    intro g d hd
    have hd : update s.fds f none g = some d := hd
    by_cases he : g = f
    · rw [he, update_self] at hd
      cases hd
    · rw [update_of_ne he] at hd
      exact h.ok g d hd

theorem fsClose_store (req : IpcMsg) (h : Inv s) :
    Ends (fsClose req) s fun ans t => Inv t
      ∧ (t.disk = s.disk ∧ t.sb = s.sb) ∧ (t.store, ans) = s.store.close req := by
  unfold fsClose Store.close
  apply get_bind
  cases hfd : s.lookupRemoteFd req.senderPid req.fd with
  | none =>
    rw [held_none hfd]
    exact ret ⟨h, ⟨rfl, rfl⟩, rfl⟩
  | some f =>
    obtain ⟨hf, ip, hip, hheld⟩ := h.held_some hfd
    obtain ⟨hinv, hstore⟩ := h.drop hf hip
    rw [hheld]
    dsimp only
    rw [hip]
    apply modify_bind
    apply modify_bind
    apply modify_bind
    exact ret ⟨hinv, ⟨rfl, rfl⟩, Prod.ext hstore rfl⟩

theorem Inv.closeFor (h : Inv s) (pid : Int) (hi : i < maxRemoteFds) :
    Inv (s.closeFor pid i) ∧ (s.closeFor pid i).disk = s.disk
      ∧ (s.closeFor pid i).sb = s.sb := by
  unfold Srv.closeFor
  split
  next hmine =>
    obtain ⟨ip, hip⟩ := h.inode hi hmine.1
    rw [hip]
    exact ⟨(h.drop hi hip).1, rfl, rfl⟩
  next => exact ⟨h, rfl, rfl⟩

theorem closeAllForOwner_store (pid : Int) (h : Inv s) :
    Ends (closeAllForOwner pid) s fun _ t => Inv t
      ∧ (t.disk = s.disk ∧ t.sb = s.sb) ∧ t.store = s.store.closeAll pid := by
  have hends := closeAllForOwner_ends pid
    (P := fun i t => Inv t ∧ (t.disk = s.disk ∧ t.sb = s.sb) ∧ Closed pid s i t)
    (fun j t hj ⟨hinv, hdisk, hclosed⟩ => by
      obtain ⟨h1, h2, h3⟩ := hinv.closeFor pid hj
      exact ⟨h1, ⟨h2.trans hdisk.1, h3.trans hdisk.2⟩, hclosed.succ⟩)
    ⟨h, ⟨rfl, rfl⟩, .zero pid s⟩
  refine hends.mono fun _ t ⟨hinv, hdisk, hclosed⟩ => ⟨hinv, hdisk, ?_⟩
  have hfds : t.fds = fun g => (s.fds g).filter fun d => d.owner != pid :=
    hclosed.look (g := FdEntry.toFd) Fd.owner fun _ _ => rfl
  unfold Srv.store Store.closeAll
  rw [hfds, hdisk.1, hdisk.2]

-- ==== OPEN

/-- The inode cache has changed. -/
theorem Mid.settled {R' K : List Nat} (h : Mid s R) (hbuf : BufOk t [])
    (hc : CacheOk t.core R') (hst : Settled K s.core t.core) :
    Mid t R' ∧ t.store = s.store := by
  have hfds := hst.steady.fds
  have hdisk : t.disk = s.disk := hst.files.disk
  have hsb : t.sb = s.sb := hst.files.sb
  have hstore : t.store = s.store := by
    unfold Srv.store
    rw [hfds, hdisk, hsb]
  refine ⟨⟨hbuf, hc, hst.image h.image, ?_, hstore ▸ h.ok⟩, hstore⟩
  have htable : t.fdTable = s.fdTable := hst.files.fdTable
  have hinodes : t.fdInodes = s.fdInodes := hst.files.fdInodes
  rw [htable, hinodes]
  exact h.paired

/-- The entries that are free are the numbers that are. -/
theorem Mid.first_free (h : Mid s R) :
    first (fun i => !(s.fdTable i).used) 0 maxRemoteFds
      = first (fun f => (s.store.fds f).isNone) 0 maxRemoteFds := by
  refine first_congr fun f _ hf => ?_
  have hfds : s.store.fds f = s.fds f := rfl
  rw [hfds]
  cases hused : (s.fdTable f).used with
  | false =>
    rw [fds_unused hused]
    rfl
  | true =>
    obtain ⟨ip, hip⟩ := Option.isSome_iff_exists.mp ((h.paired f (by omega)).mp hused)
    rw [fds_eq (by omega) hused hip]
    rfl

theorem Mid.addFd (h : Mid s [ip]) (hload : Loaded s.core ip j)
    (hf : f < maxRemoteFds) (hnone : s.fdInodes f = none) {e : FdEntry}
    (hused : e.used = true) (hoff : e.off = 0) :
    Inv (s.addFd f ip e) ∧ (s.addFd f ip e).store = { s.store with
      fds := update s.store.fds f
        (some ⟨j, 0, e.readable, e.writable, e.ownerPid⟩) } := by
  have hinum : (s.inodes ip).inum = j := hload.inum
  have hfds : (s.addFd f ip e).fds = update s.fds f
      (some ⟨j, 0, e.readable, e.writable, e.ownerPid⟩) := by
    have hlook := look_addFd (s := s) (g := FdEntry.toFd) hf ip hused
    rw [show FdEntry.toFd e (s.inodes ip).inum
      = ⟨j, 0, e.readable, e.writable, e.ownerPid⟩ by rw [hinum, ← hoff]; rfl] at hlook
    exact hlook
  have hstore : (s.addFd f ip e).store = { s.store with
      fds := update s.store.fds f
        (some ⟨j, 0, e.readable, e.writable, e.ownerPid⟩) } := by
    unfold Srv.store
    rw [hfds]
    rfl
  refine ⟨⟨⟨h.buf.io, h.buf.uniq, h.buf.coherent, h.buf.refs, h.buf.held⟩, ?_, h.image,
    ?_, ?_⟩, hstore⟩
  · have hmove : CacheOk { s.core with
        fdInodes := update s.core.fdInodes f (some ip) } [] := by
      refine h.cache.setFdInode hf (fun i hi => ?_) (fun i hi => by cases hi) fun i => ?_
      · cases hi
        exact ⟨hload.lt, hload.valid⟩
      · have hnone : s.core.fdInodes f = none := hnone
        rw [hnone, show [ip] = (some ip).toList from rfl, count_toList,
          if_neg (show ¬ (none : Option Nat) = some i by simp), List.count_nil,
          Nat.add_comm]
    exact hmove.setTable _
  · exact paired_addFd h.paired f ip hused
  · rw [hstore]
    intro g d hd
    by_cases he : g = f
    · have hd : update s.fds f _ g = some d := hd
      rw [he, update_self] at hd
      cases hd
      obtain ⟨hview, -⟩ := h.cache.content_loaded h.image hload
      exact ⟨_, _, hview, Nat.zero_le _⟩
    · have hd : update s.fds f _ g = some d := hd
      rw [update_of_ne he] at hd
      exact h.ok g d hd

theorem openFd_store (pid flags : Int) (h : Mid s [ip]) (hload : Loaded s.core ip j) :
    Ends (openFd pid flags ip) s fun ans t => Inv t
      ∧ (t.disk = s.disk ∧ t.sb = s.sb)
      ∧ (t.store, ans) = s.store.grant pid flags j := by
  unfold openFd allocRemoteFd Store.grant
  apply Meets.bind
  apply get_bind
  rw [h.first_free]
  cases hfirst : first (fun f => (s.store.fds f).isNone) 0 maxRemoteFds with
  | none =>
    apply ret
    refine (uiput_settled (K := []) h.buf h.cache (by simp)).seq
      fun _ t ⟨hbuf, hc, hst⟩ => ?_
    obtain ⟨hinv, hstore⟩ := h.settled hbuf hc hst
    exact ret ⟨hinv, ⟨hst.files.disk, hst.files.sb⟩, Prod.ext hstore rfl⟩
  | some f =>
    obtain ⟨-, hlt, hfree, -⟩ := first_some hfirst
    have hf : f < maxRemoteFds := by omega
    have hunused : (s.fdTable f).used = false := by
      cases hused : (s.fdTable f).used with
      | false => rfl
      | true =>
        obtain ⟨jp, hjp⟩ := Option.isSome_iff_exists.mp ((h.paired f hf).mp hused)
        have hfds : s.store.fds f = s.fds f := rfl
        rw [hfds, fds_eq hf hused hjp] at hfree
        cases hfree
    have hnone : s.fdInodes f = none := by
      rw [← Option.not_isSome_iff_eq_none, ← h.paired f hf, hunused]
      simp
    apply modify_bind
    apply ret
    apply modify_bind
    obtain ⟨hinv, hstore⟩ := h.addFd hload hf hnone (e := ⟨true, pid, f, 0,
      !wrOnly flags, wrOnly flags || rdWr flags⟩) rfl rfl
    exact ret ⟨hinv, ⟨rfl, rfl⟩, Prod.ext hstore rfl⟩

end Xv6FsServer.Server
