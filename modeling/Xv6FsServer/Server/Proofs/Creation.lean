/-
The creation of a file.

The inode cache and the descriptors stay in order throughout. A creation
can end in three ways (`Created`): it leaves the disk alone, it leaves an
inode behind that nothing names, or it adds the file. It does not return at
all if the root directory has no place for the entry.
-/
import Xv6FsServer.Server.Proofs.Linking

namespace Xv6FsServer.Server

open Lib Fs Function Server.Core Meets

variable {c c' c'' : Core} {s : Srv} {R K : List Nat}
variable {i j ip inum dp n : Nat} {d : DInode} {name bytes : List UInt8}

-- ==== what a creation goes through

/-- The descriptors, and the files they are open on. -/
structure Steady (c c' : Core) : Prop where
  sb : c'.sb = c.sb
  fdTable : c'.fdTable = c.fdTable
  fdInodes : c'.fdInodes = c.fdInodes
  inum : ∀ i, 0 < c.opens i → (c'.inodes i).inum = (c.inodes i).inum

theorem Steady.opens (h : Steady c c') (i : Nat) : c'.opens i = c.opens i := by
  unfold Core.opens
  rw [h.fdInodes]

theorem Steady.trans (h : Steady c c') (h' : Steady c' c'') : Steady c c'' where
  sb := h'.sb.trans h.sb
  fdTable := h'.fdTable.trans h.fdTable
  fdInodes := h'.fdInodes.trans h.fdInodes
  inum := fun i hi => (h'.inum i (by rw [h.opens]; exact hi)).trans (h.inum i hi)

theorem Settled.steady (h : Settled K c c') : Steady c c' where
  sb := h.files.sb
  fdTable := h.files.fdTable
  fdInodes := h.files.fdInodes
  inum := fun i hi => (h.node i (Or.inl hi)).inum

theorem Rewritten.steady (h : Rewritten c c' inum d) : Steady c c' where
  sb := h.sb
  fdTable := h.fdTable
  fdInodes := h.fdInodes
  inum := fun i _ => (h.live i).2.1

theorem Steady.openInums (h : Steady c c') : c'.openInums = c.openInums :=
  openInums_congr h.fdInodes fun _ hf i hi => h.inum i (opens_pos hf hi)

/-- No block has become free, and the free ones hold what they held. -/
structure FreeKept (c c' : Core) : Prop where
  sb : c'.sb = c.sb
  blocks : ∀ b, b < c.sb.size → used c.sb c'.disk b = false →
    used c.sb c.disk b = false ∧ c'.disk b = c.disk b

theorem FreeKept.trans (h : FreeKept c c') (h' : FreeKept c' c'') : FreeKept c c'' := by
  refine ⟨h'.sb.trans h.sb, fun b hlt hb => ?_⟩
  have hnext := h'.blocks b
  rw [h.sb] at hnext
  obtain ⟨h1, h2⟩ := hnext hlt hb
  obtain ⟨h3, h4⟩ := h.blocks b hlt h1
  exact ⟨h3, h2.trans h4⟩

theorem SameFiles.freeKept (h : SameFiles c c') : FreeKept c c' := by
  refine ⟨h.sb, fun b _ hb => ?_⟩
  rw [h.disk] at hb ⊢
  exact ⟨hb, rfl⟩

theorem Rewritten.freeKept (hr : Rewritten c c' inum d) (h : CacheOk c R)
    (hi : inum < c.sb.ninodes) : FreeKept c c' := by
  refine ⟨hr.sb, fun b _ hb => ?_⟩
  rw [hr.disk, h.vol.layout.used_putInode hi] at hb
  have hdata := (h.vol.owns.free hb).1
  have hstart := h.vol.layout.bmapstart_lt
  refine ⟨hb, ?_⟩
  rw [hr.disk, h.vol.layout.putInode_behind hi (by omega)]

/-- The root directory is as it was, as far as a write into it goes. -/
structure RootKept (c c' : Core) : Prop where
  safe : ∀ {off n}, IndirectOk c.sb c.tab rootIno (c.file rootIno) off n →
    IndirectOk c'.sb c'.tab rootIno (c'.file rootIno) off n
  needs : ∀ bn n, (c'.file rootIno).blocksFor bn n = (c.file rootIno).blocksFor bn n
  free : freeBlocks c'.sb c'.disk = freeBlocks c.sb c.disk

theorem RootKept.trans (h : RootKept c c') (h' : RootKept c' c'') : RootKept c c'' where
  safe := fun hs => h'.safe (h.safe hs)
  needs := fun bn n => (h'.needs bn n).trans (h.needs bn n)
  free := h'.free.trans h.free

theorem RootKept.of_tab (hsame : SameFiles c c') (htab : c'.tab = c.tab) :
    RootKept c c' := by
  have hfile : c'.file rootIno = c.file rootIno := by
    unfold file
    rw [hsame.disk, htab]
  refine ⟨fun hs => ?_, fun _ _ => by rw [hfile], by rw [hsame.sb, hsame.disk]⟩
  rw [hfile, hsame.sb, htab]
  exact hs

/-- With nothing held, an inode in use is an open one. -/
theorem CacheOk.live_opens (h : CacheOk c []) (hi : i < ninode)
    (hlive : (c.inodes i).Live) : 0 < c.opens i := by
  have href := h.refs i hi
  have hpos := hlive.1
  rw [List.count_nil] at href
  omega

theorem CacheOk.opens_live (h : CacheOk c R) (hi : i < ninode)
    (hopen : 0 < c.opens i) : (c.inodes i).Live := by
  refine h.live hi ?_
  have href := h.refs i hi
  omega

/-- What has not changed an open inode has not changed the table. -/
theorem Settled.tab (hst : Settled K c c') (h : CacheOk c []) (h' : CacheOk c' []) :
    c'.tab = c.tab := by
  have hopens := hst.files.opens
  refine tab_congr h.vol.distinct h'.vol.distinct hst.files ?_ ?_
  · intro i hi hlive _
    have hopen := h.live_opens hi hlive
    exact ⟨h'.opens_live hi (by rw [hopens]; exact hopen), hst.node i (Or.inl hopen)⟩
  · intro i hi hlive _
    have hopen := h'.live_opens hi hlive
    rw [hopens] at hopen
    exact Or.inl ⟨h.opens_live hi hopen, hst.node i (Or.inl hopen)⟩

theorem RootKept.rewritten (h : CacheOk c R) (hr : Rewritten c c' inum d)
    (hroot : Allocated c.sb c.tab rootIno) (hi : inum < c.sb.ninodes) (hok : d.Ok)
    (haddrs : ∀ k, d.addrs k = 0) (hne : rootIno ≠ inum) : RootKept c c' := by
  have htab : c'.tab rootIno = c.tab rootIno := by
    rw [hr.tab hok, update_of_ne hne]
  have hfile : c'.file rootIno = ⟨putInode c.sb c.disk inum d, c.tab rootIno⟩ := by
    unfold file
    rw [hr.disk, htab]
  have hslot : ∀ k, (c'.file rootIno).slot k = (c.file rootIno).slot k := by
    rw [hfile]
    exact h.vol.layout.slot_putInode hi (h.vol.owns.indirect hroot)
  refine ⟨fun hs => ?_, fun bn n => ?_, ?_⟩
  · rw [hfile, hr.sb, hr.tab hok]
    exact hs.putInode h.vol.owns h.vol.layout hi haddrs hne
  · have hd : (c'.file rootIno).d = (c.file rootIno).d := htab
    unfold Img.blocksFor
    rw [unmapped_congr hslot, hd]
  · rw [hr.sb, hr.disk]
    exact h.vol.layout.freeBlocks_putInode hi

/-- The inode of a file that is being created. -/
def newInode (nlink : Nat) : DInode := { DInode.fresh tFile with nlink := nlink }

theorem newInode_ok (h : n < 65536) : (newInode n).Ok := by
  have hok := DInode.fresh_ok (show tFile < 65536 by decide)
  exact ⟨hok.type, hok.major, hok.minor, h, hok.size, hok.addrs, hok.past⟩

/-- The inode `i` has become an empty file. -/
structure Placed (c c' : Core) (i : Nat) (R : List Nat) : Prop where
  cache : CacheOk c' R
  steady : Steady c c'
  free : FreeKept c c'
  image : Image c'.sb c'.disk
  view : view c'.sb c'.disk = update (view c.sb c.disk) i (some (tFile, []))

theorem Placed.settled {R' : List Nat} (h : Placed c c' i R) (hc : CacheOk c'' R')
    (hst : Settled K c' c'') : Placed c c'' i R' where
  cache := hc
  steady := h.steady.trans hst.steady
  free := h.free.trans hst.files.freeKept
  image := hst.image h.image
  view := by
    rw [hst.view]
    exact h.view

/-- Between the claim of the inode `i` and its entry in the root. -/
structure Stage (c c' : Core) (i nlink : Nat) (R : List Nat) : Prop
    extends Placed c c' i R where
  tab : c'.tab i = newInode nlink

theorem Stage.settled {R' : List Nat} (h : Stage c c' i n R) (hc : CacheOk c'' R')
    (hst : Settled K c' c'') (htab : c''.tab i = c'.tab i) :
    Stage c c'' i n R' :=
  ⟨h.toPlaced.settled hc hst, htab.trans h.tab⟩

/-- The links of the new inode are written. -/
theorem Stage.links {m : Nat} (h : Stage c c' i n R) (hm : m < 65536)
    (hi : i < c.sb.ninodes) (hr : Rewritten c' c'' i (newInode m)) :
    Stage c c'' i m R := by
  have hi' : i < c'.sb.ninodes := by
    rw [h.steady.sb]
    exact hi
  have hok := newInode_ok hm
  have htype : tFile ≠ 0 := by decide
  have hdir : tFile ≠ tDir := by decide
  have himg := h.image.putEmpty hi' hok htype hdir rfl (fun _ => rfl)
    (Or.inr (by rw [h.view, update_self]; rfl))
  refine ⟨⟨h.cache.rewritten hr hi' hok htype (Or.inl fun _ => rfl),
    h.steady.trans hr.steady, h.free.trans (hr.freeKept h.cache hi'), ?_, ?_⟩,
    by rw [hr.tab hok, update_self]⟩
  · rw [hr.sb, hr.disk]
    exact himg.1
  · rw [hr.sb, hr.disk, himg.2, h.view, update_idem]
    rfl

/-- The claim. -/
theorem CacheOk.stage (h : CacheOk c' R) (hst : Settled [] c c')
    (himg : Image c'.sb c'.disk) (hi : i < c'.sb.ninodes)
    (hfree : (dinode c'.sb c'.disk i).type = 0) :
    Stage c (c'.claim tFile i) i 0 R := by
  have hr := h.claimed hfree tFile
  have hok : (DInode.fresh tFile).Ok := newInode_ok (n := 0) (by decide)
  have hnone : view c'.sb c'.disk i = none := by
    rw [← Option.not_isSome_iff_eq_none, isSome_view]
    exact fun halloc => halloc.2 hfree
  have himg' := himg.putEmpty hi hok (by decide) (by decide) rfl (fun _ => rfl)
    (Or.inl hnone)
  refine ⟨⟨h.rewritten hr hi hok (by decide) (Or.inl fun _ => rfl),
    hst.steady.trans hr.steady, hst.files.freeKept.trans (hr.freeKept h hi),
    himg'.1, ?_⟩, ?_⟩
  · refine himg'.2.trans ?_
    rw [hst.view]
    rfl
  · rw [hr.tab hok, update_self]
    rfl

-- ==== writes

theorem CacheOk.tab_allocated (h : CacheOk c R)
    (halloc : Allocated c.sb (dinode c.sb c.disk) inum) :
    Allocated c.sb c.tab inum := by
  refine ⟨halloc.1, ?_⟩
  rw [← (h.vol.tab_older inum).type]
  exact halloc.2

/-- What a write into a file does: the bytes are laid over those of the
file; or it fails, and some of them may have been, without the file having
grown. -/
structure Wrote (c : Core) (R : List Nat) (inum : Nat) (src : List UInt8)
    (off : Nat) (n : Int) (c' : Core) : Prop where
  cache : CacheOk c' R
  steady : Steady c c'
  free : FreeKept c c'
  mapped : ∀ j, Allocated c'.sb (dinode c'.sb c'.disk) j →
    (onDisk c'.sb c'.disk j).Mapped
  view : ∀ {type bytes}, view c.sb c.disk inum = some (type, bytes) →
    (n = -1 ∧ ∃ bytes', bytes'.length = bytes.length
      ∧ view c'.sb c'.disk = update (view c.sb c.disk) inum (some (type, bytes')))
    ∨ (n = src.length
      ∧ view c'.sb c'.disk
        = update (view c.sb c.disk) inum (some (type, overlay bytes off src)))

theorem CacheOk.wrote (h : CacheOk c R)
    (hmapped : ∀ j, Allocated c.sb (dinode c.sb c.disk) j →
      (onDisk c.sb c.disk j).Mapped)
    (hip : Loaded c ip inum) (src : List UInt8) (off : Nat)
    (hoff : off ≤ (c.inodes ip).d.size)
    (hok : ¬ (off + src.length) % 4294967296 < off →
      IndirectOk c.sb c.tab inum (c.img ip) off src.length) :
    Wrote c R inum src off (c.wrote ip src off).1 (c.wrote ip src off).2 := by
  have hdisk := h.loaded_allocated hip
  have halloc := h.tab_allocated hdisk
  have hfile := h.vol.isFile hip halloc
  have hd : c.tab inum = (c.img ip).d := hip.tab h.vol.distinct
  have hold : ∀ j, j < c.sb.ninodes →
      Older (dinode c.sb (c.img ip).disk j) (update c.tab inum (c.img ip).d j) := by
    intro j _
    rw [← hd, update_eq_self]
    exact h.vol.tab_older j
  have hdok : (c.img ip).d.Ok := h.vol.ok ip hip.lt hip.live hip.valid
  unfold Core.wrote
  rw [hip.inum]
  have htouch := hfile.uwritei_touch hok
  obtain ⟨hmap, hview⟩ := hfile.uwritei_view hdok hold hmapped hoff hok
  generalize (c.img ip).uwritei c.sb inum src off = w at htouch hmap hview ⊢
  have hvol := h.vol.setImg hip htouch
  have holder := h.loaded_older hip
  have hcontent : (c.img ip).content = (onDisk c.sb c.disk inum).content :=
    holder.content (hmapped inum hdisk)
  have hviews : ∀ {type bytes}, view c.sb c.disk inum = some (type, bytes) →
      (w.1 = -1 ∧ ∃ bytes', bytes'.length = bytes.length
        ∧ view c.sb w.2.disk = update (view c.sb c.disk) inum (some (type, bytes')))
      ∨ (w.1 = src.length
        ∧ view c.sb w.2.disk
          = update (view c.sb c.disk) inum (some (type, overlay bytes off src))) := by
    intro type bytes hv
    rw [view_of_allocated hdisk, holder.type, ← hcontent] at hv
    cases hv
    rcases hview with ⟨h1, bytes', hlen, h2⟩ | ⟨h1, h2⟩
    · exact Or.inl ⟨h1, bytes', hlen.trans (Img.length_content _).symm, h2⟩
    · exact Or.inr ⟨h1, h2⟩
  have hsome : ∀ j, Allocated c.sb (dinode c.sb c.disk) j →
      Allocated c.sb (dinode c.sb w.2.disk) j := by
    intro j hj
    rw [← isSome_view] at hj ⊢
    have hupdate : ∃ f, view c.sb w.2.disk = update (view c.sb c.disk) inum (some f) := by
      rcases hviews (view_of_allocated hdisk) with ⟨-, b, -, h2⟩ | ⟨-, h2⟩
      · exact ⟨_, h2⟩
      · exact ⟨_, h2⟩
    obtain ⟨f, hf⟩ := hupdate
    rw [hf]
    by_cases he : j = inum
    · rw [he, update_self]
      rfl
    · rw [update_of_ne he]
      exact hj
  refine ⟨⟨hvol, ?_, ?_, ?_, h.held, ?_⟩, ⟨rfl, rfl, rfl, ?_⟩, ?_, hmap, hviews⟩
  · intro j hj href
    rw [c.ref_setImg] at href
    rw [c.dev_setImg]
    exact h.dev j hj href
  · intro j hj href
    rw [c.ref_setImg] at href
    rw [c.inum_setImg]
    exact (hsome _ (h.allocated hj href)).2
  · intro j hj
    rw [c.ref_setImg]
    exact h.refs j hj
  · intro f hf j hopen
    rw [c.valid_setImg]
    exact h.fds f hf j hopen
  · exact fun j _ => c.inum_setImg ip j w.2
  · refine ⟨rfl, fun b hlt hb => ⟨?_, htouch.free_block hfile hb⟩⟩
    by_contra hused
    have hb : used c.sb w.2.disk b = false := hb
    rw [htouch.used b hlt (Bool.not_eq_false _ ▸ hused)] at hb
    cases hb

-- ==== create

theorem length_newEntry (name : List UInt8) (inum : Nat) :
    (newEntry name inum).length = 16 := by
  unfold newEntry strncpy
  rw [length_mkDirent, List.length_append, List.length_take, List.length_replicate]
  unfold dirsiz
  omega

/-- The root directory has a place for an entry. -/
structure Core.EntryFits (c : Core) (bytes : List UInt8) : Prop where
  blocks : (c.file rootIno).blocksFor (16 * freeEntry bytes / bsize)
    (blockCount (16 * freeEntry bytes) 16) ≤ (freeBlocks c.sb c.disk).length
  size : 16 * freeEntry bytes + 16 ≤ maxFile * bsize

/-- The write of the entry does not take a block with harmful contents for
an indirect block. -/
def Core.EntrySafe (c : Core) (bytes : List UInt8) : Prop :=
  IndirectOk c.sb c.tab rootIno (c.file rootIno) (16 * freeEntry bytes) 16

theorem Loaded.file (h : Loaded c ip inum) (hd : c.Distinct) :
    c.file inum = c.img ip := by
  unfold Core.file
  rw [h.tab hd]
  rfl

/-- With a place for it, the entry is written. -/
theorem CacheOk.link_fits (h : CacheOk c R) (hdp : Loaded c dp rootIno)
    (hsafe : c.EntrySafe bytes) (hfits : c.EntryFits bytes) :
    (c.link dp bytes name i).1 = 16 := by
  have hfile := h.vol.isFile hdp (h.tab_allocated (h.loaded_allocated hdp))
  have hlen := length_newEntry name i
  obtain ⟨hblocks, hsize⟩ := hfits
  unfold Core.EntrySafe at hsafe
  rw [hdp.file h.vol.distinct] at hsafe hblocks
  unfold Core.link Core.wrote
  rw [hdp.inum]
  have hsome : ((c.img dp).uwritei c.sb rootIno (newEntry name i)
      (16 * freeEntry bytes)).1 = ((newEntry name i).length : Nat) :=
    hfile.uwritei_some (by rw [hlen]; exact hsafe) (by rw [hlen]; exact hsize)
      (by rw [hlen]; exact hblocks)
  rw [hsome, hlen]
  rfl

theorem RootKept.entrySafe (h : RootKept c c') (hs : c.EntrySafe bytes) :
    c'.EntrySafe bytes := h.safe hs

theorem RootKept.entryFits (h : RootKept c c') (hf : c.EntryFits bytes) :
    c'.EntryFits bytes := by
  refine ⟨?_, hf.size⟩
  rw [h.needs, h.free]
  exact hf.blocks

/-- The entry is written. -/
theorem Placed.link (h : Placed c c' i R) (hdp : Loaded c' dp rootIno)
    (hdir : IsDir c' dp bytes) (hi : i < c.sb.ninodes) (hne : rootIno ≠ i)
    (hroot : Fs.view c.sb c.disk rootIno = some (tDir, bytes))
    (hsafe : c'.EntrySafe bytes) (h16 : (c'.link dp bytes name i).1 = 16) :
    CacheOk (c'.link dp bytes name i).2 R
      ∧ Steady c (c'.link dp bytes name i).2
      ∧ FreeKept c (c'.link dp bytes name i).2
      ∧ Image (c'.link dp bytes name i).2.sb (c'.link dp bytes name i).2.disk
      ∧ Fs.view (c'.link dp bytes name i).2.sb (c'.link dp bytes name i).2.disk
        = withFile (Fs.view c.sb c.disk) bytes name i := by
  have hlen := length_newEntry name i
  have hsize : 16 * freeEntry bytes ≤ (c'.inodes dp).d.size := by
    have hd : (c'.img dp).content.length = (c'.inodes dp).d.size := Img.length_content _
    rw [hdir.content] at hd
    rw [← hd]
    exact freeEntry_mul_le
  unfold Core.EntrySafe at hsafe
  rw [hdp.file h.cache.vol.distinct] at hsafe
  have hw := h.cache.wrote h.image.mapped hdp (newEntry name i)
    (16 * freeEntry bytes) hsize (fun _ => by rw [hlen]; exact hsafe)
  have hroot' : Fs.view c'.sb c'.disk rootIno = some (tDir, bytes) := by
    rw [h.view, update_of_ne hne]
    exact hroot
  have hview : Fs.view (c'.link dp bytes name i).2.sb (c'.link dp bytes name i).2.disk
      = withFile (Fs.view c.sb c.disk) bytes name i := by
    rcases hw.view hroot' with ⟨hfail, -⟩ | ⟨-, hv⟩
    · have hfail : (c'.link dp bytes name i).1 = -1 := hfail
      rw [h16] at hfail
      cases hfail
    · refine hv.trans ?_
      rw [h.view]
      rfl
  have hnamed : direntInum (newEntry name i) = i := by
    have := h.image.layout.ninodes.2
    rw [h.steady.sb] at this
    exact direntInum_mkDirent (by omega) _
  refine ⟨hw.cache, h.steady.trans hw.steady, h.free.trans hw.free,
    ⟨hw.cache.vol.layout, hw.cache.vol.onDisk, hw.mapped, ?_⟩, hview⟩
  rw [hview]
  have hfiles := h.image.files
  rw [h.view] at hfiles
  refine hfiles.addEntry ?_ hlen ?_
  · rw [update_of_ne hne]
    exact hroot
  · rw [hnamed, update_self]
    rfl

/-- `create` from the new inode on. -/
def linkNew (dp ip : Nat) (name : List UInt8) : Op (Option Nat) := do
  uilock ip
  setInode ip fun n => { n with d := { n.d with nlink := 1 } }
  uiupdate ip
  let s ← get
  let r ← dirlink dp name (s.inodes ip).inum
  if r < 0 then do
    setInode ip fun n => { n with d := { n.d with nlink := 0 } }
    uiupdate ip
    uiput ip
    uiput dp
    pure none
  else do
    uiput dp
    pure (some ip)

theorem create_eq (path : List UInt8) : create path = (do
    match ← uiget rootDev rootIno with
    | none => pure none
    | some dp => do
      uilock dp
      match ← ialloc tFile with
      | none => do
        uiput dp
        pure none
      | some ip => linkNew dp ip (component (skipSlashes path)) : Op (Option Nat)) := rfl

/-- The cache has a place for `x` beside the root and the new inode `i`. -/
def Core.FitsThird (c : Core) (i x : Nat) : Prop :=
  (insert x (insert i (insert rootIno c.openInums))).card ≤ ninode

/-- The name is in the root directory, and its inode can be had beside the
new inode `i`. -/
def Core.Finds (c : Core) (bytes name : List UInt8) (i : Nat) : Prop :=
  ∃ x, lookup bytes name = some x ∧ c.FitsThird i x

theorem CacheOk.get_third (h : CacheOk c' [ip, dp]) (hsteady : Steady c c')
    (hip : (c'.inodes ip).inum = i) (hdp : (c'.inodes dp).inum = rootIno) (x : Nat) :
    (c'.get x).1.isSome = true ↔ c.FitsThird i x := by
  have hset : c'.openInums ∪ ([ip, dp].map fun j => (c'.inodes j).inum).toFinset
      = insert i (insert rootIno c.openInums) := by
    rw [List.map_cons, List.map_cons, List.map_nil, hip, hdp, hsteady.openInums,
      List.toFinset_cons, List.toFinset_cons, List.toFinset_nil, Finset.union_comm,
      Finset.insert_union, Finset.insert_union, Finset.empty_union]
  rw [h.get_isSome, h.inUse, hset]
  rfl

/-- How a creation ends. -/
inductive Created (c : Core) (bytes name : List UInt8) : Option Nat → Core → Prop
  | kept (c' : Core) (hcache : CacheOk c' []) (hst : Settled [] c c')
      (hwhy : ¬ c.Fits rootIno rootIno ∨ freeInode c.sb c.disk = none) :
      Created c bytes name none c'
  | leaked (c' : Core) (i : Nat) (hroot : c.Fits rootIno rootIno)
      (hi : freeInode c.sb c.disk = some i) (hplaced : Placed c c' i [])
      (hwhy : ¬ c.Fits rootIno i ∨ c.Finds bytes name i) :
      Created c bytes name none c'
  | made (c' : Core) (i ip : Nat) (hfits : c.Fits rootIno i)
      (hi : freeInode c.sb c.disk = some i)
      (hcache : CacheOk c' [ip]) (hload : Loaded c' ip i) (hsteady : Steady c c')
      (hfree : FreeKept c c') (himg : Image c'.sb c'.disk)
      (hview : view c'.sb c'.disk = withFile (view c.sb c.disk) bytes name i)
      (hwhy : ¬ c.Finds bytes name i) :
      Created c bytes name (some ip) c'

/-- The creation does not return: it comes to the entry, which does not fit. -/
def Core.NoPlace (c : Core) (bytes name : List UInt8) : Prop :=
  ∃ i, freeInode c.sb c.disk = some i ∧ c.Fits rootIno i
    ∧ ¬ c.Finds bytes name i ∧ ¬ c.EntryFits bytes

/-- A new file whose inode is in memory, beside the root. -/
structure Half (c c' : Core) (i n ip dp : Nat) : Prop
    extends Stage c c' i n [ip, dp] where
  new : Loaded c' ip i
  dir : Loaded c' dp rootIno

theorem Half.new_d (h : Half c c' i n ip dp) : (c'.inodes ip).d = newInode n := by
  rw [← h.new.tab h.cache.vol.distinct]
  exact h.tab

theorem Half.settled (h : Half c c' i n ip dp) (hc : CacheOk c'' [ip, dp])
    (hst : Settled [ip, dp] c' c'') :
    Half c c'' i n ip dp := by
  have hload : ∀ {j inum}, j ∈ [ip, dp] → Loaded c' j inum → Loaded c'' j inum :=
    fun hj hl => hl.of_sameNode (hc.held_live hj) (hst.node _ (Or.inr hj))
  have hnew : Loaded c'' ip i := hload (by simp) h.new
  refine ⟨⟨h.toPlaced.settled hc hst, ?_⟩, hnew, hload (by simp) h.dir⟩
  rw [hnew.tab hc.vol.distinct, (hst.node ip (Or.inr (by simp))).d, h.new_d]

theorem Half.links {m : Nat} (h : Half c c' i n ip dp) (hm : m < 65536)
    (hi : i < c.sb.ninodes) (hr : Rewritten c' c'' i (newInode m)) :
    Half c c'' i m ip dp := by
  have hload : ∀ {j inum}, Loaded c' j inum → Loaded c'' j inum := by
    intro j inum hl
    obtain ⟨hlive, hinum, -, -, hvalid⟩ := hr.live j
    exact ⟨hl.lt, hlive.mpr hl.live, hvalid.trans hl.valid, hinum.trans hl.inum⟩
  exact ⟨h.toStage.links hm hi hr, hload h.new, hload h.dir⟩

/-- The root directory in memory is that on the disk. -/
theorem Half.isDir (h : Half c c' i n ip dp) (hne : rootIno ≠ i)
    (hroot : view c.sb c.disk rootIno = some (tDir, bytes)) :
    IsDir c' dp bytes := by
  have hroot' : Fs.view c'.sb c'.disk rootIno = some (tDir, bytes) := by
    rw [h.view, update_of_ne hne]
    exact hroot
  obtain ⟨hfile, hmap, -⟩ := h.cache.content_loaded h.image h.dir
  rw [hroot'] at hfile
  obtain ⟨htype, hbytes⟩ := Prod.mk.inj (Option.some.inj hfile)
  exact ⟨htype.symm, h.dir.live.2, hbytes.symm, hmap, h.image.files.whole hroot'⟩

theorem linkNew_spec (h : BufOk s []) (hstage : Stage c s.core i 0 [ip, dp])
    (hip : (s.core.inodes ip).inum = i) (hdp : Loaded s.core dp rootIno)
    (hkept : RootKept c s.core) (hi : freeInode c.sb c.disk = some i)
    (hlt : i < c.sb.ninodes) (hne : rootIno ≠ i) (hfits : c.Fits rootIno i)
    (hroot : view c.sb c.disk rootIno = some (tDir, bytes))
    (hname : ∀ a ∈ name, a ≠ 0) (hsafe : c.EntrySafe bytes) :
    Leaves (fun _ => c.NoPlace bytes name) (linkNew dp ip name) s fun r t =>
      BufOk t [] ∧ Created c bytes name r t.core := by
  unfold linkNew
  have hvalid : (s.inodes dp).valid = true := hdp.valid
  refine (uilock_settled (K := [dp]) h hstage.cache List.mem_cons_self
    (by simpa using hvalid)).lift.seq fun _ t ⟨hbuf, hc1, hload, hst, hcore⟩ => ?_
  have htab : t.core.tab = s.core.tab := by
    rw [hcore]
    exact hstage.cache.tab_lock List.mem_cons_self
  -- the new inode is loaded
  have hhalf : Half c t.core i 0 ip dp := by
    have hload : Loaded t.core ip i := hip ▸ hload
    refine ⟨hstage.settled hc1 hst (congrFun htab i), hload, ?_⟩
    exact hdp.of_sameNode (hc1.held_live (by simp)) (hst.node dp (Or.inr (by simp)))
  have hkept1 : RootKept c t.core := hkept.trans (.of_tab hst.files htab)
  apply modify_bind
  refine (uiupdate_links hbuf (by decide) hhalf.cache.vol.distinct hhalf.new
    1).lift.seq fun _ u ⟨hbuf2, hr⟩ => ?_
  have hd : { (t.inodes ip).d with nlink := 1 } = newInode 1 := by
    have hd : (t.inodes ip).d = newInode 0 := hhalf.new_d
    rw [hd]
    rfl
  rw [hd] at hr
  have hhalf2 := hhalf.links (by decide) hlt hr
  have hkept2 : RootKept c u.core := by
    have hroot' : Allocated t.core.sb (dinode t.core.sb t.core.disk) rootIno :=
      hhalf.cache.loaded_allocated hhalf.dir
    refine hkept1.trans (.rewritten hhalf.cache hr
      (hhalf.cache.tab_allocated hroot') ?_ (newInode_ok (by decide))
      (fun _ => rfl) hne)
    rw [hhalf.steady.sb]
    exact hlt
  apply get_bind
  have hinum : (u.inodes ip).inum = i := hhalf2.new.inum
  rw [hinum]
  apply Meets.bind
  have hdir := hhalf2.isDir hne hroot
  have hthird := hhalf2.cache.get_third hhalf2.steady hhalf2.new.inum hhalf2.dir.inum
  have hmiss : u.core.Misses bytes name ↔ ¬ c.Finds bytes name i := by
    constructor
    · intro hnone hfinds
      obtain ⟨x, hx, hfit⟩ := hfinds
      have := (hthird x).mpr hfit
      rw [hnone x hx] at this
      cases this
    · intro hnot x hx
      by_contra hsome
      exact hnot ⟨x, hx, (hthird x).mp (Option.isSome_iff_ne_none.mpr hsome)⟩
  refine ((dirlink_spec hdir hbuf2 (by decide) hname i).weaken ?_).mono ?_
  · intro _ _ hfault
    refine ⟨i, hi, hfits, hmiss.mp hfault.2, fun hfit => hfault.1 ?_⟩
    exact hhalf2.cache.link_fits hhalf2.dir (hkept2.entrySafe hsafe)
      (hkept2.entryFits hfit)
  · intro r v hv
    obtain ⟨hbuf3, ⟨rfl, x, jp, hx, hget, hcore3⟩ | ⟨rfl, hnone, h16, hcore3⟩⟩ := hv
    · -- the name is there: the links are taken back, the inode is left behind
      rw [if_pos (by decide)]
      have hfile : view u.core.sb u.core.disk rootIno = some (tDir, bytes) := by
        rw [hhalf2.view, update_of_ne hne]
        exact hroot
      have halloc := isSome_view.mp (hhalf2.image.files.of_lookup hfile hx)
      have hgot := (hhalf2.cache.get halloc (Prod.ext hget rfl)).1
      have hc3 : CacheOk v.core [ip, dp] := by
        rw [hcore3]
        exact hgot.put
      have hst3 : Settled [ip, dp] u.core v.core := by
        rw [hcore3]
        exact (hhalf2.cache.settled_get (fun _ hj => hj) x).trans
          (hgot.settled_put (fun _ hj => hj))
      have hhalf3 := hhalf2.settled hc3 hst3
      apply modify_bind
      refine (uiupdate_links hbuf3 (by decide) hc3.vol.distinct hhalf3.new
        0).lift.seq fun _ w ⟨hbuf4, hr4⟩ => ?_
      have hd4 : { (v.inodes ip).d with nlink := 0 } = newInode 0 := by
        have hd : (v.inodes ip).d = newInode 1 := hhalf3.new_d
        rw [hd]
        rfl
      rw [hd4] at hr4
      have hhalf4 := hhalf3.links (by decide) hlt hr4
      refine (uiput_settled (K := []) hbuf4 hhalf4.cache (by simp)).lift.seq
        fun _ x5 ⟨hbuf5, hc5, hst5⟩ => ?_
      refine (uiput_settled (K := []) hbuf5 hc5 (by simp)).lift.seq
        fun _ x6 ⟨hbuf6, hc6, hst6⟩ => ?_
      have hp6 := (hhalf4.toPlaced.settled hc5 hst5).settled hc6 hst6
      refine ret ⟨hbuf6, .leaked _ i hfits.root hi hp6 (Or.inr ?_)⟩
      exact ⟨x, hx, (hthird x).mp (by rw [hget]; rfl)⟩
    · rw [if_neg (by decide)]
      obtain ⟨hc3, hsteady, hfree, himg, hview⟩ := hhalf2.toPlaced.link hhalf2.dir
        hdir hlt hne hroot (hkept2.entrySafe hsafe) h16
      rw [← hcore3] at hc3 hsteady hfree himg hview
      have hload3 : Loaded v.core ip i := by
        rw [hcore3]
        refine ⟨hhalf2.new.lt, ?_, ?_, ?_⟩
        · exact (live_setImg ..).mpr hhalf2.new.live
        · exact (valid_setImg ..).trans hhalf2.new.valid
        · exact (inum_setImg ..).trans hhalf2.new.inum
      refine (uiput_settled (K := [ip]) hbuf3 (hc3.perm (.swap ..)) (by simp)).lift.seq
        fun _ w ⟨hbuf4, hc4, hst4⟩ => ?_
      refine ret ⟨hbuf4, .made _ i ip hfits hi hc4 ?_
        (hsteady.trans hst4.steady) (hfree.trans hst4.files.freeKept)
        (hst4.image himg) ?_ (hmiss.mp hnone)⟩
      · exact hload3.of_sameNode (hc4.held_live List.mem_cons_self)
          (hst4.node ip (Or.inr List.mem_cons_self))
      · rw [hst4.view]
        exact hview

/-- The creation of the first component of a path in the root. -/
theorem create_spec {path : List UInt8} (h : BufOk s []) (hc : CacheOk s.core [])
    (himg : Image s.sb s.disk) (hroot : view s.sb s.disk rootIno = some (tDir, bytes))
    (hname : ∀ a ∈ component (skipSlashes path), a ≠ 0)
    (hsafe : s.core.Fits rootIno rootIno → s.core.EntrySafe bytes) :
    Leaves (fun _ => s.core.NoPlace bytes (component (skipSlashes path)))
      (create path) s fun r t => BufOk t []
        ∧ Created s.core bytes (component (skipSlashes path)) r t.core := by
  rw [create_eq]
  generalize component (skipSlashes path) = name at hname ⊢
  refine (uiget_spec h rootIno).lift.seq fun r t ⟨hbuf, hr, hcore⟩ => ?_
  cases hget : (s.core.get rootIno).1 with
  | none =>
    rw [hget] at hr
    subst hr
    rw [s.core.get_none hget] at hcore
    refine ret ⟨hbuf, .kept _ (hcore ▸ hc) (hcore ▸ .refl ..) (Or.inl ?_)⟩
    intro hfits
    have := hc.get_root.mpr hfits
    rw [hget] at this
    cases this
  | some dp =>
    rw [hget] at hr
    subst hr
    have hfit0 : s.core.Fits rootIno rootIno := hc.get_root.mp (by rw [hget]; rfl)
    have hsafe := hsafe hfit0
    have halloc : Allocated s.sb (dinode s.sb s.disk) rootIno :=
      isSome_view.mp (by rw [hroot]; rfl)
    obtain ⟨hc1, hinum⟩ : CacheOk t.core [dp]
        ∧ (t.core.inodes dp).inum = rootIno := by
      rw [hcore]
      exact hc.get halloc (Prod.ext hget rfl)
    have htab : t.core.tab = s.core.tab := by
      rw [hcore]
      exact hc.tab_get halloc (Prod.ext hget rfl)
    have hst : Settled [] s.core t.core := by
      rw [hcore]
      exact hc.settled_get (by simp) rootIno
    refine (uilock_settled (K := []) hbuf hc1 List.mem_cons_self
      (by simp)).lift.seq fun _ u ⟨hbuf2, hc2, hload, hst2, hcore2⟩ => ?_
    have htab2 : u.core.tab = t.core.tab := by
      rw [hcore2]
      exact hc1.tab_lock List.mem_cons_self
    have hst2 := hst.trans hst2
    have hload : Loaded u.core dp rootIno := hinum ▸ hload
    have himg2 : Image u.sb u.disk := hst2.image himg
    have hdisk : u.disk = s.disk := hst2.files.disk
    have hsb : u.sb = s.sb := hst2.files.sb
    have hkept : RootKept s.core u.core :=
      .of_tab hst2.files (htab2.trans htab)
    -- the ways out that give the root back
    have hput : ∀ {v : Srv}, BufOk v [] → CacheOk v.core [dp] →
        (∀ w : Srv, BufOk w [] → CacheOk w.core [] → Settled [] v.core w.core →
          Created s.core bytes name none w.core) →
        Leaves (fun _ => s.core.NoPlace bytes name)
          (do uiput dp; pure none : Op (Option Nat)) v fun r t =>
            BufOk t [] ∧ Created s.core bytes name r t.core := by
      intro v hv hcv hend
      refine (uiput_settled (K := []) hv hcv (by simp)).lift.seq
        fun _ w ⟨hw, hcw, hst⟩ => ?_
      exact ret ⟨hw, hend w hw hcw hst⟩
    refine (ialloc_spec tFile hbuf2 (by decide)).lift.seq
      fun r v ⟨hbuf3, hv⟩ => ?_
    rw [hsb, hdisk] at hv
    cases hi : freeInode s.sb s.disk with
    | none =>
      rw [hi] at hv
      obtain ⟨rfl, hcore3⟩ := hv
      exact hput hbuf3 (hcore3 ▸ hc2) fun w _ hcw hst3 =>
        .kept _ hcw (hst2.trans (hcore3 ▸ hst3)) (Or.inr hi)
    | some i =>
      rw [hi] at hv
      obtain ⟨hr, hcore3⟩ := hv
      obtain ⟨-, hlt, hfree⟩ := freeInode_some hi
      have hne : rootIno ≠ i := by
        intro he
        exact halloc.2 (he ▸ hfree)
      have hfree' : (dinode u.sb u.disk i).type = 0 := by
        rw [hsb, hdisk]
        exact hfree
      have hlt' : i < u.sb.ninodes := by
        rw [hsb]
        exact hlt
      have hstage := hc2.stage hst2 himg2 hlt' hfree'
      have hclaim := hc2.claimed hfree' tFile
      have hload3 : Loaded (u.core.claim tFile i) dp rootIno :=
        ⟨hload.lt, hload.live, hload.valid, hload.inum⟩
      have hfits : ((u.core.claim tFile i).get i).1.isSome = true
          ↔ s.core.Fits rootIno i := by
        rw [hstage.cache.get_fits, hload3.inum]
        unfold Core.Fits
        rw [hstage.steady.openInums]
      cases hget3 : ((u.core.claim tFile i).get i).1 with
      | none =>
        rw [hget3] at hr
        subst hr
        rw [get_none hget3] at hcore3
        refine hput hbuf3 (hcore3 ▸ hstage.cache) fun w _ hcw hst3 => ?_
        rw [hcore3] at hst3
        refine .leaked _ i hfit0 hi (hstage.toPlaced.settled hcw hst3) (Or.inl ?_)
        intro hfit
        have := hfits.mpr hfit
        rw [hget3] at this
        cases this
      | some ip =>
        rw [hget3] at hr
        subst hr
        have halloc3 : Allocated (u.core.claim tFile i).sb
            (dinode (u.core.claim tFile i).sb (u.core.claim tFile i).disk) i :=
          isSome_view.mp (by rw [hstage.view, update_self]; rfl)
        obtain ⟨hc4, hinum4⟩ : CacheOk v.core [ip, dp]
            ∧ (v.core.inodes ip).inum = i := by
          rw [hcore3]
          exact hstage.cache.get halloc3 (Prod.ext hget3 rfl)
        have htab4 : v.core.tab = (u.core.claim tFile i).tab := by
          rw [hcore3]
          exact hstage.cache.tab_get halloc3 (Prod.ext hget3 rfl)
        have hst4 : Settled [dp] (u.core.claim tFile i) v.core := by
          rw [hcore3]
          exact hstage.cache.settled_get (fun _ hj => hj) i
        refine linkNew_spec hbuf3
          (hstage.settled hc4 hst4 (congrFun htab4 i)) hinum4 ?_ ?_ hi hlt hne
          (hfits.mp (by rw [hget3]; rfl)) hroot hname hsafe
        · exact hload3.of_sameNode (hc4.held_live (by simp))
            (hst4.node dp (Or.inr (by simp)))
        · refine (hkept.trans ?_).trans (.of_tab hst4.files htab4)
          have hroot2 : Allocated u.sb u.core.tab rootIno :=
            hc2.tab_allocated (hc2.loaded_allocated hload)
          exact .rewritten hc2 hclaim hroot2 hlt' (newInode_ok (by decide))
            (fun _ => rfl) hne

end Xv6FsServer.Server
