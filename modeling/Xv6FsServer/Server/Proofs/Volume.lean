/-
The volume as the server sees it, and what a write does to it.

An inode that is in use may be ahead of its copy on the disk: `uwritei`
writes the inode back only when the size grows, so the blocks of a write
that failed half-way are known to the server alone. The inode table of the
volume (`Core.tab`) is therefore the disk's, overlaid with the inodes in
use. `VolOk` asks for a consistent volume in this sense, and for the copy
on the disk to lack nothing but blocks; the table on the disk is then
consistent too (`VolOk.onDisk`).

# What is proved

`uwritei_ownership`: a write keeps the volume consistent and leaves every
other file alone, provided that a fresh indirect block it takes is
harmless. `balloc` does not clear what it hands out, so on a disk whose
free blocks hold old data this can fail (`stale_indirect`).
-/
import Xv6FsServer.Fs.Content
import Xv6FsServer.Server.Proofs.Unbuffered

namespace Xv6FsServer.Server

open Lib Fs Function

variable {c : Core} {s t : Srv} {i j ip inum : Nat}

-- ==== inodes in use

/-- The inode is in use and of the server's device. -/
def UInode.Live (n : UInode) : Prop := 0 < n.ref ∧ n.dev = rootDev

/-- `uiget`'s search for an inode in use. -/
def Core.cached (c : Core) (inum : Nat) : Option Nat :=
  first (fun i => decide (0 < (c.inodes i).ref) && (c.inodes i).dev == rootDev
    && (c.inodes i).inum == inum) 0 ninode

/-- The inode table of the volume. -/
def Core.tab (c : Core) (inum : Nat) : DInode :=
  match c.cached inum with
  | some i => if (c.inodes i).valid then (c.inodes i).d
      else dinode c.sb c.disk inum
  | none => dinode c.sb c.disk inum

/-- No inode is in use twice. -/
def Core.Distinct (c : Core) : Prop :=
  ∀ i j, i < ninode → j < ninode → (c.inodes i).Live → (c.inodes j).Live →
    (c.inodes i).inum = (c.inodes j).inum → i = j

structure VolOk (c : Core) : Prop where
  layout : Layout c.sb
  distinct : c.Distinct
  inums : ∀ i, i < ninode → (c.inodes i).Live → (c.inodes i).inum < c.sb.ninodes
  ok : ∀ i, i < ninode → (c.inodes i).Live → (c.inodes i).valid = true →
    (c.inodes i).d.Ok
  older : ∀ i, i < ninode → (c.inodes i).Live → (c.inodes i).valid = true →
    Older (dinode c.sb c.disk (c.inodes i).inum) (c.inodes i).d
  owns : Consistent c.sb c.disk c.tab

/-- The inode `ip` is in use, loaded, and that of the file `inum`. -/
structure Loaded (c : Core) (ip inum : Nat) : Prop where
  lt : ip < ninode
  live : (c.inodes ip).Live
  valid : (c.inodes ip).valid = true
  inum : (c.inodes ip).inum = inum

theorem cached_test (n : UInode) (inum : Nat) :
    (decide (0 < n.ref) && n.dev == rootDev && n.inum == inum) = true
      ↔ n.Live ∧ n.inum = inum := by
  unfold UInode.Live
  simp only [Bool.and_eq_true, decide_eq_true_eq, beq_iff_eq]

theorem Core.cached_some (h : c.cached inum = some i) :
    i < ninode ∧ (c.inodes i).Live ∧ (c.inodes i).inum = inum := by
  obtain ⟨-, hlt, htest, -⟩ := first_some h
  exact ⟨by omega, (cached_test _ _).mp htest⟩

theorem Core.Distinct.cached (h : c.Distinct) (hi : i < ninode)
    (hlive : (c.inodes i).Live) : c.cached (c.inodes i).inum = some i := by
  cases hc : c.cached (c.inodes i).inum with
  | some j =>
    obtain ⟨hj, hjlive, hinum⟩ := Core.cached_some hc
    rw [h j i hj hi hjlive hlive hinum]
  | none =>
    have := first_none hc i (by omega) (by omega)
    rw [(cached_test _ _).mpr ⟨hlive, rfl⟩] at this
    cases this

theorem Loaded.tab (h : Loaded c ip inum) (hd : c.Distinct) :
    c.tab inum = (c.inodes ip).d := by
  have hc := hd.cached h.lt h.live
  rw [h.inum] at hc
  unfold Core.tab
  rw [hc]
  exact if_pos h.valid

/-- The table on the disk lacks some blocks at most. -/
theorem VolOk.tab_older (h : VolOk c) (inum : Nat) :
    Older (dinode c.sb c.disk inum) (c.tab inum) := by
  unfold Core.tab
  split
  next i hc =>
    obtain ⟨hi, hlive, rfl⟩ := Core.cached_some hc
    split
    next hvalid => exact h.older i hi hlive hvalid
    next => exact .refl _
  next => exact .refl _

theorem VolOk.onDisk (h : VolOk c) :
    Consistent c.sb c.disk (dinode c.sb c.disk) :=
  h.owns.of_older fun inum _ => h.tab_older inum

-- ==== operations on one inode

theorem VolOk.isFile (h : VolOk c) (hip : Loaded c ip inum)
    (halloc : Allocated c.sb c.tab inum) : IsFile c.sb c.tab inum (c.img ip) where
  layout := h.layout
  owns := by
    have hd : c.tab inum = (c.img ip).d := hip.tab h.distinct
    rw [← hd, update_eq_self]
    exact h.owns
  lt := halloc.1
  type := by
    have hd : c.tab inum = (c.img ip).d := hip.tab h.distinct
    rw [← hd]
    exact halloc.2

/-- `setImg` changes the disk and one inode's copy of it, nothing else of
the inodes. -/
theorem Core.proj_setImg {β : Type} (f : UInode → β)
    (hf : ∀ n d, f { n with d := d } = f n) (c : Core) (ip i : Nat) (y : Img) :
    f ((c.setImg ip y).inodes i) = f (c.inodes i) := by
  unfold Core.setImg
  dsimp only
  by_cases h : i = ip
  · subst h
    rw [update_self, hf]
  · rw [update_of_ne h]

section

variable (c : Core) (ip i : Nat) (y : Img)

theorem Core.live_setImg : ((c.setImg ip y).inodes i).Live ↔ (c.inodes i).Live :=
  iff_of_eq (c.proj_setImg UInode.Live (fun _ _ => rfl) ip i y)

theorem Core.inum_setImg : ((c.setImg ip y).inodes i).inum = (c.inodes i).inum :=
  c.proj_setImg UInode.inum (fun _ _ => rfl) ip i y

theorem Core.valid_setImg : ((c.setImg ip y).inodes i).valid = (c.inodes i).valid :=
  c.proj_setImg UInode.valid (fun _ _ => rfl) ip i y

theorem Core.ref_setImg : ((c.setImg ip y).inodes i).ref = (c.inodes i).ref :=
  c.proj_setImg UInode.ref (fun _ _ => rfl) ip i y

theorem Core.dev_setImg : ((c.setImg ip y).inodes i).dev = (c.inodes i).dev :=
  c.proj_setImg UInode.dev (fun _ _ => rfl) ip i y

end

theorem Core.cached_setImg (c : Core) (ip inum : Nat) (y : Img) :
    (c.setImg ip y).cached inum = c.cached inum := by
  unfold Core.cached
  refine first_congr fun i _ _ => ?_
  rw [Bool.eq_iff_iff, cached_test, cached_test, c.live_setImg, c.inum_setImg]

theorem Core.d_setImg_self (c : Core) (ip : Nat) (y : Img) :
    ((c.setImg ip y).inodes ip).d = y.d := by
  unfold Core.setImg
  dsimp only
  rw [update_self]

theorem Core.inodes_setImg_of_ne (c : Core) (y : Img) (h : i ≠ ip) :
    (c.setImg ip y).inodes i = c.inodes i := update_of_ne h ..

/-- The table after an operation on one inode. -/
theorem VolOk.tab_setImg (h : VolOk c) (hip : Loaded c ip inum) {y : Img}
    (hy : Touch c.sb c.tab inum (c.img ip) y) (hj : j < c.sb.ninodes) :
    (c.setImg ip y).tab j = update c.tab inum y.d j := by
  have hc := h.distinct.cached hip.lt hip.live
  rw [hip.inum] at hc
  unfold Core.tab
  rw [c.cached_setImg]
  by_cases hji : j = inum
  · subst hji
    rw [update_self, hc]
    dsimp only
    rw [c.valid_setImg, if_pos hip.valid, c.d_setImg_self]
  · rw [update_of_ne hji]
    have hdisk : dinode (c.setImg ip y).sb (c.setImg ip y).disk j
        = dinode c.sb c.disk j := hy.dinodes j hj hji
    cases hcj : c.cached j with
    | none => exact hdisk
    | some i =>
      have hne : i ≠ ip := by
        rintro rfl
        exact hji ((Core.cached_some hcj).2.2.symm.trans hip.inum)
      dsimp only
      rw [c.inodes_setImg_of_ne y hne, hdisk]

/-- Whatever keeps to `Touch` keeps the volume in order. -/
theorem VolOk.setImg (h : VolOk c) (hip : Loaded c ip inum) {y : Img}
    (hy : Touch c.sb c.tab inum (c.img ip) y) : VolOk (c.setImg ip y) where
  layout := h.layout
  distinct := by
    intro i j hi hj hli hlj heq
    rw [c.live_setImg] at hli hlj
    rw [c.inum_setImg, c.inum_setImg] at heq
    exact h.distinct i j hi hj hli hlj heq
  inums := by
    intro i hi hlive
    rw [c.live_setImg] at hlive
    rw [c.inum_setImg]
    exact h.inums i hi hlive
  ok := by
    intro i hi hlive hvalid
    rw [c.live_setImg] at hlive
    rw [c.valid_setImg] at hvalid
    by_cases he : i = ip
    · subst he
      rw [c.d_setImg_self]
      exact hy.ok (h.ok i hi hlive hvalid)
    · rw [c.inodes_setImg_of_ne y he]
      exact h.ok i hi hlive hvalid
  older := by
    intro i hi hlive hvalid
    rw [c.live_setImg] at hlive
    rw [c.valid_setImg] at hvalid
    rw [c.inum_setImg]
    by_cases he : i = ip
    · subst he
      rw [c.d_setImg_self, hip.inum]
      refine hy.older (h.ok i hi hlive hvalid) ?_
      have := h.older i hi hlive hvalid
      rw [hip.inum] at this
      exact this
    · have hne : (c.inodes i).inum ≠ inum := by
        intro heq
        exact he (h.distinct i ip hi hip.lt hlive hip.live
          (heq.trans hip.inum.symm))
      rw [c.inodes_setImg_of_ne y he]
      have hdisk : dinode (c.setImg ip y).sb (c.setImg ip y).disk
          (c.inodes i).inum = dinode c.sb c.disk (c.inodes i).inum :=
        hy.dinodes _ (h.inums i hi hlive) hne
      rw [hdisk]
      exact h.older i hi hlive hvalid
  owns := by
    refine hy.owns.of_older fun j hj => ?_
    rw [h.tab_setImg hip hy hj]
    exact .refl _

-- ==== writing a file

/-- A file of the volume. -/
def Core.file (c : Core) (inum : Nat) : Img := ⟨c.disk, c.tab inum⟩

theorem VolOk.other_file (h : VolOk c) (hip : Loaded c ip inum)
    (halloc : Allocated c.sb c.tab inum) {y : Img}
    (hy : Touch c.sb c.tab inum (c.img ip) y) (hj : Allocated c.sb c.tab j)
    (hne : j ≠ inum) :
    (c.setImg ip y).tab j = c.tab j
      ∧ ((c.setImg ip y).file j).content = (c.file j).content := by
  have htab : (c.setImg ip y).tab j = c.tab j := by
    rw [h.tab_setImg hip hy hj.1, update_of_ne hne]
  refine ⟨htab, ?_⟩
  unfold Core.file
  rw [htab]
  exact hy.other_content (h.isFile hip halloc) hj hne

/-- A write keeps block ownership exclusive and leaves the other files
alone, provided that a fresh indirect block brings no block numbers along
that are out of place. -/
theorem uwritei_ownership (hvol : VolOk s.core) (hbuf : BufOk s [])
    (hip : Loaded s.core ip inum) (halloc : Allocated s.sb s.core.tab inum)
    (src : List UInt8) (off : Nat) (hok : ¬ (off + src.length) % 4294967296 < off →
      IndirectOk s.sb s.core.tab inum (s.core.img ip) off src.length) :
    Ends (uwritei ip src off) s fun _ t => VolOk t.core
      ∧ Consistent t.sb t.disk (dinode t.sb t.disk)
      ∧ ∀ j, Allocated s.sb s.core.tab j → j ≠ inum →
          t.core.tab j = s.core.tab j
            ∧ (t.core.file j).content = (s.core.file j).content := by
  have hinum : (s.inodes ip).inum = inum := hip.inum
  apply (uwritei_spec hbuf (by decide) hip.live.2 src off).mono
  rintro r t ⟨-, -, hcore⟩
  have htouch := (hvol.isFile hip halloc).uwritei_touch hok
  rw [hinum] at hcore
  have hvol' : VolOk t.core := by
    rw [hcore]
    exact hvol.setImg hip htouch
  refine ⟨hvol', hvol'.onDisk, fun j hj hne => ?_⟩
  rw [hcore]
  exact hvol.other_file hip halloc htouch hj hne

-- ==== a disk with a past

/-- A disk of 24 blocks: a small file in block 4 and a long one, of twelve
blocks, in blocks 5 to 16. The rest is free; `unused` is what block 17,
the lowest free one, still holds. -/
def sampleSb : Superblock where
  size := 24
  nblocks := 20
  ninodes := 4
  nlog := 0
  logstart := 2
  inodestart := 2
  bmapstart := 3

def smallFile : DInode :=
  { DInode.fresh tFile with
    nlink := 1
    size := 1
    addrs := fun k => if k = 0 then 4 else 0 }

def longFile : DInode :=
  { DInode.fresh tFile with
    nlink := 1
    size := 6144
    addrs := fun k => if k < ndirect then 5 + k else 0 }

def sampleDisk (unused : Block) : Disk := fun b =>
  if b = 2 then putDInode (putDInode Bytes.zero 1 smallFile) 2 longFile
  else if b = 3 then
    Bytes.ofFn fun j => if j < 2 then 255 else if j = 2 then 1 else 0
  else if b = 17 then unused
  else Bytes.zero

/-- The server over this disk, with the long file open. -/
def sample (unused : Block) : Srv :=
  { Srv.zero (sampleDisk unused) fun _ => true with
    sb := sampleSb
    inodes := update (fun _ => .zero) 0 ⟨rootDev, 2, 1, longFile, true⟩ }

theorem smallFile_ok : smallFile.Ok := by
  refine ⟨by decide, by decide, by decide, by decide, by decide, ?_, ?_⟩
  · intro j
    show (if j = 0 then 4 else 0) < 4294967296
    split <;> omega
  · intro j hj
    exact if_neg (by omega)

theorem longFile_ok : longFile.Ok := by
  refine ⟨by decide, by decide, by decide, by decide, by decide, ?_, ?_⟩
  · intro j
    show (if j < ndirect then 5 + j else 0) < 4294967296
    unfold ndirect
    split <;> omega
  · intro j hj
    exact if_neg (by omega)

theorem sample_dinode (u : Block) :
    (dinode sampleSb (sampleDisk u) 0).type = 0
      ∧ dinode sampleSb (sampleDisk u) 1 = smallFile
      ∧ dinode sampleSb (sampleDisk u) 2 = longFile
      ∧ (dinode sampleSb (sampleDisk u) 3).type = 0 := by
  have hblock : ∀ j, j < 4 → dinode sampleSb (sampleDisk u) j
      = getDInode (putDInode (putDInode Bytes.zero 1 smallFile) 2 longFile) j := by
    intro j hj
    unfold dinode iblock
    have hdiv : j / ipb + sampleSb.inodestart = 2 := by
      show j / 8 + 2 = 2
      omega
    have hmod : j % ipb = j := by
      show j % 8 = j
      omega
    rw [hdiv, hmod]
    rfl
  have hempty : ∀ j, j ≠ 1 → j ≠ 2 → (getDInode
      (putDInode (putDInode Bytes.zero 1 smallFile) 2 longFile) j).type = 0 := by
    intro j h1 h2
    rw [getDInode_putDInode_of_ne h2, getDInode_putDInode_of_ne h1]
    exact Bytes.le16_zero _
  refine ⟨?_, ?_, ?_, ?_⟩
  · rw [hblock 0 (by decide), hempty 0 (by decide) (by decide)]
  · rw [hblock 1 (by decide), getDInode_putDInode_of_ne (by decide),
      getDInode_putDInode (by decide) smallFile_ok]
  · rw [hblock 2 (by decide), getDInode_putDInode (by decide) longFile_ok]
  · rw [hblock 3 (by decide), hempty 3 (by decide) (by decide)]

theorem sample_live {u : Block} (h : ((sample u).core.inodes i).Live) : i = 0 := by
  by_contra hne
  have hz : (sample u).core.inodes i = .zero := by
    show update (fun _ => UInode.zero) 0 ⟨rootDev, 2, 1, longFile, true⟩ i = _
    rw [update_of_ne hne]
  rw [hz] at h
  exact absurd h.1 (by decide)

theorem sample_tab (u : Block) (j : Nat) :
    (sample u).core.tab j = dinode sampleSb (sampleDisk u) j := by
  unfold Core.tab
  split
  next i hc =>
    obtain ⟨-, hlive, rfl⟩ := Core.cached_some hc
    cases sample_live hlive
    exact (sample_dinode u).2.2.1.symm
  next => rfl

theorem sample_holds {u : Block} {k b : Nat}
    (h : Holds sampleSb (sampleDisk u) (sample u).core.tab i k b) :
    (i = 1 ∧ k = 0 ∧ b = 4) ∨ (i = 2 ∧ k < ndirect ∧ b = 5 + k) := by
  obtain ⟨⟨hi, htype⟩, -, hslot, hne⟩ := h
  obtain ⟨h0, h1, h2, h3⟩ := sample_dinode u
  rw [sample_tab] at htype hslot
  have hi : i < 4 := hi
  -- neither file has an indirect block
  have hdirect : ∀ d : DInode, d.addrs ndirect = 0 →
      (Img.mk (sampleDisk u) d).slot k = b → k < ndirect ∧ d.addrs k = b := by
    intro d hd hs
    by_cases hk : k ≤ ndirect
    · rw [Img.slot_direct _ hk] at hs
      refine ⟨?_, hs⟩
      by_contra hge
      have : k = ndirect := by omega
      exact hne (by rw [← hs, this]; exact hd)
    · exact absurd (hs.symm.trans (Img.slot_zero_of_no_indirect hd (by omega))) hne
  rcases (show i = 0 ∨ i = 1 ∨ i = 2 ∨ i = 3 by omega) with rfl | rfl | rfl | rfl
  · exact absurd h0 htype
  · rw [h1] at hslot
    obtain ⟨-, hb⟩ := hdirect _ rfl hslot
    have hb : (if k = 0 then 4 else 0) = b := hb
    split at hb
    next hk => exact Or.inl ⟨rfl, hk, hb.symm⟩
    next => exact absurd hb.symm hne
  · rw [h2] at hslot
    obtain ⟨hk, hb⟩ := hdirect _ rfl hslot
    have hb : (if k < ndirect then 5 + k else 0) = b := hb
    rw [if_pos hk] at hb
    exact Or.inr ⟨rfl, hk, hb.symm⟩
  · exact absurd h3 htype

theorem sample_used (u : Block) :
    ∀ b, b < 24 → used sampleSb (sampleDisk u) b = decide (b < 17) := by
  have hbitmap : ∀ b, b < 24 → used sampleSb (sampleDisk u) b
      = used sampleSb (sampleDisk Bytes.zero) b := by
    intro b hb
    refine used_congr ?_
    have hblk : bblock b sampleSb = 3 := by
      show b / 4096 + 3 = 3
      omega
    rw [hblk]
    rfl
  intro b hb
  rw [hbitmap b hb]
  revert b hb
  decide +kernel

theorem sample_layout : Layout sampleSb := by
  refine ⟨by decide, by decide, ?_, ?_, by decide, by decide⟩
  · intro i hi
    have hi : i < 4 := hi
    show i / ipb + 2 < 3
    unfold ipb
    omega
  · intro b hb
    have hb : b < 24 := hb
    show b / bpb + 3 < 4
    unfold bpb
    omega

theorem sample_vol (u : Block) : VolOk (sample u).core := by
  constructor
  case layout => exact sample_layout
  case distinct =>
    intro i j _ _ hi hj _
    rw [sample_live hi, sample_live hj]
  case inums =>
    intro i _ hi
    cases sample_live hi
    exact (by decide : 2 < 4)
  case ok =>
    intro i _ hi _
    cases sample_live hi
    exact longFile_ok
  case older =>
    intro i _ hi _
    cases sample_live hi
    show Older (dinode sampleSb (sampleDisk u) 2) longFile
    rw [(sample_dinode u).2.2.1]
    exact .refl _
  case owns =>
    have hlt : ∀ {i k b},
        Holds sampleSb (sampleDisk u) (sample u).core.tab i k b →
        4 ≤ b ∧ b < 17 := by
      intro i k b h
      rcases sample_holds h with ⟨-, -, rfl⟩ | ⟨-, hk, rfl⟩
      · omega
      · unfold ndirect at hk
        omega
    refine ⟨fun {i k b} h => ?_, fun {i k b} h => ?_,
      fun {i k j l b} h h' => ?_, fun b hb => ?_⟩
    · obtain ⟨h1, h2⟩ := hlt h
      exact ⟨h1, show b < 24 by omega⟩
    · obtain ⟨-, h2⟩ := hlt h
      exact (sample_used u b (by omega)).trans (decide_eq_true h2)
    · rcases sample_holds h with ⟨rfl, rfl, rfl⟩ | ⟨rfl, hk, rfl⟩
      · rcases sample_holds h' with ⟨rfl, rfl, -⟩ | ⟨-, -, he⟩
        · exact ⟨rfl, rfl⟩
        · omega
      · rcases sample_holds h' with ⟨-, -, he⟩ | ⟨rfl, -, he⟩
        · omega
        · exact ⟨rfl, by omega⟩
    · have hb : b < 4 := hb
      exact (sample_used u b (by omega)).trans (decide_eq_true (by omega))

theorem sample_buf (u : Block) : BufOk (sample u) [] := by
  have hdev : ∀ i, ((sample u).bufs i).dev ≠ rootDev := by
    intro i
    show 0 ≠ 1
    decide
  refine ⟨fun _ => rfl, ?_, ?_, ?_, ?_⟩
  · intro i j _ _ h
    exact absurd h (hdev i)
  · intro i _ h
    exact absurd h (hdev i)
  · intro i _
    rfl
  · intro e he
    cases he

theorem sample_loaded (u : Block) : Loaded (sample u).core 0 2 where
  lt := by decide
  live := ⟨show (0 : Int) < 1 by decide, rfl⟩
  valid := rfl
  inum := rfl

theorem sample_allocated (u : Block) : Allocated sampleSb (sample u).core.tab 2 := by
  refine ⟨by decide, ?_⟩
  rw [sample_tab, (sample_dinode u).2.2.1]
  decide

/-- On a disk whose free blocks are clear, the long file may grow. -/
theorem uwritei_ownership_clear :
    Ends (uwritei 0 [7] 6144) (sample Bytes.zero) fun _ t => VolOk t.core
      ∧ Consistent t.sb t.disk (dinode t.sb t.disk)
      ∧ ∀ j, Allocated sampleSb (sample Bytes.zero).core.tab j → j ≠ 2 →
          t.core.tab j = (sample Bytes.zero).core.tab j
            ∧ (t.core.file j).content
              = ((sample Bytes.zero).core.file j).content := by
  refine uwritei_ownership (sample_vol _) (sample_buf _) (sample_loaded _)
    (sample_allocated _) [7] 6144 fun _ _ _ _ _ b hb e _ hne => ?_
  obtain ⟨hlt, hfree⟩ := mem_freeBlocks.mp (List.mem_of_getElem? hb)
  have hused := (sample_used Bytes.zero b hlt).symm.trans hfree
  have hge : ¬ b < 17 := of_decide_eq_false hused
  have hclear : sampleDisk Bytes.zero b = Bytes.zero := by
    unfold sampleDisk
    rw [if_neg (by omega), if_neg (by omega)]
    exact ite_self _
  refine absurd ?_ hne
  show (sampleDisk Bytes.zero b).le32 _ = 0
  rw [hclear]
  exact Bytes.le32_zero _

/-- A block that was an indirect block of a file since deleted, and named
block 4 first. -/
def stale : Block := Bytes.put32 Bytes.zero 0 4

/-- Growing the long file by a byte when block 17 is such a block: it
becomes the indirect block, the byte goes to block 4, and that now belongs
to both files. -/
theorem stale_indirect :
    VolOk (sample stale).core ∧ BufOk (sample stale) []
      ∧ Loaded (sample stale).core 0 2
      ∧ Allocated sampleSb (sample stale).core.tab 2
      ∧ Allocated sampleSb (sample stale).core.tab 1
      ∧ Ends (uwritei 0 [7] 6144) (sample stale) fun _ t =>
          ¬ Consistent t.sb t.disk (dinode t.sb t.disk)
            ∧ ¬ Consistent t.sb t.disk t.core.tab
            ∧ (t.core.file 1).content ≠ ((sample stale).core.file 1).content := by
  refine ⟨sample_vol _, sample_buf _, sample_loaded _, sample_allocated _,
    ⟨by decide, ?_⟩, ?_⟩
  · rw [sample_tab, (sample_dinode _).2.1]
    decide
  · apply (uwritei_spec (sample_buf _) (by decide) rfl [7] 6144).mono
    rintro r t ⟨-, -, hcore⟩
    have hsb : t.sb = sampleSb := congrArg Core.sb hcore
    have hdisk : t.disk = (((sample stale).core.img 0).uwritei sampleSb 2 [7]
        6144).2.disk := congrArg Core.disk hcore
    refine ⟨?_, ?_, ?_⟩
    · intro h
      rw [hsb, hdisk] at h
      have := h.once (i := 1) (k := 0) (j := 2) (l := 13) (b := 4)
        ⟨⟨by decide, by decide +kernel⟩, by decide, by decide +kernel, by decide⟩
        ⟨⟨by decide, by decide +kernel⟩, by decide, by decide +kernel, by decide⟩
      omega
    · intro h
      rw [hsb, hdisk, hcore] at h
      have := h.once (i := 1) (k := 0) (j := 2) (l := 13) (b := 4)
        ⟨⟨by decide, by decide +kernel⟩, by decide, by decide +kernel, by decide⟩
        ⟨⟨by decide, by decide +kernel⟩, by decide, by decide +kernel, by decide⟩
      omega
    · rw [hcore]
      decide +kernel

end Xv6FsServer.Server
