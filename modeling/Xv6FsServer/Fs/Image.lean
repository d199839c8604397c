/-
What is on the disk: the files by inode number, and the images a server
can start from.

`view` reads the disk as a partial map from inode numbers to a type and a
list of bytes; directories are files here, their entries the 16-byte
records of their bytes. It looks at the inodes on the disk, so loading and
dropping inodes in memory does not touch it. An inode in memory that is
ahead of its copy has the same bytes (`Older.content`).

An `Image` is a consistent disk on which every byte below a file's size has
a block, the root is a directory, and directories name allocated inodes
only.
-/
import Xv6FsServer.Fs.Space

namespace Xv6FsServer.Fs

open Lib Function Img

variable {sb : Superblock} {tab : Nat → DInode} {disk : Disk} {x y : Img}
variable {d d' : DInode} {i j k b : Nat}
variable {src : List UInt8}
variable {c off : Nat}

-- ==== older copies

theorem Older.slot (h : Older d' d) (h0 : (Img.mk disk d').slot k ≠ 0) :
    (Img.mk disk d).slot k = (Img.mk disk d').slot k := by
  unfold Img.slot at h0 ⊢
  by_cases hk : k ≤ ndirect
  · rw [if_pos hk] at h0 ⊢
    rw [if_pos hk, h.addrs k hk h0]
  · rw [if_neg hk] at h0 ⊢
    rw [if_neg hk]
    by_cases hind : d'.addrs ndirect = 0
    · rw [if_pos hind] at h0
      exact absurd rfl h0
    · rw [if_neg hind, ← h.addrs ndirect (Nat.le_refl _) hind, if_neg hind]

theorem Older.size (h : Older d' d) : d'.size = d.size := by
  rw [h.fields]

theorem Older.type (h : Older d' d) : d'.type = d.type := by
  rw [h.fields]

theorem Older.mapped (h : Older d' d) (hm : (Img.mk disk d').Mapped) :
    (Img.mk disk d).Mapped := by
  intro o ho
  have h0 := hm o (h.size ▸ ho)
  rw [h.slot h0]
  exact h0

theorem Older.content (h : Older d' d) (hm : (Img.mk disk d').Mapped) :
    (Img.mk disk d).content = (Img.mk disk d').content := by
  have hsize : (Img.mk disk d).d.size = d'.size := h.size.symm
  refine list_eq_of_getD ?_ fun o ho => ?_
  · rw [length_content, length_content, hsize]
  · rw [length_content, hsize] at ho
    have h0 := hm o ho
    rw [getD_content (hsize ▸ ho), getD_content ho,
      byte_of_mapped h0, byte_of_mapped (by rw [h.slot h0]; exact h0),
      h.slot h0]

/-- An operation on one file leaves older copies of the others alone. -/
theorem Touch.other_older (h : Touch sb tab i x y) (hx : IsFile sb tab i x)
    (hj : Allocated sb tab j) (hne : j ≠ i) (hold : Older d' (tab j)) :
    (∀ k, (Img.mk y.disk d').slot k = (Img.mk x.disk d').slot k)
      ∧ (Img.mk y.disk d').content = (Img.mk x.disk d').content := by
  have hblock : ∀ k, k < nslots → (Img.mk x.disk d').slot k ≠ 0 →
      y.disk ((Img.mk x.disk d').slot k) = x.disk ((Img.mk x.disk d').slot k) := by
    intro k hk h0
    have hslot := hold.slot h0
    rw [← hslot] at h0 ⊢
    exact h.other_block hx hj hne hk h0
  have hslot : ∀ k, (Img.mk y.disk d').slot k = (Img.mk x.disk d').slot k := by
    refine slot_congr fun hind => ?_
    have hsd := Img.slot_direct (Img.mk x.disk d') (Nat.le_refl ndirect)
    have := hblock ndirect (lt_nslots_of_le (Nat.le_refl _))
      (by rw [hsd]; exact hind)
    rw [hsd] at this
    exact this
  exact ⟨hslot, content_congr rfl (fun k _ => hslot k) hblock⟩

-- ==== the view

/-- A file by its inode on the disk. -/
def onDisk (sb : Superblock) (disk : Disk) (j : Nat) : Img :=
  ⟨disk, dinode sb disk j⟩

/-- The files on the disk. -/
def view (sb : Superblock) (disk : Disk) (j : Nat) : Option (Nat × List UInt8) :=
  if j < sb.ninodes ∧ (dinode sb disk j).type ≠ 0 then
    some ((dinode sb disk j).type, (onDisk sb disk j).content)
  else none

/-- Entry `k` of a directory. -/
def dirent (bytes : List UInt8) (k : Nat) : List UInt8 :=
  (bytes.drop (16 * k)).take 16

/-- The root is a directory; directories are made of whole entries, which
name existing files. -/
structure FilesOk (files : Nat → Option (Nat × List UInt8)) : Prop where
  root : ∃ bytes, files rootIno = some (tDir, bytes)
  whole : ∀ {j bytes}, files j = some (tDir, bytes) → bytes.length % 16 = 0
  named : ∀ {j bytes}, files j = some (tDir, bytes) → ∀ k,
    16 * k < bytes.length → direntInum (dirent bytes k) ≠ 0 →
      (files (direntInum (dirent bytes k))).isSome = true

structure Image (sb : Superblock) (disk : Disk) : Prop where
  layout : Layout sb
  owns : Consistent sb disk (dinode sb disk)
  mapped : ∀ j, Allocated sb (dinode sb disk) j → (onDisk sb disk j).Mapped
  files : FilesOk (view sb disk)

theorem view_of_allocated (h : Allocated sb (dinode sb disk) j) :
    view sb disk j
      = some ((dinode sb disk j).type, (onDisk sb disk j).content) := if_pos h

theorem isSome_view : (view sb disk j).isSome = true
    ↔ Allocated sb (dinode sb disk) j := by
  constructor
  · intro h
    unfold view at h
    split at h
    next halloc => exact halloc
    next => cases h
  · intro h
    rw [view_of_allocated h]
    rfl

theorem view_congr {disk' : Disk} (hd : dinode sb disk' j = dinode sb disk j)
    (hc : Allocated sb (dinode sb disk) j →
      (onDisk sb disk' j).content = (onDisk sb disk j).content) :
    view sb disk' j = view sb disk j := by
  unfold view
  rw [hd]
  split
  next h => rw [hc h]
  next => rfl

-- ==== writing a file

theorem IsFile.ensure_low (hx : IsFile sb tab i x)
    (hind : ndirect < k → x.d.addrs ndirect ≠ 0) (hc : c < sb.bmapstart) :
    (x.ensure sb k).2.disk c = x.disk c := by
  have hcases := hx.ensured k
  generalize x.ensure sb k = r at hcases ⊢
  cases hcases with
  | held => rfl
  | full => rfl
  | fresh b hvac hfree =>
    have hblk : sb.bmapstart ≤ bblock b sb := Nat.le_add_left ..
    refine take_disk x (by omega) fun hk => ?_
    have h1 := (hx.indirect (hind hk)).1
    have h2 := hx.layout.bmapstart_lt
    omega

/-- `bmap` leaves the blocks below the bitmap alone. -/
theorem IsFile.bmap_low (hx : IsFile sb tab i x) (bn : Nat)
    (hfit : ndirect ≤ bn → bn < maxFile → Fit sb tab i x)
    (hc : c < sb.bmapstart) : (x.bmap sb bn).2.disk c = x.disk c := by
  unfold bmap
  split
  next => exact hx.ensure_low (fun h => by omega) hc
  next hdirect =>
    split
    next hbn =>
      have hlt : bn < maxFile := by
        unfold maxFile
        omega
      have hlow := hx.ensure_low (k := ndirect) (fun h => by omega) hc
      obtain ⟨htouch, hslot⟩ := hx.ensure_touch (k := ndirect)
        (lt_nslots_of_le (Nat.le_refl _)) (fun h => by omega)
        (fun _ => hfit (by omega) hlt)
      dsimp only
      split
      next => exact hlow
      next h0 =>
        have hind : (x.ensure sb ndirect).2.d.addrs ndirect ≠ 0 := by
          rw [← slot_direct _ (Nat.le_refl _), hslot h0]
          exact h0
        rw [(hx.touch htouch).ensure_low (fun _ => hind) hc, hlow]
    next => rfl

theorem IsFile.writeLoop_low (n : Nat) (hx : IsFile sb tab i x)
    (hok : IndirectOk sb tab i x off src.length) (hc : c < sb.bmapstart) :
    (x.writeLoop sb n off src).2.disk c = x.disk c := by
  induction n generalizing x off src with
  | zero => rfl
  | succ n ih =>
    unfold writeLoop
    split
    next => rfl
    next hlen =>
      have hfit : ndirect ≤ off / bsize → off / bsize < maxFile →
          Fit sb tab i x := fun hge hlt => hok.fit (by omega) hge hlt
      have hlow := hx.bmap_low (off / bsize) hfit hc
      obtain ⟨htouch, hslot⟩ := hx.bmap_touch (off / bsize) hfit
      dsimp only
      split
      next => exact hlow
      next hne =>
        obtain ⟨hstep, hnext⟩ := hx.writeStep hok (by omega) rfl hne
        obtain ⟨hlt, hslot⟩ := hslot hne
        rw [ih (hx.touch hstep) hnext, ← hlow]
        refine update_of_ne ?_ ..
        have hy := hx.touch htouch
        have hdata := (hy.owns.area (hy.holds (slotOf_lt hlt)
          (by rw [hslot]; exact hne))).1
        rw [hslot] at hdata
        have := hx.layout.bmapstart_lt
        omega

/-- The inode on the disk after a write: written back, or as it was. -/
theorem IsFile.uwritei_dinode (hx : IsFile sb tab i x) (hdok : x.d.Ok)
    (hok : ¬ (off + src.length) % 4294967296 < off →
      IndirectOk sb tab i x off src.length) :
    dinode sb (x.uwritei sb i src off).2.disk i = (x.uwritei sb i src off).2.d
      ∨ (dinode sb (x.uwritei sb i src off).2.disk i = dinode sb x.disk i
        ∧ (x.uwritei sb i src off).2.d.size = x.d.size) := by
  have hok' := (hx.uwritei_touch hok).ok hdok
  unfold uwritei at hok' ⊢
  split at hok'
  next hwrap =>
    rw [if_pos hwrap]
    exact Or.inr ⟨rfl, rfl⟩
  next hwrap =>
    rw [if_neg hwrap]
    have hlow : dinode sb (x.writeLoop sb src.length off src).2.disk i
        = dinode sb x.disk i := by
      unfold dinode
      rw [hx.writeLoop_low src.length (hok hwrap) (hx.layout.inodeArea i hx.lt)]
    have hsize : (x.writeLoop sb src.length off src).2.d.size = x.d.size :=
      writeLoop_size ..
    generalize x.writeLoop sb src.length off src = r at hlow hsize hok' ⊢
    obtain ⟨r, y⟩ := r
    cases r with
    | none => exact Or.inr ⟨hlow, hsize⟩
    | some off' =>
      dsimp only at hlow hsize hok' ⊢
      split at hok'
      next hgrow =>
        rw [if_pos hgrow]
        exact Or.inl (dinode_putInode hok')
      next hgrow =>
        rw [if_neg hgrow]
        exact Or.inr ⟨hlow, hsize⟩

/-- An older copy of the inode stays mapped. -/
theorem Touch.older_mapped (h : Touch sb tab i x y) (hd : Older d x.d)
    (hd' : Older d y.d) (hm : (Img.mk x.disk d).Mapped) :
    (Img.mk y.disk d).Mapped := by
  intro o ho
  have h0 := hm o ho
  have hkeep := h.keep _ (slotOf_lt (slotOf_lt_of_slot h0))
    (show x.slot _ ≠ 0 by rw [hd.slot h0]; exact h0)
  have hx : x.slot (slotOf (o / bsize)) ≠ 0 := by
    rw [hd.slot h0]
    exact h0
  -- the slot as read through `d` and through `y.d`
  generalize slotOf (o / bsize) = k at h0 hkeep hx ⊢
  by_cases hk : k ≤ ndirect
  · rw [slot_direct _ hk] at h0 ⊢
    exact h0
  · have hind : d.addrs ndirect ≠ 0 := by
      intro hz
      exact h0 (slot_zero_of_no_indirect hz (by omega))
    have hsame : (Img.mk y.disk d).slot k = y.slot k := by
      unfold slot
      rw [if_neg hk, if_neg hk, if_neg hind, ← hd'.addrs ndirect (Nat.le_refl _) hind,
        if_neg hind]
    rw [hsame, hkeep]
    exact hx

/-- What a write within a mapped file does to the files on the disk. -/
theorem IsFile.uwritei_view (hx : IsFile sb tab i x) (hdok : x.d.Ok)
    (hold : ∀ j, j < sb.ninodes → Older (dinode sb x.disk j) (update tab i x.d j))
    (hmapped : ∀ j, Allocated sb (dinode sb x.disk) j → (onDisk sb x.disk j).Mapped)
    (hoff : off ≤ x.d.size) (hok : ¬ (off + src.length) % 4294967296 < off →
      IndirectOk sb tab i x off src.length) :
    (∀ j, Allocated sb (dinode sb (x.uwritei sb i src off).2.disk) j →
        (onDisk sb (x.uwritei sb i src off).2.disk j).Mapped)
      ∧ (((x.uwritei sb i src off).1 = -1 ∧ ∃ bytes, bytes.length = x.d.size
            ∧ view sb (x.uwritei sb i src off).2.disk
              = update (view sb x.disk) i (some (x.d.type, bytes)))
          ∨ ((x.uwritei sb i src off).1 = src.length
            ∧ view sb (x.uwritei sb i src off).2.disk
              = update (view sb x.disk) i
                  (some (x.d.type, overlay x.content off src)))) := by
  have holdi := hold i hx.lt
  rw [update_self] at holdi
  have halloc : Allocated sb (dinode sb x.disk) i :=
    ⟨hx.lt, by rw [holdi.type]; exact hx.type⟩
  have hmap : x.Mapped := holdi.mapped (hmapped i halloc)
  have htouch := hx.uwritei_touch hok
  have hinode := hx.uwritei_dinode hdok hok
  obtain ⟨hymap, hcases⟩ := hx.uwritei_cases hmap hoff hok
  have holdy := htouch.older hdok holdi
  generalize x.uwritei sb i src off = r at htouch hinode hymap hcases holdy ⊢
  obtain ⟨r, y⟩ := r
  have hself : (onDisk sb y.disk i).Mapped := by
    unfold onDisk
    rcases hinode with heq | ⟨heq, -⟩
    · rw [heq]
      exact hymap
    · rw [heq] at holdy ⊢
      exact htouch.older_mapped holdi holdy (hmapped i halloc)
  have hother : ∀ j, j ≠ i → Allocated sb (dinode sb x.disk) j →
      (∀ k, (onDisk sb y.disk j).slot k = (onDisk sb x.disk j).slot k)
        ∧ (onDisk sb y.disk j).content = (onDisk sb x.disk j).content := by
    intro j hne hj
    have holdj := hold j hj.1
    rw [update_of_ne hne] at holdj
    have hallocj : Allocated sb tab j := ⟨hj.1, by rw [← holdj.type]; exact hj.2⟩
    unfold onDisk
    rw [htouch.dinodes j hj.1 hne]
    exact htouch.other_older hx hallocj hne holdj
  have hview : view sb y.disk
      = update (view sb x.disk) i (some (x.d.type, y.content)) := by
    funext j
    by_cases hne : j = i
    · subst hne
      have htype : (dinode sb y.disk j).type = x.d.type := by
        rw [holdy.type, htouch.fields]
      rw [update_self, view_of_allocated ⟨hx.lt, by rw [htype]; exact hx.type⟩,
        htype]
      have hcont : y.content = (onDisk sb y.disk j).content := holdy.content hself
      rw [hcont]
    · rw [update_of_ne hne]
      by_cases hlt : j < sb.ninodes
      · exact view_congr (htouch.dinodes j hlt hne) fun hj => (hother j hne hj).2
      · unfold view
        rw [if_neg (fun h => hlt h.1), if_neg (fun h => hlt h.1)]
  refine ⟨fun j hj => ?_, ?_⟩
  · by_cases hne : j = i
    · rw [hne]
      exact hself
    · have hdj := htouch.dinodes j hj.1 hne
      have hj' : Allocated sb (dinode sb x.disk) j := ⟨hj.1, hdj ▸ hj.2⟩
      intro o ho
      rw [(hother j hne hj').1]
      refine hmapped j hj' o ?_
      unfold onDisk at ho ⊢
      rw [← hdj]
      exact ho
  · rcases hcases with ⟨hr, hsize⟩ | ⟨hr, hcont⟩
    · refine Or.inl ⟨hr, y.content, ?_, hview⟩
      rw [length_content, hsize]
    · refine Or.inr ⟨hr, ?_⟩
      rw [hview, hcont]

end Xv6FsServer.Fs
