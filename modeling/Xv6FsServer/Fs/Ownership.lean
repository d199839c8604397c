/-
Who owns which block.

A volume is the disk together with the inode table `tab`, which says what
each inode number stands for: the `dinode` on the disk or, where the
server has it in memory, the copy there. It is `Consistent` when every
block number a file holds is a data block, is marked used, and is held
once.

# What an operation on one file may do

`Touch` says it once for all of them: it fills empty slots of that file,
with blocks that were free or with those a fresh indirect block names, and
changes no filled one; it frees nothing; and the only blocks it changes
are metadata and blocks of that file. The rest follows: other
files keep their blocks and their bytes (`Touch.other_block`), and free
blocks stay as they were (`Touch.free_block`).

# The fresh indirect block

`balloc` does not clear the block it hands out. A block that becomes an
indirect block brings its old bytes along as block numbers, so taking one
is safe just when they are `Harmless`.
-/
import Xv6FsServer.Fs.File
import Mathlib.Tactic.ByContra

namespace Xv6FsServer.Fs

open Lib Function Img

variable {d : DInode} {disk' : Disk} {c : Nat}

/-- The first data block. -/
def dataStart (sb : Superblock) : Nat := sb.size - sb.nblocks

/-- The areas of the disk follow each other as mkfs lays them out. -/
structure Layout (sb : Superblock) : Prop where
  inodestart : 2 ≤ sb.inodestart
  ninodes : 1 < sb.ninodes ∧ sb.ninodes ≤ 65536
  inodeArea : ∀ i, i < sb.ninodes → iblock i sb < sb.bmapstart
  bitmapArea : ∀ b, b < sb.size → bblock b sb < dataStart sb
  size_pos : 0 < sb.size
  size : sb.size < 4294967296

theorem Layout.bmapstart_lt {sb : Superblock} (h : Layout sb) :
    sb.bmapstart < dataStart sb :=
  Nat.lt_of_le_of_lt (Nat.le_add_left ..) (h.bitmapArea 0 h.size_pos)

def Allocated (sb : Superblock) (tab : Nat → DInode) (i : Nat) : Prop :=
  i < sb.ninodes ∧ (tab i).type ≠ 0

/-- Slot `k` of the allocated inode `i` holds the block `b`. -/
structure Holds (sb : Superblock) (disk : Disk) (tab : Nat → DInode)
    (i k b : Nat) : Prop where
  alloc : Allocated sb tab i
  slot_lt : k < nslots
  slot : (Img.mk disk (tab i)).slot k = b
  ne_zero : b ≠ 0

structure Consistent (sb : Superblock) (disk : Disk) (tab : Nat → DInode) :
    Prop where
  area : ∀ {i k b}, Holds sb disk tab i k b → dataStart sb ≤ b ∧ b < sb.size
  marked : ∀ {i k b}, Holds sb disk tab i k b → used sb disk b = true
  once : ∀ {i k j l b}, Holds sb disk tab i k b → Holds sb disk tab j l b →
    i = j ∧ k = l
  metadata : ∀ b, b < dataStart sb → used sb disk b = true

/-- The entries of the block `b`, read as block numbers. -/
def entry (disk : Disk) (b e : Nat) : Nat := (disk b).le32 (4 * e)

/-- What an unused block holds makes it fit for an indirect block. -/
def Harmless (sb : Superblock) (disk : Disk) (tab : Nat → DInode) (b : Nat) :
    Prop :=
  ∀ e, e < nindirect → entry disk b e ≠ 0 →
    (dataStart sb ≤ entry disk b e ∧ entry disk b e < sb.size)
    ∧ used sb disk (entry disk b e) = true
    ∧ (∀ i k, ¬ Holds sb disk tab i k (entry disk b e))
    ∧ ∀ f, f < nindirect → entry disk b f = entry disk b e → f = e

/-- `x` is the disk and the inode of the file `i` of a consistent volume. -/
structure IsFile (sb : Superblock) (tab : Nat → DInode) (i : Nat) (x : Img) :
    Prop where
  layout : Layout sb
  owns : Consistent sb x.disk (update tab i x.d)
  lt : i < sb.ninodes
  type : x.d.type ≠ 0

/-- `d'` is `d` or an earlier copy of it, which lacks some of the blocks. -/
structure Older (d' d : DInode) : Prop where
  fields : d' = { d with addrs := d'.addrs }
  addrs : ∀ k, k ≤ ndirect → d'.addrs k ≠ 0 → d'.addrs k = d.addrs k

theorem Older.refl (d : DInode) : Older d d := ⟨rfl, fun _ _ _ => rfl⟩

/-- What an operation on the file `i` may do. -/
structure Touch (sb : Superblock) (tab : Nat → DInode) (i : Nat) (x y : Img) :
    Prop where
  owns : Consistent sb y.disk (update tab i y.d)
  fields : y.d = { x.d with size := y.d.size, addrs := y.d.addrs }
  keep : ∀ k, k < nslots → x.slot k ≠ 0 → y.slot k = x.slot k
  fresh : ∀ k, k < nslots → y.slot k ≠ 0 →
    y.slot k = x.slot k ∨ used sb x.disk (y.slot k) = false
      ∨ (x.d.addrs ndirect = 0 ∧ ndirect < k)
  used : ∀ b, b < sb.size → used sb x.disk b = true → used sb y.disk b = true
  blocks : ∀ c, y.disk c ≠ x.disk c →
    (sb.inodestart ≤ c ∧ c < dataStart sb)
      ∨ ∃ k, k < nslots ∧ y.slot k = c ∧ c ≠ 0
  dinodes : ∀ j, j < sb.ninodes → j ≠ i →
    dinode sb y.disk j = dinode sb x.disk j
  ok : x.d.Ok → y.d.Ok
  older : x.d.Ok → Older (dinode sb x.disk i) x.d →
    Older (dinode sb y.disk i) y.d

variable {sb : Superblock} {tab : Nat → DInode} {disk : Disk} {x y z : Img}
variable {i j k l b : Nat}

theorem Touch.refl (h : Consistent sb x.disk (update tab i x.d)) :
    Touch sb tab i x x where
  owns := h
  fields := rfl
  keep := fun _ _ _ => rfl
  fresh := fun _ _ _ => Or.inl rfl
  used := fun _ _ h => h
  blocks := fun _ h => absurd rfl h
  dinodes := fun _ _ _ => rfl
  ok := fun h => h
  older := fun _ h => h

theorem IsFile.touch (hx : IsFile sb tab i x) (h : Touch sb tab i x y) :
    IsFile sb tab i y where
  layout := hx.layout
  owns := h.owns
  lt := hx.lt
  type := by
    rw [h.fields]
    exact hx.type

theorem IsFile.holds (hx : IsFile sb tab i x) (hk : k < nslots) (hne : x.slot k ≠ 0) :
    Holds sb x.disk (update tab i x.d) i k (x.slot k) where
  alloc := ⟨hx.lt, by rw [update_self]; exact hx.type⟩
  slot_lt := hk
  slot := by rw [update_self]
  ne_zero := hne

theorem lt_nslots_of_le (h : k ≤ ndirect) : k < nslots := by
  unfold nslots ndirect at *
  omega

theorem Touch.trans (hx : IsFile sb tab i x) (hxy : Touch sb tab i x y)
    (hyz : Touch sb tab i y z) : Touch sb tab i x z where
  owns := hyz.owns
  fields := by
    rw [hyz.fields, hxy.fields]
  keep := by
    intro k hk hx
    have hy := hxy.keep k hk hx
    rw [hyz.keep k hk (by rw [hy]; exact hx), hy]
  fresh := by
    intro k hk hz
    rcases hyz.fresh k hk hz with hsame | hfree | ⟨hind, hgt⟩
    · rw [hsame] at hz ⊢
      exact hxy.fresh k hk hz
    · refine Or.inr (Or.inl ?_)
      by_contra hused
      rw [Bool.not_eq_false] at hused
      have hholds := ((hx.touch hxy).touch hyz).holds hk hz
      have hlt := (hyz.owns.area hholds).2
      rw [hxy.used _ hlt hused] at hfree
      cases hfree
    · refine Or.inr (Or.inr ⟨?_, hgt⟩)
      by_contra hne
      have hslot : ∀ w : Img, w.slot ndirect = w.d.addrs ndirect :=
        fun w => slot_direct w (Nat.le_refl _)
      have := hxy.keep ndirect (lt_nslots_of_le (Nat.le_refl _))
        (by rw [hslot]; exact hne)
      rw [hslot, hslot, hind] at this
      exact hne this.symm
  used := fun b hb hx => hyz.used b hb (hxy.used b hb hx)
  blocks := by
    intro c hc
    by_cases hcy : z.disk c = y.disk c
    · rcases hxy.blocks c (hcy ▸ hc) with hmeta | ⟨k, hk, hs, hne⟩
      · exact Or.inl hmeta
      · refine Or.inr ⟨k, hk, ?_, hne⟩
        rw [hyz.keep k hk (by rw [hs]; exact hne), hs]
    · exact hyz.blocks c hcy
  dinodes := fun j hj hne => (hyz.dinodes j hj hne).trans (hxy.dinodes j hj hne)
  ok := fun h => hyz.ok (hxy.ok h)
  older := fun hok h => hyz.older (hxy.ok hok) (hxy.older hok h)

-- ==== what follows

theorem slot_congr
    (h : d.addrs ndirect ≠ 0 → disk' (d.addrs ndirect) = disk (d.addrs ndirect)) (k : Nat) :
    (Img.mk disk' d).slot k = (Img.mk disk d).slot k := by
  unfold slot
  dsimp only
  split
  next => rfl
  next =>
    split
    next => rfl
    next hne => rw [h hne]

theorem allocated_update (hj : Allocated sb tab j) (hne : j ≠ i) (d : DInode) :
    Allocated sb (update tab i d) j := by
  refine ⟨hj.1, ?_⟩
  rw [update_of_ne hne]
  exact hj.2

section

variable (h : Touch sb tab i x y)
include h

/-- A changed block that is no metadata is held by the file operated on. -/
theorem Touch.holder (hx : IsFile sb tab i x) (hc : y.disk b ≠ x.disk b) :
    b < dataStart sb ∨ ∃ k, Holds sb y.disk (update tab i y.d) i k b := by
  rcases h.blocks b hc with hmeta | ⟨k, hk, rfl, h0⟩
  · exact Or.inl hmeta.2
  · exact Or.inr ⟨k, (hx.touch h).holds hk h0⟩

/-- A block that another file holds before and after is not changed. -/
theorem Touch.unchanged (hx : IsFile sb tab i x)
    (hne : j ≠ i) (hbefore : Holds sb x.disk (update tab i x.d) j k b)
    (hafter : Holds sb y.disk (update tab i y.d) j k b) :
    y.disk b = x.disk b := by
  by_contra hc
  rcases h.holder hx hc with hmeta | ⟨l, hself⟩
  · have := (hx.owns.area hbefore).1
    omega
  · exact hne (h.owns.once hafter hself).1

theorem Touch.other_slot (hx : IsFile sb tab i x)
    (hj : Allocated sb tab j) (hne : j ≠ i) (k : Nat) :
    (Img.mk y.disk (tab j)).slot k = (Img.mk x.disk (tab j)).slot k := by
  refine slot_congr (fun hind => ?_) k
  -- its indirect block is named in the inode, which is the same
  have hold : ∀ x : Img, Holds sb x.disk (update tab i x.d) j ndirect
      ((tab j).addrs ndirect) := by
    intro x
    refine ⟨allocated_update hj hne _, lt_nslots_of_le (Nat.le_refl _), ?_, hind⟩
    rw [update_of_ne hne]
    exact slot_direct _ (Nat.le_refl _)
  exact h.unchanged hx hne (hold x) (hold y)

/-- The blocks of another file are not changed. -/
theorem Touch.other_block (hx : IsFile sb tab i x)
    (hj : Allocated sb tab j) (hne : j ≠ i) (hk : k < nslots)
    (h0 : (Img.mk x.disk (tab j)).slot k ≠ 0) :
    y.disk ((Img.mk x.disk (tab j)).slot k)
      = x.disk ((Img.mk x.disk (tab j)).slot k) := by
  refine h.unchanged hx hne (k := k) ?_ ?_
  · exact ⟨allocated_update hj hne _, hk, by rw [update_of_ne hne], h0⟩
  · refine ⟨allocated_update hj hne _, hk, ?_, h0⟩
    rw [update_of_ne hne]
    exact h.other_slot hx hj hne k

/-- A block that is free afterwards is as it was. -/
theorem Touch.free_block (hx : IsFile sb tab i x)
    (hfree : Fs.used sb y.disk b = false) : y.disk b = x.disk b := by
  by_contra hc
  have hused : Fs.used sb y.disk b = true := by
    rcases h.holder hx hc with hmeta | ⟨k, hself⟩
    · exact h.owns.metadata b hmeta
    · exact h.owns.marked hself
  rw [hused] at hfree
  cases hfree

end

/-- Forgetting blocks that are not on the disk yet keeps the volume
consistent. -/
theorem Consistent.of_older {tab' : Nat → DInode} (h : Consistent sb disk tab)
    (hold : ∀ i, i < sb.ninodes → Older (tab' i) (tab i)) :
    Consistent sb disk tab' := by
  have hholds : ∀ {j l c}, Holds sb disk tab' j l c → Holds sb disk tab j l c := by
    intro j l c hh
    obtain ⟨⟨hlt, htype⟩, hl, hslot, hne⟩ := hh
    obtain ⟨hfields, haddrs⟩ := hold j hlt
    refine ⟨⟨hlt, ?_⟩, hl, ?_, hne⟩
    · rw [hfields] at htype
      exact htype
    · rw [← hslot] at hne
      rw [← hslot]
      unfold slot at hne ⊢
      split at hne
      next hk => rw [if_pos hk, if_pos hk, haddrs l hk hne]
      next hk =>
        split at hne
        next => exact absurd rfl hne
        next hind =>
          rw [if_neg hk, if_neg hk, if_neg hind,
            ← haddrs ndirect (Nat.le_refl _) hind, if_neg hind]
  exact ⟨fun hh => h.area (hholds hh), fun hh => h.marked (hholds hh),
    fun hh hh' => h.once (hholds hh) (hholds hh'), h.metadata⟩

-- ==== bitmap

theorem lowestFree_some (h : lowestFree sb disk = some b) :
    b < sb.size ∧ used sb disk b = false := by
  obtain ⟨-, hlt, hfree, -⟩ := first_some h
  refine ⟨by omega, ?_⟩
  rw [Bool.not_eq_true'] at hfree
  exact hfree

theorem used_congr (h : disk' (bblock b sb) = disk (bblock b sb)) :
    used sb disk' b = used sb disk b := by
  unfold used
  rw [h]

theorem used_markUsed (c : Nat) :
    used sb (markUsed sb disk b) c = (decide (c = b) || used sb disk c) := by
  unfold used markUsed
  by_cases hblk : bblock c sb = bblock b sb
  · rw [hblk, update_self, bit_setBit (Nat.mod_lt _ (by unfold bpb; omega))]
    congr 1
    refine decide_eq_decide.mpr ⟨fun h => ?_, fun h => by rw [h]⟩
    unfold bblock bpb at *
    omega
  · rw [update_of_ne hblk]
    have hne : c ≠ b := fun h => hblk (by rw [h])
    simp [hne]

/-- A free block is a data block that nobody holds. -/
theorem Consistent.free (h : Consistent sb disk tab)
    (hfree : used sb disk b = false) :
    dataStart sb ≤ b ∧ ∀ j k, ¬ Holds sb disk tab j k b := by
  refine ⟨?_, fun j k hh => ?_⟩
  · by_contra hlt
    rw [h.metadata b (by omega)] at hfree
    cases hfree
  · rw [h.marked hh] at hfree
    cases hfree

-- ==== taking a block

theorem Img.slot_assign_direct (x : Img) (hk : k < ndirect) (b l : Nat) :
    (x.assign k b).slot l = if l = k then b else x.slot l := by
  have hind := x.d.addrs_setAddr_of_ne (show ndirect ≠ k by omega) b
  rw [assign_direct x (by omega)]
  unfold slot
  rw [hind]
  split
  next hl =>
    by_cases hlk : l = k
    · rw [hlk, if_pos rfl, x.d.addrs_setAddr_self]
    · rw [if_neg hlk, x.d.addrs_setAddr_of_ne hlk]
  next hl => rw [if_neg (show l ≠ k by omega)]

theorem Img.slot_assign_indirect (x : Img) (hb : b ≠ 0) (l : Nat) :
    (x.assign ndirect b).slot l = if l < ndirect then x.slot l
      else if l = ndirect then b else entry x.disk b (l - (ndirect + 1)) := by
  have hind := x.d.addrs_setAddr_self ndirect b
  rw [assign_direct x (Nat.le_refl _)]
  unfold slot
  rw [hind, if_neg hb]
  by_cases hlt : l < ndirect
  · rw [if_pos (by omega), if_pos hlt, if_pos (by omega),
      x.d.addrs_setAddr_of_ne (by omega)]
  · rw [if_neg hlt]
    by_cases heq : l = ndirect
    · rw [heq, if_pos (Nat.le_refl _), if_pos rfl, hind]
    · rw [if_neg (by omega), if_neg heq]
      rfl

theorem Img.slot_assign_entry (x : Img) (hk : ndirect < k) (hlt : k < nslots)
    (hind : x.d.addrs ndirect ≠ 0) (hb : b < 4294967296) (l : Nat) :
    (x.assign k b).slot l = if l = k then b else x.slot l := by
  rw [assign_entry x hk]
  unfold slot
  dsimp only
  rw [if_neg hind, update_self]
  split
  next hl => rw [if_neg (show l ≠ k by omega)]
  next hl =>
    by_cases hlk : l = k
    · rw [hlk, if_pos rfl]
      unfold nslots nindirect at hlt
      exact Bytes.le32_put32 _ (by unfold bsize; omega) hb
    · rw [if_neg hlk]
      exact Bytes.le32_put32_of_disjoint _ (by omega)

/-- Mark the block `b` used and put it into slot `k`. -/
def Img.take (sb : Superblock) (x : Img) (k b : Nat) : Img :=
  (Img.mk (markUsed sb x.disk b) x.d).assign k b

theorem Img.take_disk (x : Img) (hc : c ≠ bblock b sb)
    (hind : ndirect < k → c ≠ x.d.addrs ndirect) :
    (x.take sb k b).disk c = x.disk c := by
  unfold take
  by_cases hk : k ≤ ndirect
  · rw [assign_direct _ hk]
    exact update_of_ne hc ..
  · rw [assign_entry _ (by omega)]
    show update _ _ _ _ = _
    rw [update_of_ne (hind (by omega))]
    exact update_of_ne hc ..

/-- The indirect block, if there is one, is a data block. -/
theorem IsFile.indirect (hx : IsFile sb tab i x) (h : x.d.addrs ndirect ≠ 0) :
    dataStart sb ≤ x.d.addrs ndirect ∧ x.d.addrs ndirect < sb.size := by
  have hslot := slot_direct x (Nat.le_refl ndirect)
  have hh := hx.holds (lt_nslots_of_le (Nat.le_refl _)) (by rw [hslot]; exact h)
  rw [hslot] at hh
  exact hx.owns.area hh

theorem IsFile.used_take (hx : IsFile sb tab i x)
    (hind : ndirect < k → x.d.addrs ndirect ≠ 0) (hc : c < sb.size) :
    used sb (x.take sb k b).disk c = (decide (c = b) || used sb x.disk c) := by
  rw [← used_markUsed]
  refine used_congr ?_
  have hblk := hx.layout.bitmapArea c hc
  unfold take
  by_cases hk : k ≤ ndirect
  · rw [assign_direct _ hk]
  · have := (hx.indirect (hind (by omega))).1
    rw [assign_entry _ (by omega)]
    exact update_of_ne (by dsimp only; omega) ..

/-- The slots once a block is taken. -/
theorem IsFile.slot_take (hx : IsFile sb tab i x) (hk : k < nslots)
    (hind : ndirect < k → x.d.addrs ndirect ≠ 0) (hb : b < sb.size)
    (hdata : dataStart sb ≤ b) (h0 : b ≠ 0) (l : Nat) :
    (x.take sb k b).slot l
      = if l = k then b
        else if k = ndirect ∧ ndirect < l then
          entry x.disk b (l - (ndirect + 1))
        else x.slot l := by
  have hblk := hx.layout.bitmapArea b hb
  have hmark : ∀ l, (Img.mk (markUsed sb x.disk b) x.d).slot l = x.slot l := by
    intro l
    refine slot_congr (fun hne => ?_) l
    have hdir := (hx.indirect hne).1
    exact update_of_ne (by omega) ..
  have hentry : ∀ e, entry (markUsed sb x.disk b) b e = entry x.disk b e := by
    intro e
    unfold entry markUsed
    rw [update_of_ne (by omega)]
  unfold take
  rcases Nat.lt_trichotomy k ndirect with hlt | rfl | hgt
  · rw [slot_assign_direct _ hlt, hmark,
      if_neg (show ¬ (k = ndirect ∧ ndirect < l) by omega)]
  · rw [slot_assign_indirect _ h0, hmark, hentry]
    by_cases hl : l < ndirect
    · rw [if_pos hl, if_neg (by omega), if_neg (by omega)]
    · rw [if_neg hl]
      by_cases heq : l = ndirect
      · rw [if_pos heq, if_pos heq]
      · rw [if_neg heq, if_neg heq, if_pos ⟨rfl, by omega⟩]
  · have hsize := hx.layout.size
    have hslot := slot_assign_entry (b := b) ⟨markUsed sb x.disk b, x.d⟩ hgt hk
      (hind hgt) (by omega) l
    rw [hslot, hmark, if_neg (show ¬ (k = ndirect ∧ ndirect < l) by omega)]

theorem Img.take_d (x : Img) (k b : Nat) :
    (x.take sb k b).d = if k ≤ ndirect then x.d.setAddr k b else x.d := by
  unfold take
  split
  next hk => rw [assign_direct _ hk]
  next hk => rw [assign_entry _ (by omega)]

theorem Img.take_fields (x : Img) (k b : Nat) :
    (x.take sb k b).d = { x.d with addrs := (x.take sb k b).d.addrs } := by
  rw [take_d]
  split
  next => rfl
  next => rfl

/-- A free block that is to be taken, and the slot it is for. -/
structure Takes (sb : Superblock) (tab : Nat → DInode) (i : Nat) (x : Img)
    (k b : Nat) : Prop where
  slot_lt : k < nslots
  vacant : x.slot k = 0
  indirect : ndirect < k → x.d.addrs ndirect ≠ 0
  free : used sb x.disk b = false
  lt : b < sb.size
  harmless : k = ndirect → Harmless sb x.disk (update tab i x.d) b

section

variable (h : Takes sb tab i x k b)
include h

theorem Takes.ne_zero (hx : IsFile sb tab i x) : b ≠ 0 := by
  have h1 := (hx.owns.free h.free).1
  have h2 := hx.layout.bitmapArea b h.lt
  omega

theorem Takes.slot (hx : IsFile sb tab i x) (l : Nat) : (x.take sb k b).slot l
      = if l = k then b
        else if k = ndirect ∧ ndirect < l then
          entry x.disk b (l - (ndirect + 1))
        else x.slot l :=
  hx.slot_take h.slot_lt h.indirect h.lt (hx.owns.free h.free).1 (h.ne_zero hx) l

/-- Whatever is held afterwards was held before, or is the block taken, or
was named in it. -/
theorem Takes.holds (hx : IsFile sb tab i x)
    (hh : Holds sb (x.take sb k b).disk (update tab i (x.take sb k b).d) j l c) :
    Holds sb x.disk (update tab i x.d) j l c
      ∨ (j = i ∧ l = k ∧ c = b)
      ∨ (k = ndirect ∧ j = i ∧ ndirect < l
          ∧ c = entry x.disk b (l - (ndirect + 1))) := by
  by_cases hji : j = i
  · subst hji
    have hslot : (x.take sb k b).slot l = c := by
      have := hh.slot
      rw [update_self] at this
      exact this
    rw [h.slot hx l] at hslot
    split at hslot
    next hlk => exact Or.inr (Or.inl ⟨rfl, hlk, hslot.symm⟩)
    next hlk =>
      split at hslot
      next hent => exact Or.inr (Or.inr ⟨hent.1, rfl, hent.2, hslot.symm⟩)
      next hent =>
        refine Or.inl ?_
        rw [← hslot]
        exact hx.holds hh.slot_lt (by rw [hslot]; exact hh.ne_zero)
  · have hj : Allocated sb tab j := by
      have := hh.alloc
      unfold Allocated at this
      rw [update_of_ne hji] at this
      exact this
    have hslot := hh.slot
    rw [update_of_ne hji] at hslot
    refine Or.inl ⟨allocated_update hj hji _, hh.slot_lt, ?_, hh.ne_zero⟩
    rw [update_of_ne hji, ← hslot]
    refine (slot_congr (fun hne => ?_) l).symm
    -- the indirect block of the file `j` is neither bitmap nor ours
    have hold : Holds sb x.disk (update tab i x.d) j ndirect
        ((tab j).addrs ndirect) := by
      refine ⟨allocated_update hj hji _, lt_nslots_of_le (Nat.le_refl _), ?_, hne⟩
      rw [update_of_ne hji]
      exact slot_direct _ (Nat.le_refl _)
    refine take_disk x ?_ ?_
    · have h1 := (hx.owns.area hold).1
      have h2 := hx.layout.bitmapArea b h.lt
      omega
    · intro hk heq
      have hslot := slot_direct x (Nat.le_refl ndirect)
      have hself := hx.holds (lt_nslots_of_le (Nat.le_refl ndirect))
        (by rw [hslot]; exact h.indirect hk)
      rw [hslot, ← heq] at hself
      exact hji (hx.owns.once hold hself).1

theorem Takes.owns (hx : IsFile sb tab i x) :
    Consistent sb (x.take sb k b).disk (update tab i (x.take sb k b).d) := by
  obtain ⟨hdata, hunheld⟩ := hx.owns.free h.free
  have hent : ∀ {l}, k = ndirect → ndirect < l → l < nslots →
      entry x.disk b (l - (ndirect + 1)) ≠ 0 → _ :=
    fun {l} hk hl hlt hne => h.harmless hk (l - (ndirect + 1))
      (by unfold nslots at hlt; omega) hne
  constructor
  case area =>
    intro j l c hh
    rcases h.holds hx hh with hold | ⟨-, -, rfl⟩ | ⟨hk, -, hl, rfl⟩
    · exact hx.owns.area hold
    · exact ⟨hdata, h.lt⟩
    · exact (hent hk hl hh.slot_lt hh.ne_zero).1
  case marked =>
    intro j l c hh
    rcases h.holds hx hh with hold | ⟨-, -, rfl⟩ | ⟨hk, -, hl, rfl⟩
    · rw [hx.used_take h.indirect (hx.owns.area hold).2, hx.owns.marked hold,
        Bool.or_true]
    · rw [hx.used_take h.indirect h.lt, decide_eq_true rfl, Bool.true_or]
    · obtain ⟨harea, hused, -⟩ := hent hk hl hh.slot_lt hh.ne_zero
      rw [hx.used_take h.indirect harea.2, hused, Bool.or_true]
  case once =>
    intro j l j' l' c hh hh'
    rcases h.holds hx hh with hold | ⟨rfl, rfl, rfl⟩ | ⟨hk, rfl, hl, rfl⟩
    · rcases h.holds hx hh' with hold' | ⟨rfl, rfl, rfl⟩ | ⟨hk, rfl, hl, rfl⟩
      · exact hx.owns.once hold hold'
      · exact absurd hold (hunheld _ _)
      · exact absurd hold ((hent hk hl hh'.slot_lt hh'.ne_zero).2.2.1 _ _)
    · rcases h.holds hx hh' with hold' | ⟨rfl, rfl, -⟩ | ⟨hk, rfl, hl, hc⟩
      · exact absurd hold' (hunheld _ _)
      · exact ⟨rfl, rfl⟩
      · have hfree := h.free
        rw [hc, (hent hk hl hh'.slot_lt (hc ▸ hh'.ne_zero)).2.1] at hfree
        cases hfree
    · obtain ⟨-, hused, hnone, hinj⟩ := hent hk hl hh.slot_lt hh.ne_zero
      rcases h.holds hx hh' with hold' | ⟨rfl, rfl, hc⟩ | ⟨-, rfl, hl', hc⟩
      · exact absurd hold' (hnone _ _)
      · have hfree := h.free
        rw [← hc, hused] at hfree
        cases hfree
      · have hlt' := hh'.slot_lt
        have := hinj (l' - (ndirect + 1)) (by unfold nslots at hlt'; omega) hc.symm
        exact ⟨rfl, by omega⟩
  case metadata =>
    intro c hc
    have hlt : c < sb.size := by
      unfold dataStart at hc
      omega
    rw [hx.used_take h.indirect hlt, hx.owns.metadata c hc, Bool.or_true]

/-- Taking a block for an empty slot. -/
theorem Takes.touch (hx : IsFile sb tab i x) : Touch sb tab i x (x.take sb k b) := by
  obtain ⟨hdata, -⟩ := hx.owns.free h.free
  have hbitmap := hx.layout.bitmapArea b h.lt
  have hstart : sb.bmapstart ≤ bblock b sb := Nat.le_add_left ..
  have hinode := hx.layout.inodeArea i hx.lt
  have hfirst : sb.inodestart ≤ iblock i sb := Nat.le_add_left ..
  have hdinode : ∀ j, j < sb.ninodes →
      dinode sb (x.take sb k b).disk j = dinode sb x.disk j := by
    intro j hj
    have hjarea := hx.layout.inodeArea j hj
    unfold dinode
    rw [take_disk x (by omega)]
    intro hk
    have := (hx.indirect (h.indirect hk)).1
    omega
  constructor
  case owns => exact h.owns hx
  case fields =>
    rw [take_fields]
  case keep =>
    intro l hl hne
    rw [h.slot hx, if_neg ?_, if_neg ?_]
    · rintro ⟨rfl, hgt⟩
      -- without an indirect block there are no entries
      refine hne ?_
      have hvac := h.vacant
      rw [slot_direct x (Nat.le_refl _)] at hvac
      unfold Img.slot
      rw [if_neg (by omega), if_pos hvac]
    · rintro rfl
      exact hne h.vacant
  case fresh =>
    intro l hl hne
    have hslot := h.slot hx l
    split at hslot
    next => exact Or.inr (Or.inl (by rw [hslot]; exact h.free))
    next =>
      split at hslot
      next hent =>
        refine Or.inr (Or.inr ⟨?_, hent.2⟩)
        have hvac := h.vacant
        rw [hent.1, slot_direct x (Nat.le_refl _)] at hvac
        exact hvac
      next => exact Or.inl hslot
  case used =>
    intro c hc hused
    rw [hx.used_take h.indirect hc, hused, Bool.or_true]
  case blocks =>
    intro c hc
    by_cases hblk : c = bblock b sb
    · exact Or.inl ⟨by omega, by omega⟩
    · by_cases hind : ndirect < k ∧ c = x.d.addrs ndirect
      · refine Or.inr ⟨ndirect, lt_nslots_of_le (Nat.le_refl _), ?_, ?_⟩
        · rw [h.slot hx, if_neg (by omega), if_neg (by omega),
            slot_direct x (Nat.le_refl _), hind.2]
        · rw [hind.2]
          exact h.indirect hind.1
      · exact absurd (take_disk x hblk fun hk he => hind ⟨hk, he⟩) hc
  case dinodes => exact fun j hj _ => hdinode j hj
  case ok =>
    intro hok
    have hlt := hx.layout.size
    have hb := h.lt
    rw [take_d]
    split
    next hk => exact hok.setAddr hk (by omega)
    next => exact hok
  case older =>
    intro _ hold
    rw [hdinode i hx.lt, take_d]
    split
    next hk =>
      refine ⟨hold.fields, fun l hl hne => ?_⟩
      by_cases hlk : l = k
      · -- the slot was empty in the copy as well
        have hvac := h.vacant
        rw [slot_direct x hk, ← hlk, ← hold.addrs l hl hne] at hvac
        exact absurd hvac hne
      · rw [x.d.addrs_setAddr_of_ne hlk]
        exact hold.addrs l hl hne
    next => exact hold

end

-- ==== changing one block

/-- A change that leaves the block numbers alone: those in the inode, in
the indirect blocks and in the bitmap. -/
theorem IsFile.touch_of_frame (hx : IsFile sb tab i x)
    (hd : y.d = { x.d with size := y.d.size })
    (hind : ∀ {j b}, Holds sb x.disk (update tab i x.d) j ndirect b →
      y.disk b = x.disk b)
    (hbitmap : ∀ b, b < sb.size → y.disk (bblock b sb) = x.disk (bblock b sb))
    (hblocks : ∀ c, y.disk c ≠ x.disk c →
      (sb.inodestart ≤ c ∧ c < dataStart sb)
        ∨ ∃ k, k < nslots ∧ x.slot k = c ∧ c ≠ 0)
    (hdinodes : ∀ j, j < sb.ninodes → j ≠ i →
      dinode sb y.disk j = dinode sb x.disk j)
    (hsize : x.d.Ok → y.d.size < 4294967296)
    (holder : y.d.Ok → Older (dinode sb x.disk i) x.d →
      Older (dinode sb y.disk i) y.d) :
    Touch sb tab i x y := by
  have hok : x.d.Ok → y.d.Ok := by
    intro hok
    have hlt := hsize hok
    rw [hd]
    exact ⟨hok.type, hok.major, hok.minor, hok.nlink, hlt, hok.addrs, hok.past⟩
  have haddrs : y.d.addrs = x.d.addrs := by rw [hd]
  have htype : y.d.type = x.d.type := by rw [hd]
  have hused : ∀ b, b < sb.size → used sb y.disk b = used sb x.disk b :=
    fun b hb => used_congr (hbitmap b hb)
  have hslot : ∀ k, y.slot k = x.slot k := by
    intro k
    have hstep : y.slot k = (Img.mk y.disk x.d).slot k := by
      unfold slot
      rw [haddrs]
    rw [hstep]
    refine slot_congr (fun hne => ?_) k
    have hself := hx.holds (lt_nslots_of_le (Nat.le_refl ndirect))
      (by rw [slot_direct x (Nat.le_refl _)]; exact hne)
    rw [slot_direct x (Nat.le_refl _)] at hself
    exact hind hself
  have hholds : ∀ {j l c}, Holds sb y.disk (update tab i y.d) j l c →
      Holds sb x.disk (update tab i x.d) j l c := by
    intro j l c hh
    by_cases hji : j = i
    · subst hji
      have hs := hh.slot
      rw [update_self] at hs
      have hs' : x.slot l = c := (hslot l).symm.trans hs
      rw [← hs']
      exact hx.holds hh.slot_lt (by rw [hs']; exact hh.ne_zero)
    · have halloc := hh.alloc
      have hs := hh.slot
      unfold Allocated at halloc
      rw [update_of_ne hji] at halloc hs
      refine ⟨allocated_update halloc hji _, hh.slot_lt, ?_, hh.ne_zero⟩
      rw [update_of_ne hji, ← hs]
      refine (slot_congr (fun hne => ?_) l).symm
      refine hind (j := j) ⟨allocated_update halloc hji _,
        lt_nslots_of_le (Nat.le_refl _), ?_, hne⟩
      rw [update_of_ne hji]
      exact slot_direct _ (Nat.le_refl _)
  constructor
  case owns =>
    refine ⟨fun hh => hx.owns.area (hholds hh), fun hh => ?_,
      fun hh hh' => hx.owns.once (hholds hh) (hholds hh'), fun b hb => ?_⟩
    · rw [hused _ (hx.owns.area (hholds hh)).2]
      exact hx.owns.marked (hholds hh)
    · rw [hused b (by unfold dataStart at hb; omega)]
      exact hx.owns.metadata b hb
  case fields => rw [hd]
  case keep => exact fun k _ _ => hslot k
  case fresh => exact fun k _ _ => Or.inl (hslot k)
  case used =>
    intro b hb h
    rw [hused b hb]
    exact h
  case blocks =>
    intro c hc
    rcases hblocks c hc with hmeta | ⟨k, hk, hs, h0⟩
    · exact Or.inl hmeta
    · exact Or.inr ⟨k, hk, (hslot k).trans hs, h0⟩
  case dinodes => exact hdinodes
  case ok => exact hok
  case older => exact fun h => holder (hok h)

/-- Overwriting part of a data block of the file. -/
theorem IsFile.write_touch (hx : IsFile sb tab i x) (hk : k < nslots)
    (hdata : k ≠ ndirect) (hne : x.slot k ≠ 0) (off : Nat) (bytes : List UInt8) :
    Touch sb tab i x (x.write (x.slot k) off bytes) := by
  have hself := hx.holds hk hne
  have harea := (hx.owns.area hself).1
  have hdisk : ∀ c, c ≠ x.slot k →
      (x.write (x.slot k) off bytes).disk c = x.disk c :=
    fun c hc => update_of_ne hc ..
  have hdinode : ∀ j, j < sb.ninodes →
      dinode sb (x.write (x.slot k) off bytes).disk j = dinode sb x.disk j := by
    intro j hj
    have h1 := hx.layout.inodeArea j hj
    have h2 := hx.layout.bmapstart_lt
    unfold dinode
    rw [hdisk _ (by omega)]
  refine hx.touch_of_frame rfl ?_ ?_ ?_ (fun j hj _ => hdinode j hj)
    (fun h => h.size) ?_
  · intro j b hh
    refine hdisk b ?_
    rintro rfl
    exact hdata (hx.owns.once hself hh).2
  · intro b hb
    have := hx.layout.bitmapArea b hb
    exact hdisk _ (by omega)
  · intro c hc
    by_cases he : c = x.slot k
    · exact Or.inr ⟨k, hk, he.symm, he ▸ hne⟩
    · exact absurd (hdisk c he) hc
  · intro _ h
    rw [hdinode i hx.lt]
    exact h

theorem dinode_putInode (hok : d.Ok) :
    dinode sb (putInode sb disk i d) i = d := by
  unfold dinode putInode
  rw [update_self]
  exact getDInode_putDInode (Nat.mod_lt _ (by unfold ipb; omega)) hok

theorem dinode_putInode_of_ne (hne : j ≠ i) :
    dinode sb (putInode sb disk i d) j = dinode sb disk j := by
  unfold dinode putInode
  by_cases hblk : iblock j sb = iblock i sb
  · have hmod : j % ipb ≠ i % ipb := by
      unfold iblock ipb at *
      omega
    rw [hblk, update_self, getDInode_putDInode_of_ne hmod]
  · rw [update_of_ne hblk]

/-- Writing the inode back, with a new size. -/
theorem IsFile.putInode_touch (hx : IsFile sb tab i x)
    (hd : d = { x.d with size := d.size }) (hlt : d.size < 4294967296) :
    Touch sb tab i x ⟨putInode sb x.disk i d, d⟩ := by
  have hi := hx.layout.inodeArea i hx.lt
  have hfirst : sb.inodestart ≤ iblock i sb := Nat.le_add_left ..
  have hstart := hx.layout.bmapstart_lt
  have hdisk : ∀ c, c ≠ iblock i sb → putInode sb x.disk i d c = x.disk c :=
    fun c hc => update_of_ne hc ..
  refine hx.touch_of_frame hd ?_ ?_ ?_ ?_ (fun _ => hlt) ?_
  · intro j b hh
    have := (hx.owns.area hh).1
    exact hdisk b (by omega)
  · intro b hb
    have : sb.bmapstart ≤ bblock b sb := Nat.le_add_left ..
    exact hdisk _ (by omega)
  · intro c hc
    by_cases he : c = iblock i sb
    · exact Or.inl ⟨by omega, by omega⟩
    · exact absurd (hdisk c he) hc
  · exact fun j _ hne => dinode_putInode_of_ne hne
  · intro hok _
    rw [dinode_putInode hok]
    exact .refl d

end Xv6FsServer.Fs
