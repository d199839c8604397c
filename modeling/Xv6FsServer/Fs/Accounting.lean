/-
Exact accounts of the blocks.

`Consistent` says that what a file holds is marked used and held once; here
is the other half, that nothing else is (`Covered`), and the two together
with every file mapped (`Exact`). It has to survive blocks being taken and
blocks being given back.

# Taking

The kernel clears the block it takes, so a fresh indirect block is empty and
there is no condition on what was in it (`Claims.touch`). `Spends` is what
an operation on one file may do to the account: it stays within `Touch`, and
what it marks used the file has afterwards.

# Giving back

The blocks of a file are freed one after the other while the inode on the
disk still names them. So the file is taken to be empty from the start, and
its blocks stand in a list of those that are used and nobody's (`Loose`),
which gets shorter with every block freed.
-/
import Xv6FsServer.Fs.Creation

namespace Xv6FsServer.Fs

open Lib Function Img

variable {sb : Superblock} {tab : Nat → DInode} {disk : Disk} {x y z : Img}
variable {i j k l b c : Nat} {L : List Nat}

/-- Every used block is metadata, held by a file, or in the list. -/
def Covered (sb : Superblock) (disk : Disk) (tab : Nat → DInode) (L : List Nat) :
    Prop :=
  ∀ b, b < sb.size → used sb disk b = true →
    b < dataStart sb ∨ (∃ i k, Holds sb disk tab i k b) ∨ b ∈ L

/-- The bitmap marks the metadata and the blocks files hold, each held
once, and nothing else; every byte of a file has a block. -/
structure Exact (sb : Superblock) (disk : Disk) : Prop where
  layout : Layout sb
  owns : Consistent sb disk (dinode sb disk)
  covered : Covered sb disk (dinode sb disk) []
  mapped : ∀ j, Allocated sb (dinode sb disk) j → (onDisk sb disk j).Mapped

/-- The superblock is in front of the inodes. -/
theorem Layout.super (hl : Layout sb) : 1 < sb.bmapstart ∧ ∀ i, 1 ≠ iblock i sb := by
  have h1 := hl.inodestart
  have h2 := hl.inodeArea 0 (by have := hl.ninodes; omega)
  unfold iblock ipb at *
  exact ⟨by omega, fun i => by omega⟩

-- ==== clearing a free block

/-- A free block is no file's indirect block. -/
theorem Consistent.slot_free (h : Consistent sb disk tab)
    (hfree : used sb disk b = false) (hj : Allocated sb tab j) (B : Block) (k : Nat) :
    (Img.mk (update disk b B) (tab j)).slot k = (Img.mk disk (tab j)).slot k := by
  refine slot_congr (fun hne => update_of_ne ?_ ..) k
  intro heq
  have hheld : Holds sb disk tab j ndirect b := by
    refine ⟨hj, lt_nslots_of_le (Nat.le_refl _), ?_, heq ▸ hne⟩
    rw [slot_direct _ (Nat.le_refl _)]
    exact heq
  exact (h.free hfree).2 j ndirect hheld

theorem Consistent.holds_free (h : Consistent sb disk tab)
    (hfree : used sb disk b = false) (B : Block) :
    Holds sb (update disk b B) tab j k c ↔ Holds sb disk tab j k c := by
  constructor
  · intro hh
    refine ⟨hh.alloc, hh.slot_lt, ?_, hh.ne_zero⟩
    rw [← h.slot_free hfree hh.alloc B]
    exact hh.slot
  · intro hh
    refine ⟨hh.alloc, hh.slot_lt, ?_, hh.ne_zero⟩
    rw [h.slot_free hfree hh.alloc B]
    exact hh.slot

/-- A data block has no bits of the bitmap. -/
theorem Layout.used_data (hl : Layout sb) (hb : dataStart sb ≤ b) (B : Block)
    (hc : c < sb.size) : used sb (update disk b B) c = used sb disk c := by
  apply used_congr
  have := hl.bitmapArea c hc
  exact update_of_ne (by omega) ..

theorem Consistent.fill (h : Consistent sb disk tab) (hl : Layout sb)
    (hfree : used sb disk b = false) (B : Block) :
    Consistent sb (update disk b B) tab := by
  have hdata := (h.free hfree).1
  refine ⟨fun hh => h.area ((h.holds_free hfree B).mp hh), fun hh => ?_,
    fun hh hh' => h.once ((h.holds_free hfree B).mp hh) ((h.holds_free hfree B).mp hh'),
    fun c hc => ?_⟩
  · have hold := (h.holds_free hfree B).mp hh
    rw [hl.used_data hdata B (h.area hold).2]
    exact h.marked hold
  · rw [hl.used_data hdata B (by unfold dataStart at hc; omega)]
    exact h.metadata c hc

/-- `bzero`. -/
def Img.clear (x : Img) (b : Nat) : Img := { x with disk := update x.disk b Bytes.zero }

theorem IsFile.slot_clear (hx : IsFile sb tab i x) (hfree : used sb x.disk b = false)
    (k : Nat) : (x.clear b).slot k = x.slot k := by
  have halloc : Allocated sb (update tab i x.d) i :=
    ⟨hx.lt, by rw [update_self]; exact hx.type⟩
  have h := hx.owns.slot_free hfree halloc Bytes.zero k
  rw [update_self] at h
  exact h

theorem IsFile.clear (hx : IsFile sb tab i x) (hfree : used sb x.disk b = false) :
    IsFile sb tab i (x.clear b) :=
  ⟨hx.layout, hx.owns.fill hx.layout hfree _, hx.lt, hx.type⟩

-- ==== taking a block

/-- A free block that is to be taken, and the slot it is for. -/
structure Claims (sb : Superblock) (x : Img) (k b : Nat) : Prop where
  slot_lt : k < nslots
  vacant : x.slot k = 0
  indirect : ndirect < k → x.d.addrs ndirect ≠ 0
  free : used sb x.disk b = false
  lt : b < sb.size

/-- Clear the block `b`, mark it used and put it into slot `k`. -/
def Img.claim (sb : Superblock) (x : Img) (k b : Nat) : Img :=
  (x.clear b).take sb k b

theorem entry_clear (x : Img) (b e : Nat) : entry (x.clear b).disk b e = 0 := by
  unfold entry clear
  dsimp only
  rw [update_self]
  exact Bytes.le32_zero _

section

variable (h : Claims sb x k b) (hx : IsFile sb tab i x)
include h hx

theorem Claims.takes : Takes sb tab i (x.clear b) k b where
  slot_lt := h.slot_lt
  vacant := (hx.slot_clear h.free k).trans h.vacant
  indirect := h.indirect
  free := by
    have hdata := (hx.owns.free h.free).1
    exact (hx.layout.used_data hdata _ h.lt).trans h.free
  lt := h.lt
  harmless := fun _ e _ hne => absurd (entry_clear x b e) hne

/-- The slots once the block is taken: a fresh indirect block has no
entries. -/
theorem Claims.slot (l : Nat) :
    (x.claim sb k b).slot l = if l = k then b else x.slot l := by
  unfold claim
  rw [(h.takes hx).slot (hx.clear h.free) l]
  split
  next => rfl
  next =>
    split
    next hind =>
      rw [entry_clear]
      have hvac := h.vacant
      rw [hind.1, slot_direct x (Nat.le_refl _)] at hvac
      exact (slot_zero_of_no_indirect hvac hind.2).symm
    next => exact hx.slot_clear h.free l

theorem Claims.touch : Touch sb tab i x (x.claim sb k b) := by
  have htake := h.takes hx
  have ht : Touch sb tab i (x.clear b) (x.claim sb k b) := htake.touch (hx.clear h.free)
  have hdata := (hx.owns.free h.free).1
  have hdinode : ∀ j, j < sb.ninodes →
      dinode sb (x.clear b).disk j = dinode sb x.disk j := by
    intro j hj
    have h1 := hx.layout.inodeArea j hj
    have h2 := hx.layout.bmapstart_lt
    unfold dinode clear
    dsimp only
    rw [update_of_ne (by omega)]
  constructor
  case owns => exact ht.owns
  case fields => exact ht.fields
  case keep =>
    intro l hl hne
    rw [← hx.slot_clear h.free] at hne ⊢
    exact ht.keep l hl hne
  case fresh =>
    intro l hl hne
    by_cases hlk : l = k
    · refine Or.inr (Or.inl ?_)
      rw [h.slot hx, if_pos hlk]
      exact h.free
    · exact Or.inl (by rw [h.slot hx, if_neg hlk])
  case used =>
    intro c hc hused
    refine ht.used c hc ?_
    exact (hx.layout.used_data hdata _ hc).trans hused
  case blocks =>
    intro c hc
    by_cases hcb : c = b
    · have hself : (x.claim sb k b).slot k = b := by rw [h.slot hx, if_pos rfl]
      refine Or.inr ⟨k, h.slot_lt, hself.trans hcb.symm, ?_⟩
      rw [hcb]
      exact htake.ne_zero (hx.clear h.free)
    · exact ht.blocks c fun heq => hc (heq.trans (update_of_ne hcb ..))
  case dinodes => exact fun j hj hne => (ht.dinodes j hj hne).trans (hdinode j hj)
  case ok => exact ht.ok
  case older =>
    intro hok hold
    refine ht.older hok ?_
    rw [hdinode i hx.lt]
    exact hold

theorem Claims.used (hc : c < sb.size) :
    Fs.used sb (x.claim sb k b).disk c = (decide (c = b) || Fs.used sb x.disk c) := by
  have hdata := (hx.owns.free h.free).1
  unfold claim
  rw [(hx.clear h.free).used_take (h.takes hx).indirect hc]
  exact congrArg _ (hx.layout.used_data hdata _ hc)

end

/-- Blocks that are not the one taken, the bitmap's or the indirect one. -/
theorem claim_block (hcb : c ≠ b) (hblk : c ≠ bblock b sb)
    (hind : ndirect < k → c ≠ x.d.addrs ndirect) :
    (x.claim sb k b).disk c = x.disk c := by
  unfold claim
  rw [take_disk (x.clear b) hblk hind]
  exact update_of_ne hcb ..

-- ==== spending

/-- What an operation on the file `i` may do to the account. -/
structure Spends (sb : Superblock) (tab : Nat → DInode) (i : Nat) (x y : Img) :
    Prop where
  touch : Touch sb tab i x y
  spent : ∀ b, b < sb.size → used sb y.disk b = true →
    used sb x.disk b = true ∨ ∃ k, k < nslots ∧ y.slot k = b
  low : ∀ c, c < sb.bmapstart → y.disk c = x.disk c
  size : y.d.size = x.d.size

theorem Spends.refl (h : Consistent sb x.disk (update tab i x.d)) :
    Spends sb tab i x x :=
  ⟨.refl h, fun _ _ hb => Or.inl hb, fun _ _ => rfl, rfl⟩

theorem Spends.trans (hx : IsFile sb tab i x) (hxy : Spends sb tab i x y)
    (hyz : Spends sb tab i y z) : Spends sb tab i x z where
  touch := hxy.touch.trans hx hyz.touch
  spent := by
    intro b hb hused
    rcases hyz.spent b hb hused with hy | hz
    · rcases hxy.spent b hb hy with hx | ⟨k, hk, hslot⟩
      · exact Or.inl hx
      · by_cases h0 : b = 0
        · -- block 0 is metadata, used all along
          refine Or.inl (hx.owns.metadata b ?_)
          have := hx.layout.bitmapArea b hb
          omega
        · refine Or.inr ⟨k, hk, ?_⟩
          rw [hyz.touch.keep k hk (by rw [hslot]; exact h0), hslot]
    · exact Or.inr hz
  low := fun c hc => (hyz.low c hc).trans (hxy.low c hc)
  size := hyz.size.trans hxy.size

theorem Claims.spends (h : Claims sb x k b) (hx : IsFile sb tab i x) :
    Spends sb tab i x (x.claim sb k b) where
  touch := h.touch hx
  spent := by
    intro c hc hused
    rw [h.used hx hc, Bool.or_eq_true, decide_eq_true_eq] at hused
    rcases hused with rfl | hused
    · exact Or.inr ⟨k, h.slot_lt, by rw [h.slot hx, if_pos rfl]⟩
    · exact Or.inl hused
  low := by
    intro c hc
    have hdata := (hx.owns.free h.free).1
    have hstart := hx.layout.bmapstart_lt
    have hblk : sb.bmapstart ≤ bblock b sb := Nat.le_add_left ..
    refine claim_block (by omega) (by omega) fun hk => ?_
    have := (hx.indirect (h.indirect hk)).1
    omega
  size := by
    have hfields : ((x.clear b).take sb k b).d = _ := take_fields (x.clear b) k b
    unfold claim
    rw [hfields]
    rfl

/-- The data blocks of the file are as they were. -/
theorem Claims.data_block (h : Claims sb x k b) (hx : IsFile sb tab i x)
    (hl : l < nslots) (hne : l ≠ ndirect) (h0 : x.slot l ≠ 0) :
    (x.claim sb k b).disk (x.slot l) = x.disk (x.slot l) := by
  have hself := hx.holds hl h0
  have hcleared := hx.slot_clear h.free l
  have hdata := (h.takes hx).data_block (hx.clear h.free) hl hne
    (by rw [hcleared]; exact h0)
  rw [hcleared] at hdata
  unfold claim
  rw [hdata]
  refine update_of_ne ?_ ..
  intro heq
  exact (hx.owns.free h.free).2 i l (heq ▸ hself)

/-- A block that is taken reads as zeros, as it did when it was not there. -/
theorem Claims.byte (h : Claims sb x k b) (hx : IsFile sb tab i x) :
    (x.claim sb k b).byte = x.byte := by
  have hb0 := (h.takes hx).ne_zero (hx.clear h.free)
  have hfree := hx.owns.free h.free
  have hblock : (x.claim sb k b).disk b = Bytes.zero := by
    unfold claim
    rw [take_disk (x.clear b)]
    · exact update_self ..
    · have := hx.layout.bitmapArea b h.lt
      omega
    · intro hk heq
      have hind : x.d.addrs ndirect ≠ 0 := h.indirect hk
      have hslot := slot_direct x (Nat.le_refl ndirect)
      have hh := hx.holds (lt_nslots_of_le (Nat.le_refl _)) (by rw [hslot]; exact hind)
      rw [hslot] at hh
      exact hfree.2 i ndirect (heq ▸ hh)
  funext o
  unfold Img.byte
  rw [h.slot hx]
  by_cases hk : slotOf (o / bsize) = k
  · rw [if_pos hk, if_neg hb0, hblock, hk, if_pos h.vacant]
    exact Bytes.get_zero _
  · rw [if_neg hk]
    split
    next => rfl
    next h0 =>
      rw [h.data_block hx (slotOf_lt (slotOf_lt_of_slot h0)) (slotOf_ne _) h0]

/-- Writing into a data block of the file. -/
theorem IsFile.write_spends (hx : IsFile sb tab i x) (hk : k < nslots)
    (hdata : k ≠ ndirect) (hne : x.slot k ≠ 0) (off : Nat) (bytes : List UInt8) :
    Spends sb tab i x (x.write (x.slot k) off bytes) where
  touch := hx.write_touch hk hdata hne off bytes
  spent := by
    intro b hb hused
    have harea := (hx.owns.area (hx.holds hk hne)).1
    rw [hx.used_write harea off bytes b hb] at hused
    exact Or.inl hused
  low := by
    intro c hc
    have harea := (hx.owns.area (hx.holds hk hne)).1
    have := hx.layout.bmapstart_lt
    exact update_of_ne (by omega) ..
  size := rfl

/-- What was held is held. -/
theorem Touch.still_holds (h : Touch sb tab i x y) (hx : IsFile sb tab i x)
    (hh : Holds sb x.disk (update tab i x.d) j k b) :
    Holds sb y.disk (update tab i y.d) j k b := by
  by_cases hji : j = i
  · subst hji
    have hslot := hh.slot
    rw [update_self] at hslot
    have hne : x.slot k ≠ 0 := by
      rw [hslot]
      exact hh.ne_zero
    have hkeep := h.keep k hh.slot_lt hne
    have hheld := (hx.touch h).holds hh.slot_lt (by rw [hkeep]; exact hne)
    rw [hkeep, hslot] at hheld
    exact hheld
  · have halloc := hh.alloc
    have hslot := hh.slot
    unfold Allocated at halloc
    rw [update_of_ne hji] at halloc hslot
    refine ⟨allocated_update halloc hji _, hh.slot_lt, ?_, hh.ne_zero⟩
    rw [update_of_ne hji, h.other_slot hx halloc hji]
    exact hslot

theorem Spends.covered (h : Spends sb tab i x y) (hx : IsFile sb tab i x)
    (hc : Covered sb x.disk (update tab i x.d) L) :
    Covered sb y.disk (update tab i y.d) L := by
  intro b hb hused
  rcases h.spent b hb hused with hold | ⟨k, hk, hslot⟩
  · rcases hc b hb hold with hmeta | ⟨j, l, hh⟩ | hin
    · exact Or.inl hmeta
    · exact Or.inr (Or.inl ⟨j, l, h.touch.still_holds hx hh⟩)
    · exact Or.inr (Or.inr hin)
  · by_cases h0 : b = 0
    · have := hx.layout.bitmapArea b hb
      exact Or.inl (by omega)
    · have hheld := (hx.touch h.touch).holds hk (by rw [hslot]; exact h0)
      rw [hslot] at hheld
      exact Or.inr (Or.inl ⟨i, k, hheld⟩)

-- ==== giving back

/-- An account in which the blocks of `L` are used and held by nobody. -/
structure Loose (sb : Superblock) (disk : Disk) (tab : Nat → DInode) (L : List Nat) :
    Prop where
  owns : Consistent sb disk tab
  covered : Covered sb disk tab L
  nodup : L.Nodup
  loose : ∀ b ∈ L, dataStart sb ≤ b ∧ b < sb.size ∧ used sb disk b = true
    ∧ ∀ j k, ¬ Holds sb disk tab j k b

/-- The first of them is marked free. -/
theorem Loose.release {disk' : Disk} (h : Loose sb disk tab (b :: L)) (hl : Layout sb)
    (hrest : ∀ c, c ≠ bblock b sb → disk' c = disk c)
    (hused : ∀ c, c < sb.size → used sb disk' c = (used sb disk c && decide (c ≠ b))) :
    Loose sb disk' tab L := by
  obtain ⟨hdata, hlt, -, hnobody⟩ := h.loose b List.mem_cons_self
  have hblk := hl.bitmapArea b hlt
  have hnotin := (List.nodup_cons.mp h.nodup).1
  -- bitmap blocks are no indirect blocks
  have hslot : ∀ {j}, Allocated sb tab j → ∀ k,
      (Img.mk disk' (tab j)).slot k = (Img.mk disk (tab j)).slot k := by
    intro j hj k
    refine slot_congr (fun hne => hrest _ ?_) k
    have := h.owns.indirect hj hne
    omega
  have hholds : ∀ {j k c}, Holds sb disk' tab j k c ↔ Holds sb disk tab j k c := by
    intro j k c
    constructor
    · intro hh
      exact ⟨hh.alloc, hh.slot_lt, (hslot hh.alloc k).symm.trans hh.slot, hh.ne_zero⟩
    · intro hh
      exact ⟨hh.alloc, hh.slot_lt, (hslot hh.alloc k).trans hh.slot, hh.ne_zero⟩
  have hkept : ∀ c, c < sb.size → c ≠ b → used sb disk' c = used sb disk c := by
    intro c hc hne
    rw [hused c hc, decide_eq_true hne, Bool.and_true]
  refine ⟨⟨fun hh => h.owns.area (hholds.mp hh), fun hh => ?_,
    fun hh hh' => h.owns.once (hholds.mp hh) (hholds.mp hh'), fun c hc => ?_⟩, ?_,
    (List.nodup_cons.mp h.nodup).2, fun c hc => ?_⟩
  · have hold := hholds.mp hh
    rw [hkept _ (h.owns.area hold).2 fun heq => hnobody _ _ (heq ▸ hold)]
    exact h.owns.marked hold
  · rw [hkept c (by unfold dataStart at hc; omega) (by omega)]
    exact h.owns.metadata c hc
  · intro c hc hcu
    rw [hused c hc, Bool.and_eq_true, decide_eq_true_eq] at hcu
    rcases h.covered c hc hcu.1 with hmeta | ⟨j, k, hh⟩ | hin
    · exact Or.inl hmeta
    · exact Or.inr (Or.inl ⟨j, k, hholds.mpr hh⟩)
    · exact Or.inr (Or.inr ((List.mem_cons.mp hin).resolve_left hcu.2))
  · obtain ⟨h1, h2, h3, h4⟩ := h.loose c (List.mem_cons_of_mem _ hc)
    refine ⟨h1, h2, ?_, fun j k hh => h4 j k (hholds.mp hh)⟩
    rw [hkept c h2 fun heq => hnotin (heq ▸ hc)]
    exact h3

/-- The slots in the order in which a file is taken apart. -/
def slotOrder : List Nat :=
  List.range' 0 ndirect ++ (List.range' (ndirect + 1) nindirect ++ [ndirect])

theorem mem_slotOrder : k ∈ slotOrder ↔ k < nslots := by
  unfold slotOrder nslots
  simp only [List.mem_append, List.mem_range'_1, List.mem_singleton]
  omega

theorem nodup_slotOrder : slotOrder.Nodup := by
  unfold slotOrder
  refine List.nodup_append.mpr ⟨List.nodup_range', ?_, ?_⟩
  · refine List.nodup_append.mpr ⟨List.nodup_range', List.nodup_singleton _, ?_⟩
    intro a ha c hc
    rw [List.mem_range'_1] at ha
    rw [List.mem_singleton] at hc
    omega
  · intro a ha c hc
    rw [List.mem_range'_1] at ha
    rw [List.mem_append, List.mem_range'_1, List.mem_singleton] at hc
    omega

/-- The block in a slot, if there is one. -/
def Img.block (x : Img) (k : Nat) : Option Nat :=
  if x.slot k = 0 then none else some (x.slot k)

theorem Img.block_eq_some : x.block k = some b ↔ x.slot k = b ∧ b ≠ 0 := by
  unfold block
  split
  next h0 =>
    constructor
    · intro h
      cases h
    · intro h
      exact absurd (h.1.symm.trans h0) h.2
  next h0 =>
    rw [Option.some.injEq]
    constructor
    · intro h
      exact ⟨h, h ▸ h0⟩
    · exact fun h => h.1

/-- The blocks of a file, in that order. -/
def Img.blocks (x : Img) : List Nat := slotOrder.filterMap x.block

/-- A file that is taken to be empty leaves its blocks loose. -/
theorem Consistent.loosen (h : Consistent sb disk tab)
    (hc : Covered sb disk tab []) (hi : Allocated sb tab i) {d : DInode}
    (hd : ∀ k, d.addrs k = 0) :
    Loose sb disk (update tab i d) (Img.mk disk (tab i)).blocks := by
  have hempty : ∀ k, (Img.mk disk d).slot k = 0 := by
    intro k
    unfold Img.slot
    rw [hd ndirect, hd k]
    simp
  have hholds : ∀ {j k c}, Holds sb disk (update tab i d) j k c →
      j ≠ i ∧ Holds sb disk tab j k c := by
    intro j k c hh
    have hji : j ≠ i := by
      rintro rfl
      have hslot := hh.slot
      rw [update_self, hempty] at hslot
      exact hh.ne_zero hslot.symm
    obtain ⟨halloc, hk, hslot, h0⟩ := hh
    unfold Allocated at halloc
    rw [update_of_ne hji] at halloc hslot
    exact ⟨hji, halloc, hk, hslot, h0⟩
  have hmem : ∀ {c}, c ∈ (Img.mk disk (tab i)).blocks ↔ ∃ k, Holds sb disk tab i k c := by
    intro c
    unfold blocks
    rw [List.mem_filterMap]
    constructor
    · rintro ⟨k, hk, hblock⟩
      obtain ⟨hslot, h0⟩ := block_eq_some.mp hblock
      exact ⟨k, hi, mem_slotOrder.mp hk, hslot, h0⟩
    · rintro ⟨k, -, hk, hslot, h0⟩
      exact ⟨k, mem_slotOrder.mpr hk, block_eq_some.mpr ⟨hslot, h0⟩⟩
  refine ⟨⟨fun hh => h.area (hholds hh).2, fun hh => h.marked (hholds hh).2,
    fun hh hh' => h.once (hholds hh).2 (hholds hh').2, h.metadata⟩, ?_, ?_, ?_⟩
  · intro c hlt hused
    rcases hc c hlt hused with hmeta | ⟨j, k, hh⟩ | hin
    · exact Or.inl hmeta
    · by_cases hji : j = i
      · subst hji
        exact Or.inr (Or.inr (hmem.mpr ⟨k, hh⟩))
      · refine Or.inr (Or.inl ⟨j, k, allocated_update hh.alloc hji _, hh.slot_lt, ?_,
          hh.ne_zero⟩)
        rw [update_of_ne hji]
        exact hh.slot
    · cases hin
  · refine nodup_slotOrder.filterMap fun k l c hk hl => ?_
    obtain ⟨hk, h0⟩ := block_eq_some.mp hk
    obtain ⟨hl, -⟩ := block_eq_some.mp hl
    have hlt : ∀ {k}, (Img.mk disk (tab i)).slot k = c → k < nslots := by
      intro k hk
      by_contra hge
      rw [slot_of_le _ (by omega)] at hk
      exact h0 hk.symm
    exact (h.once ⟨hi, hlt hk, hk, h0⟩ ⟨hi, hlt hl, hl, h0⟩).2
  · intro c hin
    obtain ⟨k, hh⟩ := hmem.mp hin
    refine ⟨(h.area hh).1, (h.area hh).2, h.marked hh, fun j l hh' => ?_⟩
    exact (hholds hh').1 (h.once (hholds hh').2 hh).1

end Xv6FsServer.Fs
