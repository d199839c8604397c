/-
The bytes of a file, and how they are read and written.

A file is `Mapped` when every byte below its size has a block. On such a
file `ureadi` allocates nothing and returns the bytes of its range, and a
write that starts within the file and succeeds lays its bytes over the old
ones: every block it adds is written from its first byte on, so nothing of
what `balloc` left in it shows.
-/
import Xv6FsServer.Fs.Mapping

namespace Xv6FsServer.Fs

open Lib Function Img

variable {sb : Superblock} {tab : Nat → DInode} {disk : Disk} {x y : Img}
variable {i j k b : Nat}
variable {off : Nat} {src : List UInt8}
variable {bn m n o l : Nat} {d : DInode}

/-- The byte at offset `o`; an unmapped block reads as zeros. -/
def Img.byte (x : Img) (o : Nat) : UInt8 :=
  if x.slot (slotOf (o / bsize)) = 0 then 0
  else (x.disk (x.slot (slotOf (o / bsize)))).get (o % bsize)

/-- The file as a list of bytes. -/
def Img.content (x : Img) : List UInt8 := (List.range x.d.size).map x.byte

@[simp] theorem Img.length_content (x : Img) : x.content.length = x.d.size := by
  unfold content
  rw [List.length_map, List.length_range]

theorem Img.slot_of_le (x : Img) (h : nslots ≤ k) : x.slot k = 0 := by
  unfold nslots nindirect at h
  unfold slot
  rw [if_neg (by omega)]
  split
  next => rfl
  have hzero : (x.disk (x.d.addrs ndirect)).le32 (4 * (k - (ndirect + 1)))
      = (Bytes.zero : Block).le32 0 :=
    Bytes.le32_congr fun o _ => by
      rw [Bytes.get_of_le (by unfold bsize; omega), Bytes.get_zero]
  rw [hzero, Bytes.le32_zero]

/-- Files with the same slots and blocks have the same bytes. -/
theorem Img.byte_congr (hslot : ∀ k, k < nslots → y.slot k = x.slot k)
    (hblock : ∀ k, k < nslots → x.slot k ≠ 0 →
      y.disk (x.slot k) = x.disk (x.slot k)) : y.byte = x.byte := by
  funext o
  unfold byte
  by_cases hlt : slotOf (o / bsize) < nslots
  · rw [hslot _ hlt]
    split
    next => rfl
    next hne => rw [hblock _ hlt hne]
  · rw [y.slot_of_le (by omega), x.slot_of_le (by omega), if_pos rfl, if_pos rfl]

theorem Img.content_congr (hsize : y.d.size = x.d.size)
    (hslot : ∀ k, k < nslots → y.slot k = x.slot k)
    (hblock : ∀ k, k < nslots → x.slot k ≠ 0 →
      y.disk (x.slot k) = x.disk (x.slot k)) : y.content = x.content := by
  unfold content
  rw [hsize, byte_congr hslot hblock]

/-- An operation on one file leaves the bytes of the others. -/
theorem Touch.other_byte (h : Touch sb tab i x y) (hx : IsFile sb tab i x)
    (hj : Allocated sb tab j) (hne : j ≠ i) :
    (Img.mk y.disk (tab j)).byte = (Img.mk x.disk (tab j)).byte := by
  refine byte_congr ?_ ?_
  · intro k _
    exact h.other_slot hx hj hne k
  · intro k hk h0
    exact h.other_block hx hj hne hk h0

theorem Touch.other_content (h : Touch sb tab i x y) (hx : IsFile sb tab i x)
    (hj : Allocated sb tab j) (hne : j ≠ i) :
    (Img.mk y.disk (tab j)).content = (Img.mk x.disk (tab j)).content := by
  unfold content
  rw [h.other_byte hx hj hne]

-- ==== mapping

/-- Every byte below the size has a block. -/
def Img.Mapped (x : Img) : Prop :=
  ∀ o, o < x.d.size → x.slot (slotOf (o / bsize)) ≠ 0

theorem slotOf_lt_of_slot (h : x.slot (slotOf bn) ≠ 0) :
    bn < maxFile := by
  by_contra hge
  refine h (x.slot_of_le ?_)
  unfold slotOf nslots maxFile at *
  rw [if_neg (by omega)]
  omega

theorem slotOf_inj (h : slotOf m = slotOf n) : m = n := by
  unfold slotOf at h
  split at h <;> split at h <;> omega

theorem Img.Mapped.size_le (h : x.Mapped) : x.d.size ≤ maxFile * bsize := by
  by_contra hgt
  have hlt := slotOf_lt_of_slot (h (maxFile * bsize) (by omega))
  rw [Nat.mul_div_cancel _ (by unfold bsize; omega)] at hlt
  omega

/-- `bmap` of a mapped block. -/
theorem Img.bmap_mapped (h : x.slot (slotOf bn) ≠ 0) :
    x.bmap sb bn = (x.slot (slotOf bn), x) := by
  have hlt := slotOf_lt_of_slot h
  unfold bmap
  by_cases hdirect : bn < ndirect
  · rw [if_pos hdirect]
    rw [slotOf_direct hdirect] at h ⊢
    exact ensure_held h
  · have hind := addrs_ne_of_entry bn (by omega) h
    have hslot := slot_direct x (Nat.le_refl ndirect)
    have hens : x.ensure sb ndirect = (x.slot ndirect, x) :=
      ensure_held (by rw [hslot]; exact hind)
    unfold maxFile at hlt
    rw [if_neg hdirect, if_pos (by omega), hens]
    rw [if_neg (by rw [hslot]; exact hind)]
    exact ensure_held h

-- ==== reading

theorem Img.byte_of_mapped (h : x.slot (slotOf (o / bsize)) ≠ 0) :
    x.byte o = (x.disk (x.slot (slotOf (o / bsize)))).get (o % bsize) := if_neg h

/-- Part of one block. -/
theorem Img.slice_eq (hm : off % bsize + m ≤ bsize)
    (h : x.slot (slotOf (off / bsize)) ≠ 0) :
    (x.disk (x.slot (slotOf (off / bsize)))).slice (off % bsize) m
      = (List.range m).map fun j => x.byte (off + j) := by
  refine List.map_congr_left fun j hj => ?_
  have hj := List.mem_range.mp hj
  have hdiv : (off + j) / bsize = off / bsize := by
    unfold bsize at *
    omega
  have hmod : (off + j) % bsize = off % bsize + j := by
    unfold bsize at *
    omega
  rw [byte_of_mapped (by rw [hdiv]; exact h), hdiv, hmod]

theorem Img.readLoop_mapped (k : Nat) (hk : n ≤ k)
    (h : ∀ o, off ≤ o → o < off + n → x.slot (slotOf (o / bsize)) ≠ 0) :
    x.readLoop sb k off n
      = (some ((List.range n).map fun j => x.byte (off + j)), x) := by
  induction k generalizing off n with
  | zero =>
    rw [show n = 0 by omega]
    rfl
  | succ k ih =>
    unfold readLoop
    split
    next h0 =>
      rw [h0]
      rfl
    next h0 =>
      have hmod : off % bsize < bsize := Nat.mod_lt _ (by unfold bsize; omega)
      have hfirst := h off (Nat.le_refl _) (by omega)
      rw [bmap_mapped hfirst]
      dsimp only
      rw [if_neg hfirst]
      generalize hm : min n (bsize - off % bsize) = m
      rw [ih (by omega) fun o h1 h2 => h o (by omega) (by omega),
        slice_eq (by omega) hfirst]
      rw [Option.map_some]
      congr 2
      -- the first `m` bytes and the rest
      rw [show n = m + (n - m) by omega, List.range_add, List.map_append,
        List.map_map]
      congr 1
      rw [show m + (n - m) - m = n - m by omega]
      refine List.map_congr_left fun j _ => ?_
      show x.byte (off + m + j) = x.byte (off + (m + j))
      rw [Nat.add_assoc]

theorem Img.content_slice (h : off + n ≤ x.d.size) :
    (x.content.drop off).take n = (List.range n).map fun j => x.byte (off + j) := by
  unfold content
  rw [← List.map_drop, ← List.map_take]
  refine List.ext_getElem ?_ ?_
  · simp
    omega
  · intro j h1 h2
    simp

/-- `ureadi` on a mapped file, within the file. -/
theorem Img.ureadi_mapped (hx : x.Mapped) (hn : 0 < n) (h : off + n ≤ x.d.size) :
    x.ureadi sb off n = (some ((x.content.drop off).take n), x) := by
  have hsize := hx.size_le
  have hwrap : (off + n) % 4294967296 = off + n := by
    refine Nat.mod_eq_of_lt ?_
    unfold maxFile ndirect nindirect bsize at hsize
    omega
  unfold ureadi
  rw [if_neg (by omega), hwrap, if_neg (by omega)]
  rw [readLoop_mapped n (Nat.le_refl _) fun o _ h2 => hx o (by omega),
    content_slice h]

-- ==== writing

theorem Takes.data_block (h : Takes sb tab i x k b) (hx : IsFile sb tab i x)
    (hl : l < nslots) (hne : l ≠ ndirect) (h0 : x.slot l ≠ 0) :
    (x.take sb k b).disk (x.slot l) = x.disk (x.slot l) := by
  have hself := hx.holds hl h0
  have harea := (hx.owns.area hself).1
  have hblk := hx.layout.bitmapArea b h.lt
  refine take_disk x (by omega) fun hk heq => ?_
  have hslot := slot_direct x (Nat.le_refl ndirect)
  have hind := hx.holds (lt_nslots_of_le (Nat.le_refl ndirect))
    (by rw [hslot]; exact h.indirect hk)
  rw [hslot, ← heq] at hind
  exact hne (hx.owns.once hself hind).2

section

variable (hx : IsFile sb tab i x)
include hx

theorem IsFile.ensure_data (hk : k < nslots)
    (hind : ndirect < k → x.d.addrs ndirect ≠ 0)
    (hfit : k = ndirect → Fit sb tab i x) (hl : l < nslots)
    (hne : l ≠ ndirect) (h0 : x.slot l ≠ 0) :
    (x.ensure sb k).2.disk (x.slot l) = x.disk (x.slot l) := by
  have hcases := hx.ensured k
  generalize x.ensure sb k = r at hcases ⊢
  cases hcases with
  | held | full => rfl
  | fresh b hvac hfree =>
    exact (takes_lowest hk hvac hind hfit hfree).data_block hx hl hne h0

/-- `bmap` leaves the data blocks of the file alone. -/
theorem IsFile.bmap_data (bn : Nat)
    (hfit : ndirect ≤ bn → bn < maxFile → Fit sb tab i x)
    (hl : l < nslots) (hne : l ≠ ndirect) (h0 : x.slot l ≠ 0) :
    (x.bmap sb bn).2.disk (x.slot l) = x.disk (x.slot l) := by
  unfold bmap
  split
  next hdirect =>
    exact hx.ensure_data (lt_nslots_of_le (by omega)) (fun h => by omega)
      (fun h => by omega) hl hne h0
  next hdirect =>
    split
    next hbn =>
      have hlt : bn < maxFile := by
        unfold maxFile
        omega
      have hdisk := hx.ensure_data (k := ndirect)
        (lt_nslots_of_le (Nat.le_refl _)) (fun h => by omega)
        (fun _ => hfit (by omega) hlt) hl hne h0
      obtain ⟨htouch, hslot⟩ := hx.ensure_touch (k := ndirect)
        (lt_nslots_of_le (Nat.le_refl _)) (fun h => by omega)
        (fun _ => hfit (by omega) hlt)
      dsimp only
      split
      next => exact hdisk
      next hgot =>
        have hind : (x.ensure sb ndirect).2.d.addrs ndirect ≠ 0 := by
          rw [← slot_direct _ (Nat.le_refl _), hslot hgot]
          exact hgot
        have hkeep := htouch.keep l hl h0
        have hdisk' := (hx.touch htouch).ensure_data (slotOf_lt hlt)
          (fun _ => hind) (fun h => absurd h (slotOf_ne bn)) hl hne
          (by rw [hkeep]; exact h0)
        rw [hkeep] at hdisk'
        exact hdisk'.trans hdisk
    next hbn => rfl

theorem IsFile.slot_write (hk : k < nslots)
    (hdata : k ≠ ndirect) (hne : x.slot k ≠ 0) (off : Nat) (bytes : List UInt8)
    (l : Nat) : (x.write (x.slot k) off bytes).slot l = x.slot l := by
  refine slot_congr (fun hind => update_of_ne ?_ ..) l
  intro heq
  have hslot := slot_direct x (Nat.le_refl ndirect)
  have hself := hx.holds (lt_nslots_of_le (Nat.le_refl ndirect))
    (by rw [hslot]; exact hind)
  rw [hslot, heq] at hself
  exact hdata (hx.owns.once (hx.holds hk hne) hself).2

/-- The bytes after a write to one block. -/
theorem IsFile.byte_write
    (hne : x.slot (slotOf bn) ≠ 0) (boff : Nat) (bytes : List UInt8) (o : Nat) :
    (x.write (x.slot (slotOf bn)) boff bytes).byte o
      = if o / bsize = bn ∧ boff ≤ o % bsize ∧ o % bsize < boff + bytes.length
        then bytes.getD (o % bsize - boff) 0 else x.byte o := by
  have hlt := slotOf_lt (slotOf_lt_of_slot hne)
  have hslot := hx.slot_write hlt (slotOf_ne bn) hne boff bytes
  unfold byte
  rw [hslot]
  by_cases hbn : o / bsize = bn
  · rw [hbn, if_neg hne]
    have hblk : (x.write (x.slot (slotOf bn)) boff bytes).disk (x.slot (slotOf bn))
        = (x.disk (x.slot (slotOf bn))).blit boff bytes := update_self ..
    have hmod : o % bsize < bsize := Nat.mod_lt _ (by unfold bsize; omega)
    rw [hblk, Bytes.get_blit]
    simp only [hmod, true_and, if_neg hne]
  · rw [if_neg (by omega : ¬ (o / bsize = bn ∧ boff ≤ o % bsize
      ∧ o % bsize < boff + bytes.length))]
    by_cases h0 : x.slot (slotOf (o / bsize)) = 0
    · rw [if_pos h0, if_pos h0]
    rw [if_neg h0, if_neg h0]
    have hother : x.slot (slotOf (o / bsize)) ≠ x.slot (slotOf bn) := by
      intro heq
      have hself := hx.holds hlt hne
      have hoth := hx.holds (slotOf_lt (slotOf_lt_of_slot h0)) h0
      rw [heq] at hoth
      exact hbn (slotOf_inj (hx.owns.once hoth hself).2)
    exact congrArg (Bytes.get · _) (update_of_ne hother ..)

theorem IsFile.byte_bmap (bn : Nat)
    (hfit : ndirect ≤ bn → bn < maxFile → Fit sb tab i x)
    (h0 : x.slot (slotOf (o / bsize)) ≠ 0) :
    (x.bmap sb bn).2.slot (slotOf (o / bsize)) = x.slot (slotOf (o / bsize))
      ∧ (x.bmap sb bn).2.byte o = x.byte o := by
  have hlt := slotOf_lt (slotOf_lt_of_slot h0)
  have hkeep := (hx.bmap_touch bn hfit).1.keep _ hlt h0
  refine ⟨hkeep, ?_⟩
  unfold byte
  rw [hkeep, hx.bmap_data bn hfit hlt (slotOf_ne _) h0]

end

/-- The bytes after a write that went through: within its range those
written, elsewhere, where there was a block, those before. -/
theorem IsFile.writeLoop_byte (n : Nat) (hx : IsFile sb tab i x)
    (hok : IndirectOk sb tab i x off src.length) (hn : src.length ≤ n)
    (hdone : (x.writeLoop sb n off src).1 ≠ none)
    (ho : x.slot (slotOf (o / bsize)) ≠ 0 ∨ (off ≤ o ∧ o < off + src.length)) :
    (x.writeLoop sb n off src).2.slot (slotOf (o / bsize)) ≠ 0
      ∧ (x.writeLoop sb n off src).2.byte o
        = if off ≤ o ∧ o < off + src.length then src.getD (o - off) 0
          else x.byte o := by
  induction n generalizing x off src with
  | zero =>
    rw [if_neg (by omega)]
    exact ⟨ho.resolve_right (by omega), rfl⟩
  | succ n ih =>
    unfold writeLoop at hdone ⊢
    by_cases hlen : src.length = 0
    · rw [if_pos hlen, if_neg (by omega)]
      exact ⟨ho.resolve_right (by omega), rfl⟩
    rw [if_neg hlen] at hdone ⊢
    have hfit : ndirect ≤ off / bsize → off / bsize < maxFile →
        Fit sb tab i x := fun hge hlt => hok.fit (by omega) hge hlt
    obtain ⟨htouch, hslot⟩ := hx.bmap_touch (off / bsize) hfit
    by_cases hne : (x.bmap sb (off / bsize)).1 = 0
    · rw [if_pos hne] at hdone
      exact absurd rfl hdone
    rw [if_neg hne] at hdone ⊢
    obtain ⟨hlt, hslot⟩ := hslot hne
    have hy := hx.touch htouch
    have hmod : off % bsize < bsize :=
      Nat.mod_lt _ (by unfold bsize; omega)
    generalize hm : min src.length (bsize - off % bsize) = m at hdone ⊢
    obtain ⟨hstep, hnext⟩ := hx.writeStep hok (by omega) hm.symm hne
    have hwslot := hy.slot_write (slotOf_lt hlt) (slotOf_ne _)
      (by rw [hslot]; exact hne) (off % bsize) (src.take m)
    have hwbyte := hy.byte_write (by rw [hslot]; exact hne) (off % bsize)
      (src.take m) o
    rw [hslot] at hwslot hwbyte
    have hrest := ih (hx.touch hstep) hnext
      (by rw [List.length_drop]; omega) hdone
    rw [List.length_drop] at hrest
    rw [List.length_take] at hwbyte
    by_cases hin : off ≤ o ∧ o < off + src.length
    · rw [if_pos hin]
      by_cases hfirst : o < off + m
      · -- in the block just written
        have hdiv : o / bsize = off / bsize := by
          unfold bsize at *
          omega
        have hsub : o % bsize - off % bsize = o - off := by
          unfold bsize at *
          omega
        obtain ⟨hs, hb⟩ := hrest (Or.inl (by
          rw [hwslot, hdiv, hslot]
          exact hne))
        refine ⟨hs, ?_⟩
        rw [hb, if_neg (by omega), hwbyte, if_pos ?_, hsub]
        · rw [List.getD_eq_getElem?_getD, List.getD_eq_getElem?_getD,
            List.getElem?_take_of_lt (by omega)]
        · refine ⟨hdiv, ?_, ?_⟩ <;> (unfold bsize at *; omega)
      · obtain ⟨hs, hb⟩ := hrest (Or.inr (by omega))
        refine ⟨hs, ?_⟩
        rw [hb, if_pos (by omega), List.getD_eq_getElem?_getD,
          List.getD_eq_getElem?_getD, List.getElem?_drop,
          show m + (o - (off + m)) = o - off by omega]
    · rw [if_neg hin]
      have h0 := ho.resolve_right hin
      obtain ⟨hkeep, hbyte⟩ := hx.byte_bmap (off / bsize) hfit h0
      obtain ⟨hs, hb⟩ := hrest (Or.inl (by
        rw [hwslot, hkeep]
        exact h0))
      refine ⟨hs, ?_⟩
      rw [hb, if_neg (by omega), hwbyte, if_neg ?_, hbyte]
      rintro ⟨h1, h2, h3⟩
      unfold bsize at *
      omega

-- ==== uwritei

theorem Img.ensure_size (x : Img) (k : Nat) : (x.ensure sb k).2.d.size = x.d.size := by
  unfold ensure
  split
  next =>
    split
    next => rfl
    unfold assign DInode.setAddr
    split
    next => rfl
    next => rfl
  next => rfl

theorem Img.bmap_size (x : Img) (bn : Nat) : (x.bmap sb bn).2.d.size = x.d.size := by
  unfold bmap
  split
  next => exact x.ensure_size bn
  split
  next =>
    dsimp only
    split
    next => exact x.ensure_size ndirect
    next => rw [ensure_size, ensure_size]
  next => rfl

theorem Img.writeLoop_size (n : Nat) :
    (x.writeLoop sb n off src).2.d.size = x.d.size := by
  induction n generalizing x off src with
  | zero => rfl
  | succ n ih =>
    unfold writeLoop
    split
    next => rfl
    dsimp only
    split
    next => exact x.bmap_size _
    next =>
      rw [ih]
      exact x.bmap_size _

theorem Img.getD_content (h : o < x.d.size) :
    x.content.getD o 0 = x.byte o := by
  unfold content
  rw [List.getD_eq_getElem?_getD, List.getElem?_map, List.getElem?_range h]
  rfl

theorem Touch.mapped (h : Touch sb tab i x y) (hx : x.Mapped)
    (hsize : y.d.size = x.d.size) : y.Mapped := by
  intro o ho
  have h0 := hx o (by omega)
  rw [h.keep _ (slotOf_lt (slotOf_lt_of_slot h0)) h0]
  exact h0

theorem IsFile.disk_putInode (hx : IsFile sb tab i x) (d : DInode) {c : Nat}
    (hc : dataStart sb ≤ c) : putInode sb x.disk i d c = x.disk c := by
  have hinode := hx.layout.inodeArea i hx.lt
  have hstart := hx.layout.bmapstart_lt
  exact update_of_ne (by omega) ..

theorem IsFile.slot_putInode (hx : IsFile sb tab i x)
    (hd : d.addrs = x.d.addrs) (k : Nat) :
    (Img.mk (putInode sb x.disk i d) d).slot k = x.slot k := by
  have hstep : (Img.mk (putInode sb x.disk i d) d).slot k
      = (Img.mk (putInode sb x.disk i d) x.d).slot k := by
    unfold Img.slot
    rw [hd]
  rw [hstep]
  exact slot_congr (fun hind => hx.disk_putInode d (hx.indirect hind).1) k

/-- The bytes do not change when the inode is written back. -/
theorem IsFile.byte_putInode (hx : IsFile sb tab i x)
    (hd : d.addrs = x.d.addrs) (o : Nat) :
    (Img.mk (putInode sb x.disk i d) d).slot (slotOf (o / bsize))
        = x.slot (slotOf (o / bsize))
      ∧ (Img.mk (putInode sb x.disk i d) d).byte o = x.byte o := by
  refine ⟨hx.slot_putInode hd _, ?_⟩
  unfold byte
  rw [hx.slot_putInode hd]
  split
  next => rfl
  next h0 =>
    have hself := hx.holds (slotOf_lt (slotOf_lt_of_slot h0)) h0
    show Bytes.get (putInode sb x.disk i d _) _ = _
    rw [hx.disk_putInode d (hx.owns.area hself).1]

/-- `z` has the bytes of `src` from `off` on, and those of `x` elsewhere. -/
def Img.Overlays (x : Img) (off : Nat) (src : List UInt8) (z : Img) : Prop :=
  ∀ o, x.slot (slotOf (o / bsize)) ≠ 0 ∨ (off ≤ o ∧ o < off + src.length) →
    z.slot (slotOf (o / bsize)) ≠ 0
      ∧ z.byte o = if off ≤ o ∧ o < off + src.length then src.getD (o - off) 0
        else x.byte o

theorem Img.content_overlay {z : Img} (hmap : x.Mapped) (hoff : off ≤ x.d.size)
    (hbyte : x.Overlays off src z) (hsize : z.d.size = max x.d.size (off + src.length)) :
    z.Mapped ∧ z.content = overlay x.content off src := by
  have hcover : ∀ o, o < z.d.size → x.slot (slotOf (o / bsize)) ≠ 0
      ∨ (off ≤ o ∧ o < off + src.length) := by
    intro o ho
    by_cases hlt : o < x.d.size
    · exact Or.inl (hmap o hlt)
    · exact Or.inr ⟨by omega, by omega⟩
  have hlen : off ≤ x.content.length := by
    rw [length_content]
    exact hoff
  refine ⟨fun o ho => (hbyte o (hcover o ho)).1, list_eq_of_getD ?_ fun o ho => ?_⟩
  · rw [length_overlay hlen, length_content, length_content, hsize]
  · rw [length_content] at ho
    rw [getD_content ho, (hbyte o (hcover o ho)).2, getD_overlay hlen]
    split
    next => rfl
    next hout => rw [getD_content (by omega)]

/-- A write that starts within a mapped file: either it fails and the size
is what it was, or it lays its bytes over the old ones. -/
theorem IsFile.uwritei_cases (hx : IsFile sb tab i x) (hmap : x.Mapped)
    (hoff : off ≤ x.d.size) (hok : ¬ (off + src.length) % 4294967296 < off →
      IndirectOk sb tab i x off src.length) :
    (x.uwritei sb i src off).2.Mapped
      ∧ (((x.uwritei sb i src off).1 = -1
            ∧ (x.uwritei sb i src off).2.d.size = x.d.size)
          ∨ ((x.uwritei sb i src off).1 = src.length
            ∧ (x.uwritei sb i src off).2.content
              = overlay x.content off src)) := by
  unfold uwritei
  split
  next => exact ⟨hmap, Or.inl ⟨rfl, rfl⟩⟩
  next hwrap =>
    have htouch := hx.writeLoop_touch src.length (hok hwrap)
    have hsize : (x.writeLoop sb src.length off src).2.d.size = x.d.size :=
      writeLoop_size ..
    have hend : ∀ o, (x.writeLoop sb src.length off src).1 = some o → _ :=
      fun o h => writeLoop_off (Nat.le_refl _) h
    have hbyte : (x.writeLoop sb src.length off src).1 ≠ none → ∀ o,
        (x.slot (slotOf (o / bsize)) ≠ 0 ∨ (off ≤ o ∧ o < off + src.length)) → _ :=
      fun h o ho => hx.writeLoop_byte src.length (hok hwrap) (Nat.le_refl _) h ho
    generalize x.writeLoop sb src.length off src = r at htouch hsize hend hbyte ⊢
    obtain ⟨r, y⟩ := r
    cases r with
    | none => exact ⟨htouch.mapped hmap hsize, Or.inl ⟨rfl, hsize⟩⟩
    | some off' =>
      obtain ⟨rfl, -⟩ := hend off' rfl
      have hbyte := hbyte (by intro h; cases h)
      dsimp only at htouch hsize hbyte ⊢
      split
      next hgrow =>
        generalize hd : ({ y.d with size := off + src.length } : DInode) = d
        have haddrs : d.addrs = y.d.addrs := by rw [← hd]
        have hdsize : d.size = off + src.length := by rw [← hd]
        have hbyte' : x.Overlays off src ⟨putInode sb y.disk i d, d⟩ := by
          intro o ho
          obtain ⟨hs, hb⟩ := (hx.touch htouch).byte_putInode haddrs o
          have ho := hbyte o ho
          rw [← hs, ← hb] at ho
          exact ho
        obtain ⟨hm, hcont⟩ := content_overlay hmap hoff hbyte'
          (hdsize.trans (by omega))
        exact ⟨hm, Or.inr ⟨rfl, hcont⟩⟩
      next hgrow =>
        obtain ⟨hm, hcont⟩ := content_overlay hmap hoff hbyte (by omega)
        exact ⟨hm, Or.inr ⟨rfl, hcont⟩⟩

end Xv6FsServer.Fs
