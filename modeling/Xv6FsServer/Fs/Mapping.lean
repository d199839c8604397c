/-
Allocation on demand keeps the volume consistent.

`Ensured` lists what `Img.ensure` can do; `bmap` is at most two of it, and
the loop of `uwritei` one `bmap` and one write to a block for every block
of its range. Each keeps to `Touch`.

The one thing that can go wrong is a fresh indirect block, and which block
that will be is known before the write starts: `balloc` hands out the
lowest free block, so it is the free block after those that go to the
unmapped direct blocks of the range (`IndirectOk`).
-/
import Xv6FsServer.Fs.Ownership
import Mathlib.Data.List.Nodup
import Mathlib.Data.List.Range

namespace Xv6FsServer.Fs

open Lib Function

variable {sb : Superblock} {tab : Nat → DInode} {disk : Disk} {x y : Img}
variable {i k b : Nat}
variable {n off : Nat} {src : List UInt8}
variable {bn a m : Nat} {disk' : Disk}

-- ==== ensure

/-- What `Img.ensure` can do. -/
inductive Ensured (sb : Superblock) (x : Img) (k : Nat) : Nat × Img → Prop
  | held (h : x.slot k ≠ 0) : Ensured sb x k (x.slot k, x)
  | full (h : x.slot k = 0) (hfree : lowestFree sb x.disk = none) :
      Ensured sb x k (0, x)
  | fresh (b : Nat) (h : x.slot k = 0) (hfree : lowestFree sb x.disk = some b) :
      Ensured sb x k (b, x.take sb k b)

theorem IsFile.ensured (hx : IsFile sb tab i x) (k : Nat) :
    Ensured sb x k (x.ensure sb k) := by
  by_cases h : x.slot k = 0
  · cases hfree : lowestFree sb x.disk with
    | none =>
      have hb : balloc sb x.disk = (0, x.disk) := by
        unfold balloc
        rw [hfree]
      rw [Img.ensure_full h (by rw [hb]), hb]
      exact .full h hfree
    | some b =>
      have hb : balloc sb x.disk = (b, markUsed sb x.disk b) := by
        unfold balloc
        rw [hfree]
      -- block 0 is never free
      have hne : b ≠ 0 := by
        obtain ⟨hlt, hunused⟩ := lowestFree_some hfree
        have h1 := (hx.owns.free hunused).1
        have h2 := hx.layout.bitmapArea b hlt
        omega
      rw [Img.ensure_fresh h (by rw [hb]; exact hne), hb]
      exact .fresh b h hfree
  · rw [Img.ensure_held h]
    exact .held h

/-- Whichever block a slot gets next, it may go there. -/
def Fit (sb : Superblock) (tab : Nat → DInode) (i : Nat) (x : Img) : Prop :=
  x.d.addrs ndirect = 0 → ∀ b, lowestFree sb x.disk = some b →
    Harmless sb x.disk (update tab i x.d) b

theorem takes_lowest (hk : k < nslots) (h0 : x.slot k = 0)
    (hind : ndirect < k → x.d.addrs ndirect ≠ 0)
    (hfit : k = ndirect → Fit sb tab i x) (hb : lowestFree sb x.disk = some b) :
    Takes sb tab i x k b where
  slot_lt := hk
  vacant := h0
  indirect := hind
  free := (lowestFree_some hb).2
  lt := (lowestFree_some hb).1
  harmless := by
    rintro rfl
    rw [Img.slot_direct x (Nat.le_refl _)] at h0
    exact hfit rfl h0 b hb

theorem IsFile.ensure_touch (hx : IsFile sb tab i x) (hk : k < nslots)
    (hind : ndirect < k → x.d.addrs ndirect ≠ 0)
    (hfit : k = ndirect → Fit sb tab i x) :
    Touch sb tab i x (x.ensure sb k).2
      ∧ ((x.ensure sb k).1 ≠ 0 → (x.ensure sb k).2.slot k = (x.ensure sb k).1) := by
  have hcases := hx.ensured k
  generalize x.ensure sb k = r at hcases ⊢
  cases hcases with
  | held h => exact ⟨.refl hx.owns, fun _ => rfl⟩
  | full h hfree => exact ⟨.refl hx.owns, fun h0 => absurd rfl h0⟩
  | fresh b h hfree =>
    have htakes := takes_lowest hk h hind hfit hfree
    refine ⟨htakes.touch hx, fun _ => ?_⟩
    rw [htakes.slot hx, if_pos rfl]

-- ==== bmap

theorem slotOf_lt (h : bn < maxFile) : slotOf bn < nslots := by
  unfold slotOf maxFile nslots at *
  split <;> omega

theorem slotOf_ne (bn : Nat) : slotOf bn ≠ ndirect := by
  unfold slotOf
  split <;> omega

theorem addrs_ne_of_entry (bn : Nat) (hbn : ndirect ≤ bn)
    (h : x.slot (slotOf bn) ≠ 0) : x.d.addrs ndirect ≠ 0 := by
  intro h0
  refine h ?_
  unfold Img.slot
  rw [slotOf_entry hbn, if_neg (by omega), if_pos h0]

theorem IsFile.bmap_touch (hx : IsFile sb tab i x) (bn : Nat)
    (hfit : ndirect ≤ bn → bn < maxFile → Fit sb tab i x) :
    Touch sb tab i x (x.bmap sb bn).2
      ∧ ((x.bmap sb bn).1 ≠ 0 →
          bn < maxFile ∧ (x.bmap sb bn).2.slot (slotOf bn) = (x.bmap sb bn).1) := by
  unfold Img.bmap
  split
  next hdirect =>
    obtain ⟨htouch, hslot⟩ := hx.ensure_touch (k := bn)
      (lt_nslots_of_le (by omega)) (fun h => by omega) (fun h => by omega)
    refine ⟨htouch, fun h0 => ⟨by unfold maxFile; omega, ?_⟩⟩
    rw [slotOf_direct hdirect]
    exact hslot h0
  next hdirect =>
    split
    next hbn =>
      have hlt : bn < maxFile := by
        unfold maxFile
        omega
      obtain ⟨htouch, hslot⟩ := hx.ensure_touch (k := ndirect)
        (lt_nslots_of_le (Nat.le_refl _)) (fun h => by omega)
        (fun _ => hfit (by omega) hlt)
      dsimp only
      split
      next h0 => exact ⟨htouch, fun h => absurd h0 h⟩
      next h0 =>
        have hind : (x.ensure sb ndirect).2.d.addrs ndirect ≠ 0 := by
          rw [← Img.slot_direct _ (Nat.le_refl _), hslot h0]
          exact h0
        obtain ⟨htouch', hslot'⟩ := (hx.touch htouch).ensure_touch
          (slotOf_lt hlt) (fun _ => hind) (fun h => absurd h (slotOf_ne bn))
        exact ⟨htouch.trans hx htouch', fun h => ⟨hlt, hslot' h⟩⟩
    next hbn => exact ⟨.refl hx.owns, fun h => absurd rfl h⟩

-- ==== the free blocks

/-- The free blocks, the lowest first. -/
def freeBlocks (sb : Superblock) (disk : Disk) : List Nat :=
  (List.range sb.size).filter fun b => !used sb disk b

theorem mem_freeBlocks : b ∈ freeBlocks sb disk ↔
    b < sb.size ∧ used sb disk b = false := by
  unfold freeBlocks
  rw [List.mem_filter, List.mem_range, Bool.not_eq_true']

theorem nodup_freeBlocks : (freeBlocks sb disk).Nodup :=
  List.nodup_range.filter _

theorem freeBlocks_congr (h : ∀ b, b < sb.size → used sb disk' b = used sb disk b) :
    freeBlocks sb disk' = freeBlocks sb disk :=
  List.filter_congr fun b hb => by rw [h b (List.mem_range.mp hb)]

theorem lowestFree_eq : lowestFree sb disk = (freeBlocks sb disk)[0]? := by
  rw [← List.head?_eq_getElem?]
  unfold freeBlocks lowestFree
  rw [List.head?_filter, first_eq_find]
  congr 1
  simp

/-- Taking the lowest free block. -/
theorem freeBlocks_take (hb : lowestFree sb disk = some b)
    (h : ∀ c, c < sb.size → used sb disk' c = (decide (c = b) || used sb disk c)) :
    freeBlocks sb disk = b :: freeBlocks sb disk' := by
  have hsplit : freeBlocks sb disk' = (freeBlocks sb disk).filter (· ≠ b) := by
    unfold freeBlocks
    rw [List.filter_filter]
    refine List.filter_congr fun c hc => ?_
    rw [h c (List.mem_range.mp hc)]
    simp
  rw [lowestFree_eq] at hb
  have hnodup : (freeBlocks sb disk).Nodup := nodup_freeBlocks
  rw [hsplit]
  cases hl : freeBlocks sb disk with
  | nil =>
    rw [hl] at hb
    cases hb
  | cons c rest =>
    rw [hl] at hb hnodup
    cases hb
    rw [List.nodup_cons] at hnodup
    rw [List.filter_cons_of_neg (by simp), List.filter_eq_self.mpr]
    intro d hd
    refine decide_eq_true fun heq => hnodup.1 (heq ▸ hd)

-- ==== the range of a write

/-- How many of the direct blocks `a`, ..., `a + n - 1` are unmapped. -/
def missing (d : DInode) : Nat → Nat → Nat
  | _, 0 => 0
  | a, n + 1 => (if d.addrs a = 0 then 1 else 0) + missing d (a + 1) n

/-- If a write of `n` bytes at `off` takes a fresh indirect block, that
block is harmless. -/
def IndirectOk (sb : Superblock) (tab : Nat → DInode) (i : Nat) (x : Img)
    (off n : Nat) : Prop :=
  x.d.addrs ndirect = 0 → 0 < n → off / bsize < maxFile →
    ndirect ≤ (off + n - 1) / bsize →
    ∀ b, (freeBlocks sb x.disk)[missing x.d (off / bsize)
      (ndirect - off / bsize)]? = some b →
        Harmless sb x.disk (update tab i x.d) b

/-- A write that stays within the direct blocks takes no indirect block. -/
theorem IndirectOk.direct (h : off + n ≤ ndirect * bsize) :
    IndirectOk sb tab i x off n := by
  intro _ hn _ hlast
  have hlt : (off + n - 1) / bsize < ndirect :=
    Nat.div_lt_of_lt_mul (by rw [Nat.mul_comm]; omega)
  omega

theorem missing_congr {d d' : DInode}
    (h : ∀ k, a ≤ k → k < a + n → d'.addrs k = d.addrs k) :
    missing d' a n = missing d a n := by
  induction n generalizing a with
  | zero => rfl
  | succ n ih =>
    unfold missing
    rw [h a (Nat.le_refl _) (by omega),
      ih fun k h1 h2 => h k (by omega) (by omega)]

theorem IndirectOk.fit (h : IndirectOk sb tab i x off n) (hn : 0 < n)
    (hbn : ndirect ≤ off / bsize) (hlt : off / bsize < maxFile) :
    Fit sb tab i x := by
  intro hind b hb
  refine h hind hn hlt ?_ b ?_
  · exact hbn.trans (Nat.div_le_div_right (by omega))
  · rw [Nat.sub_eq_zero_of_le hbn]
    rw [lowestFree_eq] at hb
    exact hb

theorem Img.slot_zero_of_no_indirect (h : x.d.addrs ndirect = 0) (hk : ndirect < k) :
    x.slot k = 0 := by
  unfold Img.slot
  rw [if_neg (by omega), if_pos h]

/-- Without a fresh indirect block, only blocks that were free find a new
holder. -/
theorem Touch.holds (h : Touch sb tab i x y) (hx : IsFile sb tab i x)
    (hind : x.d.addrs ndirect = 0 → y.d.addrs ndirect = 0) {j l c : Nat}
    (hh : Holds sb y.disk (update tab i y.d) j l c) :
    Holds sb x.disk (update tab i x.d) j l c ∨ Fs.used sb x.disk c = false := by
  by_cases hji : j = i
  · subst hji
    have hs : y.slot l = c := by
      have := hh.slot
      rw [update_self] at this
      exact this
    have hne := hh.ne_zero
    subst hs
    rcases h.fresh l hh.slot_lt hne with hsame | hfree | ⟨h0, hgt⟩
    · rw [hsame] at hne ⊢
      exact Or.inl (hx.holds hh.slot_lt hne)
    · exact Or.inr hfree
    · exact absurd (Img.slot_zero_of_no_indirect (hind h0) hgt) hne
  · have halloc := hh.alloc
    have hs := hh.slot
    unfold Allocated at halloc
    rw [update_of_ne hji] at halloc hs
    refine Or.inl ⟨allocated_update halloc hji _, hh.slot_lt, ?_, hh.ne_zero⟩
    rw [update_of_ne hji, ← hs]
    exact (h.other_slot hx halloc hji l).symm

/-- A block that stays free stays harmless. -/
theorem Harmless.touch (h : Harmless sb x.disk (update tab i x.d) b)
    (hx : IsFile sb tab i x) (ht : Touch sb tab i x y)
    (hind : y.d.addrs ndirect = 0) (hfree : used sb y.disk b = false) :
    Harmless sb y.disk (update tab i y.d) b := by
  have hentry : ∀ e, entry y.disk b e = entry x.disk b e := by
    intro e
    unfold entry
    rw [ht.free_block hx hfree]
  intro e he hne
  rw [hentry] at hne ⊢
  obtain ⟨harea, hmarked, hnone, hinj⟩ := h e he hne
  refine ⟨harea, ht.used _ harea.2 hmarked, ?_, ?_⟩
  · intro j l hh
    rcases ht.holds hx (fun _ => hind) hh with hold | hunused
    · exact hnone j l hold
    · rw [hmarked] at hunused
      cases hunused
  · intro f hf heq
    rw [hentry] at heq
    exact hinj f hf heq

/-- The condition after one direct block of the range. -/
theorem IndirectOk.next (h : IndirectOk sb tab i x off n)
    (hx : IsFile sb tab i x) (ht : Touch sb tab i x y) (hbn : off / bsize < ndirect)
    (hm : m = min n (bsize - off % bsize))
    (haddrs : ∀ k, k ≠ off / bsize → y.d.addrs k = x.d.addrs k)
    (hfree : ∀ c, (freeBlocks sb y.disk)[c]? = (freeBlocks sb x.disk)[
      (if x.d.addrs (off / bsize) = 0 then 1 else 0) + c]?) :
    IndirectOk sb tab i y (off + m) (n - m) := by
  intro hind hn hlt hlast b hb
  have hmod : off % bsize < bsize := Nat.mod_lt _ (by unfold bsize; omega)
  -- a full block was written, so the next one starts here
  have hstep : m = bsize - off % bsize := by omega
  have hnext : (off + m) / bsize = off / bsize + 1 := by
    unfold bsize at *
    omega
  rw [hnext, hfree] at hb
  have hmiss : missing x.d (off / bsize) (ndirect - off / bsize)
      = (if x.d.addrs (off / bsize) = 0 then 1 else 0)
        + missing y.d (off / bsize + 1) (ndirect - (off / bsize + 1)) := by
    rw [show ndirect - off / bsize = ndirect - (off / bsize + 1) + 1 by omega,
      missing]
    congr 1
    exact (missing_congr fun k h1 _ => haddrs k (by omega)).symm
  have hharm : Harmless sb x.disk (update tab i x.d) b := by
    refine h ?_ (by omega) ?_ ?_ b ?_
    · rw [← haddrs ndirect (by omega)]
      exact hind
    · unfold maxFile
      omega
    · rw [show off + n - 1 = off + m + (n - m) - 1 by omega]
      exact hlast
    · rw [hmiss]
      exact hb
  refine hharm.touch hx ht hind ?_
  have hmem := List.mem_of_getElem? ((hfree _).trans hb)
  exact (mem_freeBlocks.mp hmem).2

-- ==== uwritei

theorem IsFile.used_write (hx : IsFile sb tab i x)
    (ha : dataStart sb ≤ a) (off : Nat) (bytes : List UInt8) (c : Nat)
    (hc : c < sb.size) :
    used sb (x.write a off bytes).disk c = used sb x.disk c := by
  refine used_congr (update_of_ne ?_ ..)
  have := hx.layout.bitmapArea c hc
  omega

/-- One block of a write in the direct range. -/
theorem IndirectOk.next_direct (h : IndirectOk sb tab i x off src.length)
    (hx : IsFile sb tab i x) (hbn : off / bsize < ndirect)
    (hm : m = min src.length (bsize - off % bsize))
    (hne : (x.bmap sb (off / bsize)).1 ≠ 0) :
    IndirectOk sb tab i ((x.bmap sb (off / bsize)).2.write
      (x.bmap sb (off / bsize)).1 (off % bsize) (src.take m))
      (off + m) (src.drop m).length := by
  obtain ⟨htouch, hslot⟩ := hx.bmap_touch (off / bsize)
    (fun hge => by omega)
  obtain ⟨hlt, hslot⟩ := hslot hne
  have hy := hx.touch htouch
  have hwrite := hy.write_touch (slotOf_lt hlt) (slotOf_ne _)
    (by rw [hslot]; exact hne) (off % bsize) (src.take m)
  have hdata := (hy.owns.area (hy.holds (slotOf_lt hlt)
    (by rw [hslot]; exact hne))).1
  rw [hslot] at hwrite hdata
  have hused := hy.used_write hdata (off % bsize) (src.take m)
  rw [List.length_drop]
  refine h.next hx (htouch.trans hx hwrite) hbn hm ?_ ?_
  · intro k hk
    show (x.bmap sb (off / bsize)).2.d.addrs k = _
    unfold Img.bmap
    rw [if_pos hbn]
    have hcases := hx.ensured (off / bsize)
    generalize x.ensure sb (off / bsize) = r at hcases ⊢
    cases hcases with
    | held => rfl
    | full => rfl
    | fresh b hvac hfree =>
      rw [Img.take_d, if_pos (by omega), x.d.addrs_setAddr_of_ne hk]
  · intro c
    rw [freeBlocks_congr hused]
    unfold Img.bmap at hne ⊢
    rw [if_pos hbn] at hne ⊢
    have hdir := Img.slot_direct x (k := off / bsize) (by omega)
    have hcases := hx.ensured (off / bsize)
    generalize x.ensure sb (off / bsize) = r at hcases hne ⊢
    cases hcases with
    | held hs => rw [if_neg (hdir ▸ hs), Nat.zero_add]
    | full => exact absurd rfl hne
    | fresh b hvac hfree =>
      rw [if_pos (hdir ▸ hvac), freeBlocks_take hfree fun c hc =>
        hx.used_take (k := off / bsize) (fun hgt => by omega) hc, Nat.add_comm,
        List.getElem?_cons_succ]

/-- One pass of the loop: a block and the bytes for it. -/
theorem IsFile.writeStep (hx : IsFile sb tab i x)
    (hok : IndirectOk sb tab i x off src.length) (hlen : 0 < src.length)
    (hm : m = min src.length (bsize - off % bsize))
    (hne : (x.bmap sb (off / bsize)).1 ≠ 0) :
    Touch sb tab i x ((x.bmap sb (off / bsize)).2.write
        (x.bmap sb (off / bsize)).1 (off % bsize) (src.take m))
      ∧ IndirectOk sb tab i ((x.bmap sb (off / bsize)).2.write
        (x.bmap sb (off / bsize)).1 (off % bsize) (src.take m))
        (off + m) (src.drop m).length := by
  obtain ⟨htouch, hslot⟩ := hx.bmap_touch (off / bsize)
    fun hge hlt => hok.fit hlen hge hlt
  obtain ⟨hlt, hslot⟩ := hslot hne
  have hwrite := (hx.touch htouch).write_touch (slotOf_lt hlt) (slotOf_ne _)
    (by rw [hslot]; exact hne) (off % bsize) (src.take m)
  rw [hslot] at hwrite
  refine ⟨htouch.trans hx hwrite, ?_⟩
  by_cases hbn : off / bsize < ndirect
  · exact hok.next_direct hx hbn hm hne
  · -- from here on the file has its indirect block
    have hind : (x.bmap sb (off / bsize)).2.d.addrs ndirect ≠ 0 :=
      addrs_ne_of_entry (off / bsize) (by omega) (by rw [hslot]; exact hne)
    exact fun h0 => absurd h0 hind

theorem IsFile.writeLoop_touch (n : Nat) (hx : IsFile sb tab i x)
    (hok : IndirectOk sb tab i x off src.length) :
    Touch sb tab i x (x.writeLoop sb n off src).2 := by
  induction n generalizing x off src with
  | zero => exact .refl hx.owns
  | succ n ih =>
    unfold Img.writeLoop
    split
    next => exact .refl hx.owns
    next hlen =>
      dsimp only
      split
      next => exact (hx.bmap_touch _ fun hge hlt => hok.fit (by omega) hge hlt).1
      next hne =>
        obtain ⟨hstep, hnext⟩ := hx.writeStep hok (by omega) rfl hne
        exact hstep.trans hx (ih (hx.touch hstep) hnext)

theorem Img.bmap_lt (h : (x.bmap sb bn).1 ≠ 0) : bn < maxFile := by
  unfold Img.bmap at h
  unfold maxFile
  split at h
  next => omega
  next =>
    split at h
    next => omega
    next => exact absurd rfl h

/-- The loop ends behind the last byte, and within what a file can hold. -/
theorem writeLoop_off {off' : Nat} (hn : src.length ≤ n)
    (h : (x.writeLoop sb n off src).1 = some off') :
    off' = off + src.length ∧ (0 < src.length → off' ≤ maxFile * bsize) := by
  induction n generalizing x off src with
  | zero =>
    cases h
    exact ⟨by omega, fun hpos => by omega⟩
  | succ n ih =>
    unfold Img.writeLoop at h
    split at h
    next hlen =>
      cases h
      exact ⟨by omega, fun hpos => by omega⟩
    next hlen =>
      dsimp only at h
      split at h
      next => cases h
      next hne =>
        have hmod : off % bsize < bsize := Nat.mod_lt _ (by unfold bsize; omega)
        have hlt := Img.bmap_lt hne
        obtain ⟨hoff, hle⟩ := ih (by rw [List.length_drop]; omega) h
        rw [List.length_drop] at hoff hle
        refine ⟨by omega, fun _ => ?_⟩
        by_cases hlast : 0 < src.length - min src.length (bsize - off % bsize)
        · exact hle hlast
        · -- the last block of the range
          unfold bsize at *
          omega

/-- `uwritei`, whatever it returns. -/
theorem IsFile.uwritei_touch (hx : IsFile sb tab i x)
    (hok : ¬ (off + src.length) % 4294967296 < off →
      IndirectOk sb tab i x off src.length) :
    Touch sb tab i x (x.uwritei sb i src off).2 := by
  unfold Img.uwritei
  split
  next => exact .refl hx.owns
  next hwrap =>
    have hloop := hx.writeLoop_touch src.length (hok hwrap)
    have hoff : ∀ o, (x.writeLoop sb src.length off src).1 = some o → _ :=
      fun o h => writeLoop_off (Nat.le_refl _) h
    generalize x.writeLoop sb src.length off src = r at hloop hoff ⊢
    obtain ⟨r, y⟩ := r
    cases r with
    | none => exact hloop
    | some off' =>
      dsimp only
      split
      next hgrow =>
        have hle := (hoff off' rfl).2 hgrow.1
        unfold maxFile ndirect nindirect bsize at hle
        refine hloop.trans hx ((hx.touch hloop).putInode_touch rfl ?_)
        dsimp only
        omega
      next => exact hloop

end Xv6FsServer.Fs
