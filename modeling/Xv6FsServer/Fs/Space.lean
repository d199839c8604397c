/-
When a write goes through: the free blocks it needs.

`Img.blocksFor` counts the blocks a range still lacks, the indirect block
among them. A write within what a file can hold goes through if that many
blocks are free.
-/
import Xv6FsServer.Fs.Content

namespace Xv6FsServer.Fs

open Lib Function

variable {sb : Superblock} {tab : Nat → DInode} {x y : Img} {i k : Nat}
variable {off n : Nat} {src : List UInt8}

/-- How many of the data blocks `bn`, ..., `bn + n - 1` are unmapped. -/
def Img.unmapped (x : Img) : Nat → Nat → Nat
  | _, 0 => 0
  | bn, n + 1 =>
    (if x.slot (slotOf bn) = 0 then 1 else 0) + x.unmapped (bn + 1) n

/-- The blocks that the data blocks `bn`, ..., `bn + n - 1` still need. -/
def Img.blocksFor (x : Img) (bn n : Nat) : Nat :=
  x.unmapped bn n
    + if x.d.addrs ndirect = 0 ∧ 0 < n ∧ ndirect < bn + n then 1 else 0

/-- How many blocks the `n` bytes at `off` lie in. -/
def blockCount (off n : Nat) : Nat :=
  if n = 0 then 0 else (off + n - 1) / bsize - off / bsize + 1

@[simp] theorem Img.blocksFor_zero (x : Img) (bn : Nat) : x.blocksFor bn 0 = 0 := by
  unfold blocksFor
  rw [if_neg (by omega)]
  rfl

theorem blockCount_step {m : Nat} (hm : m = min n (bsize - off % bsize))
    (hn : 0 < n) :
    blockCount off n = blockCount (off + m) (n - m) + 1
      ∧ (0 < n - m → (off + m) / bsize = off / bsize + 1) := by
  have hmod : off % bsize < bsize := Nat.mod_lt _ (by unfold bsize; omega)
  unfold blockCount
  by_cases hmore : n - m = 0
  · rw [if_neg (by omega), if_pos hmore]
    refine ⟨?_, fun h => by omega⟩
    unfold bsize at *
    omega
  · rw [if_neg (by omega), if_neg hmore]
    have hnext : (off + m) / bsize = off / bsize + 1 := by
      unfold bsize at *
      omega
    refine ⟨?_, fun _ => hnext⟩
    rw [hnext, show off + m + (n - m) - 1 = off + n - 1 by omega]
    unfold bsize at *
    omega

theorem unmapped_le {bn : Nat}
    (h : ∀ b, bn ≤ b → x.slot (slotOf b) ≠ 0 → y.slot (slotOf b) ≠ 0) :
    y.unmapped bn n ≤ x.unmapped bn n := by
  induction n generalizing bn with
  | zero => exact Nat.le_refl _
  | succ n ih =>
    unfold Img.unmapped
    have hrest : y.unmapped (bn + 1) n ≤ x.unmapped (bn + 1) n :=
      ih fun b hb => h b (by omega)
    have hfirst := h bn (Nat.le_refl _)
    split <;> split <;> omega

-- ==== ensure

theorem IsFile.ensure_free (hx : IsFile sb tab i x)
    (hind : ndirect < k → x.d.addrs ndirect ≠ 0) :
    (freeBlocks sb x.disk).length ≤ (freeBlocks sb (x.ensure sb k).2.disk).length
        + (if x.slot k = 0 then 1 else 0)
      ∧ ((if x.slot k = 0 then 1 else 0) ≤ (freeBlocks sb x.disk).length →
          (x.ensure sb k).1 ≠ 0) := by
  have hcases := hx.ensured k
  generalize x.ensure sb k = r at hcases ⊢
  cases hcases with
  | held h => exact ⟨Nat.le_add_right .., fun _ => h⟩
  | full h hfree =>
    refine ⟨Nat.le_add_right .., fun hle => ?_⟩
    rw [if_pos h] at hle
    rw [lowestFree_eq, List.getElem?_eq_none_iff] at hfree
    omega
  | fresh b h hfree =>
    have htake := freeBlocks_take hfree fun c hc =>
      hx.used_take (k := k) (b := b) hind hc
    rw [if_pos h, htake, List.length_cons]
    refine ⟨Nat.le_refl _, fun _ => ?_⟩
    obtain ⟨hlt, hunused⟩ := lowestFree_some hfree
    have h1 := (hx.owns.free hunused).1
    have h2 := hx.layout.bitmapArea b hlt
    show b ≠ 0
    omega

/-- What `bmap` takes, and when it succeeds. -/
theorem IsFile.bmap_free (hx : IsFile sb tab i x) (bn : Nat)
    (hfit : ndirect ≤ bn → bn < maxFile → Fit sb tab i x) :
    (freeBlocks sb x.disk).length ≤ (freeBlocks sb (x.bmap sb bn).2.disk).length
        + x.blocksFor bn 1
      ∧ (bn < maxFile → x.blocksFor bn 1 ≤ (freeBlocks sb x.disk).length →
          (x.bmap sb bn).1 ≠ 0) := by
  have hneed : x.blocksFor bn 1 = (if x.slot (slotOf bn) = 0 then 1 else 0)
      + if x.d.addrs ndirect = 0 ∧ 0 < 1 ∧ ndirect < bn + 1 then 1 else 0 := rfl
  rw [hneed]
  unfold Img.bmap
  by_cases hdirect : bn < ndirect
  · rw [if_pos hdirect, slotOf_direct hdirect,
      if_neg (show ¬ (x.d.addrs ndirect = 0 ∧ 0 < 1 ∧ ndirect < bn + 1) by omega)]
    obtain ⟨h1, h2⟩ := hx.ensure_free (k := bn) (fun h => by omega)
    exact ⟨h1, fun _ => h2⟩
  · rw [if_neg hdirect]
    by_cases hbn : bn - ndirect < nindirect
    · rw [if_pos hbn]
      have hlt : bn < maxFile := by
        unfold maxFile
        omega
      have hsd := Img.slot_direct x (Nat.le_refl ndirect)
      obtain ⟨htouch, hslot⟩ := hx.ensure_touch (k := ndirect)
        (lt_nslots_of_le (Nat.le_refl _)) (fun h => by omega)
        (fun _ => hfit (by omega) hlt)
      obtain ⟨hused, hsome⟩ := hx.ensure_free (k := ndirect) (fun h => by omega)
      rw [hsd] at hused hsome
      have hwant : (if x.d.addrs ndirect = 0 ∧ 0 < 1 ∧ ndirect < bn + 1
          then 1 else 0) = if x.d.addrs ndirect = 0 then 1 else 0 :=
        if_congr (and_iff_left (by omega)) rfl rfl
      rw [hwant]
      generalize x.ensure sb ndirect = r at htouch hslot hused hsome ⊢
      obtain ⟨a, y⟩ := r
      dsimp only at htouch hslot hused hsome ⊢
      by_cases h0 : a = 0
      · rw [if_pos h0]
        exact ⟨by omega, fun _ hle => absurd h0 (hsome (by omega))⟩
      · rw [if_neg h0]
        have hind : y.d.addrs ndirect ≠ 0 := by
          rw [← Img.slot_direct _ (Nat.le_refl _), hslot h0]
          exact h0
        obtain ⟨hused', hsome'⟩ := (hx.touch htouch).ensure_free
          (k := slotOf bn) (fun _ => hind)
        have hkeep : (if y.slot (slotOf bn) = 0 then 1 else 0)
            ≤ if x.slot (slotOf bn) = 0 then 1 else 0 := by
          have := htouch.keep (slotOf bn) (slotOf_lt hlt)
          split <;> split <;> omega
        exact ⟨by omega, fun _ hle => hsome' (by omega)⟩
    · rw [if_neg hbn]
      refine ⟨Nat.le_add_right _ _, fun hlt => ?_⟩
      unfold maxFile at hlt
      omega

-- ==== ranges

/-- A range of a write that needs no more blocks than are free. -/
theorem IsFile.writeLoop_some (n : Nat)
    (hx : IsFile sb tab i x) (hok : IndirectOk sb tab i x off src.length)
    (hend : off + src.length ≤ maxFile * bsize)
    (hfree : x.blocksFor (off / bsize) (blockCount off src.length)
      ≤ (freeBlocks sb x.disk).length) :
    (x.writeLoop sb n off src).1 ≠ none := by
  induction n generalizing x off src with
  | zero => exact Option.some_ne_none _
  | succ n ih =>
    unfold Img.writeLoop
    by_cases hlen : src.length = 0
    · rw [if_pos hlen]
      exact Option.some_ne_none _
    rw [if_neg hlen]
    generalize hm : min src.length (bsize - off % bsize) = m
    obtain ⟨hcount, hdiv⟩ := blockCount_step hm.symm (by omega)
    have hfit : ndirect ≤ off / bsize → off / bsize < maxFile →
        Fit sb tab i x := fun hge hlt => hok.fit (by omega) hge hlt
    obtain ⟨hused, hsome⟩ := hx.bmap_free (off / bsize) hfit
    obtain ⟨htouch, hslot⟩ := hx.bmap_touch (off / bsize) hfit
    have hbn : off / bsize < maxFile := by
      refine (Nat.div_lt_iff_lt_mul (by unfold bsize; omega)).mpr ?_
      omega
    rw [hcount] at hfree
    generalize hc : blockCount (off + m) (src.length - m) = c at hcount hfree
    have hmore : x.blocksFor (off / bsize) (c + 1)
        = (if x.slot (slotOf (off / bsize)) = 0 then 1 else 0)
          + x.unmapped (off / bsize + 1) c
          + if x.d.addrs ndirect = 0 ∧ 0 < c + 1
              ∧ ndirect < off / bsize + (c + 1) then 1 else 0 := rfl
    have hone : x.blocksFor (off / bsize) 1
        = (if x.slot (slotOf (off / bsize)) = 0 then 1 else 0)
          + if x.d.addrs ndirect = 0 ∧ 0 < 1 ∧ ndirect < off / bsize + 1
            then 1 else 0 := rfl
    have hle : x.blocksFor (off / bsize) 1 ≤ x.blocksFor (off / bsize) (c + 1) := by
      rw [hmore, hone]
      split <;> split <;> split <;> omega
    have hne := hsome hbn (by omega)
    rw [if_neg hne]
    obtain ⟨hstep, hnext⟩ := hx.writeStep hok (by omega) hm.symm hne
    obtain ⟨-, hslot⟩ := hslot hne
    have hy := hx.touch htouch
    have hdata := (hy.owns.area (hy.holds (slotOf_lt hbn)
      (by rw [hslot]; exact hne))).1
    rw [hslot] at hdata
    have hwfree := freeBlocks_congr
      (hy.used_write hdata (off % bsize) (src.take m))
    refine ih (hx.touch hstep) hnext (by rw [List.length_drop]; omega) ?_
    rw [List.length_drop, hc, hwfree]
    by_cases hc0 : c = 0
    · rw [hc0, Img.blocksFor_zero]
      exact Nat.zero_le _
    have hrest : 0 < src.length - m := by
      by_contra h0
      refine hc0 ?_
      rw [← hc]
      exact if_pos (by omega)
    rw [hdiv hrest]
    generalize hw : (x.bmap sb (off / bsize)).2.write
      (x.bmap sb (off / bsize)).1 (off % bsize) (src.take m) = w at hstep ⊢
    have hunm : w.unmapped (off / bsize + 1) c
        ≤ x.unmapped (off / bsize + 1) c := by
      refine unmapped_le fun b _ h0 => ?_
      rw [hstep.keep _ (slotOf_lt (slotOf_lt_of_slot h0)) h0]
      exact h0
    -- the indirect block is taken once
    have hentry : ndirect ≤ off / bsize → w.d.addrs ndirect ≠ 0 := by
      intro hge
      rw [← hw]
      exact addrs_ne_of_entry (x := (x.bmap sb (off / bsize)).2)
        (off / bsize) hge (by rw [hslot]; exact hne)
    have hkeep : x.d.addrs ndirect ≠ 0 → w.d.addrs ndirect ≠ 0 := by
      intro h0
      have hsd : ∀ z : Img, z.slot ndirect = z.d.addrs ndirect :=
        fun z => Img.slot_direct z (Nat.le_refl _)
      have := hstep.keep ndirect (lt_nslots_of_le (Nat.le_refl _))
        (by rw [hsd]; exact h0)
      rw [hsd, hsd] at this
      rw [this]
      exact h0
    have hpart : w.blocksFor (off / bsize + 1) c
        + x.blocksFor (off / bsize) 1 ≤ x.blocksFor (off / bsize) (c + 1) := by
      rw [hmore, hone]
      unfold Img.blocksFor
      split <;> split <;> split <;> split <;> omega
    omega

theorem IsFile.uwritei_some
    (hx : IsFile sb tab i x) (hok : IndirectOk sb tab i x off src.length)
    (hend : off + src.length ≤ maxFile * bsize)
    (hfree : x.blocksFor (off / bsize) (blockCount off src.length)
      ≤ (freeBlocks sb x.disk).length) :
    (x.uwritei sb i src off).1 = src.length := by
  have hwrap : ¬ (off + src.length) % 4294967296 < off := by
    rw [Nat.mod_eq_of_lt]
    · omega
    · unfold maxFile ndirect nindirect bsize at hend
      omega
  have hsome := hx.writeLoop_some src.length hok hend hfree
  unfold Img.uwritei
  rw [if_neg hwrap]
  generalize x.writeLoop sb src.length off src = r at hsome ⊢
  obtain ⟨r, y⟩ := r
  cases r with
  | none => exact absurd rfl hsome
  | some off' =>
    dsimp only
    split
    next => rfl
    next => rfl

end Xv6FsServer.Fs
