/-
What `iappend` does to the image.

The bitmap is written last; until then the image is looked at as if it were
there, with the blocks below the counter marked (`seal`). On that disk taking
the next block is what the kernel's `balloc` does: the lowest free block, which
has only zeros in it. So an append is a write at the end of a file in the sense
of the kernel's `writei`, and the accounts stay exact.
-/
import Xv6FsServer.Mkfs.Model
import Xv6FsServer.Kfs.Proofs.Writing

namespace Xv6FsServer.Mkfs

open Lib Fs Function Img Meets

variable {s t : Mk} {din : DInode} {tab : Nat → DInode} {i k b : Nat}
variable {sec : Nat} {d : DInode}

-- ==== the layout

theorem layout : Layout sb where
  inodestart := by decide
  ninodes := by decide
  inodeArea := by
    intro i hi
    have hi : i < 200 := hi
    show i / 8 + 32 < 58
    omega
  bitmapArea := by
    intro b hb
    have hb : b < 1000 := hb
    show b / 4096 + 58 < 59
    omega
  size_pos := by decide
  size := by decide

theorem bblock_sb (hb : b < fsSize) : bblock b sb = sb.bmapstart := by
  have hb : b < 1000 := hb
  show b / 4096 + 58 = 58
  omega

theorem iblock_lt (hi : i < ninodes) : iblock i sb < sb.bmapstart := layout.inodeArea i hi

-- ==== the bitmap

/-- The bitmap with the blocks below `u` marked. -/
def bits (u : Nat) : Block := (List.range u).foldl setBit Bytes.zero

theorem bits_succ (u : Nat) : bits (u + 1) = setBit (bits u) u := by
  unfold bits
  rw [List.range_succ, List.foldl_append]
  rfl

theorem bit_bits {u : Nat} (hu : u ≤ bpb) (j : Nat) : bit (bits u) j = decide (j < u) := by
  induction u with
  | zero =>
    show bit Bytes.zero j = _
    unfold bit
    rw [Bytes.get_zero]
    simp
  | succ u ih =>
    rw [bits_succ, bit_setBit (by omega), ih (by omega), ← Bool.decide_or]
    exact decide_eq_decide.mpr (by omega)

/-- The image as it would be with its bitmap. -/
def Mk.seal (s : Mk) : Disk := update s.disk sb.bmapstart (bits s.freeblock)

theorem seal_of_ne (h : b ≠ sb.bmapstart) : s.seal b = s.disk b := update_of_ne h ..

theorem seal_write (h : b ≠ sb.bmapstart) (v : Block) :
    update s.seal b v = Mk.seal { s with disk := update s.disk b v } :=
  update_comm (Ne.symm h) ..

theorem used_seal (hs : s.freeblock ≤ fsSize) (hb : b < fsSize) :
    used sb s.seal b = decide (b < s.freeblock) := by
  have hsize : fsSize = 1000 := rfl
  have hbpb : bpb = 4096 := rfl
  unfold used
  rw [bblock_sb hb]
  unfold Mk.seal
  rw [update_self, bit_bits (by omega), Nat.mod_eq_of_lt (by omega)]

/-- The counter is at the lowest free block. -/
theorem lowestFree_seal (h : s.freeblock < fsSize) :
    lowestFree sb s.seal = some s.freeblock := by
  have hfree : used sb s.seal s.freeblock = false := by
    rw [used_seal (Nat.le_of_lt h) h]
    simp
  cases hlow : lowestFree sb s.seal with
  | none =>
    have hall := first_none hlow s.freeblock (Nat.zero_le _) (by
      show _ < 0 + fsSize
      omega)
    rw [hfree] at hall
    cases hall
  | some b =>
    obtain ⟨-, hlt, hb, hmin⟩ := first_some hlow
    have hlt : b < fsSize := by
      have hlt : b < 0 + fsSize := hlt
      omega
    rw [used_seal (Nat.le_of_lt h) hlt, Bool.not_eq_true', decide_eq_false_iff_not] at hb
    have heq : ¬ s.freeblock < b := by
      intro hless
      have hused := hmin s.freeblock (Nat.zero_le _) hless
      rw [hfree] at hused
      cases hused
    congr 1
    omega

/-- A state between two appends: what has not been taken is all zeros. -/
structure Ready (s : Mk) : Prop where
  sectors : s.sectors = fsSize
  low : nmeta ≤ s.freeblock
  high : s.freeblock ≤ fsSize
  zero : ∀ b, s.freeblock ≤ b → b < fsSize → s.disk b = Bytes.zero

/-- The next block, out of the counter. -/
def Mk.taken (s : Mk) : Mk := { s with freeblock := s.freeblock + 1 }

/-- Counting on is claiming a block. -/
theorem claim_seal (hr : Ready s) (hlt : s.freeblock < fsSize) (k : Nat) :
    (Img.mk s.seal din).claim sb k s.freeblock
      = (Img.mk s.taken.seal din).assign k s.freeblock := by
  have hmeta : nmeta = 59 := rfl
  have hbmap : sb.bmapstart = 58 := rfl
  have hsize : fsSize = 1000 := rfl
  have hbpb : bpb = 4096 := rfl
  have hlow := hr.low
  have hclear : update s.seal s.freeblock Bytes.zero = s.seal := by
    apply update_eq_self_iff.mpr
    rw [seal_of_ne (by omega), hr.zero _ (Nat.le_refl _) hlt]
  have hmark : markUsed sb s.seal s.freeblock = s.taken.seal := by
    unfold markUsed
    rw [bblock_sb hlt, Nat.mod_eq_of_lt (by omega)]
    unfold Mk.seal Mk.taken
    rw [update_self, update_idem, bits_succ]
  unfold claim clear take
  rw [hclear, hmark]

theorem Ready.taken (hr : Ready s) (hlt : s.freeblock < fsSize) : Ready s.taken := by
  refine ⟨hr.sectors, ?_, hlt, fun b hb => hr.zero b ?_⟩
  · exact Nat.le_succ_of_le hr.low
  · exact Nat.le_of_succ_le hb

/-- A block was taken for the slot `k`, or it was there; the file reads as
before. -/
structure Taken (tab : Nat → DInode) (i : Nat) (x : Img) (k a : Nat) (y : Img) :
    Prop where
  mapping : Kfs.Mapping sb tab i x k a y
  byte : y.byte = x.byte
  others : ∀ l, l ≠ k → y.slot l = x.slot l

theorem Taken.held {x : Img} (hx : IsFile sb tab i x) (h0 : x.slot k ≠ 0) :
    Taken tab i x k (x.slot k) x :=
  ⟨.held hx h0, rfl, fun _ _ => rfl⟩

theorem Taken.next (hr : Ready s) (hlt : s.freeblock < fsSize)
    (hx : IsFile sb tab i ⟨s.seal, din⟩) (hk : k < nslots)
    (h0 : (Img.mk s.seal din).slot k = 0) (hind : ndirect < k → din.addrs ndirect ≠ 0) :
    Taken tab i ⟨s.seal, din⟩ k s.freeblock
      ((Img.mk s.taken.seal din).assign k s.freeblock) := by
  have hlow := lowestFree_seal hlt
  obtain ⟨hsize, hfree⟩ := lowestFree_some hlow
  have hclaim : Claims sb ⟨s.seal, din⟩ k s.freeblock := ⟨hk, h0, hind, hfree, hsize⟩
  rw [← claim_seal hr hlt k]
  refine ⟨.claimed hx hk h0 hind hlow, hclaim.byte hx, fun l hl => ?_⟩
  rw [hclaim.slot hx, if_neg hl]

-- ==== blockFor

/-- The blocks that block `bn` of the file still needs. -/
def cost (x : Img) (bn : Nat) : Nat :=
  (if x.slot (slotOf bn) = 0 then 1 else 0)
    + if ndirect ≤ bn ∧ x.d.addrs ndirect = 0 then 1 else 0

/-- Block `bn` of the file is the block `a`, and the file reads as before. -/
structure Grown (tab : Nat → DInode) (i : Nat) (x : Img) (bn a : Nat) (y : Img) :
    Prop where
  mapping : Kfs.Mapping sb tab i x (slotOf bn) a y
  byte : y.byte = x.byte
  others : ∀ l, l ≠ slotOf bn → l ≠ ndirect → y.slot l = x.slot l
  indirect : y.d.addrs ndirect ≠ 0 ↔ ndirect ≤ bn ∨ x.d.addrs ndirect ≠ 0

theorem Grown.direct {x y : Img} {bn a : Nat} (hbn : bn < ndirect)
    (h : Taken tab i x (slotOf bn) a y) : Grown tab i x bn a y := by
  refine ⟨h.mapping, h.byte, fun l hl _ => h.others l hl, ?_⟩
  have hslot := h.others ndirect (Ne.symm (slotOf_ne bn))
  rw [slot_direct y (Nat.le_refl _), slot_direct x (Nat.le_refl _)] at hslot
  rw [hslot]
  constructor
  · exact Or.inr
  · exact fun hor => hor.resolve_left (by omega)

theorem Grown.entry {x y z : Img} {bn ind a : Nat} (hx : IsFile sb tab i x)
    (hbn : ndirect ≤ bn) (hy : Taken tab i x ndirect ind y)
    (hz : Taken tab i y (slotOf bn) a z) : Grown tab i x bn a z := by
  refine ⟨hy.mapping.entry hx hbn hz.mapping, hz.byte.trans hy.byte,
    fun l hl hne => (hz.others l hl).trans (hy.others l hne), ?_⟩
  have hslot := hz.others ndirect (Ne.symm (slotOf_ne bn))
  rw [hy.mapping.slot, slot_direct z (Nat.le_refl _)] at hslot
  rw [hslot]
  exact ⟨fun _ => Or.inl hbn, fun _ => hy.mapping.ne_zero⟩

/-- What `blockFor` leaves. A block past the end of the image is one that the
next read fails on, for the reason `P`. -/
structure Chosen (P : Prop) (tab : Nat → DInode) (i : Nat) (s : Mk) (din : DInode)
    (bn : Nat) (r : DInode × Nat) (t : Mk) : Prop where
  freeinode : t.freeinode = s.freeinode
  sectors : t.sectors = fsSize
  beyond : fsSize ≤ r.2 → P
  ready : r.2 < fsSize → Ready t
  freeblock : r.2 < fsSize → t.freeblock = s.freeblock + cost ⟨s.seal, din⟩ bn
  grown : r.2 < fsSize → Grown tab i ⟨s.seal, din⟩ bn r.2 ⟨t.seal, r.1⟩

section

variable {P : Prop} {bn : Nat}

theorem rsect_spec {Q : Block → Mk → Prop} (hsec : s.sectors = fsSize)
    (hP : fsSize ≤ sec → P) (hQ : sec < fsSize → Q (s.disk sec) s) :
    Safe (fun _ => P) (rsect sec) s Q := by
  apply get_bind
  rw [hsec]
  split
  next hle => exact fault (hP hle)
  next hlt => exact ret (hQ (by omega))

theorem nextBlock_spec {Q : Nat → Mk → Prop} (h : Q s.freeblock s.taken) :
    Safe (fun _ => P) nextBlock s Q := by
  apply get_bind
  apply modify_bind
  exact ret h

/-- What `slotFor` leaves. -/
structure Slotted (P : Prop) (tab : Nat → DInode) (i : Nat) (s : Mk) (din : DInode)
    (k : Nat) (d : DInode) (t : Mk) : Prop where
  freeinode : t.freeinode = s.freeinode
  sectors : t.sectors = fsSize
  beyond : fsSize ≤ d.addrs k → P
  ready : d.addrs k < fsSize → Ready t
  freeblock : d.addrs k < fsSize →
    t.freeblock = s.freeblock + if din.addrs k = 0 then 1 else 0
  taken : d.addrs k < fsSize → Taken tab i ⟨s.seal, din⟩ k (d.addrs k) ⟨t.seal, d⟩

theorem slotFor_spec (hr : Ready s) (hx : IsFile sb tab i ⟨s.seal, din⟩)
    (hk : k ≤ ndirect) (hP : din.addrs k = 0 → fsSize ≤ s.freeblock → P) :
    Safe (fun _ => P) (slotFor din k) s (Slotted P tab i s din k) := by
  have hslot : (mk s.seal din).slot k = din.addrs k := slot_direct _ hk
  unfold slotFor
  split
  next h0 =>
    apply map
    apply nextBlock_spec
    have hself : (din.setAddr k s.freeblock).addrs k = s.freeblock :=
      din.addrs_setAddr_self k _
    refine ⟨rfl, hr.sectors, ?_, ?_, fun _ => ?_, ?_⟩
    · rw [hself]
      exact hP h0
    · rw [hself]
      exact hr.taken
    · rw [if_pos h0]
      rfl
    · rw [hself]
      intro hlt
      have htaken := Taken.next hr hlt hx (lt_nslots_of_le hk) (hslot.trans h0)
        (fun hgt => by omega)
      rw [assign_direct _ hk] at htaken
      exact htaken
  next h0 =>
    apply ret
    have hne : (mk s.seal din).slot k ≠ 0 := by
      rw [hslot]
      exact h0
    have harea := (hx.owns.area (hx.holds (lt_nslots_of_le hk) hne)).2
    rw [hslot] at harea
    have harea : din.addrs k < fsSize := harea
    refine ⟨rfl, hr.sectors, fun h => by omega, fun _ => hr, fun _ => ?_, fun _ => ?_⟩
    · rw [if_neg h0]
      rfl
    · have hheld := Taken.held hx hne
      rw [hslot] at hheld
      exact hheld

theorem blockFor_direct (hr : Ready s) (hx : IsFile sb tab i ⟨s.seal, din⟩)
    (hbn : bn < ndirect) (hP : fsSize < s.freeblock + cost ⟨s.seal, din⟩ bn → P) :
    Safe (fun _ => P) (blockFor din bn) s (Chosen P tab i s din bn) := by
  have hslot : (mk s.seal din).slot (slotOf bn) = din.addrs bn := by
    rw [slotOf_direct hbn]
    exact slot_direct _ (by omega)
  have hcost : cost ⟨s.seal, din⟩ bn = if din.addrs bn = 0 then 1 else 0 := by
    unfold cost
    rw [if_neg (show ¬ (ndirect ≤ bn ∧ _) from fun h => by omega), hslot]
    rfl
  rw [hcost] at hP
  unfold blockFor
  rw [if_pos hbn]
  refine (slotFor_spec (P := P) hr hx (Nat.le_of_lt hbn) fun h0 hle => ?_).seq
    fun d t h => ?_
  · rw [if_pos h0] at hP
    exact hP (by omega)
  · apply ret
    refine ⟨h.freeinode, h.sectors, h.beyond, h.ready, ?_, fun hlt => ?_⟩
    · rw [hcost]
      exact h.freeblock
    · apply Grown.direct hbn
      rw [slotOf_direct hbn]
      exact h.taken hlt

/-- The indirect block is there; the entry may be missing. -/
theorem entryFor_spec (hr : Ready s) (hx : IsFile sb tab i ⟨s.seal, d⟩)
    (hle : ndirect ≤ bn) (hbn : bn < maxFile) (hind : d.addrs ndirect ≠ 0)
    (hP : (Img.mk s.seal d).slot (slotOf bn) = 0 → fsSize ≤ s.freeblock → P) :
    Safe (fun _ => P)
      (do
        let indirect ← rsect (d.addrs ndirect)
        if indirect.le32 (4 * (bn - ndirect)) = 0 then do
          let b ← nextBlock
          wsect (d.addrs ndirect) (indirect.put32 (4 * (bn - ndirect)) b)
          pure (d, b)
        else pure (d, indirect.le32 (4 * (bn - ndirect)))) s
      fun r t => t.freeinode = s.freeinode ∧ t.sectors = fsSize ∧ (fsSize ≤ r.2 → P)
        ∧ (r.2 < fsSize → Ready t ∧ t.freeblock = s.freeblock
          + (if (Img.mk s.seal d).slot (slotOf bn) = 0 then 1 else 0)
          ∧ Taken tab i ⟨s.seal, d⟩ (slotOf bn) r.2 ⟨t.seal, r.1⟩) := by
  have hmeta : nmeta = 59 := rfl
  have hbmap : sb.bmapstart = 58 := rfl
  obtain ⟨hlow, hhigh⟩ := hx.indirect hind
  have hlow : nmeta ≤ d.addrs ndirect := hlow
  have hhigh : d.addrs ndirect < fsSize := hhigh
  have hslot : (mk s.seal d).slot (slotOf bn)
      = (s.disk (d.addrs ndirect)).le32 (4 * (bn - ndirect)) := by
    rw [slot_entry _ hle hind]
    dsimp only
    rw [seal_of_ne (by omega)]
  have hlt : slotOf bn < nslots := slotOf_lt hbn
  have hgt : ndirect < slotOf bn := by
    rw [slotOf_entry hle]
    omega
  apply Meets.bind
  refine rsect_spec hr.sectors (fun h => by omega) fun _ => ?_
  rw [← hslot]
  split
  next h0 =>
    apply Meets.bind
    apply nextBlock_spec
    apply modify_bind
    apply ret
    have hsec : max s.sectors (d.addrs ndirect + 1) = fsSize := by
      rw [hr.sectors]
      omega
    refine ⟨rfl, hsec, hP h0, fun hfree => ⟨⟨hsec, ?_, hfree, fun c h1 h2 => ?_⟩, ?_, ?_⟩⟩
    · exact Nat.le_succ_of_le hr.low
    · -- the indirect block has been taken before
      have hused := hx.owns.marked (hx.holds (lt_nslots_of_le (Nat.le_refl ndirect))
        (by rw [slot_direct _ (Nat.le_refl _)]; exact hind))
      rw [slot_direct _ (Nat.le_refl _)] at hused
      rw [used_seal hr.high hhigh, decide_eq_true_eq] at hused
      have h1 : s.freeblock + 1 ≤ c := h1
      show update _ _ _ c = _
      rw [update_of_ne (by omega)]
      exact hr.zero c (by omega) h2
    · rfl
    · have htaken := Taken.next hr hfree hx hlt h0 (fun _ => hind)
      rw [assign_entry _ hgt, slotOf_entry hle,
        show bn + 1 - (ndirect + 1) = bn - ndirect by omega] at htaken
      dsimp only at htaken
      rw [seal_of_ne (by omega), seal_write (by omega), ← slotOf_entry hle] at htaken
      exact htaken
  next h0 =>
    apply ret
    have hheld := hx.holds hlt h0
    have harea : (mk s.seal d).slot (slotOf bn) < fsSize := (hx.owns.area hheld).2
    exact ⟨rfl, hr.sectors, fun h => by omega, fun _ => ⟨hr, rfl, Taken.held hx h0⟩⟩

theorem blockFor_entry (hr : Ready s) (hx : IsFile sb tab i ⟨s.seal, din⟩)
    (hle : ndirect ≤ bn) (hbn : bn < maxFile)
    (hP : fsSize < s.freeblock + cost ⟨s.seal, din⟩ bn → P) :
    Safe (fun _ => P) (blockFor din bn) s (Chosen P tab i s din bn) := by
  unfold blockFor
  rw [if_neg (by omega)]
  refine (slotFor_spec (P := P) hr hx (Nat.le_refl _) fun h0 hfull => ?_).seq
    fun d t h => ?_
  · refine hP ?_
    unfold cost
    rw [if_pos (show ndirect ≤ bn ∧ din.addrs ndirect = 0 from ⟨hle, h0⟩)]
    omega
  · by_cases hind : fsSize ≤ d.addrs ndirect
    · apply Meets.bind
      exact rsect_spec h.sectors h.beyond fun hlt => by omega
    · have hind : d.addrs ndirect < fsSize := by omega
      have htaken := h.taken hind
      have hy := hx.touch htaken.mapping.spends.touch
      have hslot := htaken.others (slotOf bn) (slotOf_ne bn)
      have hcost : cost ⟨s.seal, din⟩ bn = (if din.addrs ndirect = 0 then 1 else 0)
          + if (mk t.seal d).slot (slotOf bn) = 0 then 1 else 0 := by
        unfold cost
        rw [hslot, Nat.add_comm]
        congr 1
        exact if_congr (and_iff_right hle) rfl rfl
      have hfree := h.freeblock hind
      refine (entryFor_spec (P := P) (h.ready hind) hy hle hbn htaken.mapping.ne_zero
        fun h0 hfull => ?_).mono fun r u hu => ?_
      · rw [if_pos h0] at hcost
        exact hP (by omega)
      · obtain ⟨h1, h2, h3, h4⟩ := hu
        refine ⟨h1.trans h.freeinode, h2, h3, fun hlt => (h4 hlt).1, fun hlt => ?_,
          fun hlt => ?_⟩
        · have := (h4 hlt).2.1
          omega
        · exact Grown.entry hx hle htaken (h4 hlt).2.2

theorem blockFor_spec (hr : Ready s) (hx : IsFile sb tab i ⟨s.seal, din⟩)
    (hbn : bn < maxFile) (hP : fsSize < s.freeblock + cost ⟨s.seal, din⟩ bn → P) :
    Safe (fun _ => P) (blockFor din bn) s (Chosen P tab i s din bn) := by
  by_cases hlt : bn < ndirect
  · exact blockFor_direct hr hx hlt hP
  · exact blockFor_entry hr hx (by omega) hbn hP

end

-- ==== the loop

/-- The blocks of a file of `off` bytes, its indirect block included. -/
def blocksFor (off : Nat) : Nat :=
  (off + bsize - 1) / bsize + if ndirect * bsize < off then 1 else 0

/-- The file has the blocks of its first `off` bytes and no others. -/
structure Full (x : Img) (off : Nat) : Prop where
  block : ∀ bn, bn < maxFile → (x.slot (slotOf bn) ≠ 0 ↔ bn * bsize < off)
  indirect : x.d.addrs ndirect ≠ 0 ↔ ndirect * bsize < off

section

variable {x y : Img} {off m a : Nat}

theorem Full.cost (h : Full x off) (hoff : off / bsize < maxFile) (hm : 0 < m)
    (hfit : off % bsize + m ≤ bsize) :
    blocksFor (off + m) = blocksFor off + cost x (off / bsize) := by
  have hblock := h.block _ hoff
  have hind := h.indirect
  have hb : bsize = 512 := rfl
  have hn : ndirect = 12 := rfl
  rw [hb] at hblock hind hfit
  rw [hn] at hind
  unfold blocksFor Mkfs.cost
  rw [hb, hn]
  -- which of the two blocks are missing is a matter of where `off` lies
  split_ifs <;> omega

theorem Full.grown (h : Full x off) (hm : 0 < m) (hfit : off % bsize + m ≤ bsize)
    (hg : Grown tab i x (off / bsize) a y) :
    Full y (off + m) := by
  have hb : bsize = 512 := rfl
  have hn : ndirect = 12 := rfl
  rw [hb] at hfit
  constructor
  case block =>
    intro bn hbn
    by_cases heq : bn = off / bsize
    · rw [heq, hg.mapping.slot, hb]
      exact ⟨fun _ => by omega, fun _ => hg.mapping.ne_zero⟩
    · rw [hg.others _ (fun hs => heq (slotOf_inj hs)) (slotOf_ne bn), h.block bn hbn]
      rw [hb] at heq ⊢
      omega
  case indirect =>
    rw [hg.indirect, h.indirect, hb, hn]
    omega

/-- Whether a file has its blocks does not depend on what is in them. -/
theorem Full.congr (h : Full x off) (hslot : ∀ l, y.slot l = x.slot l) : Full y off := by
  constructor
  case block =>
    intro bn hbn
    rw [hslot]
    exact h.block bn hbn
  case indirect =>
    rw [← slot_direct y (Nat.le_refl _), hslot, slot_direct x (Nat.le_refl _)]
    exact h.indirect

end

theorem blocksFor_mono {m n : Nat} (h : m ≤ n) : blocksFor m ≤ blocksFor n := by
  unfold blocksFor bsize ndirect
  split_ifs <;> omega

/-- What appending `p` at `off` did. -/
structure Appended (tab : Nat → DInode) (i : Nat) (s : Mk) (din : DInode) (off : Nat)
    (p : List UInt8) (d : DInode) (t : Mk) : Prop where
  ready : Ready t
  freeinode : t.freeinode = s.freeinode
  freeblock : t.freeblock + blocksFor off = s.freeblock + blocksFor (off + p.length)
  full : Full ⟨t.seal, d⟩ (off + p.length)
  laid : Kfs.Laid sb tab i ⟨s.seal, din⟩ off p ⟨t.seal, d⟩
  byte : ∀ o, (Img.mk t.seal d).byte o
    = if off ≤ o ∧ o < off + p.length then p.getD (o - off) 0
      else (Img.mk s.seal din).byte o

/-- A sector that has been taken is written. -/
def Mk.put (s : Mk) (sec : Nat) (buf : Block) : Mk :=
  { s with disk := update s.disk sec buf, sectors := max s.sectors (sec + 1) }

theorem put_self (s : Mk) (sec : Nat) (buf : Block) : (s.put sec buf).disk sec = buf :=
  update_self ..

theorem put_of_ne (h : b ≠ sec) (buf : Block) :
    (s.put sec buf).disk b = s.disk b := update_of_ne h ..

theorem Ready.put (hr : Ready s) (hsec : sec < s.freeblock) (buf : Block) :
    Ready (s.put sec buf) := by
  have hhigh := hr.high
  refine ⟨?_, hr.low, hhigh, fun b hb hlt => ?_⟩
  · show max s.sectors (sec + 1) = fsSize
    rw [hr.sectors]
    omega
  · have hb : s.freeblock ≤ b := hb
    rw [put_of_ne (by omega)]
    exact hr.zero b hb hlt

/-- The block of a file is among those taken, and not the bitmap. -/
theorem put_seal {bn a : Nat} {t : Mk} (hr : Ready t)
    (hx : IsFile sb tab i ⟨s.seal, din⟩)
    (hgrown : Grown tab i ⟨s.seal, din⟩ bn a ⟨t.seal, d⟩) (buf : Block) :
    Ready (t.put a buf) ∧ t.disk a = t.seal a
      ∧ (t.put a buf).seal = update t.seal a buf := by
  have hmeta : nmeta = 59 := rfl
  have hbmap : sb.bmapstart = 58 := rfl
  have hy := hx.touch hgrown.mapping.spends.touch
  have hslot := hgrown.mapping.slot
  have hne : (mk t.seal d).slot (slotOf bn) ≠ 0 := by
    rw [hslot]
    exact hgrown.mapping.ne_zero
  have hheld := hy.holds (slotOf_lt (slotOf_lt_of_slot hne)) hne
  rw [hslot] at hheld
  obtain ⟨hlow, hhigh⟩ := hy.owns.area hheld
  have hlow : nmeta ≤ a := hlow
  have hused : used sb t.seal a = true := hy.owns.marked hheld
  rw [used_seal hr.high hhigh, decide_eq_true_eq] at hused
  refine ⟨hr.put hused buf, (seal_of_ne (by omega)).symm, ?_⟩
  exact (seal_write (by omega) buf).symm

/-- The file with the block written. -/
theorem Grown.write {x y : Img} {bn a off : Nat} (hx : IsFile sb tab i x)
    (h : Grown tab i x bn a y) (hfull : Full y off) (o : Nat) (bytes : List UInt8) :
    IsFile sb tab i ⟨update y.disk a ((y.disk a).blit o bytes), y.d⟩
      ∧ Full ⟨update y.disk a ((y.disk a).blit o bytes), y.d⟩ off := by
  have hy := hx.touch h.mapping.spends.touch
  have hslot := h.mapping.slot
  have hne : y.slot (slotOf bn) ≠ 0 := by
    rw [hslot]
    exact h.mapping.ne_zero
  have hlt := slotOf_lt (slotOf_lt_of_slot hne)
  have htouch := hy.write_touch hlt (slotOf_ne bn) hne o bytes
  have hsame := hy.slot_write hlt (slotOf_ne bn) hne o bytes
  rw [hslot] at htouch hsame
  exact ⟨hy.touch htouch, hfull.congr hsame⟩

section

variable {P : Prop} {off : Nat} {p : List UInt8}

theorem Appended.nil (hr : Ready s) (hx : IsFile sb tab i ⟨s.seal, din⟩)
    (hfull : Full ⟨s.seal, din⟩ off) (hlen : p.length = 0) :
    Appended tab i s din off p din s := by
  refine ⟨hr, rfl, ?_, ?_, .nil hx hlen, fun o => ?_⟩
  · rw [hlen]
    rfl
  · rw [hlen]
    exact hfull
  · rw [if_neg (by omega)]

/-- A piece in one block, and the rest. -/
theorem Appended.cons {t u : Mk} {d' : DInode} {a m : Nat}
    (hx : IsFile sb tab i ⟨s.seal, din⟩)
    (hm : m = min p.length (bsize - off % bsize)) (hlen : 0 < p.length)
    (hinode : t.freeinode = s.freeinode)
    (hcount : t.freeblock + blocksFor off = s.freeblock + blocksFor (off + m))
    (hgrown : Grown tab i ⟨s.seal, din⟩ (off / bsize) a ⟨t.seal, d⟩)
    (hrest : Appended tab i (t.put a ((t.seal a).blit (off % bsize) (p.take m))) d
      (off + m) (p.drop m) d' u)
    (hput : (t.put a ((t.seal a).blit (off % bsize) (p.take m))).seal
      = update t.seal a ((t.seal a).blit (off % bsize) (p.take m))) :
    Appended tab i s din off p d' u := by
  have hdrop : (p.drop m).length = p.length - m := List.length_drop
  have hcut : (p.take m).length = m := by
    rw [List.length_take]
    omega
  have hend : off + m + (p.drop m).length = off + p.length := by omega
  have hmod : off % bsize < bsize := Nat.mod_lt _ (by unfold bsize; omega)
  have hwrite : (Img.mk (t.put a ((t.seal a).blit (off % bsize) (p.take m))).seal d)
      = (Img.mk t.seal d).write a (off % bsize) (p.take m) := by
    rw [hput]
    rfl
  have hy := hx.touch hgrown.mapping.spends.touch
  have hslot := hgrown.mapping.slot
  have hne : (Img.mk t.seal d).slot (slotOf (off / bsize)) ≠ 0 := by
    rw [hslot]
    exact hgrown.mapping.ne_zero
  have hlaid := hrest.laid
  rw [hwrite] at hlaid
  refine ⟨hrest.ready, hrest.freeinode.trans hinode, ?_, hend ▸ hrest.full,
    .cons hx hgrown.mapping hm hlen hlaid, fun o => ?_⟩
  · have hrcount := hrest.freeblock
    rw [hend] at hrcount
    have hsame : (t.put a ((t.seal a).blit (off % bsize) (p.take m))).freeblock
        = t.freeblock := rfl
    omega
  · have hbyte := hy.byte_write hne (off % bsize) (p.take m) o
    rw [hslot, hcut, hgrown.byte] at hbyte
    rw [hrest.byte o, hwrite, hbyte, hdrop]
    have hin : (o / bsize = off / bsize ∧ off % bsize ≤ o % bsize
        ∧ o % bsize < off % bsize + m) ↔ off ≤ o ∧ o < off + m := by
      unfold bsize at *
      omega
    by_cases hlate : off + m ≤ o ∧ o < off + m + (p.length - m)
    · rw [if_pos hlate, if_pos (by omega), List.getD_eq_getElem?_getD,
        List.getD_eq_getElem?_getD, List.getElem?_drop,
        show m + (o - (off + m)) = o - off by omega]
    · rw [if_neg hlate]
      by_cases hnow : off ≤ o ∧ o < off + m
      · have hsub : o % bsize - off % bsize = o - off := by
          have := hin.mpr hnow
          unfold bsize at *
          omega
        rw [if_pos (hin.mpr hnow), if_pos (by omega), hsub,
          List.getD_eq_getElem?_getD, List.getD_eq_getElem?_getD,
          List.getElem?_take_of_lt (by omega)]
      · rw [if_neg (fun h => hnow (hin.mp h)), if_neg (by omega)]

theorem iappendLoop_spec (n : Nat) (hr : Ready s) (hx : IsFile sb tab i ⟨s.seal, din⟩)
    (hfull : Full ⟨s.seal, din⟩ off) (hn : p.length ≤ n)
    (hP : ¬ P → off + p.length ≤ maxFile * bsize
      ∧ s.freeblock + blocksFor (off + p.length) ≤ fsSize + blocksFor off) :
    Safe (fun _ => P) (iappendLoop n off p din) s
      fun r t => r.1 = off + p.length ∧ Appended tab i s din off p r.2 t := by
  induction n generalizing s off p din with
  | zero => exact ret ⟨by omega, .nil hr hx hfull (by omega)⟩
  | succ n ih =>
    unfold iappendLoop
    split
    next hlen => exact ret ⟨by omega, .nil hr hx hfull hlen⟩
    next hlen =>
      dsimp only
      split
      next hbig =>
        apply fault
        by_contra hno
        have := (hP hno).1
        have hb : bsize = 512 := rfl
        rw [hb] at hbig this
        omega
      next hbig =>
        have hoff : off / bsize < maxFile := by omega
        have hmod : off % bsize < bsize := Nat.mod_lt _ (by unfold bsize; omega)
        have hstart : off - off / bsize * bsize = off % bsize := by
          unfold bsize
          omega
        have hroom : (off / bsize + 1) * bsize - off = bsize - off % bsize := by
          unfold bsize
          omega
        rw [hstart, hroom]
        generalize hm : min p.length (bsize - off % bsize) = m
        have hcost := hfull.cost hoff (m := m) (by omega) (by omega)
        have hmono : blocksFor (off + m) ≤ blocksFor (off + p.length) :=
          blocksFor_mono (by omega)
        refine (blockFor_spec (P := P) hr hx hoff fun hfew => ?_).seq fun r t h => ?_
        · by_contra hno
          have := (hP hno).2
          omega
        · apply Meets.bind
          refine rsect_spec h.sectors h.beyond fun hlt => ?_
          apply modify_bind
          have hgrown := h.grown hlt
          have hfree := h.freeblock hlt
          obtain ⟨hready, hread, hput⟩ :=
            put_seal (h.ready hlt) hx hgrown ((t.disk r.2).blit (off % bsize) (p.take m))
          rw [hread] at hready hput ⊢
          obtain ⟨hw, hwfull⟩ := hgrown.write hx
            (hfull.grown (m := m) (by omega) (by omega) hgrown) (off % bsize) (p.take m)
          rw [← hput] at hw hwfull
          have hdrop : (p.drop m).length = p.length - m := List.length_drop
          have hend : off + m + (p.drop m).length = off + p.length := by omega
          refine (ih hready hw hwfull (by omega) fun hno => ?_).mono fun r' u hu => ?_
          · obtain ⟨h1, h2⟩ := hP hno
            have hsame : (t.put r.2 ((t.seal r.2).blit (off % bsize)
              (p.take m))).freeblock = t.freeblock := rfl
            rw [hend]
            omega
          · refine ⟨hu.1.trans hend, ?_⟩
            exact .cons hx hm.symm (by omega) h.freeinode (by omega) hgrown hu.2 hput

end

end Xv6FsServer.Mkfs
