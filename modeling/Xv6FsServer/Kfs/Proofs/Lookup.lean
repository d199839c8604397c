/-
The kernel's path lookup, on a directory tree whose blocks are all there.

`Ready` follows the inode cache through a call: the references are those of
before and the ones the call holds, and what is loaded is what is on the
disk. `dirlookup` then finds what `lookup` finds, and `namei` ends at the
file the path leads to in the tree, every component cut to `DIRSIZ` bytes
(`namei_spec`). None of it changes the disk.
-/
import Xv6FsServer.Fs.Directory
import Xv6FsServer.Kfs.Model
import Mathlib.Data.List.Perm.Subperm

namespace Xv6FsServer.Kfs

open Lib Fs Function Meets

variable {s t : KFs} {base : Nat → Nat} {held : List Nat} {ip inum : Nat}
variable {bytes name : List UInt8}
variable {path : List UInt8}
variable {held' : List Nat} {off dp : Nat} {p q : List UInt8}

-- ==== the inode cache

/-- The cache while a call holds the references `held`, on top of those
others have (`base`). -/
structure Ready (base : Nat → Nat) (held : List Nat) (s : KFs) : Prop where
  refs : ∀ i, i < ninode → (s.inodes i).ref = base i + held.count i
  held : ∀ i ∈ held, i < ninode
  dev : ∀ i, i < ninode → 0 < (s.inodes i).ref → (s.inodes i).dev = rootDev
  coherent : ∀ i, i < ninode → 0 < (s.inodes i).ref →
    (s.inodes i).valid = true → (s.inodes i).d = dinode s.sb s.disk (s.inodes i).inum

/-- Room for two more inodes in the cache. -/
def Room (base : Nat → Nat) : Prop :=
  ((List.range ninode).filter fun i => decide (0 < base i)).length + 2 ≤ ninode

/-- The disk and the superblock as they were. -/
structure SameDisk (s t : KFs) : Prop where
  disk : t.disk = s.disk
  sb : t.sb = s.sb

theorem SameDisk.trans {u : KFs} (h : SameDisk s t) (h' : SameDisk t u) :
    SameDisk s u := ⟨h'.disk.trans h.disk, h'.sb.trans h.sb⟩

section

variable (h : Ready base held s)
include h

theorem Ready.ref_pos (hi : ip ∈ held) : ip < ninode ∧ 0 < (s.inodes ip).ref := by
  have hlt := h.held ip hi
  have hcount := List.count_pos_iff.mpr hi
  have := h.refs ip hlt
  exact ⟨hlt, by omega⟩

theorem Ready.perm (hp : held.Perm held') : Ready base held' s where
  refs := fun i hi => by rw [← hp.count_eq]; exact h.refs i hi
  held := fun i hi => h.held i (hp.mem_iff.mpr hi)
  dev := h.dev
  coherent := h.coherent

/-- One slot changes. -/
theorem Ready.setInode (hip : ip < ninode)
    {n : Inode} (href : n.ref = base ip + held'.count ip)
    (hcount : ∀ i, i ≠ ip → held'.count i = held.count i)
    (hheld : ∀ i ∈ held', i < ninode) (hdev : 0 < n.ref → n.dev = rootDev)
    (hcoh : 0 < n.ref → n.valid = true → n.d = dinode s.sb s.disk n.inum) :
    Ready base held' { s with inodes := update s.inodes ip n } := by
  refine ⟨fun i hi => ?_, hheld, fun i hi => ?_, fun i hi => ?_⟩
  · show (update s.inodes ip n i).ref = _
    by_cases he : i = ip
    · subst he
      rw [update_self]
      exact href
    · rw [update_of_ne he, hcount i he]
      exact h.refs i hi
  · show 0 < (update s.inodes ip n i).ref → (update s.inodes ip n i).dev = _
    by_cases he : i = ip
    · subst he
      rw [update_self]
      exact hdev
    · rw [update_of_ne he]
      exact h.dev i hi
  · show 0 < (update s.inodes ip n i).ref → (update s.inodes ip n i).valid = true →
      (update s.inodes ip n i).d = dinode s.sb s.disk (update s.inodes ip n i).inum
    by_cases he : i = ip
    · subst he
      rw [update_self]
      exact hcoh
    · rw [update_of_ne he]
      exact h.coherent i hi

/-- A slot nobody uses. -/
theorem Ready.exists_free (hroom : Room base)
    (hlen : held.length ≤ 1) : ∃ i, i < ninode ∧ (s.inodes i).ref = 0 := by
  by_contra hnone
  push Not at hnone
  have hsub : List.range ninode
      ⊆ (List.range ninode).filter (fun i => decide (0 < base i)) ++ held := by
    intro i hi
    have hlt := List.mem_range.mp hi
    have hne := hnone i hlt
    rw [h.refs i hlt] at hne
    rw [List.mem_append, List.mem_filter, decide_eq_true_eq]
    by_cases hb : 0 < base i
    · exact Or.inl ⟨hi, hb⟩
    · exact Or.inr (List.count_pos_iff.mp (by omega))
  have hle := (List.nodup_range.subperm hsub).length_le
  rw [List.length_range, List.length_append] at hle
  unfold Room at hroom
  omega

/-- `iget` hands out a reference. -/
theorem iget_spec (hroom : Room base) (hlen : held.length ≤ 1) (inum : Nat) :
    Ends (iget rootDev inum) s fun ip t => Ready base (ip :: held) t
      ∧ SameDisk s t ∧ (t.inodes ip).inum = inum
      ∧ ∀ i ∈ held, (t.inodes i).inum = (s.inodes i).inum := by
  have hcount : ∀ {ip : Nat} i, i ≠ ip → (ip :: held).count i = held.count i :=
    fun i hi => List.count_cons_of_ne (Ne.symm hi)
  have hheld : ∀ {ip : Nat}, ip < ninode → ∀ i ∈ ip :: held, i < ninode := by
    intro ip hip i hi
    rcases List.mem_cons.mp hi with rfl | hi
    · exact hip
    · exact h.held i hi
  unfold iget
  apply get_bind
  cases hfind : first (fun i => decide (0 < (s.inodes i).ref)
      && (s.inodes i).dev == rootDev && (s.inodes i).inum == inum) 0 ninode with
  | some ip =>
    obtain ⟨-, hlt, htest, -⟩ := first_some hfind
    simp only [Bool.and_eq_true, decide_eq_true_eq, beq_iff_eq] at htest
    obtain ⟨⟨hpos, hdev⟩, hinum⟩ := htest
    apply modify_bind
    apply ret
    refine ⟨h.setInode (by omega) ?_ hcount (hheld (by omega)) (fun _ => hdev)
      fun _ => h.coherent ip (by omega) hpos, ⟨rfl, rfl⟩, ?_, fun i _ => ?_⟩
    · rw [List.count_cons_self]
      have := h.refs ip (by omega)
      show (s.inodes ip).ref + 1 = _
      omega
    · show (update s.inodes ip _ ip).inum = inum
      rw [update_self]
      exact hinum
    · show (update s.inodes ip _ i).inum = _
      by_cases he : i = ip
      · subst he
        rw [update_self]
      · rw [update_of_ne he]
  | none =>
    cases hfree : first (fun i => (s.inodes i).ref == 0) 0 ninode with
    | some ip =>
      obtain ⟨-, hlt, htest, -⟩ := first_some hfree
      have hzero : (s.inodes ip).ref = 0 := beq_iff_eq.mp htest
      have hnot : ip ∉ held := by
        intro hmem
        have := (h.ref_pos hmem).2
        omega
      apply modify_bind
      apply ret
      refine ⟨h.setInode (by omega) ?_ hcount (hheld (by omega)) (fun _ => rfl)
        (fun _ hv => nomatch hv), ⟨rfl, rfl⟩, ?_, fun i hi => ?_⟩
      · rw [List.count_cons_self]
        have := h.refs ip (by omega)
        show 1 = _
        omega
      · show (update s.inodes ip _ ip).inum = inum
        rw [update_self]
      · have hne : i ≠ ip := fun he => hnot (he ▸ hi)
        show (update s.inodes ip _ i).inum = _
        rw [update_of_ne hne]
    | none =>
      exfalso
      obtain ⟨i, hi, hzero⟩ := h.exists_free hroom hlen
      have := first_none hfree i (Nat.zero_le _) (by omega)
      rw [hzero] at this
      cases this

/-- `ilock` loads an allocated inode. -/
theorem ilock_spec (hip : ip ∈ held)
    (halloc : (dinode s.sb s.disk (s.inodes ip).inum).type ≠ 0) :
    Ends (ilock ip) s fun _ t => Ready base held t ∧ SameDisk s t
      ∧ (∀ i, (t.inodes i).inum = (s.inodes i).inum)
      ∧ (t.inodes ip).d = dinode s.sb s.disk (s.inodes ip).inum := by
  obtain ⟨hlt, hpos⟩ := h.ref_pos hip
  unfold ilock
  apply get_bind
  rw [if_neg (by omega)]
  split
  next hvalid =>
    exact ret ⟨h, ⟨rfl, rfl⟩, fun _ => rfl, h.coherent ip hlt hpos hvalid⟩
  next hvalid =>
    apply modify_bind
    apply ret
    refine ⟨h.setInode hlt (h.refs ip hlt) (fun _ _ => rfl) h.held
      (fun _ => h.dev ip hlt hpos) fun _ _ => rfl, ⟨rfl, rfl⟩, fun i => ?_, ?_⟩
    · show (update s.inodes ip _ i).inum = _
      by_cases he : i = ip
      · subst he
        rw [update_self]
      · rw [update_of_ne he]
    · show (update s.inodes ip _ ip).d = _
      rw [update_self]

end

/-- `iput` of a file with links gives the reference back. -/
theorem iput_spec (h : Ready base (ip :: held) s)
    (hlink : (s.inodes ip).valid = true → (s.inodes ip).d.nlink ≠ 0) :
    Ends (iput ip) s fun _ t => Ready base held t ∧ SameDisk s t
      ∧ ∀ i, (t.inodes i).inum = (s.inodes i).inum := by
  have hlt := h.held ip List.mem_cons_self
  unfold iput
  apply get_bind
  rw [if_neg fun hx => hlink hx.2.1 hx.2.2]
  apply change
  have href := h.refs ip hlt
  rw [List.count_cons_self] at href
  refine ⟨h.setInode hlt ?_ ?_ ?_ (fun hx => h.dev ip hlt ?_)
    (fun hx => h.coherent ip hlt ?_), ⟨rfl, rfl⟩, fun i => ?_⟩
  · show (s.inodes ip).ref - 1 = _
    omega
  · exact fun i hi => (List.count_cons_of_ne (Ne.symm hi)).symm
  · exact fun i hi => h.held i (List.mem_cons_of_mem _ hi)
  · omega
  · omega
  · show (update s.inodes ip _ i).inum = _
    by_cases he : i = ip
    · subst he
      rw [update_self]
    · rw [update_of_ne he]

-- ==== reading

/-- The file in slot `ip`. -/
def KFs.img (s : KFs) (ip : Nat) : Img := ⟨s.disk, (s.inodes ip).d⟩

theorem bmap_mapped {bn : Nat} (h : (s.img ip).slot (slotOf bn) ≠ 0) :
    Ends (bmap ip bn) s fun r t => r = (s.img ip).slot (slotOf bn) ∧ t = s := by
  have haddr : ∀ {k : Nat}, (s.inodes ip).d.addrs k ≠ 0 →
      Ends (bmapAddr ip k) s fun r t => r = (s.inodes ip).d.addrs k ∧ t = s := by
    intro k hk
    unfold bmapAddr
    apply get_bind
    rw [if_neg hk]
    exact ret ⟨rfl, rfl⟩
  have hlt := slotOf_lt_of_slot h
  unfold bmap
  split
  next hbn =>
    rw [slotOf_direct hbn, Img.slot_direct _ (by omega)] at h ⊢
    exact haddr h
  next hbn =>
    have hind : (s.inodes ip).d.addrs ndirect ≠ 0 := addrs_ne_of_entry bn (by omega) h
    rw [Img.slot_entry _ (by omega) hind] at h ⊢
    unfold maxFile at hlt
    rw [if_pos (by omega)]
    refine (haddr hind).seq ?_
    rintro r t ⟨rfl, rfl⟩
    apply get_bind
    have h : (t.disk ((t.inodes ip).d.addrs ndirect)).le32 (4 * (bn - ndirect)) ≠ 0 := h
    rw [if_neg h]
    exact ret ⟨rfl, rfl⟩

theorem readiLoop_mapped (k : Nat) {n : Nat} (hk : n ≤ k)
    (h : ∀ o, off ≤ o → o < off + n → (s.img ip).slot (slotOf (o / bsize)) ≠ 0) :
    Ends (readiLoop ip k off n) s fun r t =>
      r = ((List.range n).map fun j => (s.img ip).byte (off + j)) ∧ t = s := by
  induction k generalizing off n with
  | zero =>
    cases Nat.le_zero.mp hk
    exact ret ⟨rfl, rfl⟩
  | succ k ih =>
    unfold readiLoop
    split
    next h0 =>
      subst h0
      exact ret ⟨rfl, rfl⟩
    next h0 =>
      have hmod := Nat.mod_lt off (show 0 < bsize by decide)
      refine (bmap_mapped (h off (Nat.le_refl _) (by omega))).seq ?_
      rintro addr t ⟨rfl, rfl⟩
      apply get_bind
      refine (ih (by omega) fun o h1 h2 => h o (by omega) (by omega)).seq ?_
      rintro rest u ⟨rfl, rfl⟩
      apply ret
      refine ⟨?_, rfl⟩
      generalize hm : min n (bsize - off % bsize) = m
      rw [show u.disk ((u.img ip).slot (slotOf (off / bsize)))
          = (u.img ip).disk ((u.img ip).slot (slotOf (off / bsize))) from rfl,
        Img.slice_eq (by omega) (h off (Nat.le_refl _) (by omega))]
      have hsplit : n = m + (n - m) := by omega
      conv_rhs => rw [hsplit, List.range_add, List.map_append, List.map_map]
      congr 1
      refine List.map_congr_left fun j _ => ?_
      show (u.img ip).byte (off + m + j) = (u.img ip).byte (off + (m + j))
      rw [Nat.add_assoc]

theorem readi_mapped (h : (s.img ip).Mapped) {n : Nat}
    (hn : off + n ≤ (s.img ip).d.size) :
    Ends (readi ip off n) s fun r t =>
      r = some (((s.img ip).content.drop off).take n) ∧ t = s := by
  have hsize := h.size_le
  have hmax : maxFile * bsize < 4294967296 := by decide
  have hsz : (s.inodes ip).d.size = (s.img ip).d.size := rfl
  unfold readi
  apply get_bind
  rw [hsz, if_neg (by rw [Nat.mod_eq_of_lt (by omega)]; omega), if_neg (by omega)]
  apply map
  refine (readiLoop_mapped n (Nat.le_refl _) fun o h1 h2 => h o (by omega)).mono
    fun r t ht => ?_
  rw [Img.content_slice hn]
  exact ⟨congrArg some ht.1, ht.2⟩

-- ==== directories

/-- A directory in memory: loaded, of whole entries, every block there. -/
structure IsDir (s : KFs) (dp : Nat) (bytes : List UInt8) : Prop where
  type : (s.inodes dp).d.type = tDir
  dev : (s.inodes dp).dev = rootDev
  content : (s.img dp).content = bytes
  mapped : (s.img dp).Mapped
  whole : bytes.length % 16 = 0

theorem IsDir.size (h : IsDir s dp bytes) :
    (s.inodes dp).d.size = bytes.length := by
  rw [← h.content, Img.length_content]
  rfl

theorem strncmp_iff (n : Nat) (hp : p.length ≤ n)
    (hq : q.length ≤ n) (h : ∀ c ∈ p, c ≠ 0) :
    strncmp n p q = true ↔ cstr q = p := by
  induction n generalizing p q with
  | zero =>
    cases List.eq_nil_of_length_eq_zero (Nat.le_zero.mp hp)
    cases List.eq_nil_of_length_eq_zero (Nat.le_zero.mp hq)
    simp [strncmp, cstr]
  | succ n ih =>
    unfold strncmp
    cases p with
    | nil =>
      cases q with
      | nil => simp [cstr]
      | cons c q =>
        by_cases hc : c = 0
        · simp [cstr, hc]
        · simp [cstr, hc, Ne.symm hc]
    | cons a p =>
      have ha : a ≠ 0 := h a List.mem_cons_self
      cases q with
      | nil => simp [cstr, ha]
      | cons c q =>
        have ih := ih (p := p) (q := q) (Nat.le_of_succ_le_succ hp)
          (Nat.le_of_succ_le_succ hq) fun x hx => h x (List.mem_cons_of_mem _ hx)
        unfold cstr at ih ⊢
        by_cases hc : c = a
        · subst hc
          simp [ha, ih]
        · have hne : ¬ a = c := fun e => hc e.symm
          simp only [List.headD_cons, hne, and_false, if_false, beq_iff_eq,
            false_iff, List.takeWhile_cons]
          intro hx
          split at hx
          · exact hc (List.cons.inj hx).1
          · cases hx

/-- Comparing a name with that of an entry. -/
theorem namecmp_iff {de : List UInt8} (hlen : name.length ≤ dirsiz)
    (hde : de.length = 16) (h : ∀ c ∈ name, c ≠ 0) :
    namecmp name (direntName de) = true ↔ cstr (direntName de) = name := by
  refine strncmp_iff dirsiz hlen ?_ h
  unfold direntName
  rw [List.length_drop, hde]
  decide

theorem dirlookupLoop_spec (hdir : IsDir s dp bytes)
    (h : Ready base held s) (hroom : Room base) (hheld : held.length ≤ 1)
    (hlen : name.length ≤ dirsiz) (hname : ∀ c ∈ name, c ≠ 0) (n k : Nat)
    (hn : bytes.length / 16 ≤ k + n) :
    Ends (dirlookupLoop dp name (n + 1) (16 * k)) s fun r t => SameDisk s t
      ∧ match first (entryIs bytes name) k (bytes.length / 16 - k) with
        | some l => ∃ ip, r = some (ip, 16 * l) ∧ Ready base (ip :: held) t
            ∧ (t.inodes ip).inum = entryInum bytes l
            ∧ ∀ i ∈ held, (t.inodes i).inum = (s.inodes i).inum
        | none => r = none ∧ t = s := by
  have hwhole := hdir.whole
  induction n generalizing k with
  | zero =>
    unfold dirlookupLoop
    apply get_bind
    rw [hdir.size, if_neg (by omega), show bytes.length / 16 - k = 0 by omega]
    exact ret ⟨⟨rfl, rfl⟩, rfl, rfl⟩
  | succ n ih =>
    unfold dirlookupLoop
    apply get_bind
    rw [hdir.size]
    split
    next hk =>
      apply Meets.bind
      have hfit : 16 * k + 16 ≤ (s.img dp).d.size := by
        rw [← Img.length_content, hdir.content]
        omega
      refine (readi_mapped hdir.mapped hfit).mono fun r t ht => ?_
      obtain ⟨rfl, rfl⟩ := ht
      have hde := length_dirent (show 16 * k + 16 ≤ bytes.length by omega)
      have hnext := ih (k + 1) (by omega)
      rw [hdir.content]
      dsimp only
      rw [show List.take 16 (List.drop (16 * k) bytes) = dirent bytes k from rfl,
        if_neg (by rw [hde]; simp),
        show bytes.length / 16 - k = bytes.length / 16 - (k + 1) + 1 by omega, first]
      split
      next h0 =>
        rw [if_neg fun he => (entryIs_iff.mp he).1 h0]
        exact hnext
      next h0 =>
        split
        next hcmp =>
          rw [if_pos (entryIs_iff.mpr ⟨h0, (namecmp_iff hlen hde hname).mp hcmp⟩)]
          apply get_bind
          rw [hdir.dev]
          refine (iget_spec h hroom hheld _).seq fun ip u hu => ?_
          obtain ⟨hready, hsame, hinum, hothers⟩ := hu
          exact ret ⟨hsame, ip, rfl, hready, hinum, hothers⟩
        next hcmp =>
          rw [if_neg fun he => hcmp
            ((namecmp_iff hlen hde hname).mpr (entryIs_iff.mp he).2)]
          exact hnext
    next hk =>
      rw [show bytes.length / 16 - k = 0 by omega]
      exact ret ⟨⟨rfl, rfl⟩, rfl, rfl⟩

/-- `dirlookup` in a directory. -/
theorem dirlookup_spec (hdir : IsDir s dp bytes) (h : Ready base held s)
    (hroom : Room base) (hheld : held.length ≤ 1) (hlen : name.length ≤ dirsiz)
    (hname : ∀ c ∈ name, c ≠ 0) :
    Ends (dirlookup dp name) s fun r t => SameDisk s t
      ∧ match first (entryIs bytes name) 0 (bytes.length / 16) with
        | some l => ∃ ip, r = some (ip, 16 * l) ∧ Ready base (ip :: held) t
            ∧ (t.inodes ip).inum = entryInum bytes l
            ∧ ∀ i ∈ held, (t.inodes i).inum = (s.inodes i).inum
        | none => r = none ∧ t = s := by
  unfold dirlookup
  apply get_bind
  rw [if_neg (by rw [hdir.type]; simp), hdir.size]
  exact dirlookupLoop_spec hdir h hroom hheld hlen hname _ 0 (by omega)

-- ==== paths

/-- Every file that has a name has a link. -/
structure Linked (sb : Superblock) (disk : Disk) : Prop where
  root : (dinode sb disk rootIno).nlink ≠ 0
  named : ∀ {j bytes}, view sb disk j = some (tDir, bytes) → ∀ k,
    16 * k < bytes.length → entryInum bytes k ≠ 0 →
    (dinode sb disk (entryInum bytes k)).nlink ≠ 0

/-- Where a walk from the file `i` ends. -/
def Walked (base : Nat → Nat) (s : KFs) (i : Nat) (path : List UInt8)
    (r : Option Nat) (t : KFs) : Prop :=
  SameDisk s t ∧ match r with
    | some j => Ready base [j] t
        ∧ walk (view s.sb s.disk) dirsiz i (components path)
          = some (t.inodes j).inum
    | none => Ready base [] t
        ∧ walk (view s.sb s.disk) dirsiz i (components path) = none

theorem Walked.of_same {s' : KFs} {i j : Nat} {r : Option Nat}
    (h : Walked base s' j q r t) (hs : SameDisk s s')
    (hwalk : walk (view s.sb s.disk) dirsiz i (components p)
      = walk (view s.sb s.disk) dirsiz j (components q)) :
    Walked base s i p r t := by
  refine ⟨hs.trans h.1, ?_⟩
  have h2 := h.2
  rw [hs.disk, hs.sb] at h2
  rw [hwalk]
  exact h2

theorem skipelem_none (h : skipelem path = none) : components path = [] := by
  unfold skipelem at h
  dsimp only at h
  split at h
  next hempty =>
    have hnil := List.isEmpty_iff.mp hempty
    rw [← components_skip]
    show components (path.dropWhile (· == slash)) = []
    rw [hnil]
    rfl
  next => cases h

theorem skipelem_some {rest : List UInt8} (h : skipelem path = some (name, rest)) :
    ∃ c, components path = c :: components rest ∧ name = c.take dirsiz
      ∧ rest.length < path.length ∧ (∀ a ∈ c, a ∈ path) ∧ ∀ a ∈ rest, a ∈ path := by
  unfold skipelem at h
  dsimp only at h
  split at h
  next => cases h
  next hempty =>
    obtain ⟨rfl, rfl⟩ := Prod.mk.inj (Option.some.inj h)
    generalize hp : path.dropWhile (· == slash) = p at hempty ⊢
    have hsub : p.Sublist path := hp ▸ List.dropWhile_sublist _
    cases p with
    | nil => exact absurd rfl hempty
    | cons a p =>
      have ha : a ≠ slash := by
        intro e
        have hnot := List.head?_dropWhile_not (· == slash) path
        rw [hp, e] at hnot
        cases hnot
      have hskip : components path = components (a :: p) := by
        rw [← hp]
        exact (components_skip path).symm
      have hrest : ((List.dropWhile (· != slash) (a :: p)).dropWhile
          (· == slash)).Sublist p := by
        rw [List.dropWhile_cons, if_pos (bne_iff_ne.mpr ha)]
        exact (List.dropWhile_sublist _).trans (List.dropWhile_sublist _)
      refine ⟨_, ?_, rfl, ?_, ?_, ?_⟩
      · rw [hskip, components_cons ha]
        exact congrArg _ (components_skip _).symm
      · have h1 := hrest.length_le
        have h2 := hsub.length_le
        rw [List.length_cons] at h2
        omega
      · exact fun x hx => hsub.subset ((List.takeWhile_sublist _).subset hx)
      · exact fun x hx => hsub.subset (List.mem_cons_of_mem _ (hrest.subset hx))

/-- A locked inode of a sound image that is a directory. -/
theorem Ready.isDir (h : Ready base held s) (himg : Image s.sb s.disk)
    (hip : ip ∈ held) (hd : (s.inodes ip).d = dinode s.sb s.disk inum)
    (halloc : Allocated s.sb (dinode s.sb s.disk) inum)
    (htype : (s.inodes ip).d.type = tDir) :
    ∃ bytes, IsDir s ip bytes ∧ view s.sb s.disk inum = some (tDir, bytes) := by
  obtain ⟨hlt, hpos⟩ := h.ref_pos hip
  have himg' : s.img ip = onDisk s.sb s.disk inum := by
    unfold KFs.img onDisk
    rw [hd]
  have hview := view_of_allocated halloc
  rw [← hd, htype] at hview
  refine ⟨_, ⟨htype, h.dev ip hlt hpos, by rw [himg'], ?_, ?_⟩, hview⟩
  · rw [himg']
    exact himg.mapped inum halloc
  · exact himg.files.whole hview

theorem namexLoop_spec (n : Nat) (hn : path.length ≤ n) (hnul : ∀ a ∈ path, a ≠ 0)
    (h : Ready base [ip] s) (hroom : Room base) (himg : Image s.sb s.disk)
    (hlinked : Linked s.sb s.disk)
    (halloc : Allocated s.sb (dinode s.sb s.disk) (s.inodes ip).inum)
    (hlink : (dinode s.sb s.disk (s.inodes ip).inum).nlink ≠ 0) :
    Ends (namexLoop false (n + 1) ip path) s fun r t =>
      Walked base s (s.inodes ip).inum path (r.map Prod.fst) t := by
  induction n generalizing path s ip with
  | zero =>
    cases List.eq_nil_of_length_eq_zero (Nat.le_zero.mp hn)
    exact ret ⟨⟨rfl, rfl⟩, h, rfl⟩
  | succ n ih =>
    unfold namexLoop
    cases hskip : skipelem path with
    | none =>
      rw [if_neg (by simp)]
      refine ret ⟨⟨rfl, rfl⟩, h, ?_⟩
      rw [skipelem_none hskip]
      rfl
    | some e =>
      obtain ⟨name, rest⟩ := e
      obtain ⟨c, hcomp, rfl, hshort, hc, hrest⟩ := skipelem_some hskip
      refine (ilock_spec h List.mem_cons_self halloc.2).seq
        fun _ t ⟨h1, hsame, hinum, hd⟩ => ?_
      have himg1 : Image t.sb t.disk := by rw [hsame.sb, hsame.disk]; exact himg
      have hview : view t.sb t.disk = view s.sb s.disk := by
        rw [hsame.sb, hsame.disk]
      have hd' : (t.inodes ip).d = dinode t.sb t.disk (s.inodes ip).inum := by
        rw [hsame.sb, hsame.disk]
        exact hd
      have halloc' : Allocated t.sb (dinode t.sb t.disk) (s.inodes ip).inum := by
        rw [hsame.sb, hsame.disk]
        exact halloc
      have hput : ∀ {u : KFs}, Ready base [ip] u → SameDisk s u →
          (u.inodes ip).d.nlink ≠ 0 →
          walk (view s.sb s.disk) dirsiz (s.inodes ip).inum (components path) = none →
          Ends (do iunlockput ip; pure none) u fun r t =>
            Walked base s (s.inodes ip).inum path
              (Option.map (Prod.fst : Nat × List UInt8 → Nat) r) t := by
        intro u hu hsu hl hw
        refine (iput_spec hu fun _ => hl).seq ?_
        rintro _ v ⟨hv1, hv2, -⟩
        exact ret ⟨hsu.trans hv2, hv1, hw⟩
      have hl1 : (t.inodes ip).d.nlink ≠ 0 := by
        rw [hd]
        exact hlink
      apply get_bind
      split
      next htype =>
        refine hput h1 hsame hl1 ?_
        rw [hcomp]
        refine walk_none (child_file (view_of_allocated halloc) ?_)
        rw [← hd]
        exact htype
      next htype =>
        rw [if_neg (by simp)]
        obtain ⟨bytes, hdir, hfile⟩ := h1.isDir himg1 List.mem_cons_self hd' halloc'
          (not_not.mp htype)
        have hchild : child (view s.sb s.disk) dirsiz (s.inodes ip).inum c
            = lookup bytes (c.take dirsiz) := child_dir (hview ▸ hfile)
        refine (dirlookup_spec hdir h1 hroom (Nat.le_refl _)
          (by rw [List.length_take]; omega)
          fun x hx => hnul x (hc x (List.mem_of_mem_take hx))).seq
          fun r u ⟨hsame2, hu⟩ => ?_
        unfold lookup at hchild
        cases hl : first (entryIs bytes (c.take dirsiz)) 0 (bytes.length / 16) with
        | none =>
          rw [hl] at hu hchild
          obtain ⟨rfl, rfl⟩ := hu
          refine hput h1 hsame hl1 ?_
          rw [hcomp]
          exact walk_none hchild
        | some l =>
          rw [hl] at hu hchild
          obtain ⟨jp, rfl, h2, hj, hothers⟩ := hu
          have hs2 := hsame.trans hsame2
          obtain ⟨-, hlt, htest, -⟩ := first_some hl
          obtain ⟨hne, -⟩ := entryIs_iff.mp htest
          have hfile' : view s.sb s.disk (s.inodes ip).inum = some (tDir, bytes) :=
            hview ▸ hfile
          have hl2 : (u.inodes ip).valid = true → (u.inodes ip).d.nlink ≠ 0 := by
            intro hvalid
            have hmem : ip ∈ [jp, ip] := by simp
            obtain ⟨h3, h4⟩ := h2.ref_pos hmem
            rw [h2.coherent ip h3 h4 hvalid, hothers ip List.mem_cons_self,
              hinum ip, hs2.sb, hs2.disk]
            exact hlink
          refine (iput_spec (h2.perm (.swap ..)) hl2).seq
            fun _ v ⟨h3, hsame3, hinum3⟩ => ?_
          have hs3 := hs2.trans hsame3
          have hjv : (v.inodes jp).inum = entryInum bytes l := (hinum3 jp).trans hj
          have hv : Image v.sb v.disk ∧ Linked v.sb v.disk
              ∧ Allocated v.sb (dinode v.sb v.disk) (v.inodes jp).inum
              ∧ (dinode v.sb v.disk (v.inodes jp).inum).nlink ≠ 0 := by
            rw [hs3.sb, hs3.disk, hjv]
            exact ⟨himg, hlinked,
              isSome_view.mp (himg.files.named hfile' l (by omega) hne),
              hlinked.named hfile' l (by omega) hne⟩
          obtain ⟨hv1, hv2, hv3, hv4⟩ := hv
          refine (ih (by omega) (fun x hx => hnul x (hrest x hx)) h3 hv1 hv2 hv3
            hv4).mono fun r x hx => ?_
          refine hx.of_same hs3 ?_
          rw [hjv, hcomp]
          exact walk_some hchild

/-- `namei` of a process in the root directory. -/
theorem namei_spec {cwd : Nat} (hnul : ∀ a ∈ path, a ≠ 0) (h : Ready base [] s)
    (hroom : Room base) (himg : Image s.sb s.disk) (hlinked : Linked s.sb s.disk)
    (hcwd : cwd < ninode ∧ 0 < base cwd) (hroot : (s.inodes cwd).inum = rootIno) :
    Ends (namei cwd path) s fun r t => Walked base s rootIno path r t := by
  obtain ⟨bytes, hfile⟩ := himg.files.root
  have halloc : Allocated s.sb (dinode s.sb s.disk) rootIno :=
    isSome_view.mp (by rw [hfile]; rfl)
  have hloop : ∀ {ip : Nat} {t : KFs}, Ready base [ip] t → SameDisk s t →
      (t.inodes ip).inum = rootIno →
      Ends (namexLoop false (path.length + 1) ip path) t fun r u =>
        Walked base s rootIno path (r.map Prod.fst) u := by
    intro ip t ht hsame hip
    have hv : Image t.sb t.disk ∧ Linked t.sb t.disk
        ∧ Allocated t.sb (dinode t.sb t.disk) (t.inodes ip).inum
        ∧ (dinode t.sb t.disk (t.inodes ip).inum).nlink ≠ 0 := by
      rw [hsame.sb, hsame.disk, hip]
      exact ⟨himg, hlinked, halloc, hlinked.root⟩
    obtain ⟨hv1, hv2, hv3, hv4⟩ := hv
    refine (namexLoop_spec path.length (Nat.le_refl _) hnul ht hroom hv1 hv2 hv3
      hv4).mono fun r u hu => ?_
    rw [hip] at hu
    exact hu.of_same hsame rfl
  unfold namei namex
  apply map
  split
  next =>
    refine (iget_spec h hroom (Nat.zero_le _) rootIno).seq fun ip t ht => ?_
    exact hloop ht.1 ht.2.1 ht.2.2.1
  next =>
    apply Meets.bind
    apply modify_bind
    apply ret
    have href := h.refs cwd hcwd.1
    rw [List.count_nil] at href
    refine hloop (h.setInode hcwd.1 ?_ ?_ ?_ ?_ ?_) ⟨rfl, rfl⟩ ?_
    · rw [List.count_cons_self, List.count_nil]
      show (s.inodes cwd).ref + 1 = _
      omega
    · exact fun i hi => List.count_cons_of_ne (Ne.symm hi)
    · intro i hi
      rw [List.mem_singleton.mp hi]
      exact hcwd.1
    · exact fun _ => h.dev cwd hcwd.1 (by omega)
    · exact fun _ => h.coherent cwd hcwd.1 (by omega)
    · show (update s.inodes cwd _ cwd).inum = rootIno
      rw [update_self]
      exact hroot

end Xv6FsServer.Kfs
