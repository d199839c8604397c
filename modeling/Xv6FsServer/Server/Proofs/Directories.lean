/-
The server's directory code, on directories whose blocks are all there.

`dirlookup` finds what `lookup` finds in the directory's bytes and then
asks for the inode, so it fails for a name that is there when the inode
cache is full. `dirlink` calls `dirlookup` first and takes that failure for
a name that is not there.
-/
import Xv6FsServer.Fs.Directory
import Xv6FsServer.Server.Proofs.Inodes

namespace Xv6FsServer.Server

open Lib Fs Function Meets

variable {s t : Srv} {H : List (Nat × Nat)} {dp : Nat} {name bytes : List UInt8}

/-- Comparing a name with that of an entry. -/
theorem unamecmp_iff {de : List UInt8} (h : ∀ c ∈ name, c ≠ 0) :
    unamecmp name de = true ↔ cstr de = name := by
  induction name generalizing de with
  | nil =>
    cases de with
    | nil => simp [unamecmp, cstr]
    | cons c de =>
      by_cases hc : c = 0
      · simp [unamecmp, cstr, hc]
      · simp [unamecmp, cstr, hc]
  | cons a name ih =>
    have ha : a ≠ 0 := h a List.mem_cons_self
    cases de with
    | nil => simp [unamecmp, cstr, ha]
    | cons c de =>
      have ih : unamecmp name de = true ↔ cstr de = name :=
        ih fun x hx => h x (List.mem_cons_of_mem _ hx)
      unfold cstr at ih ⊢
      by_cases hc : c = a
      · subst hc
        rw [unamecmp, if_pos ⟨ha, ha, rfl⟩, ih, List.takeWhile_cons,
          if_pos (bne_iff_ne.mpr ha), List.cons_inj_right]
      · rw [unamecmp, if_neg fun hx => hc hx.2.2.symm, List.takeWhile_cons]
        constructor
        · intro hx
          exact absurd (beq_iff_eq.mp hx).symm hc
        · intro hx
          split at hx
          · exact absurd (List.cons.inj hx).1 hc
          · cases hx

-- ==== dirlookup

/-- A directory in memory: loaded, of whole entries, every block there. -/
structure IsDir (c : Core) (dp : Nat) (bytes : List UInt8) : Prop where
  type : (c.inodes dp).d.type = tDir
  dev : (c.inodes dp).dev = rootDev
  content : (c.img dp).content = bytes
  mapped : (c.img dp).Mapped
  whole : bytes.length % 16 = 0

theorem IsDir.size (h : IsDir s.core dp bytes) :
    (s.inodes dp).d.size = bytes.length := by
  rw [← h.content, Img.length_content]
  rfl

section

variable (hdir : IsDir s.core dp bytes) (h : BufOk s H) (hlen : H.length + 1 < nbuf)
include hdir h hlen

/-- Reading one entry. -/
theorem IsDir.ureadi {k : Nat} (hk : 16 * k < bytes.length) :
    Ends (ureadi dp (16 * k) 16) s fun r t => BufOk t H
      ∧ r = some (dirent bytes k) ∧ t.core = s.core := by
  have hwhole := hdir.whole
  refine (ureadi_spec h hlen (16 * k) 16).mono fun r t ht => ?_
  obtain ⟨hbuf, hr, hcore⟩ := ht
  have hfit : 16 * k + 16 ≤ (s.core.img dp).d.size := by
    rw [← Img.length_content, hdir.content]
    omega
  rw [Img.ureadi_mapped hdir.mapped (by omega) hfit] at hr hcore
  refine ⟨hbuf, ?_, hcore.trans (Core.setImg_img ..)⟩
  rw [hr, hdir.content]
  rfl

theorem dirlookupLoop_spec (hname : ∀ c ∈ name, c ≠ 0) (n k : Nat)
    (hn : bytes.length / 16 ≤ k + n) :
    Ends (dirlookupLoop dp name (n + 1) (16 * k)) s fun r t => BufOk t H
      ∧ match (first (entryIs bytes name) k (bytes.length / 16 - k)).map
          (entryInum bytes) with
        | some i => r = (s.core.get i).1 ∧ t.core = (s.core.get i).2
        | none => r = none ∧ t.core = s.core := by
  have hwhole := hdir.whole
  induction n generalizing k s with
  | zero =>
    unfold dirlookupLoop
    apply get_bind
    rw [hdir.size, if_neg (by omega), show bytes.length / 16 - k = 0 by omega]
    exact ret ⟨h, rfl, rfl⟩
  | succ n ih =>
    unfold dirlookupLoop
    apply get_bind
    rw [hdir.size]
    split
    next hk =>
      refine (hdir.ureadi h hlen hk).seq ?_
      rintro r t ⟨hbuf, rfl, hcore⟩
      have hdir' : IsDir t.core dp bytes := hcore ▸ hdir
      have hnext := ih hdir' hbuf (k + 1) (by omega)
      rw [hcore] at hnext
      dsimp only
      rw [if_neg (by rw [length_dirent (by omega)]; simp),
        show bytes.length / 16 - k = bytes.length / 16 - (k + 1) + 1 by omega, first]
      split
      next h0 =>
        -- an unused entry
        rw [if_neg fun he => (entryIs_iff.mp he).1 h0]
        exact hnext
      next h0 =>
        split
        next hcmp =>
          rw [if_pos (entryIs_iff.mpr ⟨h0, (unamecmp_iff hname).mp hcmp⟩)]
          apply get_bind
          have hdev : (t.inodes dp).dev = rootDev := hdir'.dev
          rw [hdev]
          refine (uiget_spec hbuf _).mono fun r u hu => ?_
          rw [hcore] at hu
          exact hu
        next hcmp =>
          rw [if_neg fun he => hcmp ((unamecmp_iff hname).mpr (entryIs_iff.mp he).2)]
          exact hnext
    next hk =>
      rw [show bytes.length / 16 - k = 0 by omega]
      exact ret ⟨h, rfl, rfl⟩

/-- `dirlookup` in a directory. -/
theorem dirlookup_spec (hname : ∀ c ∈ name, c ≠ 0) :
    Ends (dirlookup dp name) s fun r t => BufOk t H
      ∧ match lookup bytes name with
        | some i => r = (s.core.get i).1 ∧ t.core = (s.core.get i).2
        | none => r = none ∧ t.core = s.core := by
  unfold dirlookup
  apply get_bind
  have htype : (s.inodes dp).d.type = tDir := hdir.type
  rw [if_neg (by rw [htype]; simp), hdir.size]
  exact dirlookupLoop_spec hdir h hlen hname _ 0 (by omega)

end

end Xv6FsServer.Server
