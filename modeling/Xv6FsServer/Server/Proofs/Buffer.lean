/-
The buffer cache is invisible: a server whose disk requests succeed reads
and writes the disk itself.

`BufOk s H` says that every valid buffer agrees with the disk, that no
block has two buffers, and that the reference counts are those of the
buffers in `H`, the list of (buffer, block) pairs the code is holding.
The three rules at the end are how the rest of the development meets the
cache: `ubread` adds a pair to the list, an update followed by `ubwrite`
changes the block on the disk, `ubrelse` takes the pair back. Everything
else a server has is its `Core`, which says nothing about buffers.
-/
import Xv6FsServer.Server.Model
import Mathlib.Data.List.Perm.Subperm

namespace Xv6FsServer.Server

open Lib Fs Function Meets

variable {s t : Srv} {H : List (Nat × Nat)}
variable {i b : Nat}

/-- The server without its buffers. -/
structure Core where
  disk : Disk
  inodes : Nat → UInode
  sb : Superblock
  fdTable : Nat → FdEntry
  fdInodes : Nat → Option Nat

def Srv.core (s : Srv) : Core where
  disk := s.disk
  inodes := s.inodes
  sb := s.sb
  fdTable := s.fdTable
  fdInodes := s.fdInodes

/-- The buffers agree with the disk, and the references are those of `H`. -/
structure BufOk (s : Srv) (H : List (Nat × Nat)) : Prop where
  io : ∀ n, s.diskOk n = true
  uniq : ∀ i j, i < nbuf → j < nbuf → (s.bufs i).dev = rootDev →
    (s.bufs j).dev = rootDev → (s.bufs i).blockno = (s.bufs j).blockno → i = j
  coherent : ∀ i, i < nbuf → (s.bufs i).dev = rootDev →
    (s.bufs i).valid = true → (s.bufs i).data = s.disk (s.bufs i).blockno
  refs : ∀ i, i < nbuf → (s.bufs i).refcnt = (H.map Prod.fst).count i
  held : ∀ e ∈ H, e.1 < nbuf ∧ (s.bufs e.1).dev = rootDev
    ∧ (s.bufs e.1).blockno = e.2 ∧ (s.bufs e.1).valid = true

/-- A held buffer shows its block. -/
theorem BufOk.data (h : BufOk s H) (he : (i, b) ∈ H) :
    (s.bufs i).data = s.disk b := by
  obtain ⟨h1, h2, h3, h4⟩ := h.held (i, b) he
  rw [h.coherent i h1 h2 h4, h3]

/-- While fewer buffers are held than there are, one is free. -/
theorem BufOk.exists_free (h : BufOk s H) (hlen : H.length < nbuf) :
    ∃ i, i < nbuf ∧ (s.bufs i).refcnt = 0 := by
  by_contra hno
  have hsub : List.range nbuf ⊆ H.map Prod.fst := by
    intro i hi
    rw [List.mem_range] at hi
    by_contra hmem
    refine hno ⟨i, hi, ?_⟩
    rw [h.refs i hi, List.count_eq_zero.mpr hmem]
    rfl
  have hle := (List.nodup_range.subperm hsub).length_le
  rw [List.length_range, List.length_map] at hle
  omega

-- ==== ubread

/-- What `ubuf_get` leaves: buffer `i` belongs to block `b` and is one
reference up; the other buffers are as they were. -/
structure Gets (s t : Srv) (i b : Nat) : Prop where
  lt : i < nbuf
  core : t.core = s.core
  diskOk : t.diskOk = s.diskOk
  dev : (t.bufs i).dev = rootDev
  blockno : (t.bufs i).blockno = b
  refcnt : (t.bufs i).refcnt = (s.bufs i).refcnt + 1
  other : ∀ j, j ≠ i → t.bufs j = s.bufs j
  unique : ∀ j, j < nbuf → j ≠ i → (s.bufs j).dev = rootDev →
    (s.bufs j).blockno ≠ b
  kept : (s.bufs i).refcnt ≠ 0 ∨ (t.bufs i).valid = true →
    t.bufs i = { s.bufs i with refcnt := (s.bufs i).refcnt + 1 }

theorem ubufGet_spec (h : BufOk s H) (hlen : H.length < nbuf) (b : Nat) :
    Ends (ubufGet rootDev b) s fun r t => ∃ i, r = some i ∧ Gets s t i b := by
  unfold ubufGet
  apply get_bind
  cases hfind : last (fun i => (s.bufs i).dev == rootDev
      && (s.bufs i).blockno == b) nbuf with
  | some i =>
    obtain ⟨hi, hkey⟩ := last_some hfind
    rw [Bool.and_eq_true, beq_iff_eq, beq_iff_eq] at hkey
    apply modify_bind
    apply ret
    refine ⟨i, rfl, ⟨hi, rfl, rfl, ?_, ?_, ?_, ?_, ?_, ?_⟩⟩
    · show (update s.bufs i _ i).dev = _
      rw [update_self]
      exact hkey.1
    · show (update s.bufs i _ i).blockno = _
      rw [update_self]
      exact hkey.2
    · show (update s.bufs i _ i).refcnt = _
      rw [update_self]
    · intro j hj
      exact update_of_ne hj ..
    · intro j hj hne hdev hblk
      exact hne (h.uniq j i hj hi hdev hkey.1 (hblk.trans hkey.2.symm))
    · intro _
      exact update_self ..
  | none =>
    have hnokey := last_none hfind
    cases hfree : first (fun i => (s.bufs i).refcnt == 0) 0 nbuf with
    | none =>
      exfalso
      obtain ⟨i, hi, h0⟩ := h.exists_free hlen
      have := first_none hfree i (Nat.zero_le _) (by omega)
      rw [h0] at this
      cases this
    | some i =>
      obtain ⟨-, hi, h0, -⟩ := first_some hfree
      rw [beq_iff_eq] at h0
      have hi : i < nbuf := by omega
      apply modify_bind
      apply ret
      refine ⟨i, rfl, ⟨hi, rfl, rfl, ?_, ?_, ?_, ?_, ?_, ?_⟩⟩
      · show (update s.bufs i _ i).dev = _
        rw [update_self]
      · show (update s.bufs i _ i).blockno = _
        rw [update_self]
      · show (update s.bufs i _ i).refcnt = _
        rw [update_self, h0]
        rfl
      · intro j hj
        exact update_of_ne hj ..
      · intro j hj _ hdev hblk
        have := hnokey j hj
        rw [hdev, hblk] at this
        simp at this
      · rintro (hne | hvalid)
        · exact absurd h0 hne
        · have hfalse : (update s.bufs i _ i).valid = true := hvalid
          rw [update_self] at hfalse
          cases hfalse

/-- With the block's contents in it, the buffer is one more that is held. -/
theorem Gets.bufOk (h : BufOk s H) (hg : Gets s t i b) {u : Srv}
    (hcore : u.core = t.core) (hio : u.diskOk = t.diskOk)
    (hother : ∀ j, j ≠ i → u.bufs j = t.bufs j)
    (hkey : (u.bufs i).dev = (t.bufs i).dev
      ∧ (u.bufs i).blockno = (t.bufs i).blockno
      ∧ (u.bufs i).refcnt = (t.bufs i).refcnt)
    (hvalid : (u.bufs i).valid = true) (hdata : (u.bufs i).data = s.disk b) :
    BufOk u ((i, b) :: H) := by
  have hdisk : u.disk = s.disk := congrArg Core.disk (hcore.trans hg.core)
  have hrest : ∀ j, j ≠ i → u.bufs j = s.bufs j := by
    intro j hj
    rw [hother j hj, hg.other j hj]
  have hdev : (u.bufs i).dev = rootDev := hkey.1.trans hg.dev
  have hblk : (u.bufs i).blockno = b := hkey.2.1.trans hg.blockno
  refine ⟨?_, ?_, ?_, ?_, ?_⟩
  · intro n
    rw [hio, hg.diskOk]
    exact h.io n
  · intro j k hj hk hdj hdk hb
    by_cases hji : j = i
    · by_cases hki : k = i
      · rw [hji, hki]
      · exfalso
        rw [hrest k hki] at hdk hb
        rw [hji, hblk] at hb
        exact hg.unique k hk hki hdk hb.symm
    · by_cases hki : k = i
      · exfalso
        rw [hrest j hji] at hdj hb
        rw [hki, hblk] at hb
        exact hg.unique j hj hji hdj hb
      · rw [hrest j hji] at hdj hb
        rw [hrest k hki] at hdk hb
        exact h.uniq j k hj hk hdj hdk hb
  · intro j hj hdj hvj
    by_cases hji : j = i
    · rw [hji, hdata, hblk, hdisk]
    · rw [hrest j hji] at hdj hvj ⊢
      rw [hdisk]
      exact h.coherent j hj hdj hvj
  · intro j hj
    rw [List.map_cons, List.count_cons]
    by_cases hji : j = i
    · rw [hji, hkey.2.2, hg.refcnt, h.refs i hg.lt]
      simp
    · rw [hrest j hji, h.refs j hj]
      simp [Ne.symm hji]
  · intro e he
    rcases List.mem_cons.mp he with rfl | he
    · exact ⟨hg.lt, hdev, hblk, hvalid⟩
    · by_cases hei : e.1 = i
      · -- already held: nothing about the buffer has changed
        obtain ⟨h1, h2, h3, h4⟩ := h.held e he
        have hb : e.2 = b := by
          have hpos : (s.bufs i).refcnt ≠ 0 := by
            rw [h.refs i hg.lt]
            have : i ∈ H.map Prod.fst := hei ▸ List.mem_map_of_mem he
            have := List.count_pos_iff.mpr this
            omega
          have hsame := hg.kept (Or.inl hpos)
          rw [hei] at h3
          rw [← h3, ← hg.blockno, hsame]
        rw [hei, hb]
        exact ⟨hg.lt, hdev, hblk, hvalid⟩
      · rw [hrest e.1 hei]
        exact h.held e he

/-- `ubread` gives a buffer with the block's contents. -/
theorem ubread_spec (h : BufOk s H) (hlen : H.length < nbuf) (b : Nat) :
    Ends (ubread rootDev b) s fun r t =>
      ∃ i, r = some i ∧ BufOk t ((i, b) :: H) ∧ t.core = s.core := by
  unfold ubread
  apply Meets.bind
  apply (ubufGet_spec h hlen b).mono
  rintro r t ⟨i, rfl, hg⟩
  apply get_bind
  split
  next hvalid =>
    apply ret
    refine ⟨i, rfl, hg.bufOk h rfl rfl (fun _ _ => rfl) ⟨rfl, rfl, rfl⟩ hvalid ?_,
      hg.core⟩
    have hsame := hg.kept (Or.inr hvalid)
    have hdev := hg.dev
    have hblk := hg.blockno
    rw [hsame] at hvalid hdev hblk ⊢
    have hco := h.coherent i hg.lt hdev hvalid
    rw [hblk] at hco
    exact hco
  next =>
    apply Meets.bind
    unfold diskRead
    apply get_bind
    apply modify_bind
    apply ret
    have hok : t.diskOk t.io = true := by
      rw [hg.diskOk]
      exact h.io _
    rw [if_pos hok]
    apply modify_bind
    apply ret
    refine ⟨i, rfl, hg.bufOk h rfl rfl ?_ ?_ ?_ ?_, ?_⟩
    · intro j hj
      exact update_of_ne hj ..
    · show (update t.bufs i _ i).dev = _ ∧ (update t.bufs i _ i).blockno = _
        ∧ (update t.bufs i _ i).refcnt = _
      rw [update_self]
      exact ⟨rfl, rfl, rfl⟩
    · show (update t.bufs i _ i).valid = true
      rw [update_self]
    · show (update t.bufs i _ i).data = _
      rw [update_self]
      exact congrFun (congrArg Core.disk hg.core) b
    · exact hg.core

-- ==== ubwrite, ubrelse

/-- A held buffer and its block are written. -/
theorem BufOk.write (h : BufOk s H) (he : (i, b) ∈ H) {v : Block}
    (hbufs : t.bufs = update s.bufs i { s.bufs i with data := v })
    (hdisk : t.disk = update s.disk b v) (hio : t.diskOk = s.diskOk) : BufOk t H := by
  obtain ⟨hi, hdev, hblk, -⟩ := h.held (i, b) he
  have hkeys : ∀ j, t.bufs j = { s.bufs j with data := (t.bufs j).data } := by
    intro j
    rw [hbufs]
    by_cases hji : j = i
    · rw [hji, update_self]
    · rw [update_of_ne hji]
  refine ⟨?_, ?_, ?_, ?_, ?_⟩
  · rw [hio]
    exact h.io
  · intro j k hj hk
    rw [hkeys j, hkeys k]
    exact h.uniq j k hj hk
  · intro j hj hdj hvj
    rw [hkeys j] at hdj hvj
    rw [hdisk, hbufs]
    by_cases hji : j = i
    · rw [hji, update_self]
      show v = update s.disk b v (s.bufs i).blockno
      rw [hblk, update_self]
    · have hne : (s.bufs j).blockno ≠ b := by
        intro e
        exact hji (h.uniq j i hj hi hdj hdev (e.trans hblk.symm))
      rw [update_of_ne hji, update_of_ne hne]
      exact h.coherent j hj hdj hvj
  · intro j hj
    rw [hkeys j]
    exact h.refs j hj
  · intro e hmem
    rw [hkeys e.1]
    exact h.held e hmem

/-- `ubwrite`, after the data of a held buffer has been changed by `f`. -/
theorem ubwrite_spec (h : BufOk s H) (he : (i, b) ∈ H) (f : Block → Block) :
    Ends (ubwrite i) (s.setBuf i fun u => { u with data := f u.data })
      fun _ t => BufOk t H
        ∧ t.core = { s.core with disk := update s.disk b (f (s.disk b)) } := by
  have hblk : (s.bufs i).blockno = b := (h.held (i, b) he).2.2.1
  have hself : (s.setBuf i fun u => { u with data := f u.data }).bufs i
      = { s.bufs i with data := f (s.disk b) } := by
    rw [← h.data he]
    exact update_self ..
  unfold ubwrite
  apply get_bind
  apply Meets.change
  rw [hself, hblk]
  have hok : s.diskOk s.io = true := h.io _
  refine ⟨h.write he (v := f (s.disk b)) ?_ (if_pos hok) rfl, ?_⟩
  · rw [← h.data he]
    rfl
  · show Core.mk (if s.diskOk s.io then _ else _) _ _ _ _ = _
    rw [if_pos hok]
    rfl

theorem ubrelse_spec (h : BufOk s ((i, b) :: H)) :
    Ends (ubrelse i) s fun _ t => BufOk t H ∧ t.core = s.core := by
  apply Meets.change
  have hself : (s.setBuf i fun u => { u with refcnt := u.refcnt - 1 }).bufs i
      = { s.bufs i with refcnt := (s.bufs i).refcnt - 1 } := update_self ..
  have hrest : ∀ j, j ≠ i →
      (s.setBuf i fun u => { u with refcnt := u.refcnt - 1 }).bufs j = s.bufs j :=
    fun j hj => update_of_ne hj ..
  have hkeys : ∀ j,
      ((s.setBuf i fun u => { u with refcnt := u.refcnt - 1 }).bufs j)
        = { s.bufs j with refcnt := ((s.setBuf i fun u =>
            { u with refcnt := u.refcnt - 1 }).bufs j).refcnt } := by
    intro j
    by_cases hji : j = i
    · rw [hji, hself]
    · rw [hrest j hji]
  refine ⟨⟨h.io, ?_, ?_, ?_, ?_⟩, rfl⟩
  · intro j k hj hk
    rw [hkeys j, hkeys k]
    exact h.uniq j k hj hk
  · intro j hj
    rw [hkeys j]
    exact h.coherent j hj
  · intro j hj
    have hcount := h.refs j hj
    rw [List.map_cons, List.count_cons] at hcount
    by_cases hji : j = i
    · subst hji
      rw [hself]
      show (s.bufs j).refcnt - 1 = _
      rw [hcount]
      simp
    · rw [hrest j hji, hcount]
      simp [Ne.symm hji]
  · intro e he
    rw [hkeys e.1]
    exact h.held e (List.mem_cons_of_mem _ he)

end Xv6FsServer.Server
