/-
Reference balance.

`Refs N s H R` counts: the references of a buffer are its entries in `H`,
those of an inode slot are the descriptors that point at it and its
entries in `R`, where `H` and `R` list what the running code holds; and a
slot that a descriptor points at keeps its inode, `N` of the slot. The
file code keeps the count (`refs_discipline`), and so does a descriptor
that is opened or closed (`Balanced`); the handlers are in
`Descriptors.lean`.

Nothing else about the server matters here, so the disk is arbitrary and
may fail at any time.
-/
import Xv6FsServer.Server.Proofs.Inodes
import Xv6FsServer.Server.Proofs.Isolation
import Mathlib.Algebra.BigOperators.Group.Finset.Piecewise

namespace Xv6FsServer.Server

open Lib Fs Function Meets
open Ipc (IpcMsg IpcMsgType Answer)

variable {s t : Srv} {H R : List Nat} {N : Nat → Nat}
variable {i : Nat} {f : UInode → UInode} {R' : List Nat}

/-- What holds if the program returns. -/
abbrev Gives {α : Type} (x : Op α) (s : Srv) (Q : α → Srv → Prop) : Prop :=
  Leaves (fun _ => True) x s Q

structure Refs (N : Nat → Nat) (s : Srv) (H R : List Nat) : Prop where
  bufs : ∀ i, i < nbuf → (s.bufs i).refcnt = H.count i
  nodes : ∀ i, i < ninode → (s.inodes i).ref = (s.core.opens i + R.count i : Nat)
  distinct : ∀ i j, i < ninode → j < ninode → 0 < (s.inodes i).ref →
    0 < (s.inodes j).ref → (s.inodes i).dev = (s.inodes j).dev →
    (s.inodes i).inum = (s.inodes j).inum → i = j
  pinned : ∀ i, 0 < s.core.opens i → (s.inodes i).inum = N i

-- ==== changes

section

variable (h : Refs N s H R)
include h

/-- Parts of the state that hold no references. -/
theorem Refs.congr (hbufs : t.bufs = s.bufs)
    (hinodes : t.inodes = s.inodes) (hfds : t.fdInodes = s.fdInodes) :
    Refs N t H R := by
  have hopens : ∀ i, t.core.opens i = s.core.opens i := by
    intro i
    unfold Core.opens
    rw [show t.core.fdInodes = s.core.fdInodes from hfds]
  refine ⟨?_, ?_, ?_, ?_⟩
  · rw [hbufs]
    exact h.bufs
  · intro i hi
    rw [hinodes, hopens]
    exact h.nodes i hi
  · rw [hinodes]
    exact h.distinct
  · intro i
    rw [hinodes, hopens]
    exact h.pinned i

theorem Refs.setBuf {f : UBuf → UBuf} {H' : List Nat}
    (hself : i < nbuf → (f (s.bufs i)).refcnt = H'.count i)
    (hrest : ∀ j, j ≠ i → H'.count j = H.count j) :
    Refs N (s.setBuf i f) H' R := by
  refine ⟨?_, h.nodes, h.distinct, h.pinned⟩
  intro j hj
  show (update s.bufs i (f (s.bufs i)) j).refcnt = _
  by_cases hji : j = i
  · subst hji
    rw [update_self]
    exact hself hj
  · rw [update_of_ne hji, hrest j hji]
    exact h.bufs j hj

/-- A change of a buffer's data. -/
theorem Refs.setData {f : UBuf → UBuf}
    (hf : (f (s.bufs i)).refcnt = (s.bufs i).refcnt) : Refs N (s.setBuf i f) H R :=
  h.setBuf (fun hi => hf.trans (h.bufs i hi)) fun _ _ => rfl

theorem Refs.setNode
    (hself : i < ninode → (f (s.inodes i)).ref = (s.core.opens i + R'.count i : Nat))
    (hrest : ∀ j, j ≠ i → R'.count j = R.count j)
    (hkey : i < ninode → ∀ j, j < ninode → j ≠ i → 0 < (s.inodes j).ref →
      0 < (f (s.inodes i)).ref → (s.inodes j).dev = (f (s.inodes i)).dev →
      (s.inodes j).inum ≠ (f (s.inodes i)).inum)
    (hpin : 0 < s.core.opens i → (f (s.inodes i)).inum = (s.inodes i).inum) :
    Refs N (s.setInode i f) H R' := by
  have hi : (s.setInode i f).inodes i = f (s.inodes i) := update_self ..
  have hne : ∀ j, j ≠ i → (s.setInode i f).inodes j = s.inodes j :=
    fun j hj => update_of_ne hj ..
  refine ⟨h.bufs, ?_, ?_, ?_⟩
  · intro j hj
    show _ = ((s.core.opens j + R'.count j : Nat) : Int)
    by_cases hji : j = i
    · subst hji
      rw [hi]
      exact hself hj
    · rw [hne j hji, hrest j hji]
      exact h.nodes j hj
  · intro j k hj hk hjref hkref hdev hinum
    by_cases hji : j = i
    · by_cases hki : k = i
      · rw [hji, hki]
      subst hji
      rw [hi] at hjref hdev hinum
      rw [hne k hki] at hkref hdev hinum
      exact absurd hinum.symm (hkey hj k hk hki hkref hjref hdev.symm)
    · by_cases hki : k = i
      · subst hki
        rw [hi] at hkref hdev hinum
        rw [hne j hji] at hjref hdev hinum
        exact absurd hinum (hkey hk j hj hji hjref hkref hdev)
      · rw [hne j hji] at hjref hdev hinum
        rw [hne k hki] at hkref hdev hinum
        exact h.distinct j k hj hk hjref hkref hdev hinum
  · intro j hopen
    by_cases hji : j = i
    · subst hji
      rw [hi, hpin hopen]
      exact h.pinned j hopen
    · rw [hne j hji]
      exact h.pinned j hopen

/-- A slot that was in use, if it is now, keeps its inode. -/
theorem Refs.keepNode (hdev : (f (s.inodes i)).dev = (s.inodes i).dev)
    (hinum : (f (s.inodes i)).inum = (s.inodes i).inum)
    (hself : i < ninode → (f (s.inodes i)).ref = (s.core.opens i + R'.count i : Nat))
    (hpos : 0 < (f (s.inodes i)).ref → 0 < (s.inodes i).ref)
    (hrest : ∀ j, j ≠ i → R'.count j = R.count j) :
    Refs N (s.setInode i f) H R' := by
  refine h.setNode hself hrest (fun hi j hj hji hjref hiref hd hn => hji ?_)
    fun _ => hinum
  exact h.distinct j i hj hi hjref (hpos hiref) (hd.trans hdev) (hn.trans hinum)

/-- A change of what the slot holds of its inode. -/
theorem Refs.setFields (hdev : (f (s.inodes i)).dev = (s.inodes i).dev)
    (hinum : (f (s.inodes i)).inum = (s.inodes i).inum)
    (href : (f (s.inodes i)).ref = (s.inodes i).ref) : Refs N (s.setInode i f) H R :=
  h.keepNode hdev hinum (fun hi => href.trans (h.nodes i hi))
    (fun hpos => href ▸ hpos) fun _ _ => rfl

/-- The order of the held references does not matter. -/
theorem Refs.perm (hp : R.Perm R') : Refs N s H R' :=
  ⟨h.bufs, fun i hi => by rw [← hp.count_eq]; exact h.nodes i hi, h.distinct,
    h.pinned⟩

/-- The slots' inodes as they are. -/
theorem Refs.pin : Refs (fun i => (s.inodes i).inum) s H R :=
  ⟨h.bufs, h.nodes, h.distinct, fun _ _ => rfl⟩

end

/-- One reference to a buffer is given back. -/
theorem Refs.release (h : Refs N s (i :: H) R) :
    Refs N (s.setBuf i fun b => { b with refcnt := b.refcnt - 1 }) H R := by
  refine h.setBuf (fun hi => ?_) fun j hj =>
    (List.count_cons_of_ne (Ne.symm hj)).symm
  show (s.bufs i).refcnt - 1 = _
  rw [h.bufs i hi, List.count_cons_self]
  omega

/-- One more reference to a buffer. -/
theorem Refs.hold (h : Refs N s H R) {f : UBuf → UBuf}
    (hf : (f (s.bufs i)).refcnt = (s.bufs i).refcnt + 1) :
    Refs N (s.setBuf i f) (i :: H) R := by
  refine h.setBuf (fun hi => ?_) fun j hj => List.count_cons_of_ne (Ne.symm hj)
  rw [hf, h.bufs i hi, List.count_cons_self]
  omega

/-- One reference to a slot is given back. -/
theorem Refs.put (h : Refs N s H (i :: R)) : Refs N (s.setInode i fun n =>
      { n with
        ref := n.ref - 1
        valid := if n.ref - 1 = 0 then false else n.valid }) H R := by
  refine h.keepNode rfl rfl (fun hi => ?_) (fun hpos => ?_) fun j hj =>
    (List.count_cons_of_ne (Ne.symm hj)).symm
  · show (s.inodes i).ref - 1 = ((s.core.opens i + R.count i : Nat) : Int)
    rw [h.nodes i hi, List.count_cons_self]
    omega
  · have hpos : 0 < (s.inodes i).ref - 1 := hpos
    omega

/-- One more reference to a slot in use. -/
theorem Refs.share (h : Refs N s H R) (hpos : 0 < (s.inodes i).ref) :
    Refs N (s.setInode i fun n => { n with ref := n.ref + 1 }) H (i :: R) := by
  refine h.keepNode rfl rfl (fun hi => ?_) (fun _ => hpos) fun j hj =>
    List.count_cons_of_ne (Ne.symm hj)
  show (s.inodes i).ref + 1 = ((s.core.opens i + (i :: R).count i : Nat) : Int)
  rw [h.nodes i hi, List.count_cons_self]
  omega

/-- The first reference to a slot. -/
theorem Refs.enter (h : Refs N s H R) (hlt : i < ninode) (h0 : (s.inodes i).ref = 0)
    (h1 : (f (s.inodes i)).ref = 1) (hkey : ∀ j, j < ninode → 0 < (s.inodes j).ref →
      (s.inodes j).dev = (f (s.inodes i)).dev →
      (s.inodes j).inum ≠ (f (s.inodes i)).inum) :
    Refs N (s.setInode i f) H (i :: R) := by
  have hcount := h.nodes i hlt
  rw [h0] at hcount
  refine h.setNode (fun _ => ?_) (fun j hj => List.count_cons_of_ne (Ne.symm hj))
    (fun _ j hj _ hjref _ => hkey j hj hjref) fun hopen => ?_
  · rw [h1, List.count_cons_self]
    omega
  · omega

theorem refs_discipline (N : Nat → Nat) (s : Srv) :
    Discipline (fun _ => True) fun t H R => Refs N t H R ∧ SameFds s t where
  stop _ := trivial
  congr h hbufs hinodes htable hfds := ⟨h.1.congr hbufs hinodes hfds,
    (fds_discipline s).congr (H := []) (R := []) h.2 hbufs hinodes htable hfds⟩
  hold h hf := ⟨h.1.hold hf, h.2.table, h.2.inodes⟩
  setData h hf := ⟨h.1.setData hf, h.2.table, h.2.inodes⟩
  release h := ⟨h.1.release, h.2.table, h.2.inodes⟩
  share h hpos := ⟨h.1.share hpos, h.2.table, h.2.inodes⟩
  enter h hlt h0 h1 hkey := ⟨h.1.enter hlt h0 h1 hkey, h.2.table, h.2.inodes⟩
  setFields h hdev hinum href :=
    ⟨h.1.setFields hdev hinum href, h.2.table, h.2.inodes⟩
  put h := ⟨h.1.put, h.2.table, h.2.inodes⟩
  perm h hp := ⟨h.1.perm hp, h.2⟩

-- ==== descriptors

/-- A descriptor's pointer and the count of its slot. -/
theorem opens_update (c : Core) {fd : Nat} (hfd : fd < maxRemoteFds)
    (r : Option Nat) (i : Nat) :
    ({ c with fdInodes := update c.fdInodes fd r } : Core).opens i
        + (if c.fdInodes fd = some i then 1 else 0)
      = c.opens i + (if r = some i then 1 else 0) := by
  have hmem : fd ∈ Finset.range maxRemoteFds := Finset.mem_range.mpr hfd
  unfold Core.opens
  rw [Finset.card_filter, Finset.card_filter,
    ← Finset.add_sum_erase _ _ hmem, ← Finset.add_sum_erase _ _ hmem]
  have hrest : ∀ f ∈ (Finset.range maxRemoteFds).erase fd,
      (if update c.fdInodes fd r f = some i then 1 else 0)
        = if c.fdInodes f = some i then 1 else 0 := by
    intro f hf
    rw [update_of_ne (Finset.ne_of_mem_erase hf)]
  have hself : (if update c.fdInodes fd r fd = some i then 1 else 0)
      = if r = some i then 1 else 0 := by
    rw [update_self]
  rw [Finset.sum_congr rfl hrest]
  dsimp only
  omega

/-- A reference moves between the running code and a descriptor. -/
theorem Refs.setFdInode (h : Refs N s H R) {fd : Nat} (hfd : fd < maxRemoteFds)
    {r : Option Nat} (hcount : ∀ i, R'.count i + (if r = some i then 1 else 0)
      = R.count i + (if s.fdInodes fd = some i then 1 else 0)) :
    Refs (fun i => (s.inodes i).inum)
      { s with fdInodes := update s.fdInodes fd r } H R' := by
  refine ⟨h.bufs, fun i hi => ?_, h.distinct, fun _ _ => rfl⟩
  have hnodes := h.nodes i hi
  have hopens : ({ s with fdInodes := update s.fdInodes fd r } : Srv).core.opens i
        + (if s.fdInodes fd = some i then 1 else 0)
      = s.core.opens i + (if r = some i then 1 else 0) :=
    opens_update s.core hfd r i
  have hcount := hcount i
  show (s.inodes i).ref = _
  omega

theorem count_toList (r : Option Nat) (i : Nat) :
    r.toList.count i = if r = some i then 1 else 0 := by
  cases r with
  | none => rfl
  | some j =>
    show [j].count i = _
    by_cases hj : j = i
    · subst hj
      simp
    · rw [List.count_cons_of_ne hj, if_neg fun e => hj (Option.some.inj e)]
      rfl

/-- The state between two requests. -/
structure Balanced (s : Srv) : Prop where
  refs : Refs (fun i => (s.inodes i).inum) s [] []
  paired : ∀ fd, fd < maxRemoteFds →
    ((s.fdTable fd).used = true ↔ (s.fdInodes fd).isSome = true)

theorem SameFds.paired (h : SameFds s t)
    (hs : ∀ fd, fd < maxRemoteFds → s.PairedAt fd) :
    ∀ fd, fd < maxRemoteFds → t.PairedAt fd := by
  unfold Srv.PairedAt
  rw [h.table, h.inodes]
  exact hs

theorem Balanced.close (h : Balanced s) {fd ip : Nat} (hfd : fd < maxRemoteFds)
    (hip : s.fdInodes fd = some ip) : Balanced (s.dropFd fd ip) := by
  refine ⟨?_, ?_⟩
  · have h1 : Refs (fun i => (s.inodes i).inum)
        { s with fdInodes := update s.fdInodes fd none } [] [ip] := by
      refine h.refs.setFdInode hfd fun i => ?_
      rw [hip, show [ip] = (some ip).toList from rfl, count_toList,
        if_neg (show ¬ (none : Option Nat) = some i by simp), List.count_nil,
        Nat.add_comm]
    apply Refs.pin (N := fun i => (s.inodes i).inum)
    exact h1.put.congr rfl rfl rfl
  · exact paired_dropFd h.paired fd ip

theorem Balanced.closeFor (h : Balanced s) (pid : Int) (hi : i < maxRemoteFds) :
    Balanced (s.closeFor pid i) := by
  unfold Srv.closeFor
  split
  next hmine =>
    obtain ⟨ip, hip⟩ := Option.isSome_iff_exists.mp ((h.paired i hi).mp hmine.1)
    rw [hip]
    exact h.close hi hip
  next => exact h

theorem closeAllForOwner_balanced (pid : Int) (h : Balanced s) :
    Ends (closeAllForOwner pid) s fun _ t => Balanced t :=
  closeAllForOwner_ends pid (P := fun _ => Balanced)
    (fun _ _ hj ht => ht.closeFor pid hj) h

theorem balanced_addFd {ip fd : Nat} {e : FdEntry} (h : Refs N s [] [ip])
    (hpaired : ∀ fd, fd < maxRemoteFds → s.PairedAt fd) (hfd : fd < maxRemoteFds)
    (hunused : (s.fdTable fd).used = false) (he : e.used = true) :
    Balanced (s.addFd fd ip e) := by
  have hnone : s.fdInodes fd = none := by
    cases hr : s.fdInodes fd with
    | none => rfl
    | some i =>
      have := (hpaired fd hfd).mpr (by rw [hr]; rfl)
      rw [this] at hunused
      cases hunused
  refine ⟨?_, paired_addFd hpaired fd ip he⟩
  have h1 : Refs (fun i => (s.inodes i).inum)
      { s with fdInodes := update s.fdInodes fd (some ip) } [] [] := by
    refine h.setFdInode hfd fun i => ?_
    rw [hnone, show [ip] = (some ip).toList from rfl, count_toList,
      if_neg (show ¬ (none : Option Nat) = some i by simp), List.count_nil,
      Nat.add_comm]
  exact h1.congr rfl rfl rfl

/-- The end of `READ` and `WRITE`: the descriptor's offset moves. -/
theorem Balanced.setOff (h : Balanced s) (fd : Nat) (f : FdEntry → FdEntry)
    (hf : (f (s.fdTable fd)).used = (s.fdTable fd).used) :
    Balanced (s.setFd fd f) :=
  ⟨h.refs.congr rfl rfl rfl, paired_setFd h.paired hf⟩

-- ==== start-up

theorem ubread_ends (s : Srv) (dev b : Nat) :
    Ends (ubread dev b) s fun _ _ => True := by
  have hget : Ends (ubufGet dev b) s fun _ _ => True := by
    unfold ubufGet
    apply get_bind
    split
    · apply modify_bind
      exact ret trivial
    split
    · apply modify_bind
      exact ret trivial
    · exact ret trivial
  unfold ubread
  apply Meets.bind
  refine hget.mono fun r t _ => ?_
  split
  · exact ret trivial
  apply get_bind
  split
  · exact ret trivial
  apply Meets.bind
  unfold diskRead
  apply get_bind
  apply modify_bind
  apply ret
  split
  · apply modify_bind
    exact ret trivial
  · apply modify_bind
    exact ret trivial

theorem readsb_ends (s : Srv) : Ends readsb s fun _ _ => True := by
  unfold readsb
  refine (ubread_ends s _ _).seq fun r t _ => ?_
  split
  · exact ret trivial
  · apply modify_bind
    exact Meets.change trivial

theorem balanced_boot (disk : Disk) (diskOk : Nat → Bool) :
    Balanced (Srv.boot disk diskOk) := by
  have hzero : Refs (fun _ => 0) (.zero disk diskOk) [] [] := by
    refine ⟨fun _ _ => rfl, fun i _ => ?_, ?_, fun _ _ => rfl⟩
    · have hopens : (Srv.zero disk diskOk).core.opens i = 0 := by
        unfold Core.opens
        rw [Finset.card_eq_zero, Finset.filter_eq_empty_iff]
        intro f _ hf
        cases hf
      rw [hopens]
      rfl
    · intro i j _ _ hpos
      cases hpos
  obtain ⟨_, t, hexec, -⟩ := (readsb_ends (.zero disk diskOk)).run
  have hboot : Srv.boot disk diskOk = t := congrArg Prod.snd hexec
  obtain ⟨hrefs, hsame⟩ :=
    (readsb_keeps (refs_discipline _ _) ⟨hzero, rfl, rfl⟩).elim hexec
  rw [hboot]
  refine ⟨hrefs.pin, hsame.paired fun fd _ => ?_⟩
  show false = true ↔ false = true
  exact Iff.rfl

end Xv6FsServer.Server
