/-
The descriptor table.

What a descriptor number means is said by its entry and by the number of
the inode behind it. `Srv.look g` is the table seen through `g`, any
function of the two: `Srv.desc` is what clients know of a descriptor, and
`Srv.fds` has its offset too. `close_all_for_owner` passes one entry after
the other (`Srv.closeFor`), in every state of the server.
-/
import Xv6FsServer.Server.Proofs.Walk

namespace Xv6FsServer.Server

open Lib Fs Function Meets

variable {s t u : Srv} {β : Type} {g : FdEntry → Nat → β} {fd ip i : Nat} {pid : Int}
variable {e : FdEntry}
variable {n : Nat} {P : Nat → Srv → Prop}

-- ==== an entry

def Srv.look (s : Srv) (g : FdEntry → Nat → β) (fd : Nat) : Option β :=
  if fd < maxRemoteFds ∧ (s.fdTable fd).used = true then
    (s.fdInodes fd).map fun ip => g (s.fdTable fd) (s.inodes ip).inum
  else none

theorem look_eq (hfd : fd < maxRemoteFds) (hused : (s.fdTable fd).used = true)
    (hip : s.fdInodes fd = some ip) :
    s.look g fd = some (g (s.fdTable fd) (s.inodes ip).inum) := by
  unfold Srv.look
  rw [if_pos ⟨hfd, hused⟩, hip]
  rfl

theorem look_some {d : β} (h : s.look g fd = some d) :
    fd < maxRemoteFds ∧ (s.fdTable fd).used = true
      ∧ ∃ ip, s.fdInodes fd = some ip ∧ d = g (s.fdTable fd) (s.inodes ip).inum := by
  unfold Srv.look at h
  split at h
  next hused =>
    obtain ⟨ip, hip, hd⟩ := Option.map_eq_some_iff.mp h
    exact ⟨hused.1, hused.2, ip, hip, hd.symm⟩
  next => cases h

theorem look_unused (h : (s.fdTable fd).used = false) : s.look g fd = none := by
  refine if_neg fun hused => ?_
  rw [h] at hused
  cases hused.2

/-- The table is as it was, and so are the inodes its entries are open on. -/
theorem look_same (htable : t.fdTable = s.fdTable) (hinodes : t.fdInodes = s.fdInodes)
    (hinum : ∀ fd ip, fd < maxRemoteFds → s.fdInodes fd = some ip →
      (t.inodes ip).inum = (s.inodes ip).inum) : t.look g = s.look g := by
  funext fd
  unfold Srv.look
  rw [htable, hinodes]
  split
  next hused =>
    cases hip : s.fdInodes fd with
    | none => rfl
    | some ip => rw [Option.map_some, Option.map_some, hinum fd ip hused.1 hip]
  next => rfl

theorem look_congr (htable : t.fdTable fd = s.fdTable fd)
    (hinodes : t.fdInodes fd = s.fdInodes fd)
    (hinum : ∀ j, (t.inodes j).inum = (s.inodes j).inum) :
    t.look g fd = s.look g fd := by
  unfold Srv.look
  simp only [htable, hinodes, hinum]

/-- One entry has changed. -/
theorem look_update (htable : ∀ j, j ≠ fd → t.fdTable j = s.fdTable j)
    (hinodes : ∀ j, j ≠ fd → t.fdInodes j = s.fdInodes j)
    (hinum : ∀ j, (t.inodes j).inum = (s.inodes j).inum) :
    t.look g = update (s.look g) fd (t.look g fd) := by
  funext j
  by_cases hj : j = fd
  · rw [hj, update_self]
  · rw [update_of_ne hj]
    exact look_congr (htable j hj) (hinodes j hj) hinum

/-- Entry `fd` is in use exactly if it has an inode. -/
def Srv.PairedAt (s : Srv) (fd : Nat) : Prop :=
  (s.fdTable fd).used = true ↔ (s.fdInodes fd).isSome = true

/-- One entry has changed, and is in use exactly if it has an inode. -/
theorem paired_update (h : ∀ j, j < n → s.PairedAt j)
    (htable : ∀ j, j ≠ fd → t.fdTable j = s.fdTable j)
    (hinodes : ∀ j, j ≠ fd → t.fdInodes j = s.fdInodes j)
    (hself : s.PairedAt fd → t.PairedAt fd) : ∀ j, j < n → t.PairedAt j := by
  intro j hj
  by_cases hfd : j = fd
  · subst hfd
    exact hself (h j hj)
  · unfold Srv.PairedAt
    rw [htable j hfd, hinodes j hfd]
    exact h j hj

theorem paired_setFd (h : ∀ j, j < n → s.PairedAt j)
    {f : FdEntry → FdEntry} (hf : (f (s.fdTable fd)).used = (s.fdTable fd).used) :
    ∀ j, j < n → (s.setFd fd f).PairedAt j := by
  refine paired_update h (fun _ hj => update_of_ne hj ..) (fun _ _ => rfl) fun hfd => ?_
  show (update s.fdTable fd _ fd).used = true ↔ _
  rw [update_self, hf]
  exact hfd

-- ==== opening

/-- The server with a descriptor `f` for the inode `ip`. -/
def Srv.addFd (s : Srv) (f ip : Nat) (e : FdEntry) : Srv :=
  { s.setFd f fun _ => e with fdInodes := update s.fdInodes f (some ip) }

theorem paired_addFd (h : ∀ j, j < n → s.PairedAt j) (fd ip : Nat)
    (hused : e.used = true) :
    ∀ j, j < n → (s.addFd fd ip e).PairedAt j := by
  refine paired_update h (fun _ hj => update_of_ne hj ..)
    (fun _ hj => update_of_ne hj ..) fun _ => ?_
  show (update s.fdTable fd e fd).used = true
    ↔ (update s.fdInodes fd (some ip) fd).isSome = true
  rw [update_self, update_self, hused]
  simp

theorem look_addFd (hfd : fd < maxRemoteFds) (ip : Nat) (hused : e.used = true) :
    (s.addFd fd ip e).look g
      = update (s.look g) fd (some (g e (s.inodes ip).inum)) := by
  have hentry : (s.addFd fd ip e).fdTable fd = e := update_self ..
  have hself : (s.addFd fd ip e).look g fd = some (g e (s.inodes ip).inum) := by
    rw [look_eq hfd (by rw [hentry]; exact hused) (update_self ..), hentry]
    rfl
  rw [← hself]
  exact look_update (fun _ hj => update_of_ne hj ..) (fun _ hj => update_of_ne hj ..)
    fun _ => rfl

-- ==== closing

/-- The server after descriptor `fd` on slot `ip` was closed. -/
def Srv.dropFd (s : Srv) (fd ip : Nat) : Srv :=
  { s.setInode ip fun n =>
      { n with
        ref := n.ref - 1
        valid := if n.ref - 1 = 0 then false else n.valid } with
    fdInodes := update s.fdInodes fd none
    fdTable := update s.fdTable fd { s.fdTable fd with used := false } }

theorem paired_dropFd (h : ∀ j, j < n → s.PairedAt j) (fd ip : Nat) :
    ∀ j, j < n → (s.dropFd fd ip).PairedAt j := by
  refine paired_update h (fun _ hj => update_of_ne hj ..)
    (fun _ hj => update_of_ne hj ..) fun _ => ?_
  show (update s.fdTable fd _ fd).used = true
    ↔ (update s.fdInodes fd none fd).isSome = true
  rw [update_self, update_self]
  simp

theorem dropFd_inum (s : Srv) (fd ip j : Nat) :
    ((s.dropFd fd ip).inodes j).inum = (s.inodes j).inum := by
  show (update s.inodes ip _ j).inum = _
  by_cases hj : j = ip
  · rw [hj, update_self]
  · rw [update_of_ne hj]

theorem look_dropFd (s : Srv) (fd ip : Nat) :
    (s.dropFd fd ip).look g = update (s.look g) fd none := by
  have hself : (s.dropFd fd ip).look g fd = none := by
    apply look_unused
    show (update s.fdTable fd _ fd).used = false
    rw [update_self]
  rw [← hself]
  exact look_update (fun _ hj => update_of_ne hj ..) (fun _ hj => update_of_ne hj ..)
    (dropFd_inum s fd ip)

/-- An entry once `close_all_for_owner` has passed it. -/
def FdEntry.closedFor (e : FdEntry) (pid : Int) : FdEntry :=
  if e.used ∧ e.ownerPid = pid then { e with used := false } else e

theorem FdEntry.closedFor_of_not (h : ¬ (e.used ∧ e.ownerPid = pid)) :
    e.closedFor pid = e := if_neg h

theorem FdEntry.closedFor_of (h : e.used ∧ e.ownerPid = pid) :
    e.closedFor pid = { e with used := false } :=
  if_pos h

/-- The server after `close_all_for_owner` has passed entry `i`. -/
def Srv.closeFor (s : Srv) (pid : Int) (i : Nat) : Srv :=
  if (s.fdTable i).used ∧ (s.fdTable i).ownerPid = pid then
    match s.fdInodes i with
    | some ip => s.dropFd i ip
    | none => s.setFd i fun e => { e with used := false }
  else s

/-- What holds at the start and is kept entry by entry holds at the end. -/
theorem closeAllLoop_ends
    (hstep : ∀ j t, j < maxRemoteFds → P j t → P (j + 1) (t.closeFor pid j)) (n i : Nat)
    (hn : i + n ≤ maxRemoteFds) (h : P i s) :
    Ends (closeAllLoop pid n i) s fun _ t => P (i + n) t := by
  induction n generalizing i s with
  | zero => exact ret h
  | succ n ih =>
    have hnext := hstep i s (by omega) h
    have hrest : ∀ t, t = s.closeFor pid i →
        Ends (closeAllLoop pid n (i + 1)) t fun _ u => P (i + (n + 1)) u := by
      intro t ht
      rw [ht, show i + (n + 1) = i + 1 + n by omega]
      exact ih (i + 1) (by omega) hnext
    unfold Srv.closeFor at hrest
    unfold closeAllLoop
    apply get_bind
    split
    next hmine =>
      rw [if_pos hmine] at hrest
      apply modify_bind
      cases hip : s.fdInodes i with
      | some ip =>
        rw [hip] at hrest
        apply modify_bind
        apply modify_bind
        exact hrest _ rfl
      | none =>
        rw [hip] at hrest
        exact hrest _ rfl
    next hother =>
      rw [if_neg hother] at hrest
      exact hrest s rfl

theorem closeAllForOwner_ends (pid : Int)
    (hstep : ∀ j t, j < maxRemoteFds → P j t → P (j + 1) (t.closeFor pid j))
    (h : P 0 s) : Ends (closeAllForOwner pid) s fun _ t => P maxRemoteFds t := by
  have hends := closeAllLoop_ends hstep maxRemoteFds 0 (by omega) h
  rw [Nat.zero_add] at hends
  exact hends

/-- The entries below `i` have been passed. -/
structure Closed (pid : Int) (s : Srv) (i : Nat) (t : Srv) : Prop where
  table : ∀ fd, t.fdTable fd
    = if fd < i then (s.fdTable fd).closedFor pid else s.fdTable fd
  inodes : ∀ fd, ¬ ((s.fdTable fd).used ∧ (s.fdTable fd).ownerPid = pid) →
    t.fdInodes fd = s.fdInodes fd
  inum : ∀ j, (t.inodes j).inum = (s.inodes j).inum

theorem Closed.zero (pid : Int) (s : Srv) : Closed pid s 0 s :=
  ⟨fun _ => (if_neg (Nat.not_lt_zero _)).symm, fun _ _ => rfl, fun _ => rfl⟩

theorem Closed.pass (h : Closed pid s i t)
    (htable : u.fdTable = update t.fdTable i ((s.fdTable i).closedFor pid))
    (hinodes : ∀ fd, ¬ ((s.fdTable fd).used ∧ (s.fdTable fd).ownerPid = pid) →
      u.fdInodes fd = t.fdInodes fd)
    (hinum : ∀ j, (u.inodes j).inum = (t.inodes j).inum) : Closed pid s (i + 1) u := by
  refine ⟨fun fd => ?_, fun fd hno => (hinodes fd hno).trans (h.inodes fd hno),
    fun j => (hinum j).trans (h.inum j)⟩
  rw [htable]
  by_cases hfd : fd = i
  · rw [hfd, update_self, if_pos (by omega)]
  · rw [update_of_ne hfd, h.table fd]
    exact if_congr (by omega) rfl rfl

theorem Closed.succ (h : Closed pid s i t) : Closed pid s (i + 1) (t.closeFor pid i) := by
  have hentry : t.fdTable i = s.fdTable i := by rw [h.table i, if_neg (by omega)]
  unfold Srv.closeFor
  rw [hentry]
  split
  next hmine =>
    have hclosed := FdEntry.closedFor_of hmine
    split
    next ip _ =>
      refine h.pass ?_ (fun fd hno => ?_) (dropFd_inum t i ip)
      · rw [hclosed, ← hentry]
        rfl
      · have hfd : fd ≠ i := fun e => hno (by rw [e]; exact hmine)
        exact update_of_ne hfd ..
    next =>
      refine h.pass ?_ (fun _ _ => rfl) fun _ => rfl
      rw [hclosed, ← hentry]
      rfl
  next hother =>
    refine h.pass ?_ (fun _ _ => rfl) fun _ => rfl
    rw [FdEntry.closedFor_of_not hother, ← hentry, update_eq_self]

/-- The loop ends, whatever state the server is in. -/
theorem closeAllForOwner_closed (pid : Int) (s : Srv) :
    Ends (closeAllForOwner pid) s fun _ t => Closed pid s maxRemoteFds t :=
  closeAllForOwner_ends pid (fun _ _ _ h => h.succ) (.zero pid s)

/-- What is left of the table is what other processes own. -/
theorem Closed.look (h : Closed pid s maxRemoteFds t) (own : β → Int)
    (hown : ∀ e n, own (g e n) = e.ownerPid) :
    t.look g = fun fd => (s.look g fd).filter fun d => own d != pid := by
  funext fd
  by_cases hfd : fd < maxRemoteFds
  · have htable := h.table fd
    rw [if_pos hfd] at htable
    by_cases hmine : (s.fdTable fd).used ∧ (s.fdTable fd).ownerPid = pid
    · rw [FdEntry.closedFor_of hmine] at htable
      rw [look_unused (by rw [htable])]
      cases hd : s.look g fd with
      | none => rfl
      | some d =>
        obtain ⟨-, -, ip, -, rfl⟩ := look_some hd
        rw [Option.filter_some, hown, hmine.2, if_neg (by simp)]
    · rw [FdEntry.closedFor_of_not hmine] at htable
      rw [look_congr htable (h.inodes fd hmine) h.inum]
      cases hd : s.look g fd with
      | none => rfl
      | some d =>
        obtain ⟨-, hused, ip, -, rfl⟩ := look_some hd
        have hne : (s.fdTable fd).ownerPid ≠ pid := fun e => hmine ⟨hused, e⟩
        rw [Option.filter_some, hown, if_pos (bne_iff_ne.mpr hne)]
  · have hnone : ∀ v : Srv, v.look g fd = none := fun _ => if_neg fun hu => hfd hu.1
    rw [hnone, hnone]
    rfl

end Xv6FsServer.Server
