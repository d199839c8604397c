/-
The descriptor table as clients know it.

`Srv.desc` is what a descriptor number means: nothing, or an owner, a
mode and a file. The handlers are described by what they do to it: `OPEN`
adds an entry under a free number or changes nothing, `READ` and `WRITE`
change nothing and touch the file of an entry of the sender's, `CLOSE`
removes such an entry, and a client's exit removes all of its entries.
That the file of an entry stays what it was, while inodes come and go in
the cache around it, is `Refs.pinned`.

Every handler gives back the references it took, so they balance between
any two requests (`reference_balance`). A handler that stops with a fault
is not a request that completes, and nothing is said about it.
-/
import Xv6FsServer.Server.Proofs.References

namespace Xv6FsServer.Server

open Lib Fs Function Meets
open Ipc (IpcMsg IpcMsgType Answer)

variable {s t : Srv} {H R : List Nat}
variable {fd : Nat}
variable {d : Desc} {pid n : Int}

/-- A descriptor: whose it is, what it allows, and its file. -/
structure Desc where
  owner : Int
  readable : Bool
  writable : Bool
  inum : Nat
  deriving DecidableEq, Repr

def Srv.desc (s : Srv) (fd : Nat) : Option Desc :=
  if fd < maxRemoteFds ∧ (s.fdTable fd).used = true then
    (s.fdInodes fd).map fun ip =>
      ⟨(s.fdTable fd).ownerPid, (s.fdTable fd).readable, (s.fdTable fd).writable,
        (s.inodes ip).inum⟩
  else none

/-- What `OPEN` grants. -/
def granted (req : IpcMsg) (inum : Nat) : Desc where
  owner := req.senderPid
  readable := !wrOnly req.flags
  writable := wrOnly req.flags || rdWr req.flags
  inum := inum

/-- What a client knows of an entry. -/
def FdEntry.desc (e : FdEntry) (inum : Nat) : Desc :=
  ⟨e.ownerPid, e.readable, e.writable, inum⟩

theorem desc_eq (ip : Nat) (hfd : fd < maxRemoteFds) (hused : (s.fdTable fd).used = true)
    (hip : s.fdInodes fd = some ip) :
    s.desc fd = some ⟨(s.fdTable fd).ownerPid, (s.fdTable fd).readable,
      (s.fdTable fd).writable, (s.inodes ip).inum⟩ :=
  look_eq (g := FdEntry.desc) hfd hused hip

theorem desc_some (h : s.desc fd = some d) :
    fd < maxRemoteFds ∧ (s.fdTable fd).used = true
      ∧ (s.fdTable fd).ownerPid = d.owner ∧ (s.fdTable fd).readable = d.readable
      ∧ (s.fdTable fd).writable = d.writable
      ∧ ∃ ip, s.fdInodes fd = some ip ∧ (s.inodes ip).inum = d.inum := by
  obtain ⟨hfd, hused, ip, hip, rfl⟩ := look_some (g := FdEntry.desc) h
  exact ⟨hfd, hused, rfl, rfl, rfl, ip, hip, rfl⟩

/-- The entry of a descriptor that `lookup_remote_fd` finds. -/
theorem desc_of_lookup (h : Balanced s) (hfd : s.lookupRemoteFd pid n = some fd) :
    ∃ ip, s.fdInodes fd = some ip ∧ n = fd
      ∧ s.desc fd = some ⟨pid, (s.fdTable fd).readable, (s.fdTable fd).writable,
        (s.inodes ip).inum⟩ := by
  obtain ⟨hn, hlt, hused, hown⟩ := lookupRemoteFd_some hfd
  obtain ⟨ip, hip⟩ := Option.isSome_iff_exists.mp ((h.paired fd hlt).mp hused)
  refine ⟨ip, hip, hn, ?_⟩
  rw [desc_eq ip hlt hused hip, hown]

/-- And what it does not find is not there. -/
theorem desc_of_lookup_none (hnone : s.lookupRemoteFd pid n = none) (hn : n = fd)
    (hd : s.desc fd = some d) :
    d.owner ≠ pid := by
  obtain ⟨hlt, hused, hown, -⟩ := desc_some hd
  intro hpid
  unfold Srv.lookupRemoteFd at hnone
  subst hn
  rw [if_neg (by omega), Int.toNat_natCast, if_neg (by rw [hused]; simp),
    if_neg (by rw [hown, hpid]; simp)] at hnone
  cases hnone

-- ==== the file code

/-- Code that leaves the table alone leaves the files of its entries. -/
theorem desc_of_refs (hsame : SameFds s t)
    (h : Refs (fun i => (s.inodes i).inum) t H R) : t.desc = s.desc := by
  refine look_same (g := FdEntry.desc) hsame.table hsame.inodes fun fd ip hfd hip => ?_
  refine h.pinned ip (opens_pos hfd ?_)
  show t.fdInodes fd = some ip
  rw [hsame.inodes, hip]

theorem Balanced.fileCode (h : Balanced s)
    (ht : Refs (fun i => (s.inodes i).inum) t [] [] ∧ SameFds s t) :
    Balanced t ∧ t.desc = s.desc :=
  ⟨⟨ht.1.pin, ht.2.paired h.paired⟩, desc_of_refs ht.2 ht.1⟩

theorem desc_setOff (s : Srv) (fd : Nat) (f : FdEntry → FdEntry)
    (hused : (f (s.fdTable fd)).used = (s.fdTable fd).used)
    (hdesc : (f (s.fdTable fd)).desc = (s.fdTable fd).desc) :
    (s.setFd fd f).desc = s.desc := by
  funext i
  show (s.setFd fd f).look FdEntry.desc i = s.look FdEntry.desc i
  by_cases hi : i = fd
  · have hentry : (s.setFd fd f).fdTable fd = f (s.fdTable fd) := update_self ..
    unfold Srv.look
    rw [hi, hentry, hused, hdesc]
    rfl
  · exact look_congr (update_of_ne hi ..) rfl fun _ => rfl

-- ==== the handlers

theorem fsRead_desc (req : IpcMsg) (h : Balanced s) :
    Gives (fsRead req) s fun ans t => Balanced t ∧ t.desc = s.desc
      ∧ (0 < ans.result → ∃ fd d, req.fd = (fd : Nat) ∧ s.desc fd = some d
        ∧ d.owner = req.senderPid ∧ d.readable = true) := by
  unfold fsRead
  apply get_bind
  split
  next => exact ret ⟨h, rfl, fun hpos => by cases hpos⟩
  next fd hfd =>
    obtain ⟨ip, hip, hn, hd⟩ := desc_of_lookup h hfd
    split
    next => exact ret ⟨h, rfl, fun hpos => by cases hpos⟩
    next hread =>
      rw [hip]
      dsimp only
      split
      next => exact ret ⟨h, rfl, fun hpos => by cases hpos⟩
      refine (ureadi_keeps (refs_discipline _ s) ⟨h.refs, rfl, rfl⟩ ip _ _).seq
        fun r t ht => ?_
      obtain ⟨hbal, hdesc⟩ := h.fileCode ht
      split
      next => exact ret ⟨hbal, hdesc, fun hpos => by cases hpos⟩
      next bs =>
        apply modify_bind
        refine ret ⟨hbal.setOff fd _ rfl, ?_, fun _ => ⟨fd, _, hn, hd, rfl, ?_⟩⟩
        · exact (desc_setOff t fd _ rfl rfl).trans hdesc
        · exact Bool.eq_true_of_not_eq_false hread

theorem fsWrite_desc (req : IpcMsg) (h : Balanced s) :
    Gives (fsWrite req) s fun ans t => Balanced t ∧ t.desc = s.desc
      ∧ (0 < ans.result → ∃ fd d, req.fd = (fd : Nat) ∧ s.desc fd = some d
        ∧ d.owner = req.senderPid ∧ d.writable = true) := by
  unfold fsWrite
  apply get_bind
  split
  next => exact ret ⟨h, rfl, fun hpos => by cases hpos⟩
  next fd hfd =>
    obtain ⟨ip, hip, hn, hd⟩ := desc_of_lookup h hfd
    split
    next => exact ret ⟨h, rfl, fun hpos => by cases hpos⟩
    next hwrite =>
      rw [hip]
      refine (uwritei_keeps (refs_discipline _ s) ⟨h.refs, rfl, rfl⟩ ip _ _).seq
        fun n t ht => ?_
      obtain ⟨hbal, hdesc⟩ := h.fileCode ht
      split
      next => exact ret ⟨hbal, hdesc, fun hpos => by cases hpos⟩
      apply modify_bind
      refine ret ⟨hbal.setOff fd _ rfl, ?_, fun _ => ⟨fd, _, hn, hd, rfl, ?_⟩⟩
      · exact (desc_setOff t fd _ rfl rfl).trans hdesc
      · exact Bool.eq_true_of_not_eq_false hwrite

/-- A descriptor that was not opened for reading is refused to everyone. -/
theorem handle_unreadable (req : IpcMsg) (hd : s.desc fd = some d)
    (hmode : d.readable = false) (hfd : req.fd = fd)
    (htype : req.type = IpcMsgType.fsRead.code) :
    Ends (handle req) s fun r t => r = some (failed fd) ∧ t = s := by
  rw [handle_read htype]
  apply map
  apply get_bind
  rw [hfd]
  cases hl : s.lookupRemoteFd req.senderPid fd with
  | none => exact ret ⟨rfl, rfl⟩
  | some i =>
    obtain ⟨hi, -⟩ := lookupRemoteFd_some hl
    cases Int.ofNat.inj hi
    dsimp only
    rw [if_pos ((desc_some hd).2.2.2.1.trans hmode)]
    exact ret ⟨rfl, rfl⟩

theorem handle_unwritable (req : IpcMsg) (hd : s.desc fd = some d)
    (hmode : d.writable = false) (hfd : req.fd = fd)
    (htype : req.type = IpcMsgType.fsWrite.code) :
    Ends (handle req) s fun r t => r = some (failed fd) ∧ t = s := by
  rw [handle_write htype]
  apply map
  apply get_bind
  rw [hfd]
  cases hl : s.lookupRemoteFd req.senderPid fd with
  | none => exact ret ⟨rfl, rfl⟩
  | some i =>
    obtain ⟨hi, -⟩ := lookupRemoteFd_some hl
    cases Int.ofNat.inj hi
    dsimp only
    rw [if_pos ((desc_some hd).2.2.2.2.1.trans hmode)]
    exact ret ⟨rfl, rfl⟩

theorem fsClose_desc (req : IpcMsg) (h : Balanced s) :
    Gives (fsClose req) s fun ans t => Balanced t ∧
      ((∃ fd d, req.fd = (fd : Nat) ∧ s.desc fd = some d
        ∧ d.owner = req.senderPid ∧ ans.result = 0
        ∧ t.desc = update s.desc fd none)
      ∨ (ans.result = -1 ∧ t.desc = s.desc ∧ ∀ fd d, req.fd = (fd : Nat) →
        s.desc fd = some d → d.owner ≠ req.senderPid)) := by
  unfold fsClose
  apply get_bind
  split
  next hnone =>
    exact ret ⟨h, Or.inr ⟨rfl, rfl, fun fd d hn hd =>
      desc_of_lookup_none hnone hn hd⟩⟩
  next fd hfd =>
    obtain ⟨ip, hip, hn, hd⟩ := desc_of_lookup h hfd
    rw [hip]
    apply modify_bind
    apply modify_bind
    apply modify_bind
    exact ret ⟨h.close (lookupRemoteFd_some hfd).2.1 hip, Or.inl ⟨fd, _, hn, hd, rfl,
      rfl, look_dropFd (g := FdEntry.desc) s fd ip⟩⟩

/-- The entries that are left when process `pid` has gone. -/
def without (pid : Int) (D : Nat → Option Desc) (fd : Nat) : Option Desc :=
  (D fd).filter fun d => d.owner != pid

theorem closeAllForOwner_desc (pid : Int) (h : Balanced s) :
    Ends (closeAllForOwner pid) s fun _ t => Balanced t
      ∧ t.desc = without pid s.desc := by
  have hends := closeAllForOwner_ends pid
    (P := fun i t => Balanced t ∧ Closed pid s i t)
    (fun _ _ hj ht => ⟨ht.1.closeFor pid hj, ht.2.succ⟩) ⟨h, .zero pid s⟩
  exact hends.mono fun _ t ht =>
    ⟨ht.1, ht.2.look (g := FdEntry.desc) Desc.owner fun _ _ => rfl⟩

/-- After the end of `OPEN` the number found free is the file's. -/
theorem openFd_desc {ip : Nat} (h : Refs (fun i => (s.inodes i).inum) s [] [ip])
    (hpaired : ∀ fd, fd < maxRemoteFds → s.PairedAt fd) (pid flags : Int) :
    Gives (openFd pid flags ip) s fun ans t => Balanced t ∧
      ((ans.result < 0 ∧ t.desc = s.desc)
      ∨ ∃ fd, fd < maxRemoteFds ∧ s.desc fd = none ∧ ans.result = (fd : Nat)
        ∧ ans.fd = (fd : Nat) ∧ t.desc = update s.desc fd (some
          ⟨pid, !wrOnly flags, wrOnly flags || rdWr flags, (s.inodes ip).inum⟩)) := by
  apply Meets.bind
  unfold allocRemoteFd
  apply get_bind
  split
  next fd hfree =>
    obtain ⟨-, hlt, hunused, -⟩ := first_some hfree
    have hfd : fd < maxRemoteFds := by omega
    apply modify_bind
    apply ret
    apply modify_bind
    apply ret
    rw [Bool.not_eq_true'] at hunused
    refine ⟨balanced_addFd h hpaired hfd hunused rfl,
      Or.inr ⟨fd, hfd, if_neg fun hu => ?_, rfl, rfl, ?_⟩⟩
    · cases hunused.symm.trans hu.2
    · exact look_addFd (g := FdEntry.desc) hfd ip rfl
  next =>
    apply ret
    refine (uiput_keeps (refs_discipline _ s) ⟨h, rfl, rfl⟩).seq fun _ t ht => ?_
    exact ret ⟨⟨ht.1.pin, ht.2.paired hpaired⟩,
      Or.inl ⟨by show (-1 : Int) < 0; decide, desc_of_refs ht.2 ht.1⟩⟩

theorem fsOpen_desc (req : IpcMsg) (h : Balanced s) :
    Gives (fsOpen req) s fun ans t => Balanced t ∧
      ((ans.result < 0 ∧ t.desc = s.desc)
      ∨ ∃ fd inum, fd < maxRemoteFds ∧ s.desc fd = none
        ∧ ans.result = (fd : Nat) ∧ ans.fd = (fd : Nat)
        ∧ t.desc = update s.desc fd (some (granted req inum))) := by
  unfold fsOpen
  split
  next => exact fault trivial
  next path _ =>
    refine (openInode_keeps (refs_discipline _ s) ⟨h.refs, rfl, rfl⟩ path
      req.flags).seq fun r t ht => ?_
    split
    next =>
      obtain ⟨hbal, hdesc⟩ := h.fileCode ht
      exact ret ⟨hbal, Or.inl ⟨by show (-1 : Int) < 0; decide, hdesc⟩⟩
    next ip =>
      refine (uilock_keeps (refs_discipline _ s) ht ip).seq fun _ u hu => ?_
      have hdesc : u.desc = s.desc := desc_of_refs hu.2 hu.1
      refine (openFd_desc hu.1.pin (hu.2.paired h.paired) _ _).mono fun ans v hv => ?_
      rw [hdesc] at hv
      refine ⟨hv.1, hv.2.imp_right ?_⟩
      rintro ⟨fd, h1, h2, h3, h4, h5⟩
      exact ⟨fd, _, h1, h2, h3, h4, h5⟩

-- ==== reference balance

theorem handle_balanced (req : IpcMsg) (h : Balanced s) :
    Gives (handle req) s fun _ t => Balanced t := by
  unfold handle
  split
  next =>
    exact (closeAllForOwner_balanced _ h).lift.seq fun _ t ht => ret ht
  split
  next =>
    exact (closeAllForOwner_balanced _ h).lift.seq fun _ t ht => ret ht
  split
  next => exact ((fsOpen_desc req h).mono fun _ _ ht => ht.1).map
  split
  next => exact ((fsRead_desc req h).mono fun _ _ ht => ht.1).map
  split
  next => exact ((fsWrite_desc req h).mono fun _ _ ht => ht.1).map
  split
  next => exact ((fsClose_desc req h).mono fun _ _ ht => ht.1).map
  next => exact ret h

/-- Between two requests, whatever was asked by whom and whichever disk
requests failed: no buffer is held, a descriptor is used exactly if it has
an inode, an inode's references are the used descriptors that point at it,
and no inode is in the cache twice. -/
theorem reference_balance (disk : Disk) (diskOk : Nat → Bool)
    (reqs : List IpcMsg) (s : Srv)
    (hr : runs Srv.serve (Srv.boot disk diskOk) reqs = some s) :
    (∀ i, i < nbuf → (s.bufs i).refcnt = 0)
      ∧ (∀ fd, fd < maxRemoteFds →
        ((s.fdTable fd).used = true ↔ (s.fdInodes fd).isSome = true))
      ∧ (∀ i, i < ninode → (s.inodes i).ref = ((Finset.range maxRemoteFds).filter
        fun fd => (s.fdTable fd).used = true ∧ s.fdInodes fd = some i).card)
      ∧ ∀ i j, i < ninode → j < ninode → 0 < (s.inodes i).ref →
        0 < (s.inodes j).ref → (s.inodes i).dev = (s.inodes j).dev →
        (s.inodes i).inum = (s.inodes j).inum → i = j := by
  have hbal : Balanced s := by
    refine runs_invariant (fun t req u ht hserve => ?_)
      (balanced_boot disk diskOk) hr
    obtain ⟨r, hexec⟩ := Srv.serve_some hserve
    exact (handle_balanced req ht).elim hexec
  refine ⟨fun i hi => ?_, hbal.paired, fun i hi => ?_, hbal.refs.distinct⟩
  · rw [hbal.refs.bufs i hi]
    rfl
  · rw [hbal.refs.nodes i hi, List.count_nil, Nat.add_zero]
    unfold Core.opens
    congr 2
    refine Finset.filter_congr fun fd hfd => ?_
    refine ⟨fun hopen => ⟨?_, hopen⟩, fun h => h.2⟩
    refine (hbal.paired fd (Finset.mem_range.mp hfd)).mpr ?_
    rw [show s.fdInodes fd = some i from hopen]
    rfl

/-- `open("/", O_RDONLY)` by process 3. -/
def openRoot : IpcMsg :=
  { IpcMsg.zero with
    senderPid := 3
    type := IpcMsgType.fsOpen.code
    path := Bytes.zero.blit 0 [slash] }

/-- Two opens of the root directory over an empty disk that fails every
other request. -/
theorem reference_balance_openRoot :
    ∃ s, runs Srv.serve (Srv.boot (fun _ => Bytes.zero) fun n => n % 2 == 0)
        [openRoot, openRoot] = some s
      ∧ (s.inodes 0).ref = 2 ∧ ∀ i, i < nbuf → (s.bufs i).refcnt = 0 := by
  have heval : (runs Srv.serve (Srv.boot (fun _ => Bytes.zero)
      fun n => n % 2 == 0) [openRoot, openRoot]).map
        (fun s => (s.inodes 0).ref) = some 2 := by
    decide +kernel
  obtain ⟨s, hs, href⟩ := Option.map_eq_some_iff.mp heval
  exact ⟨s, hs, href, (reference_balance _ _ _ s hs).1⟩

end Xv6FsServer.Server
