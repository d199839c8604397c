/-
Clients cannot reach each other's descriptors.

The file code under the handlers never touches the descriptor table
(`SameFds`), whatever state the server is in and however the code ends. A
handler touches the entries of one owner, the sender of the request
(`Reaches`), and `lookup_remote_fd` finds nothing under another owner's
number. The sender is the kernel's word, not the client's: a stored
message carries the id of the process that stored it (`stored_stamped`).
-/
import Xv6FsServer.Ipc.Proofs.Delivery
import Xv6FsServer.Server.Proofs.Table

namespace Xv6FsServer.Server

open Lib Fs Function Meets
open Ipc (IpcMsg IpcMsgType Answer)

variable {s t : Srv}
variable {pid : Int} {fd : Nat} {req : IpcMsg}

-- ==== the file code

/-- The descriptor table as it was. -/
structure SameFds (s t : Srv) : Prop where
  table : t.fdTable = s.fdTable
  inodes : t.fdInodes = s.fdInodes

/-- The file code changes nothing but buffers, inodes and the disk. -/
theorem fds_discipline (s : Srv) :
    Discipline (SameFds s) fun t _ _ => SameFds s t where
  stop := id
  congr h _ _ htable hinodes := ⟨htable.trans h.table, hinodes.trans h.inodes⟩
  hold h _ := ⟨h.table, h.inodes⟩
  setData h _ := ⟨h.table, h.inodes⟩
  release h := ⟨h.table, h.inodes⟩
  share h _ := ⟨h.table, h.inodes⟩
  enter h _ _ _ _ := ⟨h.table, h.inodes⟩
  setFields h _ _ _ := ⟨h.table, h.inodes⟩
  put h := ⟨h.table, h.inodes⟩
  perm h _ := h

theorem ureadi_sameFds (s : Srv) (ip off n : Nat) :
    Leaves (SameFds s) (ureadi ip off n) s fun _ t => SameFds s t :=
  ureadi_keeps (fds_discipline s) (H := []) (R := []) ⟨rfl, rfl⟩ ip off n

theorem uwritei_sameFds (s : Srv) (ip : Nat) (src : List UInt8) (off : Nat) :
    Leaves (SameFds s) (uwritei ip src off) s fun _ t => SameFds s t :=
  uwritei_keeps (fds_discipline s) (H := []) (R := []) ⟨rfl, rfl⟩ ip src off

theorem readsb_sameFds : Within SameFds readsb := .of_leaves fun s =>
  readsb_keeps (fds_discipline s) (H := []) (R := []) ⟨rfl, rfl⟩

-- ==== the handlers

/-- Each descriptor is as it was, or is `pid`'s before and after, if in use. -/
structure Reaches (pid : Int) (s t : Srv) : Prop where
  entry : ∀ fd, (t.fdTable fd = s.fdTable fd ∧ t.fdInodes fd = s.fdInodes fd)
    ∨ ((s.fdTable fd).used = true → (s.fdTable fd).ownerPid = pid)
      ∧ ((t.fdTable fd).used = true → (t.fdTable fd).ownerPid = pid)

instance (pid : Int) : Std.Refl (Reaches pid) :=
  ⟨fun _ => ⟨fun _ => Or.inl ⟨rfl, rfl⟩⟩⟩

instance (pid : Int) : IsTrans Srv (Reaches pid) := by
  refine ⟨fun s t u h h' => ⟨fun fd => ?_⟩⟩
  rcases h'.entry fd with ⟨h1, h2⟩ | ⟨h1, h2⟩
  · rw [h1, h2]
    exact h.entry fd
  · rcases h.entry fd with ⟨h3, -⟩ | ⟨h3, -⟩
    · exact Or.inr ⟨h3 ▸ h1, h2⟩
    · exact Or.inr ⟨h3, h2⟩

theorem SameFds.reaches (h : SameFds s t) (pid : Int) : Reaches pid s t :=
  ⟨fun fd => Or.inl ⟨congrFun h.table fd, congrFun h.inodes fd⟩⟩

/-- Code that leaves the descriptor table alone. -/
theorem reaches_of_sameFds {α : Type} {x : Op α} (pid : Int)
    (h : ∀ s, Leaves (SameFds s) x s fun _ t => SameFds s t) :
    Within (Reaches pid) x :=
  (Within.of_leaves h).imp fun _ _ hst => hst.reaches pid

/-- One entry changes, and is `pid`'s before and after, if in use. -/
theorem Reaches.at (fd : Nat)
    (hs : (s.fdTable fd).used = true → (s.fdTable fd).ownerPid = pid)
    (ht : (t.fdTable fd).used = true → (t.fdTable fd).ownerPid = pid)
    (htable : ∀ i, i ≠ fd → t.fdTable i = s.fdTable i)
    (hinodes : ∀ i, i ≠ fd → t.fdInodes i = s.fdInodes i) : Reaches pid s t := by
  refine ⟨fun i => ?_⟩
  by_cases hi : i = fd
  · subst hi
    exact Or.inr ⟨hs, ht⟩
  · exact Or.inl ⟨htable i hi, hinodes i hi⟩

theorem lookupRemoteFd_some {n : Int} (h : s.lookupRemoteFd pid n = some fd) :
    n = fd ∧ fd < maxRemoteFds ∧ (s.fdTable fd).used = true
      ∧ (s.fdTable fd).ownerPid = pid := by
  unfold Srv.lookupRemoteFd at h
  split at h
  · cases h
  next hrange =>
    split at h
    · cases h
    next hused =>
      split at h
      · cases h
      next hown =>
        cases h
        refine ⟨by omega, by omega, by simpa using hused, by simpa using hown⟩

/-- Another owner's number is not found. -/
theorem lookupRemoteFd_foreign (hown : (s.fdTable fd).ownerPid ≠ pid) :
    s.lookupRemoteFd pid fd = none := by
  cases h : s.lookupRemoteFd pid fd with
  | none => rfl
  | some i =>
    obtain ⟨hi, -, -, hpid⟩ := lookupRemoteFd_some h
    have hi : fd = i := by exact_mod_cast hi
    exact absurd (hi ▸ hpid) hown

/-- An entry of `pid`'s own changes, and keeps its owner. -/
theorem Reaches.keepOwner {f : FdEntry → FdEntry} (hown : (s.fdTable fd).ownerPid = pid)
    (hf : ∀ e, (f e).ownerPid = e.ownerPid)
    (htable : t.fdTable = update s.fdTable fd (f (s.fdTable fd)))
    (hinodes : ∀ i, i ≠ fd → t.fdInodes i = s.fdInodes i) : Reaches pid s t := by
  refine .at fd (fun _ => hown) (fun _ => ?_) (fun i hi => ?_) hinodes
  · rw [htable, update_self, hf]
    exact hown
  · rw [htable, update_of_ne hi]

theorem Closed.reaches {i : Nat} (h : Closed pid s i t) : Reaches pid s t := by
  refine ⟨fun fd => ?_⟩
  have htable := h.table fd
  by_cases hmine : (s.fdTable fd).used ∧ (s.fdTable fd).ownerPid = pid
  · refine Or.inr ⟨fun _ => hmine.2, fun _ => ?_⟩
    rw [FdEntry.closedFor_of hmine] at htable
    rw [htable]
    split
    next => exact hmine.2
    next => exact hmine.2
  · rw [FdEntry.closedFor_of_not hmine, ite_self] at htable
    exact Or.inl ⟨htable, h.inodes fd hmine⟩

theorem closeAllForOwner_reaches (pid : Int) :
    Within (Reaches pid) (closeAllForOwner pid) :=
  .of_leaves fun s => ((closeAllForOwner_closed pid s).mono fun _ _ h => h.reaches).lift

theorem openFd_reaches (pid flags : Int) (ip : Nat) :
    Within (Reaches pid) (openFd pid flags ip) := by
  refine .of_leaves fun s => ?_
  apply Meets.bind
  unfold allocRemoteFd
  apply get_bind
  cases hfree : first (fun i => !(s.fdTable i).used) 0 maxRemoteFds with
  | none =>
    apply ret
    apply modify_bind
    have hsame := (fds_discipline s).put (i := ip) (H := []) (R := []) ⟨rfl, rfl⟩
    exact ret (hsame.reaches pid)
  | some fd =>
    obtain ⟨-, -, hunused, -⟩ := first_some hfree
    apply modify_bind
    apply ret
    apply modify_bind
    apply ret
    refine .at fd (fun hused => ?_) (fun _ => ?_) (fun _ hj => update_of_ne hj ..)
      fun _ hj => update_of_ne hj ..
    · rw [hused] at hunused
      cases hunused
    · show (update s.fdTable fd _ fd).ownerPid = pid
      rw [update_self]

theorem fsOpen_reaches (req : IpcMsg) :
    Within (Reaches req.senderPid) (fsOpen req) := by
  unfold fsOpen
  split
  · exact .fault _
  next path _ =>
    have hopen := reaches_of_sameFds req.senderPid fun s =>
      openInode_keeps (fds_discipline s) (H := []) (R := []) ⟨rfl, rfl⟩ path req.flags
    apply Within.bind hopen
    intro r
    split
    · exact .ret _
    next ip =>
      have hlock := reaches_of_sameFds req.senderPid fun s =>
        uilock_keeps (fds_discipline s) (H := []) (R := []) ⟨rfl, rfl⟩ ip
      exact .bind hlock fun _ => openFd_reaches ..

/-- After code that leaves the table alone, the descriptor that was looked
up is still the sender's. -/
theorem Reaches.own {n : Int} (hfd : s.lookupRemoteFd pid n = some fd) (h : SameFds s t)
    (f : FdEntry → FdEntry) (hf : ∀ e, (f e).ownerPid = e.ownerPid) :
    Reaches pid s (t.setFd fd f) := by
  refine .keepOwner (lookupRemoteFd_some hfd).2.2.2 hf ?_ fun i _ => congrFun h.inodes i
  rw [← h.table]
  rfl

theorem fsRead_reaches (req : IpcMsg) :
    Within (Reaches req.senderPid) (fsRead req) := by
  refine .of_leaves fun s => ?_
  unfold fsRead
  apply get_bind
  cases hfd : s.lookupRemoteFd req.senderPid req.fd with
  | none => exact (Within.ret _).leaves s
  | some fd =>
    dsimp only
    split
    · exact (Within.ret _).leaves s
    split
    · exact (Within.ret _).leaves s
    split
    · exact (Within.ret _).leaves s
    refine ((ureadi_sameFds s ..).weaken fun _ _ h => h.reaches _).seq
      fun r t h => ?_
    split
    · exact ret (h.reaches _)
    · apply modify_bind
      exact ret (.own hfd h _ fun _ => rfl)

theorem fsWrite_reaches (req : IpcMsg) :
    Within (Reaches req.senderPid) (fsWrite req) := by
  refine .of_leaves fun s => ?_
  unfold fsWrite
  apply get_bind
  cases hfd : s.lookupRemoteFd req.senderPid req.fd with
  | none => exact (Within.ret _).leaves s
  | some fd =>
    dsimp only
    split
    · exact (Within.ret _).leaves s
    split
    · exact (Within.ret _).leaves s
    refine ((uwritei_sameFds s ..).weaken fun _ _ h => h.reaches _).seq
      fun r t h => ?_
    split
    · exact ret (h.reaches _)
    · apply modify_bind
      exact ret (.own hfd h _ fun _ => rfl)

theorem fsClose_reaches (req : IpcMsg) :
    Within (Reaches req.senderPid) (fsClose req) := by
  refine .of_leaves fun s => ?_
  unfold fsClose
  apply get_bind
  cases hfd : s.lookupRemoteFd req.senderPid req.fd with
  | none => exact (Within.ret _).leaves s
  | some fd =>
    have hown := (lookupRemoteFd_some hfd).2.2.2
    dsimp only
    split
    · apply modify_bind
      apply modify_bind
      apply modify_bind
      exact ret (.keepOwner hown (f := fun e => { e with used := false })
        (fun _ => rfl) rfl fun _ hj => update_of_ne hj ..)
    · apply modify_bind
      exact ret (.keepOwner hown (f := fun e => { e with used := false })
        (fun _ => rfl) rfl fun _ _ => rfl)

/-- Whatever a request says, it reaches the descriptors of its sender
only. -/
theorem handle_reaches (req : IpcMsg) :
    Within (Reaches req.senderPid) (handle req) := by
  unfold handle
  split
  · exact .bind (closeAllForOwner_reaches _) fun _ => .ret _
  split
  · exact .bind (closeAllForOwner_reaches _) fun _ => .ret _
  split
  · exact (fsOpen_reaches req).map
  split
  · exact (fsRead_reaches req).map
  split
  · exact (fsWrite_reaches req).map
  · split
    · exact (fsClose_reaches req).map
    · exact .ret _

-- ==== by request type

theorem handle_open (h : req.type = IpcMsgType.fsOpen.code) :
    handle req = some <$> fsOpen req := by
  unfold handle
  rw [h, if_neg (by decide), if_neg (by decide), if_pos rfl]

theorem handle_read (h : req.type = IpcMsgType.fsRead.code) :
    handle req = some <$> fsRead req := by
  unfold handle
  rw [h, if_neg (by decide), if_neg (by decide), if_neg (by decide), if_pos rfl]

theorem handle_write (h : req.type = IpcMsgType.fsWrite.code) :
    handle req = some <$> fsWrite req := by
  unfold handle
  rw [h, if_neg (by decide), if_neg (by decide), if_neg (by decide),
    if_neg (by decide), if_pos rfl]

theorem handle_close (h : req.type = IpcMsgType.fsClose.code) :
    handle req = some <$> fsClose req := by
  unfold handle
  rw [h, if_neg (by decide), if_neg (by decide), if_neg (by decide),
    if_neg (by decide), if_neg (by decide), if_pos rfl]

theorem handle_clientExit (h : req.type = IpcMsgType.fsClientExit.code) :
    handle req = (do
      closeAllForOwner req.senderPid
      pure none) := by
  unfold handle
  rw [h, if_neg (by decide), if_pos rfl]

-- ==== isolation

/-- A request for a descriptor that is not the sender's. -/
theorem handle_foreign (hfd : req.fd = fd)
    (hown : (s.fdTable fd).ownerPid ≠ req.senderPid)
    (htype : req.type = IpcMsgType.fsRead.code
      ∨ req.type = IpcMsgType.fsWrite.code
      ∨ req.type = IpcMsgType.fsClose.code) :
    Ends (handle req) s fun r t => r = some (failed fd) ∧ t = s := by
  have hnone : s.lookupRemoteFd req.senderPid req.fd = none := by
    rw [hfd]
    exact lookupRemoteFd_foreign hown
  rcases htype with h | h | h
  · rw [handle_read h]
    apply map
    apply get_bind
    rw [hnone, hfd]
    exact ret ⟨rfl, rfl⟩
  · rw [handle_write h]
    apply map
    apply get_bind
    rw [hnone, hfd]
    exact ret ⟨rfl, rfl⟩
  · rw [handle_close h]
    apply map
    apply get_bind
    rw [hnone, hfd]
    exact ret ⟨rfl, rfl⟩

/-- Every message that reaches a mailbox, from whatever process and with
whatever it says of its sender, its descriptor and its type, leaves the
descriptors of the other owners as they are, in every state of the server
and however its handling ends; and a `READ`, `WRITE` or `CLOSE` on such a
descriptor is answered -1 and changes nothing at all. -/
theorem descriptor_isolation {acts : List Ipc.Act} {k k' : Ipc.Kernel}
    {a : Ipc.Act} {d : Ipc.Stored} (hr : runs Ipc.step Ipc.boot acts = some k)
    (hs : Ipc.step k a = some k') (hd : k'.stored = k.stored ++ [d])
    (s : Srv) (fd : Nat) (hused : (s.fdTable fd).used = true)
    (hother : (s.fdTable fd).ownerPid ≠ (k.procs a.actor).pid) :
    (exec (handle d.msg) s).2.fdTable fd = s.fdTable fd
      ∧ (exec (handle d.msg) s).2.fdInodes fd = s.fdInodes fd
      ∧ (d.msg.fd = fd → (d.msg.type = IpcMsgType.fsRead.code
          ∨ d.msg.type = IpcMsgType.fsWrite.code
          ∨ d.msg.type = IpcMsgType.fsClose.code) →
        ∃ ans, exec (handle d.msg) s = (.ok (some ans), s)
          ∧ ans.result = -1) := by
  have hpid := Ipc.stored_stamped hr hs hd
  rw [← hpid] at hother
  have hkept : (exec (handle d.msg) s).2.fdTable fd = s.fdTable fd
      ∧ (exec (handle d.msg) s).2.fdInodes fd = s.fdInodes fd :=
    (((handle_reaches d.msg).kept s).entry fd).resolve_right fun h =>
      hother (h.1 hused)
  refine ⟨hkept.1, hkept.2, ?_⟩
  intro hfd htype
  obtain ⟨r, t, hexec, rfl, rfl⟩ := (handle_foreign hfd hother htype).run
  exact ⟨failed fd, hexec, rfl⟩

/-- Init has forked the server and tells it, as process 7, to close
descriptor 0. -/
def forgedClose : List Ipc.Act :=
  [.sched 0, .fork 0, .forkReset 0, .forkDone 0, .sysret 0,
    .send 0 2 { IpcMsg.zero with type := IpcMsgType.fsClose.code, senderPid := 7 }]

/-- Descriptor 0 is open for process 7. -/
def heldBySeven : Srv :=
  (Srv.zero (fun _ => Bytes.zero) fun _ => true).setFd 0 fun e =>
    { e with used := true, ownerPid := 7 }

theorem descriptor_isolation_forged :
    ∃ k k' d, runs Ipc.step Ipc.boot forgedClose = some k
      ∧ Ipc.step k (.enter 0) = some k' ∧ k'.stored = k.stored ++ [d]
      ∧ ∃ ans, exec (handle d.msg) heldBySeven = (.ok (some ans), heldBySeven)
        ∧ ans.result = -1 := by
  have h1 : (runs Ipc.step Ipc.boot forgedClose).map (fun k => (k.stored.length,
      (k.procs 0).pid)) = some (0, 1) := by decide
  have h2 : (runs Ipc.step Ipc.boot (forgedClose ++ [.enter 0])).map
      (fun k => k.stored.map fun d => (d.msg.fd, d.msg.type))
      = some [(0, IpcMsgType.fsClose.code)] := by decide
  obtain ⟨k, hk, hlen⟩ := Option.map_eq_some_iff.mp h1
  obtain ⟨k', hk', hmap⟩ := Option.map_eq_some_iff.mp h2
  obtain ⟨k₁, hk₁, hstep⟩ := runs_append_some hk'
  cases hk₁.symm.trans hk
  obtain ⟨k₂, hstep, hend⟩ := runs_cons hstep
  cases hend
  obtain ⟨hlen, hpid⟩ := Prod.mk.inj hlen
  obtain ⟨d, hd, hfd, htype⟩ : ∃ d, k'.stored = [d] ∧ d.msg.fd = 0
      ∧ d.msg.type = IpcMsgType.fsClose.code := by
    obtain ⟨d, hd, hmsg⟩ := List.map_eq_singleton_iff.mp hmap
    obtain ⟨h3, h4⟩ := Prod.mk.inj hmsg
    exact ⟨d, hd, h3, h4⟩
  have hd' : k'.stored = k.stored ++ [d] := by
    rw [List.eq_nil_of_length_eq_zero hlen, hd]
    rfl
  refine ⟨k, k', d, hk, hstep, hd', ?_⟩
  refine (descriptor_isolation hk hstep hd' heldBySeven 0 rfl ?_).2.2 hfd
    (Or.inr (Or.inr htype))
  show (7 : Int) ≠ ((k.procs 0).pid : Int)
  rw [hpid]
  decide

end Xv6FsServer.Server
