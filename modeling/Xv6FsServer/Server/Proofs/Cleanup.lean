/-
Dead clients and the descriptor table.

The handlers are the ones `main`'s loop runs in the protocol machine
(`fsHandler`). A request leaves each entry of the table as it was, or its
sender's (`Reaches`), and `close_all_for_owner` ends with no entry of its
owner, so the table is what the protocol's farewell is about
(`fsHandler_keeps`).
-/
import Xv6FsServer.Ipc.Proofs.Farewell
import Xv6FsServer.Server.Proofs.Isolation

namespace Xv6FsServer.Server

open Lib Fs Function
open Ipc (IpcMsg IpcMsgType Answer Handler World WAct start)

variable {s t : Srv}

/-- The handlers in `main`'s loop. Where a handler does not return, the
server is gone; the state is then the one it got to. -/
def fsHandler : Handler Srv where
  serve := fun s req =>
    match exec (handle req) s with
    | (.ok (some ans), t) => (t, ans)
    | (_, t) => (t, failed (-1))
  closeAllForOwner := fun s pid => (exec (closeAllForOwner pid) s).2

/-- An entry of the table is in use and belongs to process `p`. -/
def Srv.Owns (s : Srv) (p : Nat) : Prop :=
  ∃ fd < maxRemoteFds, (s.fdTable fd).used = true
    ∧ (s.fdTable fd).ownerPid = p

-- ==== what a request adds

theorem FdEntry.closedFor_used {e : FdEntry} {pid : Int}
    (h : (e.closedFor pid).used = true) : e.closedFor pid = e ∧ e.ownerPid ≠ pid := by
  by_cases hmine : e.used ∧ e.ownerPid = pid
  · rw [closedFor_of hmine] at h
    cases h
  · have he := closedFor_of_not hmine
    rw [he] at h
    exact ⟨he, fun h1 => hmine ⟨h, h1⟩⟩

/-- `close_all_for_owner` leaves nothing of its owner and adds nothing. -/
theorem closeAllForOwner_owns {pid : Int} {p : Nat}
    (h : (exec (closeAllForOwner pid) s).2.Owns p) : s.Owns p ∧ pid ≠ p := by
  obtain ⟨_, t, hexec, ht⟩ := (closeAllForOwner_closed pid s).run
  rw [hexec] at h
  obtain ⟨fd, hfd, hused, hown⟩ := h
  rw [ht.table fd, if_pos hfd] at hused hown
  obtain ⟨h1, h2⟩ := FdEntry.closedFor_used hused
  rw [h1] at hused hown
  exact ⟨⟨fd, hfd, hused, hown⟩, fun h3 => h2 (hown.trans h3.symm)⟩

/-- A request adds entries for its sender only. -/
theorem Reaches.owns {pid : Int} {p : Nat} (h : Reaches pid s t) (hp : pid ≠ p)
    (hown : t.Owns p) : s.Owns p := by
  obtain ⟨fd, hfd, h1, h2⟩ := hown
  rcases h.entry fd with ⟨h3, -⟩ | ⟨-, h3⟩
  · rw [h3] at h1 h2
    exact ⟨fd, hfd, h1, h2⟩
  · exact absurd ((h3 h1).symm.trans h2) hp

-- ==== whole runs

theorem fsHandler_state (s : Srv) (req : IpcMsg) :
    (fsHandler.serve s req).1 = (exec (handle req) s).2 := by
  unfold fsHandler
  dsimp only
  split
  next hexec => rw [hexec]
  next hexec => rw [hexec]

theorem fsHandler_keeps : Ipc.Keeps fsHandler Srv.Owns := by
  refine ⟨?_, fun fs pid p h => closeAllForOwner_owns h⟩
  intro fs req p hp hown
  rw [fsHandler_state] at hown
  exact ((handle_reaches req).kept fs).owns hp hown

theorem boot_owns (disk : Disk) (diskOk : Nat → Bool) (p : Nat) :
    ¬ (Srv.boot disk diskOk).Owns p := by
  rintro ⟨fd, -, h1, -⟩
  rw [Srv.boot, (readsb_sameFds.kept _).table] at h1
  cases h1

/-- Clients that open files, are killed and exit, in any interleaving, with
a server on any disk: as long as no killed process tries to send the
message of its `exit` while the server's mailbox is full, a process that is
a zombie or reaped, and of which no message is in the server's mailbox or in
hand, owns no entry of the descriptor table. -/
theorem dead_client_owns_nothing (disk : Disk) (diskOk : Nat → Bool)
    (acts : List WAct) (w : World Srv) (hok : Along (World.step fsHandler)
      (fun w b => b.fileCallsOnly ∧ Ipc.Heard w b)
      (start (Srv.boot disk diskOk)) acts)
    (hr : runs (World.step fsHandler) (start (Srv.boot disk diskOk)) acts = some w)
    (p : Nat) (hd : Ipc.Dead w.kernel p) (hno : ¬ w.Hears p) :
    ∀ fd < maxRemoteFds, ¬ ((w.fs.fdTable fd).used = true
      ∧ (w.fs.fdTable fd).ownerPid = p) := by
  have hinv := Ipc.parting_run fsHandler_keeps (boot_owns disk diskOk) hok hr
  intro fd hfd ⟨h1, h2⟩
  exact hinv.nothing hd hno ⟨fd, hfd, h1, h2⟩

/-- Init forks a client in slot 2, and its request to open `a` is in the
server's mailbox. -/
def clientOpens : List WAct :=
  [.kernel (.sched 0), .kernel (.fork 0), .kernel (.forkReset 0),
    .kernel (.forkDone 0), .kernel (.sysret 0), .kernel (.sched 2),
    .kernel (.call 2 { IpcMsg.zero with
      type := IpcMsgType.fsOpen.code, path := Bytes.zero.blit 0 [97] }),
    .kernel (.enter 2), .kernel (.enter 2)]

/-- The server receives, handles and answers one request. -/
def serverServes : List WAct :=
  [.kernel (.sched 1), .serve, .kernel (.enter 1), .kernel (.sysret 1), .serve,
    .kernel (.enter 1), .kernel (.sysret 1), .serve, .kernel (.yield 1)]

/-- The client takes the reply and exits, and the server is told. -/
def clientLeaves : List WAct :=
  [.kernel (.sched 2), .kernel (.sysret 2), .kernel (.exit 2), .kernel (.enter 2),
    .kernel (.exitFinal 2), .kernel (.sched 1), .serve, .kernel (.enter 1),
    .kernel (.sysret 1), .serve]

/-- The client is killed while its request waits, and exits. -/
def clientKilled : List WAct :=
  [.kernel (.kill 0 3), .kernel (.sched 2), .kernel (.sysret 2), .kernel (.enter 2),
    .kernel (.exitFinal 2)]

/-- The client in slot 2 is a zombie, and the server is idle at the top of
its loop. -/
def clientGone (w : World Srv) : Bool :=
  decide ((w.kernel.procs 2).state = .zombie ∧ (w.kernel.procs 2).pid = 3
      ∧ (w.kernel.procs 1).hasMsg = false) &&
    match w.phase with
    | .loop => true
    | _ => false

theorem clientGone_dead {w : World Srv} (h : clientGone w = true) :
    Ipc.Dead w.kernel 3 ∧ ¬ w.Hears 3 := by
  unfold clientGone at h
  rw [Bool.and_eq_true, decide_eq_true_eq] at h
  obtain ⟨⟨hstate, hpid, hmail⟩, hphase⟩ := h
  refine ⟨Or.inl ⟨2, hpid, hstate⟩, ?_⟩
  rintro (⟨hfull, -⟩ | ⟨⟨hph, -⟩, -⟩)
  · cases hmail.symm.trans hfull
  · rw [hph] at hphase
    cases hphase

/-- The client's descriptor is used and released again. -/
theorem dead_client_owns_nothing_clientLeaves :
    ∃ w, runs (World.step fsHandler) (start (Srv.boot smallImage fun _ => true))
        (clientOpens ++ serverServes ++ clientLeaves) = some w
      ∧ Ipc.Dead w.kernel 3
      ∧ ∀ fd < maxRemoteFds, ¬ ((w.fs.fdTable fd).used = true
        ∧ (w.fs.fdTable fd).ownerPid = (3 : Nat)) := by
  have heval : (runs (World.step fsHandler)
      (start (Srv.boot smallImage fun _ => true))
      (clientOpens ++ serverServes ++ clientLeaves)).map clientGone
      = some true := by decide +kernel
  obtain ⟨w, hw, hgone⟩ := Option.map_eq_some_iff.mp heval
  obtain ⟨hd, hno⟩ := clientGone_dead hgone
  exact ⟨w, hw, hd, dead_client_owns_nothing smallImage (fun _ => true) _ w
    (by decide +kernel) hw 3 hd hno⟩

/-- The client is killed while its `OPEN` waits in the server's mailbox. Its
`CLIENT_EXIT` finds the mailbox full and is dropped; the server then serves
the `OPEN`, and the zombie owns descriptor 0, with no message left to release
it. -/
theorem killed_client_owns_descriptor :
    (∀ b ∈ clientOpens ++ clientKilled ++ serverServes, b.fileCallsOnly)
      ∧ ∃ w, runs (World.step fsHandler)
          (start (Srv.boot smallImage fun _ => true))
          (clientOpens ++ clientKilled ++ serverServes) = some w
        ∧ Ipc.Dead w.kernel 3 ∧ ¬ w.Hears 3
        ∧ (w.fs.fdTable 0).used = true
        ∧ (w.fs.fdTable 0).ownerPid = (3 : Nat) := by
  refine ⟨by decide, ?_⟩
  have heval : (runs (World.step fsHandler)
      (start (Srv.boot smallImage fun _ => true))
      (clientOpens ++ clientKilled ++ serverServes)).map (fun w =>
        (clientGone w, (w.fs.fdTable 0).used, (w.fs.fdTable 0).ownerPid))
      = some (true, true, 3) := by decide +kernel
  obtain ⟨w, hw, hval⟩ := Option.map_eq_some_iff.mp heval
  obtain ⟨hgone, hval⟩ := Prod.mk.inj hval
  obtain ⟨hused, hown⟩ := Prod.mk.inj hval
  obtain ⟨hd, hno⟩ := clientGone_dead hgone
  exact ⟨w, hw, hd, hno, hused, hown⟩

end Xv6FsServer.Server
