/-
Whether a client can hold up the server.

fsserver answers a request with a `send`, and `send` sleeps while the
mailbox of its target is full. A process that lives but does not empty its
mailbox holds up the server, and with it everybody else (`server_held_up`):
two requests sent without a `recv` between them are enough.

`Patient` is what has to hold for this never to happen: when the server
takes a request, its sender has room for the reply, and nobody else fills
the sender's mailbox before the reply is there. Then the server does not
sleep in `ipc_send_msg` at all (`server_not_blocked`). A sender without room
may still make some in time, but the server cannot count on it.
-/
import Xv6FsServer.Ipc.Proofs.Agreement
import Xv6FsServer.Ipc.Proofs.Family

namespace Xv6FsServer.Ipc

open Lib Function

variable {σ : Type} {w w' : World σ} {h : Handler σ} {s s' : Kernel} {a : Act}
  {k : Kernel}
variable {p : Int}
variable {t : Nat} {pid : Int} {msg : IpcMsg} {kd : SendFor} {pc : Pc}
variable {hd : Handler σ}

-- ==== the condition

/-- The step puts a message into the mailbox of this slot. -/
def Kernel.fills (s : Kernel) : Act → Option Nat
  | .enter i =>
    match (s.procs i).pc with
    | .toSend pid msg _ =>
      match s.findPid pid with
      | some t =>
        if validIpcMsg (msg.from (s.procs i).pid) && !(s.procs t).rejects
            && !(s.procs t).hasMsg then some t
        else none
      | none => none
    | _ => none
  | .sched i =>
    match (s.procs i).pc with
    | .sendLoop _ t _ _ => if (s.procs t).hasMsg then none else some t
    | _ => none
  | _ => none

/-- The step takes a message out of the caller's mailbox. -/
def Kernel.takes (s : Kernel) : Act → Bool
  | .enter i =>
    match (s.procs i).pc with
    | .toRecv _ => (s.procs i).hasMsg
    | _ => false
  | .sched i =>
    match (s.procs i).pc with
    | .recvLoop _ => (s.procs i).hasMsg
    | _ => false
  | _ => false

/-- A process that is there has a full mailbox. -/
def Kernel.full (s : Kernel) (pid : Int) : Bool :=
  match s.findPid pid with
  | some t => !(s.procs t).gone && (s.procs t).hasMsg
  | none => false

/-- The process whose request the server has in its hands, or is about to
answer. A `CLIENT_EXIT` gets no answer. -/
def World.client (w : World σ) : Option Int :=
  let p := w.kernel.procs serverSlot
  match w.phase, p.pc with
  | .receiving, .ret false | .receiving, .user =>
    if p.retval = 0 ∧ p.buf.type ≠ IpcMsgType.fsClientExit.code then
      some p.buf.senderPid
    else none
  | .replying req _, .toSend _ _ _ | .stopping req _, .toSend _ _ _ =>
    some req.senderPid
  | _, _ => none

/-- The server takes a request only if its sender has room for the reply,
and until it has replied nobody else fills the sender's mailbox. -/
def World.patient (w : World σ) : WAct → Bool
  | .kernel a =>
    let p := w.kernel.procs serverSlot
    if a.actor = serverSlot then
      !w.kernel.takes a || decide (p.mailbox.type = IpcMsgType.fsClientExit.code)
        || !w.kernel.full p.mailbox.senderPid
    else
      match w.kernel.fills a with
      | some t => decide (w.client ≠ some ((w.kernel.procs t).pid : Int))
      | none => true
  | .serve => true

def Patient (w : World σ) (b : WAct) : Prop := w.patient b = true

instance (w : World σ) (b : WAct) : Decidable (Patient w b) :=
  inferInstanceAs (Decidable (_ = true))

/-- Nobody replaces or kills the server. -/
def WAct.sparesServer : WAct → Prop
  | .kernel (.register _) => False
  | .kernel (.kill _ pid) => pid ≠ serverPid
  | _ => True

instance : ∀ b : WAct, Decidable b.sparesServer
  | .kernel (.register _) => inferInstanceAs (Decidable False)
  | .kernel (.kill _ pid) => inferInstanceAs (Decidable (pid ≠ serverPid))
  | .serve | .kernel (.sched _) | .kernel (.yield _) | .kernel (.enter _)
  | .kernel (.sysret _) | .kernel (.send _ _ _) | .kernel (.recv _)
  | .kernel (.call _ _) | .kernel (.exit _) | .kernel (.exitFinal _)
  | .kernel (.wait _) | .kernel (.fork _) | .kernel (.forkReset _)
  | .kernel (.forkFail _) | .kernel (.forkDone _) | .kernel (.fault _) =>
    inferInstanceAs (Decidable True)

/-- The server sleeps in `ipc_send_msg` for the full mailbox of a process
that lives. -/
def World.Blocked (w : World σ) : Prop :=
  (w.kernel.procs serverSlot).pid = serverPid
    ∧ (w.kernel.procs serverSlot).state = .sleeping
    ∧ ∃ pid t m kd, (w.kernel.procs serverSlot).pc = .sendLoop pid t m kd
      ∧ (w.kernel.procs t).hasMsg = true
      ∧ ((w.kernel.procs t).state = .sleeping ∨ (w.kernel.procs t).state = .runnable
        ∨ (w.kernel.procs t).state = .running)

-- ==== what the condition looks at

theorem hasMsg_sendDone (i : Nat) (r : Int) (kd : SendFor) (t : Nat) :
    ((sendDone s i r kd).table t).hasMsg = (s.table t).hasMsg := by
  cases kd with
  | send | exit =>
    unfold sendDone
    rw [table_modify]
    exact update_proj Core.hasMsg (by rfl) t
  | call server req =>
    unfold sendDone
    dsimp only
    split
    next =>
      rw [table_modify]
      exact update_proj Core.hasMsg (by rfl) t
    next =>
      rw [table_modify]
      exact update_proj Core.hasMsg (by rfl) t

/-- Only a valid message is stored. -/
theorem valid_of_filled {i : Nat} (hs : step s (.enter i) = some s')
    (hpc : (s.procs i).pc = .toSend pid msg kd)
    (hempty : (s.table t).hasMsg = false) (hfull : (s'.table t).hasMsg = true) :
    validIpcMsg (msg.from (s.procs i).pid) = true := by
  have hact := step_running hs (by simp)
  simp only [act, hpc] at hact
  cases hact
  by_contra hinvalid
  unfold ipcSendMsg at hfull
  rw [if_neg hinvalid, hasMsg_sendDone, hempty] at hfull
  cases hfull

theorem fills_of_store (hs : step s a = some s') {m : IpcMsg}
    (hsend : Sending s (s.table a.actor) pid t m kd)
    (hempty : (s.table t).hasMsg = false) (hpc' : (s'.table a.actor).pc = kd.sent)
    (hfull : (s'.table t).hasMsg = true) : s.fills a = some t := by
  have hempty : (s.procs t).hasMsg = false := hempty
  cases hsend with
  | found msg hpc hm hfind hlive hkilled =>
    rcases sender_step hs hpc with ha | hsame
    · have hvalid : validIpcMsg (msg.from (s.procs a.actor).pid) = true := by
        rw [ha] at hs
        exact valid_of_filled hs hpc hempty hfull
      have hrej : (s.procs t).rejects = false := by
        have hkilled : (s.procs t).killed = false := hkilled
        obtain ⟨h1, h2, h3⟩ := state_of_alive hlive
        unfold Proc.rejects
        rw [hkilled, Bool.or_false, decide_eq_false_iff_not]
        rintro (h | h | h)
        · exact h1 h
        · exact h2 h
        · exact h3 h
      rw [ha]
      unfold Kernel.fills
      have hpc : (s.procs a.actor).pc = .toSend pid msg kd := hpc
      simp only [hpc, hfind, hvalid, hrej, hempty, Bool.not_false, Bool.and_self,
        if_true]
    · rw [hpc', hpc] at hsame
      cases kd <;> cases hsame
  | waited hpc =>
    rcases waiter_step hs hpc with ha | hsame
    · rw [ha]
      unfold Kernel.fills
      have hpc : (s.procs a.actor).pc = .sendLoop pid t m kd := hpc
      simp only [hpc, hempty, Bool.false_eq_true, if_false]
    · rw [hpc', hpc] at hsame
      cases kd <;> cases hsame

theorem takes_of_took (hs : step s a = some s') {kr : RecvFor}
    (hpc : (s.table a.actor).pc = .toRecv kr ∨ (s.table a.actor).pc = .recvLoop kr)
    (hfull : (s.table a.actor).hasMsg = true)
    (hpc' : (s'.table a.actor).pc ≠ (s.table a.actor).pc) : s.takes a = true := by
  rcases hpc with hpc | hpc
  · rcases ipc_step hs hpc (.inl rfl) with ⟨ha, -⟩ | ⟨-, hno⟩ | hsame
    · rw [ha]
      unfold Kernel.takes
      have hpc : (s.procs a.actor).pc = .toRecv kr := hpc
      simp only [hpc]
      exact hfull
    · cases hno
    · exact absurd hsame hpc'
  · rcases ipc_step hs hpc (.inr rfl) with ⟨-, hno⟩ | ⟨ha, -⟩ | hsame
    · cases hno
    · rw [ha]
      unfold Kernel.takes
      have hpc : (s.procs a.actor).pc = .recvLoop kr := hpc
      simp only [hpc]
      exact hfull
    · exact absurd hsame hpc'

-- ==== room for a reply

/-- `Proc.gone` on the process table. -/
def Core.Gone (p : Core) : Prop :=
  p.life = .unused ∨ p.life = .zombie ∨ p.killed = true

theorem Core.Gone.congr {p q : Core} (h : p.Gone) (hl : q.life = p.life)
    (hk : q.killed = p.killed) : q.Gone := by
  unfold Core.Gone
  rw [hl, hk]
  exact h

/-- Whoever is gone stays gone, as long as the slot keeps its pid. -/
theorem gone_of_eff (hw : Wf s) (halive : (s.table a.actor).life = .alive)
    (heff : Eff s a s') (hpid : (s'.table t).pid = (s.table t).pid)
    (hg : (s.table t).Gone) : (s'.table t).Gone := by
  have hslot := becomes_of_eff hw heff t (Or.inl halive)
  generalize s'.table t = q at hslot hpid ⊢
  cases hslot with
  | took => exact hg.congr (Core.got_life ..) (Core.got_killed ..)
  | exited => exact .inr (.inl rfl)
  | reaped | unalloc => exact .inl rfl
  | alloc =>
    -- the slot's pid is a new one
    exact absurd hpid.symm (hw.pid_lt t).ne
  | born _ _ hpc =>
    have hlife := hw.fork_slot a.actor t true hpc
    rcases hg with hl | hl | hkilled
    · cases hlife.symm.trans hl
    · cases hlife.symm.trans hl
    · exact .inr (.inr hkilled)
  | killed | suicide | fault => exact .inr (.inr rfl)
  | _ => exact hg

/-- The mailbox of process `p`, if it is there, is empty. -/
def Kernel.Roomy (s : Kernel) (p : Int) : Prop :=
  ∀ t, ((s.table t).pid : Int) = p → ¬ (s.table t).Gone → (s.table t).hasMsg = false

theorem roomy_of_eff (hw : Wf s) (hw' : Wf s') (halive : (s.table a.actor).life = .alive)
    (heff : Eff s a s') (hborn : p < s.nextpid) (h : s.Roomy p)
    (hstore : ∀ pid t m kd, Sending s (s.table a.actor) pid t m kd →
      (s.table t).hasMsg = false → (s'.table a.actor).pc = kd.sent →
      (s'.table t).hasMsg = true → ((s.table t).pid : Int) ≠ p) : s'.Roomy p := by
  intro t hpid hthere
  -- the slot had this pid before, and its process was there
  have hsame : (s'.table t).pid = (s.table t).pid := by
    rcases pid_of_eff hw halive heff t with hp | hp | hp
    · exact hp
    · exfalso
      refine hthere (.inl ?_)
      by_contra hused
      exact hw'.occupied t hused hp
    · omega
  have hold : ((s.table t).pid : Int) = p := by
    rw [← hsame]
    exact hpid
  have hwas : ¬ (s.table t).Gone := fun hg => hthere (gone_of_eff hw halive heff hsame hg)
  cases mailbox_of_eff hw halive heff t with
  | kept _ hhas => exact hhas.trans (h t hold hwas)
  | cleared _ hhas => exact hhas
  | filled pid m kd hsend hempty _ hhas hpc =>
    exact absurd hold (hstore pid t m kd hsend hempty hpc hhas)

/-- Every message in a mailbox has been sent by somebody. -/
def Signed (s : Kernel) : Prop :=
  ∀ t, (s.table t).hasMsg = true → (s.table t).mailbox.senderPid < s.nextpid

theorem signed_of_eff (hw : Wf s) (hst : Stamped s) (h : Signed s)
    (halive : (s.table a.actor).life = .alive) (heff : Eff s a s') : Signed s' := by
  intro t ht
  have hnext : (s.nextpid : Int) ≤ s'.nextpid := by
    exact_mod_cast nextpid_of_eff heff
  cases mailbox_of_eff hw halive heff t with
  | kept hmail hhas =>
    rw [hmail]
    exact lt_of_lt_of_le (h t (hhas.symm.trans ht)) hnext
  | cleared _ hhas => cases hhas.symm.trans ht
  | filled pid m kd hsend _ hmail _ _ =>
    rw [hmail, hst.of_sending hsend]
    refine lt_of_lt_of_le ?_ hnext
    exact_mod_cast hw.pid_lt a.actor

-- ==== the invariant

structure PatientInv (w : World σ) : Prop where
  wf : Wf w.kernel
  stamped : Stamped w.kernel
  signed : Signed w.kernel
  known : ServerKnown w.kernel
  server : ServerInv w
  awake : w.phase.isDone = false → ∀ pid t m kd, w.server.pc ≠ .sendLoop pid t m kd
  room : ∀ p, w.client = some p → p < w.kernel.nextpid ∧ w.kernel.Roomy p

/-- The client of a server that has a request in its hands. -/
theorem client_inHand (hph : w.phase = .receiving) (hin : w.server.InHand)
    (htype : w.server.buf.type ≠ IpcMsgType.fsClientExit.code) :
    w.client = some w.server.buf.senderPid := by
  have hret : (w.kernel.procs serverSlot).retval = 0 := hin.2
  have hcond : (w.kernel.procs serverSlot).retval = 0
      ∧ (w.kernel.procs serverSlot).buf.type ≠ IpcMsgType.fsClientExit.code :=
    ⟨hret, htype⟩
  unfold World.client
  dsimp only
  rw [hph]
  rcases hin.1 with hpc | hpc
  · have hpc : (w.kernel.procs serverSlot).pc = .ret false := hpc
    rw [hpc]
    exact if_pos hcond
  · have hpc : (w.kernel.procs serverSlot).pc = .user := hpc
    rw [hpc]
    exact if_pos hcond

/-- The client of a server that is about to answer. -/
theorem client_answering {req reply : IpcMsg}
    (hans : w.phase.Answers req reply) (hpc : w.server.pc = .toSend pid msg kd) :
    w.client = some req.senderPid := by
  have hpc : (w.kernel.procs serverSlot).pc = .toSend pid msg kd := hpc
  unfold World.client
  dsimp only
  rw [hpc]
  cases hph : w.phase with
  | replying q r =>
    rw [hph] at hans
    rw [hans.1]
  | stopping q r =>
    rw [hph] at hans
    rw [hans.1]
  | loop | receiving | done =>
    rw [hph] at hans
    exact hans.elim

/-- Where the server is when it has a client. -/
theorem client_cases (hc : w.client = some p) : (w.phase = .receiving ∧ w.server.InHand
        ∧ w.server.buf.type ≠ IpcMsgType.fsClientExit.code
        ∧ p = w.server.buf.senderPid)
      ∨ ∃ req reply pid msg kd, w.phase.Answers req reply
        ∧ w.server.pc = .toSend pid msg kd ∧ p = req.senderPid := by
  unfold World.client at hc
  dsimp only at hc
  split at hc
  next hph hpc =>
    split at hc
    next hcond => exact .inl ⟨hph, ⟨.inl hpc, hcond.1⟩, hcond.2,
      (Option.some.inj hc).symm⟩
    next => cases hc
  next hph hpc =>
    split at hc
    next hcond => exact .inl ⟨hph, ⟨.inr hpc, hcond.1⟩, hcond.2,
      (Option.some.inj hc).symm⟩
    next => cases hc
  next req reply pid msg kd hph hpc =>
    refine .inr ⟨req, reply, pid, msg, kd, ?_, hpc, (Option.some.inj hc).symm⟩
    rw [hph]
    exact ⟨rfl, rfl⟩
  next req reply pid msg kd hph hpc =>
    refine .inr ⟨req, reply, pid, msg, kd, ?_, hpc, (Option.some.inj hc).symm⟩
    rw [hph]
    exact ⟨rfl, rfl⟩
  next => cases hc

-- ==== a step of the kernel

/-- Who empties its own mailbox is back from `ipc_recv_msg`. -/
theorem took_of_drained (hw : Wf s) (halive : (s.table a.actor).life = .alive)
    (heff : Eff s a s') (hfull : (s.table a.actor).hasMsg = true)
    (hempty : (s'.table a.actor).hasMsg = false)
    (hstays : (s.table a.actor).pc ≠ .exiting) :
    ∃ kr b, ((s.table a.actor).pc = .toRecv kr ∨ (s.table a.actor).pc = .recvLoop kr)
      ∧ (s'.table a.actor).pc = .ret b := by
  -- the other effects leave the actor's mailbox as it is
  have hno : (s'.table a.actor).hasMsg = (s.table a.actor).hasMsg → False := by
    intro hsame
    cases (hfull.symm.trans hsame.symm).trans hempty
  have htwo : ∀ {u : Nat} {c : Core} {g : Core → Core},
      s'.table = s.table.set₂ u c a.actor g → (∀ p, (g p).hasMsg = p.hasMsg) →
      (u ≠ a.actor ∨ c.hasMsg = (s.table u).hasMsg) → False := by
    intro u c g htable hg hu
    refine hno ?_
    rw [htable, Table.set₂_self, hg]
    rcases hu with hu | hu
    · rw [update_of_ne hu.symm]
    · exact update_proj Core.hasMsg hu a.actor
  cases heff with
  | quiet _ _ _ htable | register _ _ htable =>
    refine (hno ?_).elim
    rw [htable, update_self]
    rfl
  | store pid u m kd r hs hvoid htable =>
    by_cases hu : u = a.actor
    · subst hu
      cases hfull.symm.trans hvoid
    · exact (htwo htable (fun _ => rfl) (.inl hu)).elim
  | took kr hpc _ htable =>
    obtain ⟨b, hb⟩ := Core.got_pc (s.table a.actor).drain (s.table a.actor).mailbox kr
    refine ⟨kr, b, hpc, ?_⟩
    rw [htable, update_self]
    exact hb
  | zombie ha hpc htable => exact absurd hpc hstays
  | reap u r hpc hlife htable =>
    exact (htwo htable (fun _ => rfl) (.inl (ne_of_life halive hlife).symm)).elim
  | alloc _ _ _ _ _ htable | kill _ _ _ _ _ _ htable =>
    exact (htwo htable (fun _ => rfl) (.inr rfl)).elim
  | reset u hpc htable =>
    exact (htwo htable (fun _ => rfl)
      (.inl (ne_of_life halive (hw.fork_slot _ u _ hpc)).symm)).elim
  | unalloc _ _ _ htable | born _ _ _ _ htable =>
    exact (htwo htable (fun _ => rfl) (.inr rfl)).elim
  | fault ha htable =>
    refine (hno ?_).elim
    rw [htable, update_self]

/-- `Kernel.full` says what it should. -/
theorem Wf.roomy (hw : Wf s) (h : s.full p = false) : s.Roomy p := by
  intro t hpid hthere
  have hused : (s.table t).life ≠ .unused := fun hl => hthere (.inl hl)
  have hlt : t < nproc := by
    by_contra hge
    exact hused (hw.range t (not_lt.mp hge))
  obtain ⟨u, hu⟩ : ∃ u, s.findPid p = some u := by
    refine Option.isSome_iff_exists.mp (List.find?_isSome.mpr ?_)
    exact ⟨t, List.mem_range.mpr hlt, decide_eq_true hpid⟩
  have hut : u = t := by
    refine hw.pid_inj u t ?_ ?_
    · have := (findPid_pid hu).trans hpid.symm
      exact_mod_cast this
    · have := hw.occupied t hused
      have := (findPid_pid hu).trans hpid.symm
      omega
  subst hut
  unfold Kernel.full at h
  rw [hu] at h
  rcases Bool.and_eq_false_iff.mp h with hgone | hhas
  · exfalso
    have hgone : (s.procs u).gone = true := by
      rw [← Bool.not_eq_false', hgone]
    unfold Proc.gone at hgone
    rcases Bool.or_eq_true_iff.mp hgone with hst | hk
    · rcases of_decide_eq_true hst with hst | hst
      · exact hthere (.inl (life_of_state hst))
      · exact hthere (.inr (.inl (life_of_state hst)))
    · exact hthere (.inr (.inr hk))
  · exact hhas

/-- The condition, for a step of somebody else. -/
theorem Patient.other (hok : Patient w (.kernel a)) (hne : a.actor ≠ serverSlot)
    (hfills : w.kernel.fills a = some t) :
    w.client ≠ some ((w.kernel.table t).pid : Int) := by
  unfold Patient World.patient at hok
  dsimp only at hok
  rw [if_neg hne, hfills] at hok
  exact of_decide_eq_true hok

/-- The condition, for the server's own. -/
theorem Patient.own (hok : Patient w (.kernel a)) (ha : a.actor = serverSlot)
    (htakes : w.kernel.takes a = true)
    (htype : w.server.mailbox.type ≠ IpcMsgType.fsClientExit.code) :
    w.kernel.full w.server.mailbox.senderPid = false := by
  have htype : ¬ (w.kernel.procs serverSlot).mailbox.type
      = IpcMsgType.fsClientExit.code := htype
  unfold Patient World.patient at hok
  dsimp only at hok
  rw [if_pos ha, htakes, decide_eq_false htype, Bool.not_true, Bool.false_or,
    Bool.false_or] at hok
  exact Bool.not_eq_true' _ ▸ hok

/-- A client that the server keeps keeps its room. -/
theorem room_kept (h : PatientInv w) (hok : Patient w (.kernel a))
    (hk : step w.kernel a = some k) (hclient : w.client = some p)
    (hsrv : a.actor = serverSlot → ∀ pid t m kd,
      Sending w.kernel (w.kernel.table a.actor) pid t m kd →
      (k.table a.actor).pc ≠ kd.sent) :
    p < k.nextpid ∧ k.Roomy p := by
  obtain ⟨halive, heff⟩ := eff_of_step hk
  obtain ⟨hborn, hroom⟩ := h.room p hclient
  have hnext : (w.kernel.nextpid : Int) ≤ k.nextpid := by
    exact_mod_cast nextpid_of_eff heff
  refine ⟨lt_of_lt_of_le hborn hnext, ?_⟩
  refine roomy_of_eff h.wf (wf_step h.wf hk) halive heff hborn hroom ?_
  intro pid t m kd hsend hempty hpc hfull hpid
  by_cases ha : a.actor = serverSlot
  · exact hsrv ha pid t m kd hsend hpc
  · refine hok.other ha (fills_of_store hk hsend hempty hpc hfull) ?_
    rw [hpid]
    exact hclient

theorem room_kernel (h : PatientInv w) (hok : Patient w (.kernel a))
    (hk : step w.kernel a = some k) (hup : Up w.kernel w.phase) (hup' : Up k w.phase)
    (hnext : ServerNext w.kernel w.phase w.server (k.table serverSlot))
    (hclient : World.client { w with kernel := k } = some p) :
    p < k.nextpid ∧ k.Roomy p := by
  obtain ⟨halive, heff⟩ := eff_of_step hk
  have hrun : w.phase.isDone = false := by
    cases hph : w.phase with
    | done =>
      have hat := hup.here
      rw [hph] at hat
      exact hat.elim
    | _ => rfl
  rcases client_cases hclient with
    ⟨hph, hin, htype, hp⟩ | ⟨req, reply, pid, msg, kd, hans, hpc, hp⟩
  · have hph : w.phase = .receiving := hph
    have htype : (k.table serverSlot).buf.type ≠ IpcMsgType.fsClientExit.code := htype
    have hp : p = (k.table serverSlot).buf.senderPid := hp
    rcases hnext.held hph hin with ⟨hin₀, hbuf⟩ | ⟨hfull, hempty, hbuf⟩
    · -- the request was in the server's hands before
      rw [hbuf] at htype hp
      refine room_kept h hok hk (hp ▸ client_inHand hph hin₀ htype) ?_
      intro ha q t m kd hsend _
      rw [ha] at hsend
      cases hsend with
      | found _ hpc | waited hpc =>
        rcases hin₀.1 with h1 | h1
        · cases h1.symm.trans hpc
        · cases h1.symm.trans hpc
    · -- the server has just taken it
      have ha : a.actor = serverSlot := by
        by_contra hne
        rcases other_of_eff h.wf heff (Ne.symm hne) hup.alive with
          hs | ⟨_, _, _, _, _, hs⟩ | ⟨_, _, _, hs⟩
        · rw [hs] at hempty
          cases hfull.symm.trans hempty
        · rw [hs] at hempty
          cases hempty
        · rw [hs] at hempty
          cases hfull.symm.trans hempty
      rw [hbuf] at htype hp
      have hat := hup.here
      obtain ⟨kr, b, hpc, hpc'⟩ := took_of_drained h.wf halive heff
        (by rw [ha]; exact hfull) (by rw [ha]; exact hempty)
        (by
          rw [ha]
          exact fun h1 => pc_elim hat.serves h1 rfl)
      have htakes := takes_of_took hk hpc (by rw [ha]; exact hfull) (by
        rw [hpc']
        rcases hpc with hpc | hpc <;> rw [hpc] <;> nofun)
      have hroom := h.wf.roomy (hok.own ha htakes htype)
      have hborn := h.signed serverSlot hfull
      have hnextpid : (w.kernel.nextpid : Int) ≤ k.nextpid := by
        exact_mod_cast nextpid_of_eff heff
      rw [hp]
      refine ⟨lt_of_lt_of_le hborn hnextpid, ?_⟩
      refine roomy_of_eff h.wf (wf_step h.wf hk) halive heff hborn hroom ?_
      intro q t m kd hsend
      cases hsend with
      | found _ hpc₁ | waited hpc₁ =>
        rcases hpc with hpc | hpc <;> cases hpc.symm.trans hpc₁
  · have hpc : (k.table serverSlot).pc = .toSend pid msg kd := hpc
    obtain ⟨-, req', reply', hans', hrep, -⟩ := hup'.here.replies (.inl ⟨msg, hpc⟩)
    obtain ⟨hq, hr⟩ := hans.unique hans'
    subst hq hr
    obtain ⟨hrep₀, -⟩ := hnext.replies req reply hans hrep
    rcases hrep₀ with ⟨msg₀, hpc₀, -⟩ | ⟨t, hpc₀⟩
    · refine room_kept h hok hk (hp ▸ client_answering hans hpc₀) ?_
      intro ha q t m kd _ hsent
      rw [ha, hpc] at hsent
      cases kd <;> cases hsent
    · exact absurd hpc₀ (h.awake hrun _ _ _ _)

/-- With room for its reply the server does not go to sleep. -/
theorem awake_kernel (h : PatientInv w) (hk : step w.kernel a = some k)
    (hrun : w.phase.isDone = false) (hup' : Up k w.phase)
    (hnext : ServerNext w.kernel w.phase w.server (k.table serverSlot))
    (pid : Int) (t : Nat) (m : IpcMsg) (kd : SendFor) :
    (k.table serverSlot).pc ≠ .sendLoop pid t m kd := by
  intro hpc'
  obtain ⟨halive, heff⟩ := eff_of_step hk
  rcases sendLoop_of_eff h.wf halive heff hpc' with hold | ⟨hsend, -⟩
  · exact h.awake hrun pid t m kd hold
  cases hsend with
  | waited hold => exact h.awake hrun pid t m kd hold
  | found msg hpc hm hfind hlive hkilled =>
    obtain ⟨-, req, reply, hans, hrep, hreq⟩ := hup'.here.replies (.inr ⟨t, m, hpc'⟩)
    obtain ⟨-, hsame | ⟨u, hu, hfull⟩⟩ := hnext.replies req reply hans hrep
    · cases hpc'.symm.trans (hsame.trans hpc)
    -- the target is the client, and that has room
    have hpid := findPid_pid hfind
    have hut : u = t := by
      refine h.wf.pid_inj u t ?_ ?_
      · have := hu.trans (hreq.trans hpid.symm)
        exact_mod_cast this
      · have := h.wf.occupied t (by rw [hlive]; nofun)
        have := hu.trans (hreq.trans hpid.symm)
        omega
    subst hut
    have hempty := (h.room _ (client_answering hans hpc)).2 u hu (by
      rintro (hl | hl | hl)
      · cases hlive.symm.trans hl
      · cases hlive.symm.trans hl
      · cases hkilled.symm.trans hl)
    cases hfull.symm.trans hempty

theorem client_done (hph : w.phase.isDone = true) : w.client = none := by
  cases hc : w.client with
  | none => rfl
  | some p =>
    exfalso
    rcases client_cases hc with ⟨h1, -⟩ | ⟨_, _, _, _, _, hans, -⟩
    · rw [h1] at hph
      cases hph
    · rw [hans.running] at hph
      cases hph

theorem patient_kernel (h : PatientInv w) (hok : Patient w (.kernel a))
    (hspare : WAct.sparesServer (.kernel a)) (hk : step w.kernel a = some k)
    (hprog : w.phase.isDone = false → a.actor = serverSlot → a.isProgram = false) :
    PatientInv { w with kernel := k } := by
  obtain ⟨halive, heff⟩ := eff_of_step hk
  have hkill : ∀ i pid, a = .kill i pid → pid ≠ serverPid := by
    intro i pid ha
    rw [ha] at hspare
    exact hspare
  have hreg : ∀ i, a ≠ .register i := by
    intro i ha
    rw [ha] at hspare
    exact hspare
  have hnew := server_next h.wf h.server halive heff hkill hprog
  refine ⟨wf_step h.wf hk, stamped_step h.wf h.stamped halive heff,
    signed_of_eff h.wf h.stamped h.signed halive heff, serverKnown_step h.known hreg heff,
    hnew, fun hrun => ?_, fun p hp => ?_⟩
  · have hrun : w.phase.isDone = false := hrun
    have hup := h.server.up hrun
    obtain ⟨hup', hnext⟩ := server_of_eff h.wf heff hup hkill (hprog hrun)
    exact awake_kernel h hk hrun hup' hnext
  · cases hrun : w.phase.isDone with
    | false =>
      have hup := h.server.up hrun
      obtain ⟨hup', hnext⟩ := server_of_eff h.wf heff hup hkill (hprog hrun)
      exact room_kernel h hok hk hup hup' hnext hp
    | true =>
      have hnone : World.client { w with kernel := k } = none := client_done hrun
      rw [hnone] at hp
      cases hp

-- ==== a step of the server's program

/-- The server's own code touches no mailbox. -/
theorem Moves.roomy (hm : Moves w w' pc) (h : w.kernel.Roomy p) :
    w'.kernel.Roomy p := by
  intro t hpid hthere
  rw [hm.table] at hpid hthere ⊢
  have hsame : ∀ {β : Type} (f : Core → β),
      f (w.server.goto pc w.server.retval) = f w.server →
      f (update w.kernel.table serverSlot (w.server.goto pc w.server.retval) t)
        = f (w.kernel.table t) :=
    fun f hf => update_proj (T := w.kernel.table) f hf t
  rw [hsame Core.hasMsg rfl]
  rw [hsame Core.pid rfl] at hpid
  exact h t hpid fun hg => hthere (hg.congr (hsame Core.life rfl) (hsame Core.killed rfl))

theorem Moves.signed (hm : Moves w w' pc) (h : Signed w.kernel) :
    Signed w'.kernel := by
  intro t ht
  rw [hm.frame.nextpid]
  rw [hm.table] at ht ⊢
  rw [show (update w.kernel.table serverSlot (w.server.goto pc w.server.retval)
    t).mailbox = _ from update_proj Core.mailbox (by rfl) t]
  rw [show (update w.kernel.table serverSlot (w.server.goto pc w.server.retval)
    t).hasMsg = _ from update_proj Core.hasMsg (by rfl) t] at ht
  exact h t ht

theorem patient_serve (h : PatientInv w)
    (hs : w.step hd .serve = some w') : PatientInv w' := by
  have hup := h.server.up (serving hs)
  obtain ⟨huser, hserves⟩ := serves_of_step hs h.known hup.pid
  obtain ⟨pc, hmoves⟩ := hserves.moves
  have hwf' : Wf w'.kernel ∧ Stamped w'.kernel := by
    rcases hmoves.kernel with hsame | ⟨b, hk, -⟩
    · rw [hsame]
      exact ⟨h.wf, h.stamped⟩
    · obtain ⟨halive, heff⟩ := eff_of_step hk
      exact ⟨wf_step h.wf hk, stamped_step h.wf h.stamped halive heff⟩
  have hknown : ServerKnown w'.kernel := by
    unfold ServerKnown
    rw [hmoves.frame.fsserverPid]
    exact h.known
  have hserver := server_serve hserves h.wf h.server hup
  -- the server's next place
  have hplace : ∀ {pc : Pc}, Moves w w' pc → w'.server.pc = pc := by
    intro pc hm
    rw [hm.server]
    rfl
  refine ⟨hwf'.1, hwf'.2, hmoves.signed h.signed, hknown, hserver, ?_, ?_⟩
  · intro _ pid t m kd hpc
    cases hserves with
    | recv _ _ hm | again _ _ hm | answer _ _ _ _ _ hm | exit _ _ _ _ hm =>
      cases (hplace hm).symm.trans hpc
  · intro p hp
    cases hserves with
    | recv hph hph' hm =>
      exfalso
      have hpc := hplace hm
      rcases client_cases hp with ⟨-, ⟨h1 | h1, -⟩, -⟩ | ⟨_, _, _, _, _, hans, -⟩
      · cases hpc.symm.trans h1
      · cases hpc.symm.trans h1
      · rw [hph'] at hans
        exact hans
    | again hph hph' hm =>
      exfalso
      rcases client_cases hp with ⟨h1, -⟩ | ⟨_, _, _, _, _, hans, -⟩
      · cases hph'.symm.trans h1
      · rw [hph'] at hans
        exact hans
    | answer ans hph hret htype hans hm =>
      have hin := hup.here.inHand hph huser
      have hans' := Phase.answers_of hans
      have hbuf : w'.client = some w.server.buf.senderPid :=
        client_answering hans' (hplace hm)
      cases hbuf.symm.trans hp
      obtain ⟨hborn, hroom⟩ := h.room _ (client_inHand hph hin htype)
      rw [hm.frame.nextpid]
      exact ⟨hborn, hm.roomy hroom⟩
    | exit req reply hph hph' hm =>
      rw [client_done (by rw [hph']; rfl)] at hp
      cases hp

theorem patient_step {b : WAct} (h : PatientInv w)
    (hok : Patient w b ∧ b.sparesServer) (hs : w.step hd b = some w') :
    PatientInv w' := by
  cases b with
  | kernel a =>
    obtain ⟨k, hk, hw', hprog⟩ := step_kernel hs
    subst hw'
    exact patient_kernel h hok.1 hok.2 hk hprog
  | serve => exact patient_serve h hs

theorem patient_start (fs : σ) : PatientInv (start fs) := by
  have hp : ProtoInv everybody (start fs) := proto_start fs
  refine ⟨hp.roles.wf, fun i pid t m kd hi => ?_, fun t ht => ?_, hp.roles.known,
    hp.server, fun _ pid t m kd hpc => ?_, fun p hc => ?_⟩
  · cases (start_pc fs i).symm.trans hi
  · cases (start_hasMsg fs t).symm.trans ht
  · cases (start_pc fs serverSlot).symm.trans hpc
  · cases hc

/-- Init sends two requests and receives nothing. -/
def twoRequests : List WAct :=
  [.kernel (.sched 0), .kernel (.send 0 2 { IpcMsg.zero with type := 1 }),
    .kernel (.enter 0), .kernel (.sysret 0), .kernel (.sched 1), .serve,
    .kernel (.enter 1), .kernel (.sysret 1), .serve, .kernel (.enter 1),
    .kernel (.sysret 1), .serve, .serve,
    .kernel (.send 0 2 { IpcMsg.zero with type := 1 }), .kernel (.enter 0),
    .kernel (.enter 1), .kernel (.sysret 1), .serve, .kernel (.enter 1)]

end Xv6FsServer.Ipc
