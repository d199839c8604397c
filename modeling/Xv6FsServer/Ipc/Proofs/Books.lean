/-
The books of one client: the requests the server has answered for it
against the replies it has taken.

A request and its reply pass through four places: the server's mailbox
(`Queued`), the server's hand (`Held`), the `send` of the reply
(`Answering`) and the client's mailbox (`Mailed`). `Books` says what each
of them means for the client's two lists: up to `Held` they are equal,
from `Answering` on the server is ahead by that one reply, and in all
four the client is waiting for it. The fifth possibility is a reply that
was dropped because the client was killed: the lists then differ for
good, and the client, which is on its way out, never asks again.

`books_kernel` keeps the books through a step of the kernel, `books_serve`
through one of the server's program.
-/
import Xv6FsServer.Ipc.Proofs.Server

namespace Xv6FsServer.Ipc

open Lib Function

variable {σ : Type} {w : World σ} {c : Nat}

-- ==== the places

/-- The server's answers to one client, oldest first. -/
def World.handledFor (w : World σ) (c : Nat) : List (IpcMsg × IpcMsg) :=
  w.handled.filter fun e => decide (e.1.senderPid = c)

/-- The requests and replies of one client's `fs_ipc_call`s. -/
def Kernel.takenBy (s : Kernel) (c : Nat) : List (IpcMsg × IpcMsg) :=
  (s.taken.filter fun e => decide (e.client = c)).map fun e => (e.req, e.msg)

def World.server (w : World σ) : Core := w.kernel.table serverSlot

/-- A request of this client, as against its `CLIENT_EXIT`. -/
def IpcMsg.Asks (m : IpcMsg) (c : Nat) : Prop :=
  m.senderPid = c ∧ m.type ≠ IpcMsgType.fsClientExit.code

def Queued (w : World σ) (c : Nat) : Prop :=
  w.phase.isDone = false ∧ w.server.hasMsg = true ∧ w.server.mailbox.Asks c

def Held (w : World σ) (c : Nat) : Prop :=
  w.phase = .receiving ∧ w.server.InHand ∧ w.server.buf.Asks c

def Answering (w : World σ) (c : Nat) (req reply : IpcMsg) : Prop :=
  w.phase.Answers req reply ∧ w.server.Replies req reply ∧ req.senderPid = c

def Mailed (s : Kernel) (c i : Nat) : Prop :=
  (s.table i).pid = c ∧ (s.table i).hasMsg = true

structure Books (w : World σ) (c : Nat) : Prop where
  history : w.handledFor c = w.kernel.takenBy c
    ∨ ∃ m r, w.handledFor c = w.kernel.takenBy c ++ [(m, r)]
      ∧ Expecting w.kernel c m
  queued : Queued w c → Expecting w.kernel c w.server.mailbox
    ∧ w.handledFor c = w.kernel.takenBy c
  held : Held w c → Expecting w.kernel c w.server.buf
    ∧ w.handledFor c = w.kernel.takenBy c ∧ ¬ Queued w c
  answering : ∀ req reply, Answering w c req reply →
    w.handledFor c = w.kernel.takenBy c ++ [(req, reply)]
      ∧ (∀ i, ¬ Mailed w.kernel c i)
      ∧ ∃ msg, w.server.pc = .toSend req.senderPid msg .send
  mailed : ∀ i, Mailed w.kernel c i →
    ∃ m, w.handledFor c = w.kernel.takenBy c ++ [(m, (w.kernel.table i).mailbox)]
      ∧ (w.kernel.table i).Awaits m

/-- One list is not itself with something added. -/
theorem Books.not_ahead {xs ys : List (IpcMsg × IpcMsg)} {e : IpcMsg × IpcMsg}
    (h1 : ys = xs) (h2 : ys = xs ++ [e]) : False := by
  have h := congrArg List.length (h1.symm.trans h2)
  rw [List.length_append, List.length_singleton] at h
  omega

/-- A reply the server is ahead by is one the client waits for. -/
theorem Books.expecting {m r : IpcMsg} (h : Books w c)
    (hahead : w.handledFor c = w.kernel.takenBy c ++ [(m, r)]) :
    Expecting w.kernel c m := by
  rcases h.history with h1 | ⟨m', r', h1, h2⟩
  · exact (Books.not_ahead h1 hahead).elim
  · have h3 := List.append_cancel_left (h1.symm.trans hahead)
    cases h3
    exact h2

-- ==== a step of the kernel

/-- Everything a client is owed is settled when it asks again. -/
theorem Books.settled (h : Books w c) (hno : ∀ m, ¬ Expecting w.kernel c m) :
    w.handledFor c = w.kernel.takenBy c := by
  rcases h.history with h1 | ⟨m, r, -, h1⟩
  · exact h1
  · exact absurd h1 (hno m)

section Step

variable {client : Nat → Bool} {s s' : Kernel} {a : Act}

/-- A request that is new in the server's mailbox: its sender is a client
that was not owed anything and now waits for the reply. -/
theorem StoredIn.request {i : Nat} {pid : Int} {k : SendFor}
    (h : StoredIn s a s' i pid k) (hr : RolesInv client s) (heff : Eff s a s')
    (hwf' : Wf s') (halive : (s.table a.actor).life = .alive)
    (hc : client c = true) (hcs : c ≠ serverPid)
    (hto : (s.table i).pid = serverPid) (hask : (s'.table i).mailbox.Asks c) :
    Expecting s' c (s'.table i).mailbox ∧ ∀ m, ¬ Expecting s c m := by
  obtain ⟨h1, h2⟩ := (hr.pcOk a.actor).of_sending h.sending
  have hpid : (s.table a.actor).pid = c := by
    have h3 := hask.1.symm.trans h1
    omega
  cases k with
  | send =>
    exfalso
    rcases h2 with h2 | ⟨-, h2⟩
    · exact hcs (hpid.symm.trans h2)
    · refine h2 ⟨by rw [hpid, hc], ?_⟩
      rw [← (hr.aimed.of_sending h.sending).1, hto]
  | exit => exact absurd h2.2 hask.2
  | call server req =>
    obtain ⟨-, -, rfl, hm, -⟩ := h2
    obtain ⟨hpid', hlife'⟩ := alive_of_eff hr.wf heff halive
    have hpos : 0 < c := by
      have := hr.wf.occupied a.actor (by rw [halive]; simp)
      omega
    refine ⟨⟨hpos, ?_, ?_⟩, ?_⟩
    · have := hr.wf.pid_lt a.actor
      have := nextpid_of_eff heff
      omega
    · intro j hj
      have hj' : j = a.actor := hwf'.pid_inj j a.actor
        (by rw [hj, hpid', hpid]) (by omega)
      subst hj'
      refine Or.inr ⟨?_, Or.inl (Or.inl ?_)⟩
      · rcases hlife' with hl | -
        · exact hl
        refine hwf'.alive_of_pc ?_ ?_
        · rw [h.sent]
          simp [SendFor.sent]
        · rw [h.sent]
          simp [SendFor.sent]
      · rw [h.sent, hm]
        rfl
    · intro m
      rw [← hpid]
      cases h.sending with
      | found _ hpc | waited hpc =>
        exact not_expecting halive hpc rfl m

/-- What is new in a client's mailbox comes from the server. -/
theorem StoredIn.reply {i : Nat} {pid : Int} {k : SendFor}
    (h : StoredIn s a s' i pid k) (hr : RolesInv client s)
    (hc : client c = true) (hcs : c ≠ serverPid) (hpid : (s.table i).pid = c) :
    (s.table a.actor).pid = serverPid ∧ pid = c ∧ k = .send := by
  obtain ⟨-, h2⟩ := (hr.pcOk a.actor).of_sending h.sending
  have hto : pid = c := by
    rw [← (hr.aimed.of_sending h.sending).1, hpid]
  cases k with
  | send =>
    rcases h2 with h2 | ⟨h2, -⟩
    · exact ⟨h2, hto, rfl⟩
    · exact absurd hto (h2.ne hc)
  | exit =>
    have := h2.1
    omega
  | call server req =>
    have := h2.2.1
    omega

theorem takenBy_same (h : s'.taken = s.taken) (c : Nat) :
    s'.takenBy c = s.takenBy c := by
  unfold Kernel.takenBy
  rw [h]

theorem takenBy_append {e : Taken} (h : s'.taken = s.taken ++ [e]) :
    s'.takenBy e.client = s.takenBy e.client ++ [(e.req, e.msg)] := by
  unfold Kernel.takenBy
  rw [h, List.filter_append, List.map_append]
  simp

theorem TakenBy.takenBy_self {server : Int} {req : IpcMsg}
    (h : TakenBy s a s' server req) (hc : (s.table a.actor).pid = c) :
    s'.takenBy c = s.takenBy c ++ [(req, (s.table a.actor).mailbox)] := by
  subst hc
  exact takenBy_append h.taken

theorem TakenBy.takenBy_other {server : Int} {req : IpcMsg}
    (h : TakenBy s a s' server req) (hc : (s.table a.actor).pid ≠ c) :
    s'.takenBy c = s.takenBy c := by
  unfold Kernel.takenBy
  rw [h.taken, List.filter_append, List.map_append]
  simp [hc]

end Step

/-- The server is where its phase says, or has left the loop for good. -/
structure ServerInv (w : World σ) : Prop where
  born : serverPid < w.kernel.nextpid
  up : w.phase.isDone = false → Up w.kernel w.phase
  down : w.phase.isDone = true →
    ∀ i, (w.kernel.table i).pid = serverPid → (w.kernel.table i).pc = .exiting
      ∧ ((w.kernel.table i).life = .alive ∨ (w.kernel.table i).life = .zombie)

/-- A step of the kernel that the protocol allows: the server is not
killed, and its program's steps are not the kernel's. -/
structure KernelStep (client : Nat → Bool) (w : World σ) (a : Act) (k : Kernel) :
    Prop where
  roles : RolesInv client w.kernel
  roles' : RolesInv client k
  server : ServerInv w
  alive : (w.kernel.table a.actor).life = .alive
  eff : Eff w.kernel a k
  kill : ∀ i pid, a = .kill i pid → pid ≠ serverPid
  program : w.phase.isDone = false → a.actor = serverSlot → a.isProgram = false

section KernelStep

variable {client : Nat → Bool} {a : Act} {k : Kernel}

theorem KernelStep.mailed (h : KernelStep client w a k) {i : Nat}
    (hm : Mailed k c i) :
    (w.kernel.table i).pid = c ∧ ((Mailed w.kernel c i
        ∧ (k.table i).mailbox = (w.kernel.table i).mailbox)
      ∨ ∃ pid kd, StoredIn w.kernel a k i pid kd) := by
  obtain ⟨-, -, hpid, hold⟩ :=
    full_of_eff h.roles.wf h.roles.deadMail h.roles.aimed h.alive h.eff hm.2
  have hc : (w.kernel.table i).pid = c := hpid.symm.trans hm.1
  refine ⟨hc, ?_⟩
  rcases hold with ⟨h1, h2⟩ | h1
  · exact Or.inl ⟨⟨hc, h1⟩, h2⟩
  · exact Or.inr h1

theorem KernelStep.queued (h : KernelStep client w a k)
    (hq : Queued { w with kernel := k } c) :
    (Queued w c ∧ (k.table serverSlot).mailbox = w.server.mailbox)
      ∨ ∃ pid kd, StoredIn w.kernel a k serverSlot pid kd
        ∧ (w.kernel.table serverSlot).pid = serverPid := by
  obtain ⟨h1, h2, h3⟩ := hq
  obtain ⟨-, -, -, hold⟩ :=
    full_of_eff h.roles.wf h.roles.deadMail h.roles.aimed h.alive h.eff h2
  rcases hold with ⟨h4, h5⟩ | h4
  · refine Or.inl ⟨⟨h1, h4, ?_⟩, h5⟩
    show (w.kernel.table serverSlot).mailbox.Asks c
    rw [← h5]
    exact h3
  · obtain ⟨pid, kd, h4⟩ := h4
    exact Or.inr ⟨pid, kd, h4, (h.server.up h1).pid⟩

theorem KernelStep.held (h : KernelStep client w a k)
    (hh : Held { w with kernel := k } c) :
    (Held w c ∧ (k.table serverSlot).buf = w.server.buf)
      ∨ (Queued w c ∧ (k.table serverSlot).buf = w.server.mailbox
        ∧ (k.table serverSlot).hasMsg = false) := by
  obtain ⟨h1, h2, h3⟩ := hh
  have hrun : w.phase.isDone = false := by
    rw [h1]
    rfl
  obtain ⟨-, hnext⟩ := server_of_eff h.roles.wf h.eff (h.server.up hrun) h.kill
    (h.program hrun)
  rcases hnext.held h1 h2 with ⟨h4, h5⟩ | ⟨h4, h5, h6⟩
  · refine Or.inl ⟨⟨h1, h4, ?_⟩, h5⟩
    show (w.kernel.table serverSlot).buf.Asks c
    rw [← h5]
    exact h3
  · refine Or.inr ⟨⟨hrun, h4, ?_⟩, h6, h5⟩
    show (w.kernel.table serverSlot).mailbox.Asks c
    rw [← h6]
    exact h3

theorem Phase.Answers.running {ph : Phase} {q r : IpcMsg} (h : ph.Answers q r) :
    ph.isDone = false := by
  cases ph with
  | done => exact h.elim
  | loop | receiving | replying | stopping => rfl

section

variable (h : KernelStep client w a k)
include h

theorem KernelStep.answering {req reply : IpcMsg}
    (ha : Answering { w with kernel := k } c req reply) :
    Answering w c req reply ∧ ((k.table serverSlot).pc = w.server.pc
      ∨ ∃ i, Mailed w.kernel c i) := by
  obtain ⟨h1, h2, h3⟩ := ha
  obtain ⟨-, hnext⟩ := server_of_eff h.roles.wf h.eff (h.server.up h1.running)
    h.kill (h.program h1.running)
  obtain ⟨h4, h5⟩ := hnext.replies req reply h1 h2
  refine ⟨⟨h1, h4, h3⟩, ?_⟩
  rcases h5 with h5 | ⟨t, h5, h6⟩
  · exact Or.inl h5
  · exact Or.inr ⟨t, by omega, h6⟩

/-- The server's store into a client's mailbox is the reply it is
sending. -/
theorem KernelStep.store {i : Nat} {pid : Int}
    {kd : SendFor} (hst : StoredIn w.kernel a k i pid kd) (hc : client c = true)
    (hcs : c ≠ serverPid) (hpid : (w.kernel.table i).pid = c) :
    a.actor = serverSlot ∧ kd = .send
      ∧ ∃ req, Answering w c req (k.table i).mailbox := by
  obtain ⟨h1, h2, rfl⟩ := hst.reply h.roles hc hcs hpid
  have hsend : (∃ msg, (w.kernel.table a.actor).pc = .toSend pid msg .send)
      ∨ ∃ t m, (w.kernel.table a.actor).pc = .sendLoop pid t m .send := by
    cases hst.sending with
    | found msg hpc => exact Or.inl ⟨msg, hpc⟩
    | waited hpc => exact Or.inr ⟨_, _, hpc⟩
  cases hrun : w.phase.isDone with
  | true =>
    exfalso
    have h3 := (h.server.down hrun a.actor h1).1
    rcases hsend with ⟨msg, h4⟩ | ⟨t, m, h4⟩
    · cases h3.symm.trans h4
    · cases h3.symm.trans h4
  | false =>
    have hup := h.server.up hrun
    have hslot : a.actor = serverSlot := h.roles.wf.pid_inj _ _
      (h1.trans hup.pid.symm) (by rw [h1]; decide)
    rw [hslot] at hsend
    obtain ⟨-, req, reply, hans, hrep, hto⟩ := hup.here.replies hsend
    have hreply : reply = (k.table i).mailbox := by
      have hs := hst.sending
      rw [hslot] at hs
      cases hs with
      | found msg hpc hm =>
        rcases hrep with ⟨msg', h3, h4⟩ | ⟨t', h3⟩
        · cases h3.symm.trans hpc
          rw [hm, hup.pid]
          exact h4
        · cases h3.symm.trans hpc
      | waited hpc =>
        rcases hrep with ⟨msg', h3, h4⟩ | ⟨t', h3⟩
        · cases h3.symm.trans hpc
        · cases h3.symm.trans hpc
          rfl
    refine ⟨hslot, rfl, req, ?_⟩
    rw [← hreply]
    exact ⟨hans, hrep, hto.trans h2⟩

/-- The client takes its reply. -/
theorem books_take (hb : Books w c) {server : Int}
    {req : IpcMsg} (ht : TakenBy w.kernel a k server req)
    (hpid : (w.kernel.table a.actor).pid = c) :
    Books { w with kernel := k } c := by
  have hmail : Mailed w.kernel c a.actor := ⟨hpid, ht.full⟩
  obtain ⟨m, hahead, hawait⟩ := hb.mailed a.actor hmail
  have hreq : req = m := by
    rcases hawait with h1 | h1 <;> rcases ht.pc with h2 | h2
    · cases h1.symm.trans h2
      rfl
    · cases h1.symm.trans h2
    · cases h1.symm.trans h2
    · cases h1.symm.trans h2
      rfl
  subst hreq
  have heven : World.handledFor { w with kernel := k } c = k.takenBy c := by
    rw [ht.takenBy_self hpid]
    exact hahead
  -- before the take the server was ahead, so nothing else was under way
  have hnq : ¬ Queued w c := fun hq => Books.not_ahead (hb.queued hq).2 hahead
  refine ⟨Or.inl heven, ?_, ?_, ?_, ?_⟩
  · intro hq
    exfalso
    rcases h.queued hq with ⟨h1, -⟩ | ⟨pid, kd, h1, -⟩
    · exact hnq h1
    · have h2 := congrArg List.length (h1.taken.symm.trans ht.taken)
      rw [List.length_append, List.length_singleton] at h2
      omega
  · intro hh
    exfalso
    rcases h.held hh with ⟨h1, -⟩ | ⟨h1, -⟩
    · exact Books.not_ahead (hb.held h1).2.1 hahead
    · exact hnq h1
  · intro q r ha
    exact absurd hmail ((hb.answering q r (h.answering ha).1).2.1 a.actor)
  · intro i hi
    exfalso
    obtain ⟨h1, -⟩ := h.mailed hi
    have hpos : c ≠ 0 := by
      have := h.roles.wf.occupied a.actor (by rw [h.alive]; simp)
      omega
    have h2 : i = a.actor := h.roles.wf.pid_inj i a.actor
      (h1.trans hpid.symm) (by omega)
    rw [h2] at hi
    cases ht.drained.symm.trans hi.2

/-- Every other step of the kernel. -/
theorem books_pass (hb : Books w c) (hc : client c = true) (hcs : c ≠ serverPid)
    (ht : k.takenBy c = w.kernel.takenBy c)
    (hnotake : k.taken = w.kernel.taken ∨ (w.kernel.table a.actor).pid ≠ c) :
    Books { w with kernel := k } c := by
  have hexp : ∀ {m : IpcMsg}, Expecting w.kernel c m → Expecting k c m :=
    fun he => he.of_eff h.roles.wf h.alive h.eff hnotake
  have hnew : ∀ {pid : Int} {kd : SendFor},
      StoredIn w.kernel a k serverSlot pid kd →
      (w.kernel.table serverSlot).pid = serverPid →
      (k.table serverSlot).mailbox.Asks c →
      Expecting k c (k.table serverSlot).mailbox
        ∧ ∀ m, ¬ Expecting w.kernel c m := fun hst hto hask =>
    hst.request h.roles h.eff h.roles'.wf h.alive hc hcs hto hask
  refine ⟨?_, ?_, ?_, ?_, ?_⟩
  · show w.handledFor c = k.takenBy c ∨ ∃ m r,
      w.handledFor c = k.takenBy c ++ [(m, r)] ∧ Expecting k c m
    rw [ht]
    rcases hb.history with h1 | ⟨m, r, h1, h2⟩
    · exact Or.inl h1
    · exact Or.inr ⟨m, r, h1, hexp h2⟩
  · intro hq
    show Expecting k c (k.table serverSlot).mailbox
      ∧ w.handledFor c = k.takenBy c
    rw [ht]
    rcases h.queued hq with ⟨h1, h2⟩ | ⟨pid, kd, h1, hto⟩
    · obtain ⟨h3, h4⟩ := hb.queued h1
      rw [h2]
      exact ⟨hexp h3, h4⟩
    · obtain ⟨h2, h3⟩ := hnew h1 hto hq.2.2
      exact ⟨h2, hb.settled h3⟩
  · intro hh
    show Expecting k c (k.table serverSlot).buf ∧ w.handledFor c = k.takenBy c ∧ _
    rw [ht]
    rcases h.held hh with ⟨h1, h2⟩ | ⟨h1, h2, h3⟩
    · obtain ⟨h4, h5, h6⟩ := hb.held h1
      rw [h2]
      refine ⟨hexp h4, h5, ?_⟩
      intro hq
      rcases h.queued hq with ⟨h7, -⟩ | ⟨pid, kd, h7, hto⟩
      · exact h6 h7
      · exact (hnew h7 hto hq.2.2).2 _ h4
    · obtain ⟨h4, h5⟩ := hb.queued h1
      rw [h2]
      refine ⟨hexp h4, h5, ?_⟩
      intro hq
      cases h3.symm.trans hq.2.1
  · intro q r ha
    show w.handledFor c = k.takenBy c ++ [(q, r)] ∧ _
    rw [ht]
    obtain ⟨h1, h2⟩ := h.answering ha
    obtain ⟨h3, h4, msg, h5⟩ := hb.answering q r h1
    refine ⟨h3, ?_, ?_⟩
    · intro i hi
      obtain ⟨h6, ⟨h7, -⟩ | ⟨pid, kd, h7⟩⟩ := h.mailed hi
      · exact h4 i h7
      -- the server has stored the reply, and is back from its `send`
      obtain ⟨h8, rfl, -⟩ := h.store h7 hc hcs h6
      have h9 := h7.sent
      rw [h8] at h9
      exact pc_elim ha.2.1.sends.1 h9 rfl
    · rcases h2 with h2 | ⟨i, hi⟩
      · exact ⟨msg, h2.trans h5⟩
      · exact absurd hi (h4 i)
  · intro i hi
    show ∃ m, w.handledFor c = k.takenBy c ++ [(m, (k.table i).mailbox)]
      ∧ (k.table i).Awaits m
    rw [ht]
    obtain ⟨h1, ⟨h2, h3⟩ | ⟨pid, kd, h2⟩⟩ := h.mailed hi
    · obtain ⟨m, h4, h5⟩ := hb.mailed i h2
      rw [h3]
      exact ⟨m, h4, awaits_of_eff h.roles.wf h.eff h5 hi.2 h2.2⟩
    · obtain ⟨h3, rfl, req, h4⟩ := h.store h2 hc hcs h1
      obtain ⟨h5, -, msg, h6⟩ := hb.answering req _ h4
      refine ⟨req, h5, ?_⟩
      -- the server has just found its target alive and not killed, so the
      -- client is still waiting inside `fs_ipc_call`
      have hs := h2.sending
      rw [h3] at hs
      cases hs with
      | waited hpc => cases h6.symm.trans hpc
      | found msg' hpc hm hfind hlive hkilled =>
        have hne : i ≠ a.actor := by
          intro e
          rw [e, h3, (h.server.up h4.1.running).pid] at h1
          exact hcs h1.symm
        have hwait : (w.kernel.table i).Awaits req := by
          rcases (hb.expecting h5).waiting i h1 with h7 | ⟨-, h7 | h7⟩
          · cases hlive.symm.trans h7
          · exact h7
          · cases hkilled.symm.trans h7.1
        rcases other_of_eff h.roles.wf h.eff hne hlive with
          e | ⟨_, _, _, -, -, e⟩ | ⟨_, -, -, e⟩
        · rw [e]
          exact hwait
        · rw [e]
          exact hwait
        · rw [e]
          exact hwait

theorem books_kernel (hb : Books w c) (hc : client c = true) (hcs : c ≠ serverPid) :
    Books { w with kernel := k } c := by
  rcases taken_of_eff h.eff with ht | ⟨server, req, ht⟩
  · exact books_pass h hb hc hcs (takenBy_same ht c) (Or.inl ht)
  · by_cases hpid : (w.kernel.table a.actor).pid = c
    · exact books_take h hb ht hpid
    · exact books_pass h hb hc hcs (ht.takenBy_other hpid) (Or.inr hpid)

end

end KernelStep

-- ==== a step of the server's code

/-- The start of a system call of the server's program. -/
def Act.OfServer (a : Act) : Prop :=
  a = .recv serverSlot ∨ a = .exit serverSlot ∨ ∃ pid msg, a = .send serverSlot pid msg

/-- The server's program moves the server to `pc` and touches nobody
else. -/
structure Moves (w w' : World σ) (pc : Pc) : Prop where
  table : w'.kernel.table = update w.kernel.table serverSlot
    (w.server.goto pc w.server.retval)
  frame : Frame w.kernel w'.kernel
  kernel : w'.kernel = w.kernel
    ∨ ∃ a : Act, step w.kernel a = some w'.kernel ∧ a.OfServer

/-- The server's next stretch of code, by what it does. -/
inductive Serves (h : Handler σ) (w w' : World σ) : Prop
  | recv (hph : w.phase = .loop) (hph' : w'.phase = .receiving)
      (hmoves : Moves w w' (.toRecv .recv)) (hsame : w'.handled = w.handled)
      (hfs : w'.fs = w.fs)
  | again (hph : w.phase ≠ .done) (hph' : w'.phase = .loop)
      (hmoves : Moves w w' .user) (hsame : w'.handled = w.handled)
      (hfs : (w'.fs = w.fs ∧ (w.phase = .receiving → w.server.retval < 0))
        ∨ (w.phase = .receiving
          ∧ w.server.buf.type = IpcMsgType.fsClientExit.code
          ∧ w'.fs = h.closeAllForOwner w.fs w.server.buf.senderPid))
  | answer (ans : Answer) (hph : w.phase = .receiving)
      (hret : ¬ w.server.retval < 0)
      (htype : w.server.buf.type ≠ IpcMsgType.fsClientExit.code)
      (hans : (w.server.buf.type ≠ IpcMsgType.fsShutdown.code
          ∧ ans = (h.serve w.fs w.server.buf).2
          ∧ w'.phase = .replying w.server.buf
            ((sendReply w.server.buf ans).from serverPid))
        ∨ (w.server.buf.type = IpcMsgType.fsShutdown.code
          ∧ w'.phase = .stopping w.server.buf
            ((sendReply w.server.buf ans).from serverPid)))
      (hmoves : Moves w w' (.toSend w.server.buf.senderPid
        (sendReply w.server.buf ans) .send))
      (hnew : w'.handled = w.handled
        ++ [(w.server.buf, (sendReply w.server.buf ans).from serverPid)])
      (hfs : w.server.buf.type ≠ IpcMsgType.fsShutdown.code →
        w'.fs = (h.serve w.fs w.server.buf).1)
  | exit (req reply : IpcMsg) (hph : w.phase = .stopping req reply)
      (hph' : w'.phase = .done) (hmoves : Moves w w' .exiting)
      (hsame : w'.handled = w.handled) (hfs : w'.fs = w.fs)

section Serve

variable {h : Handler σ} {w' : World σ}

theorem Moves.of_same (hk : w'.kernel = w.kernel) (hpc : w.server.pc = .user) :
    Moves w w' .user := by
  refine ⟨?_, ?_, Or.inl hk⟩
  · rw [hk]
    refine (update_eq_self_iff.mpr ?_).symm
    rw [← hpc]
    rfl
  · rw [hk]
    exact ⟨rfl, rfl, rfl, rfl⟩

theorem Moves.of_step {a : Act} {f : Proc → Proc} {pc : Pc}
    (hs : step w.kernel a = some w'.kernel) (ha : a.OfServer)
    (hk : w'.kernel = w.kernel.modify serverSlot f)
    (hf : ∀ p : Proc, (f p).core = p.core.goto pc p.core.retval) : Moves w w' pc := by
  refine ⟨?_, ?_, Or.inr ⟨a, hs, ha⟩⟩
  · rw [hk, table_modify, hf]
    rfl
  · rw [hk]
    exact ⟨rfl, rfl, rfl, rfl⟩

theorem step_recv {s s' : Kernel} {i : Nat} (hs : step s (.recv i) = some s') :
    s' = s.modify i fun p => { p with pc := .toRecv .recv } := by
  have hact := step_running hs (by simp)
  simp only [act] at hact
  split at hact
  next => exact (Option.some.inj hact).symm
  next => cases hact

theorem step_send {s s' : Kernel} {i : Nat} {pid : Int} {msg : IpcMsg}
    (hs : step s (.send i pid msg) = some s') :
    s' = s.modify i fun p => { p with pc := .toSend pid msg .send } := by
  have hact := step_running hs (by simp)
  simp only [act] at hact
  split at hact
  next => exact (Option.some.inj hact).symm
  next => cases hact

/-- The server exits without a `CLIENT_EXIT`. -/
theorem step_exit {s s' : Kernel} {i : Nat} (hs : step s (.exit i) = some s')
    (hknown : ServerKnown s) (hpid : (s.procs i).pid = serverPid) :
    s' = s.modify i fun p => { p with pc := .exiting } := by
  have hact := step_running hs (by simp)
  simp only [act] at hact
  split at hact
  next =>
    split at hact
    next => cases hact
    have heq := (Option.some.inj hact).symm
    rw [heq]
    unfold exitStart
    split
    next hcond =>
      exfalso
      rcases hknown with hk | hk
      · exact hcond.2 (by rw [hk, hpid])
      · rw [hk] at hcond
        omega
    next => rfl
  next => cases hact

theorem answer_moves {fs : σ} {req : IpcMsg} {ans : Answer}
    {ph : IpcMsg → IpcMsg → Phase} (hs : w.answer fs req ans ph = some w') :
    Moves w w' (.toSend req.senderPid (sendReply req ans) .send)
      ∧ w'.phase = ph req ((sendReply req ans).from serverPid)
      ∧ w'.handled = w.handled
        ++ [(req, (sendReply req ans).from serverPid)] ∧ w'.fs = fs := by
  unfold World.answer at hs
  dsimp only at hs
  split at hs
  next k hk =>
    cases hs
    exact ⟨.of_step hk (.inr (.inr ⟨_, _, rfl⟩)) (step_send hk) fun _ => rfl, rfl, rfl, rfl⟩
  next => cases hs

theorem serves_of_step (hs : w.step h .serve = some w')
    (hknown : ServerKnown w.kernel)
    (hpid : (w.kernel.procs serverSlot).pid = serverPid) :
    w.server.pc = .user ∧ Serves h w w' := by
  simp only [World.step] at hs
  split at hs
  next hrun hpc =>
    refine ⟨hpc, ?_⟩
    unfold mainLoop at hs
    split at hs
    next hph =>
      split at hs
      next k hk =>
        cases hs
        exact .recv hph rfl (.of_step hk (.inl rfl) (step_recv hk) fun _ => rfl) rfl rfl
      next => cases hs
    next hph =>
      dsimp only at hs
      split at hs
      next hret =>
        cases hs
        exact .again (by rw [hph]; simp) rfl (.of_same rfl hpc) rfl
          (Or.inl ⟨rfl, fun _ => hret⟩)
      next hret =>
        split at hs
        next htype =>
          obtain ⟨h1, h2, h3, -⟩ := answer_moves hs
          refine .answer _ hph hret ?_ (Or.inr ⟨htype, h2⟩) h1 h3 (absurd htype)
          have htype : w.server.buf.type = IpcMsgType.fsShutdown.code := htype
          rw [htype]
          decide
        next hshut =>
          split at hs
          next htype =>
            cases hs
            exact .again (by rw [hph]; simp) rfl (.of_same rfl hpc) rfl
              (Or.inr ⟨hph, htype, rfl⟩)
          next htype =>
            obtain ⟨h1, h2, h3, h4⟩ := answer_moves hs
            exact .answer _ hph hret htype (Or.inl ⟨hshut, rfl, h2⟩) h1 h3 fun _ => h4
    next req reply hph =>
      cases hs
      exact .again (by rw [hph]; simp) rfl (.of_same rfl hpc) rfl
        (Or.inl ⟨rfl, fun h1 => by cases hph.symm.trans h1⟩)
    next req reply hph =>
      split at hs
      next k hk =>
        cases hs
        exact .exit req reply hph rfl (.of_step hk (.inr (.inl rfl))
          (step_exit hk hknown hpid) fun _ => rfl) rfl rfl
      next => cases hs
    next => cases hs
  next => cases hs

theorem Moves.other {pc : Pc} (hm : Moves w w' pc) {i : Nat} (hi : i ≠ serverSlot) :
    w'.kernel.table i = w.kernel.table i := by
  rw [hm.table, update_of_ne hi]

theorem Moves.server {pc : Pc} (hm : Moves w w' pc) :
    w'.server = w.server.goto pc w.server.retval := by
  unfold World.server
  rw [hm.table, update_self]
  rfl

theorem Moves.pid {pc : Pc} (hm : Moves w w' pc) (i : Nat) :
    (w'.kernel.table i).pid = (w.kernel.table i).pid := by
  rw [hm.table]
  exact update_proj Core.pid (by rfl) i

/-- A client's slot is not the server's. -/
theorem Moves.client {pc : Pc} (hm : Moves w w' pc)
    (hpid : w.server.pid = serverPid) (hcs : c ≠ serverPid) {i : Nat}
    (hi : (w'.kernel.table i).pid = c) : w'.kernel.table i = w.kernel.table i := by
  refine hm.other ?_
  rintro rfl
  rw [hm.pid] at hi
  exact hcs (hi.symm.trans hpid)

theorem Moves.expecting {pc : Pc} (hm : Moves w w' pc)
    (hpid : w.server.pid = serverPid) (hcs : c ≠ serverPid) {m : IpcMsg}
    (he : Expecting w.kernel c m) : Expecting w'.kernel c m := by
  refine ⟨he.pos, ?_, ?_⟩
  · rw [hm.frame.nextpid]
    exact he.born
  · intro i hi
    have hsame := hm.client hpid hcs hi
    rw [hsame] at hi ⊢
    exact he.waiting i hi

theorem Moves.mailed {pc : Pc} (hm : Moves w w' pc)
    (hpid : w.server.pid = serverPid) (hcs : c ≠ serverPid) {i : Nat}
    (hi : Mailed w'.kernel c i) :
    Mailed w.kernel c i ∧ w'.kernel.table i = w.kernel.table i := by
  have hsame := hm.client hpid hcs hi.1
  refine ⟨?_, hsame⟩
  unfold Mailed at hi ⊢
  rw [← hsame]
  exact hi

theorem Moves.queued {pc : Pc} (hm : Moves w w' pc)
    (hrun : w.phase.isDone = false) (hq : Queued w' c) :
    Queued w c ∧ w'.server.mailbox = w.server.mailbox := by
  unfold Queued at hq
  rw [hm.server] at hq ⊢
  exact ⟨⟨hrun, hq.2⟩, rfl⟩

/-- The server's program, when it answers nobody. -/
theorem books_quiet {pc : Pc} (hm : Moves w w' pc) (hb : Books w c)
    (hpid : w.server.pid = serverPid) (hcs : c ≠ serverPid)
    (hrun : w.phase.isDone = false) (hsame : w'.handledFor c = w.handledFor c)
    (hheld : ¬ Held w' c) (hans : ∀ req reply, ¬ Answering w' c req reply) :
    Books w' c := by
  have htaken : w'.kernel.takenBy c = w.kernel.takenBy c :=
    takenBy_same hm.frame.taken c
  refine ⟨?_, ?_, fun hh => absurd hh hheld,
    fun q r ha => absurd ha (hans q r), ?_⟩
  · rw [hsame, htaken]
    rcases hb.history with h1 | ⟨m, r, h1, h2⟩
    · exact Or.inl h1
    · exact Or.inr ⟨m, r, h1, hm.expecting hpid hcs h2⟩
  · intro hq
    obtain ⟨h1, h2⟩ := hm.queued hrun hq
    obtain ⟨h3, h4⟩ := hb.queued h1
    rw [h2, hsame, htaken]
    exact ⟨hm.expecting hpid hcs h3, h4⟩
  · intro i hi
    obtain ⟨h1, h2⟩ := hm.mailed hpid hcs hi
    rw [h2, hsame, htaken]
    exact hb.mailed i h1

/-- The server answers this client. -/
theorem books_answer {req reply msg : IpcMsg}
    (hm : Moves w w' (.toSend req.senderPid msg .send)) (hb : Books w c)
    (hpid : w.server.pid = serverPid) (hcs : c ≠ serverPid)
    (hheld : Held w c) (hreq : w.server.buf = req) (hph : w'.phase.Answers req reply)
    (hnew : w'.handledFor c = w.handledFor c ++ [(req, reply)]) :
    Books w' c := by
  obtain ⟨h1, h2, h3⟩ := hb.held hheld
  have hrun : w.phase.isDone = false := by
    rw [hheld.1]
    rfl
  have htaken : w'.kernel.takenBy c = w.kernel.takenBy c :=
    takenBy_same hm.frame.taken c
  -- nothing else of this client is under way
  have hnomail : ∀ i, ¬ Mailed w'.kernel c i := by
    intro i hi
    obtain ⟨m, h4, -⟩ := hb.mailed i (hm.mailed hpid hcs hi).1
    exact Books.not_ahead h2 h4
  refine ⟨?_, ?_, ?_, ?_, fun i hi => absurd hi (hnomail i)⟩
  · refine Or.inr ⟨req, reply, ?_, ?_⟩
    · rw [hnew, htaken, h2]
    · rw [← hreq]
      exact hm.expecting hpid hcs h1
  · intro hq
    exact absurd (hm.queued hrun hq).1 h3
  · intro hh
    exact absurd hh.1 hph.not_receiving
  · intro q r ha
    obtain ⟨rfl, rfl⟩ := hph.unique ha.1
    refine ⟨?_, hnomail, msg, ?_⟩
    · rw [hnew, htaken, h2]
    · rw [hm.server]
      rfl

theorem Serves.moves (hs : Serves h w w') : ∃ pc, Moves w w' pc := by
  cases hs with
  | recv _ _ hmoves | again _ _ hmoves | answer _ _ _ _ _ hmoves
  | exit _ _ _ _ hmoves => exact ⟨_, hmoves⟩

theorem books_serve (hs : Serves h w w') (huser : w.server.pc = .user)
    (hup : Up w.kernel w.phase) (hb : Books w c) (hcs : c ≠ serverPid) : Books w' c := by
  have hpid : w.server.pid = serverPid := hup.pid
  have hkept : w'.handled = w.handled → w'.handledFor c = w.handledFor c := by
    intro he
    unfold World.handledFor
    rw [he]
  cases hs with
  | recv hph hph' hmoves hsame =>
    refine books_quiet hmoves hb hpid hcs (by rw [hph]; rfl) (hkept hsame) ?_ ?_
    · rintro ⟨-, ⟨h1 | h1, -⟩, -⟩
      · rw [hmoves.server] at h1
        cases h1
      · rw [hmoves.server] at h1
        cases h1
    · rintro q r ⟨h1, -, -⟩
      rw [hph'] at h1
      exact h1
  | again hph hph' hmoves hsame =>
    refine books_quiet hmoves hb hpid hcs ?_ (hkept hsame) ?_ ?_
    · cases hp : w.phase with
      | done => exact absurd hp hph
      | loop | receiving | replying | stopping => rfl
    · rintro ⟨h1, -, -⟩
      cases hph'.symm.trans h1
    · rintro q r ⟨h1, -, -⟩
      rw [hph'] at h1
      exact h1
  | answer ans hph hret htype hans hmoves hnew =>
    have hphase := Phase.answers_of hans
    by_cases hc : w.server.buf.senderPid = c
    · have hinhand := hup.here.inHand hph huser
      refine books_answer hmoves hb hpid hcs ⟨hph, hinhand, hc, htype⟩ rfl
        hphase ?_
      unfold World.handledFor
      rw [hnew, List.filter_append]
      simp [hc]
    · refine books_quiet hmoves hb hpid hcs (by rw [hph]; rfl) ?_ ?_ ?_
      · unfold World.handledFor
        rw [hnew, List.filter_append]
        simp [hc]
      · rintro ⟨h1, -, -⟩
        exact hphase.not_receiving h1
      · rintro q r ⟨h1, -, h2⟩
        obtain ⟨rfl, rfl⟩ := hphase.unique h1
        exact hc h2
  | exit req reply hph hph' hmoves hsame =>
    refine books_quiet hmoves hb hpid hcs (by rw [hph]; rfl) (hkept hsame) ?_ ?_
    · rintro ⟨h1, -, -⟩
      cases hph'.symm.trans h1
    · rintro q r ⟨h1, -, -⟩
      rw [hph'] at h1
      exact h1

end Serve

end Xv6FsServer.Ipc
