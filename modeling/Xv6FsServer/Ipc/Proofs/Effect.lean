/-
What one kernel step can do to processes and mailboxes, said once.

The scheduler's part of a process (which of `SLEEPING`, `RUNNABLE`,
`RUNNING` it is in, and on which channel) decides when a step is taken
but never what it does, so it is projected away: `Core` keeps the rest,
with the three states merged into `alive`. `Eff s a s'` then lists the
effects a step has on the table of cores: `quiet` moves only the actor's
own place (`Move` says from where to where), and the others are the
stores, the takes and the changes of process lifetimes.

`eff_of_step` is the inversion lemma every invariant below goes through.
-/
import Xv6FsServer.Ipc.Model
import Xv6FsServer.Lib.Tally

namespace Xv6FsServer.Ipc

open Lib Function

variable {i t : Nat} {w s s' : Kernel} {p : Proc} {a : Act}
variable {T : Table} {f : Proc → Proc} {pid : Int} {test : Proc → Bool}

-- ==== the projection

inductive Life
  | unused
  | embryo
  | alive
  | zombie
  deriving DecidableEq, Repr

def ProcState.life : ProcState → Life
  | .unused => .unused
  | .embryo => .embryo
  | .sleeping | .runnable | .running => .alive
  | .zombie => .zombie

/-- A process without the scheduler's part. -/
structure Core where
  life : Life
  pid : Nat
  killed : Bool
  mailbox : IpcMsg
  hasMsg : Bool
  pc : Pc
  retval : Int
  buf : IpcMsg

def Proc.core (p : Proc) : Core where
  life := p.state.life
  pid := p.pid
  killed := p.killed
  mailbox := p.mailbox
  hasMsg := p.hasMsg
  pc := p.pc
  retval := p.retval
  buf := p.buf

abbrev Table := Nat → Core

def Kernel.table (s : Kernel) : Table := fun i => (s.procs i).core

@[simp] theorem table_modify (s : Kernel) (i : Nat) (f : Proc → Proc) :
    (s.modify i f).table = update s.table i (f (s.procs i)).core := by
  funext j
  unfold Kernel.table Kernel.modify
  by_cases hj : j = i
  · subst hj
    simp
  · simp [hj]

/-- A wakeup is the scheduler's business. -/
@[simp] theorem table_wakeup1 (s : Kernel) (c : Chan) :
    (s.wakeup1 c).table = s.table := by
  funext j
  unfold Kernel.table Kernel.wakeup1
  dsimp only
  split
  next h =>
    unfold Proc.core
    rw [h.1]
    rfl
  next => rfl

/-- A change of slot `t`, then of slot `i`. -/
def Table.set₂ (T : Table) (t : Nat) (c : Core) (i : Nat) (g : Core → Core) :
    Table :=
  update (update T t c) i (g (update T t c i))

theorem Table.set₂_proj {β : Type*} {c : Core} {g : Core → Core}
    (f : Core → β) (hc : f c = f (T t)) (hg : ∀ p, f (g p) = f p) (j : Nat) :
    f (T.set₂ t c i g j) = f (T j) :=
  (update_proj f (hg _) j).trans (update_proj f hc j)

theorem Table.set₂_self (T : Table) (t : Nat) (c : Core) (i : Nat)
    (g : Core → Core) : T.set₂ t c i g i = g (update T t c i) := update_self ..

theorem Table.set₂_of_ne {j : Nat} {c : Core} {g : Core → Core} (h : j ≠ i) :
    T.set₂ t c i g j = update T t c j := update_of_ne h ..

-- ==== the effects

/-- Put a message into the mailbox. -/
def Core.fill (p : Core) (m : IpcMsg) : Core :=
  { p with mailbox := m, hasMsg := true }

def Core.drain (p : Core) : Core :=
  { p with mailbox := .zero, hasMsg := false }

def Core.goto (p : Core) (pc : Pc) (r : Int) : Core :=
  { p with pc := pc, retval := r }

section

variable (p : Core) (pc : Pc) (r : Int)

@[simp] theorem Core.goto_life : (p.goto pc r).life = p.life := rfl
@[simp] theorem Core.goto_killed : (p.goto pc r).killed = p.killed := rfl
@[simp] theorem Core.goto_mailbox : (p.goto pc r).mailbox = p.mailbox := rfl
@[simp] theorem Core.goto_hasMsg : (p.goto pc r).hasMsg = p.hasMsg := rfl
@[simp] theorem Core.goto_pc : (p.goto pc r).pc = pc := rfl

end

/-- Where a sender is after `ipc_send_msg` returned 0. -/
def SendFor.sent : SendFor → Pc
  | .send => .ret false
  | .call server req => .toRecv (.call server req)
  | .exit => .exiting

/-- Where a sender is after `ipc_send_msg` returned -1. -/
def SendFor.failed : SendFor → Pc
  | .send | .call _ _ => .ret false
  | .exit => .exiting

/-- The receiver with the message `m` in hand. -/
def Core.got (p : Core) (m : IpcMsg) : RecvFor → Core
  | .recv => { p.goto (.ret false) 0 with buf := m }
  | .call _ req =>
    if accepts req m then { p.goto (.ret true) 0 with buf := m }
    else p.goto (.ret false) (-1)

/-- The record a `take` leaves. -/
def RecvFor.record (pid : Nat) (m : IpcMsg) : RecvFor → List Taken
  | .recv => []
  | .call server req => [⟨pid, server, req, m⟩]

/-- The record a `store` leaves. -/
structure Stored.Records (d : Stored) (p : Core) (pid : Int) (m : IpcMsg) :
    Prop where
  addressed : d.addressed = pid
  occupant : d.occupant = p.pid
  life : d.state.life = p.life
  killed : d.killed = p.killed
  msg : d.msg = m

/-- The process is sending message `m` to the target in slot `t`: it has
just found it, or it has been waiting for it. -/
inductive Sending (s : Kernel) (p : Core) (pid : Int) (t : Nat) (m : IpcMsg)
    (k : SendFor) : Prop
  | found (msg : IpcMsg) (hpc : p.pc = .toSend pid msg k)
      (hm : m = msg.from p.pid) (hfind : s.findPid pid = some t)
      (hlive : (s.table t).life = .alive) (hkilled : (s.table t).killed = false)
  | waited (hpc : p.pc = .sendLoop pid t m k)

/-- Why `ipc_send_msg` returns -1: the message or its target is refused, or
the loop on the target's mailbox gives up. -/
inductive Fails (s : Kernel) (p : Core) (k : SendFor) : Prop
  | invalid (pid : Int) (msg : IpcMsg) (hpc : p.pc = .toSend pid msg k)
      (h : validIpcMsg (msg.from p.pid) = false)
  | missing (pid : Int) (msg : IpcMsg) (hpc : p.pc = .toSend pid msg k)
      (h : s.findPid pid = none)
  | refused (pid : Int) (msg : IpcMsg) (t : Nat)
      (hpc : p.pc = .toSend pid msg k) (hfind : s.findPid pid = some t)
      (h : (s.table t).life ≠ .alive ∨ (s.table t).killed = true)
  | interrupted (pid : Int) (t : Nat) (m : IpcMsg) (hs : Sending s p pid t m k)
      (hfull : (s.table t).hasMsg = true)
      (h : p.killed = true ∨ (s.table t).life ≠ .alive
        ∨ (s.table t).killed = true)

/-- The process is in user space and chose to take the step. -/
def Core.Asks (p : Core) (a : Act) : Prop :=
  p.pc = .user ∧ a.isProgram = true

/-- The moves of a process's own place: nothing else changes. -/
inductive Move (s : Kernel) (p : Core) : Act → Pc → Int → Prop
  | sched (i : Nat) : Move s p (.sched i) p.pc p.retval
  | yield (i : Nat) : Move s p (.yield i) p.pc p.retval
  | send (i : Nat) (pid : Int) (msg : IpcMsg) (hpc : p.pc = .user) :
      Move s p (.send i pid msg) (.toSend pid msg .send) p.retval
  | recv (i : Nat) (hpc : p.pc = .user) :
      Move s p (.recv i) (.toRecv .recv) p.retval
  | call (i : Nat) (req req' : IpcMsg) (hpc : p.pc = .user ∨ p.pc = .ret true)
      (hfs : ¬ s.fsserverPid < 0) (hfile : req'.isFileCall = true) :
      Move s p (.call i req)
        (.toSend s.fsserverPid req' (.call s.fsserverPid (req'.from p.pid)))
        p.retval
  | noServer (i : Nat) (req : IpcMsg) (hpc : p.pc = .user ∨ p.pc = .ret true) :
      Move s p (.call i req) (.ret false) (-1)
  | exit (a : Act) (hpc : p.Asks a ∨ ∃ b, p.pc = .ret b ∧ p.killed = true)
      (hfs : 0 < s.fsserverPid) (hne : s.fsserverPid ≠ p.pid) :
      Move s p a (.toSend s.fsserverPid clientExitMsg .exit) p.retval
  | exitQuietly (a : Act)
      (hpc : p.Asks a ∨ ∃ b, p.pc = .ret b ∧ p.killed = true)
      (hfs : ¬ (0 < s.fsserverPid ∧ s.fsserverPid ≠ p.pid)) :
      Move s p a .exiting p.retval
  | sysret (i : Nat) (b : Bool) (hpc : p.pc = .ret b)
      (hkilled : p.killed = false) : Move s p (.sysret i) .user p.retval
  | sendFail (a : Act) (k : SendFor) (r : Int)
      (hpc : (∃ pid msg, p.pc = .toSend pid msg k)
        ∨ ∃ pid t m, p.pc = .sendLoop pid t m k) (hwhy : Fails s p k)
      (hr : k ≠ .exit → r = -1) : Move s p a k.failed r
  | sendWait (a : Act) (pid : Int) (t : Nat) (m : IpcMsg) (k : SendFor)
      (hs : Sending s p pid t m k) (hfull : (s.table t).hasMsg = true) :
      Move s p a (.sendLoop pid t m k) p.retval
  | recvFail (a : Act) (k : RecvFor) (hpc : p.pc = .toRecv k ∨ p.pc = .recvLoop k)
      (hkilled : p.killed = true) (hempty : p.hasMsg = false) :
      Move s p a (.ret false) (-1)
  | recvWait (a : Act) (k : RecvFor) (hpc : p.pc = .toRecv k ∨ p.pc = .recvLoop k)
      (hempty : p.hasMsg = false) : Move s p a (.recvLoop k) p.retval
  | waitSleep (a : Act) (hpc : p.Asks a ∨ p.pc = .waitLoop) :
      Move s p a .waitLoop p.retval
  | back (a : Act) (r : Int) (hpc : p.Asks a ∨ p.pc = .waitLoop) :
      Move s p a (.ret false) r

/-- The parts of the kernel beside the process table. -/
structure Frame (s s' : Kernel) : Prop where
  nextpid : s'.nextpid = s.nextpid
  fsserverPid : s'.fsserverPid = s.fsserverPid
  stored : s'.stored = s.stored
  taken : s'.taken = s.taken

/-- The effects of a step of a live process. -/
inductive Eff (s : Kernel) (a : Act) (s' : Kernel) : Prop
  | quiet (pc : Pc) (r : Int) (hmove : Move s (s.table a.actor) a pc r)
      (htable : s'.table
        = update s.table a.actor ((s.table a.actor).goto pc r))
      (hframe : Frame s s')
  | store (pid : Int) (t : Nat) (m : IpcMsg) (k : SendFor) (r : Int)
      (hs : Sending s (s.table a.actor) pid t m k)
      (hempty : (s.table t).hasMsg = false)
      (htable : s'.table = s.table.set₂ t ((s.table t).fill m) a.actor
        fun p => p.goto k.sent r)
      (hnext : s'.nextpid = s.nextpid)
      (hfs : s'.fsserverPid = s.fsserverPid) (d : Stored)
      (hd : d.Records (s.table t) pid m) (hstored : s'.stored = s.stored ++ [d])
      (htaken : s'.taken = s.taken) (hr : k = .send → r = 0)
  | took (k : RecvFor)
      (hpc : (s.table a.actor).pc = .toRecv k ∨ (s.table a.actor).pc = .recvLoop k)
      (hfull : (s.table a.actor).hasMsg = true)
      (htable : s'.table = update s.table a.actor
        ((s.table a.actor).drain.got (s.table a.actor).mailbox k))
      (hnext : s'.nextpid = s.nextpid)
      (hfs : s'.fsserverPid = s.fsserverPid)
      (hstored : s'.stored = s.stored)
      (htaken : s'.taken = s.taken ++
        k.record (s.table a.actor).pid (s.table a.actor).mailbox)
  | zombie (ha : a = .exitFinal a.actor)
      (hpc : (s.table a.actor).pc = .exiting)
      (htable : s'.table = update s.table a.actor
        { (s.table a.actor).drain with life := .zombie })
      (hnext : s'.nextpid = s.nextpid)
      (hfs : s'.fsserverPid
        = if s.fsserverPid = (s.table a.actor).pid then -1 else s.fsserverPid)
      (hstored : s'.stored = s.stored) (htaken : s'.taken = s.taken)
  | reap (t : Nat) (r : Int)
      (hpc : (s.table a.actor).Asks a ∨ (s.table a.actor).pc = .waitLoop)
      (hlife : (s.table t).life = .zombie)
      (htable : s'.table = s.table.set₂ t
        { (s.table t).drain with life := .unused, pid := 0, killed := false }
        a.actor fun p => p.goto (.ret false) r)
      (hframe : Frame s s')
  | alloc (t : Nat) (ha : a = .fork a.actor) (ht : t < nproc)
      (hpc : (s.table a.actor).pc = .user)
      (hlife : (s.table t).life = .unused)
      (htable : s'.table = s.table.set₂ t
        { s.table t with life := .embryo, pid := s.nextpid }
        a.actor fun p => { p with pc := .forked t false })
      (hnext : s'.nextpid = s.nextpid + 1)
      (hfs : s'.fsserverPid = s.fsserverPid)
      (hstored : s'.stored = s.stored) (htaken : s'.taken = s.taken)
  | reset (t : Nat) (hpc : (s.table a.actor).pc = .forked t false)
      (htable : s'.table = s.table.set₂ t (s.table t).drain a.actor
        fun p => { p with pc := .forked t true })
      (hframe : Frame s s')
  | unalloc (t : Nat) (r : Int)
      (hpc : (s.table a.actor).pc = .forked t true)
      (htable : s'.table = s.table.set₂ t { s.table t with life := .unused }
        a.actor fun p => p.goto (.ret false) r)
      (hframe : Frame s s')
  | born (t : Nat) (r : Int) (ha : a = .forkDone a.actor)
      (hpc : (s.table a.actor).pc = .forked t true)
      (htable : s'.table = s.table.set₂ t
        { s.table t with life := .alive, pc := .user }
        a.actor fun p => p.goto (.ret false) r)
      (hframe : Frame s s')
  | kill (t : Nat) (pid r : Int) (ha : a = .kill a.actor pid)
      (hpc : (s.table a.actor).pc = .user) (hfind : s.findPid pid = some t)
      (htable : s'.table = s.table.set₂ t { s.table t with killed := true }
        a.actor fun p => p.goto (.ret false) r)
      (hframe : Frame s s')
  | fault (ha : a = .fault a.actor)
      (htable : s'.table = update s.table a.actor
        { s.table a.actor with killed := true })
      (hframe : Frame s s')
  | register (ha : a = .register a.actor)
      (hpc : (s.table a.actor).pc = .user)
      (htable : s'.table
        = update s.table a.actor ((s.table a.actor).goto (.ret false) 0))
      (hnext : s'.nextpid = s.nextpid)
      (hfs : s'.fsserverPid = (s.table a.actor).pid)
      (hstored : s'.stored = s.stored) (htaken : s'.taken = s.taken)

-- ==== the inversion

/-- Another state of the same processes and mailboxes. -/
structure Alike (s w : Kernel) : Prop where
  table : w.table = s.table
  frame : Frame s w

theorem Alike.refl (s : Kernel) : Alike s s := ⟨rfl, rfl, rfl, rfl, rfl⟩

theorem Alike.core (h : Alike s w) (i : Nat) :
    (w.procs i).core = s.table i := congrFun h.table i

theorem Alike.hasMsg (h : Alike s w) (i : Nat) :
    (w.procs i).hasMsg = (s.table i).hasMsg := by rw [← h.core i]; rfl

theorem Alike.killed (h : Alike s w) (i : Nat) :
    (w.procs i).killed = (s.table i).killed := by rw [← h.core i]; rfl

theorem Alike.mailbox (h : Alike s w) (i : Nat) :
    (w.procs i).mailbox = (s.table i).mailbox := by rw [← h.core i]; rfl

theorem core_sleep (hp : p.core.life = .alive) (c : Chan) (pc : Pc) :
    (p.sleep c pc).core = p.core.goto pc p.core.retval := by
  unfold Proc.sleep Proc.core Core.goto
  unfold Proc.core at hp
  rw [hp]
  rfl

/-- Changing nothing but a process's place is a quiet step. -/
theorem eff_goto (h : Alike s w) {pc : Pc} {r : Int}
    (hmove : Move s (s.table a.actor) a pc r)
    (hf : (f (w.procs a.actor)).core = (s.table a.actor).goto pc r) :
    Eff s a (w.modify a.actor f) := by
  refine .quiet pc r hmove ?_ ⟨h.frame.1, h.frame.2, h.frame.3, h.frame.4⟩
  rw [table_modify, hf, h.table]

/-- Going to sleep is one. -/
theorem eff_sleep (h : Alike s w) {c : Chan} {pc : Pc}
    (halive : (s.table a.actor).life = .alive)
    (hmove : Move s (s.table a.actor) a pc (s.table a.actor).retval) :
    Eff s a (w.modify a.actor fun p => p.sleep c pc) := by
  refine eff_goto h hmove ?_
  rw [← h.core a.actor] at halive ⊢
  exact core_sleep halive c pc

/-- Returning from a system call is one. -/
theorem eff_return (h : Alike s w) {r : Int} {b : Bool}
    (hmove : Move s (s.table a.actor) a (.ret b) r) :
    Eff s a (w.modify a.actor fun p => p.return r b) := by
  refine eff_goto h hmove ?_
  rw [← h.core a.actor]
  rfl

theorem sendDone_fail (w : Kernel) (i : Nat) (k : SendFor) :
    ∃ (f : Proc → Proc) (r : Int), sendDone w i (-1) k = w.modify i f
      ∧ (f (w.procs i)).core = (w.procs i).core.goto k.failed r
      ∧ (k ≠ .exit → r = -1) := by
  cases k with
  | send | call => exact ⟨fun p => p.return (-1) false, -1, rfl, rfl, fun _ => rfl⟩
  | exit =>
    exact ⟨fun p => { p with pc := .exiting }, (w.procs i).retval, rfl, rfl,
      fun h => absurd rfl h⟩

theorem sendDone_ok (w : Kernel) (i : Nat) (k : SendFor) :
    ∃ (f : Proc → Proc) (r : Int), sendDone w i 0 k = w.modify i f
      ∧ (f (w.procs i)).core = (w.procs i).core.goto k.sent r ∧ (k = .send → r = 0) := by
  cases k with
  | send => exact ⟨fun p => p.return 0 false, 0, rfl, rfl, fun _ => rfl⟩
  | call server req =>
    exact ⟨fun p => { p with pc := .toRecv (.call server req) },
      (w.procs i).retval, rfl, rfl, by simp⟩
  | exit =>
    exact ⟨fun p => { p with pc := .exiting }, (w.procs i).retval, rfl, rfl, by simp⟩

theorem eff_sendFail (h : Alike s w) {k : SendFor}
    (hpc : (∃ pid msg, (s.table a.actor).pc = .toSend pid msg k)
      ∨ ∃ pid t m, (s.table a.actor).pc = .sendLoop pid t m k)
    (hwhy : Fails s (s.table a.actor) k) :
    Eff s a (sendDone w a.actor (-1) k) := by
  obtain ⟨f, r, heq, hf, hr⟩ := sendDone_fail w a.actor k
  rw [heq]
  refine eff_goto h (.sendFail a k r hpc hwhy hr) ?_
  rw [hf, h.core]

/-- A target the loop gives up on. -/
theorem not_alive_of_gone (h : p.gone = true) :
    p.core.life ≠ .alive ∨ p.core.killed = true := by
  unfold Proc.gone at h
  rw [Bool.or_eq_true, decide_eq_true_eq] at h
  refine h.imp (fun h => ?_) id
  unfold Proc.core
  rcases h with h | h <;> simp [h, ProcState.life]

/-- A target that is refused. -/
theorem not_alive_of_rejects (h : p.rejects = true) :
    p.core.life ≠ .alive ∨ p.core.killed = true := by
  unfold Proc.rejects at h
  rw [Bool.or_eq_true, decide_eq_true_eq] at h
  refine h.imp (fun h => ?_) id
  unfold Proc.core
  rcases h with h | h | h <;> simp [h, ProcState.life]

/-- `ipc_send_msg`'s loop: fail, sleep or store. -/
theorem eff_sendLoop (h : Alike s w) {m : IpcMsg} {k : SendFor}
    (halive : (s.table a.actor).life = .alive)
    (hs : Sending s (s.table a.actor) pid t m k) :
    Eff s a (sendLoop w a.actor pid t m k) := by
  unfold sendLoop
  split
  next hfull =>
    rw [h.hasMsg t] at hfull
    split
    next hgone =>
      refine eff_sendFail h ?_ (.interrupted pid t m hs hfull ?_)
      swap
      · rw [Bool.or_eq_true, h.killed] at hgone
        refine hgone.imp id fun hg => ?_
        rw [← h.core t]
        exact not_alive_of_gone hg
      cases hs with
      | found msg hpc => exact Or.inl ⟨pid, msg, hpc⟩
      | waited hpc => exact Or.inr ⟨pid, t, m, hpc⟩
    next => exact eff_sleep h halive (.sendWait a pid t m k hs hfull)
  next hempty =>
    have hempty' : (s.table t).hasMsg = false := by
      rw [← h.hasMsg t]
      simpa using hempty
    obtain ⟨f, r, heq, hf, hr⟩ := sendDone_ok (store w pid t m) a.actor k
    have hstore : (store w pid t m).table
        = update s.table t ((s.table t).fill m) := by
      have hfill : ({ w.procs t with mailbox := m, hasMsg := true } : Proc).core
          = (s.table t).fill m := by
        rw [← h.core t]
        rfl
      show ((w.modify t fun p =>
        { p with mailbox := m, hasMsg := true }).wakeup1 (.proc t)).table = _
      rw [table_wakeup1, table_modify, hfill, h.table]
    rw [heq]
    refine .store pid t m k r hs hempty' ?_ h.frame.nextpid h.frame.fsserverPid
      ⟨pid, (w.procs t).pid, (w.procs t).state, (w.procs t).killed, m⟩
      ⟨rfl, ?_, ?_, h.killed t, rfl⟩ ?_ h.frame.taken hr
    · unfold Table.set₂
      rw [table_modify, hf, ← hstore]
      rfl
    · rw [← h.core t]
      rfl
    · rw [← h.core t]
      rfl
    · show w.stored ++ _ = _
      rw [h.frame.stored]

/-- A target that was found and not refused. -/
theorem alive_of_not_rejects (h : p.rejects = false) :
    p.core.life = .alive ∧ p.core.killed = false := by
  unfold Proc.rejects at h
  rw [Bool.or_eq_false_iff] at h
  refine ⟨?_, h.2⟩
  have h1 := h.1
  unfold Proc.core
  cases hst : p.state <;> simp [hst, ProcState.life] at h1 ⊢

theorem eff_ipcSendMsg {msg : IpcMsg} {k : SendFor}
    (halive : (s.table a.actor).life = .alive)
    (hpc : (s.table a.actor).pc = .toSend pid msg k) :
    Eff s a (ipcSendMsg s a.actor pid msg k) := by
  unfold ipcSendMsg
  dsimp only
  split
  next =>
    split
    next t hfind =>
      split
      next hrej =>
        exact eff_sendFail (.refl s) (Or.inl ⟨pid, msg, hpc⟩)
          (.refused pid msg t hpc hfind (not_alive_of_rejects hrej))
      next hrej =>
        obtain ⟨h1, h2⟩ := alive_of_not_rejects (by simpa using hrej)
        exact eff_sendLoop (.refl s) halive (.found msg hpc rfl hfind h1 h2)
    next hfind =>
      exact eff_sendFail (.refl s) (Or.inl ⟨pid, msg, hpc⟩)
        (.missing pid msg hpc hfind)
  next hvalid =>
    exact eff_sendFail (.refl s) (Or.inl ⟨pid, msg, hpc⟩)
      (.invalid pid msg hpc (Bool.not_eq_true _ ▸ hvalid))

theorem recvDone_frame (w : Kernel) (i : Nat) (got : Option IpcMsg) (k : RecvFor) :
    (recvDone w i got k).nextpid = w.nextpid
      ∧ (recvDone w i got k).fsserverPid = w.fsserverPid
      ∧ (recvDone w i got k).stored = w.stored := by
  unfold recvDone
  cases k <;> cases got <;> dsimp only
  case call.some => split <;> exact ⟨rfl, rfl, rfl⟩
  all_goals exact ⟨rfl, rfl, rfl⟩

/-- `ipc_recv_msg`'s loop: take, fail or sleep. -/
theorem eff_ipcRecvMsg (h : Alike s w) {k : RecvFor}
    (halive : (s.table a.actor).life = .alive)
    (hpc : (s.table a.actor).pc = .toRecv k ∨ (s.table a.actor).pc = .recvLoop k) :
    Eff s a (ipcRecvMsg w a.actor k) := by
  unfold ipcRecvMsg
  split
  next hfull =>
    rw [h.hasMsg] at hfull
    have htake : (take w a.actor).table
        = update s.table a.actor (s.table a.actor).drain := by
      have hdrain : ({ w.procs a.actor with
          hasMsg := false, mailbox := .zero } : Proc).core
          = (s.table a.actor).drain := by
        rw [← h.core a.actor]
        rfl
      unfold take
      rw [table_wakeup1, table_modify, hdrain, h.table]
    have hself : ((take w a.actor).procs a.actor).core
        = (s.table a.actor).drain := by
      have := congrFun htake a.actor
      rw [update_self] at this
      exact this
    have hpid : ((take w a.actor).procs a.actor).pid = (s.table a.actor).pid := by
      have := congrArg Core.pid hself
      exact this
    rw [h.mailbox]
    refine .took k hpc hfull ?_ ?_ ?_ ?_ ?_
    · cases k with
      | recv =>
        unfold recvDone
        rw [table_modify, htake, update_idem, ← hself]
        rfl
      | call server req =>
        show Kernel.table (if accepts req (s.table a.actor).mailbox then _
          else _) = _
        unfold Core.got
        dsimp only
        split
        · rw [table_modify, htake, update_idem, ← hself]
          rfl
        · rw [table_modify, htake, update_idem, ← hself]
          rfl
    · exact (recvDone_frame ..).1.trans h.frame.nextpid
    · exact (recvDone_frame ..).2.1.trans h.frame.fsserverPid
    · exact (recvDone_frame ..).2.2.trans h.frame.stored
    · cases k with
      | recv =>
        show w.taken = s.taken ++ []
        rw [List.append_nil, h.frame.taken]
      | call server req =>
        show w.taken ++ [⟨((take w a.actor).procs a.actor).pid, server, req,
          (s.table a.actor).mailbox⟩] = _
        rw [h.frame.taken, hpid]
        rfl
  next hnone =>
    have hempty : (s.table a.actor).hasMsg = false := by
      rw [← h.hasMsg a.actor]
      simpa using hnone
    split
    next hk =>
      rw [h.killed] at hk
      cases k with
      | recv | call => exact eff_return h (.recvFail a _ hpc hk hempty)
    next => exact eff_sleep h halive (.recvWait a k hpc hempty)

-- ==== lifetimes, and all

/-- The slot a scan stops at satisfies the test. -/
theorem scan_some (h : s.scan test = some t) :
    test (s.procs t) = true :=
  List.find?_some (p := fun i => test (s.procs i)) h

theorem scan_lt (h : s.scan test = some t) : t < nproc :=
  List.mem_range.mp (List.mem_of_find?_eq_some h)

theorem life_of_state {st : ProcState} (h : p.state = st) : p.core.life = st.life := by
  unfold Proc.core
  rw [h]

/-- A change of slot `t`, then of the actor. -/
theorem table_modify_modify (s : Kernel) (t i : Nat) {g : Proc → Proc}
    {F G : Core → Core} (hf : ∀ p, (f p).core = F p.core)
    (hg : ∀ p, (g p).core = G p.core) :
    ((s.modify t f).modify i g).table = s.table.set₂ t (F (s.table t)) i G := by
  have hmid : (s.modify t f).table = update s.table t (F (s.table t)) := by
    rw [table_modify, hf]
    rfl
  have hcore : ((s.modify t f).procs i).core = update s.table t (F (s.table t)) i :=
    congrFun hmid i
  rw [table_modify, hg, hcore, hmid]
  rfl

theorem eff_wait (h : Alike s w) (halive : (s.table a.actor).life = .alive)
    (hpc : (s.table a.actor).Asks a ∨ (s.table a.actor).pc = .waitLoop) :
    Eff s a (wait w a.actor) := by
  unfold wait
  split
  next t hscan =>
    have hz : (s.table t).life = .zombie := by
      have htest := scan_some hscan
      rw [decide_eq_true_eq] at htest
      rw [← h.core t, life_of_state htest.2]
      rfl
    refine .reap t (w.procs t).pid hpc hz ?_
      ⟨h.frame.1, h.frame.2, h.frame.3, h.frame.4⟩
    refine (table_modify_modify w t a.actor (f := Proc.reap)
      (F := fun c => { c.drain with life := .unused, pid := 0, killed := false })
      (G := fun c => c.goto (.ret false) (w.procs t).pid) (fun _ => rfl)
      fun _ => rfl).trans ?_
    rw [h.table]
  next =>
    split
    next => exact eff_return h (.back a _ hpc)
    next => exact eff_sleep h halive (.waitSleep a hpc)

/-- The scheduler's step. -/
theorem eff_resume (hstate : (s.procs i).state = .runnable) :
    Eff s (.sched i) (resume s i) := by
  have halive : (s.table i).life = .alive := life_of_state hstate
  have hcore : ∀ c, ({ s.procs i with state := .running, chan := c } : Proc).core
      = s.table i := by
    intro c
    unfold Kernel.table Proc.core
    rw [hstate]
    rfl
  have hlike : Alike s (s.modify i fun p =>
      { p with state := .running, chan := .null }) := by
    refine ⟨?_, rfl, rfl, rfl, rfl⟩
    rw [table_modify, hcore, update_eq_self]
  unfold resume
  split
  next pid t m k hpc =>
    exact eff_sendLoop (a := .sched i) hlike halive (.waited hpc)
  next k hpc =>
    exact eff_ipcRecvMsg (a := .sched i) hlike halive (Or.inr hpc)
  next hpc => exact eff_wait (a := .sched i) hlike halive (Or.inr hpc)
  next =>
    exact eff_goto (a := .sched i) (.refl s) (.sched i) (hcore (s.procs i).chan)

theorem table_reparent (s : Kernel) (i : Nat) : (reparent s i).table = s.table := by
  have hmap : (Kernel.table { s with
      procs := fun j =>
        if (s.procs j).parent = some i then
          { s.procs j with parent := some 0 }
        else s.procs j }) = s.table := by
    funext j
    unfold Kernel.table
    dsimp only
    split <;> rfl
  unfold reparent
  split
  · rw [table_wakeup1, hmap]
  · exact hmap

theorem frame_reparent (s : Kernel) (i : Nat) : Frame s (reparent s i) := by
  unfold reparent
  split <;> exact ⟨rfl, rfl, rfl, rfl⟩

theorem eff_exitFinal (hpc : (s.table i).pc = .exiting) :
    Eff s (.exitFinal i) (exitFinal s i) := by
  have hdrain : ({ s.procs i with hasMsg := false, mailbox := .zero } : Proc).core
      = (s.table i).drain := rfl
  have htab : ∀ w : Kernel, w.table = update s.table i (s.table i).drain →
      ((reparent w i).modify i fun p => { p with state := .zombie }).table
        = update s.table i { (s.table i).drain with life := .zombie } := by
    intro w hw
    have hself : ((reparent w i).procs i).core = (s.table i).drain := by
      have := congrFun ((table_reparent w i).trans hw) i
      rw [update_self] at this
      exact this
    rw [table_modify, table_reparent, hw, update_idem, ← hself]
    rfl
  refine .zombie rfl hpc ?_ ?_ ?_ ?_ ?_
  · unfold exitFinal
    refine htab _ ?_
    split <;>
    · rw [table_wakeup1, table_wakeup1, table_modify]
      exact congrArg _ hdrain
  · show (reparent _ i).nextpid = s.nextpid
    rw [(frame_reparent _ i).nextpid]
    split <;> rfl
  · show (reparent _ i).fsserverPid = _
    rw [(frame_reparent _ i).fsserverPid]
    split <;> rfl
  · show (reparent _ i).stored = s.stored
    rw [(frame_reparent _ i).stored]
    split <;> rfl
  · show (reparent _ i).taken = s.taken
    rw [(frame_reparent _ i).taken]
    split <;> rfl

theorem eff_exitStart (hpc : (s.table a.actor).Asks a
      ∨ ∃ b, (s.table a.actor).pc = .ret b ∧ (s.table a.actor).killed = true) :
    Eff s a (exitStart s a.actor) := by
  unfold exitStart
  split
  next hfs => exact eff_goto (.refl s) (.exit a hpc hfs.1 hfs.2) rfl
  next hfs => exact eff_goto (.refl s) (.exitQuietly a hpc hfs) rfl

theorem eff_fork (hpc : (s.table i).pc = .user) : Eff s (.fork i) (fork s i) := by
  unfold fork
  split
  next t hscan =>
    have hfree : (s.table t).life = .unused := by
      have htest := scan_some hscan
      rw [decide_eq_true_eq] at htest
      exact life_of_state htest
    refine .alloc t rfl (scan_lt hscan) hpc hfree ?_ rfl rfl rfl rfl
    exact table_modify_modify s t i
      (f := fun p => { p with state := .embryo, pid := s.nextpid })
      (g := fun p => { p with pc := .forked t false })
      (F := fun c => { c with life := .embryo, pid := s.nextpid })
      (G := fun c => { c with pc := .forked t false }) (fun _ => rfl) fun _ => rfl
  next => exact eff_return (a := .fork i) (.refl s) (.back _ _ (Or.inl ⟨hpc, rfl⟩))

theorem core_kill (p : Proc) :
    ({ p with
      killed := true
      state := if p.state = .sleeping then .runnable else p.state } : Proc).core
      = { p.core with killed := true } := by
  unfold Proc.core
  split
  next h =>
    rw [h]
    rfl
  next => rfl

/-- The branches of `act`. -/
inductive Acts (s : Kernel) : Act → Kernel → Prop
  | yield (i : Nat) :
      Acts s (.yield i) (s.modify i fun p => { p with state := .runnable })
  | enterSend (i : Nat) {pid : Int} {msg : IpcMsg} {k : SendFor}
      (hpc : (s.procs i).pc = .toSend pid msg k) :
      Acts s (.enter i) (ipcSendMsg s i pid msg k)
  | enterRecv (i : Nat) {k : RecvFor} (hpc : (s.procs i).pc = .toRecv k) :
      Acts s (.enter i) (ipcRecvMsg s i k)
  | sysret (i : Nat) {b : Bool} (hpc : (s.procs i).pc = .ret b)
      (hk : (s.procs i).killed = false) :
      Acts s (.sysret i) (s.modify i fun p => { p with pc := .user })
  | leave (i : Nat) {b : Bool} (hpc : (s.procs i).pc = .ret b)
      (hk : (s.procs i).killed = true) (h0 : i ≠ 0) :
      Acts s (.sysret i) (exitStart s i)
  | send (i : Nat) (pid : Int) (msg : IpcMsg) (hpc : (s.procs i).pc = .user) :
      Acts s (.send i pid msg)
        (s.modify i fun p => { p with pc := .toSend pid msg .send })
  | recv (i : Nat) (hpc : (s.procs i).pc = .user) :
      Acts s (.recv i) (s.modify i fun p => { p with pc := .toRecv .recv })
  | call (i : Nat) (req : IpcMsg) (hfile : req.isFileCall = true)
      (hpc : (s.procs i).pc = .user ∨ (s.procs i).pc = .ret true) :
      Acts s (.call i req) (fsIpcCall s i req)
  | exit (i : Nat) (hpc : (s.procs i).pc = .user) (h0 : i ≠ 0) :
      Acts s (.exit i) (exitStart s i)
  | exitFinal (i : Nat) (hpc : (s.procs i).pc = .exiting) :
      Acts s (.exitFinal i) (Ipc.exitFinal s i)
  | wait (i : Nat) (hpc : (s.procs i).pc = .user) : Acts s (.wait i) (Ipc.wait s i)
  | fork (i : Nat) (hpc : (s.procs i).pc = .user) : Acts s (.fork i) (Ipc.fork s i)
  | forkReset (i t : Nat) (hpc : (s.procs i).pc = .forked t false) :
      Acts s (.forkReset i) (Ipc.forkReset s i t)
  | forkFail (i t : Nat) (hpc : (s.procs i).pc = .forked t true) :
      Acts s (.forkFail i) (Ipc.forkFail s i t)
  | forkDone (i t : Nat) (hpc : (s.procs i).pc = .forked t true) :
      Acts s (.forkDone i) (Ipc.forkDone s i t)
  | kill (i : Nat) (pid : Int) (hpc : (s.procs i).pc = .user) :
      Acts s (.kill i pid) (Ipc.kill s i pid)
  | fault (i : Nat) (hpc : (s.procs i).pc = .user) :
      Acts s (.fault i) (s.modify i fun p => { p with killed := true })
  | register (i : Nat) (hpc : (s.procs i).pc = .user) :
      Acts s (.register i) (Ipc.register s i)

theorem acts_of_act (h : act s a = some s') : Acts s a s' := by
  cases a with
  | sched i => cases h
  | yield i =>
    cases h
    exact .yield i
  | sysret i =>
    simp only [act] at h
    split at h
    next b hpc =>
      split at h
      next hk =>
        split at h
        next => cases h
        next h0 =>
          cases h
          exact .leave i hpc hk h0
      next hk =>
        cases h
        exact .sysret i hpc (Bool.not_eq_true _ ▸ hk)
    next => cases h
  | call i req =>
    simp only [act] at h
    split at h
    next hfile =>
      split at h
      next hpc =>
        cases h
        exact .call i req hfile (Or.inl hpc)
      next hpc =>
        cases h
        exact .call i req hfile (Or.inr hpc)
      next => cases h
    next => cases h
  | exit i =>
    simp only [act] at h
    split at h
    next hpc =>
      split at h
      next => cases h
      next h0 =>
        cases h
        exact .exit i hpc h0
    next => cases h
  | _ =>
    -- one label, one place it is open at
    simp only [act] at h
    split at h <;> cases h <;> constructor <;> assumption

/-- The scheduler runs somebody, or a running process goes on. -/
theorem step_cases (hs : step s a = some s') :
    (∃ i, a = .sched i ∧ (s.procs i).state = .runnable ∧ s' = resume s i)
      ∨ (s.procs a.actor).state = .running ∧ Acts s a s' := by
  unfold step at hs
  split at hs
  next =>
    split at hs
    next =>
      split at hs
      next hstate => exact Or.inl ⟨_, rfl, hstate, (Option.some.inj hs).symm⟩
      next => cases hs
    next =>
      split at hs
      next hrun => exact Or.inr ⟨hrun, acts_of_act hs⟩
      next => cases hs
  next => cases hs

theorem eff_fsIpcCall {req : IpcMsg} (hfile : req.isFileCall = true)
    (hpc : (s.table i).pc = .user ∨ (s.table i).pc = .ret true) :
    Eff s (.call i req) (fsIpcCall s i req) := by
  unfold fsIpcCall
  split
  next => exact eff_return (a := .call i req) (.refl s) (.noServer i req hpc)
  next hfs =>
    refine .quiet _ _ (.call i req
      { req with requestId := s.nextFsRequestId } hpc hfs hfile) ?_
      ⟨rfl, rfl, rfl, rfl⟩
    exact table_modify s i fun p =>
      { p with
        pc := .toSend s.fsserverPid
          { req with requestId := s.nextFsRequestId }
          (.call s.fsserverPid
            (IpcMsg.from { req with requestId := s.nextFsRequestId } p.pid)) }

theorem eff_kill (pid : Int) (hpc : (s.table i).pc = .user) :
    Eff s (.kill i pid) (kill s i pid) := by
  unfold kill
  split
  next t hfind =>
    refine .kill t pid 0 rfl hpc hfind ?_ ⟨rfl, rfl, rfl, rfl⟩
    exact table_modify_modify s t i (F := fun c => { c with killed := true })
      (G := fun c => c.goto (.ret false) 0) core_kill fun _ => rfl
  next =>
    exact eff_return (a := .kill i pid) (.refl s) (.back _ _ (Or.inl ⟨hpc, rfl⟩))

theorem eff_acts (halive : (s.table a.actor).life = .alive) (hs : Acts s a s') :
    Eff s a s' := by
  cases hs with
  | yield i =>
    refine eff_goto (a := .yield i) (.refl s) (.yield i) ?_
    have hlife : ((s.procs i).state).life = .alive := halive
    unfold Kernel.table Core.goto Proc.core
    dsimp only [Act.actor]
    rw [hlife]
    rfl
  | enterSend i hpc => exact eff_ipcSendMsg (a := .enter i) halive hpc
  | enterRecv i hpc =>
    exact eff_ipcRecvMsg (a := .enter i) (.refl s) halive (Or.inl hpc)
  | sysret i hpc hk =>
    exact eff_goto (a := .sysret i) (.refl s) (.sysret i _ hpc hk) rfl
  | leave i hpc hk h0 =>
    exact eff_exitStart (a := .sysret i) (Or.inr ⟨_, hpc, hk⟩)
  | send i pid msg hpc =>
    exact eff_goto (a := .send i pid msg) (.refl s) (.send i pid msg hpc) rfl
  | recv i hpc => exact eff_goto (a := .recv i) (.refl s) (.recv i hpc) rfl
  | call i req hfile hpc => exact eff_fsIpcCall hfile hpc
  | exit i hpc h0 => exact eff_exitStart (a := .exit i) (Or.inl ⟨hpc, rfl⟩)
  | exitFinal i hpc => exact eff_exitFinal hpc
  | wait i hpc => exact eff_wait (a := .wait i) (.refl s) halive (Or.inl ⟨hpc, rfl⟩)
  | fork i hpc => exact eff_fork hpc
  | forkReset i t hpc =>
    refine .reset t hpc ?_ ⟨rfl, rfl, rfl, rfl⟩
    exact table_modify_modify s t i (F := Core.drain)
      (G := fun c => { c with pc := .forked t true }) (fun _ => rfl) fun _ => rfl
  | forkFail i t hpc =>
    refine .unalloc t (-1) hpc ?_ ⟨rfl, rfl, rfl, rfl⟩
    exact table_modify_modify s t i (F := fun c => { c with life := .unused })
      (G := fun c => c.goto (.ret false) (-1)) (fun _ => rfl) fun _ => rfl
  | forkDone i t hpc =>
    refine .born t (s.procs t).pid rfl hpc ?_ ⟨rfl, rfl, rfl, rfl⟩
    exact table_modify_modify s t i
      (F := fun c => { c with life := .alive, pc := .user })
      (G := fun c => c.goto (.ret false) (s.procs t).pid) (fun _ => rfl)
      fun _ => rfl
  | kill i pid hpc => exact eff_kill pid hpc
  | fault i hpc => exact .fault rfl (table_modify s i _) ⟨rfl, rfl, rfl, rfl⟩
  | register i hpc =>
    exact .register rfl hpc (table_modify s i fun p => p.return 0 false) rfl rfl
      rfl rfl

/-- Every step is one of a live process, and has one of the effects. -/
theorem eff_of_step (hs : step s a = some s') :
    (s.table a.actor).life = .alive ∧ Eff s a s' := by
  rcases step_cases hs with ⟨i, rfl, hstate, rfl⟩ | ⟨hstate, hacts⟩
  · exact ⟨life_of_state hstate, eff_resume hstate⟩
  · have halive : (s.table a.actor).life = .alive := life_of_state hstate
    exact ⟨halive, eff_acts halive hacts⟩

end Xv6FsServer.Ipc
