/-
Who sends what to whom: what a step does to a slot that is not the
actor's, who can fill a mailbox, and the roles processes keep to.

`other_of_eff` and `full_of_eff` are the effects of `Effect.lean` read
from the other end. The first says what can happen to a live process
while another one runs (a message arrives, it is killed, or nothing); the
second traces a full mailbox back to the step before.

A role is a set of client pids. `PcOk` says of every place in the code
what a process that is there is up to: clients send requests to the
server and take the replies, the server sends replies, and the others
leave the clients' mailboxes alone. `Permits` is what a step has to
respect for this to stay so.
-/
import Xv6FsServer.Ipc.Proofs.Expect

namespace Xv6FsServer.Ipc

open Lib Function

variable {s s' : Kernel} {a : Act}
variable {i : Nat} {m : IpcMsg} {pid : Int} {p : Core}

-- ==== other slots

/-- A live process while another one takes a step. -/
theorem other_of_eff (hw : Wf s) (heff : Eff s a s')
    (hi : i ≠ a.actor) (halive : (s.table i).life = .alive) :
    s'.table i = s.table i
      ∨ (∃ pid m k, Sending s (s.table a.actor) pid i m k
        ∧ (s.table i).hasMsg = false ∧ s'.table i = (s.table i).fill m)
      ∨ ∃ pid, a = .kill a.actor pid ∧ s.findPid pid = some i
        ∧ s'.table i = { s.table i with killed := true } := by
  have hslot := becomes_of_eff hw heff i (Or.inr halive)
  generalize s'.table i = q at hslot ⊢
  cases hslot with
  | same => exact Or.inl rfl
  | filled _ pid m k hs hempty _ _ =>
    exact Or.inr (Or.inl ⟨pid, m, k, hs, hempty, rfl⟩)
  | killed _ pid ha hfind => exact Or.inr (Or.inr ⟨pid, ha, hfind, rfl⟩)
  | reaped _ hlife | alloc _ hlife => simp [hlife] at halive
  | reset _ hpc | unalloc _ hpc | born _ _ hpc =>
    simp [hw.fork_slot _ i _ hpc] at halive
  | _ => contradiction

-- ==== full mailboxes

/-- Only live processes have mail. -/
def DeadMail (s : Kernel) : Prop :=
  ∀ i, (s.table i).life ≠ .alive → (s.table i).hasMsg = false

/-- The step stored what is now in the mailbox of slot `i`. -/
structure StoredIn (s : Kernel) (a : Act) (s' : Kernel) (i : Nat) (pid : Int)
    (k : SendFor) : Prop where
  sending : Sending s (s.table a.actor) pid i (s'.table i).mailbox k
  empty : (s.table i).hasMsg = false
  sent : (s'.table a.actor).pc = k.sent
  taken : s'.taken = s.taken

/-- A full mailbox belongs to a live process; it was full before, with
the same message, or the actor has just stored it. -/
theorem full_of_eff (hw : Wf s) (hdead : DeadMail s) (haim : Aimed s)
    (halive : (s.table a.actor).life = .alive) (heff : Eff s a s')
    (hfull : (s'.table i).hasMsg = true) :
    (s.table i).life = .alive ∧ (s'.table i).life = .alive
      ∧ (s'.table i).pid = (s.table i).pid
      ∧ (((s.table i).hasMsg = true
          ∧ (s'.table i).mailbox = (s.table i).mailbox)
        ∨ ∃ pid k, StoredIn s a s' i pid k) := by
  have hlife : (s.table i).hasMsg = true → (s.table i).life = .alive := by
    intro h
    by_contra hne
    cases (hdead i hne).symm.trans h
  have hslot := becomes_of_eff hw heff i (Or.inl halive)
  generalize hq : s'.table i = q at hslot hfull ⊢
  cases hslot with
  | filled _ pid m k hs hempty hsent htaken =>
    have hl := (haim.of_sending hs).2
    refine ⟨hl, hl, rfl, Or.inr ⟨pid, k, ?_, hempty, hsent, htaken⟩⟩
    rw [hq]
    exact hs
  | sentSelf hi pid m k r hs hempty htaken =>
    have hl := (haim.of_sending hs).2
    refine ⟨hl, hl, rfl, Or.inr ⟨pid, k, ?_, hempty, ?_, htaken⟩⟩
    · rw [hq, ← hi]
      exact hs
    · rw [← hi, hq]
      rfl
  | took =>
    rw [Core.got_hasMsg] at hfull
    cases hfull
  | exited | reaped | reset => cases hfull
  | alloc _ h => simp [hdead i (by simp [h])] at hfull
  | unalloc _ hpc | born _ _ hpc =>
    simp [hdead i (by simp [hw.fork_slot _ i _ hpc])] at hfull
  | _ =>
    have hl := hlife hfull
    exact ⟨hl, hl, rfl, Or.inl ⟨hfull, rfl⟩⟩

theorem deadMail_step (hw : Wf s) (h : DeadMail s) (haim : Aimed s)
    (halive : (s.table a.actor).life = .alive) (heff : Eff s a s') :
    DeadMail s' := by
  intro i hne
  by_contra hfull
  rw [Bool.not_eq_false] at hfull
  exact hne (full_of_eff hw h haim halive heff hfull).2.1

/-- A client whose reply has arrived stays where it can take it, and does
nothing before it has. -/
theorem awaits_of_eff (hw : Wf s) (heff : Eff s a s')
    (h : (s.table i).Awaits m) (hfull : (s'.table i).hasMsg = true)
    (hold : (s.table i).hasMsg = true) : (s'.table i).Awaits m := by
  have halive : (s.table i).life = .alive := by
    refine hw.alive_of_pc ?_ ?_
    · exact fun h1 => pc_elim h.receives h1 rfl
    · exact fun h1 => pc_elim h.receives h1 rfl
  have hslot := becomes_of_eff hw heff i (Or.inr halive)
  generalize s'.table i = q at hslot hfull ⊢
  cases hslot with
  | same | filled | killed | fault => exact h
  | reaped _ hlife | alloc _ hlife => simp [hlife] at halive
  | reset _ hpc | unalloc _ hpc | born _ _ hpc =>
    simp [hw.fork_slot _ i _ hpc] at halive
  | moved _ pc r hmove =>
    rcases hmove.receiving h with ⟨hsame, -⟩ | ⟨hempty, -⟩
    · exact hsame ▸ h
    · cases hempty.symm.trans hold
  | took _ k => rw [Core.got_hasMsg] at hfull; cases hfull
  | sent _ _ _ _ _ _ hs | sentSelf _ _ _ _ _ hs =>
    rcases hs.pc with ⟨_, h1⟩ | h1
    · exact pc_elim h.receives h1 rfl
    · exact pc_elim h.receives h1 rfl
  | back _ _ h1 =>
    rcases h1 with h1 | h1 | ⟨_, h1⟩
    · exact pc_elim h.receives h1.1 rfl
    · exact pc_elim h.receives h1 rfl
    · exact pc_elim h.receives h1 rfl
  | exited _ _ h1 | forking _ _ _ h1 | cleared _ _ h1 | suicide _ _ _ _ h1
  | registered _ _ h1 => exact pc_elim h.receives h1 rfl

-- ==== roles

section Roles

variable (client : Nat → Bool)

/-- Nobody is a client under this pid. -/
def NotClient (pid : Int) : Prop := pid < 0 ∨ client pid.toNat = false

instance (pid : Int) : Decidable (NotClient client pid) :=
  inferInstanceAs (Decidable (_ ∨ _))

theorem NotClient.ne {client : Nat → Bool} {c : Nat}
    (h : NotClient client pid) (hc : client c = true) : pid ≠ c := by
  rintro rfl
  rcases h with h | h
  · omega
  · rw [Int.toNat_natCast, hc] at h
    cases h

/-- The pids process `p` may `send` to: the server's replies go anywhere;
nobody else writes to a client, and clients do not write to the server. -/
def MaySend (p : Nat) (pid : Int) : Prop :=
  p = serverPid
    ∨ (NotClient client pid ∧ ¬ (client p = true ∧ pid = serverPid))

instance (p : Nat) (pid : Int) : Decidable (MaySend client p pid) :=
  inferInstanceAs (Decidable (_ ∨ _))

/-- What a process with this pid is up to at this place. -/
def PcOk (p : Nat) : Pc → Prop
  | .toSend pid _ .send => MaySend client p pid
  | .toSend pid msg (.call server req) =>
    client p = true ∧ pid = serverPid ∧ server = serverPid
      ∧ req = msg.from p ∧ req.isFileCall = true
  | .toSend pid msg .exit => pid = serverPid ∧ msg = clientExitMsg
  | .sendLoop pid _ m .send => m.senderPid = p ∧ MaySend client p pid
  | .sendLoop pid _ m (.call server req) =>
    client p = true ∧ pid = serverPid ∧ server = serverPid
      ∧ m = req ∧ req.senderPid = p ∧ req.isFileCall = true
  | .sendLoop pid _ m .exit => pid = serverPid ∧ m = clientExitMsg.from p
  | .toRecv (.call server req) | .recvLoop (.call server req) =>
    client p = true ∧ server = serverPid ∧ req.senderPid = p
      ∧ req.isFileCall = true
  | _ => True

/-- What the roles ask of a step. -/
def Permits (s : Kernel) : Act → Prop
  | .send i pid _ => MaySend client (s.procs i).pid pid
  | .call i _ => client (s.procs i).pid = true
  | .register _ => False
  | .exitFinal i => s.awaited i = false
  | _ => True

/-- What one message in flight says about its sender. -/
theorem PcOk.of_sending {client : Nat → Bool} {t : Nat} {k : SendFor}
    (h : PcOk client p.pid p.pc)
    (hs : Sending s p pid t m k) :
    m.senderPid = p.pid ∧
      match k with
      | .send => MaySend client p.pid pid
      | .call server req => client p.pid = true ∧ pid = serverPid
          ∧ server = serverPid ∧ m = req ∧ req.isFileCall = true
      | .exit => pid = serverPid ∧ m.type = IpcMsgType.fsClientExit.code := by
  cases hs with
  | found msg hpc hm =>
    rw [hpc] at h
    refine ⟨by rw [hm]; rfl, ?_⟩
    cases k with
    | send => exact h
    | call server req =>
      obtain ⟨h1, h2, h3, h4, h5⟩ := h
      exact ⟨h1, h2, h3, hm.trans h4.symm, h5⟩
    | exit =>
      obtain ⟨h1, rfl⟩ := h
      exact ⟨h1, by rw [hm]; rfl⟩
  | waited hpc =>
    rw [hpc] at h
    cases k with
    | send => exact h
    | call server req =>
      obtain ⟨h1, h2, h3, rfl, h4, h5⟩ := h
      exact ⟨h4, h1, h2, h3, rfl, h5⟩
    | exit =>
      obtain ⟨h1, rfl⟩ := h
      exact ⟨rfl, h1, rfl⟩

/-- The kernel knows the server, or nobody. -/
def ServerKnown (s : Kernel) : Prop :=
  s.fsserverPid = serverPid ∨ s.fsserverPid = -1

theorem serverKnown_step {s s' : Kernel} {a : Act} (hknown : ServerKnown s)
    (hreg : ∀ i, a ≠ .register i) (heff : Eff s a s') : ServerKnown s' := by
  rcases fsserver_of_eff heff with hsame | ⟨ha, -⟩ | ⟨-, -, hnone⟩
  · unfold ServerKnown
    rw [hsame]
    exact hknown
  · exact absurd ha (hreg _)
  · exact .inr hnone

/-- The moves keep to the roles. -/
theorem PcOk.goto {client : Nat → Bool} {pc : Pc} {r : Int}
    (h : PcOk client p.pid p.pc) (hknown : ServerKnown s)
    (hmove : Move s p a pc r) (hp : p = s.table a.actor)
    (hok : Permits client s a) : PcOk client p.pid pc := by
  have hfs : ¬ s.fsserverPid < 0 → s.fsserverPid = serverPid := by
    intro hlt
    rcases hknown with hk | hk
    · exact hk
    · exact absurd (by rw [hk]; decide) hlt
  cases hmove with
  | sched | yield => exact h
  | send i pid msg hpc =>
    rw [hp]
    exact hok
  | call i req req' hpc hlt hfile =>
    refine ⟨?_, hfs hlt, hfs hlt, rfl, hfile⟩
    rw [hp]
    exact hok
  | recv | noServer | sysret | exitQuietly | waitSleep | back => trivial
  | exit _ hpc hpos => exact ⟨hfs (by omega), rfl⟩
  | sendFail _ k => cases k <;> trivial
  | sendWait _ pid t m k hs =>
    obtain ⟨h1, h2⟩ := h.of_sending hs
    cases k with
    | send => exact ⟨h1, h2⟩
    | call server req =>
      obtain ⟨h3, h4, h5, rfl, h6⟩ := h2
      exact ⟨h3, h4, h5, rfl, h1, h6⟩
    | exit =>
      refine ⟨h2.1, ?_⟩
      cases hs with
      | found msg hpc hm =>
        rw [hpc] at h
        rw [hm, h.2]
      | waited hpc =>
        rw [hpc] at h
        exact h.2
  | recvFail => trivial
  | recvWait _ k hpc =>
    cases k with
    | recv => trivial
    | call server req =>
      rcases hpc with hpc | hpc
      · rw [hpc] at h
        exact h
      · rw [hpc] at h
        exact h

/-- Every process keeps to its role. -/
theorem pcOk_step (hw : Wf s) (h : ∀ i, PcOk client (s.table i).pid (s.table i).pc)
    (hknown : ServerKnown s) (hok : Permits client s a)
    (halive : (s.table a.actor).life = .alive) (heff : Eff s a s') (i : Nat) :
    PcOk client (s'.table i).pid (s'.table i).pc := by
  have hdead : ∀ p, (s.table i).life ≠ .alive → PcOk client p (s.table i).pc := by
    intro p hne
    rcases hw.dead_pc i hne with e | e
    · rw [e]
      trivial
    · rw [e]
      trivial
  have hslot := becomes_of_eff hw heff i (Or.inl halive)
  generalize s'.table i = q at hslot ⊢
  cases hslot with
  | same | filled | killed | fault | exited => exact h i
  | reaped _ hlife | alloc _ hlife => exact hdead _ (by simp [hlife])
  | reset _ hpc | unalloc _ hpc => exact hdead _ (by simp [hw.fork_slot _ i _ hpc])
  | moved hi pc r hmove => exact (h i).goto hknown hmove (hi ▸ rfl) hok
  | sent _ _ _ _ k _ hs | sentSelf _ _ _ k _ hs =>
    obtain ⟨h1, h2⟩ := (h i).of_sending hs
    cases k with
    | send | exit => trivial
    | call server req =>
      obtain ⟨h3, h4, h5, rfl, h6⟩ := h2
      exact ⟨h3, h5, h1, h6⟩
  | took _ k =>
    obtain ⟨b, hb⟩ := Core.got_pc (s.table i).drain (s.table i).mailbox k
    rw [hb]
    trivial
  | _ => trivial

/-- The takes of `fs_ipc_call`: each is a client's. -/
def Taken.Ok (e : Taken) : Prop :=
  client e.client = true ∧ e.server = serverPid ∧ e.req.senderPid = e.client
    ∧ e.req.isFileCall = true

/-- A take of `fs_ipc_call`, by the actor. -/
structure TakenBy (s : Kernel) (a : Act) (s' : Kernel) (server : Int)
    (req : IpcMsg) : Prop where
  pc : (s.table a.actor).pc = .toRecv (.call server req)
    ∨ (s.table a.actor).pc = .recvLoop (.call server req)
  full : (s.table a.actor).hasMsg = true
  drained : (s'.table a.actor).hasMsg = false
  taken : s'.taken = s.taken ++
    [⟨(s.table a.actor).pid, server, req, (s.table a.actor).mailbox⟩]

theorem taken_of_eff (heff : Eff s a s') :
    s'.taken = s.taken ∨ ∃ server req, TakenBy s a s' server req := by
  cases heff with
  | quiet _ _ _ _ hframe | reap _ _ _ _ _ hframe | reset _ _ _ hframe
  | unalloc _ _ _ _ hframe | born _ _ _ _ _ hframe | kill _ _ _ _ _ _ _ hframe
  | fault _ _ hframe => exact Or.inl hframe.taken
  | store _ _ _ _ _ _ _ _ _ _ _ _ _ htaken | zombie _ _ _ _ _ _ htaken
  | alloc _ _ _ _ _ _ _ _ _ htaken | register _ _ _ _ _ _ htaken => exact Or.inl htaken
  | took k hpc hfull htable hnext hfs hstored htaken =>
    cases k with
    | recv => exact Or.inl (htaken.trans (List.append_nil _))
    | call server req =>
      refine Or.inr ⟨server, req, hpc, hfull, ?_, htaken⟩
      rw [htable, update_self, Core.got_hasMsg]
      rfl

theorem TakenBy.ok {server : Int} {req : IpcMsg} (h : TakenBy s a s' server req)
    (hpc : PcOk client (s.table a.actor).pid (s.table a.actor).pc) :
    Taken.Ok client
      ⟨(s.table a.actor).pid, server, req, (s.table a.actor).mailbox⟩ := by
  rcases h.pc with h1 | h1
  · rw [h1] at hpc
    exact hpc
  · rw [h1] at hpc
    exact hpc

/-- What every run of processes that keep to their roles maintains. -/
structure RolesInv (s : Kernel) : Prop where
  wf : Wf s
  aimed : Aimed s
  deadMail : DeadMail s
  known : ServerKnown s
  pcOk : ∀ i, PcOk client (s.table i).pid (s.table i).pc
  takenOk : ∀ e ∈ s.taken, Taken.Ok client e

theorem roles_step (h : RolesInv client s) (hok : Permits client s a)
    (hs : step s a = some s') : RolesInv client s' := by
  obtain ⟨halive, heff⟩ := eff_of_step hs
  refine ⟨wf_step h.wf hs, aimed_step h.wf h.aimed ?_ halive heff,
    deadMail_step h.wf h.deadMail h.aimed halive heff,
    serverKnown_step h.known ?_ heff,
    pcOk_step client h.wf h.pcOk h.known hok halive heff, ?_⟩
  · intro i hi
    rw [hi] at hok
    exact hok
  · intro i hi
    rw [hi] at hok
    exact hok
  · intro e he
    rcases taken_of_eff heff with ht | ⟨server, req, ht⟩
    · rw [ht] at he
      exact h.takenOk e he
    rw [ht.taken] at he
    rcases List.mem_append.mp he with he | he
    · exact h.takenOk e he
    · rw [List.mem_singleton] at he
      subst he
      exact ht.ok client (h.pcOk _)

end Roles

end Xv6FsServer.Ipc
