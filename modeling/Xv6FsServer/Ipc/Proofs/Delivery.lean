/-
Where a message ends up: what a sender asleep on a full mailbox can rely
on.

`Targets` is what `ipc_send_msg` would need when it wakes: the slot it
sleeps on still belongs to the process it was looking for, alive and not
killed. The source checks this before the loop and inside it, but a
sender that wakes to an EMPTY mailbox leaves the loop without looking
again, so an `exit` or a `kill` of the target breaks it
(`stored_for_stranger` is such a run). Those are the only steps that do:
`delivered_alive` proves the rest of the table's life harmless.
-/
import Xv6FsServer.Ipc.Proofs.Lifetime

namespace Xv6FsServer.Ipc

open Lib Function

variable {s s' : Kernel} {a : Act}
variable {t : Nat} {pid : Int} {m : IpcMsg} {k : SendFor}

-- ==== sleeping senders

/-- The process is in `ipc_send_msg`'s loop on slot `t`. -/
def Pc.waitsOn (pc : Pc) (t : Nat) : Bool :=
  match pc with
  | .sendLoop _ slot _ _ => slot == t
  | _ => false

/-- Some process is in `ipc_send_msg`'s loop on slot `t`. -/
def Kernel.awaited (s : Kernel) (t : Nat) : Bool :=
  (List.range nproc).any fun i => (s.procs i).pc.waitsOn t

/-- Nobody exits or is killed while a sender waits for its mailbox. -/
def Undisturbed (s : Kernel) : Act → Prop
  | .exitFinal i | .fault i => s.awaited i = false
  | .kill _ pid =>
    match s.findPid pid with
    | some t => s.awaited t = false
    | none => True
  | _ => True

instance (s : Kernel) : ∀ a, Decidable (Undisturbed s a)
  | .exitFinal i | .fault i => inferInstanceAs (Decidable (s.awaited i = false))
  | .kill i pid =>
    match h : s.findPid pid with
    | some t =>
      decidable_of_iff (s.awaited t = false) (by simp only [Undisturbed, h])
    | none => isTrue (by simp only [Undisturbed, h])
  | .sched _ | .yield _ | .enter _ | .sysret _ | .send _ _ _ | .recv _
  | .call _ _ | .exit _ | .wait _ | .fork _ | .forkReset _ | .forkFail _
  | .forkDone _ | .register _ => inferInstanceAs (Decidable True)

theorem Wf.not_waiting (h : Wf s) (hno : s.awaited t = false) (i : Nat) (pid : Int)
    (m : IpcMsg) (k : SendFor) :
    (s.table i).pc ≠ .sendLoop pid t m k := by
  intro hpc
  have hlt : i < nproc :=
    h.lt_of_life (h.alive_of_pc (by rw [hpc]; simp) (by rw [hpc]; simp))
  have hyes : s.awaited t = true := by
    refine List.any_eq_true.mpr ⟨i, List.mem_range.mpr hlt, ?_⟩
    have hpc' : (s.procs i).pc = .sendLoop pid t m k := hpc
    rw [hpc']
    exact beq_self_eq_true t
  rw [hno] at hyes
  cases hyes

/-- Every waiting sender's target is the process it was addressed to, and
alive. -/
def Aimed (s : Kernel) : Prop :=
  ∀ i pid t m k, (s.table i).pc = .sendLoop pid t m k →
    ((s.table t).pid : Int) = pid ∧ (s.table t).life = .alive

/-- No waiting sender's target has been killed. -/
def Spared (s : Kernel) : Prop :=
  ∀ i pid t m k, (s.table i).pc = .sendLoop pid t m k →
    (s.table t).killed = false

theorem findPid_pid (h : s.findPid pid = some t) : ((s.table t).pid : Int) = pid := by
  have htest := scan_some h
  rw [decide_eq_true_eq] at htest
  exact htest

/-- A sender about to store or to sleep has the right target. -/
theorem Aimed.of_sending (h : Aimed s) {i : Nat} (hs : Sending s (s.table i) pid t m k) :
    ((s.table t).pid : Int) = pid ∧ (s.table t).life = .alive := by
  cases hs with
  | found msg hpc hm hfind hlive => exact ⟨findPid_pid hfind, hlive⟩
  | waited hpc => exact h i pid t m k hpc

theorem Spared.of_sending (h : Spared s) {i : Nat} (hs : Sending s (s.table i) pid t m k) :
    (s.table t).killed = false := by
  cases hs with
  | found msg hpc hm hfind hlive hkilled => exact hkilled
  | waited hpc => exact h i pid t m k hpc

/-- A move enters the loop only through `ipc_send_msg`. -/
theorem Move.sendLoop {p : Core} {pc : Pc} {r : Int} (h : Move s p a pc r)
    (hpc : pc = .sendLoop pid t m k) :
    p.pc = .sendLoop pid t m k ∨ Sending s p pid t m k := by
  cases h with
  | sched | yield => exact Or.inl hpc
  | sendWait _ pid' t' m' k' hs =>
    cases hpc
    exact Or.inr hs
  | sendFail _ k' => cases k' <;> cases hpc
  | _ => cases hpc

/-- What is waited for after a step was waited for before it, or is just
being sent: then the step changes nothing else. -/
theorem sendLoop_of_eff (hw : Wf s) (halive : (s.table a.actor).life = .alive)
    (heff : Eff s a s') {j : Nat} (hj : (s'.table j).pc = .sendLoop pid t m k) :
    (s.table j).pc = .sendLoop pid t m k
      ∨ Sending s (s.table j) pid t m k
        ∧ ∃ pc r, s'.table = update s.table j ((s.table j).goto pc r) := by
  have hslot := becomes_of_eff hw heff j (Or.inl halive)
  generalize s'.table j = q at hslot hj
  cases hslot with
  | moved _ pc r hmove htable =>
    exact (hmove.sendLoop hj).imp_right fun h => ⟨h, pc, r, htable⟩
  | sent _ _ _ _ k' | sentSelf _ _ _ k' => cases k' <;> cases hj
  | took _ k' =>
    obtain ⟨b, hb⟩ := Core.got_pc (s.table j).drain (s.table j).mailbox k'
    cases hb.symm.trans hj
  | born | back | forking | cleared | suicide | registered => cases hj
  | _ => exact Or.inl hj

/-- A live process keeps its id, and stays alive but for its own
`exit`. -/
theorem alive_of_eff (hw : Wf s) (heff : Eff s a s') (ht : (s.table t).life = .alive) :
    (s'.table t).pid = (s.table t).pid
      ∧ ((s'.table t).life = .alive ∨ a = .exitFinal t) := by
  have hslot := becomes_of_eff hw heff t (Or.inr ht)
  generalize s'.table t = q at hslot ⊢
  cases hslot with
  | reaped _ hlife | alloc _ hlife => simp [hlife] at ht
  | reset _ hpc | unalloc _ hpc => simp [hw.fork_slot _ t _ hpc] at ht
  | took =>
    rw [Core.got_pid, Core.got_life]
    exact ⟨rfl, Or.inl ht⟩
  | exited _ ha => exact ⟨rfl, Or.inr ha⟩
  | born => exact ⟨rfl, Or.inl rfl⟩
  | _ => exact ⟨rfl, Or.inl ht⟩

/-- A process is killed by `kill` or by its own fault only. -/
theorem killed_of_eff (hw : Wf s) (halive : (s.table a.actor).life = .alive)
    (heff : Eff s a s') (hk : (s.table t).killed = false) :
    (s'.table t).killed = false ∨ a = .fault t
      ∨ ∃ pid, a = .kill a.actor pid ∧ s.findPid pid = some t := by
  have hslot := becomes_of_eff hw heff t (Or.inl halive)
  generalize s'.table t = q at hslot ⊢
  cases hslot with
  | killed _ pid ha hfind | suicide _ pid _ ha _ hfind =>
    exact Or.inr (Or.inr ⟨pid, ha, hfind⟩)
  | fault _ ha => exact Or.inr (Or.inl ha)
  | took =>
    rw [Core.got_killed]
    exact Or.inl hk
  | reaped => exact Or.inl rfl
  | _ => exact Or.inl hk

/-- Waiting senders stay aimed while nobody they wait for exits. -/
theorem aimed_step (hw : Wf s) (h : Aimed s)
    (hok : ∀ i, a = .exitFinal i → s.awaited i = false)
    (halive : (s.table a.actor).life = .alive) (heff : Eff s a s') : Aimed s' := by
  intro j pid t m k hj
  rcases sendLoop_of_eff hw halive heff hj with hold | ⟨hsend, pc, r, htable⟩
  · obtain ⟨hto, hlife⟩ := h j pid t m k hold
    obtain ⟨hpid, hlife | hexit⟩ := alive_of_eff hw heff hlife
    · exact ⟨hpid ▸ hto, hlife⟩
    · exact absurd hold (hw.not_waiting (hok t hexit) j pid m k)
  · rw [htable, update_proj Core.pid (by rfl), update_proj Core.life (by rfl)]
    exact h.of_sending hsend

/-- Their targets stay unharmed while none of them is killed. -/
theorem spared_step (hw : Wf s) (h : Spared s) (hok : Undisturbed s a)
    (halive : (s.table a.actor).life = .alive) (heff : Eff s a s') : Spared s' := by
  intro j pid t m k hj
  rcases sendLoop_of_eff hw halive heff hj with hold | ⟨hsend, pc, r, htable⟩
  · rcases killed_of_eff hw halive heff (h j pid t m k hold) with hk | hkill
    · exact hk
    have hno : s.awaited t = false := by
      rcases hkill with rfl | ⟨pid', ha, hfind⟩
      · exact hok
      · rw [ha] at hok
        simp only [Undisturbed, hfind] at hok
        exact hok
    exact absurd hold (hw.not_waiting hno j pid m k)
  · rw [htable, update_proj Core.killed (by rfl)]
    exact h.of_sending hsend

-- ==== stamping

/-- A waiting message carries its sender's id. -/
def Stamped (s : Kernel) : Prop :=
  ∀ i pid t m k, (s.table i).pc = .sendLoop pid t m k →
    m.senderPid = (s.table i).pid

theorem Stamped.of_sending (h : Stamped s) {i : Nat}
    (hs : Sending s (s.table i) pid t m k) :
    m.senderPid = (s.table i).pid := by
  cases hs with
  | found msg hpc hm => rw [hm, IpcMsg.from_senderPid]
  | waited hpc => exact h i pid t m k hpc

theorem stamped_step (hw : Wf s) (h : Stamped s)
    (halive : (s.table a.actor).life = .alive) (heff : Eff s a s') :
    Stamped s' := by
  intro j pid t m k hj
  have hold : m.senderPid = (s.table j).pid ∧ (s.table j).life = .alive := by
    rcases sendLoop_of_eff hw halive heff hj with h1 | ⟨h1, -⟩
    · exact ⟨h j pid t m k h1,
        hw.alive_of_pc (by rw [h1]; simp) (by rw [h1]; simp)⟩
    refine ⟨h.of_sending h1, ?_⟩
    cases h1 with
    | found _ hpc | waited hpc =>
      exact hw.alive_of_pc (by rw [hpc]; simp) (by rw [hpc]; simp)
  rw [(alive_of_eff hw heff hold.2).1]
  exact hold.1

-- ==== the theorem

/-- The message was stored for the process it was addressed to, alive. -/
def Stored.Delivered (d : Stored) : Prop :=
  d.addressed = d.occupant ∧ d.state ≠ .unused ∧ d.state ≠ .embryo
    ∧ d.state ≠ .zombie ∧ d.killed = false

theorem Stored.Records.delivered {d : Stored} {p : Core} (h : d.Records p pid m)
    (hpid : (p.pid : Int) = pid) (hlife : p.life = .alive) (hk : p.killed = false) :
    d.Delivered := by
  have hl : d.state.life = .alive := h.life.trans hlife
  refine ⟨?_, ?_, ?_, ?_, h.killed.trans hk⟩
  · rw [h.addressed, h.occupant, hpid]
  · intro e
    rw [e] at hl
    cases hl
  · intro e
    rw [e] at hl
    cases hl
  · intro e
    rw [e] at hl
    cases hl

/-- Only a store adds to the record. -/
theorem stored_of_eff (heff : Eff s a s') :
    s'.stored = s.stored
      ∨ ∃ pid t m k d, Sending s (s.table a.actor) pid t m k
        ∧ d.Records (s.table t) pid m ∧ s'.stored = s.stored ++ [d] := by
  cases heff with
  | quiet _ _ _ _ hframe | reap _ _ _ _ _ hframe | reset _ _ _ hframe
  | unalloc _ _ _ _ hframe | born _ _ _ _ _ hframe | kill _ _ _ _ _ _ _ hframe
  | fault _ _ hframe => exact Or.inl hframe.stored
  | store pid t m k r hs hempty htable hnext hfs d hd hstored =>
    exact Or.inr ⟨pid, t, m, k, d, hs, hd, hstored⟩
  | took _ _ _ _ _ _ hstored | zombie _ _ _ _ _ hstored
  | alloc _ _ _ _ _ _ _ _ hstored | register _ _ _ _ _ hstored => exact Or.inl hstored

structure DeliveryInv (s : Kernel) : Prop where
  wf : Wf s
  aimed : Aimed s
  spared : Spared s
  delivered : ∀ d ∈ s.stored, d.Delivered

theorem delivery_step (h : DeliveryInv s) (hok : Undisturbed s a)
    (hs : step s a = some s') : DeliveryInv s' := by
  obtain ⟨halive, heff⟩ := eff_of_step hs
  refine ⟨wf_step h.wf hs, aimed_step h.wf h.aimed ?_ halive heff,
    spared_step h.wf h.spared hok halive heff, ?_⟩
  · rintro i rfl
    exact hok
  · intro d hd
    rcases stored_of_eff heff with he | ⟨pid, t, m, k, d', hsend, hrec, he⟩
    · rw [he] at hd
      exact h.delivered d hd
    rw [he] at hd
    rcases List.mem_append.mp hd with hd | hd
    · exact h.delivered d hd
    rw [List.mem_singleton] at hd
    subst hd
    obtain ⟨hpid, hlife⟩ := h.aimed.of_sending hsend
    exact hrec.delivered hpid hlife (h.spared.of_sending hsend)

theorem pc_boot (i : Nat) : (boot.table i).pc = .user := by
  unfold boot Kernel.table
  dsimp only
  by_cases hi : i = 0
  · subst hi
    rfl
  · rw [update_of_ne hi]
    rfl

/-- What a step stores carries the id of the process that took the step. -/
theorem stored_stamped {acts : List Act} (hr : runs step boot acts = some s)
    (hs : step s a = some s') {d : Stored} (hd : s'.stored = s.stored ++ [d]) :
    d.msg.senderPid = (s.procs a.actor).pid := by
  have hinv : Wf s ∧ Stamped s := by
    refine runs_invariant (I := fun k => Wf k ∧ Stamped k)
      (fun _ _ _ h hst => ?_) ?_ hr
    · obtain ⟨halive, heff⟩ := eff_of_step hst
      exact ⟨wf_step h.1 hst, stamped_step h.1 h.2 halive heff⟩
    · refine ⟨wf_boot, fun i pid t m k hi => ?_⟩
      cases (pc_boot i).symm.trans hi
  obtain ⟨-, heff⟩ := eff_of_step hs
  rcases stored_of_eff heff with he | ⟨pid, t, m, k, d', hsend, hrec, he⟩
  · rw [he] at hd
    have := congrArg List.length hd
    rw [List.length_append, List.length_singleton] at this
    omega
  · have hdd : d' = d := by
      have h1 := he.symm.trans hd
      rw [List.append_cancel_left_eq] at h1
      exact List.singleton_inj.mp h1
    rw [← hdd, hrec.msg]
    exact hinv.2.of_sending hsend

theorem delivery_boot : DeliveryInv boot := by
  refine ⟨wf_boot, ?_, ?_, ?_⟩
  · intro i pid t m k hi
    cases (pc_boot i).symm.trans hi
  · intro i pid t m k hi
    cases (pc_boot i).symm.trans hi
  · intro d hd
    cases hd

-- ==== what the sender is told

def Pc.sends : Pc → Bool
  | .toSend _ _ _ | .sendLoop _ _ _ _ => true
  | _ => false

/-- The process is inside `ipc_send_msg(pid, m)`, called by `k`. -/
def Proc.Sends (p : Proc) (pid : Int) (m : IpcMsg) (k : SendFor) : Prop :=
  (∃ msg, p.pc = .toSend pid msg k ∧ m = msg.from p.pid) ∨ ∃ t, p.pc = .sendLoop pid t m k

/-- What a step of process `i` inside `ipc_send_msg(pid, m)` comes to. It stays
inside; or it returns 0, and the message is in the mailbox of the slot `t`, stored
as `d`; or it returns -1, and nothing has been stored. `exit` does not look at the
result, and `fs_ipc_call` goes on to receive on 0. -/
inductive SendStep (s : Kernel) (i : Nat) (pid : Int) (m : IpcMsg) (k : SendFor)
    (s' : Kernel) : Prop
  | inside (h : (s'.procs i).Sends pid m k) (hstored : s'.stored = s.stored)
  | ok (hpc : (s'.procs i).pc = k.sent) (hret : k = .send → (s'.procs i).retval = 0)
      (t : Nat) (d : Stored) (hstored : s'.stored = s.stored ++ [d])
      (hto : d.addressed = pid) (hmsg : d.msg = m)
      (hslot : (s'.procs t).pid = d.occupant ∧ (s'.procs t).mailbox = m
        ∧ (s'.procs t).hasMsg = true)
  | failed (hpc : (s'.procs i).pc = k.failed)
      (hret : k ≠ .exit → (s'.procs i).retval = -1) (hstored : s'.stored = s.stored)

theorem Proc.Sends.congr {p q : Proc} (h : p.Sends pid m k) (hpc : q.pc = p.pc)
    (hpid : q.pid = p.pid) : q.Sends pid m k := by
  unfold Proc.Sends
  rw [hpc, hpid]
  exact h

theorem Proc.Sends.sending {p : Proc} (h : p.Sends pid m k) {pid' : Int} {m' : IpcMsg}
    {k' : SendFor} (hs : Sending s p.core pid' t m' k') : pid' = pid ∧ m' = m ∧ k' = k := by
  rcases h with ⟨msg, hpc, rfl⟩ | ⟨u, hpc⟩
  · cases hs with
    | found msg' hpc' hm =>
      cases hpc.symm.trans hpc'
      exact ⟨rfl, hm, rfl⟩
    | waited hpc' => cases hpc.symm.trans hpc'
  · cases hs with
    | found _ hpc' => cases hpc.symm.trans hpc'
    | waited hpc' =>
      cases hpc.symm.trans hpc'
      exact ⟨rfl, rfl, rfl⟩

theorem sendStep_of_eff (heff : Eff s a s') (h : (s.procs a.actor).Sends pid m k) :
    SendStep s a.actor pid m k s' := by
  -- the place of the process rules out every other step
  have hno : ∀ {pc : Pc} {P : Prop}, (s.table a.actor).pc = pc → pc.sends = false → P := by
    intro pc P hpc hf
    rcases h with ⟨_, h, -⟩ | ⟨_, h⟩
    all_goals
      cases hpc.symm.trans h
      cases hf
  have hasks : ∀ {P : Prop}, (s.table a.actor).Asks a → P := fun h => hno h.1 rfl
  cases heff with
  | quiet pc r hmove htable hframe =>
    have hat : s'.table a.actor = (s.table a.actor).goto pc r := by
      rw [htable, update_self]
    have hnow : (s'.procs a.actor).pc = pc := congrArg Core.pc hat
    cases hmove with
    | sched | yield =>
      exact .inside (h.congr hnow (congrArg Core.pid hat)) hframe.stored
    | sendFail _ k' _ hfrom _ hr =>
      have hk : k' = k := by
        rcases h with ⟨_, h, -⟩ | ⟨_, h⟩
        all_goals
          rcases hfrom with ⟨_, _, hfrom⟩ | ⟨_, _, _, hfrom⟩
          all_goals cases hfrom.symm.trans h
          rfl
      subst hk
      exact .failed hnow (fun hne => (congrArg Core.retval hat).trans (hr hne))
        hframe.stored
    | sendWait _ pid' t m' k' hs =>
      obtain ⟨rfl, rfl, rfl⟩ := h.sending hs
      exact .inside (.inr ⟨t, hnow⟩) hframe.stored
    | send _ _ _ hpc | recv _ hpc | sysret _ _ hpc => exact hno hpc rfl
    | call _ _ _ hpc | noServer _ _ hpc | recvFail _ _ hpc | recvWait _ _ hpc =>
      exact hpc.elim (hno · rfl) (hno · rfl)
    | exit _ hpc | exitQuietly _ hpc => exact hpc.elim hasks fun ⟨_, hpc, _⟩ => hno hpc rfl
    | waitSleep _ hpc | back _ _ hpc => exact hpc.elim hasks (hno · rfl)
  | store pid' t m' k' r hs hempty htable _ _ d hd hstored _ hr =>
    obtain ⟨rfl, rfl, rfl⟩ := h.sending hs
    have hat : s'.table a.actor = (update s.table t ((s.table t).fill m') a.actor).goto
        k'.sent r := by
      rw [htable, Table.set₂_self]
    have hslot : ∀ {β : Type} (f : Core → β), (∀ p : Core, f (p.goto k'.sent r) = f p) →
        f (s'.table t) = f ((s.table t).fill m') := by
      intro β f hf
      rw [htable]
      exact (update_proj f (hf _) t).trans (by rw [update_self])
    refine .ok (congrArg Core.pc hat) (fun hk => (congrArg Core.retval hat).trans (hr hk))
      t d hstored hd.addressed hd.msg ⟨?_, hslot Core.mailbox fun _ => rfl,
        hslot Core.hasMsg fun _ => rfl⟩
    rw [hd.occupant]
    exact hslot Core.pid fun _ => rfl
  | fault _ htable hframe =>
    refine .inside (h.congr ?_ ?_) hframe.stored
    · exact (congrFun htable _ ▸ update_proj Core.pc (by rfl) a.actor :)
    · exact (congrFun htable _ ▸ update_proj Core.pid (by rfl) a.actor :)
  | took _ hpc => exact hpc.elim (hno · rfl) (hno · rfl)
  | reap _ _ hpc => exact hpc.elim hasks (hno · rfl)
  | zombie _ hpc | alloc _ _ _ hpc | reset _ hpc | unalloc _ _ hpc | born _ _ _ hpc
  | kill _ _ _ _ hpc | register _ hpc => exact hno hpc rfl

/-- In every run in which nobody exits or is killed while a sender waits for its
mailbox: whenever `ipc_send_msg(pid, m)` returns 0 it has stored `m` for the process
with that pid, alive and not killed, and otherwise it returns -1. -/
theorem delivered_alive (acts : List Act) (a : Act) (s s' : Kernel)
    (hok : Along step Undisturbed boot (acts ++ [a]))
    (hr : runs step boot acts = some s) (hs : step s a = some s') :
    (∀ d ∈ s'.stored, d.Delivered)
      ∧ ∀ pid m k, (s.procs a.actor).Sends pid m k → SendStep s a.actor pid m k s' := by
  obtain ⟨hok, hlast⟩ := hok.append hr
  have hinv := delivery_step (Along.invariant
    (fun _ _ _ h ha hst => delivery_step h ha hst) delivery_boot hok hr)
    (hlast.cons hs).1 hs
  exact ⟨hinv.delivered, fun pid m k => sendStep_of_eff (eff_of_step hs).2⟩

/-- Init forks two children and sends to the first; the second sends to
the first too, and sleeps on the full mailbox. -/
def secondSleeps : List Act :=
  [.sched 0, .fork 0, .forkReset 0, .forkDone 0, .sysret 0, .fork 0,
    .forkReset 0, .forkDone 0, .sysret 0,
    .send 0 2 { IpcMsg.zero with type := 1 }, .enter 0, .sysret 0, .sched 2,
    .send 2 2 { IpcMsg.zero with type := 1 }, .enter 2, .sched 1]

/-- The first child receives, and the sleeper's message follows: its `send`
returns 0. -/
theorem delivered_alive_second :
    ∃ s s', runs step boot (secondSleeps ++ [.recv 1, .enter 1]) = some s
      ∧ step s (.sched 2) = some s' ∧ s'.stored.length = 2
      ∧ (s'.procs 2).retval = 0 ∧ (∀ d ∈ s'.stored, d.Delivered)
      ∧ SendStep s 2 2 (IpcMsg.from { IpcMsg.zero with type := 1 } 3) .send s' := by
  have heval : ((runs step boot (secondSleeps ++ [.recv 1, .enter 1])).bind fun s =>
      (step s (.sched 2)).map fun s' => (s'.stored.length, (s'.procs 2).retval))
      = some (2, 0) := by decide
  obtain ⟨s, hs, hrest⟩ := Option.bind_eq_some_iff.mp heval
  obtain ⟨s', hs', hlen⟩ := Option.map_eq_some_iff.mp hrest
  obtain ⟨hall, hsend⟩ := delivered_alive _ (.sched 2) s s' (by decide) hs hs'
  have hsends : (runs step boot (secondSleeps ++ [.recv 1, .enter 1])).map
      (fun s => (s.procs 2).pc) = some (.sendLoop 2 1
        (IpcMsg.from { IpcMsg.zero with type := 1 } 3) .send) := by rfl
  rw [Prod.mk.injEq] at hlen
  rw [hs] at hsends
  exact ⟨s, s', hs, hs', hlen.1, hlen.2, hall,
    hsend _ _ _ (.inr ⟨1, Option.some.inj hsends⟩)⟩

/-- The first child exits instead, init reaps it and forks again into the
same slot; then the sleeper wakes, stores its message for pid 2 into the
mailbox of pid 4, and returns 0. -/
theorem stored_for_stranger :
    (runs step boot (secondSleeps ++ [.exit 1, .exitFinal 1, .wait 0, .sysret 0,
        .fork 0, .forkReset 0, .forkDone 0, .sched 2])).map
      (fun s => (s.stored.map fun d => (d.addressed, d.occupant),
        (s.procs 2).retval, (s.procs 1).pid, (s.procs 1).hasMsg))
      = some ([(2, 2), (2, 4)], 0, 4, true) := by
  decide

end Xv6FsServer.Ipc
