/-
What a new process finds in its slot.

The slot's mailbox is cleared by `exit`, by `wait` and, before the slot is
used again, by `allocproc`; its `killed` flag by `wait` only. Between a
lifetime and the next two kinds of calls can still reach the slot. `kill`
looks at nothing but the pid: an unused slot has pid 0, and the slot of a
`fork` in progress has its new pid already. And a sender that slept on the
mailbox of the last occupant stores its message when it runs again, into
whatever the slot has become.

`Careful` excludes both, and then a process that `fork` has just made
runnable starts clean (`recycled_slot_clean`).
-/
import Xv6FsServer.Ipc.Proofs.Roles

namespace Xv6FsServer.Ipc

open Lib Function

variable {s s' : Kernel} {a : Act}
variable {i t : Nat} {pid : Int}

-- ==== mailboxes

/-- What a step does to the mailbox of slot `t`. -/
inductive Mail (s : Kernel) (a : Act) (s' : Kernel) (t : Nat) : Prop
  | kept (hmailbox : (s'.table t).mailbox = (s.table t).mailbox)
      (hhas : (s'.table t).hasMsg = (s.table t).hasMsg)
  | cleared (hmailbox : (s'.table t).mailbox = .zero)
      (hhas : (s'.table t).hasMsg = false)
  | filled (pid : Int) (m : IpcMsg) (k : SendFor)
      (hsend : Sending s (s.table a.actor) pid t m k)
      (hempty : (s.table t).hasMsg = false)
      (hmailbox : (s'.table t).mailbox = m) (hhas : (s'.table t).hasMsg = true)
      (hpc : (s'.table a.actor).pc = k.sent)

theorem mailbox_of_eff (hw : Wf s) (halive : (s.table a.actor).life = .alive)
    (heff : Eff s a s') (t : Nat) : Mail s a s' t := by
  have hslot := becomes_of_eff hw heff t (Or.inl halive)
  generalize hq : s'.table t = q at hslot
  cases hslot with
  | filled _ pid m k hs hempty hsent =>
    exact .filled pid m k hs hempty (by rw [hq]; rfl) (by rw [hq]; rfl) hsent
  | sentSelf hi pid m k r hs hempty =>
    refine .filled pid m k ?_ hempty (by rw [hq]; rfl) (by rw [hq]; rfl) ?_
    · rw [← hi]
      exact hs
    · rw [← hi, hq]
      rfl
  | took =>
    exact .cleared (by rw [hq, Core.got_mailbox]; rfl) (by rw [hq, Core.got_hasMsg]; rfl)
  | exited | reaped | reset => exact .cleared (by rw [hq]; rfl) (by rw [hq]; rfl)
  | _ => exact .kept (by simp [hq]) (by simp [hq])

-- ==== the condition

/-- The process is in `fork` and has cleared the mailbox of slot `t`. -/
def Pc.hasCleared (pc : Pc) (t : Nat) : Bool :=
  match pc with
  | .forked slot true => slot == t
  | _ => false

/-- Slot `t` is that of a `fork` in progress, its mailbox cleared. -/
def Kernel.cleared (s : Kernel) (t : Nat) : Bool :=
  (List.range nproc).any fun i => (s.procs i).pc.hasCleared t

/-- Nobody is killed before it runs, and no sender that wakes up finds the
slot it waits for cleared for a new process. -/
def Careful (s : Kernel) : Act → Prop
  | .kill _ pid =>
    match s.findPid pid with
    | some t => (s.procs t).state ≠ .unused ∧ (s.procs t).state ≠ .embryo
    | none => True
  | .sched i =>
    match (s.procs i).pc with
    | .sendLoop _ t _ _ => s.cleared t = false
    | _ => True
  | _ => True

instance (s : Kernel) : ∀ a, Decidable (Careful s a)
  | .kill _ pid =>
    show Decidable (match s.findPid pid with
      | some t => (s.procs t).state ≠ .unused ∧ (s.procs t).state ≠ .embryo
      | none => True) from
    match s.findPid pid with
    | some _ => inferInstanceAs (Decidable (_ ∧ _))
    | none => isTrue trivial
  | .sched i =>
    show Decidable (match (s.procs i).pc with
      | .sendLoop _ t _ _ => s.cleared t = false
      | _ => True) from
    match (s.procs i).pc with
    | .sendLoop _ t _ _ => inferInstanceAs (Decidable (s.cleared t = false))
    | .user | .ret _ | .toSend _ _ _ | .toRecv _ | .recvLoop _ | .waitLoop
    | .forked _ _ | .exiting => isTrue trivial
  | .yield _ | .enter _ | .sysret _ | .send _ _ _ | .recv _ | .call _ _ | .exit _
  | .exitFinal _ | .wait _ | .fork _ | .forkReset _ | .forkFail _ | .forkDone _
  | .fault _ | .register _ => isTrue trivial

/-- The slot is between two lifetimes. -/
def Core.Unborn (p : Core) : Prop := p.life = .unused ∨ p.life = .embryo

theorem Core.Unborn.not_alive {p : Core} (h : p.Unborn) (ha : p.life = .alive) :
    False := by
  rcases h with h | h
  · cases h.symm.trans ha
  · cases h.symm.trans ha

theorem Careful.kill (h : Careful s (.kill i pid))
    (hfind : s.findPid pid = some t) : ¬ (s.table t).Unborn := by
  unfold Careful at h
  dsimp only at h
  rw [hfind] at h
  obtain ⟨h1, h2⟩ := h
  intro hunborn
  unfold Core.Unborn Kernel.table Proc.core at hunborn
  cases hst : (s.procs t).state with
  | unused => exact h1 hst
  | embryo => exact h2 hst
  | sleeping | runnable | running | zombie =>
    rw [hst] at hunborn
    rcases hunborn with hc | hc
    · cases hc
    · cases hc

theorem Careful.sched {m : IpcMsg} {k : SendFor}
    (h : Careful s (.sched i)) (hpc : (s.table i).pc = .sendLoop pid t m k) :
    s.cleared t = false := by
  unfold Careful at h
  dsimp only at h
  have hpc : (s.procs i).pc = .sendLoop pid t m k := hpc
  rw [hpc] at h
  exact h

theorem Wf.cleared (h : Wf s) (hpc : (s.table i).pc = .forked t true) :
    s.cleared t = true := by
  have hlt : i < nproc :=
    h.lt_of_life (h.alive_of_pc (by rw [hpc]; simp) (by rw [hpc]; simp))
  refine List.any_eq_true.mpr ⟨i, List.mem_range.mpr hlt, ?_⟩
  have hpc : (s.procs i).pc = .forked t true := hpc
  rw [hpc]
  exact beq_self_eq_true t

/-- The clearing is the only way into the place behind it. -/
theorem forked_of_eff (hw : Wf s) (halive : (s.table a.actor).life = .alive)
    (heff : Eff s a s') (hpc : (s'.table i).pc = .forked t true) :
    (s.table i).pc = .forked t true
      ∨ (i = a.actor ∧ (s.table i).pc = .forked t false
        ∧ (s'.table t).hasMsg = false ∧ (s'.table t).mailbox = .zero) := by
  have hslot := becomes_of_eff hw heff i (Or.inl halive)
  generalize s'.table i = q at hslot hpc
  cases hslot with
  | moved _ pc r hmove =>
    rcases hmove.not_forked with h | h
    · exact Or.inl (h ▸ hpc)
    · exact absurd hpc (h t true)
  | sent _ _ _ _ k | sentSelf _ _ _ k => exact absurd hpc (k.sent_not_forked t true)
  | took _ k =>
    obtain ⟨b, hb⟩ := Core.got_pc (s.table i).drain (s.table i).mailbox k
    cases hb.symm.trans hpc
  | cleared hi u hold hdrain =>
    cases hpc
    exact Or.inr ⟨hi, hold, by rw [hdrain]; rfl, by rw [hdrain]; rfl⟩
  | born | back | forking | suicide | registered => cases hpc
  | _ => exact Or.inl hpc

-- ==== the invariant

/-- Between two lifetimes a slot has no `killed` flag, and after the
clearing no message. -/
structure FreshInv (s : Kernel) : Prop where
  wf : Wf s
  spared : ∀ t, (s.table t).Unborn → (s.table t).killed = false
  clean : ∀ i t, (s.table i).pc = .forked t true →
    (s.table t).hasMsg = false ∧ (s.table t).mailbox = .zero

theorem spared_of_eff (h : FreshInv s) (hok : Careful s a)
    (halive : (s.table a.actor).life = .alive) (heff : Eff s a s')
    (hunborn : (s'.table t).Unborn) : (s'.table t).killed = false := by
  have hactor : t = a.actor → (s.table t).life = .alive := fun hi => hi ▸ halive
  have hslot := becomes_of_eff h.wf heff t (Or.inl halive)
  generalize s'.table t = q at hslot hunborn ⊢
  cases hslot with
  | same | filled | reset => exact h.spared t hunborn
  | killed _ pid ha hfind =>
    rw [ha] at hok
    exact (hok.kill hfind hunborn).elim
  | reaped => rfl
  | alloc _ hlife => exact h.spared t (Or.inl hlife)
  | unalloc _ hpc => exact h.spared t (Or.inr (h.wf.fork_slot _ t _ hpc))
  | born => exact (hunborn.not_alive rfl).elim
  | exited => rcases hunborn with hc | hc <;> cases hc
  | took hi =>
    exact (hunborn.not_alive (by rw [Core.got_life]; exact hactor hi)).elim
  | moved hi | sent hi | sentSelf hi | back hi | forking hi | cleared hi
  | suicide hi | fault hi | registered hi =>
    exact (hunborn.not_alive (hactor hi)).elim

theorem fresh_step (h : FreshInv s) (hok : Careful s a)
    (hs : step s a = some s') : FreshInv s' := by
  obtain ⟨halive, heff⟩ := eff_of_step hs
  refine ⟨wf_step h.wf hs, fun t => spared_of_eff h hok halive heff, ?_⟩
  intro i t hpc
  rcases forked_of_eff h.wf halive heff hpc with hold | ⟨-, -, hnew⟩
  · obtain ⟨hhas, hmail⟩ := h.clean i t hold
    cases mailbox_of_eff h.wf halive heff t with
    | kept hm hh => exact ⟨hh.trans hhas, hm.trans hmail⟩
    | cleared hm hh => exact ⟨hh, hm⟩
    | filled pid m k hsend _ _ _ hsent =>
      exfalso
      cases hsend with
      | found _ _ _ _ hlive =>
        cases (h.wf.fork_slot i t true hold).symm.trans hlive
      | waited hwait =>
        have hsched : a = .sched a.actor := by
          rcases waiter_step hs hwait with hsched | hsame
          · exact hsched
          · rw [hsent, hwait] at hsame
            cases k <;> cases hsame
        rw [hsched] at hok
        cases (hok.sched hwait).symm.trans (h.wf.cleared hold)
  · exact hnew

theorem fresh_boot : FreshInv boot := by
  refine ⟨wf_boot, fun t _ => ?_, fun i t hpc => ?_⟩
  · unfold boot Kernel.table
    dsimp only
    by_cases ht : t = 0
    · subst ht
      rfl
    · rw [update_of_ne ht]
      rfl
  · cases (pc_boot i).symm.trans hpc

-- ==== the theorem

/-- In every run in which nobody is killed before it runs, and no sleeping
sender wakes up to a slot that has been cleared for the next process, a
process that `fork` has just made runnable is not killed and has an empty
mailbox. -/
theorem recycled_slot_clean (acts : List Act) (s s' : Kernel) (i t : Nat)
    (hok : Along step Careful boot acts) (hr : runs step boot acts = some s)
    (hpc : (s.procs i).pc = .forked t true) (hs : step s (.forkDone i) = some s') :
    (s'.procs t).state = .runnable ∧ (s'.procs t).killed = false
      ∧ (s'.procs t).hasMsg = false ∧ (s'.procs t).mailbox = .zero := by
  have hinv : FreshInv s :=
    Along.invariant (fun _ _ _ h ha hst => fresh_step h ha hst) fresh_boot hok hr
  obtain ⟨hhas, hmail⟩ := hinv.clean i t hpc
  have hlife : (s.table t).life = .embryo := hinv.wf.fork_slot i t true hpc
  have hkilled := hinv.spared t (Or.inr hlife)
  obtain ⟨halive, -⟩ := eff_of_step hs
  have hne : t ≠ i := (ne_of_life halive hlife).symm
  have hact := step_running hs (by simp)
  simp only [act, hpc] at hact
  cases hact
  have hslot : ((forkDone s i t).procs t)
      = { s.procs t with parent := some i, state := .runnable, pc := .user } := by
    unfold forkDone Kernel.modify
    dsimp only
    rw [update_of_ne hne, update_self]
  rw [hslot]
  exact ⟨rfl, hkilled, hhas, hmail⟩

/-- Init's first child exits, is reaped, and its slot is used again. -/
def secondInSlot : List Act :=
  [.sched 0, .fork 0, .forkReset 0, .forkDone 0, .sysret 0, .sched 1, .exit 1,
    .exitFinal 1, .wait 0, .sysret 0, .fork 0, .forkReset 0]

theorem recycled_slot_clean_second :
    ∃ s s', runs step boot secondInSlot = some s ∧ step s (.forkDone 0) = some s'
      ∧ (s'.procs 1).state = .runnable ∧ (s'.procs 1).killed = false
      ∧ (s'.procs 1).hasMsg = false ∧ (s'.procs 1).mailbox = .zero := by
  have hpc : (runs step boot secondInSlot).map
      (fun s => ((s.procs 0).pc.hasCleared 1, (step s (.forkDone 0)).isSome))
      = some (true, true) := by decide
  obtain ⟨s, hs, heq⟩ := Option.map_eq_some_iff.mp hpc
  obtain ⟨hcl, hstep⟩ := Prod.mk.inj heq
  obtain ⟨s', hs'⟩ := Option.isSome_iff_exists.mp hstep
  have hforked : (s.procs 0).pc = .forked 1 true := by
    unfold Pc.hasCleared at hcl
    split at hcl
    next slot h =>
      rw [h, beq_iff_eq.mp hcl]
    next => cases hcl
  refine ⟨s, s', hs, hs', recycled_slot_clean secondInSlot s s' 0 1 ?_ hs hforked hs'⟩
  decide

/-- Init kills pid 0, which is the pid of every unused slot, and forks: its
child is killed before it has run. -/
theorem born_killed :
    (runs step boot [.sched 0, .kill 0 0, .sysret 0, .fork 0, .forkReset 0,
        .forkDone 0]).map
      (fun s => ((s.procs 1).state, (s.procs 1).pid, (s.procs 1).killed))
      = some (.runnable, 2, true) := by
  decide

end Xv6FsServer.Ipc
