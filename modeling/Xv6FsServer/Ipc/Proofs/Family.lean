/-
Parents and children.

`Kin` says what a step does to the `parent` pointers: `fork` sets the new
child's, `exit` passes the children on to init, `wait` clears that of the
child it reaps, and nothing else touches them. With the lifetimes of
`Effect.lean` it follows that a process that lives or waits to be reaped
has a living parent (`process_tree`); init never leaves (`InitStays`), so
it can be the parent of those who lose theirs.

`Reaping` runs the kernel and writes down the pids that `wait` returns. A
reaped pid is gone from the table, and pids are given out in increasing
order, so none is returned twice.
-/
import Xv6FsServer.Ipc.Proofs.Recycling
import Xv6FsServer.Ipc.Proofs.Wakeups

namespace Xv6FsServer.Ipc

open Lib Function

variable {s s' u : Kernel} {a : Act}
variable {f : Proc → Proc} {i : Nat}

-- ==== parents

def SameParents (s s' : Kernel) : Prop :=
  ∀ j, (s'.procs j).parent = (s.procs j).parent

theorem SameParents.refl (s : Kernel) : SameParents s s := fun _ => rfl

theorem SameParents.trans (h : SameParents s s') (h' : SameParents s' u) :
    SameParents s u := fun j => (h' j).trans (h j)

theorem SameParents.modify (s : Kernel) (i : Nat)
    (hf : ∀ p, (f p).parent = p.parent) : SameParents s (s.modify i f) := by
  intro j
  by_cases hj : j = i
  · subst hj
    rw [procs_modify_self, hf]
  · rw [procs_modify_of_ne hj]

theorem SameParents.modify₂ (s : Kernel) (i t : Nat) {g : Proc → Proc}
    (hf : ∀ p, (f p).parent = p.parent) (hg : ∀ p, (g p).parent = p.parent) :
    SameParents s ((s.modify t f).modify i g) :=
  (SameParents.modify s t hf).trans (.modify _ i hg)

theorem SameParents.wakeup1 (s : Kernel) (c : Chan) : SameParents s (s.wakeup1 c) := by
  intro j
  unfold Kernel.wakeup1
  dsimp only
  split <;> rfl

theorem parents_sendDone (s : Kernel) (i : Nat) (r : Int) (k : SendFor) :
    SameParents s (sendDone s i r k) := by
  unfold sendDone
  cases k with
  | send => exact .modify s i fun _ => rfl
  | call server req =>
    dsimp only
    split
    · exact .modify s i fun _ => rfl
    · exact .modify s i fun _ => rfl
  | exit => exact .modify s i fun _ => rfl

theorem parents_store (s : Kernel) (pid : Int) (t : Nat) (m : IpcMsg) :
    SameParents s (store s pid t m) := by
  have hfill := SameParents.modify s t (f := fun p =>
    { p with mailbox := m, hasMsg := true }) fun _ => rfl
  exact hfill.trans (.wakeup1 _ (.proc t))

theorem parents_sendLoop (s : Kernel) (i : Nat) (pid : Int) (t : Nat) (m : IpcMsg)
    (k : SendFor) : SameParents s (sendLoop s i pid t m k) := by
  unfold sendLoop
  split
  · split
    · exact parents_sendDone s i (-1) k
    · exact .modify s i fun _ => rfl
  · exact (parents_store s pid t m).trans (parents_sendDone _ i 0 k)

theorem parents_ipcSendMsg (s : Kernel) (i : Nat) (pid : Int) (msg : IpcMsg)
    (k : SendFor) : SameParents s (ipcSendMsg s i pid msg k) := by
  unfold ipcSendMsg
  dsimp only
  split
  · split
    · split
      · exact parents_sendDone s i (-1) k
      · exact parents_sendLoop s i pid _ _ k
    · exact parents_sendDone s i (-1) k
  · exact parents_sendDone s i (-1) k

theorem parents_ipcRecvMsg (s : Kernel) (i : Nat) (k : RecvFor) :
    SameParents s (ipcRecvMsg s i k) := by
  have hdone : ∀ (s : Kernel) (got : Option IpcMsg),
      SameParents s (recvDone s i got k) := by
    intro s got
    unfold recvDone
    cases k with
    | recv =>
      cases got with
      | some m => exact .modify s i fun _ => rfl
      | none => exact .modify s i fun _ => rfl
    | call server req =>
      cases got with
      | some m =>
        dsimp only
        split
        · exact .modify s i (f := fun p => { p.return 0 true with buf := m })
            fun _ => rfl
        · exact .modify s i (f := fun p => p.return (-1) false) fun _ => rfl
      | none => exact .modify s i fun _ => rfl
  unfold ipcRecvMsg
  split
  · have hdrain := SameParents.modify s i (f := fun p =>
      { p with hasMsg := false, mailbox := .zero }) fun _ => rfl
    exact (hdrain.trans (.wakeup1 _ (.hasMsg i))).trans (hdone _ _)
  · split
    · exact hdone s none
    · exact .modify s i fun _ => rfl

/-- What a step does to the family. -/
inductive Kin (s : Kernel) (a : Act) (s' : Kernel) : Prop
  | same (hexit : ∀ i, a ≠ .exitFinal i) (hfork : ∀ i, a ≠ .forkDone i)
      (hparent : SameParents s s')
  | orphans (ha : a = .exitFinal a.actor)
      (hparent : ∀ j, (s'.procs j).parent
        = if (s.procs j).parent = some a.actor then some 0 else (s.procs j).parent)
  | reaped (t : Nat) (hexit : ∀ i, a ≠ .exitFinal i) (hfork : ∀ i, a ≠ .forkDone i)
      (hchild : (s.procs t).parent = some a.actor)
      (hzombie : (s.procs t).state = .zombie)
      (hparent : ∀ j, j ≠ t → (s'.procs j).parent = (s.procs j).parent)
      (hfree : (s'.procs t).pid = 0 ∧ (s'.procs t).state = .unused)
      (hret : (s'.procs a.actor).retval = (s.procs t).pid)
  | born (t : Nat) (hpc : (s.procs a.actor).pc = .forked t true)
      (ha : a = .forkDone a.actor)
      (hparent : ∀ j, (s'.procs j).parent
        = if j = t then some a.actor else (s.procs j).parent)

/-- `wait` has found the exited child `t`. -/
structure Found (s s' : Kernel) (i t : Nat) : Prop where
  ne : t ≠ i
  child : (s.procs t).parent = some i
  zombie : (s.procs t).state = .zombie
  parents : ∀ j, j ≠ t → (s'.procs j).parent = (s.procs j).parent
  free : (s'.procs t).pid = 0 ∧ (s'.procs t).state = .unused
  ret : (s'.procs i).retval = (s.procs t).pid

def Pc.isRet : Pc → Bool
  | .ret _ => true
  | _ => false

/-- `wait`, by a process that is not a zombie itself. -/
theorem wait_cases (hrun : (s.procs i).state ≠ .zombie) :
    (∃ t, Found s (wait s i) i t)
      ∨ SameParents s (wait s i) ∧ (((wait s i).procs i).pc.isRet = true →
        ¬ 0 ≤ ((wait s i).procs i).retval) := by
  unfold wait
  split
  next t hscan =>
    obtain ⟨hchild, hzombie⟩ := of_decide_eq_true (scan_some hscan)
    have hne : t ≠ i := by
      intro he
      rw [he] at hzombie
      exact hrun hzombie
    refine Or.inl ⟨t, hne, hchild, hzombie, fun j hj => ?_, ?_, ?_⟩
    · by_cases hji : j = i
      · subst hji
        rw [procs_modify_self, procs_modify_of_ne hj]
        rfl
      · rw [procs_modify_of_ne hji, procs_modify_of_ne hj]
    · rw [procs_modify_of_ne hne, procs_modify_self]
      exact ⟨rfl, rfl⟩
    · rw [procs_modify_self]
      rfl
  next =>
    split
    · refine Or.inr ⟨.modify s _ fun _ => rfl, fun _ => ?_⟩
      rw [procs_modify_self]
      exact of_decide_eq_false rfl
    · refine Or.inr ⟨.modify s _ fun _ => rfl, fun hpc => ?_⟩
      rw [procs_modify_self] at hpc
      cases hpc

theorem kin_wait {w : Kernel} (hsame : SameParents s w)
    (hstate : ∀ j, j ≠ i → w.procs j = s.procs j)
    (hrun : (w.procs i).state ≠ .zombie) (ha : a.actor = i)
    (hexit : ∀ i, a ≠ .exitFinal i) (hfork : ∀ i, a ≠ .forkDone i) :
    Kin s a (wait w i) := by
  subst ha
  rcases wait_cases hrun with ⟨t, h⟩ | ⟨h, -⟩
  · have ht := hstate t h.ne
    exact .reaped t hexit hfork (ht ▸ h.child) (ht ▸ h.zombie)
      (fun j hj => (h.parents j hj).trans (hsame j)) h.free (ht ▸ h.ret)
  · exact .same hexit hfork (hsame.trans h)

theorem parents_reparent (s : Kernel) (i j : Nat) :
    ((reparent s i).procs j).parent
      = if (s.procs j).parent = some i then some 0 else (s.procs j).parent := by
  have hset : ∀ p : Proc, (if p.parent = some i then { p with parent := some 0 }
      else p).parent = if p.parent = some i then some 0 else p.parent := by
    intro p
    split <;> rfl
  unfold reparent
  split
  · rw [SameParents.wakeup1]
    exact hset _
  · exact hset _

theorem kin_exitFinal (s : Kernel) (i : Nat) : Kin s (.exitFinal i) (exitFinal s i) := by
  refine .orphans rfl fun j => ?_
  unfold exitFinal
  generalize hs1 : { s with
    fsserverPid := if s.fsserverPid = (s.procs i).pid then -1 else s.fsserverPid } = s1
  have h1 : SameParents s s1 := by
    intro j
    rw [← hs1]
  have h2 : SameParents s ((s1.modify i fun p =>
      { p with hasMsg := false, mailbox := .zero }).wakeup1 (.hasMsg i)) := by
    have hdrain := SameParents.modify s1 i (f := fun p =>
      { p with hasMsg := false, mailbox := .zero }) fun _ => rfl
    exact (h1.trans hdrain).trans (.wakeup1 _ _)
  have hend : ∀ c, ((((reparent (((s1.modify i fun p =>
      { p with hasMsg := false, mailbox := .zero }).wakeup1 (.hasMsg i)).wakeup1 c)
        i).modify i fun p => { p with state := .zombie }).procs j).parent)
      = if (s.procs j).parent = some i then some 0 else (s.procs j).parent := by
    intro c
    rw [SameParents.modify _ i (f := fun p => { p with state := .zombie })
      (fun _ => rfl), parents_reparent, (h2.trans (.wakeup1 _ c)) j]
  split
  · exact hend _
  · exact hend _

theorem parents_fork (s : Kernel) (i : Nat) : SameParents s (fork s i) := by
  unfold fork
  split
  next t _ =>
    have hboth := SameParents.modify₂ s i t
      (f := fun p => { p with state := .embryo, pid := s.nextpid })
      (g := fun p => { p with pc := .forked t false }) (fun _ => rfl) fun _ => rfl
    exact hboth
  next => exact .modify s i fun _ => rfl

theorem kin_forkDone {t : Nat} (hpc : (s.procs i).pc = .forked t true)
    (hti : t ≠ i) : Kin s (.forkDone i) (forkDone s i t) := by
  refine .born t hpc rfl fun j => ?_
  unfold forkDone
  by_cases hji : j = i
  · subst hji
    rw [procs_modify_self, procs_modify_of_ne hti.symm, if_neg hti.symm]
    rfl
  rw [procs_modify_of_ne hji]
  by_cases hjt : j = t
  · rw [hjt, procs_modify_self, if_pos rfl]
    rfl
  · rw [procs_modify_of_ne hjt, if_neg hjt]

theorem parents_kill (s : Kernel) (i : Nat) (pid : Int) :
    SameParents s (kill s i pid) := by
  unfold kill
  split
  · exact .modify₂ s i _ (fun _ => rfl) fun _ => rfl
  · exact .modify s i fun _ => rfl

theorem parents_exitStart (s : Kernel) (i : Nat) : SameParents s (exitStart s i) := by
  unfold exitStart
  split <;> exact .modify s i fun _ => rfl

theorem parents_fsIpcCall (s : Kernel) (i : Nat) (req : IpcMsg) :
    SameParents s (fsIpcCall s i req) := by
  unfold fsIpcCall
  split
  · exact .modify s i fun _ => rfl
  · exact SameParents.modify s i (f := fun p => { p with
      pc := .toSend s.fsserverPid { req with requestId := s.nextFsRequestId }
        (.call s.fsserverPid (IpcMsg.from { req with
          requestId := s.nextFsRequestId } p.pid)) }) fun _ => rfl

theorem kin_acts (hrun : (s.procs a.actor).state = .running)
    (hne : ∀ i t, (s.procs i).pc = .forked t true → t ≠ i)
    (hacts : Acts s a s') : Kin s a s' := by
  cases hacts with
  | exitFinal i => exact kin_exitFinal s i
  | wait i =>
    refine kin_wait (.refl s) (fun _ _ => rfl) ?_ rfl (by simp) (by simp)
    intro hz
    cases hz.symm.trans hrun
  | forkDone i t hpc => exact kin_forkDone hpc (hne i t hpc)
  | yield i | sysret i | send i | recv i | fault i =>
    exact .same (by simp) (by simp) (.modify s i fun _ => rfl)
  | register i =>
    exact .same (by simp) (by simp)
      (SameParents.modify s i (f := fun p => p.return 0 false) fun _ => rfl)
  | enterSend i => exact .same (by simp) (by simp) (parents_ipcSendMsg s i _ _ _)
  | enterRecv i => exact .same (by simp) (by simp) (parents_ipcRecvMsg s i _)
  | leave i | exit i => exact .same (by simp) (by simp) (parents_exitStart s i)
  | call i req => exact .same (by simp) (by simp) (parents_fsIpcCall s i req)
  | fork i => exact .same (by simp) (by simp) (parents_fork s i)
  | kill i pid => exact .same (by simp) (by simp) (parents_kill s i pid)
  | forkReset i t | forkFail i t =>
    exact .same (by simp) (by simp) (.modify₂ s i t (fun _ => rfl) fun _ => rfl)

theorem kin_resume (s : Kernel) (i : Nat) : Kin s (.sched i) (resume s i) := by
  have hwoken := SameParents.modify s i (f := fun p =>
    { p with state := .running, chan := .null }) fun _ => rfl
  unfold resume
  split
  · exact .same (by simp) (by simp) (hwoken.trans (parents_sendLoop _ i _ _ _ _))
  · exact .same (by simp) (by simp) (hwoken.trans (parents_ipcRecvMsg _ i _))
  · refine kin_wait hwoken (fun j hj => procs_modify_of_ne hj _) ?_ rfl (by simp)
      (by simp)
    rw [procs_modify_self]
    simp
  · exact .same (by simp) (by simp) (.modify s i fun _ => rfl)

theorem kin_of_step (hw : Wf s) (hs : step s a = some s') : Kin s a s' := by
  have hne : ∀ i t, (s.procs i).pc = .forked t true → t ≠ i := by
    intro i t hpc
    have halive : (s.table i).life = .alive := by
      have hpc : (s.table i).pc = .forked t true := hpc
      exact hw.alive_of_pc (by rw [hpc]; simp) (by rw [hpc]; simp)
    exact (ne_of_life halive (hw.fork_slot i t true hpc)).symm
  rcases step_cases hs with ⟨i, rfl, -, rfl⟩ | ⟨hrun, hacts⟩
  · exact kin_resume s i
  · exact kin_acts hrun hne hacts

-- ==== init

/-- The process is on its way out. -/
def Pc.leaves : Pc → Bool
  | .exiting | .toSend _ _ .exit | .sendLoop _ _ _ .exit => true
  | _ => false

/-- Init is alive and not about to leave. -/
structure InitStays (s : Kernel) : Prop where
  alive : (s.table 0).life = .alive
  stays : (s.table 0).pc.leaves = false

theorem SendFor.failed_leaves {k : SendFor} {p : Core}
    (h : (∃ pid msg, p.pc = .toSend pid msg k) ∨ ∃ pid t m, p.pc = .sendLoop pid t m k)
    (hp : p.pc.leaves = false) : k.failed.leaves = false ∧ k.sent.leaves = false := by
  cases k with
  | send => exact ⟨rfl, rfl⟩
  | call server req => exact ⟨rfl, rfl⟩
  | exit =>
    rcases h with ⟨pid, msg, hpc⟩ | ⟨pid, t, m, hpc⟩
    · rw [hpc] at hp
      cases hp
    · rw [hpc] at hp
      cases hp

/-- Inside `ipc_send_msg` and `ipc_recv_msg`, and in `wait`'s loop, nobody
decides to leave. -/
theorem Move.stays {p : Core} {pc : Pc} {r : Int} (h : Move s p a pc r)
    (hstay : p.pc.leaves = false) (huser : p.pc ≠ .user) (hret : ∀ b, p.pc ≠ .ret b) :
    pc.leaves = false := by
  cases h with
  | sched | yield => exact hstay
  | exit _ hpc | exitQuietly _ hpc =>
    rcases hpc with hpc | ⟨b, hpc, -⟩
    · exact absurd hpc.1 huser
    · exact absurd hpc (hret b)
  | sendFail _ k _ hpc => exact (SendFor.failed_leaves hpc hstay).1
  | sendWait _ pid t m k hs =>
    cases k with
    | send | call => rfl
    | exit => rcases hs.pc with ⟨_, hpc⟩ | hpc <;> simp [hpc, Pc.leaves] at hstay
  | _ => rfl

theorem stays_of_eff (hw : Wf s) (halive : (s.table a.actor).life = .alive)
    (heff : Eff s a s') (hstay : (s.table a.actor).pc.leaves = false)
    (huser : (s.table a.actor).pc ≠ .user) (hret : ∀ b, (s.table a.actor).pc ≠ .ret b) :
    (s'.table a.actor).pc.leaves = false := by
  have hslot := becomes_of_eff hw heff a.actor (Or.inl halive)
  generalize s'.table a.actor = q at hslot ⊢
  cases hslot with
  | moved _ pc r hmove => exact hmove.stays hstay huser hret
  | sent _ _ _ _ _ _ hs | sentSelf _ _ _ _ _ hs =>
    refine (SendFor.failed_leaves (p := s.table a.actor) ?_ hstay).2
    exact hs.pc.imp (fun ⟨msg, h⟩ => ⟨_, msg, h⟩) fun h => ⟨_, _, _, h⟩
  | took _ k =>
    obtain ⟨b, hb⟩ := Core.got_pc (s.table a.actor).drain
      (s.table a.actor).mailbox k
    rw [hb]
    rfl
  | exited _ _ hpc => simp [hpc, Pc.leaves] at hstay
  | fault => exact hstay
  | back | forking | cleared | suicide | registered => rfl
  | _ => contradiction

theorem stays_modify (h : (f (s.procs i)).pc.leaves = false) :
    ((s.modify i f).procs i).pc.leaves = false := by
  rw [procs_modify_self]
  exact h

/-- Init's own steps. -/
theorem init_stays (hw : Wf s) (hs : step s a = some s') (h0 : a.actor = 0)
    (hstay : (s.table a.actor).pc.leaves = false) :
    (s'.table a.actor).pc.leaves = false := by
  obtain ⟨halive, heff⟩ := eff_of_step hs
  -- inside a call, `stays_of_eff` knows
  have hcall : ∀ i, a.actor = i → (∀ b, (s.procs i).pc ≠ .ret b) →
      (s.procs i).pc ≠ .user → (s'.table a.actor).pc.leaves = false := by
    rintro i rfl hret huser
    exact stays_of_eff hw halive heff hstay huser hret
  rcases step_cases hs with ⟨i, rfl, -, rfl⟩ | ⟨-, hacts⟩
  · cases hpc : (s.procs i).pc with
    | sendLoop _ _ _ _ | recvLoop _ | waitLoop =>
      exact hcall i rfl (by simp [hpc]) (by simp [hpc])
    | user | ret _ | toSend _ _ _ | toRecv _ | forked _ _ | exiting =>
      unfold resume
      rw [hpc]
      exact stays_modify hstay
  cases hacts with
  | yield i | fault i => exact stays_modify hstay
  | enterSend i hpc | enterRecv i hpc =>
    exact hcall i rfl (by simp [hpc]) (by simp [hpc])
  | leave i _ _ hi | exit i _ hi => exact absurd h0 hi
  | sysret i | send i | recv i | forkReset i | forkFail i | forkDone i =>
    exact stays_modify rfl
  | exitFinal i hpc =>
    have hstay : (s.procs i).pc.leaves = false := hstay
    rw [hpc] at hstay
    cases hstay
  | call i req =>
    unfold fsIpcCall
    split
    · exact stays_modify rfl
    · simp [Kernel.table, Kernel.modify, Act.actor, Proc.core, Pc.leaves]
  | wait i =>
    unfold wait
    split
    · exact stays_modify rfl
    split <;> exact stays_modify rfl
  | fork i =>
    unfold fork
    split
    · simp [Kernel.table, Kernel.modify, Act.actor, Proc.core, Pc.leaves]
    · exact stays_modify rfl
  | kill i pid =>
    unfold kill
    split <;> exact stays_modify rfl
  | register i =>
    exact stays_modify (s := s) (i := i) (f := fun p => p.return 0 false) rfl

-- ==== the tree

/-- How a slot can come to be in use. -/
theorem life_of_eff (hw : Wf s) (halive : (s.table a.actor).life = .alive)
    (heff : Eff s a s') (j : Nat) :
    (s'.table j).life = (s.table j).life ∨ (s'.table j).Unborn
      ∨ (j = a.actor ∧ a = .exitFinal a.actor)
      ∨ ((s.table a.actor).pc = .forked j true ∧ a = .forkDone a.actor) := by
  have hslot := becomes_of_eff hw heff j (Or.inl halive)
  generalize s'.table j = q at hslot ⊢
  cases hslot with
  | exited hi ha => exact Or.inr (Or.inr (Or.inl ⟨hi, by rw [← hi]; exact ha⟩))
  | reaped | unalloc => exact Or.inr (Or.inl (Or.inl rfl))
  | alloc => exact Or.inr (Or.inl (Or.inr rfl))
  | born _ ha hpc => exact Or.inr (Or.inr (Or.inr ⟨hpc, ha⟩))
  | took => exact Or.inl (Core.got_life ..)
  | _ => exact Or.inl rfl

/-- The process lives, or waits to be reaped. -/
def Core.Present (p : Core) : Prop := p.life = .alive ∨ p.life = .zombie

theorem Core.Present.not_unborn {p : Core} (h : p.Present) (hu : p.Unborn) : False := by
  rcases hu with hu | hu
  all_goals
    rcases h with h | h
    · cases hu.symm.trans h
    · cases hu.symm.trans h

/-- Everybody but init has a living parent. -/
structure Tree (s : Kernel) : Prop where
  wf : Wf s
  init : InitStays s
  parent : ∀ j, j ≠ 0 → (s.table j).Present →
    ∃ q, (s.procs j).parent = some q ∧ (s.table q).life = .alive

theorem initStays_step (hw : Wf s) (h : InitStays s) (hs : step s a = some s') :
    InitStays s' := by
  obtain ⟨-, heff⟩ := eff_of_step hs
  have hpc : (s'.table 0).pc.leaves = false := by
    by_cases h0 : a.actor = 0
    · rw [← h0]
      exact init_stays hw hs h0 (by rw [h0]; exact h.stays)
    rcases other_of_eff hw heff (Ne.symm h0) h.alive with
      hsame | ⟨_, _, _, _, _, hsame⟩ | ⟨_, _, _, hsame⟩
    all_goals
      rw [hsame]
      exact h.stays
  refine ⟨?_, hpc⟩
  rcases (alive_of_eff hw heff h.alive).2 with halive | ha
  · exact halive
  subst ha
  have hact := step_running hs (by simp)
  have hstay : (s.procs 0).pc.leaves = false := h.stays
  simp only [act] at hact
  split at hact
  next hexit =>
    rw [hexit] at hstay
    cases hstay
  next => cases hact

theorem tree_step (h : Tree s) (hs : step s a = some s') : Tree s' := by
  obtain ⟨halive, heff⟩ := eff_of_step hs
  have hkin := kin_of_step h.wf hs
  have hinit := initStays_step h.wf h.init hs
  -- a living process that is not leaving stays
  have hlives : ∀ {q}, (s.table q).life = .alive → a ≠ .exitFinal q →
      (s'.table q).life = .alive := by
    intro q hq hne
    exact (alive_of_eff h.wf heff hq).2.resolve_right hne
  refine ⟨wf_step h.wf hs, hinit, fun j h0 hj => ?_⟩
  -- who was there before
  have hold : (s.table j).Present →
      ∃ q, (s'.procs j).parent = some q ∧ (s'.table q).life = .alive := by
    intro hp
    obtain ⟨q, hparent, hq⟩ := h.parent j h0 hp
    cases hkin with
    | same hexit hfork hsame =>
      exact ⟨q, (hsame j).trans hparent, hlives hq (hexit q)⟩
    | orphans ha hnew =>
      rw [hnew j, hparent]
      by_cases hqa : q = a.actor
      · rw [hqa, if_pos rfl]
        exact ⟨0, rfl, hinit.alive⟩
      rw [if_neg fun he => hqa (Option.some.inj he)]
      refine ⟨q, rfl, hlives hq fun he => hqa ?_⟩
      rw [he]
      rfl
    | reaped t hexit hfork hchild hzombie hsame hfree =>
      have hne : j ≠ t := by
        rintro rfl
        exact hj.not_unborn (Or.inl (life_of_state hfree.2))
      exact ⟨q, (hsame j hne).trans hparent, hlives hq (hexit q)⟩
    | born t hpc ha hnew =>
      have hne : j ≠ t := by
        rintro rfl
        exact hp.not_unborn (Or.inr (h.wf.fork_slot _ j true hpc))
      rw [hnew j, if_neg hne]
      refine ⟨q, hparent, hlives hq ?_⟩
      rw [ha]
      simp
  rcases life_of_eff h.wf halive heff j with hsame | hunborn | ⟨hja, -⟩ | ⟨hpc, ha⟩
  · refine hold ?_
    unfold Core.Present at hj
    rwa [hsame] at hj
  · exact (hj.not_unborn hunborn).elim
  · exact hold (Or.inl (hja ▸ halive))
  · cases hkin with
    | same _ hfork | reaped _ _ hfork => exact absurd ha (hfork _)
    | orphans ha' =>
      rw [ha] at ha'
      cases ha'
    | born t hpc' _ hnew =>
      cases hpc.symm.trans hpc'
      refine ⟨a.actor, by rw [hnew j, if_pos rfl], hlives halive ?_⟩
      rw [ha]
      simp

theorem tree_boot : Tree boot := by
  refine ⟨wf_boot, ⟨rfl, rfl⟩, fun j h0 hj => ?_⟩
  have hempty : boot.table j = Proc.empty.core := by
    unfold boot Kernel.table
    dsimp only
    rw [update_of_ne h0]
  rw [hempty] at hj
  exact (hj.not_unborn (Or.inl rfl)).elim

-- ==== the reaping

/-- The step is one of a `wait`. -/
def inWait (s : Kernel) : Act → Bool
  | .wait _ => true
  | .sched i =>
    match (s.procs i).pc with
    | .waitLoop => true
    | _ => false
  | _ => false

/-- The pid that a `wait` has returned in this step. -/
def waitReturn (s : Kernel) (a : Act) (s' : Kernel) : Option Nat :=
  if inWait s a ∧ (s'.procs a.actor).pc.isRet ∧ 0 ≤ (s'.procs a.actor).retval then
    some (s'.procs a.actor).retval.toNat
  else none

/-- The kernel, and the pids that `wait` has returned so far. -/
structure Reaping where
  kernel : Kernel
  returned : List Nat

def Reaping.step (w : Reaping) (a : Act) : Option Reaping :=
  match Ipc.step w.kernel a with
  | some k => some ⟨k, w.returned ++ (waitReturn w.kernel a k).toList⟩
  | none => none

def Reaping.boot : Reaping := ⟨Ipc.boot, []⟩

/-- The child with pid `p` that a `wait` has reaped. -/
structure Reaped (s : Kernel) (a : Act) (s' : Kernel) (p t : Nat) : Prop where
  pid : (s.procs t).pid = p
  child : (s.procs t).parent = some a.actor
  exited : (s.procs t).state = .zombie
  gone : (s'.procs t).pid = 0

theorem reaped_of_return {w : Kernel} {p : Nat}
    (hstate : ∀ j, j ≠ i → w.procs j = s.procs j) (hrun : (w.procs i).state ≠ .zombie)
    (ha : a.actor = i) (hpc : ((wait w i).procs i).pc.isRet = true)
    (hret : 0 ≤ ((wait w i).procs i).retval)
    (hp : ((wait w i).procs i).retval.toNat = p) : ∃ t, Reaped s a (wait w i) p t := by
  subst ha
  rcases wait_cases hrun with ⟨t, h⟩ | ⟨-, h⟩
  · have ht := hstate t h.ne
    rw [h.ret, Int.toNat_natCast] at hp
    exact ⟨t, ht ▸ hp, ht ▸ h.child, ht ▸ h.zombie, h.free.1⟩
  · exact absurd hret (h hpc)

theorem reaped_of_wait (hs : step s a = some s') {p : Nat}
    (hp : waitReturn s a s' = some p) : ∃ t, Reaped s a s' p t := by
  unfold waitReturn at hp
  split at hp
  next hin =>
    obtain ⟨hin, hpc, hret⟩ := hin
    have hp : (s'.procs a.actor).retval.toNat = p := Option.some.inj hp
    rcases step_cases hs with ⟨i, rfl, -, rfl⟩ | ⟨hrun, hacts⟩
    · have hloop : (s.procs i).pc = .waitLoop := by
        unfold inWait at hin
        dsimp only at hin
        split at hin
        next h => exact h
        next => cases hin
      unfold resume at hpc hret hp ⊢
      rw [hloop] at hpc hret hp ⊢
      refine reaped_of_return (fun j hj => procs_modify_of_ne hj _) ?_ rfl hpc hret hp
      rw [procs_modify_self]
      simp
    · cases hacts with
      | wait i =>
        refine reaped_of_return (fun _ _ => rfl) ?_ rfl hpc hret hp
        intro hz
        cases hz.symm.trans hrun
      | _ => cases hin
  next => cases hp

/-- The invariant of the reaping: a returned pid is not used again. -/
structure ReapingInv (w : Reaping) : Prop where
  tree : Tree w.kernel
  spent : ∀ p ∈ w.returned, p ≠ 0 ∧ p < w.kernel.nextpid
    ∧ ∀ j, (w.kernel.procs j).pid ≠ p
  once : w.returned.Nodup

theorem reaping_step {w w' : Reaping} (h : ReapingInv w)
    (hs : w.step a = some w') : ReapingInv w' := by
  unfold Reaping.step at hs
  split at hs
  next k hk =>
    cases hs
    obtain ⟨halive, heff⟩ := eff_of_step hk
    have hnext := nextpid_of_eff heff
    -- a pid that was given out before is where it was
    have hback : ∀ {p j}, p ≠ 0 → p < w.kernel.nextpid → (k.procs j).pid = p →
        (w.kernel.procs j).pid = p := by
      intro p j h0 hlt hj
      rcases pid_of_eff h.tree.wf halive heff j with hsame | hzero | hnew
      · exact hsame.symm.trans hj
      · exact absurd (hj.symm.trans hzero) h0
      · have hlt' : p = w.kernel.nextpid := hj.symm.trans hnew
        omega
    refine ⟨tree_step h.tree hk, fun p hp => ?_, ?_⟩
    · rcases List.mem_append.mp hp with hp | hp
      · obtain ⟨h0, hlt, hno⟩ := h.spent p hp
        exact ⟨h0, hlt.trans_le hnext, fun j hj => hno j (hback h0 hlt hj)⟩
      obtain ⟨t, hreap⟩ := reaped_of_wait hk (Option.mem_toList.mp hp)
      have hlife : (w.kernel.table t).life = .zombie := life_of_state hreap.exited
      have hpid : (w.kernel.table t).pid = p := hreap.pid
      have h0 : p ≠ 0 := hpid ▸ h.tree.wf.occupied t (by rw [hlife]; simp)
      have hlt : p < w.kernel.nextpid := hpid ▸ h.tree.wf.pid_lt t
      refine ⟨h0, hlt.trans_le hnext, fun j hj => ?_⟩
      have hold : (w.kernel.table j).pid = p := hback h0 hlt hj
      have hjt : j = t := h.tree.wf.pid_inj j t (hold.trans hpid.symm) (hold ▸ h0)
      rw [hjt, hreap.gone] at hj
      exact h0 hj.symm
    · refine List.nodup_append.mpr ⟨h.once, ?_, ?_⟩
      · cases waitReturn w.kernel a k <;> simp
      · intro p hp q hq he
        obtain ⟨t, hreap⟩ := reaped_of_wait hk (Option.mem_toList.mp hq)
        exact (h.spent p hp).2.2 t (hreap.pid.trans he.symm)
  next => cases hs

theorem reaping_boot : ReapingInv .boot :=
  ⟨tree_boot, fun _ hp => absurd hp List.not_mem_nil, List.nodup_nil⟩

/-- The slot holds a process that fork has finished. -/
def ProcState.Present (st : ProcState) : Prop :=
  st = .sleeping ∨ st = .runnable ∨ st = .running ∨ st = .zombie

theorem ProcState.Present.core {p : Proc} (h : p.state.Present) :
    p.core.Present := by
  rcases h with h | h | h | h
  · exact .inl (life_of_state h)
  · exact .inl (life_of_state h)
  · exact .inl (life_of_state h)
  · exact .inr (life_of_state h)

theorem state_of_alive {p : Proc} (h : p.core.life = .alive) :
    p.state ≠ .unused ∧ p.state ≠ .embryo ∧ p.state ≠ .zombie := by
  refine ⟨fun hst => ?_, fun hst => ?_, fun hst => ?_⟩
  · cases (life_of_state hst).symm.trans h
  · cases (life_of_state hst).symm.trans h
  · cases (life_of_state hst).symm.trans h

theorem life_of_used {p : Proc} (h : p.state ≠ .unused) :
    p.core.life ≠ .unused := by
  intro hl
  apply h
  unfold Proc.core at hl
  cases hst : p.state with
  | unused => rfl
  | _ =>
    rw [hst] at hl
    cases hl

/-- In every run of the kernel the pids in use are distinct, every process
but init has a parent that is still there, no pid is returned by two waits,
and what a wait returns next is the pid of an exited child of its caller. -/
theorem process_tree (acts : List Act) (w : Reaping)
    (h : runs Reaping.step .boot acts = some w) :
    (∀ i j, (w.kernel.procs i).state ≠ .unused →
        (w.kernel.procs j).state ≠ .unused →
        (w.kernel.procs i).pid = (w.kernel.procs j).pid → i = j)
      ∧ (∀ i, i ≠ 0 → (w.kernel.procs i).state.Present →
        ∃ q, (w.kernel.procs i).parent = some q
          ∧ (w.kernel.procs q).state ≠ .unused
          ∧ (w.kernel.procs q).state ≠ .embryo
          ∧ (w.kernel.procs q).state ≠ .zombie)
      ∧ w.returned.Nodup
      ∧ ∀ a k p, step w.kernel a = some k → waitReturn w.kernel a k = some p →
        ∃ t, (w.kernel.procs t).pid = p
          ∧ (w.kernel.procs t).parent = some a.actor
          ∧ (w.kernel.procs t).state = .zombie := by
  have hinv := runs_invariant (fun _ _ _ hi hs => reaping_step hi hs) reaping_boot h
  refine ⟨fun i j hi _ hpid => ?_, fun i h0 hi => ?_, hinv.once,
    fun a k p hk hp => ?_⟩
  · exact hinv.tree.wf.pid_inj i j hpid
      (hinv.tree.wf.occupied i (life_of_used hi))
  · obtain ⟨q, hq, halive⟩ := hinv.tree.parent i h0 hi.core
    exact ⟨q, hq, state_of_alive halive⟩
  · obtain ⟨t, hreap⟩ := reaped_of_wait hk hp
    exact ⟨t, hreap.pid, hreap.child, hreap.exited⟩

/-- Init waits for a child that has exited, and the slot's next child. -/
theorem process_tree_twice :
    ∃ w, runs Reaping.step .boot (secondInSlot ++ [.forkDone 0, .sysret 0, .sched 1,
        .exit 1, .exitFinal 1, .wait 0]) = some w ∧ w.returned = [2, 3]
      ∧ w.returned.Nodup := by
  have hsome : (runs Reaping.step .boot (secondInSlot ++ [.forkDone 0, .sysret 0,
      .sched 1, .exit 1, .exitFinal 1, .wait 0])).map Reaping.returned
      = some [2, 3] := by decide
  obtain ⟨w, hw, hret⟩ := Option.map_eq_some_iff.mp hsome
  exact ⟨w, hw, hret, (process_tree _ w hw).2.2.1⟩

end Xv6FsServer.Ipc
