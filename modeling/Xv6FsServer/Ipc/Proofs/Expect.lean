/-
A client that has a request out: what it can do until the reply comes.

A process inside `fs_ipc_call` after its `send` waits for one reply
(`Awaits`). Nothing but that reply's arrival takes it back to where it
could ask again: if it is killed first, its `recv` fails, the system call
returns, and the process is on its way out (`Leaving`) until it is a
zombie. `Waiting` is the disjunction, and it is stable under every step
except the take itself (`waiting_of_eff`). So as long as something is
owed to a client, the client does not ask for anything else.

Process ids are never used twice, so all of this can be said of a pid
(`Expecting`), whatever happens to slots in between.
-/
import Xv6FsServer.Ipc.Proofs.Delivery
import Xv6FsServer.Ipc.Protocol

namespace Xv6FsServer.Ipc

open Lib Function

variable {s s' : Kernel} {a : Act}
variable {pc : Pc} {m : IpcMsg} {p : Core}

-- ==== one process

/-- Inside `fs_ipc_call`, waiting for the reply to `m`. -/
def Core.Awaits (p : Core) (m : IpcMsg) : Prop :=
  p.pc = .toRecv (.call serverPid m) ∨ p.pc = .recvLoop (.call serverPid m)

/-- Killed, and past its last request. -/
def Core.Leaving (p : Core) : Prop :=
  p.killed = true ∧ (p.pc = .ret false ∨ p.pc = .exiting
    ∨ (∃ pid msg, p.pc = .toSend pid msg .exit)
    ∨ ∃ pid t m, p.pc = .sendLoop pid t m .exit)

def Core.Waiting (p : Core) (m : IpcMsg) : Prop :=
  p.life = .zombie ∨ (p.life = .alive ∧ (p.Awaits m ∨ p.Leaving))

/-- A process is not at two places at once. -/
theorem pc_elim {f : Pc → Bool} {P : Prop} (h : f p.pc = true) (hpc : p.pc = pc)
    (hf : f pc = false) : P := by
  rw [hpc, hf] at h
  cases h

def Pc.receives : Pc → Bool
  | .toRecv _ | .recvLoop _ => true
  | _ => false

/-- Where a process that waits or leaves can be. -/
def Pc.waits : Pc → Bool
  | .toRecv _ | .recvLoop _ | .ret false | .exiting | .toSend _ _ .exit
  | .sendLoop _ _ _ .exit => true
  | _ => false

theorem Core.Awaits.receives (h : p.Awaits m) : p.pc.receives = true := by
  rcases h with h | h
  all_goals
    rw [h]
    rfl

theorem Core.Leaving.waits (h : p.Leaving) :
    p.pc.waits = true ∧ p.pc.receives = false := by
  rcases h.2 with h | h | ⟨pid, msg, h⟩ | ⟨pid, t, m, h⟩
  all_goals
    rw [h]
    exact ⟨rfl, rfl⟩

/-- A process that leaves sends `exit`'s own message, if any. -/
theorem Core.Leaving.sends (h : p.Leaving) {pid : Int} {t : Nat} {k : SendFor}
    (hpc : (∃ msg, p.pc = .toSend pid msg k) ∨ p.pc = .sendLoop pid t m k) :
    k = .exit := by
  cases k with
  | exit => rfl
  | send | call =>
    rcases hpc with ⟨msg, hpc⟩ | hpc
    · exact pc_elim h.waits.1 hpc rfl
    · exact pc_elim h.waits.1 hpc rfl

/-- The moves of a process that leaves. -/
theorem Core.Leaving.goto (h : p.Leaving) {r : Int} (hmove : Move s p a pc r) :
    (p.goto pc r).Leaving := by
  refine ⟨h.1, ?_⟩
  cases hmove with
  | sched | yield => exact h.2
  | exit => exact Or.inr (Or.inr (Or.inl ⟨_, _, rfl⟩))
  | exitQuietly => exact Or.inr (Or.inl rfl)
  | sendFail _ k _ hpc =>
    have hk : k = .exit := by
      rcases hpc with ⟨pid, msg, hpc⟩ | ⟨pid, t, m, hpc⟩
      · exact h.sends (t := 0) (m := msg) (Or.inl ⟨msg, hpc⟩)
      · exact h.sends (Or.inr hpc)
    subst hk
    exact Or.inr (Or.inl rfl)
  | sendWait _ pid t m k hs =>
    rw [h.sends hs.pc]
    exact Or.inr (Or.inr (Or.inr ⟨_, _, _, rfl⟩))
  | recvFail => exact Or.inl rfl
  | sysret _ _ _ hk => cases hk.symm.trans h.1
  | _ =>
    rcases h.2 with h | h | ⟨_, _, h⟩ | ⟨_, _, _, h⟩
    all_goals simp_all [Core.Asks]

/-- A waiting process is not in user space, not between two calls, and
not about to send a request. -/
theorem Core.Waiting.waits (h : p.Waiting m) (halive : p.life = .alive) :
    p.pc.waits = true := by
  rcases h with h | ⟨-, (h | h) | h⟩
  · cases halive.symm.trans h
  · rw [h]
    rfl
  · rw [h]
    rfl
  · exact h.waits.1

/-- The moves of a waiting process. -/
theorem Core.Waiting.goto (h : p.Waiting m) (halive : p.life = .alive) {r : Int}
    (hmove : Move s p a pc r) :
    (p.goto pc r).Waiting m := by
  rcases h with h | ⟨-, h⟩
  · cases halive.symm.trans h
  refine Or.inr ⟨halive, ?_⟩
  rcases h with h | h
  · -- it goes on waiting for the same reply, or has been killed
    rcases hmove.receiving h with ⟨rfl, -⟩ | ⟨-, ⟨rfl, -⟩ | ⟨rfl, hk, -⟩⟩
    · exact Or.inl h
    · exact Or.inl (Or.inr rfl)
    · exact Or.inr ⟨hk, Or.inl rfl⟩
  · exact Or.inr (h.goto hmove)

theorem Core.Waiting.congr {q : Core} (h : p.Waiting m) (hlife : q.life = p.life)
    (hkilled : p.killed = true → q.killed = true) (hpc : q.pc = p.pc) : q.Waiting m := by
  unfold Core.Waiting Core.Awaits Core.Leaving at h ⊢
  rw [hlife, hpc]
  rcases h with h | ⟨h1, h2 | ⟨h2, h3⟩⟩
  · exact Or.inl h
  · exact Or.inr ⟨h1, Or.inl h2⟩
  · exact Or.inr ⟨h1, Or.inr ⟨hkilled h2, h3⟩⟩

/-- What is owed to a process stays owed until it takes a message. -/
theorem waiting_of_eff (hw : Wf s) (halive : (s.table a.actor).life = .alive)
    (heff : Eff s a s') {i : Nat} (h : (s.table i).Waiting m)
    (hpid : (s'.table i).pid = (s.table i).pid)
    (hnotake : s'.taken = s.taken ∨ a.actor ≠ i) : (s'.table i).Waiting m := by
  have hslot := becomes_of_eff hw heff i (Or.inl halive)
  generalize s'.table i = q at hslot hpid ⊢
  -- a waiting actor has no business in user space or inside `fork`
  have hbusy : i = a.actor → (s.table i).pc.waits = true :=
    fun hi => h.waits (hi ▸ halive)
  cases hslot with
  | same => exact h
  | filled => exact h.congr rfl id rfl
  | killed | fault => exact h.congr rfl (fun _ => rfl) rfl
  | reaped _ hlife => exact absurd hpid.symm (hw.occupied i (by simp [hlife]))
  | alloc _ hlife => simp [Core.Waiting, hlife] at h
  | reset _ hpc | unalloc _ hpc | born _ _ hpc =>
    simp [Core.Waiting, hw.fork_slot _ i _ hpc] at h
  | moved hi pc r hmove => exact h.goto (hi ▸ halive) hmove
  | sent hi _ _ _ _ _ hs | sentSelf hi _ _ _ _ hs =>
    -- only `exit`'s own message can be on its way
    rcases h with h | ⟨hlife, h | h⟩
    · cases (hi ▸ halive).symm.trans h
    · rcases hs.pc with ⟨_, hpc⟩ | hpc
      · exact pc_elim h.receives hpc rfl
      · exact pc_elim h.receives hpc rfl
    · rw [h.sends hs.pc]
      exact Or.inr ⟨hlife, Or.inr ⟨h.1, Or.inr (Or.inl rfl)⟩⟩
  | took hi k hpc _ htaken =>
    exfalso
    have hsame : s'.taken = s.taken := hnotake.resolve_right fun hne => hne hi.symm
    rcases h with h | ⟨-, h | h⟩
    · cases (hi ▸ halive).symm.trans h
    · have hk : k = .call serverPid m := by
        rcases h with h | h <;> rcases hpc with hpc | hpc <;> simp_all
      rw [hsame, hk] at htaken
      have hlen := congrArg List.length htaken
      simp [RecvFor.record] at hlen
    · rcases hpc with hpc | hpc
      · cases (congrArg Pc.receives hpc).symm.trans h.waits.2
      · cases (congrArg Pc.receives hpc).symm.trans h.waits.2
  | exited => exact Or.inl rfl
  | back hi _ hpc =>
    rcases hpc with ⟨hpc, -⟩ | hpc | ⟨_, hpc⟩
    all_goals exact pc_elim (hbusy hi) hpc rfl
  | forking hi _ _ hpc | cleared hi _ hpc | suicide hi _ _ _ hpc
  | registered hi _ hpc =>
    exact pc_elim (hbusy hi) hpc rfl

-- ==== one pid

/-- Whoever has this pid is waiting for the reply to `m`. -/
structure Expecting (s : Kernel) (c : Nat) (m : IpcMsg) : Prop where
  pos : 0 < c
  born : c < s.nextpid
  waiting : ∀ i, (s.table i).pid = c → (s.table i).Waiting m

/-- The ids after a step: kept, given up, or new. -/
theorem pid_of_eff (hw : Wf s) (halive : (s.table a.actor).life = .alive)
    (heff : Eff s a s') (i : Nat) :
    (s'.table i).pid = (s.table i).pid ∨ (s'.table i).pid = 0
      ∨ (s'.table i).pid = s.nextpid := by
  have hslot := becomes_of_eff hw heff i (Or.inl halive)
  generalize s'.table i = q at hslot ⊢
  cases hslot with
  | reaped => exact Or.inr (Or.inl rfl)
  | alloc => exact Or.inr (Or.inr rfl)
  | took => exact Or.inl (Core.got_pid ..)
  | _ => exact Or.inl rfl

theorem nextpid_of_eff (heff : Eff s a s') : s.nextpid ≤ s'.nextpid := by
  cases heff with
  | quiet _ _ _ _ hframe | reap _ _ _ _ _ hframe | reset _ _ _ hframe
  | unalloc _ _ _ _ hframe | born _ _ _ _ _ hframe | kill _ _ _ _ _ _ _ hframe
  | fault _ _ hframe => exact hframe.nextpid ▸ Nat.le_refl _
  | store _ _ _ _ _ _ _ _ hnext | took _ _ _ _ hnext | zombie _ _ _ hnext
  | register _ _ _ hnext => exact hnext ▸ Nat.le_refl _
  | alloc _ _ _ _ _ _ hnext => exact hnext ▸ Nat.le_succ _

/-- What is owed to a pid stays owed until it takes a message. -/
theorem Expecting.of_eff {c : Nat} (h : Expecting s c m) (hw : Wf s)
    (halive : (s.table a.actor).life = .alive) (heff : Eff s a s')
    (hnotake : s'.taken = s.taken ∨ (s.table a.actor).pid ≠ c) :
    Expecting s' c m := by
  refine ⟨h.pos, Nat.lt_of_lt_of_le h.born (nextpid_of_eff heff), ?_⟩
  intro i hi
  have hsame : (s'.table i).pid = (s.table i).pid := by
    rcases pid_of_eff hw halive heff i with h1 | h1 | h1
    · exact h1
    · have := h.pos
      omega
    · have := h.born
      omega
  refine waiting_of_eff hw halive heff (h.waiting i (hsame ▸ hi)) hsame ?_
  refine hnotake.imp id fun hne e => hne ?_
  rw [e, ← hsame]
  exact hi

/-- A live process that asks, or sends a request, has nothing owed to
it. -/
theorem not_expecting {i : Nat} (halive : (s.table i).life = .alive)
    (hpc : (s.table i).pc = pc) (hbusy : pc.waits = false) (m : IpcMsg) :
    ¬ Expecting s (s.table i).pid m := fun h =>
  pc_elim ((h.waiting i rfl).waits halive) hpc hbusy

end Xv6FsServer.Ipc
