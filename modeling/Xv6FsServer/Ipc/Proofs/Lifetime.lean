/-
The process table's own invariant: process lifetimes.

`Wf` holds in every run, whatever is sent to whom. Process ids are
distinct, a slot that is not alive has left every loop, and the slot a
`fork` is filling is nobody else's. Two lemmas carry the induction:
`Wf.of_pc` for the steps that move places only, `Wf.of_slot` for those
that begin or end a lifetime in another slot.
-/
import Xv6FsServer.Ipc.Proofs.Effect

namespace Xv6FsServer.Ipc

open Lib Function

variable {s s' : Kernel} {a : Act}
variable {i t : Nat}
variable {l : Life} {c : Core} {g : Core → Core} {r pid : Int} {kd : SendFor}

-- ==== the process table

/-- Lifetimes: distinct ids, and slots that are not alive are out of
every loop. -/
structure Wf (s : Kernel) : Prop where
  next_pos : 0 < s.nextpid
  pid_lt : ∀ i, (s.table i).pid < s.nextpid
  pid_inj : ∀ i j, (s.table i).pid = (s.table j).pid → (s.table i).pid ≠ 0 →
    i = j
  occupied : ∀ i, (s.table i).life ≠ .unused → (s.table i).pid ≠ 0
  range : ∀ i, nproc ≤ i → (s.table i).life = .unused
  dead_pc : ∀ i, (s.table i).life ≠ .alive →
    (s.table i).pc = .user ∨ (s.table i).pc = .exiting
  fork_slot : ∀ i t c, (s.table i).pc = .forked t c →
    (s.table t).life = .embryo
  fork_inj : ∀ i j t c d, (s.table i).pc = .forked t c →
    (s.table j).pc = .forked t d → i = j

theorem Wf.alive_of_pc (h : Wf s) (h1 : (s.table i).pc ≠ .user)
    (h2 : (s.table i).pc ≠ .exiting) : (s.table i).life = .alive := by
  by_contra hne
  rcases h.dead_pc i hne with h3 | h3
  · exact h1 h3
  · exact h2 h3

/-- A slot that is in use is in the table. -/
theorem Wf.lt_of_life (h : Wf s) (hl : (s.table t).life = l)
    (hne : l ≠ .unused := by simp) : t < nproc := by
  by_contra hge
  exact hne (hl ▸ h.range t (by omega))

/-- A live process is not the slot of another lifetime. -/
theorem ne_of_life (hi : (s.table i).life = .alive) (ht : (s.table t).life = l)
    (hne : l ≠ .alive := by simp) : i ≠ t := by
  intro e
  rw [e] at hi
  exact hne (ht ▸ hi)

/-- Steps that change no id and no lifetime: the places that change are
those of live processes, and none of them is inside `fork`. -/
theorem Wf.of_pc (h : Wf s) (hnext : s'.nextpid = s.nextpid)
    (hpid : ∀ j, (s'.table j).pid = (s.table j).pid)
    (hlife : ∀ j, (s'.table j).life = (s.table j).life)
    (hpc : ∀ j, (s'.table j).pc = (s.table j).pc
      ∨ ((s.table j).life = .alive ∧ ∀ t c, (s'.table j).pc ≠ .forked t c)) :
    Wf s' := by
  have hfork : ∀ i t c, (s'.table i).pc = .forked t c →
      (s.table i).pc = .forked t c := by
    intro i t c hi
    rcases hpc i with h1 | ⟨-, h1⟩
    · rw [← h1]
      exact hi
    · exact absurd hi (h1 t c)
  refine ⟨?_, ?_, ?_, ?_, ?_, ?_, ?_, ?_⟩
  · rw [hnext]
    exact h.next_pos
  · intro i
    rw [hnext, hpid]
    exact h.pid_lt i
  · intro i j
    rw [hpid, hpid]
    exact h.pid_inj i j
  · intro i
    rw [hpid, hlife]
    exact h.occupied i
  · intro i
    rw [hlife]
    exact h.range i
  · intro i hi
    rw [hlife] at hi
    rcases hpc i with h1 | ⟨h1, -⟩
    · rw [h1]
      exact h.dead_pc i hi
    · exact absurd h1 hi
  · intro i t c hi
    rw [hlife]
    exact h.fork_slot i t c (hfork i t c hi)
  · intro i j t c d hi hj
    exact h.fork_inj i j t c d (hfork i t c hi) (hfork j t d hj)

theorem Wf.of_update (h : Wf s) (hnext : s'.nextpid = s.nextpid)
    (htable : s'.table = update s.table i c) (hpid : c.pid = (s.table i).pid)
    (hlife : c.life = (s.table i).life) (hpc : c.pc = (s.table i).pc
      ∨ (s.table i).life = .alive ∧ ∀ t b, c.pc ≠ .forked t b) : Wf s' := by
  refine h.of_pc hnext ?_ ?_ fun j => ?_
  · rw [htable]
    exact update_proj Core.pid hpid
  · rw [htable]
    exact update_proj Core.life hlife
  · rw [htable]
    by_cases hj : j = i
    · subst hj
      rwa [update_self]
    · rw [update_of_ne hj]
      exact Or.inl rfl

theorem Wf.of_set₂ (h : Wf s) (hnext : s'.nextpid = s.nextpid)
    (htable : s'.table = s.table.set₂ t c i g)
    (halive : (s.table i).life = .alive)
    (hc : c.pid = (s.table t).pid ∧ c.life = (s.table t).life ∧ c.pc = (s.table t).pc)
    (hg : ∀ p, (g p).pid = p.pid ∧ (g p).life = p.life ∧ ∀ u b, (g p).pc ≠ .forked u b) :
    Wf s' := by
  refine h.of_pc hnext (fun j => ?_) (fun j => ?_) fun j => ?_
  · rw [htable]
    exact Table.set₂_proj Core.pid hc.1 (fun p => (hg p).1) j
  · rw [htable]
    exact Table.set₂_proj Core.life hc.2.1 (fun p => (hg p).2.1) j
  · rw [htable]
    by_cases hj : j = i
    · subst hj
      rw [Table.set₂_self]
      exact Or.inr ⟨halive, (hg _).2.2⟩
    · rw [Table.set₂_of_ne hj]
      exact Or.inl (update_proj Core.pc hc.2.2 j)

/-- A move never enters `fork`. -/
theorem Move.not_forked {p : Core} {pc : Pc} (h : Move s p a pc r) :
    pc = p.pc ∨ ∀ t c, pc ≠ .forked t c := by
  cases h with
  | sched | yield => exact Or.inl rfl
  | sendFail _ k _ hpc =>
    refine Or.inr fun t c => ?_
    cases k <;> simp [SendFor.failed]
  | _ => exact Or.inr fun t c => by simp

theorem SendFor.sent_not_forked (k : SendFor) (t : Nat) (c : Bool) :
    k.sent ≠ .forked t c := by
  cases k <;> simp [SendFor.sent]

section

variable (p : Core) (m : IpcMsg) (k : RecvFor)

theorem Core.got_pc : ∃ b, (p.got m k).pc = .ret b := by
  unfold Core.got
  cases k with
  | recv => exact ⟨false, rfl⟩
  | call server req =>
    dsimp only
    split
    · exact ⟨true, rfl⟩
    · exact ⟨false, rfl⟩

/-- The message taken changes the place of the receiver and its buffer. -/
theorem Core.got_eq : p.got m k = { p with
      pc := (p.got m k).pc, retval := (p.got m k).retval, buf := (p.got m k).buf } := by
  unfold Core.got
  cases k with
  | recv => rfl
  | call server req =>
    dsimp only
    split <;> rfl

@[simp] theorem Core.got_life : (p.got m k).life = p.life := by rw [got_eq]

@[simp] theorem Core.got_pid : (p.got m k).pid = p.pid := by rw [got_eq]

@[simp] theorem Core.got_killed : (p.got m k).killed = p.killed := by rw [got_eq]

@[simp] theorem Core.got_hasMsg : (p.got m k).hasMsg = p.hasMsg := by rw [got_eq]

@[simp] theorem Core.got_mailbox : (p.got m k).mailbox = p.mailbox := by rw [got_eq]

end

/-- A step that changes the actor's place and the lifetime of another
slot `t`: what remains to be seen is that the new id is nobody else's
and that no `fork` is filling slot `t`. -/
theorem Wf.of_slot (h : Wf s) (hit : i ≠ t)
    (halive : (s.table i).life = .alive) (ht : t < nproc)
    (htable : s'.table = s.table.set₂ t c i g)
    (hg : ∀ p, (g p).pid = p.pid ∧ (g p).life = p.life) (hnext : s.nextpid ≤ s'.nextpid)
    (hlt : c.pid < s'.nextpid)
    (hnew : c.pid = 0 ∨ c.pid = (s.table t).pid ∨ s.nextpid ≤ c.pid)
    (hocc : c.life ≠ .unused → c.pid ≠ 0) (hdead : c.pc = .user ∨ c.pc = .exiting)
    (hself : ∀ p u b, (g p).pc = .forked u b → u = t ∧ c.life = .embryo)
    (halone : ∀ j b, j ≠ i → (s.table j).pc ≠ .forked t b) : Wf s' := by
  have hi : s'.table i = g (s.table i) := by
    rw [htable, Table.set₂_self, update_of_ne hit]
  have hslot : s'.table t = c := by
    rw [htable, Table.set₂_of_ne hit.symm, update_self]
  have hrest : ∀ j, j ≠ i → j ≠ t → s'.table j = s.table j := by
    intro j h1 h2
    rw [htable, Table.set₂_of_ne h1, update_of_ne h2]
  -- away from slot `t` ids and lifetimes are as they were
  have hpid : ∀ j, j ≠ t → (s'.table j).pid = (s.table j).pid := by
    intro j h2
    by_cases h1 : j = i
    · subst h1
      rw [hi, (hg _).1]
    · rw [hrest j h1 h2]
  have hlife : ∀ j, j ≠ t → (s'.table j).life = (s.table j).life := by
    intro j h2
    by_cases h1 : j = i
    · subst h1
      rw [hi, (hg _).2]
    · rw [hrest j h1 h2]
  have hfresh : ∀ j, j ≠ t → (s.table j).pid = c.pid → c.pid = 0 := by
    intro j h2 he
    rcases hnew with h0 | h0 | h0
    · exact h0
    · by_contra hne
      exact h2 (h.pid_inj j t (he.trans h0) (he ▸ hne))
    · have := h.pid_lt j
      omega
  -- a `fork` other than the actor's is filling another slot
  have hfork : ∀ j u b, (s'.table j).pc = .forked u b →
      (j = i ∧ u = t ∧ c.life = .embryo)
        ∨ (j ≠ i ∧ u ≠ t ∧ (s.table j).pc = .forked u b) := by
    intro j u b hj
    by_cases h1 : j = i
    · subst h1
      rw [hi] at hj
      exact Or.inl ⟨rfl, hself _ u b hj⟩
    · by_cases h2 : j = t
      · rw [h2, hslot] at hj
        rw [hj] at hdead
        rcases hdead with h3 | h3 <;> cases h3
      · rw [hrest j h1 h2] at hj
        exact Or.inr ⟨h1, fun e => halone j b h1 (e ▸ hj), hj⟩
  refine ⟨?_, ?_, ?_, ?_, ?_, ?_, ?_, ?_⟩
  · have := h.next_pos
    omega
  · intro j
    by_cases h2 : j = t
    · rw [h2, hslot]
      exact hlt
    · rw [hpid j h2]
      exact Nat.lt_of_lt_of_le (h.pid_lt j) hnext
  · intro j j' he hne
    by_cases h2 : j = t
    · by_cases h3 : j' = t
      · rw [h2, h3]
      · rw [h2, hslot] at he hne
        rw [hpid j' h3] at he
        exact absurd (hfresh j' h3 he.symm) hne
    · by_cases h3 : j' = t
      · rw [h3, hslot] at he
        rw [he] at hne
        rw [hpid j h2] at he
        exact absurd (hfresh j h2 he) hne
      · rw [hpid j h2] at he hne
        rw [hpid j' h3] at he
        exact h.pid_inj j j' he hne
  · intro j hj
    by_cases h2 : j = t
    · rw [h2, hslot] at hj ⊢
      exact hocc hj
    · rw [hlife j h2] at hj
      rw [hpid j h2]
      exact h.occupied j hj
  · intro j hj
    by_cases h2 : j = t
    · omega
    · rw [hlife j h2]
      exact h.range j hj
  · intro j hj
    by_cases h2 : j = t
    · rw [h2, hslot]
      exact hdead
    rw [hlife j h2] at hj
    by_cases h1 : j = i
    · rw [h1] at hj
      exact absurd halive hj
    · rw [hrest j h1 h2]
      exact h.dead_pc j hj
  · intro j u b hj
    rcases hfork j u b hj with ⟨-, rfl, he⟩ | ⟨-, hu, he⟩
    · rw [hslot]
      exact he
    · rw [hlife u hu]
      exact h.fork_slot j u b he
  · intro j j' u b d hj hj'
    rcases hfork j u b hj with ⟨rfl, hu, -⟩ | ⟨-, hu, he⟩
    · rcases hfork j' u d hj' with ⟨rfl, -, -⟩ | ⟨-, hu', -⟩
      · rfl
      · exact absurd hu hu'
    · rcases hfork j' u d hj' with ⟨-, hu', -⟩ | ⟨-, -, he'⟩
      · exact absurd hu' hu
      · exact h.fork_inj j j' u b d he he'

/-- `fork` goes on with the slot that it is filling. -/
theorem Wf.of_forked (h : Wf s) {b : Bool}
    (halive : (s.table i).life = .alive) (hpc : (s.table i).pc = .forked t b)
    (htable : s'.table = s.table.set₂ t c i g)
    (hg : ∀ p, (g p).pid = p.pid ∧ (g p).life = p.life)
    (hnext : s'.nextpid = s.nextpid) (hpid : c.pid = (s.table t).pid)
    (hdead : c.pc = .user ∨ c.pc = .exiting)
    (hself : ∀ p u b, (g p).pc = .forked u b → u = t ∧ c.life = .embryo) : Wf s' := by
  have hlife := h.fork_slot _ t _ hpc
  refine h.of_slot (ne_of_life halive hlife) halive (h.lt_of_life hlife) htable hg
    hnext.ge ?_ (Or.inr (Or.inl hpid)) (fun _ => ?_) hdead hself ?_
  · rw [hpid, hnext]
    exact h.pid_lt t
  · rw [hpid]
    exact h.occupied t (by rw [hlife]; simp)
  · intro j d hne hj
    exact hne (h.fork_inj j i t d _ hj hpc)

/-- The process table stays well formed. -/
theorem wf_step (h : Wf s) (hs : step s a = some s') : Wf s' := by
  obtain ⟨halive, heff⟩ := eff_of_step hs
  have hrange : a.actor < nproc := by
    by_contra hge
    rw [h.range _ (by omega)] at halive
    cases halive
  cases heff with
  | quiet pc r hmove htable hframe =>
    exact h.of_update hframe.nextpid htable rfl rfl
      (hmove.not_forked.imp_right fun h1 => ⟨halive, h1⟩)
  | store pid t m k r hsend hempty htable hnext =>
    exact h.of_set₂ hnext htable halive ⟨rfl, rfl, rfl⟩
      fun _ => ⟨rfl, rfl, k.sent_not_forked⟩
  | took k hpc hfull htable hnext =>
    obtain ⟨b, hb⟩ := Core.got_pc (s.table a.actor).drain
      (s.table a.actor).mailbox k
    refine h.of_update hnext htable (Core.got_pid ..) (Core.got_life ..)
      (Or.inr ⟨halive, ?_⟩)
    rw [hb]
    simp
  | zombie ha hpc htable hnext =>
    have hpid : ∀ j, (s'.table j).pid = (s.table j).pid := by
      rw [htable]
      exact update_proj Core.pid rfl
    have hpc' : ∀ j, (s'.table j).pc = (s.table j).pc := by
      rw [htable]
      exact update_proj Core.pc rfl
    have hself : (s'.table a.actor).life = .zombie := by
      rw [htable, update_self]
    have hlife : ∀ j, j ≠ a.actor → (s'.table j).life = (s.table j).life := by
      intro j hj
      rw [htable, update_of_ne hj]
    refine ⟨?_, ?_, ?_, ?_, ?_, ?_, ?_, ?_⟩
    · rw [hnext]
      exact h.next_pos
    · intro j
      rw [hpid, hnext]
      exact h.pid_lt j
    · intro j j'
      rw [hpid, hpid]
      exact h.pid_inj j j'
    · intro j hj
      rw [hpid]
      by_cases he : j = a.actor
      · rw [he]
        exact h.occupied _ (by rw [halive]; simp)
      · rw [hlife j he] at hj
        exact h.occupied j hj
    · intro j hj
      rw [hlife j (by omega)]
      exact h.range j hj
    · intro j hj
      rw [hpc']
      by_cases he : j = a.actor
      · rw [he]
        exact Or.inr hpc
      · rw [hlife j he] at hj
        exact h.dead_pc j hj
    · intro j t b hj
      rw [hpc'] at hj
      have hslot := h.fork_slot j t b hj
      have hne : t ≠ a.actor := by
        intro e
        rw [e, halive] at hslot
        cases hslot
      rw [hlife t hne]
      exact hslot
    · intro j j' t b d
      rw [hpc', hpc']
      exact h.fork_inj j j' t b d
  | reap t r hpc hlife htable hframe =>
    refine h.of_slot (ne_of_life halive hlife) halive (h.lt_of_life hlife)
      htable (fun _ => ⟨rfl, rfl⟩) (by rw [hframe.nextpid]) ?_ (Or.inl rfl)
      (by simp) (h.dead_pc t (by rw [hlife]; simp))
      (fun p u b hj => by cases hj) ?_
    · rw [hframe.nextpid]
      exact h.next_pos
    · intro j b _ hj
      cases (h.fork_slot j t b hj).symm.trans hlife
  | alloc t ha ht hpc hlife htable hnext =>
    refine h.of_slot (ne_of_life halive hlife) halive ht htable
      (fun _ => ⟨rfl, rfl⟩) (by omega) ?_ (Or.inr (Or.inr (Nat.le_refl _))) ?_
      (h.dead_pc t (by rw [hlife]; simp)) ?_ ?_
    · rw [hnext]
      exact Nat.lt_succ_self _
    · intro _
      exact Nat.pos_iff_ne_zero.mp h.next_pos
    · intro p u b hj
      cases hj
      exact ⟨rfl, rfl⟩
    · intro j b _ hj
      cases (h.fork_slot j t b hj).symm.trans hlife
  | reset t hpc htable hframe =>
    have hlife := h.fork_slot _ t _ hpc
    refine h.of_forked halive hpc htable (fun _ => ⟨rfl, rfl⟩) hframe.nextpid rfl
      (h.dead_pc t (by rw [hlife]; simp)) ?_
    intro p u b hj
    cases hj
    exact ⟨rfl, hlife⟩
  | unalloc t r hpc htable hframe =>
    have hlife := h.fork_slot _ t _ hpc
    exact h.of_forked halive hpc htable (fun _ => ⟨rfl, rfl⟩) hframe.nextpid rfl
      (h.dead_pc t (by rw [hlife]; simp)) fun p u b hj => by cases hj
  | born t r ha hpc htable hframe =>
    exact h.of_forked halive hpc htable (fun _ => ⟨rfl, rfl⟩) hframe.nextpid rfl
      (Or.inl rfl) fun p u b hj => by cases hj
  | kill t pid r ha hpc hfind htable hframe =>
    exact h.of_set₂ hframe.nextpid htable halive ⟨rfl, rfl, rfl⟩
      fun _ => ⟨rfl, rfl, by simp⟩
  | fault ha htable hframe =>
    exact h.of_update hframe.nextpid htable rfl rfl (Or.inl rfl)
  | register ha hpc htable hnext =>
    exact h.of_update hnext htable rfl rfl (Or.inr ⟨halive, by simp⟩)

theorem wf_boot : Wf boot := by
  have htab : boot.table = update (fun _ => Proc.empty.core) 0
      { Proc.empty.core with life := .alive, pid := 1 } := by
    funext j
    unfold boot Kernel.table
    by_cases hj : j = 0
    · subst hj
      rfl
    · dsimp only
      rw [update_of_ne hj, update_of_ne hj]
  have hpc : ∀ j, (boot.table j).pc = .user := by
    rw [htab]
    exact update_proj Core.pc rfl
  have hother : ∀ j, j ≠ 0 → boot.table j = Proc.empty.core := by
    intro j hj
    rw [htab, update_of_ne hj]
  refine ⟨by decide, ?_, ?_, ?_, ?_, fun j _ => Or.inl (hpc j), ?_, ?_⟩
  · intro j
    by_cases hj : j = 0
    · subst hj
      decide
    · rw [hother j hj]
      decide
  · intro j j' he hne
    by_cases hj : j = 0
    · by_cases hj' : j' = 0
      · rw [hj, hj']
      · rw [hother j' hj'] at he
        exact absurd he hne
    · rw [hother j hj] at hne
      exact absurd rfl hne
  · intro j hj
    by_cases hj0 : j = 0
    · subst hj0
      decide
    · rw [hother j hj0] at hj
      exact absurd rfl hj
  · intro j hj
    rw [hother j (by unfold nproc at hj; omega)]
    rfl
  · intro j t c hj
    rw [hpc] at hj
    cases hj
  · intro j j' t c d hj
    rw [hpc] at hj
    cases hj

theorem step_running (hs : step s a = some s') (ha : ∀ i, a ≠ .sched i) :
    act s a = some s' := by
  unfold step at hs
  split at hs
  next =>
    split at hs
    next => exact absurd rfl (ha _)
    split at hs
    next => exact hs
    next => cases hs
  next => cases hs

-- ==== one slot

theorem Sending.pc {p : Core} {m : IpcMsg} {k : SendFor} (h : Sending s p pid t m k) :
    (∃ msg, p.pc = .toSend pid msg k) ∨ p.pc = .sendLoop pid t m k := by
  cases h with
  | found msg hpc => exact Or.inl ⟨msg, hpc⟩
  | waited hpc => exact Or.inr hpc

/-- What a step makes of slot `i`: first of a slot that is not the actor's,
then of the actor's own. -/
inductive Becomes (s : Kernel) (a : Act) (s' : Kernel) (i : Nat) : Core → Prop
  | same (hi : i ≠ a.actor) : Becomes s a s' i (s.table i)
  | filled (hi : i ≠ a.actor) (pid : Int) (m : IpcMsg) (k : SendFor)
      (hs : Sending s (s.table a.actor) pid i m k)
      (hempty : (s.table i).hasMsg = false) (hsent : (s'.table a.actor).pc = k.sent)
      (htaken : s'.taken = s.taken) : Becomes s a s' i ((s.table i).fill m)
  | killed (hi : i ≠ a.actor) (pid : Int) (ha : a = .kill a.actor pid)
      (hfind : s.findPid pid = some i) :
      Becomes s a s' i { s.table i with killed := true }
  | reaped (hi : i ≠ a.actor) (hlife : (s.table i).life = .zombie) :
      Becomes s a s' i
        { (s.table i).drain with life := .unused, pid := 0, killed := false }
  | alloc (hi : i ≠ a.actor) (hlife : (s.table i).life = .unused) :
      Becomes s a s' i { s.table i with life := .embryo, pid := s.nextpid }
  | reset (hi : i ≠ a.actor) (hpc : (s.table a.actor).pc = .forked i false) :
      Becomes s a s' i (s.table i).drain
  | unalloc (hi : i ≠ a.actor) (hpc : (s.table a.actor).pc = .forked i true) :
      Becomes s a s' i { s.table i with life := .unused }
  | born (hi : i ≠ a.actor) (ha : a = .forkDone a.actor)
      (hpc : (s.table a.actor).pc = .forked i true) :
      Becomes s a s' i { s.table i with life := .alive, pc := .user }
  | moved (hi : i = a.actor) (pc : Pc) (r : Int) (hmove : Move s (s.table i) a pc r)
      (htable : s'.table = update s.table i ((s.table i).goto pc r)) :
      Becomes s a s' i ((s.table i).goto pc r)
  | sent (hi : i = a.actor) (pid : Int) (t : Nat) (m : IpcMsg) (k : SendFor) (r : Int)
      (hs : Sending s (s.table i) pid t m k) (hempty : (s.table t).hasMsg = false)
      (hfill : s'.table t = (s.table t).fill m) (htaken : s'.taken = s.taken) :
      Becomes s a s' i ((s.table i).goto k.sent r)
  | sentSelf (hi : i = a.actor) (pid : Int) (m : IpcMsg) (k : SendFor) (r : Int)
      (hs : Sending s (s.table i) pid i m k)
      (hempty : (s.table i).hasMsg = false) (htaken : s'.taken = s.taken) :
      Becomes s a s' i (((s.table i).fill m).goto k.sent r)
  | took (hi : i = a.actor) (k : RecvFor)
      (hpc : (s.table i).pc = .toRecv k ∨ (s.table i).pc = .recvLoop k)
      (hfull : (s.table i).hasMsg = true)
      (htaken : s'.taken
        = s.taken ++ k.record (s.table i).pid (s.table i).mailbox) :
      Becomes s a s' i ((s.table i).drain.got (s.table i).mailbox k)
  | exited (hi : i = a.actor) (ha : a = .exitFinal i)
      (hpc : (s.table i).pc = .exiting) :
      Becomes s a s' i { (s.table i).drain with life := .zombie }
  | back (hi : i = a.actor) (r : Int)
      (hpc : (s.table i).Asks a ∨ (s.table i).pc = .waitLoop
        ∨ ∃ t, (s.table i).pc = .forked t true) :
      Becomes s a s' i ((s.table i).goto (.ret false) r)
  | forking (hi : i = a.actor) (t : Nat) (ha : a = .fork a.actor)
      (hpc : (s.table i).pc = .user) :
      Becomes s a s' i { s.table i with pc := .forked t false }
  | cleared (hi : i = a.actor) (t : Nat) (hpc : (s.table i).pc = .forked t false)
      (hdrain : s'.table t = (s.table t).drain) :
      Becomes s a s' i { s.table i with pc := .forked t true }
  | suicide (hi : i = a.actor) (pid r : Int) (ha : a = .kill a.actor pid)
      (hpc : (s.table i).pc = .user) (hfind : s.findPid pid = some i) :
      Becomes s a s' i (Core.goto { s.table i with killed := true } (.ret false) r)
  | fault (hi : i = a.actor) (ha : a = .fault i) :
      Becomes s a s' i { s.table i with killed := true }
  | registered (hi : i = a.actor) (ha : a = .register i)
      (hpc : (s.table i).pc = .user) :
      Becomes s a s' i ((s.table i).goto (.ret false) 0)

/-- The slot is alive, or the step is one of a live process. -/
theorem becomes_of_eff (hw : Wf s) (heff : Eff s a s') (i : Nat)
    (halive : (s.table a.actor).life = .alive ∨ (s.table i).life = .alive) :
    Becomes s a s' i (s'.table i) := by
  -- the three shapes of a change
  have hone : ∀ {c : Core}, s'.table = update s.table a.actor c →
      Becomes s a s' a.actor c → Becomes s a s' i (s'.table i) := by
    intro c htable hc
    rw [htable]
    by_cases hi : i = a.actor
    · subst hi
      rwa [update_self]
    · rw [update_of_ne hi]
      exact .same hi
  have hself : ∀ {c : Core} {g : Core → Core},
      s'.table = s.table.set₂ a.actor c a.actor g → Becomes s a s' a.actor (g c) →
      Becomes s a s' i (s'.table i) := by
    intro c g htable hg
    unfold Table.set₂ at htable
    rw [update_self, update_idem] at htable
    exact hone htable hg
  have htwo : ∀ {t : Nat} {c : Core} {g : Core → Core},
      s'.table = s.table.set₂ t c a.actor g → t ≠ a.actor → Becomes s a s' t c →
      Becomes s a s' a.actor (g (s.table a.actor)) → Becomes s a s' i (s'.table i) := by
    intro t c g htable hne ht hg
    rw [htable]
    by_cases hi : i = a.actor
    · subst hi
      rwa [Table.set₂_self, update_of_ne hne.symm]
    rw [Table.set₂_of_ne hi]
    by_cases hit : i = t
    · subst hit
      rwa [update_self]
    · rw [update_of_ne hit]
      exact .same hi
  -- the slot of another lifetime is not the actor's
  have hdead : ∀ {t : Nat} {c : Core} {g : Core → Core},
      s'.table = s.table.set₂ t c a.actor g → (s.table t).life ≠ .alive →
      (t ≠ a.actor → Becomes s a s' t c) →
      Becomes s a s' a.actor (g (s.table a.actor)) → Becomes s a s' i (s'.table i) := by
    intro t c g htable hlife ht hg
    by_cases hne : t = a.actor
    · subst hne
      have hi : i ≠ a.actor := by
        rintro rfl
        exact hlife (halive.elim id id)
      rw [htable, Table.set₂_of_ne hi, update_of_ne hi]
      exact .same hi
    · exact htwo htable hne (ht hne) hg
  cases heff with
  | quiet pc r hmove htable => exact hone htable (.moved rfl pc r hmove htable)
  | store pid t m k r hs hempty htable _ _ _ _ _ htaken =>
    by_cases ht : t = a.actor
    · subst ht
      exact hself htable (.sentSelf rfl pid m k r hs hempty htaken)
    · refine htwo htable ht (.filled ht pid m k hs hempty ?_ htaken)
        (.sent rfl pid t m k r hs hempty ?_ htaken)
      · rw [htable, Table.set₂_self]
        rfl
      · rw [htable, Table.set₂_of_ne ht, update_self]
  | took k hpc hfull htable _ _ _ htaken =>
    exact hone htable (.took rfl k hpc hfull htaken)
  | zombie ha hpc htable => exact hone htable (.exited rfl ha hpc)
  | reap t r hpc hlife htable =>
    exact hdead htable (by simp [hlife]) (fun hi => .reaped hi hlife)
      (.back rfl r (hpc.imp_right Or.inl))
  | alloc t ha ht hpc hlife htable =>
    exact hdead htable (by simp [hlife]) (fun hi => .alloc hi hlife)
      (.forking rfl t ha hpc)
  | reset t hpc htable =>
    have hne : t ≠ a.actor := by
      rintro rfl
      have hlife := hw.alive_of_pc (i := a.actor) (by simp [hpc]) (by simp [hpc])
      simp [hw.fork_slot _ _ _ hpc] at hlife
    refine htwo htable hne (.reset hne hpc) (.cleared rfl t hpc ?_)
    rw [htable, Table.set₂_of_ne hne, update_self]
  | unalloc t r hpc htable =>
    exact hdead htable (by simp [hw.fork_slot _ t _ hpc])
      (fun hi => .unalloc hi hpc) (.back rfl r (Or.inr (Or.inr ⟨t, hpc⟩)))
  | born t r ha hpc htable =>
    exact hdead htable (by simp [hw.fork_slot _ t _ hpc])
      (fun hi => .born hi ha hpc) (.back rfl r (Or.inr (Or.inr ⟨t, hpc⟩)))
  | kill t pid r ha hpc hfind htable =>
    by_cases ht : t = a.actor
    · subst ht
      exact hself htable (.suicide rfl pid r ha hpc hfind)
    · exact htwo htable ht (.killed ht pid ha hfind)
        (.back rfl r (Or.inl ⟨hpc, by rw [ha]; rfl⟩))
  | fault ha htable => exact hone htable (.fault rfl ha)
  | register ha hpc htable => exact hone htable (.registered rfl ha hpc)

/-- A process past its `exit` moves nowhere. -/
theorem Move.exiting {p : Core} {pc : Pc} (h : Move s p a pc r)
    (hp : p.pc = .exiting) : pc = .exiting := by
  cases h with
  | sched | yield => exact hp
  | exitQuietly => rfl
  | sendWait _ _ _ _ _ hs => simpa [hp] using hs.pc
  | _ => simp_all [Core.Asks]

/-- Inside `ipc_recv_msg` without a message, a process goes on waiting or
gives up. -/
theorem Move.receiving {p : Core} {pc : Pc} {k : RecvFor}
    (h : Move s p a pc r) (hp : p.pc = .toRecv k ∨ p.pc = .recvLoop k) :
    (pc = p.pc ∧ r = p.retval) ∨ (p.hasMsg = false ∧ (pc = .recvLoop k ∧ r = p.retval
      ∨ pc = .ret false ∧ p.killed = true ∧ r = -1)) := by
  cases h with
  | sched | yield => exact Or.inl ⟨rfl, rfl⟩
  | recvFail _ _ _ hk hempty => exact Or.inr ⟨hempty, Or.inr ⟨rfl, hk, rfl⟩⟩
  | recvWait _ k' hpc hempty =>
    have hk : k' = k := by
      rcases hp with hp | hp <;> rcases hpc with hpc | hpc <;> simp_all
    exact Or.inr ⟨hempty, Or.inl ⟨by rw [hk], rfl⟩⟩
  | sendWait _ _ _ _ _ hs =>
    have := hs.pc
    rcases hp with hp | hp <;> simp [hp] at this
  | _ => rcases hp with hp | hp <;> simp_all [Core.Asks]

-- ==== fsserver_pid

/-- `fsserver_pid` is written by `register_fsserver` and by the server's
own exit. -/
theorem fsserver_of_eff (heff : Eff s a s') :
    s'.fsserverPid = s.fsserverPid
      ∨ (a = .register a.actor ∧ s'.fsserverPid = (s.table a.actor).pid)
      ∨ (a = .exitFinal a.actor ∧ s.fsserverPid = (s.table a.actor).pid
        ∧ s'.fsserverPid = -1) := by
  cases heff with
  | quiet _ _ _ _ hframe | reap _ _ _ _ _ hframe | reset _ _ _ hframe
  | unalloc _ _ _ _ hframe | born _ _ _ _ _ hframe | kill _ _ _ _ _ _ _ hframe
  | fault _ _ hframe => exact .inl hframe.fsserverPid
  | store _ _ _ _ _ _ _ _ _ hfs | took _ _ _ _ _ hfs | alloc _ _ _ _ _ _ _ hfs =>
    exact .inl hfs
  | zombie ha _ _ _ hfs =>
    by_cases h : s.fsserverPid = (s.table a.actor).pid
    · rw [if_pos h] at hfs
      exact .inr (.inr ⟨ha, h, hfs⟩)
    · rw [if_neg h] at hfs
      exact .inl hfs
  | register ha _ _ _ hfs => exact .inr (.inl ⟨ha, hfs⟩)

-- ==== inside the message functions

/-- At the start of `ipc_send_msg` or `ipc_recv_msg`, or in its loop. -/
def Pc.startsIpc : Pc → Bool
  | .toSend _ _ _ | .toRecv _ => true
  | _ => false

def Pc.loopsIpc : Pc → Bool
  | .sendLoop _ _ _ _ | .recvLoop _ => true
  | _ => false

/-- A process inside one of the two gets on by `enter` from its start, and
by `sched` from its loop. -/
theorem ipc_step (hs : step s a = some s') {pc : Pc} (hpc : (s.procs a.actor).pc = pc)
    (hin : pc.startsIpc = true ∨ pc.loopsIpc = true) :
    (a = .enter a.actor ∧ pc.startsIpc = true)
      ∨ (a = .sched a.actor ∧ pc.loopsIpc = true)
      ∨ (s'.table a.actor).pc = (s.table a.actor).pc := by
  cases a with
  | enter i =>
    have hpc : (s.procs i).pc = pc := hpc
    rcases hin with hin | hin
    · exact .inl ⟨rfl, hin⟩
    have hact := step_running hs (by simp)
    simp only [act, hpc] at hact
    cases pc with
    | sendLoop | recvLoop => cases hact
    | _ => cases hin
  | sched i =>
    have hpc : (s.procs i).pc = pc := hpc
    rcases hin with hin | hin
    · right; right
      unfold step at hs
      split at hs
      next =>
        dsimp only at hs
        split at hs
        next =>
          cases hs
          unfold resume
          rw [hpc]
          cases pc with
          | toSend | toRecv =>
            rw [table_modify]
            exact update_proj Core.pc (by rfl) i
          | _ => cases hin
        next => cases hs
      next => cases hs
    · exact .inr (.inl ⟨rfl, hin⟩)
  | yield i =>
    have hact := step_running hs (by simp)
    cases hact
    right; right
    rw [table_modify]
    exact update_proj Core.pc (by rfl) i
  | sysret i | send i | recv i | exit i | exitFinal i | wait i | fork i
  | forkReset i | forkFail i | forkDone i | kill i | fault i | register i =>
    have hact := step_running hs (by simp)
    have hpc : (s.procs i).pc = pc := hpc
    simp only [act, hpc] at hact
    cases pc with
    | toSend | sendLoop | toRecv | recvLoop => cases hact
    | _ => rcases hin with hin | hin <;> cases hin
  | call i req =>
    have hact := step_running hs (by simp)
    have hpc : (s.procs i).pc = pc := hpc
    simp only [act, hpc] at hact
    split at hact
    next =>
      cases pc with
      | toSend | sendLoop | toRecv | recvLoop => cases hact
      | _ => rcases hin with hin | hin <;> cases hin
    next => cases hact

theorem sender_step (hs : step s a = some s') {msg : IpcMsg}
    (hpc : (s.procs a.actor).pc = .toSend pid msg kd) :
    a = .enter a.actor ∨ (s'.table a.actor).pc = (s.table a.actor).pc := by
  rcases ipc_step hs hpc (.inl rfl) with h | h | h
  · exact .inl h.1
  · cases h.2
  · exact .inr h

theorem waiter_step (hs : step s a = some s') {m : IpcMsg}
    (hpc : (s.procs a.actor).pc = .sendLoop pid t m kd) :
    a = .sched a.actor ∨ (s'.table a.actor).pc = (s.table a.actor).pc := by
  rcases ipc_step hs hpc (.inr rfl) with h | h | h
  · cases h.2
  · exact .inl h.1
  · exact .inr h

end Xv6FsServer.Ipc
