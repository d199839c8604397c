/-
Who may use the disk.

`sys_disk_request` serves whoever `fsserver_pid` named when the call read
it. That would be the registered server, if a process could not register
over another one: `register_fsserver` takes any caller at any time.

`Alone` says that nobody registers while somebody else is the server, and that
no call is given a buffer outside its caller's memory, which `argptr` would let
through and which may be where `fsserver_pid` is. Then a copy of
`fsserver_pid` that still names its reader is up to date
(`AuthInv`), for only the reader itself could have changed it. So from the
moment a process registers until it exits, nobody else reaches the disk
(`disk_authority`).
-/
import Xv6FsServer.Ipc.DiskRequest
import Xv6FsServer.Ipc.Proofs.Delivery
import Xv6FsServer.Syscall.Proofs.Buffers

namespace Xv6FsServer.Ipc

open Lib Function

variable {s s' : Kernel} {a : Act} {β : Type*} {w w' : Machine β}
variable {i : Nat} {before : List Access}
variable {b : DiskAct β} {f : Proc → Proc} {k : Kernel} {p : Nat}

-- ==== the condition

theorem registered (hs : step s (.register i) = some s') :
    s'.fsserverPid = (s.procs i).pid := by
  have hact := step_running hs (by simp)
  unfold act at hact
  dsimp only at hact
  split at hact
  next =>
    cases hact
    rfl
  next => cases hact

/-- Nobody registers while another process is the server, and buffers lie in
their caller's memory. -/
def Alone (w : Machine β) : DiskAct β → Prop
  | .kernel (.register i) =>
    w.kernel.fsserverPid < 0 ∨ w.kernel.fsserverPid = (w.kernel.procs i).pid
  | .fill _ c a _ => 0 ≤ a.size ∧ c.arg.toNat + a.size.toInt.toNat ≤ c.sz.toNat
  | _ => True

instance (w : Machine β) : ∀ a, Decidable (Alone w a)
  | .kernel a =>
    match a with
    | .register i => inferInstanceAs (Decidable
        (w.kernel.fsserverPid < 0
          ∨ w.kernel.fsserverPid = (w.kernel.procs i).pid))
    | .sched _ | .yield _ | .enter _ | .sysret _ | .send _ _ _ | .recv _
    | .call _ _ | .exit _ | .exitFinal _ | .wait _ | .fork _ | .forkReset _
    | .forkFail _ | .forkDone _ | .kill _ _ | .fault _ => isTrue trivial
  | .ask _ => isTrue trivial
  | .serve _ _ => isTrue trivial
  | .fill _ c a _ => inferInstanceAs (Decidable (0 ≤ a.size ∧ _ ≤ c.sz.toNat))

/-- A call uses a buffer in its caller's memory as it is. -/
theorem not_stray {c : Syscall.Caller} {a : Syscall.Call} (h0 : 0 ≤ a.size)
    (hfit : c.arg.toNat + a.size.toInt.toNat ≤ c.sz.toNat) : strayPointer c a = none := by
  refine Option.filter_eq_none_iff.mpr fun p hp => ?_
  obtain ⟨rfl, hne⟩ := Syscall.call_through c a p hp
  have hpos := Int32.lt_of_le_of_ne h0 hne.symm
  have harg : (Syscall.argptr c a.size).2 = c.arg := by
    rw [Syscall.argptr_pointer hpos]
    rw [Syscall.pos_iff] at hpos
    exact if_pos (by omega)
  rw [harg, decide_eq_true_eq]
  omega

-- ==== the steps

/-- What a step of the machine can do. -/
inductive DiskStep (w : Machine β) : DiskAct β → Machine β → Prop
  | kernel (a : Act) (k : Kernel) (hk : step w.kernel a = some k)
      (hin : (w.asked a.actor).isSome → a.isScheduling = true) :
      DiskStep w (.kernel a) { w with kernel := k }
  | ask (i : Nat) (hrun : (w.kernel.procs i).state = .running) :
      DiskStep w (.ask i) (w.ask i)
  | finish (i : Nat) (args : Option (DiskRequest β)) (w' : Machine β) (r : Int)
      (hasked : (w.asked i).isSome)
      (hkernel : w'.kernel = w.kernel) (hold : w'.asked = w.asked)
      (haccess : w'.accesses = w.accesses ∨ ∃ d v, w'.accesses = w.accesses ++ [d]
        ∧ d.pid = (w.kernel.procs i).pid ∧ w.asked i = some v ∧ 0 < v
        ∧ ((w.kernel.procs i).pid : Int) = v) :
      DiskStep w (.serve i args) (w'.finish i r)
  | refuse (i : Nat) (args : Option (DiskRequest β)) (hasked : (w.asked i).isSome) :
      DiskStep w (.serve i args) (w.refuse i)
  | fill (i : Nat) (c : Syscall.Caller) (a : Syscall.Call) (k : Kernel) (w' : Machine β)
      (hsame : strayPointer c a = none → w' = w) : DiskStep w (.fill i c a k) w'

theorem diskStep_of_serve {pid : Int} {args : Option (DiskRequest β)}
    (hasked : w.asked i = some pid) (h : w.serve i pid args = some w') :
    DiskStep w (.serve i args) w' := by
  have hsome : (w.asked i).isSome := by
    rw [hasked]
    rfl
  cases args with
  | none =>
    cases h
    exact .finish i none w (-1) hsome rfl rfl (.inl rfl)
  | some r =>
    unfold Machine.serve at h
    dsimp only at h
    split at h
    next =>
      cases h
      exact .refuse i _ hsome
    next hpid =>
      obtain ⟨hpos, heq⟩ := not_or.mp hpid
      split at h
      next =>
        split at h
        next =>
          cases h
          exact .finish i _ _ 0 hsome rfl rfl (.inr ⟨_, pid, rfl, rfl, hasked,
            not_le.mp hpos, not_not.mp heq⟩)
        next => cases h
      next =>
        split at h
        next =>
          split at h
          next =>
            cases h
            exact .finish i _ _ 0 hsome rfl rfl (.inr ⟨_, pid, rfl, rfl, hasked,
              not_le.mp hpos, not_not.mp heq⟩)
          next => cases h
        next =>
          cases h
          exact .finish i _ w (-1) hsome rfl rfl (.inl rfl)

theorem diskStep_of_step (h : w.step b = some w') :
    DiskStep w b w' := by
  cases b with
  | kernel a =>
    unfold Machine.step at h
    dsimp only at h
    split at h
    next => cases h
    next hin =>
      split at h
      next k hk =>
        cases h
        refine .kernel a k hk fun hasked => ?_
        cases hsch : a.isScheduling with
        | true => rfl
        | false =>
          rw [hasked, hsch] at hin
          exact absurd rfl hin
      next => cases h
  | ask i =>
    unfold Machine.step at h
    dsimp only at h
    split at h
    next hrun =>
      split at h
      next =>
        cases h
        exact .ask i hrun.2
      next => cases h
    next => cases h
  | serve i args =>
    unfold Machine.step at h
    dsimp only at h
    split at h
    next =>
      split at h
      next pid hasked => exact diskStep_of_serve hasked h
      next => cases h
    next => cases h
  | fill i c a k =>
    refine .fill i c a k w' fun hstray => ?_
    unfold Machine.step at h
    dsimp only at h
    rw [hstray] at h
    split at h
    next =>
      split at h
      next => exact (Option.some.inj h).symm
      next => cases h
    next => cases h

-- ==== the invariant

/-- Who is inside the call is alive, and if the copy of `fsserver_pid` it
has read names itself, that is what `fsserver_pid` still is. -/
structure AuthInv (w : Machine β) : Prop where
  wf : Wf w.kernel
  caller : ∀ i v, w.asked i = some v → (w.kernel.table i).life = .alive
  fresh : ∀ i v, w.asked i = some v → 0 < v →
    ((w.kernel.table i).pid : Int) = v → w.kernel.fsserverPid = v

/-- The end of a call changes the caller's place, and it may kill it. -/
theorem Wf.returned (h : Wf s) (halive : (s.table i).life = .alive)
    (hf : (f (s.procs i)).core.life = (s.table i).life
      ∧ (f (s.procs i)).core.pid = (s.table i).pid)
    (hpc : (f (s.procs i)).core.pc = .ret false) : Wf (s.modify i f) := by
  refine h.of_pc rfl (fun j => ?_) (fun j => ?_) fun j => ?_
  · rw [table_modify]
    exact update_proj Core.pid hf.2 j
  · rw [table_modify]
    exact update_proj Core.life hf.1 j
  · rw [table_modify]
    by_cases hj : j = i
    · subst hj
      rw [update_self]
      refine .inr ⟨halive, fun t c => ?_⟩
      rw [hpc]
      nofun
    · rw [update_of_ne hj]
      exact .inl rfl

/-- The caller leaves the call; nothing the others see has changed. -/
theorem AuthInv.leave (h : AuthInv w) (hasked : (w.asked i).isSome)
    (hf : (f (w.kernel.procs i)).core.life = (w.kernel.table i).life
      ∧ (f (w.kernel.procs i)).core.pid = (w.kernel.table i).pid)
    (hpc : (f (w.kernel.procs i)).core.pc = .ret false)
    (hkernel : w'.kernel = w.kernel.modify i f) (hold : w'.asked = update w.asked i none) :
    AuthInv w' := by
  obtain ⟨v, hv⟩ := Option.isSome_iff_exists.mp hasked
  have hmine : ∀ {j u}, w'.asked j = some u → w.asked j = some u := by
    intro j u hj
    rw [hold] at hj
    by_cases hji : j = i
    · subst hji
      rw [update_self] at hj
      cases hj
    · rw [update_of_ne hji] at hj
      exact hj
  refine ⟨?_, fun j u hj => ?_, fun j u hj hpos hpid => ?_⟩
  · rw [hkernel]
    exact h.wf.returned (h.caller i v hv) hf hpc
  · rw [hkernel, table_modify]
    exact (update_proj Core.life hf.1 j).trans (h.caller j u (hmine hj))
  · rw [hkernel, table_modify] at hpid
    have hsame := update_proj (T := w.kernel.table) Core.pid hf.2 j
    rw [hsame] at hpid
    rw [hkernel]
    exact h.fresh j u (hmine hj) hpos hpid

theorem auth_kernel (h : AuthInv w) (hok : Alone w (.kernel a))
    (hk : step w.kernel a = some k)
    (hin : (w.asked a.actor).isSome → a.isScheduling = true) :
    AuthInv { w with kernel := k } := by
  obtain ⟨halive, heff⟩ := eff_of_step hk
  -- a caller does not leave `exit` or register
  have hother : ∀ {i v}, w.asked i = some v → a.isScheduling = false →
      i ≠ a.actor := by
    intro i v hi hsch he
    have hsome : (w.asked a.actor).isSome := by
      rw [← he, hi]
      rfl
    cases hsch.symm.trans (hin hsome)
  refine ⟨wf_step h.wf hk, fun i v hi => ?_, fun i v hi hpos hpid => ?_⟩
  · rcases (alive_of_eff h.wf heff (h.caller i v hi)).2 with hl | ha
    · exact hl
    · have hne := hother hi (by rw [ha]; rfl)
      rw [ha] at hne
      exact absurd rfl hne
  · have hlive := h.caller i v hi
    have hpid : ((w.kernel.table i).pid : Int) = v := by
      rw [← (alive_of_eff h.wf heff hlive).1]
      exact hpid
    have hfs := h.fresh i v hi hpos hpid
    -- whoever changed `fsserver_pid` had the caller's own pid
    have hself : (w.kernel.fsserverPid = (w.kernel.table a.actor).pid) →
        a.isScheduling = false → False := by
      intro he hsch
      refine hother hi hsch (h.wf.pid_inj i a.actor ?_ ?_)
      · have : ((w.kernel.table i).pid : Int) = (w.kernel.table a.actor).pid := by
          rw [hpid, ← he, hfs]
        exact_mod_cast this
      · omega
    rcases fsserver_of_eff heff with hsame | ⟨ha, -⟩ | ⟨ha, he, -⟩
    · exact hsame.trans hfs
    · rw [ha] at hok
      rcases hok with hneg | he
      · omega
      · exact (hself he (by rw [ha]; rfl)).elim
    · exact (hself he (by rw [ha]; rfl)).elim

theorem auth_step (h : AuthInv w) (hok : Alone w b)
    (hs : w.step b = some w') : AuthInv w' := by
  cases diskStep_of_step hs with
  | kernel a k hk hin => exact auth_kernel h hok hk hin
  | ask i hrun =>
    refine ⟨h.wf, fun j v hj => ?_, fun j v hj hpos hpid => ?_⟩
    · have hj : update w.asked i (some w.kernel.fsserverPid) j = some v := hj
      by_cases hji : j = i
      · subst hji
        exact life_of_state hrun
      · rw [update_of_ne hji] at hj
        exact h.caller j v hj
    · have hj : update w.asked i (some w.kernel.fsserverPid) j = some v := hj
      by_cases hji : j = i
      · subst hji
        rw [update_self] at hj
        exact Option.some.inj hj
      · rw [update_of_ne hji] at hj
        exact h.fresh j v hj hpos hpid
  | finish i args u r hasked hkernel hold =>
    refine h.leave hasked (f := fun p => p.return r false) ⟨rfl, rfl⟩ rfl ?_ ?_
    · unfold Machine.finish
      rw [hkernel]
    · unfold Machine.finish
      rw [hold]
  | refuse i args hasked =>
    exact h.leave hasked
      (f := fun p => { p.return (-1) false with killed := true }) ⟨rfl, rfl⟩ rfl
      rfl rfl
  | fill i c a k _ hsame =>
    rw [hsame (not_stray hok.1 hok.2)]
    exact h

theorem auth_boot (disksize : Nat) (disk : Nat → β) :
    AuthInv (Machine.boot disksize disk) :=
  ⟨wf_boot, fun _ _ h => (nomatch h), fun _ _ h => (nomatch h)⟩

-- ==== the window

/-- The process in slot `i`, with pid `p`, is the server, and since
`before` nobody else has reached the disk. -/
structure Serving (i p : Nat) (before : List Access) (w : Machine β) : Prop where
  auth : AuthInv w
  alive : (w.kernel.table i).life = .alive
  pid : (w.kernel.table i).pid = p
  server : w.kernel.fsserverPid = p
  own : ∃ new, w.accesses = before ++ new ∧ ∀ d ∈ new, d.pid = p

theorem Serving.pos (h : Serving i p before w) : p ≠ 0 := by
  rw [← h.pid]
  exact h.auth.wf.occupied i (by rw [h.alive]; nofun)

theorem serving_kernel (h : Serving i p before w) (hok : Alone w (.kernel a))
    (hne : a ≠ .exitFinal i) (hk : step w.kernel a = some k)
    (hauth : AuthInv { w with kernel := k }) :
    Serving i p before { w with kernel := k } := by
  obtain ⟨-, heff⟩ := eff_of_step hk
  obtain ⟨hpid, hlife⟩ := alive_of_eff h.auth.wf heff h.alive
  refine ⟨hauth, ?_, hpid.trans h.pid, ?_, h.own⟩
  · rcases hlife with hl | ha
    · exact hl
    · exact absurd ha hne
  · have hpos := h.pos
    rcases fsserver_of_eff heff with hsame | ⟨ha, hnew⟩ | ⟨ha, he, -⟩
    · exact hsame.trans h.server
    · rw [ha] at hok
      rcases hok with hneg | he
      · rw [h.server] at hneg
        omega
      · exact hnew.trans (he.symm.trans h.server)
    · -- the server is in slot `i`, and that is who would have exited
      have hslot : i = a.actor := by
        refine h.auth.wf.pid_inj i a.actor ?_ ?_
        · rw [h.server] at he
          rw [h.pid]
          exact_mod_cast he
        · rw [h.pid]
          exact hpos
      rw [← hslot] at ha
      exact absurd ha hne

theorem serving_step (h : Serving i p before w)
    (hok : Alone w b) (hne : b ≠ .kernel (.exitFinal i)) (hs : w.step b = some w') :
    Serving i p before w' := by
  have hauth := auth_step h.auth hok hs
  -- the end of a call keeps lifetimes and pids
  have hleave : ∀ {j : Nat} {f : Proc → Proc},
      (f (w.kernel.procs j)).core.life = (w.kernel.table j).life →
      (f (w.kernel.procs j)).core.pid = (w.kernel.table j).pid →
      w'.kernel = w.kernel.modify j f →
      (w'.kernel.table i).life = .alive ∧ (w'.kernel.table i).pid = p
        ∧ w'.kernel.fsserverPid = p := by
    intro j f hl hp hkernel
    rw [hkernel, table_modify]
    exact ⟨(update_proj Core.life hl i).trans h.alive,
      (update_proj Core.pid hp i).trans h.pid, h.server⟩
  cases diskStep_of_step hs with
  | kernel a k hk hin =>
    exact serving_kernel h hok (fun he => hne (congrArg DiskAct.kernel he)) hk hauth
  | ask j hrun => exact ⟨hauth, h.alive, h.pid, h.server, h.own⟩
  | finish j args u r hasked hkernel hold haccess =>
    obtain ⟨hl, hp, hfs⟩ := hleave (j := j) (f := fun p => p.return r false) rfl rfl
      (by unfold Machine.finish; dsimp only; rw [hkernel])
    obtain ⟨new, hnew, hown⟩ := h.own
    refine ⟨hauth, hl, hp, hfs, ?_⟩
    rcases haccess with hsame | ⟨d, v, hd, hdpid, hv, hpos, hcaller⟩
    · exact ⟨new, hsame.trans hnew, hown⟩
    · refine ⟨new ++ [d], ?_, fun e he => ?_⟩
      · show u.accesses = _
        rw [hd, hnew, List.append_assoc]
      · rcases List.mem_append.mp he with he | he
        · exact hown e he
        · rw [List.mem_singleton.mp he, hdpid]
          have hfresh := h.auth.fresh j v hv hpos hcaller
          have : ((w.kernel.procs j).pid : Int) = p := by
            rw [hcaller, ← hfresh, h.server]
          exact_mod_cast this
  | refuse j args hasked =>
    obtain ⟨hl, hp, hfs⟩ := hleave (j := j)
      (f := fun p => { p.return (-1) false with killed := true }) rfl rfl rfl
    exact ⟨hauth, hl, hp, hfs, h.own⟩
  | fill j c a k _ hsame =>
    rw [hsame (not_stray hok.1 hok.2)]
    exact h

/-- In every run in which nobody registers while another process is the server
and every call is given a buffer in its caller's memory: from the step with which
a process registers until it exits, `fsserver_pid` is its pid and every block that
is read or written is read or written for it. -/
theorem disk_authority (disksize : Nat) (disk : Nat → β)
    (acts₁ acts₂ : List (DiskAct β)) (w₁ w₂ w₃ : Machine β) (i : Nat)
    (hok : Along Machine.step Alone (.boot disksize disk)
      (acts₁ ++ .kernel (.register i) :: acts₂))
    (h₁ : runs Machine.step (.boot disksize disk) acts₁ = some w₁)
    (hreg : w₁.step (.kernel (.register i)) = some w₂)
    (h₂ : runs Machine.step w₂ acts₂ = some w₃)
    (hstays : DiskAct.kernel (.exitFinal i) ∉ acts₂) :
    w₃.kernel.fsserverPid = (w₁.kernel.procs i).pid
      ∧ ∃ new, w₃.accesses = w₂.accesses ++ new
        ∧ ∀ d ∈ new, d.pid = (w₁.kernel.procs i).pid := by
  obtain ⟨hok₁, hok₂⟩ := hok.append h₁
  obtain ⟨hokreg, hok₂⟩ := hok₂.cons hreg
  have hauth := Along.invariant (fun _ _ _ h ha hs => auth_step h ha hs)
    (auth_boot disksize disk) hok₁ h₁
  have hauth₂ := auth_step hauth hokreg hreg
  have hstart : Serving i (w₁.kernel.procs i).pid w₂.accesses w₂ := by
    cases diskStep_of_step hreg with
    | kernel _ k hk hin =>
      obtain ⟨halive, heff⟩ := eff_of_step hk
      obtain ⟨hpid, hlife⟩ := alive_of_eff hauth.wf heff halive
      refine ⟨hauth₂, ?_, hpid, ?_, [], (List.append_nil _).symm, nofun⟩
      · rcases hlife with hl | ha
        · exact hl
        · cases ha
      · exact registered hk
  have hstay : Along Machine.step (fun _ b => b ≠ .kernel (.exitFinal i)) w₂ acts₂ := by
    refine Along.of_labels (fun b hb _ => ?_) w₂
    intro he
    rw [he] at hb
    exact hstays hb
  have hend := Along.invariant
    (fun _ _ _ h ha hs => serving_step h ha.1 ha.2 hs) hstart (hok₂.and hstay) h₂
  exact ⟨hend.server, hend.own⟩

/-- Init registers, reads block 5, writes it, and reads a pipe into its memory. -/
def initServes : List (DiskAct Nat) :=
  [.kernel (.sysret 0), .ask 0, .serve 0 (some ⟨5, 0, 0⟩), .kernel (.sysret 0),
    .ask 0, .serve 0 (some ⟨5, 7, 1⟩), .kernel (.sysret 0),
    .fill 0 ⟨4096, 8192, 0, fun _ => .noTable, some 8⟩
      (.sysRead (some ⟨true, false, .pipe (.ready 8)⟩) 8) boot]

theorem disk_authority_initServes :
    ∃ w₁ w₂ w₃ : Machine Nat,
      runs Machine.step (.boot 10 fun _ => 0) [.kernel (.sched 0)] = some w₁
      ∧ w₁.step (.kernel (.register 0)) = some w₂
      ∧ runs Machine.step w₂ initServes = some w₃
      ∧ w₃.accesses = [⟨1, 5, false⟩, ⟨1, 5, true⟩]
      ∧ w₃.kernel.fsserverPid = (w₁.kernel.procs 0).pid := by
  have hrun : (runs Machine.step (Machine.boot 10 fun _ => 0)
      ([.kernel (.sched 0)] ++ .kernel (.register 0) :: initServes)).map
      Machine.accesses = some [⟨1, 5, false⟩, ⟨1, 5, true⟩] := by decide
  obtain ⟨w₃, hw, hacc⟩ := Option.map_eq_some_iff.mp hrun
  obtain ⟨w₁, h₁, hw⟩ := runs_append_some hw
  obtain ⟨w₂, hreg, h₂⟩ := runs_cons hw
  refine ⟨w₁, w₂, w₃, h₁, hreg, h₂, hacc, ?_⟩
  refine (disk_authority 10 _ _ initServes w₁ w₂ w₃ 0 ?_ h₁ hreg h₂ ?_).1
  · decide
  · simp [initServes]

/-- The same process reads a pipe to the address of `fsserver_pid`, and is the
server without having registered. -/
theorem disk_seized :
    (runs Machine.step (Machine.boot 10 fun _ => 0)
      [.kernel (.sched 0), .kernel (.register 0), .kernel (.sysret 0),
        .kernel (.fork 0), .kernel (.forkReset 0), .kernel (.forkDone 0),
        .kernel (.sched 1)]).bind (fun w => (runs Machine.step w
          [.fill 1 ⟨0xFFFF800000002000, 0x4000, 0, fun _ => .noTable, some 4⟩
            (.sysRead (some ⟨true, false, .pipe (.ready 4)⟩) 4)
            { w.kernel with fsserverPid := 2 }, .ask 1, .serve 1 (some ⟨5, 0, 0⟩)]).map
        fun w => (w.kernel.fsserverPid, w.accesses))
      = some (2, [⟨2, 5, false⟩]) := by
  decide

/-- Another process registers after init and reads a block. -/
theorem disk_stolen :
    (runs Machine.step (Machine.boot 10 fun _ => 0)
      [.kernel (.sched 0), .kernel (.register 0), .kernel (.sysret 0),
        .kernel (.fork 0), .kernel (.forkReset 0), .kernel (.forkDone 0),
        .kernel (.sched 1), .kernel (.register 1), .kernel (.sysret 1), .ask 1,
        .serve 1 (some ⟨5, 0, 0⟩)]).map
      (fun w => (w.kernel.fsserverPid, w.accesses, (w.kernel.procs 0).state))
      = some (2, [⟨2, 5, false⟩], .running) := by
  decide

end Xv6FsServer.Ipc
