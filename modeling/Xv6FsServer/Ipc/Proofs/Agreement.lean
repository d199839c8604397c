/-
Requests and replies agree.

`ProtoInv` is the invariant of the whole protocol: processes keep to their
roles, the server is where its loop says, and every client's books are
right. It survives every step the roles permit (`proto_step`), whatever
the handlers compute and however the steps interleave.

Two results come out of it, one for each side of the trust question.

- `replies_authentic`: arbitrary other processes run beside the clients.
  `fs_ipc_call` looks at a message's type and request id only, so a `send`
  to a client is taken for the reply (`forged_reply`); as long as nobody
  does that, every reply is the server's, and in step.
- `request_reply_agreement`: clients that use nothing but the file calls
  and `exit` satisfy those conditions by themselves.
-/
import Xv6FsServer.Ipc.Proofs.Books

namespace Xv6FsServer.Ipc

open Lib Function

variable {σ : Type} {client : Nat → Bool}
variable {s s' : Kernel} {i : Nat} {b : WAct} {kd : SendFor}

-- ==== a server that has left

/-- A process past its `exit` stays there until it is reaped. -/
theorem exiting_of_eff {a : Act} (hw : Wf s)
    (halive : (s.table a.actor).life = .alive) (heff : Eff s a s')
    (hpc : (s.table i).pc = .exiting)
    (hlife : (s.table i).life = .alive ∨ (s.table i).life = .zombie)
    (hpid : (s'.table i).pid = (s.table i).pid) :
    (s'.table i).pc = .exiting
      ∧ ((s'.table i).life = .alive ∨ (s'.table i).life = .zombie) := by
  have hslot := becomes_of_eff hw heff i (Or.inl halive)
  generalize s'.table i = q at hslot hpid ⊢
  cases hslot with
  | same | filled | killed | fault => exact ⟨hpc, hlife⟩
  | exited => exact ⟨hpc, Or.inr rfl⟩
  | reaped _ h1 => exact absurd hpid.symm (hw.occupied i (by simp [h1]))
  | alloc _ h1 => simp [h1] at hlife
  | reset _ h1 | unalloc _ h1 | born _ _ h1 =>
    simp [hw.fork_slot _ i _ h1] at hlife
  | moved _ pc r hmove => exact ⟨hmove.exiting hpc, hlife⟩
  | sent _ _ _ _ _ _ hs | sentSelf _ _ _ _ _ hs => simpa [hpc] using hs.pc
  | took _ _ h1 | back _ _ h1 | forking _ _ _ h1 | cleared _ _ h1
  | suicide _ _ _ _ h1 | registered _ _ h1 => simp [hpc, Core.Asks] at h1

-- ==== what a call returned

/-- A process that is back from an `fs_ipc_call` with 0 has in its buffer
the message that call took, the last of its takes. -/
def Returned (s : Kernel) : Prop :=
  ∀ i, (s.procs i).pc = .ret true → (s.procs i).retval = 0
    ∧ ∃ req, (s.takenBy (s.procs i).pid).getLast? = some (req, (s.procs i).buf)

theorem Move.ret_true {a : Act} {p : Core} {pc : Pc} {r : Int} (h : Move s p a pc r)
    (hpc : pc = .ret true) : p.pc = .ret true ∧ r = p.retval := by
  cases h with
  | sched | yield => exact ⟨hpc, rfl⟩
  | sendFail _ k => cases k <;> cases hpc
  | _ => cases hpc

/-- Only the process itself takes for its pid, and from `ipc_recv_msg`. -/
theorem takenBy_of_eff {a : Act} (hw : Wf s) (heff : Eff s a s')
    (hpc : (s.table i).pc = .ret true) (hlife : (s.table i).life = .alive) :
    s'.takenBy (s.table i).pid = s.takenBy (s.table i).pid := by
  rcases taken_of_eff heff with ht | ⟨server, req, ht⟩
  · exact takenBy_same ht _
  refine ht.takenBy_other fun hpid => ?_
  obtain rfl : i = a.actor :=
    hw.pid_inj i a.actor hpid.symm (hw.occupied i (by simp [hlife]))
  simpa [hpc] using ht.pc

theorem returned_of_eff {a : Act} (hw : Wf s)
    (halive : (s.table a.actor).life = .alive)
    (heff : Eff s a s') (h : Returned s) : Returned s' := by
  intro i hpc
  change (s'.table i).pc = .ret true at hpc
  change (s'.table i).retval = 0 ∧ ∃ req, (s'.takenBy (s'.table i).pid).getLast?
    = some (req, (s'.table i).buf)
  have hlive : (s.table i).pc = .ret true → (s.table i).life = .alive := fun h1 =>
    hw.alive_of_pc (by simp [h1]) (by simp [h1])
  -- a process that was back before the step
  have hold : (s.table i).pc = .ret true → (s.table i).retval = 0
      ∧ ∃ req, (s'.takenBy (s.table i).pid).getLast?
        = some (req, (s.table i).buf) := by
    intro h1
    rw [takenBy_of_eff hw heff h1 (hlive h1)]
    exact h i h1
  have hslot := becomes_of_eff hw heff i (Or.inl halive)
  generalize s'.table i = q at hslot hpc ⊢
  cases hslot with
  | same | filled | killed | fault => exact hold hpc
  | reaped _ h1 | alloc _ h1 => cases h1.symm.trans (hlive hpc)
  | reset _ h1 | unalloc _ h1 => cases (hw.fork_slot _ i _ h1).symm.trans (hlive hpc)
  | moved _ pc r hmove =>
    obtain ⟨h1, h2⟩ := hmove.ret_true hpc
    rw [h2]
    exact hold h1
  | sent _ _ _ _ k | sentSelf _ _ _ k => cases k <;> cases hpc
  | exited _ _ h1 => cases h1.symm.trans hpc
  | took hi k hpc' hfull htaken =>
    cases k with
    | recv => cases hpc
    | call server req =>
      by_cases hacc : accepts req (s.table i).mailbox
      · rw [Core.got, if_pos hacc]
        refine ⟨rfl, req, ?_⟩
        exact (congrArg List.getLast? (takenBy_append htaken)).trans
          List.getLast?_concat
      · rw [Core.got, if_neg hacc] at hpc
        cases hpc
  | born | back | forking | cleared | suicide | registered => cases hpc

-- ==== one step

variable {w w' : World σ} {h : Handler σ} {a : Act} {k : Kernel}

theorem server_next (hwf : Wf w.kernel) (hsrv : ServerInv w)
    (halive : (w.kernel.table a.actor).life = .alive) (heff : Eff w.kernel a k)
    (hkill : ∀ i pid, a = .kill i pid → pid ≠ serverPid)
    (hprog : w.phase.isDone = false → a.actor = serverSlot → a.isProgram = false) :
    ServerInv { w with kernel := k } := by
  refine ⟨Nat.lt_of_lt_of_le hsrv.born (nextpid_of_eff heff), ?_, ?_⟩
  · intro hrun
    exact (server_of_eff hwf heff (hsrv.up hrun) hkill (hprog hrun)).1
  · intro hdone i hi
    have hi : (k.table i).pid = serverPid := hi
    have hborn := hsrv.born
    have hpid : (k.table i).pid = (w.kernel.table i).pid := by
      rcases pid_of_eff hwf halive heff i with h1 | h1 | h1
      · exact h1
      · cases hi.symm.trans h1
      · omega
    obtain ⟨h1, h2⟩ := hsrv.down hdone i (hpid.symm.trans hi)
    exact exiting_of_eff hwf halive heff h1 h2 hpid

theorem server_serve (hs : Serves h w w') (hwf : Wf w.kernel)
    (hsrv : ServerInv w) (hup : Up w.kernel w.phase) : ServerInv w' := by
  have hmake : ∀ {pc : Pc}, Moves w w' pc → serverPid < w'.kernel.nextpid
      ∧ (w'.phase.At (w.server.goto pc w.server.retval) →
        Up w'.kernel w'.phase) := by
    intro pc hm
    refine ⟨?_, fun hat => ⟨?_, ?_, ?_, ?_⟩⟩
    · rw [hm.frame.nextpid]
      exact hsrv.born
    · rw [hm.pid]
      exact hup.pid
    · rw [hm.table, update_self]
      exact hup.alive
    · rw [hm.table, update_self]
      exact hup.spared
    · rw [hm.table, update_self]
      exact hat
  cases hs with
  | recv hph hph' hmoves hsame =>
    obtain ⟨h1, h2⟩ := hmake hmoves
    refine ⟨h1, fun _ => h2 ?_, fun hdone => ?_⟩
    · rw [hph']
      exact Or.inl rfl
    · rw [hph'] at hdone
      cases hdone
  | again hph hph' hmoves hsame =>
    obtain ⟨h1, h2⟩ := hmake hmoves
    refine ⟨h1, fun _ => h2 ?_, fun hdone => ?_⟩
    · rw [hph']
      rfl
    · rw [hph'] at hdone
      cases hdone
  | answer ans hph hret htype hans hmoves hnew =>
    obtain ⟨h1, h2⟩ := hmake hmoves
    have hphase := Phase.answers_of hans
    refine ⟨h1, fun _ => h2 ?_, fun hdone => ?_⟩
    · exact hphase.place (Or.inl (Or.inl ⟨_, rfl, rfl⟩))
    · rw [hphase.running] at hdone
      cases hdone
  | exit req reply hph hph' hmoves hsame =>
    obtain ⟨h1, -⟩ := hmake hmoves
    refine ⟨h1, fun hrun => ?_, fun _ i hi => ?_⟩
    · rw [hph'] at hrun
      cases hrun
    · rw [hmoves.pid] at hi
      have hslot : i = serverSlot := hwf.pid_inj i serverSlot
        (hi.trans hup.pid.symm) (by rw [hi]; decide)
      subst hslot
      rw [hmoves.table, update_self]
      exact ⟨rfl, Or.inl hup.alive⟩

/-- The invariant of the protocol. -/
structure ProtoInv (client : Nat → Bool) (w : World σ) : Prop where
  roles : RolesInv client w.kernel
  server : ServerInv w
  books : ∀ c, client c = true → Books w c

/-- What a set of clients needs of the steps around them: nobody but the
server sends to a client, clients do not send to the server on their own,
the processes that make file calls are clients, nobody exits while a
sender waits for its mailbox, and the server is neither replaced nor
killed. A run may break this and come to no harm; whether it does then
hangs on what the other processes do next. -/
def Guarded (client : Nat → Bool) (w : World σ) : WAct → Prop
  | .kernel (.send i pid _) => MaySend client (w.kernel.procs i).pid pid
  | .kernel (.call i _) => client (w.kernel.procs i).pid = true
  | .kernel (.exitFinal i) => w.kernel.awaited i = false
  | .kernel (.register _) => False
  | .kernel (.kill _ pid) => pid ≠ serverPid
  | _ => True

theorem Guarded.permits (hok : Guarded client w (.kernel a)) :
    Permits client w.kernel a ∧ ∀ i pid, a = .kill i pid → pid ≠ serverPid := by
  cases a with
  | kill i pid =>
    refine ⟨trivial, ?_⟩
    rintro j pid' e
    cases e
    exact hok
  | send | call | exitFinal | register => exact ⟨hok, by simp⟩
  | sched | yield | enter | sysret | recv | exit | wait | fork | forkReset
  | forkFail | forkDone | fault => exact ⟨trivial, by simp⟩

theorem roles_serve (hr : RolesInv client w.kernel) (hup : Up w.kernel w.phase)
    (hs : Serves h w w') : RolesInv client w'.kernel := by
  obtain ⟨pc, hmoves⟩ := hs.moves
  rcases hmoves.kernel with hsame | ⟨b, hk, hb⟩
  · rw [hsame]
    exact hr
  refine roles_step client hr ?_ hk
  rcases hb with rfl | rfl | ⟨pid, msg, rfl⟩
  · trivial
  · trivial
  · exact Or.inl hup.pid

theorem step_kernel (hs : w.step h (.kernel a) = some w') :
    ∃ k, step w.kernel a = some k ∧ w' = { w with kernel := k }
      ∧ (w.phase.isDone = false → a.actor = serverSlot → a.isProgram = false) := by
  simp only [World.step] at hs
  split at hs
  next => cases hs
  next hprog =>
    split at hs
    next k hk =>
      refine ⟨k, hk, (Option.some.inj hs).symm, ?_⟩
      intro h1 h2
      by_contra h3
      exact hprog ⟨h2, by simpa using h3, h1⟩
    next => cases hs

theorem serving (hs : w.step h .serve = some w') : w.phase.isDone = false := by
  simp only [World.step] at hs
  split at hs
  next =>
    unfold mainLoop at hs
    split at hs
    next h1 => rw [h1]; rfl
    next h1 => rw [h1]; rfl
    next h1 => rw [h1]; rfl
    next h1 => rw [h1]; rfl
    next => cases hs
  next => cases hs

theorem proto_step (hserver : client serverPid = false)
    (hinv : ProtoInv client w) (hok : Guarded client w b)
    (hs : w.step h b = some w') : ProtoInv client w' := by
  have hne : ∀ c, client c = true → c ≠ serverPid := by
    rintro c hc rfl
    rw [hserver] at hc
    cases hc
  cases b with
  | kernel a =>
    obtain ⟨k, hk, rfl, hprog⟩ := step_kernel hs
    obtain ⟨hperm, hkill⟩ := hok.permits
    obtain ⟨halive, heff⟩ := eff_of_step hk
    have hroles' := roles_step client hinv.roles hperm hk
    have hstep : KernelStep client w a k :=
      ⟨hinv.roles, hroles', hinv.server, halive, heff, hkill, hprog⟩
    exact ⟨hroles', server_next hinv.roles.wf hinv.server halive heff hkill hprog, fun c hc =>
      books_kernel hstep (hinv.books c hc) hc (hne c hc)⟩
  | serve =>
    have hup := hinv.server.up (serving hs)
    obtain ⟨huser, hserves⟩ := serves_of_step hs hinv.roles.known hup.pid
    exact ⟨roles_serve hinv.roles hup hserves,
      server_serve hserves hinv.roles.wf hinv.server hup, fun c hc =>
      books_serve hserves huser hup (hinv.books c hc) (hne c hc)⟩

-- ==== the start

theorem start_table (fs : σ) (i : Nat) :
    (start fs).kernel.table i = Proc.empty.core
      ∨ (i = 0 ∧ (start fs).kernel.table i
        = { Proc.empty.core with life := .alive, pid := 1 })
      ∨ (i = serverSlot ∧ (start fs).kernel.table i
        = { Proc.empty.core with life := .alive, pid := serverPid }) := by
  unfold start Kernel.table
  dsimp only
  by_cases h1 : i = serverSlot
  · subst h1
    exact Or.inr (Or.inr ⟨rfl, rfl⟩)
  rw [update_of_ne h1]
  by_cases h0 : i = 0
  · subst h0
    exact Or.inr (Or.inl ⟨rfl, rfl⟩)
  · rw [update_of_ne h0]
    exact Or.inl rfl

theorem start_pc (fs : σ) (i : Nat) :
    ((start fs).kernel.table i).pc = .user := by
  rcases start_table fs i with h | ⟨-, h⟩ | ⟨-, h⟩
  · rw [h]
    rfl
  · rw [h]
    rfl
  · rw [h]
    rfl

theorem start_hasMsg (fs : σ) (i : Nat) :
    ((start fs).kernel.table i).hasMsg = false := by
  rcases start_table fs i with h | ⟨-, h⟩ | ⟨-, h⟩
  · rw [h]
    rfl
  · rw [h]
    rfl
  · rw [h]
    rfl

theorem wf_start (fs : σ) : Wf (start fs).kernel := by
  refine ⟨by show 0 < 3; omega, ?_, ?_, ?_, ?_, fun i _ => Or.inl (start_pc fs i),
    ?_, ?_⟩
  · intro i
    show _ < 3
    rcases start_table fs i with h | ⟨-, h⟩ | ⟨-, h⟩
    · rw [h]
      decide
    · rw [h]
      decide
    · rw [h]
      decide
  · intro i j he hne
    rcases start_table fs i with h | ⟨hi, h⟩ | ⟨hi, h⟩
    · rw [h] at hne
      exact absurd rfl hne
    · rcases start_table fs j with h' | ⟨hj, h'⟩ | ⟨hj, h'⟩
      · rw [h, h'] at he
        cases he
      · rw [hi, hj]
      · rw [h, h'] at he
        cases he
    · rcases start_table fs j with h' | ⟨hj, h'⟩ | ⟨hj, h'⟩
      · rw [h, h'] at he
        cases he
      · rw [h, h'] at he
        cases he
      · rw [hi, hj]
  · intro i hi
    rcases start_table fs i with h | ⟨-, h⟩ | ⟨-, h⟩
    · rw [h] at hi
      exact absurd rfl hi
    · rw [h]
      decide
    · rw [h]
      decide
  · intro i hi
    unfold nproc at hi
    rcases start_table fs i with h | ⟨h0, -⟩ | ⟨h0, -⟩
    · rw [h]
      rfl
    · omega
    · unfold serverSlot at h0
      omega
  · intro i t c hi
    cases (start_pc fs i).symm.trans hi
  · intro i j t c d hi
    cases (start_pc fs i).symm.trans hi

theorem proto_start (fs : σ) : ProtoInv client (start fs) := by
  refine ⟨⟨wf_start fs, ?_, fun i _ => start_hasMsg fs i, Or.inl rfl, ?_, ?_⟩,
    ⟨?_, ?_, ?_⟩, ?_⟩
  · intro i pid t m k hi
    cases (start_pc fs i).symm.trans hi
  · intro i
    rw [start_pc fs i]
    trivial
  · intro e he
    cases he
  · show serverPid < 3
    decide
  · intro _
    exact ⟨rfl, rfl, rfl, rfl⟩
  · intro hdone
    cases hdone
  · intro c _
    refine ⟨Or.inl rfl, ?_, ?_, ?_, ?_⟩
    · rintro ⟨-, hfull, -⟩
      cases (start_hasMsg fs serverSlot).symm.trans hfull
    · rintro ⟨hph, -, -⟩
      cases hph
    · rintro q r ⟨hph, -, -⟩
      exact hph.elim
    · rintro i ⟨-, hfull⟩
      cases (start_hasMsg fs i).symm.trans hfull

-- ==== what was handled

/-- The reply is what the server sends for this request; but for a
`SHUTDOWN` the answer is the handler's. -/
def Answered (h : Handler σ) (e : IpcMsg × IpcMsg) : Prop :=
  ∃ ans, e.2 = (sendReply e.1 ans).from serverPid
    ∧ (e.1.type ≠ IpcMsgType.fsShutdown.code → ∃ fs, ans = (h.serve fs e.1).2)

theorem Answered.accepts {e : IpcMsg × IpcMsg} (he : Answered h e) :
    accepts e.1 e.2 = true := by
  obtain ⟨ans, h1, -⟩ := he
  rw [h1]
  unfold Ipc.accepts
  rw [decide_eq_true_eq]
  exact ⟨rfl, rfl⟩

theorem Answered.sender {e : IpcMsg × IpcMsg} (he : Answered h e) :
    e.2.senderPid = serverPid := by
  obtain ⟨ans, h1, -⟩ := he
  rw [h1]
  rfl

theorem answered_serves (hs : Serves h w w') (hold : ∀ e ∈ w.handled, Answered h e) :
    ∀ e ∈ w'.handled, Answered h e := by
  cases hs with
  | recv _ _ _ hsame | again _ _ _ hsame | exit _ _ _ _ _ hsame =>
    rw [hsame]
    exact hold
  | answer ans hph hret htype hans hmoves hnew =>
    intro e he
    rw [hnew] at he
    rcases List.mem_append.mp he with he | he
    · exact hold e he
    rw [List.mem_singleton] at he
    subst he
    refine ⟨ans, rfl, fun hshut => ?_⟩
    rcases hans with ⟨-, h1, -⟩ | ⟨h1, -⟩
    · exact ⟨w.fs, h1⟩
    · exact absurd h1 hshut

/-- `ProtoInv` with the record of answers, and what the calls returned. -/
structure Kept (client : Nat → Bool) (h : Handler σ) (w : World σ) : Prop where
  proto : ProtoInv client w
  answered : ∀ e ∈ w.handled, Answered h e
  returned : Returned w.kernel

theorem kept_step (hserver : client serverPid = false)
    (hinv : Kept client h w) (hok : Guarded client w b)
    (hs : w.step h b = some w') : Kept client h w' := by
  have hreturned : ∀ {a : Act} {k : Kernel}, step w.kernel a = some k → Returned k := by
    intro a k hk
    obtain ⟨halive, heff⟩ := eff_of_step hk
    exact returned_of_eff hinv.proto.roles.wf halive heff hinv.returned
  have hproto := proto_step hserver hinv.proto hok hs
  cases b with
  | kernel a =>
    obtain ⟨k, hk, rfl, -⟩ := step_kernel hs
    exact ⟨hproto, hinv.answered, hreturned hk⟩
  | serve =>
    have hup := hinv.proto.server.up (serving hs)
    have hserves := (serves_of_step hs hinv.proto.roles.known hup.pid).2
    have hans := answered_serves hserves hinv.answered
    obtain ⟨pc, hmoves⟩ := hserves.moves
    rcases hmoves.kernel with hsame | ⟨b, hk, -⟩
    · exact ⟨hproto, hans, hsame ▸ hinv.returned⟩
    · exact ⟨hproto, hans, hreturned hk⟩

theorem kept_start (fs : σ) : Kept client h (start fs) := by
  refine ⟨proto_start fs, ?_, ?_⟩
  · intro e he
    cases he
  · intro i hpc
    cases (start_pc fs i).symm.trans hpc

theorem Kept.takenBy_le (hk : Kept client h w) (c : Nat) :
    w.kernel.takenBy c <+: w.handledFor c := by
  cases hc : client c with
  | true =>
    rcases (hk.proto.books c hc).history with h1 | ⟨m, r, h1, -⟩
    · exact ⟨[], (List.append_nil _).trans h1.symm⟩
    · rw [h1]
      exact List.prefix_append _ _
  | false =>
    -- only clients make file calls
    have hnil : w.kernel.takenBy c = [] := by
      unfold Kernel.takenBy
      rw [List.map_eq_nil_iff, List.filter_eq_nil_iff]
      intro e he hce
      have hcl := (hk.proto.roles.takenOk e he).1
      rw [decide_eq_true_eq] at hce
      rw [hce, hc] at hcl
      cases hcl
    rw [hnil]
    exact ⟨w.handledFor c, rfl⟩

theorem Kept.taken (hk : Kept client h w) {e : Taken} (he : e ∈ w.kernel.taken) :
    (e.req, e.msg) ∈ w.handled ∧ Answered h (e.req, e.msg) := by
  have hmem : (e.req, e.msg) ∈ w.kernel.takenBy e.client := by
    unfold Kernel.takenBy
    rw [List.mem_map]
    exact ⟨e, List.mem_filter.mpr ⟨he, by simp⟩, rfl⟩
  have hhandled : (e.req, e.msg) ∈ w.handled :=
    (List.mem_filter.mp ((hk.takenBy_le e.client).subset hmem)).1
  exact ⟨hhandled, hk.answered _ hhandled⟩

-- ==== authenticity

/-- In every run whose steps respect the clients, whatever else the other
processes send to whom: each message an `fs_ipc_call` takes was sent by
the registered server the request went to, in answer to that request; and
the replies a client has taken are the server's first answers to it, one
for one and in order, so that none of them answers an earlier request. A
call that returned 0 has the last of them in its buffer. -/
theorem replies_authentic (client : Nat → Bool)
    (hserver : client serverPid = false) (h : Handler σ) (fs : σ)
    (acts : List WAct) (w : World σ)
    (hok : Along (World.step h) (Guarded client) (start fs) acts)
    (hr : runs (World.step h) (start fs) acts = some w) :
    (∀ e ∈ w.kernel.taken, e.server = serverPid ∧ e.msg.senderPid = e.server
        ∧ (e.req, e.msg) ∈ w.handled)
      ∧ (∀ c, w.kernel.takenBy c <+: w.handledFor c) ∧ Returned w.kernel := by
  have hk : Kept client h w := Along.invariant
    (fun _ _ _ hinv ha hst => kept_step hserver hinv ha hst) (kept_start fs) hok hr
  refine ⟨?_, hk.takenBy_le, hk.returned⟩
  intro e he
  obtain ⟨-, h1, -, -⟩ := hk.proto.roles.takenOk e he
  obtain ⟨h2, h3⟩ := hk.taken he
  refine ⟨h1, ?_, h2⟩
  rw [h1]
  exact h3.sender

instance (client : Nat → Bool) (w : World σ) : ∀ b, Decidable (Guarded client w b)
  | .kernel (.send i pid _) =>
    inferInstanceAs (Decidable (MaySend client (w.kernel.procs i).pid pid))
  | .kernel (.call i _) =>
    inferInstanceAs (Decidable (client (w.kernel.procs i).pid = true))
  | .kernel (.exitFinal i) =>
    inferInstanceAs (Decidable (w.kernel.awaited i = false))
  | .kernel (.kill _ pid) =>
    inferInstanceAs (Decidable (pid ≠ (serverPid : Int)))
  | .kernel (.register _) => inferInstanceAs (Decidable False)
  | .serve | .kernel (.sched _) | .kernel (.yield _) | .kernel (.enter _)
  | .kernel (.sysret _) | .kernel (.recv _) | .kernel (.exit _)
  | .kernel (.wait _) | .kernel (.fork _) | .kernel (.forkReset _)
  | .kernel (.forkFail _) | .kernel (.forkDone _) | .kernel (.fault _) =>
    inferInstanceAs (Decidable True)

/-- A server that answers every request with descriptor 3. -/
def threeHandler : Handler Unit where
  serve := fun s _ => (s, ⟨0, 3, 0, Bytes.zero⟩)
  closeAllForOwner := fun s _ => s

/-- Init forks a process in slot 2 and opens a file: its request is in
the server's mailbox. -/
def initAsks : List WAct :=
  [.kernel (.sched 0), .kernel (.fork 0), .kernel (.forkReset 0),
    .kernel (.forkDone 0), .kernel (.sysret 0), .kernel (.sched 2),
    .kernel (.call 0 { IpcMsg.zero with type := 1 }), .kernel (.enter 0)]

/-- The server receives and answers, and init takes the reply. -/
def serverAnswers : List WAct :=
  [.kernel (.sched 1), .serve, .kernel (.enter 1), .kernel (.sysret 1), .serve,
    .kernel (.enter 1), .kernel (.sysret 1), .kernel (.yield 1)]

/-- Pid 3 floods the server with `CLIENT_EXIT` messages meanwhile. -/
theorem replies_authentic_flood :
    ∃ w, runs (World.step threeHandler) (start ())
        (initAsks ++ [.kernel (.send 2 2 clientExitMsg)] ++ serverAnswers
          ++ [.kernel (.enter 2), .kernel (.enter 0)]) = some w
      ∧ w.kernel.taken.length = 1
      ∧ (∀ e ∈ w.kernel.taken, e.server = serverPid
        ∧ e.msg.senderPid = e.server ∧ (e.req, e.msg) ∈ w.handled)
      ∧ (∀ c, w.kernel.takenBy c <+: w.handledFor c) ∧ Returned w.kernel := by
  have heval : (runs (World.step threeHandler) (start ())
      (initAsks ++ [.kernel (.send 2 2 clientExitMsg)] ++ serverAnswers
        ++ [.kernel (.enter 2), .kernel (.enter 0)])).map
      (fun w => w.kernel.taken.length) = some 1 := by decide
  obtain ⟨w, hw, hlen⟩ := Option.map_eq_some_iff.mp heval
  exact ⟨w, hw, hlen, replies_authentic (fun pid => pid == 1) (by decide)
    threeHandler () _ w (by decide) hw⟩

/-- Pid 3 sends init a message of type `FS_REPLY` with the request id init
is using. `fs_ipc_call` returns 0 with it; the server's own reply then
waits in the mailbox, and the next call takes that one, the answer to the
request before, and fails. -/
theorem forged_reply :
    (runs (World.step threeHandler) (start ())
      (initAsks
        ++ [.kernel (.send 2 1 { IpcMsg.zero with type := 100, requestId := 1 }),
          .kernel (.enter 2), .kernel (.enter 0)]
        ++ serverAnswers
        ++ [.kernel (.call 0 { IpcMsg.zero with type := 1 }), .kernel (.enter 0),
          .kernel (.enter 0)])).map
      (fun w => (w.kernel.taken.map fun e =>
          (e.req.requestId, e.msg.senderPid, e.msg.requestId, accepts e.req e.msg),
        (w.kernel.procs 0).retval))
      = some ([(1, 3, 1, true), (2, 2, 1, false)], -1) := by
  decide

-- ==== agreement

/-- Processes use the file calls and `exit`, not `send` and `recv`; the
server is neither replaced nor killed. -/
def WAct.fileCallsOnly : WAct → Prop
  | .kernel (.send _ _ _) | .kernel (.recv _) | .kernel (.register _) => False
  | .kernel (.kill _ pid) => pid ≠ serverPid
  | _ => True

/-- Then everybody but the server is a client. -/
def everybody (pid : Nat) : Bool := pid != serverPid

theorem everybody_iff {pid : Nat} : everybody pid = true ↔ pid ≠ serverPid := by
  unfold everybody
  exact bne_iff_ne

/-- Sent by a client, and no `SHUTDOWN`. -/
def IpcMsg.Harmless (m : IpcMsg) : Prop :=
  (∃ c : Nat, m.senderPid = c ∧ c ≠ serverPid)
    ∧ m.type ≠ IpcMsgType.fsShutdown.code

/-- Nothing the server has or does can make it stop. -/
structure Endless (w : World σ) : Prop where
  mail : w.server.hasMsg = true → w.server.mailbox.Harmless
  hand : w.phase = .receiving → w.server.InHand → w.server.buf.Harmless
  phase : w.phase = .loop ∨ w.phase = .receiving
    ∨ ∃ req reply, w.phase = .replying req reply ∧ req.Harmless

theorem Endless.running (he : Endless w) : w.phase.isDone = false := by
  rcases he.phase with h1 | h1 | ⟨req, reply, h1, -⟩
  · rw [h1]
    rfl
  · rw [h1]
    rfl
  · rw [h1]
    rfl

/-- A server that sends is answering a client whose mailbox is empty. -/
theorem Endless.sending (he : Endless w) (hp : ProtoInv everybody w)
    {pid : Int} (hpc : (∃ msg, w.server.pc = .toSend pid msg kd)
      ∨ ∃ t m, w.server.pc = .sendLoop pid t m kd) :
    pid ≠ serverPid ∧ (∀ i, ((w.kernel.table i).pid : Int) = pid →
        (w.kernel.table i).hasMsg = false)
      ∧ ∃ msg, w.server.pc = .toSend pid msg .send := by
  obtain ⟨-, req, reply, hans, hrep, hto⟩ :=
    (hp.server.up he.running).here.replies hpc
  have hreq : req.Harmless := by
    rcases he.phase with h1 | h1 | ⟨req', reply', h1, h2⟩
    · rw [h1] at hans
      exact hans.elim
    · rw [h1] at hans
      exact hans.elim
    · rw [h1] at hans
      obtain ⟨rfl, -⟩ := hans
      exact h2
  obtain ⟨⟨c, hc, hne⟩, -⟩ := hreq
  obtain ⟨-, h2, h3⟩ := (hp.books c (everybody_iff.mpr hne)).answering req reply
    ⟨hans, hrep, hc⟩
  refine ⟨by omega, ?_, ?_⟩
  · intro i hi
    have hpid : (w.kernel.table i).pid = c := by omega
    by_contra hfull
    exact h2 i ⟨hpid, by simpa using hfull⟩
  · rw [← hto]
    exact h3

/-- Whoever waits to send waits for the server. -/
theorem Endless.waits (he : Endless w) (hp : ProtoInv everybody w) {j t : Nat}
    {pid : Int} {m : IpcMsg}
    (hj : (w.kernel.table j).pc = .sendLoop pid t m kd) : t = serverSlot := by
  have hup := hp.server.up he.running
  have hto : pid = serverPid → t = serverSlot := by
    intro hpid
    have h1 := (hp.roles.aimed j pid t m kd hj).1
    have h2 : (w.kernel.table t).pid = serverPid := by omega
    exact hp.roles.wf.pid_inj t serverSlot (h2.trans hup.pid.symm)
      (by rw [h2]; decide)
  have hrole := hp.roles.pcOk j
  rw [hj] at hrole
  cases kd with
  | call server req => exact hto hrole.2.1
  | exit => exact hto hrole.1
  | send =>
    exfalso
    by_cases hme : (w.kernel.table j).pid = serverPid
    · -- the server itself never waits
      have hslot : j = serverSlot := hp.roles.wf.pid_inj j serverSlot
        (hme.trans hup.pid.symm) (by rw [hme]; decide)
      subst hslot
      obtain ⟨-, -, msg, h3⟩ := he.sending hp (Or.inr ⟨t, m, hj⟩)
      cases h3.symm.trans hj
    · rcases hrole.2 with h1 | ⟨h1, h2⟩
      · exact hme h1
      have h3 := (hp.roles.aimed j pid t m .send hj).1
      by_cases hs : (w.kernel.table t).pid = serverPid
      · exact h2 ⟨everybody_iff.mpr hme, by rw [← h3, hs]⟩
      · exact h1.ne (everybody_iff.mpr hs) h3.symm

theorem step_exitFinal
    (hs : step s (.exitFinal i) = some s') : (s.table i).pc = .exiting := by
  have hact := step_running hs (by simp)
  simp only [act] at hact
  split at hact
  next hpc => exact hpc
  next => cases hact

/-- The file calls alone respect the clients. -/
theorem Endless.guarded (he : Endless w) (hp : ProtoInv everybody w)
    (hb : b.fileCallsOnly) (hs : w.step h b = some w') :
    Guarded everybody w b := by
  have hup := hp.server.up he.running
  cases b with
  | serve => trivial
  | kernel a =>
    obtain ⟨k, hk, -, hprog⟩ := step_kernel hs
    cases a with
    | send | recv | register => exact hb.elim
    | kill i pid => exact hb
    | call i req =>
      refine everybody_iff.mpr fun hpid => ?_
      have hslot : i = serverSlot := hp.roles.wf.pid_inj i serverSlot
        (Eq.trans hpid hup.pid.symm) (by
          show (w.kernel.procs i).pid ≠ 0
          rw [hpid]
          decide)
      cases hprog he.running hslot
    | exitFinal i =>
      show w.kernel.awaited i = false
      by_contra hawait
      rw [Bool.not_eq_false, Kernel.awaited, List.any_eq_true] at hawait
      obtain ⟨j, -, hj⟩ := hawait
      unfold Pc.waitsOn at hj
      split at hj
      next pid t m kd hpc =>
        have hslot := he.waits hp (j := j) hpc
        rw [beq_iff_eq] at hj
        rw [hslot] at hj
        subst hj
        exact pc_elim hup.here.serves (step_exitFinal hk) rfl
      next => cases hj
    | sched | yield | enter | sysret | exit | wait | fork | forkReset
    | forkFail | forkDone | fault => trivial

/-- What arrives at the server is a client's. -/
theorem StoredIn.harmless {pid : Int}
    (hst : StoredIn w.kernel a k serverSlot pid kd) (he : Endless w)
    (hp : ProtoInv everybody w) : (k.table serverSlot).mailbox.Harmless := by
  have hup := hp.server.up he.running
  have hto : pid = serverPid := by
    rw [← (hp.roles.aimed.of_sending hst.sending).1, hup.pid]
  obtain ⟨h1, h2⟩ := (hp.roles.pcOk a.actor).of_sending hst.sending
  have hsend : (∃ msg, (w.kernel.table a.actor).pc = .toSend pid msg kd)
      ∨ ∃ t m, (w.kernel.table a.actor).pc = .sendLoop pid t m kd := by
    cases hst.sending with
    | found msg hpc => exact Or.inl ⟨msg, hpc⟩
    | waited hpc => exact Or.inr ⟨_, _, hpc⟩
  have hne : (w.kernel.table a.actor).pid ≠ serverPid := by
    intro hme
    have hslot : a.actor = serverSlot := hp.roles.wf.pid_inj _ _
      (hme.trans hup.pid.symm) (by rw [hme]; decide)
    rw [hslot] at hsend
    exact (he.sending hp hsend).1 hto
  refine ⟨⟨_, h1, hne⟩, ?_⟩
  cases kd with
  | send =>
    rcases h2 with h2 | ⟨-, h2⟩
    · exact absurd h2 hne
    · exact absurd ⟨everybody_iff.mpr hne, hto⟩ h2
  | exit =>
    rw [h2.2]
    decide
  | call server req =>
    obtain ⟨-, -, -, hm, hfile⟩ := h2
    rw [hm]
    unfold IpcMsg.isFileCall at hfile
    rw [decide_eq_true_eq] at hfile
    intro hshut
    rw [hshut] at hfile
    revert hfile
    decide

theorem endless_step (he : Endless w) (hp : ProtoInv everybody w)
    (hok : Guarded everybody w b) (hs : w.step h b = some w') : Endless w' := by
  have hup := hp.server.up he.running
  cases b with
  | kernel a =>
    obtain ⟨k, hk, rfl, hprog⟩ := step_kernel hs
    obtain ⟨halive, heff⟩ := eff_of_step hk
    obtain ⟨-, hkill⟩ := hok.permits
    refine ⟨?_, ?_, he.phase⟩
    · intro hfull
      obtain ⟨-, -, -, ⟨h1, h2⟩ | ⟨pid, kd, hst⟩⟩ := full_of_eff hp.roles.wf
        hp.roles.deadMail hp.roles.aimed halive heff (i := serverSlot) hfull
      · show (k.table serverSlot).mailbox.Harmless
        rw [h2]
        exact he.mail h1
      · exact hst.harmless he hp
    · intro hph hin
      obtain ⟨-, hnext⟩ := server_of_eff hp.roles.wf heff hup hkill
        (hprog he.running)
      show (k.table serverSlot).buf.Harmless
      rcases hnext.held hph hin with ⟨h1, h2⟩ | ⟨h1, -, h2⟩
      · rw [h2]
        exact he.hand hph h1
      · rw [h2]
        exact he.mail h1
  | serve =>
    obtain ⟨huser, hserves⟩ := serves_of_step hs hp.roles.known hup.pid
    have hmail : ∀ {pc : Pc}, Moves w w' pc →
        w'.server.hasMsg = true → w'.server.mailbox.Harmless := by
      intro pc hm hfull
      rw [hm.server] at hfull ⊢
      exact he.mail hfull
    cases hserves with
    | recv hph hph' hmoves =>
      refine ⟨hmail hmoves, ?_, Or.inr (Or.inl hph')⟩
      rintro - ⟨h1 | h1, -⟩
      · rw [hmoves.server] at h1
        cases h1
      · rw [hmoves.server] at h1
        cases h1
    | again hph hph' hmoves =>
      refine ⟨hmail hmoves, ?_, Or.inl hph'⟩
      intro h1
      cases hph'.symm.trans h1
    | answer ans hph hret htype hans hmoves =>
      have hin := hup.here.inHand hph huser
      have hbuf := he.hand hph hin
      rcases hans with ⟨-, -, h1⟩ | ⟨h1, -⟩
      · refine ⟨hmail hmoves, ?_, Or.inr (Or.inr ⟨_, _, h1, hbuf⟩)⟩
        intro h2
        cases h1.symm.trans h2
      · exact absurd h1 hbuf.2
    | exit req reply hph =>
      exfalso
      rcases he.phase with h1 | h1 | ⟨_, _, h1, -⟩
      · cases h1.symm.trans hph
      · cases h1.symm.trans hph
      · cases h1.symm.trans hph

theorem endless_start (fs : σ) : Endless (start fs) := by
  refine ⟨?_, ?_, Or.inl rfl⟩
  · intro hfull
    cases (start_hasMsg fs serverSlot).symm.trans hfull
  · intro hph
    cases hph

theorem Kept.endless_step (hk : Kept everybody h w) (he : Endless w)
    (hb : b.fileCallsOnly) (hs : w.step h b = some w') :
    Kept everybody h w' ∧ Endless w' := by
  have hok := he.guarded hk.proto hb hs
  exact ⟨kept_step (by decide) hk hok hs, Ipc.endless_step he hk.proto hok hs⟩

/-- What clients and server agree on in a state of the protocol. -/
structure Agreement (h : Handler σ) (w : World σ) : Prop where
  /-- A message an `fs_ipc_call` took is the reply computed from its own
  request, and passes its test. -/
  replies : ∀ e ∈ w.kernel.taken, e.req.senderPid = e.client
    ∧ accepts e.req e.msg = true
    ∧ ∃ fs, e.msg = (sendReply e.req (h.serve fs e.req).2).from serverPid
  /-- An `fs_ipc_call` that returned 0 has the message it took, the
  client's latest, in its buffer. -/
  returned : Returned w.kernel
  /-- A client has taken the server's first answers to it, each once and
  in order. -/
  inStep : ∀ c, w.kernel.takenBy c <+: w.handledFor c
  /-- A client's mailbox holds nothing but the one answer it has not taken
  yet, and the client is waiting for it. -/
  mailbox : ∀ i, (w.kernel.procs i).pid ≠ serverPid →
    (w.kernel.procs i).hasMsg = true →
    ∃ m, w.handledFor (w.kernel.procs i).pid
        = w.kernel.takenBy (w.kernel.procs i).pid
          ++ [(m, (w.kernel.procs i).mailbox)]
      ∧ ((w.kernel.procs i).pc = .toRecv (.call serverPid m)
        ∨ (w.kernel.procs i).pc = .recvLoop (.call serverPid m))
  /-- `send_reply` finds the mailbox of its target empty. -/
  room : ∀ pid msg kd, (w.kernel.procs serverSlot).pc = .toSend pid msg kd →
    ∀ i, ((w.kernel.procs i).pid : Int) = pid → (w.kernel.procs i).hasMsg = false
  /-- So the server never sleeps in it. -/
  noWait : ∀ pid t m kd, (w.kernel.procs serverSlot).pc ≠ .sendLoop pid t m kd

theorem agreement_of (hk : Kept everybody h w) (he : Endless w) :
    Agreement h w := by
  refine ⟨?_, hk.returned, hk.takenBy_le, ?_, ?_, ?_⟩
  · intro e hmem
    obtain ⟨-, -, h1, h2⟩ := hk.proto.roles.takenOk e hmem
    obtain ⟨-, hans⟩ := hk.taken hmem
    refine ⟨h1, hans.accepts, ?_⟩
    obtain ⟨ans, h3, h4⟩ := hans
    obtain ⟨fs, rfl⟩ := h4 (by
      intro hshut
      unfold IpcMsg.isFileCall at h2
      rw [decide_eq_true_eq, hshut] at h2
      revert h2
      decide)
    exact ⟨fs, h3⟩
  · intro i hne hfull
    exact (hk.proto.books _ (everybody_iff.mpr hne)).mailed i ⟨rfl, hfull⟩
  · intro pid msg kd hpc
    exact (he.sending hk.proto (Or.inl ⟨msg, hpc⟩)).2.1
  · intro pid t m kd hpc
    obtain ⟨-, -, msg, h1⟩ := he.sending hk.proto (Or.inr ⟨t, m, hpc⟩)
    cases h1.symm.trans hpc

/-- Clients that reach the server through the file calls and `exit` only,
in any number and any interleaving, killed at any point: requests and
replies agree in every state reached. -/
theorem request_reply_agreement (h : Handler σ) (fs : σ) (acts : List WAct)
    (hcalls : ∀ b ∈ acts, b.fileCallsOnly) (w : World σ)
    (hr : runs (World.step h) (start fs) acts = some w) : Agreement h w := by
  have hinv : Kept everybody h w ∧ Endless w := by
    have hok : Along (World.step h) (fun _ b => b.fileCallsOnly) (start fs) acts :=
      .of_labels (fun b hb _ => hcalls b hb) _
    refine Along.invariant (I := fun w => Kept everybody h w ∧ Endless w) ?_
      ⟨kept_start fs, endless_start fs⟩ hok hr
    exact fun _ _ _ hinv hb hs => hinv.1.endless_step hinv.2 hb hs
  exact agreement_of hinv.1 hinv.2

instance : ∀ b : WAct, Decidable b.fileCallsOnly
  | .kernel (.send _ _ _) | .kernel (.recv _) | .kernel (.register _) =>
    inferInstanceAs (Decidable False)
  | .kernel (.kill _ pid) =>
    inferInstanceAs (Decidable (pid ≠ (serverPid : Int)))
  | .serve | .kernel (.sched _) | .kernel (.yield _) | .kernel (.enter _)
  | .kernel (.sysret _) | .kernel (.call _ _) | .kernel (.exit _)
  | .kernel (.exitFinal _) | .kernel (.wait _) | .kernel (.fork _)
  | .kernel (.forkReset _) | .kernel (.forkFail _) | .kernel (.forkDone _)
  | .kernel (.fault _) => inferInstanceAs (Decidable True)

/-- Init opens a file while its child exits: the `CLIENT_EXIT` waits for
the server to take the request. -/
theorem request_reply_agreement_open :
    ∃ w, runs (World.step threeHandler) (start ())
        (initAsks ++ [.kernel (.exit 2), .kernel (.enter 2)] ++ serverAnswers
          ++ [.kernel (.sched 2), .kernel (.enter 0)]) = some w
      ∧ w.kernel.taken.length = 1 ∧ w.kernel.stored.length = 3
      ∧ Agreement threeHandler w := by
  have heval : (runs (World.step threeHandler) (start ())
      (initAsks ++ [.kernel (.exit 2), .kernel (.enter 2)] ++ serverAnswers
        ++ [.kernel (.sched 2), .kernel (.enter 0)])).map
      (fun w => (w.kernel.taken.length, w.kernel.stored.length))
      = some (1, 3) := by decide
  obtain ⟨w, hw, hlen⟩ := Option.map_eq_some_iff.mp heval
  rw [Prod.mk.injEq] at hlen
  exact ⟨w, hw, hlen.1, hlen.2,
    request_reply_agreement threeHandler () _ (by decide) w hw⟩

end Xv6FsServer.Ipc
