/-
What a dead process leaves at the server.

A process that exits tells the server with a `CLIENT_EXIT`, and the server
then drops what it keeps for it. `exit` sends that message through
`ipc_send_msg` and ignores the result: the message of a process that has
been killed is lost if it finds the server's mailbox full. When that never
happens (`Heard`), the message is stored before the process is past its
`exit`, behind every request of its own, so from then on the server keeps
something for the process only while the message is in the mailbox or in
the server's hands (`Farewell`).

Who the server keeps something for is a parameter (`Keeps`): the results
use only that a request adds for its sender, and that
`close_all_for_owner` leaves nothing.
-/
import Xv6FsServer.Ipc.Proofs.Agreement

namespace Xv6FsServer.Ipc

open Lib Function

variable {σ : Type} {w w' : World σ} {h : Handler σ} {a : Act} {k : Kernel}
variable {s' s : Kernel}
variable {kd : SendFor} {p : Nat} {fs : σ}

/-- `owns fs p`: the server's state `fs` holds something of process `p`. -/
structure Keeps (h : Handler σ) (owns : σ → Nat → Prop) : Prop where
  serve : ∀ fs (req : IpcMsg) (p : Nat), req.senderPid ≠ p →
    owns (h.serve fs req).1 p → owns fs p
  close : ∀ fs pid (p : Nat), owns (h.closeAllForOwner fs pid) p →
    owns fs p ∧ pid ≠ p

/-- The message by which process `p` takes its leave. -/
def IpcMsg.Parts (m : IpcMsg) (p : Nat) : Prop :=
  m.senderPid = p ∧ m.type = IpcMsgType.fsClientExit.code

/-- The request is in the server's hands, not handled yet. -/
def World.InHand (w : World σ) : Prop := w.phase = .receiving ∧ w.server.InHand

/-- Process `p` is past the message of its `exit`, if it exists at all. -/
def Past (s : Kernel) (p : Nat) : Prop :=
  ∀ i, (s.table i).pid = p → (s.table i).life = .alive →
    (s.table i).pc = .exiting

/-- The last that the server has or will have of process `p`. -/
structure Farewell (owns : σ → Nat → Prop) (w : World σ) (p : Nat) : Prop where
  told : owns w.fs p → (w.server.hasMsg = true ∧ w.server.mailbox.Parts p)
    ∨ (w.InHand ∧ w.server.buf.Parts p)
  mail : w.server.hasMsg = true → w.server.mailbox.senderPid = p →
    w.server.mailbox.Parts p
  hand : w.InHand → w.server.buf.senderPid = p → ¬ w.server.buf.Parts p →
    w.server.hasMsg = true ∧ w.server.mailbox.Parts p

/-- About to send the message of its `exit`. -/
def Pc.startsExit : Pc → Bool
  | .toSend _ _ .exit => true
  | _ => false

/-- Waiting to send it. -/
def Pc.awaitsExit : Pc → Bool
  | .sendLoop _ _ _ .exit => true
  | _ => false

/-- A killed process does not try to send the message of its `exit` while
the server's mailbox is full. -/
def Heard (w : World σ) : WAct → Prop
  | .kernel (.enter i) => ¬ ((w.kernel.procs i).pc.startsExit = true
      ∧ (w.kernel.procs i).killed = true
      ∧ (w.kernel.procs serverSlot).hasMsg = true)
  | .kernel (.sched i) => ¬ ((w.kernel.procs i).pc.awaitsExit = true
      ∧ (w.kernel.procs i).killed = true
      ∧ (w.kernel.procs serverSlot).hasMsg = true)
  | _ => True

instance (w : World σ) : ∀ b, Decidable (Heard w b)
  | .kernel (.enter _) | .kernel (.sched _) =>
    inferInstanceAs (Decidable (¬ (_ ∧ _ ∧ _)))
  | .serve | .kernel (.yield _) | .kernel (.sysret _) | .kernel (.send _ _ _)
  | .kernel (.recv _) | .kernel (.call _ _) | .kernel (.exit _)
  | .kernel (.exitFinal _) | .kernel (.wait _) | .kernel (.fork _)
  | .kernel (.forkReset _) | .kernel (.forkFail _) | .kernel (.forkDone _)
  | .kernel (.kill _ _) | .kernel (.fault _) | .kernel (.register _) =>
    inferInstanceAs (Decidable True)

-- ==== getting past `exit`

/-- How a process gets past the message of its `exit`. -/
inductive Leaving (s : Kernel) (a : Act) (s' : Kernel) : Prop
  | quietly (hfs : ¬ (0 < s.fsserverPid
      ∧ s.fsserverPid ≠ (s.table a.actor).pid))
  | unheard (hwhy : Fails s (s.table a.actor) .exit)
  | told (pid : Int) (t : Nat) (hst : StoredIn s a s' t pid .exit)
      (hfull : (s'.table t).hasMsg = true)

theorem SendFor.exit_of_failed (hf : kd.failed = .exiting) :
    kd = .exit := by
  cases kd with
  | send => cases hf
  | call => cases hf
  | exit => rfl

theorem SendFor.exit_of_sent (hf : kd.sent = .exiting) :
    kd = .exit := by
  cases kd with
  | send => cases hf
  | call => cases hf
  | exit => rfl

theorem past_of_step (hw : Wf s) (hs : step s a = some s') (hpast : Past s' p) :
    Past s p ∨ ((s.table a.actor).pid = p ∧ (s.table a.actor).pc ≠ .exiting
      ∧ (s'.table a.actor).pc = .exiting ∧ Leaving s a s') := by
  by_cases hold : Past s p
  · exact Or.inl hold
  right
  unfold Past at hold
  push Not at hold
  obtain ⟨i, hpid, halive, hpc⟩ := hold
  obtain ⟨-, heff⟩ := eff_of_step hs
  -- the process itself is now at `exiting`, and alive
  have hat : (s'.table i).pc = .exiting := by
    obtain ⟨h1, h2 | h2⟩ := alive_of_eff hw heff halive
    · exact hpast i (h1.trans hpid) h2
    · rw [h2] at hs
      exact absurd (step_exitFinal hs) hpc
  have hmake : i = a.actor → Leaving s a s' →
      (s.table a.actor).pid = p ∧ (s.table a.actor).pc ≠ .exiting
        ∧ (s'.table a.actor).pc = .exiting ∧ Leaving s a s' := by
    rintro rfl h
    exact ⟨hpid, hpc, hat, h⟩
  have hslot := becomes_of_eff hw heff i (Or.inr halive)
  have hto := hat
  generalize hq : s'.table i = q at hslot hto
  cases hslot with
  | reaped _ hlife | alloc _ hlife => simp [hlife] at halive
  | moved hi pc r hmove =>
    refine hmake hi ?_
    cases hmove with
    | sched | yield => exact absurd hto hpc
    | exitQuietly _ _ hfs => exact .quietly (hi ▸ hfs)
    | sendFail _ kd _ _ hwhy =>
      cases SendFor.exit_of_failed hto
      exact .unheard (hi ▸ hwhy)
    | _ => cases hto
  | sent hi pid t m kd r hsend hempty hfill htaken =>
    refine hmake hi ?_
    cases SendFor.exit_of_sent hto
    subst hi
    refine .told pid t ⟨?_, hempty, hat, htaken⟩ (by rw [hfill]; rfl)
    rw [hfill]
    exact hsend
  | sentSelf hi pid m kd r hsend hempty htaken =>
    refine hmake hi ?_
    cases SendFor.exit_of_sent hto
    subst hi
    refine .told pid _ ⟨?_, hempty, hat, htaken⟩ (by rw [hq]; rfl)
    rw [hq]
    exact hsend
  | took _ kd =>
    obtain ⟨b, h1⟩ := Core.got_pc (s.table i).drain (s.table i).mailbox kd
    cases h1.symm.trans hto
  | born | back | forking | cleared | suicide | registered => cases hto
  | _ => exact absurd hto hpc

-- ==== the server's mailbox

/-- A message in the server's mailbox stays there until the server takes
it. -/
theorem mail_of_eff (hw : Wf s) (heff : Eff s a s') {ph : Phase} (hup : Up s ph)
    (hfull : (s.table serverSlot).hasMsg = true) :
    ((s'.table serverSlot).hasMsg = true
        ∧ (s'.table serverSlot).mailbox = (s.table serverSlot).mailbox)
      ∨ (ph = .receiving ∧ ¬ (s.table serverSlot).InHand
        ∧ (s'.table serverSlot).InHand
        ∧ (s'.table serverSlot).buf = (s.table serverSlot).mailbox) := by
  have halive := hup.alive
  have hslot := becomes_of_eff hw heff serverSlot (Or.inr halive)
  generalize s'.table serverSlot = q at hslot ⊢
  cases hslot with
  | filled _ _ _ _ _ hempty | sentSelf _ _ _ _ _ _ hempty =>
    cases hfull.symm.trans hempty
  | took _ kd hpc =>
    obtain ⟨rfl, hph⟩ := hup.here.receives hpc
    refine Or.inr ⟨hph, ?_, ⟨Or.inl rfl, rfl⟩, rfl⟩
    rintro ⟨h1 | h1, -⟩
    · rcases hpc with h2 | h2 <;> cases h1.symm.trans h2
    · rcases hpc with h2 | h2 <;> cases h1.symm.trans h2
  | reaped _ hlife => simp [hlife] at halive
  | reset _ hpc => simp [hw.fork_slot _ _ _ hpc] at halive
  | exited _ _ h1 =>
    exact pc_elim hup.here.serves h1 rfl
  | _ => exact Or.inl ⟨hfull, rfl⟩

def Pc.rests : Pc → Bool
  | .user | .ret false => true
  | _ => false

/-- A request in the server's hands stays there while the kernel works. -/
theorem hand_of_eff (hw : Wf s) (heff : Eff s a s') {ph : Phase} (hup : Up s ph)
    (hprog : a.actor = serverSlot → a.isProgram = false)
    (hin : (s.table serverSlot).InHand) :
    (s'.table serverSlot).InHand
      ∧ (s'.table serverSlot).buf = (s.table serverSlot).buf := by
  obtain ⟨hpc, hret⟩ := hin
  have hrests : (s.table serverSlot).pc.rests = true := by
    rcases hpc with hpc | hpc
    all_goals
      rw [hpc]
      rfl
  have hact : ∀ {P : Prop}, serverSlot = a.actor → a.isProgram = true → P :=
    fun hi h1 => absurd ((hprog hi.symm).symm.trans h1) (by simp)
  have halive := hup.alive
  have hslot := becomes_of_eff hw heff serverSlot (Or.inr halive)
  generalize s'.table serverSlot = q at hslot ⊢
  cases hslot with
  | same | filled | killed => exact ⟨⟨hpc, hret⟩, rfl⟩
  | reaped _ hlife | alloc _ hlife => simp [hlife] at halive
  | reset _ h1 | unalloc _ h1 | born _ _ h1 =>
    simp [hw.fork_slot _ _ _ h1] at halive
  | moved hi pc r hmove =>
    refine ⟨?_, rfl⟩
    show (pc = .ret false ∨ pc = .user) ∧ r = 0
    cases hmove with
    | sched | yield => exact ⟨hpc, hret⟩
    | sysret => exact ⟨Or.inr rfl, hret⟩
    | send | recv | call | noServer => exact hact hi rfl
    | exit _ h1 | exitQuietly _ h1 =>
      rcases h1 with h1 | ⟨_, -, h1⟩
      · exact hact hi h1.2
      · cases hup.spared.symm.trans h1
    | sendFail _ _ _ h1 =>
      rcases h1 with ⟨_, _, h1⟩ | ⟨_, _, _, h1⟩
      · exact pc_elim hrests h1 rfl
      · exact pc_elim hrests h1 rfl
    | sendWait _ _ _ _ _ h1 =>
      rcases h1.pc with ⟨_, h1⟩ | h1
      · exact pc_elim hrests h1 rfl
      · exact pc_elim hrests h1 rfl
    | recvFail _ _ h1 | recvWait _ _ h1 =>
      rcases h1 with h1 | h1
      · exact pc_elim hrests h1 rfl
      · exact pc_elim hrests h1 rfl
    | waitSleep _ h1 | back _ _ h1 =>
      rcases h1 with h1 | h1
      · exact hact hi h1.2
      · exact pc_elim hrests h1 rfl
  | sent _ _ _ _ _ _ h1 | sentSelf _ _ _ _ _ h1 =>
    rcases h1.pc with ⟨_, h1⟩ | h1
    · exact pc_elim hrests h1 rfl
    · exact pc_elim hrests h1 rfl
  | took _ _ h1 =>
    rcases h1 with h1 | h1
    · exact pc_elim hrests h1 rfl
    · exact pc_elim hrests h1 rfl
  | back hi _ h1 =>
    rcases h1 with h1 | h1 | ⟨_, h1⟩
    · exact hact hi h1.2
    · exact pc_elim hrests h1 rfl
    · exact pc_elim hrests h1 rfl
  | exited _ _ h1 | cleared _ _ h1 => exact pc_elim hrests h1 rfl
  | forking hi _ h1 | suicide hi _ _ h1 | fault hi h1 | registered hi h1 =>
    exact hact hi (by rw [h1]; rfl)

-- ==== one step

/-- The invariant: the protocol's, and every process that is past its
`exit` has taken its leave. -/
structure Parting (owns : σ → Nat → Prop) (w : World σ) : Prop where
  proto : ProtoInv everybody w
  endless : Endless w
  registered : w.kernel.fsserverPid = serverPid
  farewell : ∀ p, Past w.kernel p → Farewell owns w p

variable {owns : σ → Nat → Prop}

theorem registered_of_step (hw : Wf s) (hs : step s a = some s') {ph : Phase}
    (hup : Up s ph) (ha : ∀ i, a ≠ .register i) (hreg : s.fsserverPid = serverPid) :
    s'.fsserverPid = serverPid := by
  rcases fsserver_of_eff (eff_of_step hs).2 with hsame | ⟨h1, -⟩ | ⟨h1, hme, -⟩
  · exact hsame.trans hreg
  · exact absurd h1 (ha _)
  -- the server itself is not past its `exit`
  have hpid : (s.table a.actor).pid = serverPid := by omega
  have hslot : a.actor = serverSlot :=
    hw.pid_inj _ _ (hpid.trans hup.pid.symm) (by rw [hpid]; decide)
  rw [h1, hslot] at hs
  exact pc_elim hup.here.serves (step_exitFinal hs) rfl

/-- The message of an `exit` fails for one reason only. -/
theorem fails_exit (hp : ProtoInv everybody w) (hrun : w.phase.isDone = false)
    (hs : step w.kernel a = some k)
    (hpc : (k.table a.actor).pc ≠ (w.kernel.table a.actor).pc)
    (hwhy : Fails w.kernel (w.kernel.table a.actor) .exit)
    (hheard : Heard w (.kernel a)) : False := by
  have hup := hp.server.up hrun
  have hslot : ∀ {t : Nat}, ((w.kernel.table t).pid : Int) = serverPid →
      t = serverSlot := by
    intro t h1
    have h2 : (w.kernel.table t).pid = serverPid := by omega
    exact hp.roles.wf.pid_inj _ _ (h2.trans hup.pid.symm) (by rw [h2]; decide)
  have hto := hp.roles.pcOk a.actor
  cases hwhy with
  | invalid pid msg h1 h2 =>
    rw [h1] at hto
    rw [hto.2] at h2
    cases h2
  | missing pid msg h1 h2 =>
    rw [h1] at hto
    have h3 := List.find?_eq_none.mp h2 serverSlot (List.mem_range.mpr (by decide))
    rw [decide_eq_true_eq, hto.1] at h3
    exact h3 (by exact_mod_cast hup.pid)
  | refused pid msg t h1 hfind h2 =>
    rw [h1] at hto
    have ht := hslot ((findPid_pid hfind).trans hto.1)
    subst ht
    rcases h2 with h2 | h2
    · exact h2 hup.alive
    · exact absurd (hup.spared.symm.trans h2) (by simp)
  | interrupted pid t m hsend hfull h2 =>
    have hpid : pid = serverPid := (hto.of_sending hsend).2.1
    have ht := hslot ((hp.roles.aimed.of_sending hsend).1.trans hpid)
    subst ht
    rcases h2 with h2 | h2 | h2
    · have hfull : (w.kernel.procs serverSlot).hasMsg = true := hfull
      cases hsend with
      | found msg h1 =>
        rcases sender_step hs h1 with h3 | h3
        · rw [h3] at hheard
          have h1 : (w.kernel.procs a.actor).pc = .toSend pid msg .exit := h1
          exact hheard ⟨by rw [h1]; rfl, h2, hfull⟩
        · exact hpc h3
      | waited h1 =>
        rcases waiter_step hs h1 with h3 | h3
        · rw [h3] at hheard
          have h1 : (w.kernel.procs a.actor).pc
            = .sendLoop pid serverSlot m .exit := h1
          exact hheard ⟨by rw [h1]; rfl, h2, hfull⟩
        · exact hpc h3
    · exact h2 hup.alive
    · exact absurd (hup.spared.symm.trans h2) (by simp)

theorem farewell_kernel (hinv : Parting owns w)
    (hb : (WAct.kernel a).fileCallsOnly) (hheard : Heard w (.kernel a))
    (hs : w.step h (.kernel a) = some w') :
    ∀ p, Past w'.kernel p → Farewell owns w' p := by
  have hp := hinv.proto
  have hup := hp.server.up hinv.endless.running
  have hguard := hinv.endless.guarded hp hb hs
  obtain ⟨k, hk, rfl, hprog⟩ := step_kernel hs
  obtain ⟨halive, heff⟩ := eff_of_step hk
  obtain ⟨-, hkill⟩ := hguard.permits
  have hprog := hprog hinv.endless.running
  obtain ⟨hup', hnext⟩ := server_of_eff hp.roles.wf heff hup hkill hprog
  intro p hpast
  rcases past_of_step hp.roles.wf hk hpast with hold | ⟨hpid, hpc, hpc', hleave⟩
  · have hf := hinv.farewell p hold
    have hmail : ∀ m, w.server.hasMsg = true → w.server.mailbox = m →
        ((k.table serverSlot).hasMsg = true ∧ (k.table serverSlot).mailbox = m)
          ∨ (w.phase = .receiving ∧ ¬ w.server.InHand
            ∧ (k.table serverSlot).InHand ∧ (k.table serverSlot).buf = m) := by
      intro m h1 h2
      subst h2
      exact mail_of_eff hp.roles.wf heff hup h1
    refine ⟨?_, ?_, ?_⟩
    · intro hown
      rcases hf.told hown with ⟨h1, h2⟩ | ⟨⟨h1, h2⟩, h3⟩
      · rcases hmail _ h1 rfl with ⟨h4, h5⟩ | ⟨h4, -, h5, h6⟩
        · left
          refine ⟨h4, ?_⟩
          show (k.table serverSlot).mailbox.Parts p
          rw [h5]
          exact h2
        · right
          refine ⟨⟨h4, h5⟩, ?_⟩
          show (k.table serverSlot).buf.Parts p
          rw [h6]
          exact h2
      · obtain ⟨h4, h5⟩ := hand_of_eff hp.roles.wf heff hup hprog h2
        right
        refine ⟨⟨h1, h4⟩, ?_⟩
        show (k.table serverSlot).buf.Parts p
        rw [h5]
        exact h3
    · intro hfull hfrom
      obtain ⟨-, -, -, ⟨h1, h2⟩ | ⟨pid, kd, hst⟩⟩ := full_of_eff hp.roles.wf
        hp.roles.deadMail hp.roles.aimed halive heff (i := serverSlot) hfull
      · have hfrom : (k.table serverSlot).mailbox.senderPid = p := hfrom
        show (k.table serverSlot).mailbox.Parts p
        rw [h2] at hfrom ⊢
        exact hf.mail h1 hfrom
      · -- the sender is not past its `exit` yet
        exfalso
        have h1 := ((hp.roles.pcOk a.actor).of_sending hst.sending).1
        have h2 := hold a.actor (by exact_mod_cast h1.symm.trans hfrom) halive
        cases hst.sending with
        | found _ h3 | waited h3 => cases h3.symm.trans h2
    · rintro ⟨hph, hin⟩ hfrom hnot
      have hfrom : (k.table serverSlot).buf.senderPid = p := hfrom
      have hnot : ¬ (k.table serverSlot).buf.Parts p := hnot
      rcases hnext.held hph hin with ⟨h1, h2⟩ | ⟨h1, -, h2⟩
      · rw [h2] at hfrom hnot
        obtain ⟨h3, h4⟩ := hf.hand ⟨hph, h1⟩ hfrom hnot
        rcases hmail _ h3 rfl with ⟨h5, h6⟩ | ⟨-, h5, -⟩
        · refine ⟨h5, ?_⟩
          show (k.table serverSlot).mailbox.Parts p
          rw [h6]
          exact h4
        · exact absurd h1 h5
      · rw [h2] at hfrom hnot
        exact absurd (hf.mail h1 hfrom) hnot
  · have hstored : (k.table serverSlot).hasMsg = true
        ∧ (k.table serverSlot).mailbox.Parts p := by
      cases hleave with
      | quietly hfs =>
        exfalso
        have hme : (w.kernel.table a.actor).pid = serverPid := by
          rw [hinv.registered] at hfs
          unfold serverPid at hfs ⊢
          omega
        have hslot : a.actor = serverSlot := hp.roles.wf.pid_inj _ _
          (hme.trans hup.pid.symm) (by rw [hme]; decide)
        rw [hslot] at hpc'
        exact pc_elim hup'.here.serves hpc' rfl
      | unheard hwhy =>
        exact (fails_exit hp hinv.endless.running hk
          (fun h1 => hpc (h1.symm.trans hpc')) hwhy hheard).elim
      | told pid t hst hfull =>
        obtain ⟨h1, h2, h3⟩ := (hp.roles.pcOk a.actor).of_sending hst.sending
        have h4 := (hp.roles.aimed.of_sending hst.sending).1
        have h5 : (w.kernel.table t).pid = serverPid := by omega
        have hslot : t = serverSlot := hp.roles.wf.pid_inj _ _
          (h5.trans hup.pid.symm) (by rw [h5]; decide)
        subst hslot
        exact ⟨hfull, by rw [h1, hpid], h3⟩
    exact ⟨fun _ => Or.inl hstored, fun _ _ => hstored.2, fun _ _ _ => hstored⟩

/-- What the server's next stretch of code does to its state. -/
theorem Serves.handlers (hs : Serves h w w') :
    (w'.fs = w.fs ∧ (w.phase = .receiving → w.server.retval < 0))
      ∨ (w.phase = .receiving
        ∧ (w.server.buf.type = IpcMsgType.fsShutdown.code
          ∨ w'.fs = h.closeAllForOwner w.fs w.server.buf.senderPid
          ∨ (w.server.buf.type ≠ IpcMsgType.fsClientExit.code
            ∧ w'.fs = (h.serve w.fs w.server.buf).1))) := by
  cases hs with
  | recv hph _ _ _ hfs | exit _ _ hph _ _ _ hfs =>
    exact Or.inl ⟨hfs, fun h1 => by cases hph.symm.trans h1⟩
  | again _ _ _ _ hfs => exact hfs.imp_right fun ⟨h1, _, h2⟩ => ⟨h1, Or.inr (Or.inl h2)⟩
  | answer _ hph _ htype _ _ _ hfs =>
    refine Or.inr ⟨hph, ?_⟩
    by_cases hshut : w.server.buf.type = IpcMsgType.fsShutdown.code
    · exact Or.inl hshut
    · exact Or.inr (Or.inr ⟨htype, hfs hshut⟩)

/-- After a stretch of its code the server has no request in hand. -/
theorem Serves.idle (hs : Serves h w w') : ¬ w'.InHand := by
  rintro ⟨hph, hpc, -⟩
  cases hs with
  | recv _ hph' hmoves =>
    rw [hmoves.server] at hpc
    rcases hpc with h1 | h1
    · cases h1
    · cases h1
  | again _ hph' => cases hph'.symm.trans hph
  | answer _ _ _ _ hans =>
    rcases hans with ⟨-, -, h2⟩ | ⟨-, h2⟩
    · cases h2.symm.trans hph
    · cases h2.symm.trans hph
  | exit _ _ _ hph' => cases hph'.symm.trans hph

/-- A server that is back from `recv`. -/
theorem Up.inHand (hup : Up s .receiving) (hpc : (s.table serverSlot).pc = .user) :
    (s.table serverSlot).InHand := by
  rcases hup.here with h1 | h1 | h1
  · cases hpc.symm.trans h1
  · cases hpc.symm.trans h1
  · exact h1

theorem farewell_serve (hkeep : Keeps h owns) (hinv : Parting owns w)
    (hup' : Up w'.kernel w'.phase) (hs : w.step h .serve = some w') :
    ∀ p, Past w'.kernel p → Farewell owns w' p := by
  have hp := hinv.proto
  have hup := hp.server.up hinv.endless.running
  obtain ⟨huser, hserves⟩ := serves_of_step hs hp.roles.known hup.pid
  obtain ⟨pc, hmoves⟩ := hserves.moves
  intro p hpast
  have hold : Past w.kernel p := by
    intro i hi halive
    by_cases hslot : i = serverSlot
    · subst hslot
      have h1 := hpast serverSlot ((hmoves.pid _).trans hi) hup'.alive
      exact pc_elim hup'.here.serves h1 rfl
    · rw [← hmoves.other hslot] at hi halive ⊢
      exact hpast i hi halive
  have hf := hinv.farewell p hold
  have hfull : w'.server.hasMsg = w.server.hasMsg := by rw [hmoves.server]; rfl
  have hmail : w'.server.mailbox = w.server.mailbox := by rw [hmoves.server]; rfl
  refine ⟨?_, ?_, fun h1 => absurd h1 hserves.idle⟩
  · intro hown
    rw [hfull, hmail]
    left
    rcases hserves.handlers with ⟨h1, h2⟩ | ⟨hph, h1 | h1 | ⟨htype, h1⟩⟩
    · rw [h1] at hown
      rcases hf.told hown with h3 | ⟨⟨h3, -, h4⟩, -⟩
      · exact h3
      · have := h2 h3
        omega
    · -- a client's request is no `SHUTDOWN`
      rw [hph] at hup
      exact absurd h1 (hinv.endless.hand hph (hup.inHand huser)).2
    · rw [h1] at hown
      obtain ⟨h2, h3⟩ := hkeep.close _ _ _ hown
      rcases hf.told h2 with h4 | ⟨-, h4, -⟩
      · exact h4
      · exact absurd h4 h3
    · rw [h1] at hown
      have hnot : ¬ w.server.buf.Parts p := fun h2 => htype h2.2
      by_cases hfrom : w.server.buf.senderPid = p
      · rw [hph] at hup
        exact hf.hand ⟨hph, hup.inHand huser⟩ hfrom hnot
      · rcases hf.told (hkeep.serve _ _ _ hfrom hown) with h4 | ⟨-, h4⟩
        · exact h4
        · exact absurd h4 hnot
  · rw [hfull, hmail]
    exact hf.mail

theorem parting_step (hkeep : Keeps h owns) {b : WAct} (hinv : Parting owns w)
    (hb : b.fileCallsOnly ∧ Heard w b) (hs : w.step h b = some w') :
    Parting owns w' := by
  have hp := hinv.proto
  have hup := hp.server.up hinv.endless.running
  have hguard := hinv.endless.guarded hp hb.1 hs
  have hproto := proto_step (by decide) hp hguard hs
  have hendless := endless_step hinv.endless hp hguard hs
  cases b with
  | kernel a =>
    refine ⟨hproto, hendless, ?_, farewell_kernel hinv hb.1 hb.2 hs⟩
    obtain ⟨k, hk, rfl, -⟩ := step_kernel hs
    refine registered_of_step hp.roles.wf hk hup ?_ hinv.registered
    rintro i rfl
    exact hb.1
  | serve =>
    refine ⟨hproto, hendless, ?_, farewell_serve hkeep hinv
      (hproto.server.up hendless.running) hs⟩
    obtain ⟨-, hserves⟩ := serves_of_step hs hp.roles.known hup.pid
    obtain ⟨pc, hmoves⟩ := hserves.moves
    exact hmoves.frame.fsserverPid.trans hinv.registered

theorem parting_start (hfs : ∀ p, ¬ owns fs p) :
    Parting owns (start fs) := by
  refine ⟨proto_start fs, endless_start fs, rfl, ?_⟩
  intro p _
  refine ⟨fun h1 => absurd h1 (hfs p), ?_, ?_⟩
  · intro hfull
    cases (start_hasMsg fs serverSlot).symm.trans hfull
  · rintro ⟨h1, -⟩
    cases h1

-- ==== the dead

/-- Process `p` is a zombie, or has been reaped. -/
def Dead (s : Kernel) (p : Nat) : Prop :=
  (∃ i, (s.procs i).pid = p ∧ (s.procs i).state = .zombie)
    ∨ (p < s.nextpid ∧ ∀ i, (s.procs i).pid ≠ p)

theorem Dead.past (hw : Wf s) (hd : Dead s p) : Past s p := by
  intro i hi halive
  rcases hd with ⟨j, hj, hz⟩ | ⟨-, hno⟩
  · have hlife : (s.table j).life = .zombie := by
      show (s.procs j).state.life = .zombie
      rw [hz]
      rfl
    have hij : i = j := hw.pid_inj i j (hi.trans hj.symm)
      (hw.occupied i (by rw [halive]; simp))
    subst hij
    cases halive.symm.trans hlife
  · exact absurd hi (hno i)

/-- The server has a message of process `p`, in its mailbox or in hand. -/
def World.Hears (w : World σ) (p : Nat) : Prop :=
  (w.server.hasMsg = true ∧ w.server.mailbox.senderPid = p)
    ∨ (w.InHand ∧ w.server.buf.senderPid = p)

/-- Of a dead process whose messages have all been handled the server keeps
nothing. -/
theorem Parting.nothing (hinv : Parting owns w)
    (hd : Dead w.kernel p) (hno : ¬ w.Hears p) : ¬ owns w.fs p := by
  intro hown
  have hf := hinv.farewell p (hd.past hinv.proto.roles.wf)
  rcases hf.told hown with ⟨h1, h2⟩ | ⟨h1, h2⟩
  · exact hno (Or.inl ⟨h1, h2.1⟩)
  · exact hno (Or.inr ⟨h1, h2.1⟩)

theorem parting_run (hkeep : Keeps h owns) (hfs : ∀ p, ¬ owns fs p) {acts : List WAct}
    (hok : Along (World.step h) (fun w b => b.fileCallsOnly ∧ Heard w b)
      (start fs) acts)
    (hr : runs (World.step h) (start fs) acts = some w) : Parting owns w :=
  Along.invariant (fun _ _ _ hinv ha hst => parting_step hkeep hinv ha hst)
    (parting_start hfs) hok hr

end Xv6FsServer.Ipc
