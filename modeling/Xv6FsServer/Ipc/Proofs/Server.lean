/-
fsserver's main loop as the kernel sees it.

While the loop runs, the server's place in the kernel is determined by
its phase up to the steps of one system call (`Phase.At`). `server_of_eff`
follows it through a step of the kernel: the phase's places are kept, a
request in hand was in hand or has just been taken from the mailbox, and
a reply on its way was on its way before.
-/
import Xv6FsServer.Ipc.Proofs.Roles

namespace Xv6FsServer.Ipc

open Lib Function

variable {s s' : Kernel} {a : Act}
variable {p : Core} {ph : Phase}
variable {req reply q : IpcMsg} {p' : Core}

-- ==== the phase's places

/-- Back from `recv` with a message. -/
def Core.InHand (p : Core) : Prop :=
  (p.pc = .ret false ∨ p.pc = .user) ∧ p.retval = 0

/-- Inside the `send` of a reply. -/
def Core.Replies (p : Core) (req reply : IpcMsg) : Prop :=
  (∃ msg, p.pc = .toSend req.senderPid msg .send ∧ reply = msg.from serverPid)
    ∨ ∃ t, p.pc = .sendLoop req.senderPid t reply .send

def Phase.At : Phase → Core → Prop
  | .loop, p => p.pc = .user
  | .receiving, p =>
    p.pc = .toRecv .recv ∨ p.pc = .recvLoop .recv ∨ p.InHand
  | .replying req reply, p | .stopping req reply, p =>
    p.Replies req reply ∨ p.pc = .ret false ∨ p.pc = .user
  | .done, _ => False

/-- The request this phase answers. -/
def Phase.Answers : Phase → IpcMsg → IpcMsg → Prop
  | .replying req reply, q, r | .stopping req reply, q, r => req = q ∧ reply = r
  | _, _, _ => False

/-- The server is up, and where its phase says. -/
structure Up (s : Kernel) (ph : Phase) : Prop where
  pid : (s.table serverSlot).pid = serverPid
  alive : (s.table serverSlot).life = .alive
  spared : (s.table serverSlot).killed = false
  here : ph.At (s.table serverSlot)

/-- The places of a running server. -/
def Pc.serves : Pc → Bool
  | .user | .ret false | .toRecv .recv | .recvLoop .recv | .toSend _ _ .send
  | .sendLoop _ _ _ .send => true
  | _ => false

theorem Core.Replies.sends (h : p.Replies req reply) :
    p.pc.sends = true ∧ p.pc.serves = true := by
  rcases h with ⟨msg, h, -⟩ | ⟨t, h⟩
  all_goals
    rw [h]
    exact ⟨rfl, rfl⟩

theorem Phase.At.serves (h : ph.At p) : p.pc.serves = true := by
  have hreply : ∀ req reply, (p.Replies req reply ∨ p.pc = .ret false
      ∨ p.pc = .user) → p.pc.serves = true := by
    rintro req reply (h | h | h)
    · exact h.sends.2
    · rw [h]
      rfl
    · rw [h]
      rfl
  cases ph with
  | loop =>
    rw [show p.pc = .user from h]
    rfl
  | receiving =>
    rcases h with h | h | ⟨h | h, -⟩
    all_goals
      rw [h]
      rfl
  | replying req reply | stopping req reply => exact hreply req reply h
  | done => exact h.elim

/-- A server that is sending answers a request. -/
theorem Phase.At.replies (h : ph.At p) {pid : Int} {k : SendFor}
    (hpc : (∃ msg, p.pc = .toSend pid msg k) ∨ ∃ t m, p.pc = .sendLoop pid t m k) :
    k = .send ∧ ∃ req reply, ph.Answers req reply ∧ p.Replies req reply
      ∧ req.senderPid = pid := by
  have hs : p.pc.sends = true := by
    rcases hpc with ⟨msg, hpc⟩ | ⟨t, m, hpc⟩
    all_goals
      rw [hpc]
      rfl
  have hsend : ∀ {req reply : IpcMsg}, (p.Replies req reply ∨ p.pc = .ret false
      ∨ p.pc = .user) → k = .send ∧ p.Replies req reply ∧ req.senderPid = pid := by
    intro req reply h
    have h : p.Replies req reply := by
      rcases h with h | h | h
      · exact h
      · exact pc_elim hs h rfl
      · exact pc_elim hs h rfl
    have hall := h
    rcases h with ⟨msg', h, -⟩ | ⟨t', h⟩
    · rcases hpc with ⟨msg, hpc⟩ | ⟨t, m, hpc⟩
      · cases h.symm.trans hpc
        exact ⟨rfl, hall, rfl⟩
      · cases h.symm.trans hpc
    · rcases hpc with ⟨msg, hpc⟩ | ⟨t, m, hpc⟩
      · cases h.symm.trans hpc
      · cases h.symm.trans hpc
        exact ⟨rfl, hall, rfl⟩
  cases ph with
  | loop => exact pc_elim hs h rfl
  | receiving =>
    rcases h with h | h | ⟨h | h, -⟩
    all_goals exact pc_elim hs h rfl
  | replying req reply | stopping req reply =>
    obtain ⟨h1, h2, h3⟩ := hsend h
    exact ⟨h1, req, reply, ⟨rfl, rfl⟩, h2, h3⟩
  | done => exact h.elim

/-- A server that is receiving is in that phase. -/
theorem Phase.At.receives (h : ph.At p) {k : RecvFor}
    (hpc : p.pc = .toRecv k ∨ p.pc = .recvLoop k) :
    k = .recv ∧ ph = .receiving := by
  have hr : p.pc.receives = true := by
    rcases hpc with hpc | hpc
    all_goals
      rw [hpc]
      rfl
  have hreply : ∀ req reply, (p.Replies req reply ∨ p.pc = .ret false
      ∨ p.pc = .user) → False := by
    rintro req reply (h | h | h)
    · rcases hpc with hpc | hpc
      · exact pc_elim h.sends.1 hpc rfl
      · exact pc_elim h.sends.1 hpc rfl
    · exact pc_elim hr h rfl
    · exact pc_elim hr h rfl
  cases ph with
  | loop => exact pc_elim hr h rfl
  | receiving =>
    refine ⟨?_, rfl⟩
    rcases h with h | h | ⟨h | h, -⟩
    · rcases hpc with hpc | hpc
      · cases h.symm.trans hpc
        rfl
      · cases h.symm.trans hpc
    · rcases hpc with hpc | hpc
      · cases h.symm.trans hpc
      · cases h.symm.trans hpc
        rfl
    · exact pc_elim hr h rfl
    · exact pc_elim hr h rfl
  | replying req reply | stopping req reply => exact (hreply req reply h).elim
  | done => exact h.elim

theorem Phase.Answers.unique {r q' r' : IpcMsg} (h : ph.Answers q r)
    (h' : ph.Answers q' r') : q = q' ∧ r = r' := by
  cases ph with
  | replying => exact ⟨h.1.symm.trans h'.1, h.2.symm.trans h'.2⟩
  | stopping => exact ⟨h.1.symm.trans h'.1, h.2.symm.trans h'.2⟩
  | loop | receiving | done => exact h.elim

theorem Phase.Answers.place {r : IpcMsg} (h : ph.Answers q r)
    (hp : p.Replies q r ∨ p.pc = .ret false ∨ p.pc = .user) :
    ph.At p := by
  cases ph with
  | replying =>
    obtain ⟨rfl, rfl⟩ := h
    exact hp
  | stopping =>
    obtain ⟨rfl, rfl⟩ := h
    exact hp
  | loop | receiving | done => exact h.elim

theorem Phase.answers_of {r : IpcMsg} {A B C : Prop}
    (h : (A ∧ B ∧ ph = .replying q r) ∨ (C ∧ ph = .stopping q r)) :
    ph.Answers q r := by
  rcases h with ⟨-, -, rfl⟩ | ⟨-, rfl⟩
  · exact ⟨rfl, rfl⟩
  · exact ⟨rfl, rfl⟩

/-- A server back in user space while it receives has a message in hand. -/
theorem Phase.At.inHand (h : ph.At p) (hph : ph = .receiving) (huser : p.pc = .user) :
    p.InHand := by
  subst hph
  rcases h with h1 | h1 | h1
  · cases huser.symm.trans h1
  · cases huser.symm.trans h1
  · exact h1

theorem Phase.Answers.not_receiving {r : IpcMsg} (h : ph.Answers q r) :
    ph ≠ .receiving := by
  rintro rfl
  exact h

-- ==== a step of the kernel

/-- The server before and after a step of the kernel, in one phase. -/
structure ServerNext (s : Kernel) (ph : Phase) (p p' : Core) : Prop where
  here : ph.At p'
  held : ph = .receiving → p'.InHand → (p.InHand ∧ p'.buf = p.buf)
    ∨ (p.hasMsg = true ∧ p'.hasMsg = false ∧ p'.buf = p.mailbox)
  replies : ∀ req reply, ph.Answers req reply → p'.Replies req reply →
    p.Replies req reply ∧ (p'.pc = p.pc
      ∨ ∃ t, ((s.table t).pid : Int) = req.senderPid
        ∧ (s.table t).hasMsg = true)

/-- Nothing the server has or does changes. -/
theorem ServerNext.of_same (h : ph.At p) (hpc : p'.pc = p.pc)
    (hret : p'.retval = p.retval) (hbuf : p'.buf = p.buf) :
    ServerNext s ph p p' := by
  have hrep : ∀ req reply, p'.Replies req reply ↔ p.Replies req reply := by
    intro req reply
    unfold Core.Replies
    rw [hpc]
  have hin : p'.InHand ↔ p.InHand := by
    unfold Core.InHand
    rw [hpc, hret]
  refine ⟨?_, fun _ h1 => Or.inl ⟨hin.mp h1, hbuf⟩,
    fun req reply _ h1 => ⟨(hrep req reply).mp h1, Or.inl hpc⟩⟩
  cases ph with
  | loop => exact hpc.trans h
  | receiving =>
    rcases h with h | h | h
    · exact Or.inl (hpc.trans h)
    · exact Or.inr (Or.inl (hpc.trans h))
    · exact Or.inr (Or.inr (hin.mpr h))
  | replying req reply | stopping req reply =>
    exact h.imp (hrep req reply).mpr (Or.imp hpc.trans hpc.trans)
  | done => exact h

/-- The `send` of a reply returns. -/
theorem ServerNext.of_sent (h : ph.Answers req reply) (hpc : p'.pc = .ret false) :
    ServerNext s ph p p' := by
  refine ⟨h.place (Or.inr (Or.inl hpc)), fun e => absurd e h.not_receiving, ?_⟩
  intro q r _ h1
  exact pc_elim h1.sends.1 hpc rfl

/-- The moves of a running server that are not its program's. -/
theorem Phase.At.goto (h : ph.At p) (hpid : p.pid = serverPid) (hk : p.killed = false)
    (hprog : a.isProgram = false) {pc : Pc} {r : Int} (hmove : Move s p a pc r) :
    ServerNext s ph p (p.goto pc r) := by
  have hask : ¬ p.Asks a := fun hp => by
    cases hp.2.symm.trans hprog
  have hwait : ¬ (p.Asks a ∨ p.pc = .waitLoop) := by
    rintro (hpc | hpc)
    · exact hask hpc
    · exact pc_elim h.serves hpc rfl
  have hexit : ¬ (p.Asks a ∨ ∃ b, p.pc = .ret b ∧ p.killed = true) := by
    rintro (hpc | ⟨b, -, hpc⟩)
    · exact hask hpc
    · cases hk.symm.trans hpc
  cases hmove with
  | sched | yield => exact .of_same h rfl rfl rfl
  | send | recv | call | noServer => cases hprog
  | exit _ hpc => exact absurd hpc hexit
  | exitQuietly _ hpc => exact absurd hpc hexit
  | sysret i b hpc hkilled =>
    refine ⟨?_, ?_, ?_⟩
    · cases ph with
      | loop => cases hpc.symm.trans h
      | receiving =>
        rcases h with h | h | h
        · cases hpc.symm.trans h
        · cases hpc.symm.trans h
        · exact Or.inr (Or.inr ⟨Or.inr rfl, h.2⟩)
      | replying | stopping => exact Or.inr (Or.inr rfl)
      | done => exact h
    · rintro rfl h1
      rcases h with h | h | h
      · cases hpc.symm.trans h
      · cases hpc.symm.trans h
      · exact Or.inl ⟨h, rfl⟩
    · intro req reply _ h1
      cases h1.sends.1
  | sendFail _ k _ hpc =>
    rcases hpc with ⟨pid, msg, hpc⟩ | ⟨pid, t, m, hpc⟩
    · obtain ⟨rfl, req, reply, hans, -⟩ := h.replies (Or.inl ⟨msg, hpc⟩)
      exact .of_sent hans rfl
    · obtain ⟨rfl, req, reply, hans, -⟩ := h.replies (Or.inr ⟨t, m, hpc⟩)
      exact .of_sent hans rfl
  | sendWait _ pid t m k hs hfull =>
    cases hs with
    | waited hpc => exact .of_same h hpc.symm rfl rfl
    | found msg hpc hm hfind =>
      obtain ⟨rfl, req, reply, hans, hrep, rfl⟩ :=
        h.replies (Or.inl ⟨msg, hpc⟩)
      have hreply : reply = m := by
        rcases hrep with ⟨msg', h1, h2⟩ | ⟨t', h1⟩
        · cases h1.symm.trans hpc
          rw [hm, hpid, h2]
        · cases h1.symm.trans hpc
      subst hreply
      refine ⟨hans.place (Or.inl (Or.inr ⟨t, rfl⟩)),
        fun e => absurd e hans.not_receiving, ?_⟩
      intro q r hq _
      obtain ⟨rfl, rfl⟩ := hans.unique hq
      exact ⟨hrep, Or.inr ⟨t, findPid_pid hfind, hfull⟩⟩
  | recvFail _ k hpc hkilled => cases hk.symm.trans hkilled
  | recvWait _ k hpc =>
    obtain ⟨rfl, rfl⟩ := h.receives hpc
    refine ⟨Or.inr (Or.inl rfl), ?_, ?_⟩
    · rintro - ⟨h1 | h1, -⟩
      · cases h1
      · cases h1
    · intro req reply hans
      exact hans.elim
  | waitSleep _ hpc => exact absurd hpc hwait
  | back _ _ hpc => exact absurd hpc hwait

/-- The server stays up through every step of the kernel but its own
killing. -/
theorem server_of_eff (hw : Wf s) (heff : Eff s a s') (hup : Up s ph)
    (hkill : ∀ i pid, a = .kill i pid → pid ≠ serverPid)
    (hprog : a.actor = serverSlot → a.isProgram = false) :
    Up s' ph ∧ ServerNext s ph (s.table serverSlot) (s'.table serverSlot) := by
  have hmake : ∀ {q : Core}, s'.table serverSlot = q →
      q.pid = (s.table serverSlot).pid → q.life = (s.table serverSlot).life →
      q.killed = (s.table serverSlot).killed →
      ServerNext s ph (s.table serverSlot) q →
      Up s' ph ∧ ServerNext s ph (s.table serverSlot) q := by
    rintro q rfl h1 h2 h3 h4
    exact ⟨⟨h1.trans hup.pid, h2.trans hup.alive, h3.trans hup.spared, h4.here⟩, h4⟩
  have halive := hup.alive
  have hslot := becomes_of_eff hw heff serverSlot (Or.inr halive)
  generalize hq : s'.table serverSlot = q at hslot ⊢
  cases hslot with
  | same | filled => exact hmake hq rfl rfl rfl (.of_same hup.here rfl rfl rfl)
  | killed _ pid ha hfind =>
    refine absurd ?_ (hkill _ _ ha)
    rw [← findPid_pid hfind, hup.pid]
  | reaped _ hlife | alloc _ hlife => simp [hlife] at halive
  | reset _ hpc | unalloc _ hpc | born _ _ hpc =>
    simp [hw.fork_slot _ _ _ hpc] at halive
  | moved hi pc r hmove =>
    exact hmake hq rfl rfl rfl
      (hup.here.goto hup.pid hup.spared (hprog hi.symm) hmove)
  | sent _ _ _ _ _ _ hs | sentSelf _ _ _ _ _ hs =>
    obtain ⟨rfl, req, reply, hans, -⟩ :=
      hup.here.replies (hs.pc.imp_right fun h => ⟨_, _, h⟩)
    exact hmake hq rfl rfl rfl (.of_sent hans rfl)
  | took _ k hpc hfull =>
    obtain ⟨rfl, rfl⟩ := hup.here.receives hpc
    refine hmake hq rfl rfl rfl ⟨Or.inr (Or.inr ⟨Or.inl rfl, rfl⟩), ?_, ?_⟩
    · intro _ _
      exact Or.inr ⟨hfull, rfl, rfl⟩
    · intro req reply hans
      exact hans.elim
  | exited _ _ hpc | cleared _ _ hpc => exact pc_elim hup.here.serves hpc rfl
  | back hi _ hpc =>
    rcases hpc with hpc | hpc | ⟨_, hpc⟩
    · cases hpc.2.symm.trans (hprog hi.symm)
    all_goals exact pc_elim hup.here.serves hpc rfl
  | forking hi _ ha | suicide hi _ _ ha | fault hi ha | registered hi ha =>
    have hp := hprog hi.symm
    rw [ha] at hp
    cases hp

end Xv6FsServer.Ipc
