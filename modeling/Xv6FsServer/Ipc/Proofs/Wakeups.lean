/-
Nobody sleeps through its wakeup.

A process sleeps in `ipc_recv_msg` while its mailbox is empty, and in
`ipc_send_msg` while the target's is full. Whoever fills a mailbox wakes
the first, and `recv` and `exit`, which empty one, wake the second; `wait`
empties one too, but that of a zombie, which nobody waits for. So the
sleepers can rely on what they slept on (`Rested`), with one exception:
`allocproc` clears the mailbox of the slot it has taken and wakes nobody.
A sender can be asleep there, because the loop of `ipc_send_msg` does not
take an `EMBRYO` for a dead target.

The steps are put together from changes of one slot and wakeups. In
between, the sleepers on one channel may have lost their reason to sleep;
`Rested E` leaves those in `E` out, and the wakeup brings them back in.
-/
import Xv6FsServer.Ipc.Proofs.Roles

namespace Xv6FsServer.Ipc

open Lib Function

variable {s s' : Kernel} {a : Act} {E : Chan → Prop}
variable {i : Nat} {f : Proc → Proc} {c : Chan}
variable {j t : Nat} {E' : Chan → Prop}

-- ==== sleepers

/-- What process `i` sleeps on is still so. -/
def Kernel.Rests (s : Kernel) (i : Nat) : Prop :=
  match (s.procs i).pc with
  | .recvLoop _ => (s.procs i).chan = .proc i ∧ (s.procs i).hasMsg = false
  | .sendLoop _ t _ _ => (s.procs i).chan = .hasMsg t
      ∧ (s.procs t).hasMsg = true ∧ (s.procs t).state ≠ .zombie
  | .waitLoop => (s.procs i).chan = .proc i
  | _ => False

/-- The sleepers on channels outside `E` have a reason to sleep. -/
def Rested (E : Chan → Prop) (s : Kernel) : Prop :=
  ∀ i, (s.procs i).state = .sleeping → E (s.procs i).chan ∨ s.Rests i

/-- Every sleeper has a reason to sleep. -/
abbrev AllRested (s : Kernel) : Prop := Rested (fun _ => False) s

/-- Nobody sleeps on the channel. -/
def Unslept (c : Chan) (s : Kernel) : Prop :=
  ∀ i, (s.procs i).state = .sleeping → (s.procs i).chan ≠ c

theorem procs_modify_self (s : Kernel) (i : Nat) (f : Proc → Proc) :
    (s.modify i f).procs i = f (s.procs i) := update_self ..

theorem procs_modify_of_ne (h : j ≠ i) (f : Proc → Proc) :
    (s.modify i f).procs j = s.procs j := update_of_ne h ..

/-- Who sleeps on a mailbox is a sender, and the mailbox is full. -/
theorem Rested.on_mailbox (h : AllRested s)
    (hsleep : (s.procs i).state = .sleeping) (hchan : (s.procs i).chan = .hasMsg t) :
    (s.procs t).hasMsg = true ∧ (s.procs t).state ≠ .zombie := by
  rcases h i hsleep with hc | hr
  · exact hc.elim
  unfold Kernel.Rests at hr
  cases hpc : (s.procs i).pc with
  | recvLoop k =>
    rw [hpc] at hr
    cases hr.1.symm.trans hchan
  | sendLoop pid u m k =>
    rw [hpc] at hr
    cases hr.1.symm.trans hchan
    exact hr.2
  | waitLoop =>
    rw [hpc, hchan] at hr
    cases hr
  | user | ret _ | toSend _ _ _ | toRecv _ | forked _ _ | exiting =>
    rw [hpc] at hr
    exact hr.elim

/-- A sleeper keeps its reason while its own place stays, its mailbox is
not filled, and the mailbox it waits for stays full and its owner lives. -/
theorem Kernel.Rests.kept (h : s.Rests i) (hpc : (s'.procs i).pc = (s.procs i).pc)
    (hchan : (s'.procs i).chan = (s.procs i).chan)
    (hown : (s.procs i).chan = .proc i → (s.procs i).hasMsg = false →
      (s'.procs i).hasMsg = false)
    (hbox : ∀ t, (s.procs i).chan = .hasMsg t → (s.procs t).hasMsg = true →
      (s.procs t).state ≠ .zombie →
      (s'.procs t).hasMsg = true ∧ (s'.procs t).state ≠ .zombie) :
    s'.Rests i := by
  unfold Kernel.Rests at h ⊢
  rw [hpc, hchan]
  cases hp : (s.procs i).pc with
  | recvLoop k =>
    rw [hp] at h
    exact ⟨h.1, hown h.1 h.2⟩
  | sendLoop pid t m k =>
    rw [hp] at h
    exact ⟨h.1, hbox t h.1 h.2.1 h.2.2⟩
  | waitLoop =>
    rw [hp] at h
    exact h
  | user | ret _ | toSend _ _ _ | toRecv _ | forked _ _ | exiting =>
    rw [hp] at h
    exact h

-- ==== changes

/-- Those who sleep on the mailbox of slot `i` can go on: nobody does, or
they are left out, or it stays as full as it was and its owner does not
die. -/
def Spares (E : Chan → Prop) (s : Kernel) (i : Nat) (f : Proc → Proc) : Prop :=
  Unslept (.hasMsg i) s ∨ E (.hasMsg i)
    ∨ (((s.procs i).hasMsg = true → (f (s.procs i)).hasMsg = true)
      ∧ ((f (s.procs i)).state = .zombie → (s.procs i).state = .zombie))

/-- A change of one slot. -/
theorem Rested.slot (h : Rested E s) (hE : ∀ c, E c → E' c)
    (hmail : Spares E' s i f) (hself : (f (s.procs i)).state = .sleeping →
      E' (f (s.procs i)).chan ∨ (s.modify i f).Rests i) :
    Rested E' (s.modify i f) := by
  intro j hj
  by_cases hji : j = i
  · subst hji
    rw [procs_modify_self] at hj ⊢
    exact hself hj
  · have hsame := procs_modify_of_ne (s := s) hji f
    rw [hsame] at hj ⊢
    rcases h j hj with hc | hr
    · exact Or.inl (hE _ hc)
    by_cases hout : E' (s.procs j).chan
    · exact Or.inl hout
    refine Or.inr (hr.kept (by rw [hsame]) (by rw [hsame])
      (fun _ => by rw [hsame]; exact id) fun t hchan hhas hlive => ?_)
    by_cases hti : t = i
    · subst hti
      rw [procs_modify_self]
      rcases hmail with hno | hE' | ⟨hkeep, hdie⟩
      · exact absurd hchan (hno j hj)
      · exact absurd (hchan ▸ hE') hout
      · exact ⟨hkeep hhas, fun hz => hlive (hdie hz)⟩
    · rw [procs_modify_of_ne hti]
      exact ⟨hhas, hlive⟩

/-- A process that is not asleep afterwards, and whose mailbox stays. -/
theorem Rested.modify (h : Rested E s) (hawake : (f (s.procs i)).state ≠ .sleeping)
    (hhas : (f (s.procs i)).hasMsg = (s.procs i).hasMsg)
    (hzombie : (f (s.procs i)).state = .zombie → (s.procs i).state = .zombie) :
    Rested E (s.modify i f) :=
  h.slot (fun _ hc => hc) (Or.inr (Or.inr ⟨fun ht => hhas.trans ht, hzombie⟩))
    fun hsleep => absurd hsleep hawake

/-- Only the place of a running process changes. -/
theorem Rested.place (h : Rested E s) (hrun : (s.procs i).state = .running)
    (hstate : (f (s.procs i)).state = (s.procs i).state)
    (hhas : (f (s.procs i)).hasMsg = (s.procs i).hasMsg) :
    Rested E (s.modify i f) := by
  refine h.modify ?_ hhas ?_
  · rw [hstate, hrun]
    simp
  · rw [hstate]
    exact id

/-- A running process goes to sleep with a reason. -/
theorem Rested.sleep (h : Rested E s) {pc : Pc}
    (hrest : (s.modify i fun p => p.sleep c pc).Rests i) :
    Rested E (s.modify i fun p => p.sleep c pc) := by
  refine h.slot (fun _ hc => hc) (Or.inr (Or.inr ⟨fun ht => ht, fun hz => ?_⟩))
    fun _ => Or.inr hrest
  cases hz

/-- A mailbox is filled: its owner may be asleep for it. -/
theorem Rested.fill (h : AllRested s) (t : Nat) (m : IpcMsg) :
    Rested (· = .proc t) (s.modify t fun p =>
      { p with mailbox := m, hasMsg := true }) := by
  refine h.slot (fun _ hc => hc.elim)
    (Or.inr (Or.inr ⟨fun _ => rfl, fun hz => hz⟩)) fun hsleep => ?_
  rcases h t hsleep with hc | hr
  · exact hc.elim
  by_cases hchan : (s.procs t).chan = .proc t
  · exact Or.inl hchan
  refine Or.inr (hr.kept (by rw [procs_modify_self]) (by rw [procs_modify_self])
    (fun hc => absurd hc hchan) fun u _ hhas hlive => ?_)
  by_cases hu : u = t
  · subst hu
    rw [procs_modify_self]
    exact ⟨rfl, hlive⟩
  · rw [procs_modify_of_ne hu]
    exact ⟨hhas, hlive⟩

/-- A mailbox is emptied, by a process that is awake or for one: those who
wait for it have to be woken. -/
theorem Rested.drain (h : AllRested s) (hawake : (f (s.procs i)).state ≠ .sleeping) :
    Rested (· = .hasMsg i) (s.modify i f) :=
  h.slot (fun _ hc => hc.elim) (Or.inr (Or.inl rfl))
    fun hsleep => absurd hsleep hawake

/-- Nobody waits for the slot. -/
theorem Rested.free (h : AllRested s) (hno : Unslept (.hasMsg i) s)
    (hawake : (f (s.procs i)).state ≠ .sleeping) :
    AllRested (s.modify i f) :=
  h.slot (fun _ hc => hc) (Or.inl hno) fun hsleep => absurd hsleep hawake

-- ==== wakeups

theorem wakeup1_sleeping (h : ((s.wakeup1 c).procs i).state = .sleeping) :
    (s.wakeup1 c).procs i = s.procs i ∧ (s.procs i).chan ≠ c := by
  unfold Kernel.wakeup1 at h ⊢
  dsimp only at h ⊢
  split at h
  next => cases h
  next hno =>
    rw [if_neg hno]
    exact ⟨rfl, fun hc => hno ⟨h, hc⟩⟩

theorem wakeup1_hasMsg (s : Kernel) (c : Chan) (i : Nat) :
    ((s.wakeup1 c).procs i).hasMsg = (s.procs i).hasMsg := by
  unfold Kernel.wakeup1
  dsimp only
  split <;> rfl

theorem wakeup1_zombie (h : ((s.wakeup1 c).procs i).state = .zombie) :
    (s.procs i).state = .zombie := by
  unfold Kernel.wakeup1 at h
  dsimp only at h
  split at h
  next => cases h
  next => exact h

theorem wakeup1_running (h : (s.procs i).state = .running) :
    ((s.wakeup1 c).procs i).state = .running := by
  unfold Kernel.wakeup1
  dsimp only
  rw [if_neg]
  · exact h
  · intro hc
    rw [h] at hc
    cases hc.1

/-- A wakeup brings the sleepers on its channel back in. -/
theorem Rested.wakeup (h : Rested E s) (c : Chan)
    (hE : ∀ d, E d → d = c ∨ E' d) : Rested E' (s.wakeup1 c) := by
  intro j hj
  obtain ⟨hsame, hne⟩ := wakeup1_sleeping hj
  rw [hsame] at hj ⊢
  rcases h j hj with hc | hr
  · exact Or.inl ((hE _ hc).resolve_left hne)
  exact Or.inr (hr.kept (by rw [hsame]) (by rw [hsame])
    (fun _ => by rw [hsame]; exact id) fun t _ hhas hlive =>
      ⟨(wakeup1_hasMsg s c t).trans hhas, fun hz => hlive (wakeup1_zombie hz)⟩)

theorem unslept_wakeup1 (s : Kernel) (c : Chan) : Unslept c (s.wakeup1 c) := by
  intro j hj
  obtain ⟨hsame, hne⟩ := wakeup1_sleeping hj
  rw [hsame]
  exact hne

theorem Unslept.wakeup (h : Unslept c s) (d : Chan) : Unslept c (s.wakeup1 d) := by
  intro j hj
  obtain ⟨hsame, -⟩ := wakeup1_sleeping hj
  rw [hsame] at hj ⊢
  exact h j hj

/-- The two states agree on what sleepers look at. -/
def SameSleep (s s' : Kernel) : Prop :=
  ∀ j, (s'.procs j).state = (s.procs j).state ∧ (s'.procs j).chan = (s.procs j).chan
    ∧ (s'.procs j).pc = (s.procs j).pc ∧ (s'.procs j).hasMsg = (s.procs j).hasMsg

theorem Rested.congr (h : Rested E s) (hsame : SameSleep s s') : Rested E s' := by
  intro j hj
  obtain ⟨hstate, hchan, hpc, hhas⟩ := hsame j
  rw [hstate] at hj
  rw [hchan]
  refine (h j hj).imp_right fun hr => hr.kept hpc hchan ?_ fun t _ => ?_
  · rw [hhas]
    exact fun _ => id
  · obtain ⟨hstate', -, -, hhas'⟩ := hsame t
    rw [hstate', hhas']
    exact And.intro

theorem Unslept.congr (h : Unslept c s) (hsame : SameSleep s s') : Unslept c s' := by
  intro j hj
  obtain ⟨hstate, hchan, -⟩ := hsame j
  rw [hstate] at hj
  rw [hchan]
  exact h j hj

-- ==== the calls

theorem running_modify (hrun : (s.procs i).state = .running)
    (hstate : ∀ p, (f p).state = p.state) :
    ((s.modify j f).procs i).state = .running := by
  by_cases hij : i = j
  · subst hij
    rw [procs_modify_self, hstate]
    exact hrun
  · rw [procs_modify_of_ne hij]
    exact hrun

theorem rested_sendDone (h : AllRested s) (hrun : (s.procs i).state = .running) (r : Int)
    (k : SendFor) :
    AllRested (sendDone s i r k) := by
  unfold sendDone
  cases k with
  | send | exit => exact h.place hrun rfl rfl
  | call server req =>
    dsimp only
    split
    · exact h.place hrun rfl rfl
    · exact h.place hrun rfl rfl

theorem rested_store (h : AllRested s) (pid : Int) (t : Nat) (m : IpcMsg) :
    AllRested (store s pid t m) := by
  have hwoken : AllRested ((s.modify t fun p =>
      { p with mailbox := m, hasMsg := true }).wakeup1 (.proc t)) :=
    (h.fill t m).wakeup (.proc t) fun _ hd => Or.inl hd
  exact hwoken

theorem running_store (hrun : (s.procs i).state = .running) (pid : Int) (t : Nat)
    (m : IpcMsg) : ((store s pid t m).procs i).state = .running :=
  wakeup1_running (running_modify hrun fun _ => rfl)

section

variable (h : AllRested s) (hrun : (s.procs i).state = .running)
include h hrun

theorem rested_sendLoop (pid : Int) (t : Nat) (m : IpcMsg) (k : SendFor) :
    AllRested (sendLoop s i pid t m k) := by
  unfold sendLoop
  split
  next hfull =>
    split
    next => exact rested_sendDone h hrun (-1) k
    next hgone =>
      refine h.sleep ?_
      unfold Kernel.Rests
      rw [procs_modify_self]
      have hlive : (s.procs t).state ≠ .zombie := by
        intro hz
        refine hgone ?_
        rw [Bool.or_eq_true]
        right
        unfold Proc.gone
        rw [hz]
        rfl
      refine ⟨rfl, ?_, ?_⟩
      · by_cases hti : t = i
        · rw [hti, procs_modify_self, ← hti]
          exact hfull
        · rw [procs_modify_of_ne hti]
          exact hfull
      · by_cases hti : t = i
        · rw [hti, procs_modify_self]
          simp [Proc.sleep]
        · rw [procs_modify_of_ne hti]
          exact hlive
  next => exact rested_sendDone (rested_store h pid t m) (running_store hrun ..) 0 k

theorem rested_ipcSendMsg (pid : Int) (msg : IpcMsg) (k : SendFor) :
    AllRested (ipcSendMsg s i pid msg k) := by
  unfold ipcSendMsg
  dsimp only
  split
  next =>
    split
    next =>
      split
      next => exact rested_sendDone h hrun (-1) k
      next => exact rested_sendLoop h hrun pid _ _ k
    next => exact rested_sendDone h hrun (-1) k
  next => exact rested_sendDone h hrun (-1) k

theorem rested_recvDone (got : Option IpcMsg) (k : RecvFor) :
    AllRested (recvDone s i got k) := by
  unfold recvDone
  cases k with
  | recv =>
    cases got with
    | some | none => exact h.place hrun rfl rfl
  | call server req =>
    cases got with
    | some m =>
      dsimp only
      split
      · exact h.place (f := fun p => { p.return 0 true with buf := m }) hrun rfl rfl
      · exact h.place (f := fun p => p.return (-1) false) hrun rfl rfl
    | none => exact h.place hrun rfl rfl

theorem rested_take : AllRested (take s i) := by
  refine (h.drain ?_).wakeup (.hasMsg i) fun _ hd => Or.inl hd
  rw [hrun]
  simp

theorem rested_ipcRecvMsg (k : RecvFor) :
    AllRested (ipcRecvMsg s i k) := by
  unfold ipcRecvMsg
  split
  next =>
    exact rested_recvDone (rested_take h hrun)
      (wakeup1_running (running_modify hrun fun _ => rfl)) _ k
  next hempty =>
    split
    next => exact rested_recvDone h hrun none k
    refine h.sleep ?_
    unfold Kernel.Rests
    rw [procs_modify_self]
    exact ⟨rfl, Bool.not_eq_true _ ▸ hempty⟩

end

theorem sameSleep_parents (s : Kernel) (i : Nat) : SameSleep s { s with
    procs := fun j => if (s.procs j).parent = some i then
      { s.procs j with parent := some 0 } else s.procs j } := by
  intro j
  dsimp only
  split
  · exact ⟨rfl, rfl, rfl, rfl⟩
  · exact ⟨rfl, rfl, rfl, rfl⟩

/-- The parents change, and init may be woken. -/
theorem rested_reparent (h : AllRested s) (i : Nat) : AllRested (reparent s i) := by
  unfold reparent
  split
  · exact (h.congr (sameSleep_parents s i)).wakeup _ fun _ hd => Or.inr hd
  · exact h.congr (sameSleep_parents s i)

theorem unslept_reparent (h : Unslept c s) (i : Nat) : Unslept c (reparent s i) := by
  unfold reparent
  split
  · exact (h.congr (sameSleep_parents s i)).wakeup _
  · exact h.congr (sameSleep_parents s i)

theorem rested_exitFinal (h : AllRested s) (hrun : (s.procs i).state = .running) :
    AllRested (exitFinal s i) := by
  unfold exitFinal
  dsimp only
  generalize hs1 : { s with
    fsserverPid := if s.fsserverPid = (s.procs i).pid then -1 else s.fsserverPid } = s1
  have hprocs : s1.procs = s.procs := by
    rw [← hs1]
  have h1 : AllRested s1 := h.congr fun j => by
    rw [hprocs]
    exact ⟨rfl, rfl, rfl, rfl⟩
  have h2 : AllRested ((s1.modify i fun p =>
      { p with hasMsg := false, mailbox := .zero }).wakeup1 (.hasMsg i)) := by
    refine (h1.drain ?_).wakeup (.hasMsg i) fun _ hd => Or.inl hd
    rw [hprocs, hrun]
    simp
  have hno := unslept_wakeup1 (s1.modify i fun p =>
    { p with hasMsg := false, mailbox := .zero }) (.hasMsg i)
  generalize (s1.modify i fun p =>
    { p with hasMsg := false, mailbox := .zero }).wakeup1 (.hasMsg i) = s2 at h2 hno
  have h3 : ∀ c, AllRested (reparent (s2.wakeup1 c) i)
      ∧ Unslept (.hasMsg i) (reparent (s2.wakeup1 c) i) := fun c =>
    ⟨rested_reparent (h2.wakeup c fun _ hd => Or.inr hd) i,
      unslept_reparent (hno.wakeup c) i⟩
  split
  · exact (h3 _).1.free (h3 _).2 (by simp)
  · exact (h3 _).1.free (h3 _).2 (by simp)

/-- The slot of a zombie is freed: nobody sleeps on its mailbox. -/
theorem rested_wait (h : AllRested s) (hrun : (s.procs i).state = .running) :
    AllRested (wait s i) := by
  unfold wait
  split
  next t hscan =>
    have hzombie : (s.procs t).state = .zombie := by
      have := scan_some hscan
      exact (of_decide_eq_true this).2
    have hno : Unslept (.hasMsg t) s := by
      intro j hj hchan
      exact (h.on_mailbox hj hchan).2 hzombie
    have hne : i ≠ t := by
      intro he
      rw [he, hzombie] at hrun
      cases hrun
    refine (h.free hno ?_).place ?_ rfl rfl
    · simp [Proc.reap]
    · rw [procs_modify_of_ne hne]
      exact hrun
  next =>
    split
    next => exact h.place hrun rfl rfl
    refine h.sleep ?_
    unfold Kernel.Rests
    rw [procs_modify_self]
    rfl

-- ==== the step

/-- Some process sleeps on the channel. -/
def Kernel.asleepOn (s : Kernel) (c : Chan) : Bool :=
  (List.range nproc).any fun i =>
    decide ((s.procs i).state = .sleeping ∧ (s.procs i).chan = c)

/-- `allocproc` clears no mailbox that somebody sleeps on. -/
def ResetAlone (s : Kernel) : Act → Prop
  | .forkReset i =>
    match (s.procs i).pc with
    | .forked t _ => s.asleepOn (.hasMsg t) = false
    | _ => True
  | _ => True

instance (s : Kernel) : ∀ a, Decidable (ResetAlone s a)
  | .forkReset i =>
    match h : (s.procs i).pc with
    | .forked t _ => decidable_of_iff (s.asleepOn (.hasMsg t) = false)
        (by simp only [ResetAlone, h])
    | .user | .ret _ | .toSend _ _ _ | .sendLoop _ _ _ _ | .toRecv _ | .recvLoop _
    | .waitLoop | .exiting => isTrue (by simp only [ResetAlone, h])
  | .kill _ _ | .sched _ | .yield _ | .enter _ | .sysret _ | .send _ _ _ | .recv _
  | .call _ _ | .exit _ | .exitFinal _ | .wait _ | .fork _ | .forkFail _ | .forkDone _
  | .fault _ | .register _ => inferInstanceAs (Decidable True)

theorem Wf.unslept (h : Wf s) (hno : s.asleepOn c = false) : Unslept c s := by
  intro i hsleep hchan
  have hlife : (s.table i).life = .alive := life_of_state hsleep
  have hlt : i < nproc := h.lt_of_life hlife
  have hyes : s.asleepOn c = true :=
    List.any_eq_true.mpr ⟨i, List.mem_range.mpr hlt, decide_eq_true ⟨hsleep, hchan⟩⟩
  cases hno.symm.trans hyes

section

variable (h : AllRested s) (hrun : (s.procs i).state = .running)
include h hrun

theorem rested_fork : AllRested (fork s i) := by
  unfold fork
  split
  next t hscan =>
    have hunused : (s.procs t).state = .unused := of_decide_eq_true (scan_some hscan)
    have hne : i ≠ t := by
      intro he
      rw [he, hunused] at hrun
      cases hrun
    have h1 : AllRested (s.modify t fun p =>
        { p with state := .embryo, pid := s.nextpid }) :=
      h.modify (by simp) rfl (by simp)
    have h2 : AllRested ((s.modify t fun p =>
        { p with state := .embryo, pid := s.nextpid }).modify i fun p =>
          { p with pc := .forked t false }) :=
      h1.place (by rw [procs_modify_of_ne hne]; exact hrun) rfl rfl
    exact h2
  next => exact h.place hrun rfl rfl

theorem rested_kill (pid : Int) : AllRested (kill s i pid) := by
  unfold kill
  split
  next t _ =>
    have hstate : ∀ p : Proc,
        (if p.state = .sleeping then .runnable else p.state) ≠ ProcState.sleeping := by
      intro p
      split
      next => simp
      next hne => exact hne
    refine (h.modify (hstate _) rfl ?_).place ?_ rfl rfl
    · intro hz
      split at hz
      next => cases hz
      next => exact hz
    · by_cases hit : i = t
      · subst hit
        rw [procs_modify_self, hrun]
        rfl
      · rw [procs_modify_of_ne hit]
        exact hrun
  next => exact h.place hrun rfl rfl

/-- `exit` up to its message. -/
theorem rested_exitStart : AllRested (exitStart s i) := by
  unfold exitStart
  split
  next => exact h.place hrun rfl rfl
  next => exact h.place hrun rfl rfl

theorem rested_fsIpcCall (req : IpcMsg) :
    AllRested (fsIpcCall s i req) := by
  unfold fsIpcCall
  split
  next => exact h.place hrun rfl rfl
  exact (h.place (f := fun p => { p with
    pc := .toSend s.fsserverPid { req with requestId := s.nextFsRequestId }
      (.call s.fsserverPid (IpcMsg.from { req with requestId := s.nextFsRequestId }
        p.pid)) }) hrun rfl rfl).congr fun _ => ⟨rfl, rfl, rfl, rfl⟩

end

/-- The steps of a `fork` in progress, on the slot it fills. -/
theorem rested_forked (hw : Wf s) {c : Bool}
    (hrun : (s.procs i).state = .running) (hpc : (s.procs i).pc = .forked t c)
    {g : Proc → Proc} (hf : AllRested (s.modify t f))
    (hg : ∀ p, (g p).state = p.state ∧ (g p).hasMsg = p.hasMsg) :
    AllRested ((s.modify t f).modify i g) := by
  have hlife : (s.table t).life = .embryo := hw.fork_slot i t c hpc
  have halive : (s.table i).life = .alive := life_of_state hrun
  refine hf.place ?_ (hg _).1 (hg _).2
  rw [procs_modify_of_ne (ne_of_life halive hlife)]
  exact hrun

theorem embryo_of_life (h : (s.table t).life = .embryo) :
    (s.procs t).state = .embryo := by
  unfold Kernel.table Proc.core at h
  cases hst : (s.procs t).state with
  | embryo => rfl
  | unused | sleeping | runnable | running | zombie =>
    rw [hst] at h
    cases h

theorem rested_acts (hw : Wf s) (h : AllRested s) (hok : ResetAlone s a)
    (hrun : (s.procs a.actor).state = .running) (hacts : Acts s a s') :
    AllRested s' := by
  cases hacts with
  | yield i => exact h.modify (by simp) rfl (by simp)
  | enterSend i => exact rested_ipcSendMsg h hrun _ _ _
  | enterRecv i => exact rested_ipcRecvMsg h hrun _
  | leave i | exit i => exact rested_exitStart h hrun
  | sysret | send | recv | fault => exact h.place hrun rfl rfl
  | call i req => exact rested_fsIpcCall h hrun req
  | exitFinal i => exact rested_exitFinal h hrun
  | wait i => exact rested_wait h hrun
  | fork i => exact rested_fork h hrun
  | forkReset i t hpc =>
    have hno : s.asleepOn (.hasMsg t) = false := by
      simpa only [ResetAlone, hpc] using hok
    have hembryo := embryo_of_life (hw.fork_slot i t false hpc)
    refine rested_forked hw hrun hpc (h.free (hw.unslept hno) ?_)
      fun _ => ⟨rfl, rfl⟩
    rw [hembryo]
    simp
  | forkFail i t hpc | forkDone i t hpc =>
    exact rested_forked hw hrun hpc (h.modify (by simp) rfl (by simp))
      fun _ => ⟨rfl, rfl⟩
  | kill i pid => exact rested_kill h hrun pid
  | register i =>
    exact (h.place (f := fun p => p.return 0 false) hrun rfl rfl).congr
      fun _ => ⟨rfl, rfl, rfl, rfl⟩

theorem rested_resume (h : AllRested s) (i : Nat) : AllRested (resume s i) := by
  have hwoken : AllRested (s.modify i fun p =>
      { p with state := .running, chan := .null }) := h.modify (by simp) rfl (by simp)
  have hrun : ((s.modify i fun p =>
      { p with state := .running, chan := .null }).procs i).state = .running := by
    rw [procs_modify_self]
  unfold resume
  split
  · exact rested_sendLoop hwoken hrun _ _ _ _
  · exact rested_ipcRecvMsg hwoken hrun _
  · exact rested_wait hwoken hrun
  · exact h.modify (by simp) rfl (by simp)

theorem rested_step (hw : Wf s) (h : AllRested s) (hok : ResetAlone s a)
    (hs : step s a = some s') : AllRested s' := by
  rcases step_cases hs with ⟨i, -, -, rfl⟩ | ⟨hrun, hacts⟩
  · exact rested_resume h i
  · exact rested_acts hw h hok hrun hacts

theorem rested_boot : AllRested boot := by
  intro i hi
  unfold boot at hi
  dsimp only at hi
  by_cases h0 : i = 0
  · subst h0
    cases hi
  · rw [update_of_ne h0] at hi
    cases hi

-- ==== the theorem

/-- In every run in which `allocproc` clears no mailbox that a sender
sleeps on, a process asleep in `ipc_recv_msg` has no message, and one asleep
in `ipc_send_msg` has the target's mailbox full. -/
theorem no_lost_wakeup (acts : List Act) (s : Kernel)
    (hok : Along step ResetAlone boot acts) (hr : runs step boot acts = some s)
    (i : Nat) (hsleep : (s.procs i).state = .sleeping) :
    (∀ k, (s.procs i).pc = .recvLoop k → (s.procs i).hasMsg = false)
      ∧ (∀ t, (s.procs i).chan = .hasMsg t → (s.procs t).hasMsg = true)
      ∧ ∀ pid t m k, (s.procs i).pc = .sendLoop pid t m k →
        (s.procs i).chan = .hasMsg t := by
  obtain ⟨-, hinv⟩ : Wf s ∧ AllRested s :=
    Along.invariant (I := fun k => Wf k ∧ AllRested k)
      (fun _ _ _ h ha hst => ⟨wf_step h.1 hst, rested_step h.1 h.2 ha hst⟩)
      ⟨wf_boot, rested_boot⟩ hok hr
  refine ⟨fun k hpc => ?_, fun t hchan => (hinv.on_mailbox hsleep hchan).1,
    fun pid t m k hpc => ?_⟩
  · rcases hinv i hsleep with hc | hrest
    · exact hc.elim
    · unfold Kernel.Rests at hrest
      rw [hpc] at hrest
      exact hrest.2
  · rcases hinv i hsleep with hc | hrest
    · exact hc.elim
    · unfold Kernel.Rests at hrest
      rw [hpc] at hrest
      exact hrest.1

/-- The second child sleeps on the first one's mailbox, which is full. -/
theorem no_lost_wakeup_second :
    ∃ s, runs step boot secondSleeps = some s ∧ (s.procs 2).state = .sleeping
      ∧ (s.procs 2).chan = .hasMsg 1 ∧ (s.procs 1).hasMsg = true := by
  have heval : (runs step boot secondSleeps).map
      (fun s => ((s.procs 2).state, (s.procs 2).chan)) = some (.sleeping, .hasMsg 1) := by
    decide
  obtain ⟨s, hs, heq⟩ := Option.map_eq_some_iff.mp heval
  obtain ⟨hsleep, hchan⟩ := Prod.mk.inj heq
  exact ⟨s, hs, hsleep, hchan,
    (no_lost_wakeup secondSleeps s (by decide) hs 2 hsleep).2.1 1 hchan⟩

/-- Two children sleep on the mailbox of the first, which exits and is
reaped. One of the sleepers stores its message into the unused slot; `fork`
takes the slot, the other sleeper finds its mailbox full and goes back to
sleep, and then `allocproc` clears it. -/
theorem lost_wakeup :
    (runs step boot
      [.sched 0, .fork 0, .forkReset 0, .forkDone 0, .sysret 0,
        .fork 0, .forkReset 0, .forkDone 0, .sysret 0,
        .fork 0, .forkReset 0, .forkDone 0, .sysret 0,
        .send 0 2 { IpcMsg.zero with type := 1 }, .enter 0, .sysret 0,
        .sched 2, .send 2 2 { IpcMsg.zero with type := 1 }, .enter 2,
        .sched 3, .send 3 2 { IpcMsg.zero with type := 1 }, .enter 3,
        .sched 1, .exit 1, .exitFinal 1, .wait 0, .sysret 0,
        .sched 2, .fork 0, .sched 3, .forkReset 0]).map
      (fun s => ((s.procs 3).state, (s.procs 3).chan, (s.procs 1).hasMsg))
      = some (.sleeping, .hasMsg 1, false) := by
  decide

end Xv6FsServer.Ipc
