/-
What goes into a mailbox comes out of it.

`Boxes` runs the kernel and keeps, per slot, the messages that
`ipc_send_msg` put into its mailbox since `allocproc` last cleared it, each
with the pid of the process that sent it, and the messages that the slot's
own `ipc_recv_msg` calls returned. What a step did is read off the kernel
before and after it (`event`): a message stored is the new entry of
`stored`, a message returned is the one in the caller's hands.

While a process has the slot (`Kernel.Occupied`: from `allocproc`'s
clearing of the mailbox to `exit`'s) the messages put are those returned,
in order, and then the one in the mailbox, if there is one. Each carries
its sender's pid (`mailbox_exact`).
-/
import Xv6FsServer.Ipc.Proofs.Family

namespace Xv6FsServer.Ipc

open Lib Function

variable {s s' : Kernel} {a : Act}
variable {t : Nat}
variable {pc : Pc} {p c : Core} {r : Int}

-- ==== events

/-- What happened to a mailbox: the message of a sender went in, the owner
got a message out, or `allocproc` cleared it. -/
inductive Event
  | put (slot sender : Nat) (m : IpcMsg)
  | got (slot : Nat) (m : IpcMsg)
  | reset (slot : Nat)

/-- The event of a step, from the place the process was at. -/
def event (s : Kernel) (a : Act) (s' : Kernel) : Option Event :=
  let p := s.procs a.actor
  let p' := s'.procs a.actor
  match p.pc with
  | .toSend pid _ _ =>
    match s'.stored[s.stored.length]?, s.findPid pid with
    | some d, some t => some (.put t p.pid d.msg)
    | _, _ => none
  | .sendLoop _ t _ _ =>
    match s'.stored[s.stored.length]? with
    | some d => some (.put t p.pid d.msg)
    | none => none
  | .toRecv .recv | .recvLoop .recv =>
    if p'.pc.isRet ∧ p'.retval = 0 then some (.got a.actor p'.buf) else none
  | .toRecv (.call _ _) | .recvLoop (.call _ _) =>
    match s'.taken[s.taken.length]? with
    | some d => some (.got a.actor d.msg)
    | none => none
  | .forked t false =>
    match p'.pc with
    | .forked _ true => some (.reset t)
    | _ => none
  | _ => none

/-- The kernel with the traffic of every slot's mailbox. -/
structure Boxes where
  kernel : Kernel
  put : Nat → List (Nat × IpcMsg)
  got : Nat → List IpcMsg

def Boxes.boot : Boxes := ⟨Ipc.boot, fun _ => [], fun _ => []⟩

/-- Write down an event. -/
def Boxes.note (w : Boxes) : Option Event → Boxes
  | some (.put t sender m) =>
    { w with put := update w.put t (w.put t ++ [(sender, m)]) }
  | some (.got t m) => { w with got := update w.got t (w.got t ++ [m]) }
  | some (.reset t) =>
    { w with put := update w.put t [], got := update w.got t [] }
  | none => w

def Boxes.step (w : Boxes) (a : Act) : Option Boxes :=
  match Ipc.step w.kernel a with
  | some k => some { w.note (event w.kernel a k) with kernel := k }
  | none => none

/-- A process has the slot, from `allocproc`'s clearing of its mailbox to
`exit`'s. -/
def Kernel.Occupied (s : Kernel) (t : Nat) : Prop :=
  (s.procs t).state = .sleeping ∨ (s.procs t).state = .runnable
    ∨ (s.procs t).state = .running ∨ ∃ i, (s.procs i).pc = .forked t true

-- ==== the event of a step

theorem getElem?_of_same {α : Type*} {l l' : List α} (h : l' = l) :
    l'[l.length]? = none := by
  rw [h]
  exact List.getElem?_eq_none (Nat.le_refl _)

theorem getElem?_of_snoc {α : Type*} {l l' : List α} {x : α} (h : l' = l ++ [x]) :
    l'[l.length]? = some x := by
  rw [h]
  simp

/-- A step that stores and takes nothing is no event, if it returns from no
`recv` and clears no slot. -/
theorem event_none (hstored : s'.stored = s.stored) (htaken : s'.taken = s.taken)
    (hrecv : (s.table a.actor).pc = .toRecv .recv
        ∨ (s.table a.actor).pc = .recvLoop .recv →
      ¬ ((s'.table a.actor).pc.isRet ∧ (s'.table a.actor).retval = 0))
    (hfork : ∀ t u, (s.table a.actor).pc = .forked t false →
      (s'.table a.actor).pc ≠ .forked u true) : event s a s' = none := by
  unfold event
  dsimp only
  split
  next => rw [getElem?_of_same hstored]
  next => rw [getElem?_of_same hstored]
  next h => exact if_neg (hrecv (.inl h))
  next h => exact if_neg (hrecv (.inr h))
  next => rw [getElem?_of_same htaken]
  next => rw [getElem?_of_same htaken]
  next t h =>
    split
    next u hu => exact absurd hu (hfork t u h)
    next => rfl
  next => rfl

/-- Neither in `ipc_recv_msg` nor about to clear a slot. -/
def Pc.elsewhere : Pc → Bool
  | .toRecv _ | .recvLoop _ | .forked _ false => false
  | _ => true

theorem event_elsewhere (hstored : s'.stored = s.stored)
    (htaken : s'.taken = s.taken) (hpc : (s.table a.actor).pc = pc)
    (helse : pc.elsewhere = true) : event s a s' = none := by
  subst hpc
  refine event_none hstored htaken (fun h => ?_) fun t _ h => ?_
  · rcases h with h | h
    · rw [h] at helse
      cases helse
    · rw [h] at helse
      cases helse
  · rw [h] at helse
    cases helse

theorem event_store {pid : Int} {m : IpcMsg} {k : SendFor} {d : Stored}
    (hs : Sending s (s.table a.actor) pid t m k) (hm : d.msg = m)
    (hstored : s'.stored = s.stored ++ [d]) :
    event s a s' = some (.put t (s.procs a.actor).pid m) := by
  have hd := getElem?_of_snoc hstored
  unfold event
  dsimp only
  cases hs with
  | found msg hpc hm' hfind =>
    have hpc : (s.procs a.actor).pc = .toSend pid msg k := hpc
    rw [hpc]
    dsimp only
    rw [hd, hfind]
    dsimp only
    rw [hm]
  | waited hpc =>
    have hpc : (s.procs a.actor).pc = .sendLoop pid t m k := hpc
    rw [hpc]
    rw [hd]
    dsimp only
    rw [hm]

theorem event_took {k : RecvFor}
    (hpc : (s.table a.actor).pc = .toRecv k ∨ (s.table a.actor).pc = .recvLoop k)
    (htable : s'.table = update s.table a.actor
      ((s.table a.actor).drain.got (s.table a.actor).mailbox k))
    (htaken : s'.taken = s.taken ++
      k.record (s.table a.actor).pid (s.table a.actor).mailbox) :
    event s a s' = some (.got a.actor (s.table a.actor).mailbox) := by
  have hpc : (s.procs a.actor).pc = .toRecv k
      ∨ (s.procs a.actor).pc = .recvLoop k := hpc
  cases k with
  | recv =>
    have hcore : s'.table a.actor
        = (s.table a.actor).drain.got (s.table a.actor).mailbox .recv := by
      rw [htable, update_self]
    have hret : (s'.table a.actor).pc.isRet ∧ (s'.table a.actor).retval = 0 := by
      rw [hcore]
      exact ⟨rfl, rfl⟩
    have hbuf : (s'.table a.actor).buf = (s.table a.actor).mailbox := by
      rw [hcore]
      rfl
    unfold event
    dsimp only
    rcases hpc with hpc | hpc
    · rw [hpc]
      exact (if_pos hret).trans (congrArg (fun m => some (Event.got a.actor m)) hbuf)
    · rw [hpc]
      exact (if_pos hret).trans (congrArg (fun m => some (Event.got a.actor m)) hbuf)
  | call server req =>
    have hd := getElem?_of_snoc htaken
    unfold event
    dsimp only
    rcases hpc with hpc | hpc
    · rw [hpc]
      rw [hd]
    · rw [hpc]
      rw [hd]

theorem event_reset (hpc : (s.table a.actor).pc = .forked t false)
    (hpc' : (s'.table a.actor).pc = .forked t true) :
    event s a s' = some (.reset t) := by
  have hpc : (s.procs a.actor).pc = .forked t false := hpc
  have hpc' : (s'.procs a.actor).pc = .forked t true := hpc'
  unfold event
  dsimp only
  rw [hpc]
  rw [hpc']

-- ==== what a step does

/-- The message in the mailbox, if there is one. -/
def Core.pending (p : Core) : List IpcMsg := if p.hasMsg then [p.mailbox] else []

theorem Core.pending_of_empty (h : p.hasMsg = false) : p.pending = [] := by
  unfold Core.pending
  rw [h]
  rfl

theorem Core.pending_of_full (h : p.hasMsg = true) :
    p.pending = [p.mailbox] := by
  unfold Core.pending
  rw [h]
  rfl

/-- `Occupied` on the process table. -/
def Kernel.Held (s : Kernel) (t : Nat) : Prop :=
  (s.table t).life = .alive ∨ ∃ i, (s.table i).pc = .forked t true

theorem Kernel.Occupied.held (h : s.Occupied t) : s.Held t := by
  rcases h with h | h | h | h
  · exact .inl (life_of_state h)
  · exact .inl (life_of_state h)
  · exact .inl (life_of_state h)
  · exact .inr h

/-- A slot that is held is neither free nor a zombie's. -/
theorem Wf.held_life (hw : Wf s) (h : s.Held t) :
    (s.table t).life = .alive ∨ (s.table t).life = .embryo := by
  rcases h with h | ⟨i, hi⟩
  · exact .inl h
  · exact .inr (hw.fork_slot i t true hi)

/-- A slot comes to be held by `allocproc`'s clearing only. -/
theorem held_of_eff (hw : Wf s) (halive : (s.table a.actor).life = .alive)
    (heff : Eff s a s') (h : s'.Held t) :
    s.Held t ∨ event s a s' = some (.reset t) := by
  rcases h with h | ⟨i, hi⟩
  · rcases life_of_eff hw halive heff t with hsame | hunborn | ⟨ht, -⟩ | ⟨hpc, -⟩
    · exact .inl (.inl (hsame.symm.trans h))
    · rcases hunborn with hl | hl
      · cases h.symm.trans hl
      · cases h.symm.trans hl
    · exact .inl (.inl (ht ▸ halive))
    · exact .inl (.inr ⟨a.actor, hpc⟩)
  · rcases forked_of_eff hw halive heff hi with hold | ⟨hi', hpc, -, -⟩
    · exact .inl (.inr ⟨i, hold⟩)
    · subst hi'
      exact .inr (event_reset hpc hi)

/-- What a step means for the mailboxes of the slots that are held. -/
inductive Traffic (s : Kernel) (a : Act) (s' : Kernel) : Prop
  | none (he : event s a s' = none)
      (hkept : ∀ t, s'.Held t → (s'.table t).pending = (s.table t).pending)
  | put (t : Nat) (m : IpcMsg)
      (he : event s a s' = some (.put t (s.table a.actor).pid m))
      (hstamp : m.senderPid = (s.table a.actor).pid)
      (hempty : (s.table t).pending = []) (hfull : (s'.table t).pending = [m])
      (hkept : ∀ u, u ≠ t → (s'.table u).pending = (s.table u).pending)
  | got (t : Nat) (m : IpcMsg) (he : event s a s' = some (.got t m))
      (hfull : (s.table t).pending = [m]) (hempty : (s'.table t).pending = [])
      (hkept : ∀ u, u ≠ t → (s'.table u).pending = (s.table u).pending)
  | reset (t : Nat) (he : event s a s' = some (.reset t))
      (hempty : (s'.table t).pending = [])
      (hkept : ∀ u, u ≠ t → (s'.table u).pending = (s.table u).pending)

/-- A step on two slots that leaves the mailboxes alone. -/
theorem Traffic.of_set₂ {u : Nat} {g : Core → Core}
    (he : event s a s' = Option.none) (htable : s'.table = s.table.set₂ u c a.actor g)
    (hc : s'.Held u → c.pending = (s.table u).pending)
    (hg : ∀ p, (g p).pending = p.pending) : Traffic s a s' := by
  refine .none he fun t ht => ?_
  have hproj : (s'.table t).pending = (update s.table u c t).pending := by
    rw [htable]
    unfold Table.set₂
    exact update_proj Core.pending (hg _) t
  rw [hproj]
  by_cases hu : t = u
  · subst hu
    rw [update_self]
    exact hc ht
  · rw [update_of_ne hu]

/-- A step of the actor's own that leaves its mailbox alone. -/
theorem Traffic.of_update (he : event s a s' = Option.none)
    (htable : s'.table = update s.table a.actor c)
    (hc : s'.Held a.actor → c.pending = (s.table a.actor).pending) :
    Traffic s a s' := by
  refine .none he fun t ht => ?_
  rw [htable]
  by_cases hu : t = a.actor
  · subst hu
    rw [update_self]
    exact hc ht
  · rw [update_of_ne hu]

/-- A process that waits for a message does not move on with one. -/
theorem Move.not_got (h : Move s p a pc r)
    (hp : p.pc = .toRecv .recv ∨ p.pc = .recvLoop .recv) :
    ¬ (pc.isRet ∧ r = 0) := by
  rintro ⟨hret, hr⟩
  rcases h.receiving hp with ⟨hsame, -⟩ | ⟨-, ⟨hpc, -⟩ | ⟨-, -, hfail⟩⟩
  · rcases hp with hp | hp
    · simp [hsame, hp, Pc.isRet] at hret
    · simp [hsame, hp, Pc.isRet] at hret
  · simp [hpc, Pc.isRet] at hret
  · simp [hfail] at hr

theorem Move.event_none (hmove : Move s (s.table a.actor) a pc r)
    (hcore : s'.table a.actor = (s.table a.actor).goto pc r)
    (hframe : Frame s s') : event s a s' = none := by
  have hpc' : (s'.table a.actor).pc = pc := by
    rw [hcore]
    rfl
  have hret' : (s'.table a.actor).retval = r := by
    rw [hcore]
    rfl
  refine Ipc.event_none hframe.stored hframe.taken (fun hrecv hret => ?_)
    fun t u hfork hcl => ?_
  · rw [hpc', hret'] at hret
    exact hmove.not_got hrecv hret
  · rw [hpc'] at hcl
    rcases hmove.not_forked with h | h
    · cases hfork.symm.trans (h.symm.trans hcl)
    · exact h u true hcl

theorem traffic_of_eff (hw' : Wf s') (hst : Stamped s) (heff : Eff s a s') :
    Traffic s a s' := by
  -- the slot of a zombie, or an unused one, is not held
  have hgone : ∀ {t : Nat} {c : Core}, (s'.table t) = c → c.life ≠ .alive →
      c.life ≠ .embryo → ¬ s'.Held t := by
    intro t c hc h1 h2 h
    rcases hw'.held_life h with hl | hl
    · exact h1 (hc ▸ hl)
    · exact h2 (hc ▸ hl)
  cases heff with
  | quiet pc r hmove htable hframe =>
    refine .of_update (hmove.event_none ?_ hframe) htable fun _ => rfl
    rw [htable, update_self]
  | store pid t m k r hs hempty htable hnext hfs d hd hstored =>
    have hproj : ∀ u, (s'.table u).pending
        = (update s.table t ((s.table t).fill m) u).pending := by
      intro u
      rw [htable]
      unfold Table.set₂
      exact update_proj Core.pending (by rfl) u
    refine .put t m (event_store hs hd.msg hstored) (hst.of_sending hs)
      (Core.pending_of_empty hempty) ?_ fun u hu => ?_
    · rw [hproj, update_self]
      rfl
    · rw [hproj, update_of_ne hu]
  | took k hpc hfull htable hnext hfs hstored htaken =>
    refine .got a.actor (s.table a.actor).mailbox (event_took hpc htable htaken)
      (Core.pending_of_full hfull) ?_ fun u hu => ?_
    · rw [htable, update_self]
      apply Core.pending_of_empty
      rw [Core.got_hasMsg]
      rfl
    · rw [htable, update_of_ne hu]
  | zombie ha hpc htable hnext hfs hstored htaken =>
    have hcore := congrFun htable a.actor
    rw [update_self] at hcore
    refine .of_update (event_elsewhere hstored htaken hpc rfl) htable fun h => ?_
    exact absurd h (hgone hcore nofun nofun)
  | reap t r hpc hlife htable hframe =>
    have he : event s a s' = none := by
      rcases hpc with hpc | hpc
      · exact event_elsewhere hframe.stored hframe.taken hpc.1 rfl
      · exact event_elsewhere hframe.stored hframe.taken hpc rfl
    have hlife' : (s'.table t).life = .unused := by
      rw [htable]
      unfold Table.set₂
      refine (update_proj Core.life (by rfl) t).trans ?_
      rw [update_self]
    refine .of_set₂ he htable (fun h => ?_) fun _ => rfl
    exact absurd h (hgone rfl (by rw [hlife']; nofun) (by rw [hlife']; nofun))
  | alloc t ha ht hpc hlife htable hnext hfs hstored htaken =>
    exact .of_set₂ (event_elsewhere hstored htaken hpc rfl) htable (fun _ => rfl)
      fun _ => rfl
  | reset t hpc htable hframe =>
    have hproj : ∀ u, (s'.table u).pending
        = (update s.table t (s.table t).drain u).pending := by
      intro u
      rw [htable]
      unfold Table.set₂
      exact update_proj Core.pending (by rfl) u
    refine .reset t (event_reset hpc ?_) ?_ fun u hu => ?_
    · rw [htable, Table.set₂_self]
    · rw [hproj, update_self]
      rfl
    · rw [hproj, update_of_ne hu]
  | unalloc _ _ hpc htable hframe | born _ _ _ hpc htable hframe
  | kill _ _ _ _ hpc _ htable hframe =>
    exact .of_set₂ (event_elsewhere hframe.stored hframe.taken hpc rfl) htable
      (fun _ => rfl) fun _ => rfl
  | fault ha htable hframe =>
    have hpc' : (s'.table a.actor).pc = (s.table a.actor).pc := by
      rw [htable, update_self]
    refine .of_update (event_none hframe.stored hframe.taken ?_ ?_) htable fun _ => rfl
    · intro hrecv hret
      rw [hpc'] at hret
      rcases hrecv with h | h
      · rw [h] at hret
        cases hret.1
      · rw [h] at hret
        cases hret.1
    · intro t u hfork hcl
      cases hfork.symm.trans (hpc'.symm.trans hcl)
  | register ha hpc htable hnext hfs hstored htaken =>
    exact .of_update (event_elsewhere hstored htaken hpc rfl) htable fun _ => rfl

-- ==== the invariant

structure BoxesInv (w : Boxes) : Prop where
  wf : Wf w.kernel
  stamped : Stamped w.kernel
  exact : ∀ t, w.kernel.Held t →
    (w.put t).map Prod.snd = w.got t ++ (w.kernel.table t).pending
  sender : ∀ t, ∀ e ∈ w.put t, e.2.senderPid = e.1

theorem boxes_step {w w' : Boxes} (h : BoxesInv w) (hs : w.step a = some w') :
    BoxesInv w' := by
  unfold Boxes.step at hs
  split at hs
  next k hk =>
    cases hs
    obtain ⟨halive, heff⟩ := eff_of_step hk
    have hw' := wf_step h.wf hk
    have hst' := stamped_step h.wf h.stamped halive heff
    -- a slot that was held, as the invariant has it
    have hold : ∀ {t}, k.Held t → event w.kernel a k ≠ some (.reset t) →
        (w.put t).map Prod.snd = w.got t ++ (w.kernel.table t).pending := by
      intro t ht hne
      rcases held_of_eff h.wf halive heff ht with hheld | he
      · exact h.exact t hheld
      · exact absurd he hne
    cases traffic_of_eff hw' h.stamped heff with
    | none he hkept =>
      rw [he] at hold ⊢
      refine ⟨hw', hst', fun t ht => ?_, h.sender⟩
      rw [hkept t ht]
      exact hold ht nofun
    | put t m he hstamp hempty hfull hkept =>
      rw [he] at hold ⊢
      refine ⟨hw', hst', fun u hu => ?_, fun u e hmem => ?_⟩
      · have hbefore := hold hu nofun
        show (update w.put t _ u).map Prod.snd = w.got u ++ (k.table u).pending
        by_cases hut : u = t
        · subst hut
          rw [update_self, List.map_append, hbefore, hempty, hfull, List.append_nil]
          rfl
        · rw [update_of_ne hut, hkept u hut]
          exact hbefore
      · have hmem : e ∈ update w.put t _ u := hmem
        by_cases hut : u = t
        · subst hut
          rw [update_self] at hmem
          rcases List.mem_append.mp hmem with hmem | hmem
          · exact h.sender u e hmem
          · rw [List.mem_singleton.mp hmem]
            exact hstamp
        · rw [update_of_ne hut] at hmem
          exact h.sender u e hmem
    | got t m he hfull hempty hkept =>
      rw [he] at hold ⊢
      refine ⟨hw', hst', fun u hu => ?_, h.sender⟩
      have hbefore := hold hu nofun
      show (w.put u).map Prod.snd = update w.got t _ u ++ (k.table u).pending
      by_cases hut : u = t
      · subst hut
        rw [update_self, hbefore, hempty, hfull, List.append_nil]
      · rw [update_of_ne hut, hkept u hut]
        exact hbefore
    | reset t he hempty hkept =>
      rw [he] at hold ⊢
      refine ⟨hw', hst', fun u hu => ?_, fun u e hmem => ?_⟩
      · show (update w.put t _ u).map Prod.snd
          = update w.got t _ u ++ (k.table u).pending
        by_cases hut : u = t
        · subst hut
          rw [update_self, update_self, hempty]
          rfl
        · rw [update_of_ne hut, update_of_ne hut, hkept u hut]
          refine hold hu fun hr => hut ?_
          cases hr
          rfl
      · have hmem : e ∈ update w.put t _ u := hmem
        by_cases hut : u = t
        · subst hut
          rw [update_self] at hmem
          cases hmem
        · rw [update_of_ne hut] at hmem
          exact h.sender u e hmem
  next => cases hs

theorem boxes_boot : BoxesInv .boot := by
  refine ⟨wf_boot, fun i pid t m k hi => ?_, fun t _ => ?_, fun _ _ hmem => ?_⟩
  · cases (pc_boot i).symm.trans hi
  · have hempty : (Ipc.boot.table t).hasMsg = false := by
      unfold Ipc.boot Kernel.table
      dsimp only
      by_cases h0 : t = 0
      · subst h0
        rw [update_self]
        rfl
      · rw [update_of_ne h0]
        rfl
    exact (Core.pending_of_empty hempty).symm
  · cases hmem

/-- In every run, for every slot that a process has: the messages put into
its mailbox since `allocproc` cleared it are those that its owner's
`ipc_recv_msg` calls have returned, in order, and then the message in the
mailbox if `has_msg` is set; and each carries the pid of the process that
sent it. -/
theorem mailbox_exact (acts : List Act) (w : Boxes)
    (h : runs Boxes.step .boot acts = some w) (t : Nat) (ht : w.kernel.Occupied t) :
    (w.put t).map Prod.snd = w.got t
        ++ (if (w.kernel.procs t).hasMsg then [(w.kernel.procs t).mailbox] else [])
      ∧ ∀ e ∈ w.put t, e.2.senderPid = e.1 := by
  have hinv := runs_invariant (fun _ _ _ hi hs => boxes_step hi hs) boxes_boot h
  exact ⟨hinv.exact t ht.held, hinv.sender t⟩

/-- Init sends two messages to its child, which has read the first one; both
were sent under the name of process 77. -/
def twoLetters : List Act :=
  [.sched 0, .fork 0, .forkReset 0, .forkDone 0, .sysret 0,
    .send 0 2 { IpcMsg.zero with type := 1, senderPid := 77 }, .enter 0, .sysret 0,
    .sched 1, .recv 1, .enter 1,
    .send 0 2 { IpcMsg.zero with type := 2, senderPid := 77 }, .enter 0]

theorem mailbox_exact_twoLetters :
    ∃ w, runs Boxes.step .boot twoLetters = some w
      ∧ (w.put 1).map (fun e => (e.1, e.2.type)) = [(1, 1), (1, 2)]
      ∧ (w.got 1).map IpcMsg.type = [1]
      ∧ (w.put 1).map Prod.snd = w.got 1
        ++ (if (w.kernel.procs 1).hasMsg then [(w.kernel.procs 1).mailbox] else []) := by
  have hrun : (runs Boxes.step .boot twoLetters).map
      (fun w => (decide ((w.kernel.procs 1).state = .running),
        (w.put 1).map (fun e => (e.1, e.2.type)), (w.got 1).map IpcMsg.type))
      = some (true, [(1, 1), (1, 2)], [1]) := by decide
  obtain ⟨w, hw, heq⟩ := Option.map_eq_some_iff.mp hrun
  obtain ⟨hst, heq⟩ := Prod.mk.inj heq
  obtain ⟨hput, hgot⟩ := Prod.mk.inj heq
  have hocc : w.kernel.Occupied 1 := .inr (.inr (.inl (of_decide_eq_true hst)))
  exact ⟨w, hw, hput, hgot, (mailbox_exact twoLetters w hw 1 hocc).1⟩

end Xv6FsServer.Ipc
