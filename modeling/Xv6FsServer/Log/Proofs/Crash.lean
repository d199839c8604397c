/-
Crash atomicity of the log: recovery, cut off and rerun any number of
times, leaves the home blocks exactly as the committed groups made
them, and no operation is there in part.

# The two halves

The contents half is the log invariant read at the end of recovery:
`Phase` at `finish` has every home block committed.

The all-or-nothing half is bookkeeping over the ghost record. An
operation's writes enter the current group together with the ledger
(`append`), a group moves to the committed ones as a whole and only when
no operation is running (`writeHead`), and a crash drops the current
group as a whole. So an operation's committed writes are all of its
logged writes, or none (`LedgerInv.whole`).

# Recovery ends

`recover_from_log` does finish: from any crash there is a schedule of
buffer moves and ticks that reaches the end (`recovery_completes`). Its
steps never pin a buffer, so each block it needs can be brought in
(`exists_fetch`).
-/
import Xv6FsServer.Log.Proofs.Step
import Mathlib.Data.Finset.Dedup

namespace Xv6FsServer.Log

open Lib Function

variable {g : Geometry} {d₀ : Disk} {s s' : State}
variable {id p b : Nat} {a : Act}

-- ==== one operation

/-- The writes operation `o` made. -/
def opWrites (o : Nat) (ws : List Write) : List Write :=
  ws.filter fun w => w.op = o

theorem opWrites_append (o : Nat) (ws vs : List Write) :
    opWrites o (ws ++ vs) = opWrites o ws ++ opWrites o vs :=
  List.filter_append ..

theorem opWrites_single_ne {o : Nat} (b : Nat) (v : Block) (h : o ≠ id) :
    opWrites o [⟨id, b, v⟩] = [] := by
  simp [opWrites, Ne.symm h]

/-- Process `p` is inside operation `id`. -/
def Running (s : State) (p id : Nat) : Prop :=
  (∃ calls, s.ops p = .inOp id calls)
    ∨ ∃ calls b, s.ops p = .checked id calls b

/-- The ghost record: a running operation's writes are all in the current
group, and every operation's committed writes are all of its writes or
none. -/
structure LedgerInv (s : State) : Prop where
  active : ∀ p id, Running s p id → id < s.nextOp
    ∧ opWrites id s.groups.flatten = []
    ∧ opWrites id s.group = opWrites id s.ledger
  whole : ∀ o, (opWrites o s.groups.flatten = opWrites o s.ledger
      ∧ opWrites o s.group = [])
    ∨ (opWrites o s.groups.flatten = []
      ∧ (opWrites o s.group = opWrites o s.ledger ∨ opWrites o s.group = []))
  fresh : ∀ o, s.nextOp ≤ o → opWrites o s.ledger = []
    ∧ opWrites o s.group = [] ∧ opWrites o s.groups.flatten = []

/-- Steps that log nothing, commit nothing and start no operation keep
the record. -/
theorem LedgerInv.congr (h : LedgerInv s) (hn : s'.nextOp = s.nextOp)
    (hg : s'.group = s.group) (hgs : s'.groups = s.groups) (hl : s'.ledger = s.ledger)
    (hrun : ∀ p id, Running s' p id → Running s p id) : LedgerInv s' := by
  refine ⟨?_, ?_, ?_⟩
  · intro p id hp
    rw [hn, hg, hgs, hl]
    exact h.active p id (hrun p id hp)
  · rw [hg, hgs, hl]
    exact h.whole
  · rw [hn, hg, hgs, hl]
    exact h.fresh

/-- After one process moved, the others still run what they ran. -/
private theorem running_update {q : OpPc} (hs' : s'.ops = update s.ops p q)
    (hq : ∀ id, (∃ calls, q = .inOp id calls) ∨ (∃ calls b, q = .checked id calls b)
      → Running s p id) :
    ∀ x id, Running s' x id → Running s x id := by
  intro x id hx
  by_cases hxp : x = p
  · subst hxp
    refine hq id ?_
    unfold Running at hx
    rw [hs', update_self] at hx
    exact hx
  · unfold Running at hx ⊢
    rw [hs', update_of_ne hxp] at hx
    exact hx

/-- A new operation has a fresh id and has logged nothing. -/
theorem ledger_enter {n : Nat} (h : LedgerInv s) :
    LedgerInv { s with
      outstanding := n
      ops := update s.ops p (.inOp s.nextOp ∅)
      nextOp := s.nextOp + 1 } := by
  refine ⟨?_, h.whole, ?_⟩
  · intro x id hx
    by_cases hxp : x = p
    · subst hxp
      have hid : id = s.nextOp := by
        unfold Running at hx
        simp only [update_self] at hx
        rcases hx with ⟨calls, hc⟩ | ⟨calls, b, hc⟩
        · cases hc
          rfl
        · cases hc
      subst hid
      obtain ⟨h1, h2, h3⟩ := h.fresh s.nextOp (Nat.le_refl _)
      exact ⟨Nat.lt_succ_self _, h3, h2.trans h1.symm⟩
    · have hx' : Running s x id := by
        unfold Running at hx ⊢
        simp only [update_of_ne hxp] at hx
        exact hx
      obtain ⟨h1, h2, h3⟩ := h.active x id hx'
      exact ⟨Nat.lt_succ_of_lt h1, h2, h3⟩
  · intro o ho
    exact h.fresh o (Nat.le_of_succ_le ho)

/-- A write enters the current group together with the ledger. -/
theorem ledger_append {calls : Finset Nat} {v : Block}
    (h : LedgerInv s) (hop : s.ops p = .checked id calls b)
    (hops : s'.ops = update s.ops p (.inOp id (insert b calls)))
    (hn : s'.nextOp = s.nextOp) (hgs : s'.groups = s.groups)
    (hgroup : s'.group = s.group ++ [⟨id, b, v⟩])
    (hledger : s'.ledger = s.ledger ++ [⟨id, b, v⟩]) : LedgerInv s' := by
  obtain ⟨hid, hnone, hall⟩ := h.active p id (Or.inr ⟨calls, b, hop⟩)
  have hkeep : ∀ o, o ≠ id → ∀ ws,
      opWrites o (ws ++ [⟨id, b, v⟩]) = opWrites o ws := by
    intro o ho ws
    rw [opWrites_append, opWrites_single_ne b _ ho, List.append_nil]
  have hsame : opWrites id s'.group = opWrites id s'.ledger := by
    rw [hgroup, hledger, opWrites_append, opWrites_append, hall]
  have hrun : ∀ x i, Running s' x i → Running s x i := by
    refine running_update hops ?_
    rintro i (⟨c, hc⟩ | ⟨c, b', hc⟩)
    · cases hc
      exact Or.inr ⟨calls, b, hop⟩
    · cases hc
  refine ⟨?_, ?_, ?_⟩
  · intro x i hx
    obtain ⟨h1, h2, h3⟩ := h.active x i (hrun x i hx)
    rw [hn, hgs]
    refine ⟨h1, h2, ?_⟩
    by_cases he : i = id
    · subst he
      exact hsame
    · rw [hgroup, hledger, hkeep i he, hkeep i he]
      exact h3
  · intro o
    by_cases he : o = id
    · subst he
      rw [hgs]
      exact Or.inr ⟨hnone, Or.inl hsame⟩
    · rw [hgs, hgroup, hledger, hkeep o he, hkeep o he]
      exact h.whole o
  · intro o ho
    rw [hn] at ho
    have he : o ≠ id := by omega
    rw [hgs, hgroup, hledger, hkeep o he, hkeep o he]
    exact h.fresh o ho

/-- The header write commits the current group as a whole; no operation
is running then. -/
theorem ledger_commit (h : LedgerInv s) (hidle : ∀ p, s.ops p = .idle)
    (hops : s'.ops = s.ops) (hn : s'.nextOp = s.nextOp)
    (hgs : s'.groups = s.groups ++ [s.group]) (hgroup : s'.group = [])
    (hledger : s'.ledger = s.ledger) : LedgerInv s' := by
  have hflat : ∀ o, opWrites o s'.groups.flatten
      = opWrites o s.groups.flatten ++ opWrites o s.group := by
    intro o
    rw [hgs, List.flatten_append, opWrites_append]
    simp
  refine ⟨?_, ?_, ?_⟩
  · intro p id hp
    unfold Running at hp
    rw [hops, hidle p] at hp
    rcases hp with ⟨c, hc⟩ | ⟨c, b, hc⟩
    · cases hc
    · cases hc
  · intro o
    rw [hflat o, hgroup, hledger]
    rcases h.whole o with ⟨h1, h2⟩ | ⟨h1, h2 | h2⟩
    · left
      rw [h1, h2, List.append_nil]
      exact ⟨rfl, rfl⟩
    · left
      rw [h1, h2, List.nil_append]
      exact ⟨rfl, rfl⟩
    · right
      rw [h1, h2]
      exact ⟨rfl, Or.inr rfl⟩
  · intro o ho
    rw [hn] at ho
    obtain ⟨h1, h2, h3⟩ := h.fresh o ho
    rw [hflat o, hgroup, hledger, h2, h3]
    exact ⟨h1, rfl, rfl⟩

/-- A crash drops the current group as a whole. -/
theorem ledger_crash (h : LedgerInv s) : LedgerInv (crash s) := by
  refine ⟨?_, ?_, ?_⟩
  · rintro p id (⟨c, hc⟩ | ⟨c, b, hc⟩) <;> cases hc
  · intro o
    rcases h.whole o with ⟨h1, -⟩ | ⟨h1, -⟩
    · exact Or.inl ⟨h1, rfl⟩
    · exact Or.inr ⟨h1, Or.inr rfl⟩
  · intro o ho
    obtain ⟨h1, -, h3⟩ := h.fresh o ho
    exact ⟨h1, rfl, h3⟩

theorem ledger_step (h : LedgerInv s) (hi : Inv g d₀ s)
    (hs : step g s a = some s') : LedgerInv s' := by
  cases step_eff hs with
  | entered => exact ledger_enter h
  | @checked p b id calls hop =>
    refine h.congr rfl rfl rfl rfl (running_update rfl ?_)
    rintro id' (⟨c, hc⟩ | ⟨c, b', hc⟩)
    · cases hc
    · cases hc
      exact Or.inl ⟨calls, hop⟩
  | appended hop => exact ledger_append h hop rfl rfl rfl rfl rfl
  | last | left =>
    refine h.congr rfl rfl rfl rfl (running_update rfl ?_)
    rintro id (⟨c, hc⟩ | ⟨c, b, hc⟩) <;> cases hc
  | writeHead hpc =>
    exact ledger_commit h (hi.ops.alone (by rw [hpc]; simp)).1 rfl rfl rfl
      rfl rfl
  | crashed => exact ledger_crash h
  | _ => exact h.congr rfl rfl rfl rfl fun _ _ hr => hr

theorem ledger_powerOn (d : Disk) : LedgerInv (powerOn d) := by
  refine ⟨?_, fun o => Or.inl ⟨rfl, rfl⟩, fun o _ => ⟨rfl, rfl, rfl⟩⟩
  rintro p id (⟨c, hc⟩ | ⟨c, b, hc⟩) <;> cases hc

-- ==== recovery finishes

/-- The steps of an uninterrupted recovery: its own, and the buffer cache
making room for them. -/
def RecoveryStep : Act → Prop
  | .tick | .load _ | .evict _ => True
  | _ => False

theorem kernelOnly_of_recoveryStep (h : RecoveryStep a) (s : State) :
    KernelOnly g s a := by
  cases a <;> trivial

/-- A state that differs only in its clean buffers. -/
private def Recached (s t : State) : Prop :=
  ∃ C D, t = { s with cached := C, bdata := D }

/-- With nothing pinned, every buffer can be recycled. -/
private theorem exists_drain (hp : s.panicked = none) (hd : s.dirty = ∅) :
    ∃ sched, (∀ a ∈ sched, RecoveryStep a)
      ∧ runs (step g) s sched = some { s with cached := ∅ } := by
  obtain ⟨disk, cached, dirty, bdata, o, c, lh, ops, pc, bo, pa, nx, gr, grs,
    le⟩ := s
  simp only at hp hd
  subst hp hd
  induction cached using Finset.induction_on with
  | empty => exact ⟨[], by simp, rfl⟩
  | insert b C hb ih =>
    obtain ⟨sched, hrec, hrun⟩ := ih
    refine ⟨.evict b :: sched, ?_, ?_⟩
    · intro a ha
      rcases List.mem_cons.mp ha with rfl | ha
      · trivial
      · exact hrec a ha
    · have hstep : step g ⟨disk, insert b C, ∅, bdata, o, c, lh, ops, pc, bo,
          none, nx, gr, grs, le⟩ (.evict b)
          = some ⟨disk, C, ∅, bdata, o, c, lh, ops, pc, bo, none, nx, gr, grs,
            le⟩ := by
        rw [step_eq_live rfl]
        simp [live, evict, Finset.erase_insert hb]
      rw [runs_step hstep]
      exact hrun

/-- A miss with a free buffer reads the block. -/
private theorem step_load {x : Nat} (hp : s.panicked = none)
    (hx : x ∉ s.cached) (hroom : s.cached.card < nbuf) :
    step g s (.load x) = some { s with
      cached := insert x s.cached
      bdata := update s.bdata x (s.disk x) } := by
  rw [step_eq_live hp]
  show load x s = _
  unfold load
  rw [if_neg hx, if_pos hroom]

/-- Any two blocks can be brought into the cache. -/
private theorem exists_fetch (hp : s.panicked = none) (hd : s.dirty = ∅) (x y : Nat) :
    ∃ sched t, (∀ a ∈ sched, RecoveryStep a) ∧ runs (step g) s sched = some t
      ∧ Recached s t ∧ x ∈ t.cached ∧ y ∈ t.cached := by
  obtain ⟨sched, hrec, hrun⟩ := exists_drain (g := g) hp hd
  have hx : step g { s with cached := ∅ } (.load x) = some { s with
      cached := insert x ∅
      bdata := update s.bdata x (s.disk x) } :=
    step_load (s := { s with cached := ∅ }) hp (by simp)
      (by simp [nbuf, maxOpBlocks])
  by_cases hxy : x = y
  · subst hxy
    refine ⟨sched ++ [.load x], _, ?_,
      runs_trans hrun (by rw [runs_step hx]; rfl), ⟨_, _, rfl⟩, by simp, by simp⟩
    intro a ha
    rcases List.mem_append.mp ha with ha | ha
    · exact hrec a ha
    · rw [List.mem_singleton] at ha
      subst ha
      trivial
  · have hy := step_load (g := g) (x := y) (s := { s with
      cached := insert x ∅
      bdata := update s.bdata x (s.disk x) }) hp
      (by simpa using Ne.symm hxy) (by simp [nbuf, maxOpBlocks])
    refine ⟨sched ++ [.load x, .load y], _, ?_,
      runs_trans hrun (by rw [runs_step hx, runs_step hy]; rfl), ⟨_, _, rfl⟩,
      by simp, by simp⟩
    intro a ha
    rcases List.mem_append.mp ha with ha | ha
    · exact hrec a ha
    · simp only [List.mem_cons, List.not_mem_nil, or_false] at ha
      rcases ha with rfl | rfl <;> trivial

/-- A schedule of recovery steps from `s` that ends recovery with the same
committed groups. -/
def Completes (g : Geometry) (s : State) : Prop :=
  ∃ sched s', (∀ a ∈ sched, RecoveryStep a) ∧ runs (step g) s sched = some s'
    ∧ s'.pc = some .finish ∧ s'.booted = s.booted ∧ s'.groups = s.groups

theorem Completes.cons (h : Completes g s') (sched : List Act)
    (hrec : ∀ a ∈ sched, RecoveryStep a)
    (hrun : runs (step g) s sched = some s') (hb : s'.booted = s.booted)
    (hgr : s'.groups = s.groups) : Completes g s := by
  obtain ⟨rest, t, hrest, hrun', hpc, hbt, hgt⟩ := h
  refine ⟨sched ++ rest, t, ?_, runs_trans hrun hrun', hpc, hbt.trans hb,
    hgt.trans hgr⟩
  intro a ha
  rcases List.mem_append.mp ha with ha | ha
  · exact hrec a ha
  · exact hrest a ha

/-- One tick after the blocks it reads have been brought in. -/
private theorem Completes.tick (hp : s.panicked = none) (hd : s.dirty = ∅) (x y : Nat)
    (htick : ∀ t, Recached s t → x ∈ t.cached → y ∈ t.cached →
      ∃ u, tick g t = some u ∧ u.booted = s.booted ∧ u.groups = s.groups
        ∧ Completes g u) : Completes g s := by
  obtain ⟨sched, t, hrec, hrun, hre, hx, hy⟩ := exists_fetch (g := g) hp hd x y
  obtain ⟨u, hu, hbu, hgu, hcu⟩ := htick t hre hx hy
  refine hcu.cons (sched ++ [.tick]) ?_ (runs_trans hrun ?_) hbu hgu
  · intro a ha
    rcases List.mem_append.mp ha with ha | ha
    · exact hrec a ha
    · rw [List.mem_singleton] at ha
      subst ha
      trivial
  · obtain ⟨C, D, rfl⟩ := hre
    have hstep : step g { s with cached := C, bdata := D } .tick = some u :=
      (step_eq_live (s := { s with cached := C, bdata := D }) hp).trans hu
    rw [runs_step hstep]
    rfl

private theorem completes_eraseHead (hp : s.panicked = none)
    (hd : s.dirty = ∅) (hpc : s.pc = some .eraseHead) : Completes g s := by
  refine Completes.tick hp hd g.start g.start ?_
  rintro t ⟨C, D, rfl⟩ hx -
  refine ⟨_, tick_eraseHead hpc hx, rfl, rfl, ?_⟩
  exact ⟨[], _, by simp, rfl, rfl, rfl, rfl⟩

/-- The rest of `install_trans`, by induction on the blocks left. -/
private theorem completes_install (n : Nat) :
    ∀ (s : State) (k : Nat), s.panicked = none → s.dirty = ∅ →
      s.pc = some (.install k) → s.lh.length - k = n → Completes g s := by
  induction n with
  | zero =>
    intro s k hp hd hpc hn
    have hb : s.lh[k]? = none := List.getElem?_eq_none_iff.mpr (by omega)
    refine Completes.tick hp hd g.start g.start ?_
    rintro t ⟨C, D, rfl⟩ - -
    refine ⟨_, tick_install_none hpc hb, rfl, rfl, ?_⟩
    exact completes_eraseHead hp hd rfl
  | succ n ih =>
    intro s k hp hd hpc hn
    have hk : k < s.lh.length := by omega
    have hb : s.lh[k]? = some s.lh[k] := List.getElem?_eq_getElem hk
    refine Completes.tick hp hd (g.start + k + 1) s.lh[k] ?_
    rintro t ⟨C, D, rfl⟩ hx hy
    refine ⟨_, tick_install_some hpc hb ⟨hx, hy⟩, rfl, rfl, ?_⟩
    refine ih _ (k + 1) hp ?_ rfl ?_
    · show s.dirty.erase _ = ∅
      rw [hd]
      rfl
    · show s.lh.length - (k + 1) = n
      omega

/-- Recovery after a crash runs to its end. -/
theorem recovery_completes (s : State) : Completes g (crash s) := by
  refine Completes.tick rfl rfl g.start g.start ?_
  rintro t ⟨C, D, rfl⟩ hx -
  refine ⟨_, tick_readHead rfl hx, rfl, rfl, ?_⟩
  exact completes_install _ _ 0 rfl rfl rfl rfl

-- ==== the theorem

/-- The home blocks are what the committed groups made them, and every
operation's logged blocks are among the committed ones all together or
not at all. -/
def Recovered (g : Geometry) (d₀ : Disk) (s : State) : Prop :=
  (∀ b, Home g b → s.disk b = applyWrites d₀ s.groups.flatten b)
    ∧ ∀ o, opWrites o s.groups.flatten = opWrites o s.ledger
      ∨ opWrites o s.groups.flatten = []

/-- A finished recovery has recovered. -/
theorem recovered_of_finish (hi : Inv g d₀ s) (hl : LedgerInv s)
    (hpc : s.pc = some .finish) : Recovered g d₀ s := by
  have hph := hi.phase
  unfold Phase at hph
  rw [hpc] at hph
  refine ⟨fun b hb => hph.1.replay.rest b hb (by simp), fun o => ?_⟩
  rcases hl.whole o with ⟨h1, -⟩ | ⟨h1, -⟩
  · exact Or.inl h1
  · exact Or.inr h1

/-- Both invariants along a run of the kernel. -/
theorem inv_ledger_runs (hsize : g.size = logSize) {acts : List Act} {t : State}
    (hi : Inv g d₀ s) (hl : LedgerInv s) (hk : Along (step g) (KernelOnly g) s acts)
    (hr : runs (step g) s acts = some t) : Inv g d₀ t ∧ LedgerInv t :=
  Along.invariant (I := fun s => Inv g d₀ s ∧ LedgerInv s)
    (fun _ _ _ h hok hst =>
      ⟨inv_step hsize h.1 hok hst, ledger_step h.2 h.1 hst⟩)
    ⟨hi, hl⟩ hk hr

/-- Crash atomicity. Run any interleaving of operations, commits, cache
moves and power cuts from a disk with an empty log. Wherever that run
has a recovery finish, the disk is recovered; and from wherever the run
stands, a power cut followed by an uninterrupted recovery does finish,
with the groups committed so far, and recovered. -/
theorem crash_atomicity (g : Geometry) (hsize : g.size = logSize) (d₀ : Disk)
    (hd : getHead (d₀ g.start) = []) (acts : List Act) (s : State)
    (hk : Along (step g) (KernelOnly g) (powerOn d₀) acts)
    (hr : runs (step g) (powerOn d₀) acts = some s) :
    (s.pc = some .finish → s.booted = false → Recovered g d₀ s)
      ∧ ∃ recovery s', (∀ a ∈ recovery, RecoveryStep a)
        ∧ runs (step g) s (.crash :: recovery) = some s'
        ∧ s'.pc = some .finish ∧ s'.booted = false
        ∧ s'.groups = s.groups ∧ Recovered g d₀ s' := by
  obtain ⟨hi, hl⟩ := inv_ledger_runs hsize (inv_powerOn hsize hd)
    (ledger_powerOn d₀) hk hr
  refine ⟨fun hpc _ => recovered_of_finish hi hl hpc, ?_⟩
  obtain ⟨recovery, s', hrec, hrun, hpc, hb, hgr⟩ := recovery_completes (g := g) s
  have hcrash : step g s .crash = some (crash s) := if_pos (Or.inr rfl)
  refine ⟨recovery, s', hrec, (runs_step hcrash).trans hrun, hpc, hb, hgr, ?_⟩
  obtain ⟨hi', hl'⟩ := inv_ledger_runs hsize
    (inv_step (a := .crash) hsize hi trivial hcrash) (ledger_crash hl)
    (Along.of_labels (fun a ha s => kernelOnly_of_recoveryStep (hrec a ha) s) _)
    hrun
  exact recovered_of_finish hi' hl' hpc

/-- One operation logs one block; the schedule stops right after the
header write that commits it. -/
def cutCommit : List Act :=
  [.load 2, .tick, .tick, .tick, .tick, .begin 0, .check 0 60, .load 60,
    .append 0 60 (fun _ => Bytes.ofFn fun _ => 1), .endOp 0, .load 3, .tick,
    .tick, .tick]

theorem crash_atomicity_cutCommit :
    ∃ s, runs (step ⟨2, logSize⟩) (powerOn fun _ => Bytes.zero) cutCommit
        = some s ∧ s.groups.length = 1
      ∧ ∃ recovery s', (∀ a ∈ recovery, RecoveryStep a)
        ∧ runs (step ⟨2, logSize⟩) s (.crash :: recovery) = some s'
        ∧ s'.pc = some .finish ∧ s'.groups = s.groups
        ∧ Recovered ⟨2, logSize⟩ (fun _ => Bytes.zero) s' := by
  have heval : (runs (step ⟨2, logSize⟩) (powerOn fun _ => Bytes.zero)
      cutCommit).map (fun s => s.groups.length) = some 1 := by decide
  obtain ⟨s, hs, hlen⟩ := Option.map_eq_some_iff.mp heval
  have hk : Along (step ⟨2, logSize⟩) (KernelOnly ⟨2, logSize⟩)
      (powerOn fun _ => Bytes.zero) cutCommit := by decide
  obtain ⟨-, recovery, s', h1, h2, h3, -, h5, h6⟩ :=
    crash_atomicity ⟨2, logSize⟩ rfl _ (by decide) cutCommit s hk hs
  exact ⟨s, hs, hlen, recovery, s', h1, h2, h3, h5, h6⟩

-- ==== the write-ahead rule

theorem Inv.home_write (hsize : g.size = logSize) (h : Inv g d₀ s)
    (ha : KernelOnly g s a) (hstep : step g s a = some s') (hb : Home g b)
    (hne : s'.disk b ≠ s.disk b) :
    (∃ k, s.pc = some (.install k)) ∧ s'.disk b = committed d₀ s b := by
  have hph := h.phase
  have hph' := (inv_step hsize h ha hstep).phase
  -- the header is no home block
  have hhead : ∀ v : Block, update s.disk g.start v b = s.disk b := by
    intro v
    apply update_of_ne
    have hsz : g.size = 30 := hsize
    rcases hb with hlt | hge <;> omega
  unfold Phase at hph hph'
  cases step_eff hstep with
  | writeLog hpc =>
    rw [hpc] at hph
    -- the log is empty on the disk before and after
    have hsame := hph'.1.replay.rest b hb (by simp)
    exact absurd (hsame.trans (hph.1.replay.rest b hb (by simp)).symm) hne
  | writeHead | eraseHead => exact absurd (hhead _) hne
  | @install k c hpc hc =>
    refine ⟨⟨k, hpc⟩, ?_⟩
    by_cases hbc : b = c
    · subst hbc
      exact hph'.installed k b (Nat.lt_succ_self k) hc
    · exact absurd (update_of_ne hbc _ _) hne
  | requested => exact ha.elim
  | _ => exact absurd rfl hne

/-- Write-ahead. In every run without requests of the server, a home block on
the disk changes only while `install_trans` runs, and what it gets is what the
committed groups gave it. -/
theorem log_write_ahead (g : Geometry) (hsize : g.size = logSize) (d₀ : Disk)
    (hd : getHead (d₀ g.start) = []) (acts : List Act) (s : State)
    (hk : Along (step g) (KernelOnly g) (powerOn d₀) acts)
    (hr : runs (step g) (powerOn d₀) acts = some s) {a : Act} {t : State} {b : Nat}
    (ha : KernelOnly g s a) (hstep : step g s a = some t) (hb : Home g b)
    (hne : t.disk b ≠ s.disk b) :
    (∃ k, s.pc = some (.install k)) ∧ t.disk b = committed d₀ s b := by
  obtain ⟨hi, -⟩ := inv_ledger_runs hsize (inv_powerOn hsize hd) (ledger_powerOn d₀) hk hr
  exact hi.home_write hsize ha hstep hb hne

/-- The write that follows the commit. -/
theorem log_write_ahead_cutCommit :
    ∃ s t, runs (step ⟨2, logSize⟩) (powerOn fun _ => Bytes.zero) cutCommit = some s
      ∧ step ⟨2, logSize⟩ s .tick = some t ∧ t.disk 60 ≠ s.disk 60
      ∧ t.disk 60 = committed (fun _ => Bytes.zero) s 60 := by
  have heval : (runs (step ⟨2, logSize⟩) (powerOn fun _ => Bytes.zero) cutCommit).bind
      (fun s => (step ⟨2, logSize⟩ s .tick).map
        fun t => ((s.disk 60).le32 0, (t.disk 60).le32 0)) = some (0, 16843009) := by decide
  obtain ⟨s, hs, ht⟩ := Option.bind_eq_some_iff.mp heval
  obtain ⟨t, ht, hbytes⟩ := Option.map_eq_some_iff.mp ht
  have hne : t.disk 60 ≠ s.disk 60 := by
    intro e
    rw [e] at hbytes
    obtain ⟨h0, h1⟩ := Prod.mk.inj hbytes
    omega
  exact ⟨s, t, hs, ht, hne, (log_write_ahead ⟨2, logSize⟩ rfl _ (by decide) cutCommit s
    (by decide) hs (a := .tick) trivial ht (by decide) hne).2⟩

end Xv6FsServer.Log
