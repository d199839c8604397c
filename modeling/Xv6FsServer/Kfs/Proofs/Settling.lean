/-
Every call comes back to tables in order: what `Kfs/Proofs/Ledger.lean` says
of file.c, carried through sysfile.c, pipe.c, `fork` and `exit`, and from
there to a step of the kernel.
-/
import Xv6FsServer.Kfs.Proofs.Ledger

namespace Xv6FsServer.Kfs

open Lib Fs Function Finset Meets

variable {D : Discipline} {k t : Kernel} {P : Nat → Proc} {I F : List Nat} {p : Nat}

-- ==== the calls

/-- A process that is not there has no descriptors. -/
def Gone (P : Nat → Proc) : Prop :=
  ∀ q, (P q).live = false → ∀ fd, (P q).ofile fd = none

/-- The account between two calls. -/
structure Settled (D : Discipline) (k : Kernel) : Prop where
  ledger : Ledger D k.procs k [] []
  gone : Gone k.procs

theorem Gone.update {X : Proc} (h : Gone P)
    (hX : X.live = false → ∀ fd, X.ofile fd = none) : Gone (update P p X) := by
  intro q hq
  by_cases hqp : q = p
  · subst hqp
    rw [update_self] at hq ⊢
    exact hX hq
  · rw [update_of_ne hqp] at hq ⊢
    exact h q hq

theorem Gone.assign (h : Gone P) (hlive : (P p).live = true) (fd : Nat)
    (v : Option Nat) : Gone (assign P p fd v) := by
  apply h.update
  intro hdead
  rw [show (P p).live = false from hdead] at hlive
  cases hlive

/-- The call comes back to an account in order. -/
abbrev Settles (D : Discipline) {α : Type} (x : Call α) (k : Kernel) : Prop :=
  Safe D.stops x k fun _ t => Settled D t

/-- The processes are the ones they were. -/
theorem Settled.same (h : Settled D k)
    (ht : Ledger D k.procs t [] [] ∧ t.procs = k.procs) : Settled D t :=
  ⟨by rw [ht.2]; exact ht.1, by rw [ht.2]; exact h.gone⟩

theorem sysDup_settles (h : Settled D k) (hp : p < nproc)
    (hlive : (k.procs p).live = true) (fd : Nat) : Settles D (sysDup p fd) k := by
  refine (argfd_safe k p fd).seq ?_
  rintro r t ⟨rfl, hslot⟩
  split
  next => exact ret h
  next f =>
    have hf := (h.ledger.inTable p fd f (hslot f rfl)).2
    apply get_bind
    split
    next => exact ret h
    refine (fdalloc_safe t p f).seq ?_
    rintro r u ⟨hfiles, hfs, hnone, hsome⟩
    have hbooks := h.ledger.congr hfiles hfs
    split
    next =>
      apply ret
      rw [← hnone rfl] at hbooks
      exact ⟨hbooks, by rw [hnone rfl]; exact h.gone⟩
    next fd' =>
      obtain ⟨hfd, hempty, hprocs⟩ := hsome fd' rfl
      refine (filedup_ledger hbooks hf).seq fun _ v hv => ?_
      apply ret
      have hv' : v.procs = Kfs.assign t.procs p fd' (some f) := hv.2.trans hprocs
      refine ⟨?_, ?_⟩
      · rw [hv']
        exact hv.1.fill hp hfd hf hempty
      · rw [hv']
        exact h.gone.assign hlive _ _

theorem sysClose_settles (h : Settled D k) (hp : p < nproc)
    (hlive : (k.procs p).live = true) (fd : Nat) : Settles D (sysClose p fd) k := by
  refine (argfd_safe k p fd).seq ?_
  rintro r t ⟨rfl, hslot⟩
  split
  next => exact ret h
  next f =>
    have hf := (h.ledger.inTable p fd f (hslot f rfl)).2
    apply modify_bind
    apply Meets.bind
    have hclear : Ledger D (Kfs.assign t.procs p fd none)
        { t with procs := Kfs.assign t.procs p fd none } [] [f] :=
      (h.ledger.clear hp (hslot f rfl)).congr rfl rfl
    refine (fileclose_ledger hclear hf).mono fun _ v hv => ?_
    apply ret
    refine ⟨?_, ?_⟩
    · rw [hv.2]
      exact hv.1
    · rw [hv.2]
      exact h.gone.assign hlive _ _

theorem sysRead_settles (h : Settled D k) (hp : p < nproc) (ext : Option (List UInt8))
    (fd n : Nat) : Settles D (sysRead ext p fd n) k := by
  refine (argfd_safe k p fd).seq ?_
  rintro r t ⟨rfl, hslot⟩
  split
  next => exact ret h
  next f =>
    obtain ⟨hf, href⟩ := h.ledger.named hp (hslot f rfl)
    apply get_bind
    split
    next => exact ret h
    next => exact (fileread_ledger h.ledger ext hf href n).mono fun _ v hv => h.same hv

theorem sysWrite_settles (h : Settled D k) (hp : p < nproc) (ext : Nat → Int) (fd : Nat)
    (src : List UInt8) : Settles D (sysWrite ext p fd src) k := by
  refine (argfd_safe k p fd).seq ?_
  rintro r t ⟨rfl, hslot⟩
  split
  next => exact ret h
  next f =>
    obtain ⟨hf, href⟩ := h.ledger.named hp (hslot f rfl)
    apply get_bind
    split
    next => exact ret h
    next => exact (filewrite_ledger h.ledger ext hf href src).mono fun _ v hv => h.same hv

/-- A file and a descriptor for it, or neither. -/
theorem openSlots_ledger (h : Ledger D k.procs k I []) (hgone : Gone k.procs)
    (hp : p < nproc) (hlive : (k.procs p).live = true) :
    Safe D.stops (openSlots p) k fun r t => Ledger D t.procs t I [] ∧ Gone t.procs
      ∧ ∀ f fd, r = some (f, fd) → f < nfile
        ∧ t.ftable f = ⟨.none, 1, false, false, 0, 0⟩ ∧ t.fs = k.fs := by
  refine (filealloc_ledger h).seq ?_
  rintro r t ⟨hbooks, hprocs, hfs, hnew⟩
  rw [← hprocs] at hbooks hgone hlive
  split
  next => exact ret ⟨hbooks, hgone, nofun⟩
  next f =>
    obtain ⟨hf, -, hfresh, -⟩ := hnew f rfl
    refine (fdalloc_ledger hbooks hp hf).seq ?_
    rintro q u ⟨hfiles, hfs', hnone, hsome⟩
    split
    next =>
      obtain ⟨hsame, hheld⟩ := hnone rfl
      refine (fileclose_ledger hheld hf).seq fun _ v hv => ?_
      apply ret
      rw [← hsame, ← hv.2] at hgone
      exact ⟨by rw [hv.2]; exact hv.1, hgone, nofun⟩
    next fd =>
      obtain ⟨hheld, hslot⟩ := hsome fd rfl
      apply ret
      refine ⟨hheld, ?_, fun f' fd' heq => ?_⟩
      · rw [hslot]
        exact hgone.assign hlive _ _
      · cases heq
        rw [hfiles]
        exact ⟨hf, hfresh, hfs'.trans hfs⟩

theorem sysOpen_settles (h : Settled D k) (hp : p < nproc)
    (hlive : (k.procs p).live = true) (path : List UInt8) (omode : Nat) :
    Settles D (sysOpen p path omode) k := by
  apply get_bind
  refine (h.ledger.after (openInode_kept path omode h.ledger.nodes
    (users_cwd hp hlive))).seq ?_
  rintro r t ⟨hbooks, -, hprocs, hfit⟩
  have hgone := h.gone
  rw [← hprocs] at hbooks hgone hlive
  split
  next => exact ret ⟨hbooks, hgone⟩
  next ip =>
    refine (openSlots_ledger hbooks hgone hp hlive).seq ?_
    rintro q u ⟨hheld, hgone', hslots⟩
    split
    next =>
      refine (hheld.onFs (D.put hheld.nodes)).seq fun _ v hv => ?_
      apply ret
      exact ⟨by rw [hv.2.2]; exact hv.1, by rw [hv.2.2]; exact hgone'⟩
    next f fd =>
      obtain ⟨hf, hfresh, hfs⟩ := hslots f fd rfl
      apply modify_bind
      apply ret
      refine ⟨?_, hgone'⟩
      refine hheld.setFile hf ?_ (fun _ _ => rfl) (fun i => ?_) fun _ _ => by
        rw [hfs]
        exact hfit ip rfl _
      · rw [hfresh]
        rfl
      · -- the file takes over the reference of the inode
        rw [hfresh, holds_eq_zero (X := ⟨.none, 1, false, false, 0, 0⟩) (by nofun)]
        by_cases hi : ip = i
        · subst hi
          simp [File.holds, opened]
        · simp [File.holds, opened, hi]

theorem sysOpenRemote_settles (h : Settled D k) (hp : p < nproc)
    (hlive : (k.procs p).live = true) (omode : Nat) (accepted : Bool) :
    Settles D (sysOpenRemote p omode accepted) k := by
  unfold sysOpenRemote
  split
  next =>
    refine (openSlots_ledger h.ledger h.gone hp hlive).seq ?_
    rintro q u ⟨hheld, hgone, hslots⟩
    split
    next => exact ret ⟨hheld, hgone⟩
    next f fd =>
      obtain ⟨hf, hfresh, -⟩ := hslots f fd rfl
      apply modify_bind
      apply ret
      refine ⟨?_, hgone⟩
      refine hheld.retouch hf rfl (fun i => ?_) nofun
      rw [holds_eq_zero (by nofun), holds_eq_zero (by rw [hfresh]; nofun)]
  next => exact ret h

/-- Both ends of a pipe, held by the caller. -/
theorem pipealloc_ledger (h : Ledger D P k I F) (memory : Bool) :
    Safe D.stops (pipealloc memory) k fun r t => t.procs = k.procs
      ∧ (r = none → Ledger D P t I F)
      ∧ ∀ f0 f1, r = some (f0, f1) →
        Ledger D P t I (f0 :: f1 :: F) ∧ f0 < nfile ∧ f1 < nfile := by
  refine (filealloc_ledger h).seq ?_
  rintro r t ⟨hbooks, hprocs, -, hnew⟩
  split
  next => exact ret ⟨hprocs, fun _ => hbooks, nofun⟩
  next f0 =>
    obtain ⟨hf0, -, hfresh0, -⟩ := hnew f0 rfl
    refine (filealloc_ledger hbooks).seq ?_
    rintro q u ⟨hbooks', hprocs', -, hnew'⟩
    have hsame : u.procs = k.procs := hprocs'.trans hprocs
    split
    next =>
      refine (fileclose_ledger hbooks' hf0).seq fun _ v hv => ?_
      exact ret ⟨hv.2.trans hsame, fun _ => hv.1, nofun⟩
    next f1 =>
      obtain ⟨hf1, hfree1, hfresh1, hother⟩ := hnew' f1 rfl
      have hne : f0 ≠ f1 := by
        intro heq
        rw [← heq, hfresh0] at hfree1
        cases hfree1
      have hswap : Ledger D P u I (f0 :: f1 :: F) :=
        ⟨fun f => by rw [hbooks'.files f]; exact congrArg _ ((List.Perm.swap ..).count_eq f),
          hbooks'.nodes, hbooks'.inTable, hbooks'.fits⟩
      split
      next =>
        apply modify_bind
        apply modify_bind
        apply ret
        refine ⟨hsame, nofun, fun g0 g1 heq => ?_⟩
        cases heq
        refine ⟨?_, hf0, hf1⟩
        have hfirst := hswap.retouch hf0
          (X := { u.ftable f0 with type := .pipe, readable := true, writable := false })
          rfl (fun i => by
            rw [holds_eq_zero (by nofun),
              holds_eq_zero (by rw [hother f0 hne, hfresh0]; nofun)]) nofun
        refine hfirst.retouch hf1 rfl (fun i => ?_) nofun
        dsimp only
        rw [holds_eq_zero (by nofun), update_of_ne (Ne.symm hne),
          holds_eq_zero (by rw [hfresh1]; nofun)]
      next =>
        refine (fileclose_ledger hswap hf0).seq fun _ v hv => ?_
        refine (fileclose_ledger hv.1 hf1).seq fun _ w hw => ?_
        exact ret ⟨hw.2.trans (hv.2.trans hsame), fun _ => hw.1, nofun⟩

theorem sysPipe_settles (h : Settled D k) (hp : p < nproc)
    (hlive : (k.procs p).live = true) (memory : Bool) :
    Settles D (sysPipe p memory) k := by
  refine (pipealloc_ledger h.ledger memory).seq ?_
  rintro r t ⟨hprocs, hnone, hsome⟩
  have hgone := h.gone
  rw [← hprocs] at hnone hsome hgone hlive
  -- `bad`: both files are closed
  have hbad : ∀ {rf wf : Nat} {u : Kernel}, rf < nfile → wf < nfile →
      Ledger D u.procs u [] [rf, wf] → Gone u.procs →
      Settles D (do fileclose rf; fileclose wf; pure (-1 : Int)) u := by
    intro rf wf u hrf hwf hu hg
    refine (fileclose_ledger hu hrf).seq fun _ v hv => ?_
    refine (fileclose_ledger hv.1 hwf).seq fun _ w hw => ?_
    apply ret
    have hsame : w.procs = u.procs := hw.2.trans hv.2
    exact ⟨by rw [hsame]; exact hw.1, by rw [hsame]; exact hg⟩
  split
  next => exact ret ⟨hnone rfl, hgone⟩
  next rf wf =>
    obtain ⟨hbooks, hrf, hwf⟩ := hsome rf wf rfl
    refine (fdalloc_ledger hbooks hp hrf).seq ?_
    rintro q u ⟨-, -, hnone0, hsome0⟩
    split
    next =>
      obtain ⟨hsame, hheld⟩ := hnone0 rfl
      exact hbad hrf hwf hheld (by rw [hsame]; exact hgone)
    next fd0 =>
      obtain ⟨hheld, hslot⟩ := hsome0 fd0 rfl
      have hself : (u.procs p).live = true := by
        rw [hslot]
        show (update t.procs p _ p).live = true
        rw [update_self]
        exact hlive
      have hgone0 : Gone u.procs := by
        rw [hslot]
        exact hgone.assign hlive _ _
      refine (fdalloc_ledger hheld hp hwf).seq ?_
      rintro q v ⟨-, -, hnone1, hsome1⟩
      split
      next =>
        obtain ⟨hsame, hheld1⟩ := hnone1 rfl
        have hfull : (v.procs p).ofile fd0 = some rf := by
          rw [hsame, hslot]
          show (update t.procs p _ p).ofile fd0 = some rf
          rw [update_self]
          exact update_self ..
        apply modify_bind
        refine hbad hrf hwf ((hheld1.clear hp hfull).congr rfl rfl) ?_
        refine Gone.assign (by rw [hsame]; exact hgone0) ?_ _ _
        rw [hsame]
        exact hself
      next fd1 =>
        obtain ⟨hheld1, hslot1⟩ := hsome1 fd1 rfl
        apply ret
        refine ⟨hheld1, ?_⟩
        rw [hslot1]
        exact hgone0.assign hself _ _

theorem sits_eq {X : Proc} (hlive : X.live = true) (i : Nat) :
    X.sits i = [X.cwd].count i := by
  unfold Proc.sits
  by_cases hi : X.cwd = i
  · rw [if_pos ⟨hlive, hi⟩, ← hi, List.count_cons_self, List.count_nil]
  · rw [if_neg (fun hc => hi hc.2), List.count_cons_of_ne hi, List.count_nil]

theorem sits_dead {X : Proc} (hdead : X.live = false) (i : Nat) : X.sits i = 0 :=
  if_neg fun hc => by rw [hdead] at hc; cases hc.1

theorem sysChdir_settles (h : Settled D k) (hp : p < nproc)
    (hlive : (k.procs p).live = true) (path : List UInt8) :
    Settles D (sysChdir p path) k := by
  apply get_bind
  refine (h.ledger.onFs (chdirInode_kept path h.ledger.nodes
    (users_cwd hp hlive))).seq ?_
  rintro r t ⟨hbooks, -, hprocs⟩
  split
  next =>
    apply ret
    exact h.same ⟨hbooks, hprocs⟩
  next ip =>
    -- the process gives up the old directory for the new one
    have hmoved : Ledger D (update k.procs p { k.procs p with cwd := ip }) t
        [(k.procs p).cwd] [] := by
      refine hbooks.setProc hp rfl fun i => ?_
      rw [sits_eq (X := { k.procs p with cwd := ip }) hlive, sits_eq hlive]
      exact Nat.add_comm ..
    refine (hmoved.onFs (D.put hmoved.nodes)).seq fun _ u hu => ?_
    apply modify_bind
    apply ret
    have hsame : u.procs = k.procs := hu.2.2.trans hprocs
    refine ⟨?_, ?_⟩
    · show Ledger D (update u.procs p { u.procs p with cwd := ip }) _ [] []
      rw [hsame]
      exact hu.1.congr rfl rfl
    · show Gone (update u.procs p { u.procs p with cwd := ip })
      rw [hsame]
      exact h.gone.update (h.gone p)

/-- A call that works on names only. -/
theorem withCwd_settles {α : Type} {x : Nat → Op α} (h : Settled D k) (hp : p < nproc)
    (hlive : (k.procs p).live = true)
    (hx : ∀ {base}, D.Holds base [] k.fs → 0 < base (k.procs p).cwd →
      Safe D.Fault (x (k.procs p).cwd) k.fs fun _ t =>
        D.Holds base [] t ∧ D.Stays base [] k.fs t) :
    Settles D (withCwd p x) k := by
  apply get_bind
  refine (h.ledger.onFs (hx h.ledger.nodes (users_cwd hp hlive))).mono fun _ t ht => ?_
  exact h.same ⟨ht.1, ht.2.2⟩

-- ==== fork and exit

/-- What fork's loop has done: the new process has the descriptors. -/
theorem forkFiles_ledger {np : Nat} (hnp : np < nproc) (n fd : Nat)
    (h : Ledger D k.procs k I []) (hempty : ∀ j, fd ≤ j → (k.procs np).ofile j = none)
    (hfd : fd + n = nofile) :
    Safe D.stops (forkFiles p np n fd) k fun _ t => Ledger D t.procs t I []
      ∧ (t.procs np).live = (k.procs np).live
      ∧ ∀ q, q ≠ np → t.procs q = k.procs q := by
  induction n generalizing k fd with
  | zero => exact ret ⟨h, rfl, fun _ _ => rfl⟩
  | succ n ih =>
    apply get_bind
    split
    next => exact ih (fd + 1) h (fun j hj => hempty j (by omega)) (by omega)
    next f hslot =>
      have hf := (h.inTable p fd f hslot).2
      refine (filedup_ledger h hf).seq fun _ t ⟨hheld, hprocs⟩ => ?_
      rw [← hprocs] at hheld hempty
      apply modify_bind
      have hfilled := hheld.fill hnp (by omega) hf (hempty fd (Nat.le_refl _))
      refine (ih (fd + 1) (k := { t with procs := assign t.procs np fd (some f) })
        (hfilled.congr rfl rfl) ?_ (by omega)).mono fun _ u hu => ?_
      · intro j hj
        show (update t.procs np _ np).ofile j = none
        rw [update_self]
        show update (t.procs np).ofile fd (some f) j = none
        rw [update_of_ne (by omega)]
        exact hempty j (by omega)
      · obtain ⟨hbooks, hlive, hothers⟩ := hu
        refine ⟨hbooks, ?_, fun q hq => ?_⟩
        · rw [hlive, ← hprocs]
          show (update t.procs np _ np).live = _
          rw [update_self]
        · rw [hothers q hq, ← hprocs]
          exact update_of_ne hq ..

theorem fork_settles (h : Settled D k) (hp : p < nproc) (hlive : (k.procs p).live = true)
    {np : Nat} (hnp : np < nproc) (hfree : (k.procs np).live = false) :
    Settles D (fork p np) k := by
  have hne : np ≠ p := by
    intro heq
    rw [heq, hlive] at hfree
    cases hfree
  refine (forkFiles_ledger hnp nofile 0 h.ledger (fun j _ => h.gone np hfree j)
    (Nat.zero_add _)).seq fun _ t ⟨hbooks, hdead, hothers⟩ => ?_
  rw [hfree] at hdead
  apply get_bind
  apply Meets.bind
  have hstill : (t.procs p).live = true := by
    rw [hothers p (Ne.symm hne)]
    exact hlive
  have hdup : Safe D.Fault (idup (t.procs p).cwd) t.fs fun r s =>
      D.Holds (users t.procs t.ftable) [r] s
        ∧ D.Stays (users t.procs t.ftable) [] t.fs s := by
    refine (D.dup hbooks.nodes (users_cwd hp hstill)).mono fun r s hs => ?_
    obtain ⟨rfl, hholds, hkeeps⟩ := hs
    exact ⟨hholds, hkeeps⟩
  refine (hbooks.onFs hdup).mono fun cwd u hu => ?_
  obtain ⟨hheld, -, hprocs⟩ := hu
  rw [← hprocs] at hheld hdead hothers
  apply change
  refine ⟨?_, ?_⟩
  · have hborn : Ledger D (update u.procs np
        { u.procs np with cwd := cwd, live := true }) u [] [] := by
      refine hheld.setProc hnp rfl fun i => ?_
      rw [sits_eq (X := { u.procs np with cwd := cwd, live := true }) rfl,
        sits_dead hdead, List.count_nil]
      exact Nat.add_comm ..
    exact hborn.congr rfl rfl
  · intro q hq
    change (update u.procs np _ q).live = false at hq
    show ∀ fd, (update u.procs np _ q).ofile fd = none
    by_cases hqn : q = np
    · subst hqn
      rw [update_self] at hq
      cases hq
    · rw [update_of_ne hqn, hothers q hqn] at hq ⊢
      exact h.gone q hq

/-- What exit's loop has done: the descriptors from `fd` on are closed. -/
theorem exitFiles_ledger (hp : p < nproc) (n fd : Nat) (h : Ledger D k.procs k I []) :
    Safe D.stops (exitFiles p n fd) k fun _ t => Ledger D t.procs t I []
      ∧ (t.procs p).live = (k.procs p).live
      ∧ (∀ j, fd ≤ j → j < fd + n → (t.procs p).ofile j = none)
      ∧ (∀ j, (k.procs p).ofile j = none → (t.procs p).ofile j = none)
      ∧ ∀ q, q ≠ p → t.procs q = k.procs q := by
  induction n generalizing k fd with
  | zero => exact ret ⟨h, rfl, fun j h1 h2 => by omega, fun _ hj => hj, fun _ _ => rfl⟩
  | succ n ih =>
    apply get_bind
    split
    next hnone =>
      refine (ih (fd + 1) h).mono fun _ t ht => ?_
      obtain ⟨hbooks, hlive, hclosed, hkept, hothers⟩ := ht
      refine ⟨hbooks, hlive, fun j h1 h2 => ?_, hkept, hothers⟩
      by_cases hj : j = fd
      · rw [hj]
        exact hkept fd hnone
      · exact hclosed j (by omega) (by omega)
    next f hslot =>
      have hf := (h.inTable p fd f hslot).2
      apply Meets.bind
      -- the slot is given up before it is written
      refine (fileclose_ledger (h.clear hp hslot) hf).mono fun _ t ht => ?_
      obtain ⟨hheld, hprocs⟩ := ht
      rw [← hprocs] at hheld
      apply modify_bind
      have hself : ∀ j, ((assign t.procs p fd none) p).ofile j
          = if j = fd then none else (t.procs p).ofile j := by
        intro j
        show (update t.procs p _ p).ofile j = _
        rw [update_self]
        show update (t.procs p).ofile fd none j = _
        by_cases hj : j = fd
        · rw [hj, update_self, if_pos rfl]
        · rw [update_of_ne hj, if_neg hj]
      refine (ih (fd + 1) (k := { t with procs := assign t.procs p fd none })
        (hheld.congr rfl rfl)).mono fun _ u hu => ?_
      obtain ⟨hbooks, hlive, hclosed, hkept, hothers⟩ := hu
      refine ⟨hbooks, ?_, fun j h1 h2 => ?_, fun j hj => ?_, fun q hq => ?_⟩
      · rw [hlive, ← hprocs]
        show (update t.procs p _ p).live = _
        rw [update_self]
      · by_cases hj : j = fd
        · rw [hj]
          exact hkept fd ((hself fd).trans (if_pos rfl))
        · exact hclosed j (by omega) (by omega)
      · apply hkept
        rw [hself j]
        split
        next => rfl
        next => rw [hprocs]; exact hj
      · rw [hothers q hq, ← hprocs]
        exact update_of_ne hq ..

theorem exit_settles (h : Settled D k) (hp : p < nproc)
    (hlive : (k.procs p).live = true) : Settles D (exit p) k := by
  unfold exit
  split
  next => exact fault trivial
  refine (exitFiles_ledger hp nofile 0 h.ledger).seq ?_
  rintro _ t ⟨hbooks, hstill, hclosed, -, hothers⟩
  rw [hlive] at hstill
  have hnone : ∀ j, (t.procs p).ofile j = none := by
    intro j
    by_cases hj : j < nofile
    · exact hclosed j (Nat.zero_le _) (by omega)
    · rw [Option.eq_none_iff_forall_ne_some]
      intro f hf
      exact hj (hbooks.inTable p j f hf).1
  apply get_bind
  apply Meets.bind
  have hleft : Ledger D (update t.procs p
      { t.procs p with cwd := 0, live := false }) t [(t.procs p).cwd] [] := by
    refine hbooks.setProc hp rfl fun i => ?_
    rw [sits_dead (X := { t.procs p with cwd := 0, live := false }) rfl,
      sits_eq hstill, List.count_nil]
    omega
  refine (hleft.onFs (D.put hleft.nodes)).mono fun _ u hu => ?_
  obtain ⟨hheld, -, hprocs⟩ := hu
  apply change
  refine ⟨?_, ?_⟩
  · show Ledger D (update u.procs p { u.procs p with cwd := 0, live := false })
      _ [] []
    rw [hprocs]
    exact hheld.congr rfl rfl
  · show Gone (update u.procs p { u.procs p with cwd := 0, live := false })
    intro q hq
    rw [hprocs] at hq ⊢
    by_cases hqp : q = p
    · subst hqp
      rw [update_self]
      exact hnone
    · rw [update_of_ne hqp, hothers q hqp] at hq ⊢
      exact h.gone q hq

-- ==== the runs

theorem Settles.discard {α : Type} {x : Call α} (h : Settles D x k) :
    Settles D (Functor.discard x) k :=
  map (f := fun _ => PUnit.unit) h

theorem call_settles (h : Settled D k) (hp : p < nproc)
    (hlive : (k.procs p).live = true) {a : Act} (hallow : k.allows a = true) :
    Settles D (call p a) k := by
  cases a with
  | sysOpen path omode => exact (sysOpen_settles h hp hlive path omode).discard
  | sysOpenRemote omode accepted =>
    exact (sysOpenRemote_settles h hp hlive omode accepted).discard
  | sysClose fd => exact (sysClose_settles h hp hlive fd).discard
  | sysDup fd => exact (sysDup_settles h hp hlive fd).discard
  | sysPipe memory => exact (sysPipe_settles h hp hlive memory).discard
  | sysRead fd n ext => exact (sysRead_settles h hp ext fd n).discard
  | sysWrite fd src ext => exact (sysWrite_settles h hp ext fd src).discard
  | sysChdir path => exact (sysChdir_settles h hp hlive path).discard
  | sysMkdir path =>
    exact (withCwd_settles h hp hlive fun hs hc =>
      createAndPut_kept path 0 0 hs hc (by decide) (by decide)).discard
  | sysMknod path major minor =>
    exact (withCwd_settles h hp hlive fun hs hc =>
      createAndPut_kept path major minor hs hc (by decide) (by decide)).discard
  | sysLink old new =>
    exact (withCwd_settles h hp hlive fun hs hc => link_kept old new hs hc).discard
  | sysUnlink path =>
    exact (withCwd_settles h hp hlive fun hs hc => unlink_kept path hs hc).discard
  | sysExec path ext reads =>
    exact withCwd_settles (x := fun cwd => execFile cwd path ext reads) h hp hlive
      fun hs hc => execFile_kept path ext reads hs hc
  | fork np =>
    simp only [Kernel.allows, Bool.and_eq_true, decide_eq_true_eq,
      Bool.not_eq_true'] at hallow
    exact fork_settles h hp hlive hallow.1 hallow.2
  | exit => exact exit_settles h hp hlive

/-- What a step is: a call that returned. -/
theorem step_some {a : Nat × Act} (h : k.step a = some t) :
    a.1 < nproc ∧ (k.procs a.1).live = true ∧ k.allows a.2 = true
      ∧ exec (call a.1 a.2) k = (.ok (), t) := by
  unfold Kernel.step at h
  split at h
  next hguard =>
    refine ⟨hguard.1, hguard.2.1, hguard.2.2, ?_⟩
    generalize exec (call a.1 a.2) k = r at h ⊢
    obtain ⟨r, t'⟩ := r
    cases r with
    | ok _ =>
      cases h
      rfl
    | error _ => cases h
  next => cases h

theorem settled_step (h : Settled D k) {a : Nat × Act} (hstep : k.step a = some t) :
    Settled D t := by
  obtain ⟨hp, hlive, hallow, hrun⟩ := step_some hstep
  exact (call_settles h hp hlive hallow).elim hrun

/-- Tables with nothing in them. -/
theorem ledger_zero (disk : Disk) {s : KFs} (h : D.Holds (fun _ => 0) I s) :
    Ledger D (Kernel.zero disk).procs { Kernel.zero disk with fs := s } I [] := by
  have hslots : ∀ f, slots (Kernel.zero disk).procs f = 0 := by
    intro f
    apply sum_eq_zero
    intro q _
    exact copies_none (fun _ => rfl) f
  have husers : ∀ i, users (Kernel.zero disk).procs (Kernel.zero disk).ftable i = 0 := by
    intro i
    unfold users
    rw [sum_eq_zero fun f _ => holds_of_ref rfl i,
      sum_eq_zero fun q _ => sits_dead rfl i, Nat.add_zero]
  refine ⟨fun f => ?_, D.rebase h fun i => ?_, nofun, fun f _ href => ?_⟩
  · rw [hslots f]
    rfl
  · rw [husers i]
  · cases href

/-- The file system once `userinit` has found the root. -/
def bootFs (disk : Disk) : KFs :=
  { (Kernel.zero disk).fs with
    inodes := update (Kernel.zero disk).fs.inodes 0
      ⟨rootDev, rootIno, 1, false, .fresh 0⟩ }

/-- `userinit` finds the root in an empty cache. -/
theorem boot_eq (disk : Disk) : Kernel.boot disk = { Kernel.zero disk with
    fs := bootFs disk
    procs := update (Kernel.zero disk).procs initproc
      { (Kernel.zero disk).procs initproc with cwd := 0, live := true } } := rfl

theorem settled_boot {disk : Disk} (h : D.Holds (fun _ => 0) [0] (bootFs disk)) :
    Settled D (Kernel.boot disk) := by
  have hledger := ledger_zero disk h
  rw [boot_eq]
  refine ⟨?_, Gone.update (fun _ _ _ => rfl) fun hd => by cases hd⟩
  have hborn : Ledger D (update (Kernel.zero disk).procs initproc
      { (Kernel.zero disk).procs initproc with cwd := 0, live := true })
      { Kernel.zero disk with fs := bootFs disk } [] [] := by
    refine hledger.setProc (by decide) rfl fun i => ?_
    rw [sits_eq (X := { (Kernel.zero disk).procs initproc with cwd := 0, live := true }) rfl,
      sits_dead rfl, List.count_nil]
    exact Nat.add_comm ..
  exact hborn.congr rfl rfl

end Xv6FsServer.Kfs
