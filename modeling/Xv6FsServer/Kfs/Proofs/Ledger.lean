/-
The tables above the inode cache: descriptors, open files and current
directories, through every call.

Files and current directories point at inodes, and all a call does with an
inode it does through a few functions of the file system. What is needed of
these functions is a `Discipline`: a statement about the cache that they
keep, in which the pointers are counted (`Holds`), and one about the inode
of an open file that survives as long as the file (`Fit`). Given that, every
call keeps the same of the kernel (`Settled`), and the argument is made
here once.

`Ledger D P k I F` is the account in the middle of a call: `I` and `F` list
the inodes and files whose references the call holds itself. The processes
are counted in a table `P` of their own, which is `k.procs` between calls.
The calls take a reference and store the pointer in either order (`sys_dup`
stores it first, `exit` drops the reference before it clears the slot), and
with `P` apart the account changes when the pointer is given up and not when
the slot is written.
-/
import Xv6FsServer.Kfs.Proofs.Discipline
import Xv6FsServer.Lib.Tally

namespace Xv6FsServer.Kfs

open Lib Fs Function Finset Meets

-- ==== the discipline

/-- The ways a call may stop. -/
def Discipline.stops (D : Discipline) : Stop → Prop
  | .fs why => D.Fault why
  | _ => True

variable {D : Discipline}
variable {k t : Kernel} {P : Nat → Proc} {I F : List Nat} {p : Nat}
variable {T : Nat → File} {f fd : Nat} {X : File}

-- ==== counting

/-- The descriptors that name the file `f`. -/
def slots (P : Nat → Proc) (f : Nat) : Nat :=
  ∑ p ∈ range nproc, copies (P p).ofile nofile f

/-- 1 if the file is an open one on the inode `i`. -/
def File.holds (X : File) (i : Nat) : Nat :=
  if 0 < X.ref ∧ X.type = .inode ∧ X.ip = i then 1 else 0

/-- 1 if the process is in the directory `i`. -/
def Proc.sits (X : Proc) (i : Nat) : Nat :=
  if X.live = true ∧ X.cwd = i then 1 else 0

/-- The open files and current directories that point at the inode `i`. -/
def users (P : Nat → Proc) (T : Nat → File) (i : Nat) : Nat :=
  ∑ f ∈ range nfile, (T f).holds i + ∑ p ∈ range nproc, (P p).sits i

/-- `ofile[fd] = v` in the table of the processes. -/
def assign (P : Nat → Proc) (p fd : Nat) (v : Option Nat) : Nat → Proc :=
  update P p { P p with ofile := update (P p).ofile fd v }

theorem slots_update (hp : p < nproc) (X : Proc) (f : Nat) :
    slots (update P p X) f + copies (P p).ofile nofile f
      = slots P f + copies X.ofile nofile f :=
  sum_update P (fun X => copies X.ofile nofile f) hp X

theorem users_setFile (hf : f < nfile) (X : File) (i : Nat) :
    users P (update T f X) i + (T f).holds i = users P T i + X.holds i := by
  have h := sum_update T (fun X => X.holds i) hf X
  unfold users
  omega

theorem users_setProc (hp : p < nproc) (X : Proc) (i : Nat) :
    users (update P p X) T i + (P p).sits i = users P T i + X.sits i := by
  have h := sum_update P (fun X => X.sits i) hp X
  unfold users
  omega

theorem users_assign (hp : p < nproc) (fd : Nat) (v : Option Nat) (i : Nat) :
    users (assign P p fd v) T i = users P T i := by
  have h := users_setProc (P := P) (T := T) hp
    { P p with ofile := update (P p).ofile fd v } i
  have hsame : Proc.sits { P p with ofile := update (P p).ofile fd v } i
      = (P p).sits i := rfl
  unfold assign
  omega

theorem slots_assign (hp : p < nproc) (hfd : fd < nofile) (v : Option Nat) (f : Nat) :
    slots (assign P p fd v) f + (if (P p).ofile fd = some f then 1 else 0)
      = slots P f + if v = some f then 1 else 0 := by
  have h := slots_update (P := P) hp { P p with ofile := update (P p).ofile fd v } f
  have hc := copies_update (P p).ofile hfd v f
  unfold assign
  dsimp only at h ⊢
  omega

-- ==== the account

structure Ledger (D : Discipline) (P : Nat → Proc) (k : Kernel) (I F : List Nat) :
    Prop where
  files : ∀ f, (k.ftable f).ref = slots P f + F.count f
  nodes : D.Holds (users P k.ftable) I k.fs
  inTable : ∀ p fd f, (P p).ofile fd = some f → fd < nofile ∧ f < nfile
  fits : ∀ f, f < nfile → 0 < (k.ftable f).ref → (k.ftable f).type = .inode →
    D.Fit k.fs (k.ftable f)

/-- An open file points at its inode. -/
theorem users_file (hf : f < nfile) (href : 0 < (T f).ref) (htype : (T f).type = .inode) :
    0 < users P T (T f).ip := by
  have hone : (T f).holds (T f).ip = 1 := if_pos ⟨href, htype, rfl⟩
  have hle := single_le_sum (f := fun g => (T g).holds (T f).ip)
    (fun _ _ => Nat.zero_le _) (mem_range.mpr hf)
  unfold users
  omega

/-- A process points at its directory. -/
theorem users_cwd (hp : p < nproc) (hlive : (P p).live = true) :
    0 < users P T (P p).cwd := by
  have hone : (P p).sits (P p).cwd = 1 := if_pos ⟨hlive, rfl⟩
  have hle := single_le_sum (f := fun q => (P q).sits (P p).cwd)
    (fun _ _ => Nat.zero_le _) (mem_range.mpr hp)
  unfold users
  omega

/-- A file that a descriptor names. -/
theorem Ledger.named (h : Ledger D P k I F) (hp : p < nproc)
    (hslot : (P p).ofile fd = some f) : f < nfile ∧ 0 < (k.ftable f).ref := by
  obtain ⟨hfd, hf⟩ := h.inTable p fd f hslot
  have hcopy := copies_pos hfd hslot
  have hle := single_le_sum (f := fun q => copies (P q).ofile nofile f)
    (fun _ _ => Nat.zero_le _) (mem_range.mpr hp)
  have href := h.files f
  unfold slots at href
  exact ⟨hf, by omega⟩

/-- The account does not look at the processes' own table. -/
theorem Ledger.congr (h : Ledger D P k I F) (hfiles : t.ftable = k.ftable)
    (hfs : t.fs = k.fs) : Ledger D P t I F := by
  refine ⟨?_, ?_, h.inTable, ?_⟩
  · rw [hfiles]
    exact h.files
  · rw [hfiles, hfs]
    exact h.nodes
  · rw [hfiles, hfs]
    exact h.fits

/-- One entry of the file table changes. -/
theorem Ledger.setFile {I' F' : List Nat} (h : Ledger D P k I F) (hf : f < nfile)
    (href : X.ref + F.count f = (k.ftable f).ref + F'.count f)
    (hrest : ∀ g, g ≠ f → F'.count g = F.count g)
    (hnodes : ∀ i, X.holds i + I'.count i = (k.ftable f).holds i + I.count i)
    (hfit : 0 < X.ref → X.type = .inode → D.Fit k.fs X) :
    Ledger D P { k with ftable := update k.ftable f X } I' F' := by
  refine ⟨fun g => ?_, ?_, h.inTable, fun g hg => ?_⟩
  · show (update k.ftable f X g).ref = _
    have hg := h.files g
    by_cases hgf : g = f
    · subst hgf
      rw [update_self]
      omega
    · rw [update_of_ne hgf, hrest g hgf]
      exact hg
  · refine D.rebase h.nodes fun i => ?_
    have hu := users_setFile (P := P) (T := k.ftable) hf X i
    have hi := hnodes i
    dsimp only
    omega
  · dsimp only
    by_cases hgf : g = f
    · subst hgf
      rw [update_self]
      exact hfit
    · rw [update_of_ne hgf]
      exact h.fits g hg

/-- A slot takes another value, and `F` pays the difference. -/
theorem Ledger.assign {F' : List Nat} {v : Option Nat} (h : Ledger D P k I F)
    (hp : p < nproc) (hfd : fd < nofile) (hv : ∀ g, v = some g → g < nfile)
    (hpaid : ∀ g, (if v = some g then 1 else 0) + F'.count g
      = (if (P p).ofile fd = some g then 1 else 0) + F.count g) :
    Ledger D (assign P p fd v) k I F' := by
  refine ⟨fun g => ?_, ?_, fun q n g hg => ?_, h.fits⟩
  · have hs := slots_assign (P := P) hp hfd v g
    have hg := h.files g
    have hpaid := hpaid g
    omega
  · exact D.rebase h.nodes fun i => by rw [users_assign hp]
  · unfold Kfs.assign at hg
    by_cases hq : q = p
    · subst hq
      rw [update_self] at hg
      by_cases hn : n = fd
      · subst hn
        exact ⟨hfd, hv g ((update_self n v (P q).ofile).symm.trans hg)⟩
      · exact h.inTable q n g ((update_of_ne hn v (P q).ofile).symm.trans hg)
    · rw [update_of_ne hq] at hg
      exact h.inTable q n g hg

/-- A reference to `f` goes into an empty slot. -/
theorem Ledger.fill (h : Ledger D P k I (f :: F)) (hp : p < nproc) (hfd : fd < nofile)
    (hf : f < nfile) (hempty : (P p).ofile fd = none) :
    Ledger D (Kfs.assign P p fd (some f)) k I F := by
  refine h.assign hp hfd (fun g hg => Option.some.inj hg ▸ hf) fun g => ?_
  simp only [hempty, List.count_cons, Option.some.injEq, beq_iff_eq, reduceCtorEq,
    if_false]
  omega

/-- A slot is given up: its reference is the caller's. -/
theorem Ledger.clear (h : Ledger D P k I F) (hp : p < nproc)
    (hslot : (P p).ofile fd = some f) :
    Ledger D (Kfs.assign P p fd none) k I (f :: F) := by
  refine h.assign hp (h.inTable p fd f hslot).1 nofun fun g => ?_
  simp only [hslot, List.count_cons, Option.some.injEq, beq_iff_eq, reduceCtorEq,
    if_false]
  omega

/-- A process changes without its descriptors. -/
theorem Ledger.setProc {I' : List Nat} {X : Proc} (h : Ledger D P k I F) (hp : p < nproc)
    (hfiles : X.ofile = (P p).ofile)
    (hnodes : ∀ i, X.sits i + I'.count i = (P p).sits i + I.count i) :
    Ledger D (update P p X) k I' F := by
  refine ⟨fun f => ?_, ?_, fun q n f hf => ?_, h.fits⟩
  · have hs := slots_update (P := P) hp X f
    have hg := h.files f
    rw [hfiles] at hs
    omega
  · refine D.rebase h.nodes fun i => ?_
    have hu := users_setProc (P := P) (T := k.ftable) hp X i
    have hi := hnodes i
    omega
  · by_cases hq : q = p
    · subst hq
      rw [update_self, hfiles] at hf
      exact h.inTable q n f hf
    · rw [update_of_ne hq] at hf
      exact h.inTable q n f hf

-- ==== file.c

/-- A call's work on the file system. -/
theorem onFs_meets {α : Type} {x : Op α} {E : Panic → KFs → Prop}
    {E' : Stop → Kernel → Prop} {Q : α → KFs → Prop} (h : Meets E x k.fs Q)
    (hstop : ∀ why s, E why s → E' (.fs why) k) :
    Meets E' (onFs x) k fun a t =>
      Q a t.fs ∧ t.ftable = k.ftable ∧ t.procs = k.procs := by
  apply get_bind
  unfold Meets at h
  generalize exec x k.fs = r at h ⊢
  obtain ⟨r, s⟩ := r
  cases r with
  | ok a =>
    apply modify_bind
    exact ret ⟨h, rfl, rfl⟩
  | error e => exact fault (hstop e s h)

/-- The account after a program on the file system that keeps to the
discipline. -/
theorem Ledger.after {α : Type} {x : Op α} {held : α → List Nat} {Q : α → KFs → Prop}
    {H : List Nat} (h : Ledger D P k I F)
    (hx : Safe D.Fault x k.fs fun a s => D.Holds (users P k.ftable) (held a) s
      ∧ D.Stays (users P k.ftable) H k.fs s ∧ Q a s) :
    Safe D.stops (onFs x) k fun a t => Ledger D P t (held a) F ∧ t.ftable = k.ftable
      ∧ t.procs = k.procs ∧ Q a t.fs := by
  refine (onFs_meets hx fun _ _ he => he).mono fun a t ht => ?_
  obtain ⟨⟨hholds, hst, hq⟩, hfiles, hprocs⟩ := ht
  refine ⟨⟨?_, ?_, h.inTable, fun f hf href htype => ?_⟩, hfiles, hprocs, hq⟩
  · rw [hfiles]
    exact h.files
  · rw [hfiles]
    exact hholds
  · rw [hfiles] at href htype ⊢
    exact D.fit_stays (h.fits f hf href htype) hst (users_file hf href htype)

theorem Ledger.onFs {α : Type} {x : Op α} {held : α → List Nat} {H : List Nat}
    (h : Ledger D P k I F)
    (hx : Safe D.Fault x k.fs fun a s => D.Holds (users P k.ftable) (held a) s
      ∧ D.Stays (users P k.ftable) H k.fs s) :
    Safe D.stops (Kfs.onFs x) k fun a t => Ledger D P t (held a) F
      ∧ t.ftable = k.ftable ∧ t.procs = k.procs :=
  (h.after (Q := fun _ _ => True) (hx.mono fun _ _ hs => ⟨hs.1, hs.2, trivial⟩)).mono
    fun _ _ ht => ⟨ht.1, ht.2.1, ht.2.2.1⟩

theorem holds_eq_zero (h : X.type ≠ .inode) (i : Nat) : X.holds i = 0 :=
  if_neg fun hi => h hi.2.1

theorem holds_of_ref (h : X.ref = 0) (i : Nat) : X.holds i = 0 :=
  if_neg fun hi => by omega

/-- Other references to an open file. -/
theorem holds_recount {n : Nat} (h : 0 < X.ref) (hn : 0 < n) (i : Nat) :
    File.holds { X with ref := n } i = X.holds i := by
  unfold File.holds
  refine if_congr ?_ rfl rfl
  rw [and_congr_left_iff]
  exact fun _ => ⟨fun _ => h, fun _ => hn⟩

/-- A new file, which the caller holds. -/
theorem filealloc_ledger (h : Ledger D P k I F) :
    Safe D.stops filealloc k fun r t => Ledger D P t I (r.toList ++ F)
      ∧ t.procs = k.procs ∧ t.fs = k.fs
      ∧ ∀ f, r = some f → f < nfile ∧ (k.ftable f).ref = 0
        ∧ t.ftable f = ⟨.none, 1, false, false, 0, 0⟩
        ∧ ∀ g, g ≠ f → t.ftable g = k.ftable g := by
  apply get_bind
  split
  next f hfree =>
    obtain ⟨-, hlt, h0, -⟩ := first_some hfree
    rw [beq_iff_eq] at h0
    have hf : f < nfile := by omega
    apply modify_bind
    apply ret
    refine ⟨?_, rfl, rfl, fun g hg => ?_⟩
    · refine h.setFile hf ?_ (fun g hg => List.count_cons_of_ne (Ne.symm hg)) (fun i => ?_)
        nofun
      · show 1 + F.count f = _ + (f :: F).count f
        rw [List.count_cons_self, h0]
        omega
      · rw [holds_eq_zero (by simp), holds_of_ref h0]
    · cases hg
      exact ⟨hf, h0, update_self .., fun g hg => update_of_ne hg ..⟩
  next =>
    apply ret
    exact ⟨h, rfl, rfl, nofun⟩

theorem filedup_ledger (h : Ledger D P k I F) (hf : f < nfile) :
    Safe D.stops (filedup f) k fun _ t => Ledger D P t I (f :: F) ∧ t.procs = k.procs := by
  apply get_bind
  split
  next => exact fault trivial
  next hpos =>
    apply change
    refine ⟨?_, rfl⟩
    refine h.setFile hf ?_ (fun g hg => List.count_cons_of_ne (Ne.symm hg)) (fun i => ?_)
      fun _ htype => D.fit_congr (X := k.ftable f) rfl rfl (h.fits f hf (by omega) htype)
    · show (k.ftable f).ref + 1 + F.count f = _ + (f :: F).count f
      rw [List.count_cons_self]
      omega
    · rw [holds_recount (by omega) (by omega)]

/-- A reference to a file is given back, and with the last one the file's
to its inode. -/
theorem fileclose_ledger (h : Ledger D P k I (f :: F)) (hf : f < nfile) :
    Safe D.stops (fileclose f) k fun _ t => Ledger D P t I F ∧ t.procs = k.procs := by
  apply get_bind
  split
  next => exact fault trivial
  next hpos =>
    split
    next hmany =>
      apply change
      refine ⟨?_, rfl⟩
      refine h.setFile hf ?_ (fun g hg => (List.count_cons_of_ne (Ne.symm hg)).symm)
        (fun i => ?_) fun _ htype => D.fit_congr (X := k.ftable f) rfl rfl
          (h.fits f hf (by omega) htype)
      · show (k.ftable f).ref - 1 + (f :: F).count f = _
        rw [List.count_cons_self]
        omega
      · rw [holds_recount (by omega) hmany]
    next hlast =>
      -- the entry is cleared first; an inode's reference is the caller's then
      have hclosed : ∀ I', (∀ i, I'.count i = (k.ftable f).holds i + I.count i) →
          Ledger D P { k with
              ftable := update k.ftable f { k.ftable f with ref := 0, type := .none } }
            I' F := by
        intro I' hI'
        refine h.setFile hf ?_ (fun g hg => (List.count_cons_of_ne (Ne.symm hg)).symm)
          (fun i => ?_) nofun
        · show 0 + (f :: F).count f = _
          rw [List.count_cons_self]
          omega
        · rw [holds_of_ref rfl, Nat.zero_add]
          exact hI' i
      have hplain : (k.ftable f).type ≠ .inode → Ledger D P { k with
          ftable := update k.ftable f { k.ftable f with ref := 0, type := .none } } I F :=
        fun htype => hclosed I fun i => by rw [holds_eq_zero htype, Nat.zero_add]
      apply modify_bind
      split
      next htype =>
        have hheld := hclosed ((k.ftable f).ip :: I) (by
          intro i
          unfold File.holds
          by_cases hi : (k.ftable f).ip = i
          · rw [if_pos ⟨by omega, htype, hi⟩, ← hi, List.count_cons_self]
            omega
          · rw [if_neg (fun hc => hi hc.2.2), List.count_cons_of_ne hi]
            omega)
        refine (hheld.onFs (D.put hheld.nodes)).mono fun _ t ht => ?_
        exact ⟨ht.1, ht.2.2⟩
      next htype => exact ret ⟨hplain (by rw [htype]; nofun), rfl⟩
      next htype => exact ret ⟨hplain (by rw [htype]; nofun), rfl⟩
      next htype => exact ret ⟨hplain (by rw [htype]; nofun), rfl⟩

/-- A change that concerns no reference. -/
theorem Ledger.retouch (h : Ledger D P k I F) (hf : f < nfile)
    (href : X.ref = (k.ftable f).ref) (hnodes : ∀ i, X.holds i = (k.ftable f).holds i)
    (hfit : 0 < X.ref → X.type = .inode → D.Fit k.fs X) :
    Ledger D P { k with ftable := update k.ftable f X } I F :=
  h.setFile hf (by rw [href]) (fun _ _ => rfl) (fun i => by rw [hnodes i]) hfit

theorem advance_ledger (h : Ledger D P k I F) (hf : f < nfile) (r : Int) :
    Safe D.stops (advance f r) k fun _ t => Ledger D P t I F ∧ t.procs = k.procs
      ∧ (t.ftable f).type = (k.ftable f).type ∧ (t.ftable f).ref = (k.ftable f).ref
      ∧ (t.ftable f).writable = (k.ftable f).writable := by
  unfold advance
  split
  next =>
    apply change
    refine ⟨h.retouch hf rfl (fun _ => rfl) fun href htype =>
      D.fit_congr (X := k.ftable f) rfl rfl (h.fits f hf href htype), rfl, ?_⟩
    dsimp only
    rw [update_self]
    exact ⟨rfl, rfl, rfl⟩
  next => exact ret ⟨h, rfl, rfl, rfl, rfl⟩

/-- `fileread` of a file that some descriptor names. -/
theorem fileread_ledger (h : Ledger D P k I F) (ext : Option (List UInt8))
    (hf : f < nfile) (href : 0 < (k.ftable f).ref) (n : Nat) :
    Safe D.stops (fileread ext f n) k fun _ t =>
      Ledger D P t I F ∧ t.procs = k.procs := by
  apply get_bind
  split
  next => exact ret ⟨h, rfl⟩
  split
  next => exact ret ⟨h, rfl⟩
  next htype =>
    have hpos := users_file (P := P) hf href htype
    refine (h.onFs (ilock_kept h.nodes (Nat.add_pos_left hpos _))).seq
      fun _ t ⟨h1, hfiles, hprocs⟩ => ?_
    rw [← hfiles] at href htype hpos ⊢
    obtain ⟨_, hl, -⟩ := h1.fits f hf href htype
    refine (h1.onFs (readiDev_kept ext h1.nodes (Nat.add_pos_left hpos _) hl _ n)).seq
      fun r u hu => ?_
    refine (advance_ledger hu.1 hf _).seq fun _ v hv => ?_
    exact ret ⟨hv.1, hv.2.1.trans (hu.2.2.trans hprocs)⟩
  next => exact fault trivial
  next => exact fault trivial

theorem filewriteLoop_ledger (ext : Nat → Int) (hf : f < nfile) (max n : Nat)
    (src : List UInt8) (h : Ledger D P k I F) (href : 0 < (k.ftable f).ref)
    (htype : (k.ftable f).type = .inode) (hw : (k.ftable f).writable = true) :
    Safe D.stops (filewriteLoop ext f max n src) k fun _ t =>
      Ledger D P t I F ∧ t.procs = k.procs := by
  induction n generalizing k src with
  | zero => exact ret ⟨h, rfl⟩
  | succ n ih =>
    unfold filewriteLoop
    split
    next => exact ret ⟨h, rfl⟩
    have hpos := users_file (P := P) hf href htype
    apply get_bind
    refine (h.onFs (ilock_kept h.nodes (Nat.add_pos_left hpos _))).seq
      fun _ t ⟨h1, hfiles, hprocs⟩ => ?_
    rw [← hfiles] at href htype hw hpos ⊢
    obtain ⟨_, hl, hdir⟩ := h1.fits f hf href htype
    refine (h1.onFs (writeiDev_kept _ h1.nodes (Nat.add_pos_left hpos _) hl (hdir hw)
      _ _)).seq fun r u ⟨h2, hfiles2, hprocs2⟩ => ?_
    rw [← hfiles2] at href htype hw
    refine (advance_ledger h2 hf r).seq
      fun _ v ⟨h3, hprocs3, htype3, href3, hw3⟩ => ?_
    have hsame : v.procs = k.procs := hprocs3.trans (hprocs2.trans hprocs)
    split
    next => exact ret ⟨h3, hsame⟩
    split
    next => exact fault trivial
    refine (ih (src.drop max) h3 (href3 ▸ href) (htype3.trans htype)
      (hw3.trans hw)).mono fun _ w hw => ?_
    exact ⟨hw.1, hw.2.trans hsame⟩

theorem filewrite_ledger (h : Ledger D P k I F) (ext : Nat → Int) (hf : f < nfile)
    (href : 0 < (k.ftable f).ref) (src : List UInt8) :
    Safe D.stops (filewrite ext f src) k fun _ t =>
      Ledger D P t I F ∧ t.procs = k.procs := by
  apply get_bind
  split
  next => exact ret ⟨h, rfl⟩
  next hw =>
    split
    next => exact ret ⟨h, rfl⟩
    next htype =>
      refine (filewriteLoop_ledger ext hf _ _ src h href htype
        (Bool.not_eq_false _ ▸ hw)).seq fun all t ht => ?_
      exact ret ht
    next => exact fault trivial
    next => exact fault trivial

-- ==== descriptors

theorem argfd_safe (k : Kernel) (p fd : Nat) :
    Safe D.stops (argfd p fd) k fun r t => t = k ∧ ∀ f, r = some f →
      (k.procs p).ofile fd = some f := by
  apply get_bind
  apply ret
  refine ⟨rfl, fun f hf => ?_⟩
  split at hf
  next => exact hf
  next => cases hf

/-- The lowest empty slot, or nothing. -/
theorem fdalloc_safe (k : Kernel) (p f : Nat) :
    Safe D.stops (fdalloc p f) k fun r t => t.ftable = k.ftable ∧ t.fs = k.fs
      ∧ (r = none → t.procs = k.procs)
      ∧ ∀ fd, r = some fd → fd < nofile ∧ (k.procs p).ofile fd = none
        ∧ t.procs = assign k.procs p fd (some f) := by
  apply get_bind
  split
  next fd hfree =>
    obtain ⟨-, hlt, hnone, -⟩ := first_some hfree
    rw [Option.isNone_iff_eq_none] at hnone
    apply modify_bind
    apply ret
    refine ⟨rfl, rfl, nofun, fun fd' h => ?_⟩
    cases h
    exact ⟨by omega, hnone, rfl⟩
  next => exact ret ⟨rfl, rfl, fun _ => rfl, nofun⟩

/-- `fdalloc` of a file the caller holds. -/
theorem fdalloc_ledger (h : Ledger D k.procs k I (f :: F)) (hp : p < nproc)
    (hf : f < nfile) :
    Safe D.stops (fdalloc p f) k fun r t => t.ftable = k.ftable ∧ t.fs = k.fs
      ∧ (r = none → t.procs = k.procs ∧ Ledger D t.procs t I (f :: F))
      ∧ ∀ fd, r = some fd → Ledger D t.procs t I F
        ∧ t.procs = assign k.procs p fd (some f) := by
  refine (fdalloc_safe k p f).mono fun r t ht => ?_
  obtain ⟨hfiles, hfs, hnone, hsome⟩ := ht
  refine ⟨hfiles, hfs, fun hr => ⟨hnone hr, ?_⟩, fun fd hr => ?_⟩
  · rw [hnone hr]
    exact h.congr hfiles hfs
  · obtain ⟨hfd, hempty, hprocs⟩ := hsome fd hr
    refine ⟨?_, hprocs⟩
    rw [hprocs]
    exact (h.fill hp hfd hf hempty).congr hfiles hfs

end Xv6FsServer.Kfs
