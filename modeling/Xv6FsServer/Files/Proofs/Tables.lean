/-
The kernel's tables: `ref` counts the descriptors that name a file.

`Tables` is the invariant, kept by every step (`Eff.tables`): the count
of each file is the number of its holders, and a process that is not
alive holds none. What follows for the rest is `Eff.keeps`: a file that
is in use before and after a step is the same file.
-/
import Xv6FsServer.Lib.Tally
import Xv6FsServer.Files.Proofs.Effect

namespace Xv6FsServer.Files

open Lib Function Finset
open Ipc (IpcMsg IpcMsgType Answer)
open Server (Srv)

variable {w w' : Sys} {a : Act} {p : Nat}
variable {F : File} {n f q : Nat}
variable {c : Call} {m g : Nat}

-- ==== counting

/-- The descriptors that name `f`. -/
def Sys.holders (w : Sys) (f : Nat) : Nat :=
  ∑ p ∈ range w.nextpid, copies (w.procs p).ofile nofile f

/-- A change of one process' descriptors. -/
theorem holders_update (hp : p < w.nextpid) (P : Proc) (files : Nat → File)
    (f : Nat) :
    ({ w with procs := update w.procs p P, files := files } : Sys).holders f
        + copies (w.procs p).ofile nofile f
      = w.holders f + copies P.ofile nofile f :=
  sum_update w.procs (fun P => copies P.ofile nofile f) hp P

theorem copies_le_holders (hp : p < w.nextpid) (f : Nat) :
    copies (w.procs p).ofile nofile f ≤ w.holders f :=
  single_le_sum (f := fun q => copies (w.procs q).ofile nofile f)
    (fun _ _ => Nat.zero_le _) (mem_range.mpr hp)

-- ==== the loops

theorem dupFiles_eq (ofile : Nat → Option Nat) (n : Nat) (files : Nat → File)
    (f : Nat) : dupFiles ofile n files f
      = { files f with ref := (files f).ref + copies ofile n f } := by
  induction n with
  | zero => rfl
  | succ n ih =>
    rw [copies_succ]
    cases hn : ofile n with
    | none =>
      simp only [dupFiles, hn]
      rw [ih, if_neg (by simp), Nat.add_zero]
    | some g =>
      simp only [dupFiles, hn]
      by_cases hfg : f = g
      · subst hfg
        rw [update_self, ih, if_pos rfl]
        rfl
      · rw [update_of_ne hfg, ih, if_neg (by simp [Ne.symm hfg]), Nat.add_zero]

theorem close_ref (F : File) : F.close.ref = F.ref - 1 := by
  unfold File.close
  split
  next => rfl
  next h =>
    show 0 = _
    omega

theorem close_eq (h : 1 < F.ref) : F.close = { F with ref := F.ref - 1 } := by
  unfold File.close
  rw [if_pos (by omega)]

theorem closeFiles_ref (ofile : Nat → Option Nat) (n : Nat) (files : Nat → File)
    (f : Nat) :
    (closeFiles ofile n files f).ref = (files f).ref - copies ofile n f
      ∧ (copies ofile n f < (files f).ref → closeFiles ofile n files f
        = { files f with ref := (files f).ref - copies ofile n f }) := by
  induction n with
  | zero => exact ⟨rfl, fun _ => rfl⟩
  | succ n ih =>
    rw [copies_succ]
    cases hn : ofile n with
    | none =>
      simp only [closeFiles, hn]
      rw [if_neg (by simp), Nat.add_zero]
      exact ih
    | some g =>
      simp only [closeFiles, hn]
      by_cases hfg : f = g
      · subst hfg
        rw [update_self, if_pos rfl, close_ref, ih.1]
        refine ⟨by omega, fun hlt => ?_⟩
        rw [close_eq (by rw [ih.1]; omega), ih.2 (by omega)]
        rw [Nat.sub_sub]
      · rw [update_of_ne hfg, if_neg (by simp [Ne.symm hfg]), Nat.add_zero]
        exact ih

theorem fork_files (w : Sys) (p : Nat) :
    (w.fork p).files = dupFiles (w.procs p).ofile nofile w.files := rfl

theorem exit_files (w : Sys) (p : Nat) :
    (w.exit p).files = closeFiles (w.procs p).ofile nofile w.files := rfl

-- ==== the invariant

structure Tables (w : Sys) : Prop where
  counted : ∀ f, (w.files f).ref = w.holders f
  slots : ∀ p n f, (w.procs p).ofile n = some f → n < nofile
  unborn : ∀ p, w.nextpid ≤ p → (w.procs p).alive = false
  gone : ∀ p, (w.procs p).alive = false →
    (∀ n, (w.procs p).ofile n = none) ∧ (w.procs p).call = .none

theorem tables_start : Tables Sys.start where
  counted f := (sum_eq_zero fun _ _ => copies_none (fun _ => rfl) f).symm
  slots _ _ _ h := by cases h
  unborn p hp := by
    have hp : 2 ≤ p := hp
    show (p == 1) = false
    rw [beq_eq_false_iff_ne]
    omega
  gone _ _ := ⟨fun _ => rfl, rfl⟩

namespace Tables

variable (h : Tables w)

include h

theorem born (halive : (w.procs p).alive = true) : p < w.nextpid := by
  by_contra hp
  rw [h.unborn p (by omega)] at halive
  cases halive

theorem alive_of_call (hcall : (w.procs p).call = c) (hc : c ≠ .none) :
    (w.procs p).alive = true := by
  by_contra hdead
  rw [Bool.not_eq_true] at hdead
  exact hc (hcall.symm.trans (h.gone p hdead).2)

theorem alive_of_ofile (hfd : (w.procs p).ofile n = some f) :
    (w.procs p).alive = true := by
  by_contra hdead
  rw [Bool.not_eq_true] at hdead
  rw [(h.gone p hdead).1 n] at hfd
  cases hfd

/-- A file that a descriptor names is in use. -/
theorem ref_pos (hfd : (w.procs p).ofile n = some f) : 0 < (w.files f).ref := by
  rw [h.counted f]
  have hp := h.born (h.alive_of_ofile hfd)
  have hle := copies_le_holders hp f
  have hpos := copies_pos (h.slots p n f hfd) hfd
  omega

/-- One process has changed, and the counts with it. -/
theorem of_procs {P : Proc} (hprocs : w'.procs = update w.procs p P)
    (hcounted : ∀ f, (w'.files f).ref = w'.holders f)
    (hslots : ∀ n f, P.ofile n = some f → n < nofile)
    (hgone : P.alive = false → (∀ n, P.ofile n = none) ∧ P.call = .none)
    (hnext : w.nextpid ≤ w'.nextpid) (hp : p < w'.nextpid) : Tables w' where
  counted := hcounted
  slots := by
    rw [hprocs]
    exact (forall_update_iff w.procs fun _ P => ∀ n f, P.ofile n = some f →
      n < nofile).mpr ⟨hslots, fun q _ => h.slots q⟩
  unborn q hq := by
    rw [hprocs, update_of_ne (by omega)]
    exact h.unborn q (by omega)
  gone := by
    rw [hprocs]
    exact (forall_update_iff w.procs fun _ P => P.alive = false →
      (∀ n, P.ofile n = none) ∧ P.call = .none).mpr ⟨hgone, fun q _ => h.gone q⟩

/-- The two counts after one process' descriptors have changed. -/
theorem rewire (halive : (w.procs p).alive = true) {o : Nat → Option Nat}
    {files : Nat → File} (hslots : ∀ n f, o n = some f → n < nofile)
    (hcount : ∀ f, (files f).ref + copies (w.procs p).ofile nofile f
      = (w.files f).ref + copies o nofile f) :
    Tables { w with procs := update w.procs p ⟨true, o, c⟩, files := files } := by
  refine h.of_procs rfl (fun f => ?_) hslots (fun hdead => by cases hdead)
    (Nat.le_refl _) (h.born halive)
  have hsum := holders_update (h.born halive) ⟨true, o, c⟩ files f
  have hf := hcount f
  have hold := h.counted f
  dsimp only at hsum ⊢
  omega

theorem setServer (S : Nat) (s : Option Srv) : Tables (w.setServer S s) :=
  ⟨h.counted, h.slots, h.unborn, h.gone⟩

theorem setCall (halive : (w.procs p).alive = true) (c : Call) :
    Tables (w.setCall p c) := by
  have hP : (w.setCall p c) = { w with
      procs := update w.procs p ⟨true, (w.procs p).ofile, c⟩, files := w.files } := by
    rw [← halive]
    rfl
  rw [hP]
  exact h.rewire halive (h.slots p) fun _ => rfl

/-- A free slot may be written, as long as it stays free. -/
theorem setFile (hf : (w.files f).ref = 0) (hF : F.ref = 0) :
    Tables (w.setFile f F) where
  counted g := by
    show (update w.files f F g).ref = w.holders g
    by_cases hg : g = f
    · subst hg
      rw [update_self, hF, ← h.counted, hf]
    · rw [update_of_ne hg]
      exact h.counted g
  slots := h.slots
  unborn := h.unborn
  gone := h.gone

/-- A slot of `p` takes another value, and the count of `f` the difference. -/
theorem setSlot {v : Option Nat} (halive : (w.procs p).alive = true) (hn : n < nofile)
    (hold : ∀ g, g ≠ f → (w.procs p).ofile n ≠ some g)
    (hnew : ∀ g, g ≠ f → v ≠ some g)
    (hF : F.ref + (if (w.procs p).ofile n = some f then 1 else 0)
      = (w.files f).ref + if v = some f then 1 else 0) :
    Tables { w with
      procs := update w.procs p ⟨(w.procs p).alive, update (w.procs p).ofile n v, .none⟩
      files := update w.files f F } := by
  rw [halive]
  refine h.rewire halive (fun m g hm => ?_) fun g => ?_
  · by_cases hmn : m = n
    · omega
    · rw [update_of_ne hmn] at hm
      exact h.slots p m g hm
  · have hcount := copies_update (w.procs p).ofile hn v g
    by_cases hg : g = f
    · subst hg
      rw [update_self]
      omega
    · rw [if_neg (hold g hg), if_neg (hnew g hg)] at hcount
      rw [update_of_ne hg]
      omega

/-- A descriptor more, and a reference more. -/
theorem install (halive : (w.procs p).alive = true)
    (hn : fdalloc (w.procs p).ofile = some n) (hF : F.ref = (w.files f).ref + 1) :
    Tables (w.install p f n F) := by
  obtain ⟨-, hlt, hfree, -⟩ := first_some hn
  have hfree : (w.procs p).ofile n = none := Option.isNone_iff_eq_none.mp hfree
  refine h.setSlot halive (by omega) (by simp [hfree]) (by simp [eq_comm]) ?_
  simpa [hfree] using hF

/-- A descriptor less, and a reference less. -/
theorem drop (hfd : (w.procs p).ofile n = some f) : Tables (w.drop p n f) := by
  have hpos := h.ref_pos hfd
  refine h.setSlot (h.alive_of_ofile hfd) (h.slots p n f hfd) (by simp [hfd, eq_comm])
    (by simp) ?_
  rw [hfd, if_pos rfl, close_ref, if_neg (by simp)]
  omega

theorem fork (p : Nat) : Tables (w.fork p) := by
  refine h.of_procs rfl (fun f => ?_) (h.slots p) (fun hdead => by cases hdead)
    (Nat.le_succ _) (Nat.lt_succ_self _)
  have hold : ∑ q ∈ range w.nextpid,
      copies (update w.procs w.nextpid ⟨true, (w.procs p).ofile, .none⟩ q).ofile
        nofile f = w.holders f := by
    apply sum_congr rfl
    intro q hq
    rw [update_of_ne (by have := mem_range.mp hq; omega)]
  rw [fork_files, dupFiles_eq]
  show (w.files f).ref + _ = ∑ q ∈ range (w.nextpid + 1),
    copies (update w.procs w.nextpid ⟨true, (w.procs p).ofile, .none⟩ q).ofile nofile f
  rw [sum_range_succ, update_self, hold, ← h.counted]

theorem exit (halive : (w.procs p).alive = true) : Tables (w.exit p) := by
  refine h.of_procs rfl (fun f => ?_) (fun _ _ hfd => by cases hfd)
    (fun _ => ⟨fun _ => rfl, rfl⟩) (Nat.le_refl _) (h.born halive)
  have hsum := holders_update (h.born halive) ⟨false, fun _ => none, .none⟩
    (closeFiles (w.procs p).ofile nofile w.files) f
  rw [copies_none (fun _ => rfl)] at hsum
  have hold := h.counted f
  rw [exit_files, (closeFiles_ref ..).1]
  exact Nat.sub_eq_of_eq_add (by rw [hold]; exact hsum.symm)

end Tables

theorem filealloc_free (hf : w.filealloc = some f) : (w.files f).ref = 0 := by
  obtain ⟨-, -, hfree, -⟩ := first_some hf
  exact beq_iff_eq.mp hfree

theorem Eff.tables (h : Tables w) (he : Eff w a w') : Tables w' := by
  cases he with
  | still => exact h
  | openFailed _ _ _ => exact h.setServer _ _
  | openAnswered hp | closeAnswered hp => exact (h.setServer _ _).setCall hp.alive _
  | @openEnd p S omode fd inum f n hcall hf hn =>
    have ht := h.install (F := remoteFile omode fd w.fsserverPid)
      (h.alive_of_call hcall (by simp)) hn (by rw [filealloc_free hf]; rfl)
    exact ⟨ht.counted, ht.slots, ht.unborn, ht.gone⟩
  | openNoFile hcall => exact h.setCall (h.alive_of_call hcall (by simp)) _
  | openNoFd hcall hf =>
    exact (h.setFile (filealloc_free hf) rfl).setCall
      (h.alive_of_call hcall (by simp)) _
  | undoFailed hcall _ => exact h.setCall (h.alive_of_call hcall (by simp)) _
  | undone hcall _ =>
    exact (h.setServer _ _).setCall (h.alive_of_call hcall (by simp)) _
  | localNoFd hf => exact h.setFile (filealloc_free hf) rfl
  | localOpen hp hf hn =>
    exact h.install hp.alive hn (by rw [filealloc_free hf]; rfl)
  | dup hp _ _ hn => exact h.install hp.alive hn rfl
  | read | write | exitLost | exitSeen | register =>
    exact ⟨h.counted, h.slots, h.unborn, h.gone⟩
  | closeFailed hp _ _ _ => exact h.setCall hp.alive _
  | closeLocal _ hfd | closeEnd _ hfd => exact h.drop hfd
  | fork _ => exact h.fork _
  | exit halive _ => exact h.exit halive

-- ==== a file stays itself

/-- Everything of a file but its count. -/
def File.kind (F : File) : File := { F with ref := 0 }

theorem kind_ref (F : File) (n : Nat) : ({ F with ref := n } : File).kind = F.kind :=
  rfl

theorem File.of_kind {G : File} (h : F.kind = G.kind) :
    F.type = G.type ∧ F.readable = G.readable ∧ F.writable = G.writable
      ∧ F.remoteFd = G.remoteFd ∧ F.remoteOwner = G.remoteOwner := by
  unfold File.kind at h
  rw [File.mk.injEq] at h
  exact ⟨h.1, h.2.2⟩

/-- A file in use before and after is the same file. -/
def Sys.Keeps (w w' : Sys) : Prop :=
  ∀ f, 0 < (w.files f).ref → 0 < (w'.files f).ref →
    (w'.files f).kind = (w.files f).kind ∧ w'.origin f = w.origin f

theorem Sys.Keeps.of_files (hf : w'.files = w.files) (ho : w'.origin = w.origin) :
    w.Keeps w' := by
  intro f _ _
  rw [hf, ho]
  exact ⟨rfl, rfl⟩

/-- One slot is written: it was free, it is freed, or only its count
changes. -/
theorem Sys.Keeps.of_update (hf : w'.files = update w.files f F)
    (ho : ∀ g, g ≠ f → w'.origin g = w.origin g) (hF : (w.files f).ref = 0 ∨ F.ref = 0
      ∨ F.kind = (w.files f).kind ∧ w'.origin f = w.origin f) : w.Keeps w' := by
  intro g hg hg'
  rw [hf] at hg' ⊢
  by_cases hgf : g = f
  · subst hgf
    rw [update_self] at hg' ⊢
    rcases hF with h0 | h0 | hkind
    · omega
    · omega
    · exact hkind
  · rw [update_of_ne hgf]
    exact ⟨rfl, ho g hgf⟩

theorem close_kind (F : File) : F.close.ref = 0 ∨ F.close.kind = F.kind := by
  unfold File.close
  split
  next => exact Or.inr rfl
  next => exact Or.inl rfl

theorem drop_keeps (p n f : Nat) : w.Keeps (w.drop p n f) := by
  refine .of_update (f := f) rfl (fun _ _ => rfl) ?_
  rcases close_kind (w.files f) with h | h
  · exact Or.inr (Or.inl h)
  · exact Or.inr (Or.inr ⟨h, rfl⟩)

theorem fork_kind (p f : Nat) : ((w.fork p).files f).kind = (w.files f).kind := by
  rw [fork_files, dupFiles_eq]
  exact kind_ref _ _

theorem exit_kind (hpos : 0 < ((w.exit p).files f).ref) :
    ((w.exit p).files f).kind = (w.files f).kind := by
  have hloop := closeFiles_ref (w.procs p).ofile nofile w.files f
  rw [exit_files, hloop.1] at hpos
  rw [exit_files, hloop.2 (by omega)]
  exact kind_ref _ _

theorem Eff.keeps (he : Eff w a w') : w.Keeps w' := by
  cases he with
  | still | openFailed | openAnswered | openNoFile | undoFailed | undone | read
  | write | closeFailed | closeAnswered | exitLost | exitSeen | register =>
    exact .of_files rfl rfl
  | openEnd _ hf _ =>
    exact .of_update rfl (fun g hg => update_of_ne hg ..) (Or.inl (filealloc_free hf))
  | openNoFd _ hf | localOpen _ hf =>
    exact .of_update rfl (fun _ _ => rfl) (Or.inl (filealloc_free hf))
  | localNoFd hf => exact .of_update rfl (fun _ _ => rfl) (Or.inl (filealloc_free hf))
  | dup _ _ _ _ => exact .of_update rfl (fun _ _ => rfl) (Or.inr (Or.inr ⟨rfl, rfl⟩))
  | closeLocal | closeEnd => exact drop_keeps _ _ _
  | @fork p _ => exact fun f _ _ => ⟨fork_kind p f, rfl⟩
  | @exit p _ _ => exact fun f _ hpos => ⟨exit_kind hpos, rfl⟩

-- ==== where descriptors come from

/-- The file in slot `f` is the one that was there. -/
def Sys.Same (w w' : Sys) (f : Nat) : Prop :=
  (w'.files f).kind = (w.files f).kind ∧ w'.origin f = w.origin f

theorem setCall_ofile (w : Sys) (p q : Nat) (c : Call) :
    ((w.setCall p c).procs q).ofile = (w.procs q).ofile :=
  update_proj Proc.ofile (by rfl) q

/-- One slot of one process is written. -/
theorem ofile_update {v : Option Nat} (h : (update w.procs p { w.procs p with
      ofile := update (w.procs p).ofile m v, call := c } q).ofile n = some f) :
    (q = p ∧ n = m ∧ v = some f) ∨ (w.procs q).ofile n = some f := by
  by_cases hq : q = p
  · subst hq
    rw [update_self] at h
    change update (w.procs q).ofile m v n = some f at h
    by_cases hn : n = m
    · rw [hn, update_self] at h
      exact Or.inl ⟨rfl, hn, h⟩
    · rw [update_of_ne hn] at h
      exact Or.inr h
  · rw [update_of_ne hq] at h
    exact Or.inr h

theorem install_ofile (h : ((w.install p g m F).procs q).ofile n = some f) :
    (q = p ∧ n = m ∧ f = g) ∨ (w.procs q).ofile n = some f := by
  rcases ofile_update h with ⟨hq, hn, hv⟩ | h
  · exact Or.inl ⟨hq, hn, (Option.some.inj hv).symm⟩
  · exact Or.inr h

theorem drop_slot (w : Sys) (p n f : Nat) :
    ((w.drop p n f).procs p).ofile n = none := by
  have hself : (w.drop p n f).procs p = { w.procs p with
      ofile := update (w.procs p).ofile n none, call := .none } := update_self ..
  rw [hself]
  exact update_self ..

theorem drop_ofile (h : ((w.drop p m g).procs q).ofile n = some f) :
    (w.procs q).ofile n = some f := by
  rcases ofile_update h with ⟨-, -, hv⟩ | h
  · cases hv
  · exact h

/-- A remote descriptor was there before, was inherited, or was opened. -/
theorem Eff.slot (ht : Tables w) (he : Eff w a w') (hfd : (w'.procs q).ofile n = some f)
    (hr : (w'.files f).type = .remote) :
    ((w.procs q).ofile n = some f ∧ w.Same w' f)
      ∨ (∃ p, a = .fork p ∧ w.Client p ∧ q = w.nextpid
        ∧ (w.procs p).ofile n = some f ∧ w.Same w' f)
      ∨ (∃ S omode fd inum, a = .sysOpenEnd q
        ∧ (w.procs q).call = .opened S omode fd inum
        ∧ w.filealloc = some f ∧ fdalloc (w.procs q).ofile = some n
        ∧ w'.files f = remoteFile omode fd w.fsserverPid
        ∧ w'.origin f = ⟨q, S, inum⟩) := by
  have hk := he.keeps
  have ht' := he.tables ht
  have hold : (w.procs q).ofile n = some f →
      (w.procs q).ofile n = some f ∧ w.Same w' f :=
    fun h => ⟨h, hk f (ht.ref_pos h) (ht'.ref_pos hfd)⟩
  cases he with
  | still | openFailed | localNoFd | read | write | exitLost | exitSeen | register =>
    exact Or.inl (hold hfd)
  | openAnswered | openNoFile | openNoFd | undoFailed | undone | closeFailed
  | closeAnswered => exact Or.inl (hold (setCall_ofile .. ▸ hfd))
  | @openEnd p S omode fd inum g m hcall hg hm =>
    rcases install_ofile hfd with ⟨rfl, rfl, rfl⟩ | h
    · exact Or.inr (Or.inr ⟨S, omode, fd, inum, rfl, hcall, hg, hm, update_self ..,
        update_self ..⟩)
    · exact Or.inl (hold h)
  | @localOpen p omode g m _ _ _ =>
    rcases install_ofile hfd with ⟨rfl, rfl, rfl⟩ | h
    · change (update w.files f _ f).type = .remote at hr
      rw [update_self] at hr
      cases hr
    · exact Or.inl (hold h)
  | @dup p fd g m _ _ hlocal _ =>
    rcases install_ofile hfd with ⟨rfl, rfl, rfl⟩ | h
    · change (update w.files f _ f).type = .remote at hr
      rw [update_self] at hr
      exact absurd hr hlocal
    · exact Or.inl (hold h)
  | closeLocal | closeEnd => exact Or.inl (hold (drop_ofile hfd))
  | @fork p hp =>
    change (update w.procs w.nextpid _ q).ofile n = some f at hfd
    by_cases hq : q = w.nextpid
    · subst hq
      rw [update_self] at hfd
      exact Or.inr (Or.inl ⟨p, rfl, hp, rfl, hfd, fork_kind p f, rfl⟩)
    · rw [update_of_ne hq] at hfd
      exact Or.inl ⟨hfd, fork_kind p f, rfl⟩
  | @exit p _ _ =>
    refine Or.inl (hold ?_)
    change (update w.procs p _ q).ofile n = some f at hfd
    by_cases hq : q = p
    · rw [hq, update_self] at hfd
      cases hfd
    · rw [update_of_ne hq] at hfd
      exact hfd

/-- A process in the middle of a close was there before, or has just had
its request answered. -/
theorem Eff.closing (he : Eff w a w') (hcall : (w'.procs p).call = .closing n) :
    (w.procs p).call = .closing n ∨ (a = .sysClose p n ∧ w'.files = w.files
      ∧ w'.origin = w.origin ∧ ∀ q, (w'.procs q).ofile = (w.procs q).ofile) := by
  -- one process goes to another point of its call
  have hprocs : ∀ {p' : Nat} {P : Proc}, w'.procs = update w.procs p' P →
      P.call ≠ .closing n → (w.procs p).call = .closing n := by
    intro p' P hw hP
    rw [hw] at hcall
    by_cases hp : p = p'
    · subst hp
      rw [update_self] at hcall
      exact absurd hcall hP
    · rwa [update_of_ne hp] at hcall
  have hclose : ∀ {p' fd : Nat} {u : Sys}, w' = u.setCall p' (.closing fd) →
      u.procs = w.procs → a = .sysClose p' fd →
      (w.procs p).call = .closing n ∨ a = .sysClose p n := by
    intro p' fd u hw hu ha
    have hprocs' : w'.procs = update w.procs p'
        { w.procs p' with call := .closing fd } := by
      rw [hw, ← hu]
      rfl
    by_cases hp : p = p'
    · subst hp
      rw [hprocs', update_self] at hcall
      cases hcall
      exact Or.inr ha
    · rw [hprocs', update_of_ne hp] at hcall
      exact Or.inl hcall
  cases he with
  | openAnswered => exact Or.inl (hprocs rfl (by simp))
  | openEnd => exact Or.inl (hprocs rfl (by simp))
  | openNoFile => exact Or.inl (hprocs rfl (by simp))
  | openNoFd => exact Or.inl (hprocs rfl (by simp))
  | undoFailed => exact Or.inl (hprocs rfl (by simp))
  | undone => exact Or.inl (hprocs rfl (by simp))
  | localOpen => exact Or.inl (hprocs rfl (by simp))
  | dup => exact Or.inl (hprocs rfl (by simp))
  | closeFailed =>
    rcases hclose rfl rfl rfl with h | h
    · exact Or.inl h
    · exact Or.inr ⟨h, rfl, rfl, fun q => setCall_ofile _ _ q _⟩
  | closeAnswered =>
    rcases hclose rfl rfl rfl with h | h
    · exact Or.inl h
    · exact Or.inr ⟨h, rfl, rfl, fun q => setCall_ofile _ _ q _⟩
  | closeLocal => exact Or.inl (hprocs rfl (by simp))
  | closeEnd => exact Or.inl (hprocs rfl (by simp))
  | fork => exact Or.inl (hprocs rfl (by simp))
  | exit => exact Or.inl (hprocs rfl (by simp))
  | _ => exact Or.inl hcall

/-- A remote descriptor is there until its close ends or its process
exits. -/
theorem Eff.slot_kept (ht : Tables w) (he : Eff w a w')
    (hfd : (w.procs q).ofile n = some f) (hr : (w.files f).type = .remote) :
    (w'.procs q).ofile n = some f
      ∨ (a = .sysCloseEnd q ∧ (w.procs q).call = .closing n) ∨ a = .exit q := by
  -- the descriptor table of one process changes
  have hprocs : ∀ {p : Nat} {P : Proc}, w'.procs = update w.procs p P →
      (q = p → P.ofile n = some f) → (w'.procs q).ofile n = some f := by
    intro p P hw hP
    rw [hw]
    by_cases hq : q = p
    · subst hq
      rw [update_self]
      exact hP rfl
    · rw [update_of_ne hq]
      exact hfd
  -- a slot is filled that was free
  have hinstall : ∀ {p g m : Nat} {c : Call}, fdalloc (w.procs p).ofile = some m →
      w'.procs = update w.procs p
        { w.procs p with ofile := update (w.procs p).ofile m (some g), call := c } →
      (w'.procs q).ofile n = some f := by
    intro p g m c hm hw
    refine hprocs hw fun hq => ?_
    subst hq
    obtain ⟨-, -, hfree, -⟩ := first_some hm
    have hne : n ≠ m := by
      intro e
      rw [← e, hfd] at hfree
      cases hfree
    exact (update_of_ne hne ..).trans hfd
  cases he with
  | openAnswered => exact Or.inl ((setCall_ofile ..).symm ▸ hfd)
  | openEnd _ _ hm => exact Or.inl (hinstall hm rfl)
  | openNoFile => exact Or.inl ((setCall_ofile ..).symm ▸ hfd)
  | openNoFd => exact Or.inl ((setCall_ofile ..).symm ▸ hfd)
  | undoFailed => exact Or.inl ((setCall_ofile ..).symm ▸ hfd)
  | undone => exact Or.inl ((setCall_ofile ..).symm ▸ hfd)
  | localOpen _ _ hm => exact Or.inl (hinstall hm rfl)
  | dup _ _ _ hm => exact Or.inl (hinstall hm rfl)
  | closeFailed => exact Or.inl ((setCall_ofile ..).symm ▸ hfd)
  | closeAnswered => exact Or.inl ((setCall_ofile ..).symm ▸ hfd)
  | @closeLocal p m g _ hg hlocal =>
    refine Or.inl (hprocs rfl fun hq => ?_)
    subst hq
    have hne : n ≠ m := by
      intro e
      rw [← e, hfd] at hg
      cases hg
      exact hlocal hr
    exact (update_of_ne hne ..).trans hfd
  | @closeEnd p m g hcall hg =>
    by_cases hclosed : q = p ∧ n = m
    · obtain ⟨rfl, rfl⟩ := hclosed
      exact Or.inr (Or.inl ⟨rfl, hcall⟩)
    · refine Or.inl (hprocs rfl fun hq => ?_)
      subst hq
      have hne : n ≠ m := fun e => hclosed ⟨rfl, e⟩
      exact (update_of_ne hne ..).trans hfd
  | @fork p _ =>
    refine Or.inl (hprocs rfl fun hq => ?_)
    have hborn := ht.born (ht.alive_of_ofile hfd)
    omega
  | @exit p _ _ =>
    by_cases hq : q = p
    · exact Or.inr (Or.inr (by rw [hq]))
    · exact Or.inl (hprocs rfl fun e => absurd e hq)
  | _ => exact Or.inl hfd

/-- The last reference is in one place only. -/
theorem Tables.unique (ht : Tables w) (href : (w.files f).ref = 1)
    (hn : (w.procs p).ofile n = some f) (hm : (w.procs q).ofile m = some f) :
    q = p ∧ m = n := by
  by_contra hne
  -- take the descriptor away: the other one still names the file
  have hm' : ((w.drop p n f).procs q).ofile m = some f := by
    show (update w.procs p _ q).ofile m = some f
    by_cases hq : q = p
    · subst hq
      rw [update_self]
      have hmn : m ≠ n := fun e => hne ⟨rfl, e⟩
      exact (update_of_ne hmn ..).trans hm
    · rw [update_of_ne hq]
      exact hm
  have hpos := (ht.drop hn).ref_pos hm'
  have hzero : ((w.drop p n f).files f).ref = (w.files f).close.ref :=
    congrArg File.ref (update_self ..)
  rw [hzero, close_ref, href] at hpos
  cases hpos

end Xv6FsServer.Files
