/-
Remote descriptors across fork.

`fork` copies the descriptors and counts the copies in `struct file`, but
the server knows one owner for each of its entries, the process that
opened it: it refuses everyone else, and it gives the entry up when that
process closes or exits. So the copies behave as one descriptor in the
runs in which the opener is the one that uses it, and the last to leave
(`shared_descriptors`); `inherited_read_refused` is what a child gets
otherwise.
-/
import Xv6FsServer.Files.Proofs.Claims

namespace Xv6FsServer.Files

open Lib Function
open Ipc (IpcMsg IpcMsgType Answer)
open Server

variable {w w' : Sys} {a : Act} {p q S : Nat} {s t : Srv}

-- ==== the properties

/-- A copy that is not being closed has its entry at the server, with the
mode and the inode it was opened with. -/
def Sys.StaysOpen (w : Sys) : Prop :=
  ∀ S s, w.Serving S s → ∀ p n f, (w.procs p).ofile n = some f →
    (w.files f).type = .remote → (w.procs p).call ≠ .closing n →
    entry s (w.files f).remoteFd = some ⟨(w.origin f).opener,
      (w.files f).readable, (w.files f).writable, (w.origin f).inum⟩

/-- Copies share an entry, and so an offset, exactly if they are copies of
one open file. -/
def Sys.OneOffset (w : Sys) : Prop :=
  ∀ S s, w.Serving S s → ∀ p n f q m g, (w.procs p).ofile n = some f →
    (w.procs q).ofile m = some g → (w.files f).type = .remote →
    (w.files g).type = .remote → (w.procs p).call ≠ .closing n →
    (w.procs q).call ≠ .closing m →
    ((w.files f).remoteFd = (w.files g).remoteFd ↔ f = g)

/-- The access was served as one of the opener's would have been. -/
def Access.AsOpener (x : Access) : Prop :=
  exec (handle (x.req.from x.caller)) x.before
    = exec (handle (x.req.from x.origin.opener)) x.before

-- ==== the condition

/-- The opener of a file is the one to read and write it, unless its mode
refuses everyone, and gives it up when there are no other copies. -/
def OpenerLast (w : Sys) : Act → Prop
  | .sysRead p fd _ => ∀ f ∈ (w.procs p).ofile fd, (w.files f).type = .remote →
      (w.origin f).opener = p ∨ (w.files f).readable = false
  | .sysWrite p fd _ => ∀ f ∈ (w.procs p).ofile fd, (w.files f).type = .remote →
      (w.origin f).opener = p ∨ (w.files f).writable = false
  | .sysClose p fd => ∀ f ∈ (w.procs p).ofile fd, (w.files f).type = .remote →
      (w.origin f).opener = p → (w.files f).ref = 1
  | .exit p => ∀ n < nofile, ∀ f ∈ (w.procs p).ofile n, (w.files f).type = .remote →
      (w.origin f).opener = p → (w.files f).ref = 1
  | _ => True

instance (w : Sys) (a : Act) : Decidable (OpenerLast w a) := by
  refine a.casesOn ?_ ?_ ?_ ?_ ?_ ?_ ?_ ?_ ?_ ?_ ?_ ?_ ?_ ?_ <;>
    (intros; unfold OpenerLast; infer_instance)

/-- One server that lasts, and openers that leave last. -/
def Family (w : Sys) (a : Act) : Prop := Lasting w a ∧ OpenerLast w a

instance (w : Sys) (a : Act) : Decidable (Family w a) :=
  inferInstanceAs (Decidable (_ ∧ _))

-- ==== the invariant

structure Shared (w : Sys) : Prop extends Single w where
  agreed : w.Agreed
  /-- The opener of a file has it, if anyone has. -/
  opener : ∀ p n f, (w.procs p).ofile n = some f → (w.files f).type = .remote →
    ∃ m, (w.procs (w.origin f).opener).ofile m = some f
  /-- A process has a remote file once. -/
  once : ∀ p n m f, (w.procs p).ofile n = some f → (w.procs p).ofile m = some f →
    (w.files f).type = .remote → n = m
  /-- A file that its opener is closing has no other copies. -/
  last : ∀ p n f, (w.procs p).call = .closing n → (w.procs p).ofile n = some f →
    (w.files f).type = .remote → (w.origin f).opener = p →
    ∀ q m, (w.procs q).ofile m = some f → q = p ∧ m = n
  log : ∀ x ∈ w.log, x.AsOpener

theorem shared_start : Shared Sys.start where
  toSingle := single_start
  agreed := agreed_start
  opener _ _ _ h := by cases h
  once _ _ _ _ h := by cases h
  last _ _ _ h := by cases h
  log _ h := by cases h

namespace Shared

variable (h : Shared w)

include h

/-- The opener's claim stands while there is a copy that is not being
closed. -/
theorem claimed (hreg : w.fsserverPid = S) {n f : Nat}
    (hfd : (w.procs p).ofile n = some f) (hr : (w.files f).type = .remote)
    (hcall : (w.procs p).call ≠ .closing n) :
    ∃ m, (w.procs (w.origin f).opener).ofile m = some f
      ∧ w.claim S (w.origin f).opener (some m) = some ((w.files f).remoteFd,
        ⟨(w.origin f).opener, (w.files f).readable, (w.files f).writable,
          (w.origin f).inum⟩) := by
  obtain ⟨m, hm⟩ := h.opener p n f hfd hr
  have hserver := h.files p n f hfd hr
  have hopen : (w.procs (w.origin f).opener).call ≠ .closing m := by
    intro hclosing
    obtain ⟨hp, hn⟩ := h.last _ m f hclosing hm hr rfl p n hfd
    rw [hp, hn] at hcall
    exact hcall hclosing
  refine ⟨m, hm, ?_⟩
  rw [claim_slot, if_neg hopen, hm, Option.bind_some]
  exact if_pos ⟨hr, rfl, by omega⟩

theorem staysOpen : w.StaysOpen := by
  intro S s hS p n f hfd hr hcall
  obtain ⟨m, hm, hclaim⟩ := h.claimed hS.registered hfd hr hcall
  have halive := h.tables.alive_of_ofile hm
  rw [← table_eq hS.running]
  exact ((h.agreed S _ hS.registered halive).listed hclaim).1

theorem oneOffset : w.OneOffset := by
  intro S s hS p n f q m g hf hg hrf hrg hcf hcg
  refine ⟨fun hnum => ?_, fun e => by rw [e]⟩
  obtain ⟨i, hi, hclaimf⟩ := h.claimed hS.registered hf hrf hcf
  obtain ⟨j, hj, hclaimg⟩ := h.claimed hS.registered hg hrg hcg
  have hentry := (h.staysOpen S s hS p n f hf hrf hcf).symm.trans
    (hnum ▸ h.staysOpen S s hS q m g hg hrg hcg)
  have hopener : (w.origin f).opener = (w.origin g).opener := by
    have := congrArg Desc.owner (Option.some.inj hentry)
    exact Int.ofNat.inj this
  rw [← hopener, ← hnum] at hclaimg
  have halive := h.tables.alive_of_ofile hi
  have hij := (h.agreed S _ hS.registered halive).distinct hclaimf hclaimg
  rw [← hopener, ← Option.some.inj hij, hi] at hj
  exact Option.some.inj hj

/-- What a process closes is its own, or the server refuses. -/
theorem aimed (hs : w.step a = some w') : Aimed w a := by
  cases a with
  | sysClose p fd =>
    intro f hf n hn g hg hreach
    have hp := (call_some hs).1
    have hidle : ∀ m, (w.procs p).call ≠ .closing m := by
      rw [hp.idle]
      simp
    have hserver := h.files p n g hg hreach.target
    obtain ⟨s, hserving⟩ := h.served.registered (w.origin g).server hserver.symm
    have hfg : f = g := (h.oneOffset _ s ⟨hserver.symm, hserving⟩ p fd f p n g hf hg
      hreach.remote hreach.target (hidle fd) (hidle n)).mp hreach.number.symm
    rw [← hfg] at hg
    exact h.once p n fd f hg hf hreach.remote
  | _ => trivial

theorem opener_step (hok : OpenerLast w a) (he : Eff w a w') (q n f : Nat)
    (hfd : (w'.procs q).ofile n = some f) (hr : (w'.files f).type = .remote) :
    ∃ m, (w'.procs (w'.origin f).opener).ofile m = some f := by
  -- the opener loses a descriptor only when it is the last
  have hold : ∀ p i, (w.procs p).ofile i = some f → w.Same w' f →
      ((w.procs q).ofile n = some f ∨ ∃ p, a = .fork p) →
      ∃ m, (w'.procs (w'.origin f).opener).ofile m = some f := by
    intro p i hp hsame hq
    have hr0 := (File.of_kind hsame.1).1.symm.trans hr
    obtain ⟨m, hm⟩ := h.opener p i f hp hr0
    rw [hsame.2]
    rcases he.slot_kept h.tables hm hr0 with hkept | ⟨rfl, hclosing⟩ | rfl
    · exact ⟨m, hkept⟩
    · rcases hq with hq | ⟨_, hq⟩
      · obtain ⟨hqo, hnm⟩ := h.last _ m f hclosing hm hr0 rfl q n hq
        subst hnm
        cases he with
        | still => exact ⟨n, hm⟩
        | @closeEnd p fd g hcall hg =>
          rw [hclosing] at hcall
          cases hcall
          rw [hqo, drop_slot] at hfd
          cases hfd
      · cases hq
    · rcases hq with hq | ⟨_, hq⟩
      · have href := hok m (h.tables.slots _ m f hm) f hm hr0 rfl
        obtain ⟨hqo, -⟩ := h.tables.unique href hm hq
        cases he with
        | still => exact ⟨m, hm⟩
        | exit =>
          rw [hqo] at hfd
          change (update w.procs _ _ _).ofile n = some f at hfd
          rw [update_self] at hfd
          cases hfd
      · cases hq
  rcases he.slot h.tables hfd hr with ⟨hq, hsame⟩ | ⟨p, rfl, -, -, hp, hsame⟩ |
    ⟨S, omode, fd, inum, -, -, -, -, -, horigin⟩
  · exact hold q n hq hsame (Or.inl hq)
  · exact hold p n hp hsame (Or.inr ⟨p, rfl⟩)
  · rw [horigin]
    exact ⟨n, hfd⟩

theorem once_step (he : Eff w a w') (q n m f : Nat)
    (hn : (w'.procs q).ofile n = some f) (hm : (w'.procs q).ofile m = some f)
    (hr : (w'.files f).type = .remote) : n = m := by
  -- a child's table is new, and a new file is in no table
  have hunborn : ∀ i, (w.procs w.nextpid).ofile i ≠ some f := by
    intro i hi
    rw [((h.tables.gone _ (h.tables.unborn _ (Nat.le_refl _))).1 i)] at hi
    cases hi
  have hfree : w.filealloc = some f → ∀ p i, (w.procs p).ofile i ≠ some f := by
    intro hf p i hi
    have := h.tables.ref_pos hi
    rw [filealloc_free hf] at this
    cases this
  rcases he.slot h.tables hn hr with ⟨hn, hsame⟩ | ⟨p, rfl, -, rfl, hn, hsame⟩ |
    ⟨S, omode, fd, inum, rfl, -, hf, hn, -⟩
  · rcases he.slot h.tables hm hr with ⟨hm, -⟩ | ⟨p, rfl, -, rfl, -⟩ |
      ⟨_, _, _, _, rfl, -, hf, -⟩
    · exact h.once q n m f hn hm ((File.of_kind hsame.1).1.symm.trans hr)
    · exact absurd hn (hunborn n)
    · exact absurd hn (hfree hf q n)
  · rcases he.slot h.tables hm hr with ⟨hm, -⟩ | ⟨p', hp', -, -, hm, -⟩ |
      ⟨_, _, _, _, hp', -⟩
    · exact absurd hm (hunborn m)
    · cases hp'
      exact h.once p n m f hn hm ((File.of_kind hsame.1).1.symm.trans hr)
    · cases hp'
  · rcases he.slot h.tables hm hr with ⟨hm, -⟩ | ⟨p', hp', -⟩ |
      ⟨_, _, _, _, -, -, -, hm, -⟩
    · exact absurd hm (hfree hf q m)
    · cases hp'
    · exact Option.some.inj (hn.symm.trans hm)

theorem last_step (hok : OpenerLast w a) (he : Eff w a w') (p n f : Nat)
    (hcall : (w'.procs p).call = .closing n) (hfd : (w'.procs p).ofile n = some f)
    (hr : (w'.files f).type = .remote) (hop : (w'.origin f).opener = p) (q m : Nat)
    (hm : (w'.procs q).ofile m = some f) : q = p ∧ m = n := by
  rcases he.closing hcall with hold | ⟨rfl, hfiles, horigin, hofile⟩
  · -- the close was there before: no new copies can come
    have halive := h.tables.alive_of_call hold (by simp)
    rcases he.slot h.tables hfd hr with ⟨hp, hsame⟩ | ⟨p', -, -, hp', -⟩ |
      ⟨_, _, _, _, -, hopened, -⟩
    · have hr0 := (File.of_kind hsame.1).1.symm.trans hr
      rw [hsame.2] at hop
      have hlast := h.last p n f hold hp hr0 hop
      rcases he.slot h.tables hm hr with ⟨hq, -⟩ | ⟨p', rfl, hclient, -, hq, -⟩ |
        ⟨_, _, _, _, -, -, hfree, -⟩
      · exact hlast q m hq
      · obtain ⟨hpp, -⟩ := hlast p' m hq
        have hidle := hclient.idle
        rw [hpp, hold] at hidle
        cases hidle
      · have hpos := h.tables.ref_pos hp
        rw [filealloc_free hfree] at hpos
        cases hpos
    · have hborn := h.tables.born halive
      omega
    · rw [hold] at hopened
      cases hopened
  · rw [hofile] at hfd hm
    rw [hfiles] at hr
    rw [horigin] at hop
    exact h.tables.unique (hok f hfd hr hop) hfd hm

theorem log_step (hok : OpenerLast w a) (he : Eff w a w') :
    ∀ x ∈ w'.log, x.AsOpener := by
  cases he with
  | @read p fd chunk f S s t ans hp hfd hr hx =>
    refine List.forall_mem_append.mpr ⟨h.log, List.forall_mem_singleton.mpr ?_⟩
    rcases hok f hfd hr with hop | hmode
    · show exec (handle (_ : IpcMsg)) s = exec (handle (_ : IpcMsg)) s
      rw [← hop]
    · have hentry := h.staysOpen S s hx.toServing p fd f hfd hr (by rw [hp.idle]; simp)
      obtain ⟨k, hk, hd⟩ := entry_some hentry
      have hrefused := fun q : Nat => (handle_unreadable
        ((readReq (w.files f).remoteFd chunk).from q) hd hmode hk rfl).exec_eq
      exact (hrefused p).trans (hrefused _).symm
  | @write p fd chunk f S s t ans hp hfd hr hx =>
    refine List.forall_mem_append.mpr ⟨h.log, List.forall_mem_singleton.mpr ?_⟩
    rcases hok f hfd hr with hop | hmode
    · show exec (handle (_ : IpcMsg)) s = exec (handle (_ : IpcMsg)) s
      rw [← hop]
    · have hentry := h.staysOpen S s hx.toServing p fd f hfd hr (by rw [hp.idle]; simp)
      obtain ⟨k, hk, hd⟩ := entry_some hentry
      have hrefused := fun q : Nat => (handle_unwritable
        ((writeReq (w.files f).remoteFd chunk).from q) hd hmode hk rfl).exec_eq
      exact (hrefused p).trans (hrefused _).symm
  | _ => exact h.log

theorem step (hok : Family w a) (hs : w.step a = some w') : Shared w' := by
  have he := step_eff hs
  exact ⟨h.toSingle.step hok.1 he, he.agreed h.tables h.served h.agreed (h.aimed hs),
    h.opener_step hok.2 he, h.once_step he, h.last_step hok.2 he, h.log_step hok.2 he⟩

end Shared

/-- A process opens the file `a`, forks, and reads while its child has a
copy; the child closes its copy. -/
def parentReads : List Act :=
  [.fork 1, .register 2 Fs.smallImage fun _ => true, .sysOpen 1 [97] 0, .sysOpenEnd 1,
    .fork 1, .sysRead 1 0 1, .sysClose 3 0, .sysCloseEnd 3, .sysRead 1 0 1]

/-- The number a handler answers with. -/
def resultOf (x : Except Fault (Option Answer) × Srv) : Option Int :=
  match x.1 with
  | .ok (some ans) => some ans.result
  | _ => none

end Xv6FsServer.Files
