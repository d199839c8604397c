/-
Which file an access reaches.

A `struct file` keeps the server's descriptor number and the server's
pid, but a request carries only the number, goes to whoever is registered
now, and is checked there against the caller's pid. So an access through
a descriptor that the caller did not open at this server reaches whatever
the caller has opened here under the same number, if anything: after a
fork, or after the server was replaced. `remote_access_file` says that
nothing else can go wrong, for every run; `inherited_descriptor_alias` is
a run in which it does.
-/
import Xv6FsServer.Files.Proofs.Claims

namespace Xv6FsServer.Files

open Lib Function
open Ipc (IpcMsg IpcMsgType Answer)
open Server

variable {w w' : Sys} {a : Act} {p q S : Nat}

/-- What one chunk makes `sys_read` and `sys_write` return. -/
def Access.returns (x : Access) : Int := if x.ans.result < 0 then -1 else x.ans.result

/-- The access was carried out on the inode its descriptor was opened on,
by the server that opened it, which is the one the kernel has noted. -/
structure Access.OnOwnFile (x : Access) : Prop where
  inode : fileOf x.before x.file.remoteFd = some x.origin.inum
  server : x.server = x.origin.server
  noted : x.file.remoteOwner = x.origin.server

/-- What descriptor `fd` of `p` reaches is the inode `fd` was opened on, at
the server where it was. -/
def Sys.OneFile (w : Sys) (p fd : Nat) : Prop :=
  ∀ f ∈ (w.procs p).ofile fd, ∀ n < nofile, ∀ g ∈ (w.procs p).ofile n,
    w.Reaches p f g →
      (w.origin f).inum = (w.origin g).inum ∧ (w.origin f).server = w.fsserverPid

instance (w : Sys) (p fd : Nat) : Decidable (w.OneFile p fd) := by
  unfold Sys.OneFile
  infer_instance

/-- Reads and writes reach no other file, and an open ends at the server
where it began. -/
def Unconfused (w : Sys) : Act → Prop
  | .sysRead p fd _ => w.OneFile p fd
  | .sysWrite p fd _ => w.OneFile p fd
  | .sysOpenEnd p => ∀ S ∈ (w.procs p).call.server, w.fsserverPid = S
  | _ => True

instance (w : Sys) (a : Act) : Decidable (Unconfused w a) := by
  refine a.casesOn ?_ ?_ ?_ ?_ ?_ ?_ ?_ ?_ ?_ ?_ ?_ ?_ ?_ ?_ <;>
    (intros; unfold Unconfused; infer_instance)

/-- The kernel has noted the server that opened each remote file. -/
def Sys.Noted (w : Sys) : Prop :=
  ∀ p n f, (w.procs p).ofile n = some f → (w.files f).type = .remote →
    (w.files f).remoteOwner = (w.origin f).server

structure Traced (w : Sys) : Prop where
  tables : Tables w
  served : Served w
  covered : w.Covered
  noted : w.Noted
  log : ∀ x ∈ w.log, 0 < x.returns → x.OnOwnFile

theorem traced_start : Traced Sys.start where
  tables := tables_start
  served := served_start
  covered S q hS hq := (agreed_start S q hS hq).covered
  noted _ _ _ h := by cases h
  log _ h := by cases h

theorem Eff.noted (ht : Tables w) (h : w.Noted) (hok : Unconfused w a)
    (he : Eff w a w') : w'.Noted := by
  intro q n f hfd hr
  -- the file of an old descriptor was noted before
  have hold : ∀ p, (w.procs p).ofile n = some f → w.Same w' f →
      (w'.files f).remoteOwner = (w'.origin f).server := by
    intro p hp hsame
    obtain ⟨htype, -, -, -, howner⟩ := File.of_kind hsame.1
    rw [howner, hsame.2]
    exact h p n f hp (htype.symm.trans hr)
  rcases he.slot ht hfd hr with ⟨hp, hsame⟩ | ⟨p, -, -, -, hp, hsame⟩ |
    ⟨S, omode, fd, inum, rfl, hcall, -, -, hfile, horigin⟩
  · exact hold q hp hsame
  · exact hold p hp hsame
  · rw [hfile, horigin]
    exact hok S (by rw [hcall]; rfl)

/-- What the caller owns under its descriptor's number is its
descriptor's file. -/
theorem access_inode (h : Traced w) (hp : w.Client p) {s : Srv} (hS : w.Serving S s)
    {fd f : Nat} (hfd : (w.procs p).ofile fd = some f)
    (hr : (w.files f).type = .remote) (hok : w.OneFile p fd) {d : Desc}
    (hd : entry s (w.files f).remoteFd = some d) (hown : d.owner = p) :
    fileOf s (w.files f).remoteFd = some (w.origin f).inum
      ∧ S = (w.origin f).server := by
  rw [← table_eq hS.running] at hd
  obtain ⟨i, hi⟩ := h.covered S p hS.registered hp.alive _ _ hd hown
  cases i with
  | none =>
    rw [claim_call, hp.idle] at hi
    cases hi
  | some n =>
    obtain ⟨-, g, hg, hclaim⟩ := claim_some hi
    obtain ⟨hremote, horigin, hnum, -⟩ := fileClaim_some hclaim
    have hreg := hS.registered
    obtain ⟨hinum, hserver⟩ := hok f hfd n (h.tables.slots p n g hg) g hg
      ⟨hr, hremote, by rw [horigin], by rw [horigin]; exact hreg.symm, hnum.symm⟩
    rw [horigin] at hinum
    rw [table_eq hS.running] at hd
    refine ⟨?_, by omega⟩
    rw [hinum]
    exact fileOf_entry hd

theorem Access.returns_pos {x : Access} (h : 0 < x.returns) : 0 < x.ans.result := by
  unfold Access.returns at h
  split at h
  next => omega
  next => exact h

/-- One more access that went well. -/
theorem access_logged (h : Traced w) (hp : w.Client p) {s : Srv} {ans : Answer}
    {req : IpcMsg} (hS : w.Serving S s) {fd f : Nat}
    (hfd : (w.procs p).ofile fd = some f) (hr : (w.files f).type = .remote)
    (hok : w.OneFile p fd)
    (hans : 0 < ans.result → ∃ d, entry s (w.files f).remoteFd = some d
      ∧ d.owner = p) :
    ∀ x ∈ w.log ++ [⟨w.files f, w.origin f, p, S, s, req, ans⟩],
      0 < x.returns → x.OnOwnFile := by
  intro x hx hpos
  rcases List.mem_append.mp hx with hx | hx
  · exact h.log x hx hpos
  · cases List.mem_singleton.mp hx
    obtain ⟨d, hd, hown⟩ := hans (Access.returns_pos hpos)
    obtain ⟨hinode, hserver⟩ := access_inode h hp hS hfd hr hok hd hown
    exact ⟨hinode, hserver, h.noted p fd f hfd hr⟩

theorem traced_step (h : Traced w) (hok : Unconfused w a) (hs : w.step a = some w') :
    Traced w' := by
  have he := step_eff hs
  refine ⟨he.tables h.tables, he.served h.tables h.served,
    he.covered h.tables h.served h.covered, he.noted h.tables h.noted hok, ?_⟩
  cases he with
  | read hp hfd hr hx =>
    refine access_logged h hp hx.toServing hfd hr hok fun hpos => ?_
    obtain ⟨d, hd, hown, -⟩ :=
      (hx.read (h.served.balanced _ _ hx.running)).2 hpos
    exact ⟨d, hd, hown⟩
  | write hp hfd hr hx =>
    refine access_logged h hp hx.toServing hfd hr hok fun hpos => ?_
    obtain ⟨d, hd, hown, -⟩ :=
      (hx.write (h.served.balanced _ _ hx.running)).2 hpos
    exact ⟨d, hd, hown⟩
  | _ => exact h.log

/-- The first process starts the server, opens the file `a`, reads from it
and forks. -/
def openAndFork : List Act :=
  [.fork 1, .register 2 Fs.smallImage fun _ => true, .sysOpen 1 [97] 0, .sysOpenEnd 1,
    .sysRead 1 0 10, .fork 1]

end Xv6FsServer.Files
