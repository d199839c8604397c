/-
What each step of the file layer does, said once (`step_eff`).

`Eff w a w'` lists the ways a step can go, each with the state it leads
to and what it found on the way; the exchanges with the server are given
by the handler's run. Every invariant of the file layer is proved by
cases over it.
-/
import Xv6FsServer.Files.Model

namespace Xv6FsServer.Files

open Lib Function
open Ipc (IpcMsg IpcMsgType Answer ipcPathSize ipcDataSize clientExitMsg)
open Server (Srv handle wrOnly rdWr)

variable {w w' : Sys} {a : Act} {p : Nat}
variable {omode : Int} {fd : Nat}

/-- Process `S` is registered and in its loop. -/
structure Sys.Serving (w : Sys) (S : Nat) (s : Srv) : Prop where
  registered : w.fsserverPid = S
  running : w.servers S = some s

/-- A request of `p` and the answer to it. -/
structure Exchange (w : Sys) (p : Nat) (req : IpcMsg) (S : Nat) (s t : Srv)
    (ans : Answer) : Prop extends w.Serving S s where
  run : exec (handle (req.from p)) s = (.ok (some ans), t)

/-- Process `p` is between two calls, and is not a server. -/
structure Sys.Client (w : Sys) (p : Nat) : Prop where
  alive : (w.procs p).alive = true
  idle : (w.procs p).call = .none
  client : w.servers p = none

inductive Eff (w : Sys) : Act → Sys → Prop
  | still (a : Act) : Eff w a w
  | openFailed {p path omode S s t ans} (hp : w.Client p)
      (hx : Exchange w p (openReq path omode) S s t ans) (hneg : ans.result < 0) :
      Eff w (.sysOpen p path omode) (w.setServer S (some t))
  | openAnswered {p path omode S s t ans} (hp : w.Client p)
      (hx : Exchange w p (openReq path omode) S s t ans) (hpos : ¬ ans.result < 0) :
      Eff w (.sysOpen p path omode) ((w.setServer S (some t)).setCall p
        (.opened S omode ans.fd ((fileOf t ans.fd).getD 0)))
  | openEnd {p S omode fd inum f n}
      (hcall : (w.procs p).call = .opened S omode fd inum)
      (hf : w.filealloc = some f) (hn : fdalloc (w.procs p).ofile = some n) :
      Eff w (.sysOpenEnd p)
        { w.install p f n (remoteFile omode fd w.fsserverPid) with
          origin := update w.origin f ⟨p, S, inum⟩ }
  | openNoFile {p S omode fd inum}
      (hcall : (w.procs p).call = .opened S omode fd inum) :
      Eff w (.sysOpenEnd p) (w.setCall p (.undoing S omode fd inum))
  | openNoFd {p S omode fd inum f}
      (hcall : (w.procs p).call = .opened S omode fd inum)
      (hf : w.filealloc = some f) :
      Eff w (.sysOpenEnd p)
        ((w.setFile f File.fresh.close).setCall p (.undoing S omode fd inum))
  | undoFailed {p S omode fd inum}
      (hcall : (w.procs p).call = .undoing S omode fd inum)
      (hno : ∀ S s, ¬ w.Serving S s) :
      Eff w (.sysOpenUndo p) (w.setCall p .none)
  | undone {p S' omode fd inum S s t ans}
      (hcall : (w.procs p).call = .undoing S' omode fd inum)
      (hx : Exchange w p (closeReq fd) S s t ans) :
      Eff w (.sysOpenUndo p) ((w.setServer S (some t)).setCall p .none)
  | localNoFd {p omode f} (hf : w.filealloc = some f) :
      Eff w (.sysOpenLocal p omode) (w.setFile f File.fresh.close)
  | localOpen {p omode f n} (hp : w.Client p) (hf : w.filealloc = some f)
      (hn : fdalloc (w.procs p).ofile = some n) :
      Eff w (.sysOpenLocal p omode)
        (w.install p f n { remoteFile omode (-1) (-1) with type := .inode })
  | dup {p fd f n} (hp : w.Client p) (hfd : (w.procs p).ofile fd = some f)
      (hlocal : (w.files f).type ≠ .remote)
      (hn : fdalloc (w.procs p).ofile = some n) :
      Eff w (.sysDup p fd) (w.install p f n (w.files f).dup)
  | read {p fd chunk f S s t ans} (hp : w.Client p)
      (hfd : (w.procs p).ofile fd = some f) (hremote : (w.files f).type = .remote)
      (hx : Exchange w p (readReq (w.files f).remoteFd chunk) S s t ans) :
      Eff w (.sysRead p fd chunk) { w.setServer S (some t) with
        log := w.log ++ [⟨w.files f, w.origin f, p, S, s,
          readReq (w.files f).remoteFd chunk, ans⟩] }
  | write {p fd chunk f S s t ans} (hp : w.Client p)
      (hfd : (w.procs p).ofile fd = some f) (hremote : (w.files f).type = .remote)
      (hx : Exchange w p (writeReq (w.files f).remoteFd chunk) S s t ans) :
      Eff w (.sysWrite p fd chunk) { w.setServer S (some t) with
        log := w.log ++ [⟨w.files f, w.origin f, p, S, s,
          writeReq (w.files f).remoteFd chunk, ans⟩] }
  | closeFailed {p fd f} (hp : w.Client p)
      (hfd : (w.procs p).ofile fd = some f) (hremote : (w.files f).type = .remote)
      (hno : ∀ S s, ¬ w.Serving S s) :
      Eff w (.sysClose p fd) (w.setCall p (.closing fd))
  | closeAnswered {p fd f S s t ans} (hp : w.Client p)
      (hfd : (w.procs p).ofile fd = some f) (hremote : (w.files f).type = .remote)
      (hx : Exchange w p (closeReq (w.files f).remoteFd) S s t ans) :
      Eff w (.sysClose p fd) ((w.setServer S (some t)).setCall p (.closing fd))
  | closeLocal {p fd f} (hp : w.Client p) (hfd : (w.procs p).ofile fd = some f)
      (hlocal : (w.files f).type ≠ .remote) :
      Eff w (.sysClose p fd) (w.drop p fd f)
  | closeEnd {p fd f} (hcall : (w.procs p).call = .closing fd)
      (hfd : (w.procs p).ofile fd = some f) :
      Eff w (.sysCloseEnd p) (w.drop p fd f)
  | fork {p : Nat} (hp : w.Client p) : Eff w (.fork p) (w.fork p)
  | exit {p : Nat} (halive : (w.procs p).alive = true)
      (hidle : (w.procs p).call = .none) : Eff w (.exit p) (w.exit p)
  | exitLost {p S} (hmem : (p, S) ∈ w.exits) (hgone : w.servers S = none) :
      Eff w (.exitSeen p S) { w with exits := w.exits.erase (p, S) }
  | exitSeen {p S s t r} (hmem : (p, S) ∈ w.exits) (hs : w.servers S = some s)
      (hrun : exec (handle (clientExitMsg.from p)) s = (.ok r, t)) :
      Eff w (.exitSeen p S)
        { w.setServer S (some t) with exits := w.exits.erase (p, S) }
  | register {p disk diskOk} (hp : w.Client p) :
      Eff w (.register p disk diskOk) (w.register p disk diskOk)

-- ==== the inversion

theorem fsIpcCall_cases {req : IpcMsg} {r : Reply}
    (h : w.fsIpcCall p req = some (r, w')) :
    (r = .failed ∧ w' = w ∧ ∀ S s, ¬ w.Serving S s)
      ∨ ∃ S s t ans, Exchange w p req S s t ans
        ∧ r = .answered S s ans ∧ w' = w.setServer S (some t) := by
  unfold Sys.fsIpcCall at h
  split at h
  next hneg =>
    cases h
    refine Or.inl ⟨rfl, rfl, fun S s hS => ?_⟩
    have := hS.registered
    omega
  next hpos =>
    have hpid : w.fsserverPid = (w.fsserverPid.toNat : Int) := by omega
    split at h
    next hnone =>
      cases h
      refine Or.inl ⟨rfl, rfl, fun S s hS => ?_⟩
      rw [hS.registered, Int.toNat_natCast, hS.running] at hnone
      cases hnone
    next s hs =>
      split at h
      next ans t hrun =>
        cases h
        exact Or.inr ⟨_, s, t, ans, ⟨⟨hpid, hs⟩, hrun⟩, rfl, rfl⟩
      next => cases h
      next => cases h

theorem call_some {r : Option Sys} (h : w.call p r = some w') :
    w.Client p ∧ r = some w' := by
  unfold Sys.call at h
  split at h
  next hp =>
    obtain ⟨hidle, hclient⟩ := hp
    unfold Sys.idle at hidle
    rw [Bool.and_eq_true, beq_iff_eq] at hidle
    exact ⟨⟨hidle.1, hidle.2, Option.isNone_iff_eq_none.mp hclient⟩, h⟩
  next => cases h

theorem sysOpen_eff {path : List UInt8} (hp : w.Client p)
    (h : w.sysOpen p path omode = some w') : Eff w (.sysOpen p path omode) w' := by
  unfold Sys.sysOpen at h
  split at h
  next =>
    cases h
    exact .still _
  next =>
    split at h
    next => cases h
    next u hcall =>
      cases h
      rcases fsIpcCall_cases hcall with ⟨-, rfl, -⟩ | ⟨S, s, t, ans, -, hr, -⟩
      · exact .still _
      · cases hr
    next S s ans u hcall =>
      rcases fsIpcCall_cases hcall with ⟨hr, -⟩ | ⟨S', s', t, ans', hx, hr, hu⟩
      · cases hr
      · cases hr
        subst hu
        split at h
        next hneg =>
          cases h
          exact .openFailed hp hx hneg
        next hpos =>
          have hinum : ((w.setServer S (some t)).servers S).bind
              (fun s => fileOf s ans.fd) = fileOf t ans.fd := by
            show (update w.servers S (some t) S).bind _ = _
            rw [update_self]
            rfl
          rw [hinum] at h
          cases h
          exact .openAnswered hp hx hpos

theorem sysOpenEnd_eff (h : w.sysOpenEnd p = some w') : Eff w (.sysOpenEnd p) w' := by
  unfold Sys.sysOpenEnd at h
  split at h
  next S omode fd inum hcall =>
    split at h
    next =>
      cases h
      exact .openNoFile hcall
    next f hf =>
      split at h
      next =>
        cases h
        exact .openNoFd hcall hf
      next n hn =>
        cases h
        exact .openEnd hcall hf hn
  next => cases h

theorem sysOpenUndo_eff (h : w.sysOpenUndo p = some w') :
    Eff w (.sysOpenUndo p) w' := by
  unfold Sys.sysOpenUndo at h
  split at h
  next S omode fd inum hcall =>
    split at h
    next => cases h
    next r u hask =>
      cases h
      rcases fsIpcCall_cases hask with ⟨-, rfl, hno⟩ | ⟨S, s, t, ans, hx, -, rfl⟩
      · exact .undoFailed hcall hno
      · exact .undone hcall hx
  next => cases h

theorem sysOpenLocal_eff (hp : w.Client p)
    (h : w.sysOpenLocal p omode = some w') : Eff w (.sysOpenLocal p omode) w' := by
  unfold Sys.sysOpenLocal at h
  split at h
  next =>
    cases h
    exact .still _
  next f hf =>
    split at h
    next =>
      cases h
      exact .localNoFd hf
    next n hn =>
      cases h
      exact .localOpen hp hf hn

theorem sysDup_eff (hp : w.Client p) (h : w.sysDup p fd = some w') :
    Eff w (.sysDup p fd) w' := by
  unfold Sys.sysDup at h
  split at h
  next =>
    cases h
    exact .still _
  next f hfd =>
    split at h
    next =>
      cases h
      exact .still _
    next hlocal =>
      split at h
      next =>
        cases h
        exact .still _
      next n hn =>
        cases h
        exact .dup hp hfd hlocal hn

/-- A chunk that did not reach a server changed nothing. -/
theorem sysAccess_cases {req : Int → IpcMsg} (h : w.sysAccess p fd req = some w') :
    w' = w ∨ ∃ f S s t ans, (w.procs p).ofile fd = some f
      ∧ (w.files f).type = .remote
      ∧ Exchange w p (req (w.files f).remoteFd) S s t ans
      ∧ w' = { w.setServer S (some t) with
        log := w.log ++ [⟨w.files f, w.origin f, p, S, s,
          req (w.files f).remoteFd, ans⟩] } := by
  unfold Sys.sysAccess at h
  split at h
  next =>
    cases h
    exact Or.inl rfl
  next f hfd =>
    split at h
    next hremote =>
      split at h
      next => cases h
      next u hask =>
        cases h
        rcases fsIpcCall_cases hask with ⟨-, hu, -⟩ | ⟨S, s, t, ans, -, hr, -⟩
        · exact Or.inl hu
        · cases hr
      next S s ans u hask =>
        cases h
        rcases fsIpcCall_cases hask with ⟨hr, -⟩ | ⟨S', s', t, ans', hx, hr, rfl⟩
        · cases hr
        · cases hr
          exact Or.inr ⟨f, _, _, t, _, hfd, hremote, hx, rfl⟩
    next =>
      cases h
      exact Or.inl rfl

theorem sysClose_eff (hp : w.Client p) (h : w.sysClose p fd = some w') :
    Eff w (.sysClose p fd) w' := by
  unfold Sys.sysClose at h
  split at h
  next =>
    cases h
    exact .still _
  next f hfd =>
    split at h
    next hremote =>
      split at h
      next => cases h
      next r u hask =>
        cases h
        rcases fsIpcCall_cases hask with ⟨-, rfl, hno⟩ | ⟨S, s, t, ans, hx, -, rfl⟩
        · exact .closeFailed hp hfd hremote hno
        · exact .closeAnswered hp hfd hremote hx
    next hlocal =>
      cases h
      exact .closeLocal hp hfd hlocal

theorem sysCloseEnd_eff (h : w.sysCloseEnd p = some w') :
    Eff w (.sysCloseEnd p) w' := by
  unfold Sys.sysCloseEnd at h
  split at h
  next fd hcall =>
    split at h
    next => cases h
    next f hfd =>
      cases h
      exact .closeEnd hcall hfd
  next => cases h

theorem exitSeen_eff {S : Nat} (h : w.exitSeen p S = some w') :
    Eff w (.exitSeen p S) w' := by
  unfold Sys.exitSeen at h
  split at h
  next hmem =>
    split at h
    next hgone =>
      cases h
      exact .exitLost hmem hgone
    next s hs =>
      split at h
      next r t hrun =>
        cases h
        exact .exitSeen hmem hs hrun
      next => cases h
  next => cases h

theorem step_eff (h : w.step a = some w') : Eff w a w' := by
  cases a with
  | sysOpen p path omode =>
    simp only [Sys.step] at h
    split at h
    next =>
      obtain ⟨hp, h⟩ := call_some h
      exact sysOpen_eff hp h
    next => cases h
  | sysOpenEnd p => exact sysOpenEnd_eff h
  | sysOpenUndo p => exact sysOpenUndo_eff h
  | sysOpenLocal p omode =>
    simp only [Sys.step] at h
    split at h
    next => cases h
    next =>
      obtain ⟨hp, h⟩ := call_some h
      exact sysOpenLocal_eff hp h
  | sysDup p fd =>
    obtain ⟨hp, h⟩ := call_some h
    exact sysDup_eff hp h
  | sysRead p fd chunk =>
    simp only [Sys.step] at h
    split at h
    next =>
      obtain ⟨hp, h⟩ := call_some h
      rcases sysAccess_cases h with rfl | ⟨f, S, s, t, ans, hfd, hr, hx, rfl⟩
      · exact .still _
      · exact .read hp hfd hr hx
    next => cases h
  | sysWrite p fd chunk =>
    simp only [Sys.step] at h
    split at h
    next =>
      obtain ⟨hp, h⟩ := call_some h
      rcases sysAccess_cases h with rfl | ⟨f, S, s, t, ans, hfd, hr, hx, rfl⟩
      · exact .still _
      · exact .write hp hfd hr hx
    next => cases h
  | sysClose p fd =>
    obtain ⟨hp, h⟩ := call_some h
    exact sysClose_eff hp h
  | sysCloseEnd p => exact sysCloseEnd_eff h
  | exec p =>
    obtain ⟨-, h⟩ := call_some h
    cases h
    exact .still _
  | fork p =>
    obtain ⟨hp, h⟩ := call_some h
    cases h
    exact .fork hp
  | exit p =>
    simp only [Sys.step] at h
    split at h
    next hidle =>
      cases h
      unfold Sys.idle at hidle
      rw [Bool.and_eq_true, beq_iff_eq] at hidle
      exact .exit hidle.1 hidle.2
    next => cases h
  | exitSeen p S => exact exitSeen_eff h
  | register p disk diskOk =>
    obtain ⟨hp, h⟩ := call_some h
    cases h
    exact .register hp

end Xv6FsServer.Files
