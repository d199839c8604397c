/-
Clients and one server: whose descriptors are whose.

With one server, and no fork while a remote descriptor is held, every
remote descriptor of a process was opened by it at that server. So no
`CLOSE` goes astray and the ledger of `Claims.lean` is exact, and since
an open or a close in progress is all that it has besides the slots, the
two tables agree whenever the process is in no call.
-/
import Mathlib.Data.Set.Function
import Xv6FsServer.Files.Proofs.Claims

namespace Xv6FsServer.Files

open Lib Function
open Ipc (IpcMsg IpcMsgType Answer)
open Server

variable {w w' : Sys} {a : Act} {p q S : Nat} {s t : Srv}

/-- A process that holds a remote descriptor does not fork. -/
def Childless (w : Sys) : Act → Prop
  | .fork p => ∀ n < nofile, ∀ f ∈ (w.procs p).ofile n, (w.files f).type ≠ .remote
  | _ => True

instance (w : Sys) (a : Act) : Decidable (Childless w a) := by
  refine a.casesOn ?_ ?_ ?_ ?_ ?_ ?_ ?_ ?_ ?_ ?_ ?_ ?_ ?_ ?_ <;>
    (intros; unfold Childless; infer_instance)

/-- The clients' and the server's side of the runs in question. -/
def OneServer (w : Sys) (a : Act) : Prop := Lasting w a ∧ Childless w a

instance (w : Sys) (a : Act) : Decidable (OneServer w a) :=
  inferInstanceAs (Decidable (_ ∧ _))

/-- Every remote file that `p` has was opened by `p`. -/
def Sys.OwnFiles (w : Sys) : Prop :=
  ∀ p n f, (w.procs p).ofile n = some f → (w.files f).type = .remote →
    (w.origin f).opener = p

/-- An owner at the registered server lives, or its exit is on its way. -/
def Sys.Mourned (w : Sys) : Prop :=
  ∀ S s k d, w.Serving S s → entry s k = some d → ∀ q : Nat, d.owner = q →
    (w.procs q).alive = true ∨ (q, S) ∈ w.exits

structure Paired (w : Sys) : Prop extends Single w where
  agreed : w.Agreed
  own : w.OwnFiles
  mourned : w.Mourned
  pids : ∀ p, (w.procs p).alive = true → 0 < p

theorem paired_start : Paired Sys.start where
  toSingle := single_start
  agreed := agreed_start
  own _ _ _ h := by cases h
  mourned _ _ _ _ h := by cases h.running
  pids p h := by
    have h : (p == 1) = true := h
    rw [beq_iff_eq] at h
    omega

namespace Paired

variable (h : Paired w)

include h

theorem own_step (hok : Childless w a) (he : Eff w a w') : w'.OwnFiles := by
  intro q n f hfd hr
  rcases he.slot h.tables hfd hr with ⟨hq, hsame⟩ | ⟨p, rfl, -, -, hp, hsame⟩ |
    ⟨S, omode, fd, inum, -, -, -, -, -, horigin⟩
  · rw [hsame.2]
    exact h.own q n f hq ((File.of_kind hsame.1).1.symm.trans hr)
  · exact absurd ((File.of_kind hsame.1).1.symm.trans hr)
      (hok n (h.tables.slots p n f hp) f hp)
  · rw [horigin]

/-- What a process closes is its own. -/
theorem aimed (hs : w.step a = some w') : Aimed w a := by
  cases a with
  | sysClose p fd =>
    intro f hf n hn g hg hreach
    have hp := (call_some hs).1
    have hopener := h.own p fd f hf hreach.remote
    have hserver := h.files p fd f hf hreach.remote
    have hagree := h.agreed (w.origin f).server p hserver.symm hp.alive
    have hclaim := claim_own hp.idle hf hreach.remote hopener rfl
    have hclaim' := claim_own (S := (w.origin f).server) hp.idle hg hreach.target
      hreach.opener (by have := hreach.server; omega)
    rw [hreach.number] at hclaim'
    exact Option.some.inj (hagree.distinct hclaim' hclaim)
  | _ => trivial

/-- An owner that exits has sent its message. -/
theorem exit_mourned (hok : Lasting w (.exit p)) (hS : w.Serving S s)
    (hq : (w.procs q).alive = true ∨ (q, S) ∈ w.exits) :
    ((w.exit p).procs q).alive = true ∨ (q, S) ∈ (w.exit p).exits := by
  have hp : w.servers p = none := Option.isNone_iff_eq_none.mp hok
  have hSp : S ≠ p := by
    intro e
    have := hS.running
    rw [e, hp] at this
    cases this
  have hpos : 0 < S := h.pids S (h.served.working S s hS.running).1
  have hactive : w.fsserverActive p = true := by
    unfold Sys.fsserverActive
    rw [hS.registered]
    simp only [decide_eq_true_eq]
    omega
  have hexits : (w.exit p).exits = w.exits ++ [(p, S)] := by
    have hif : (w.exit p).exits = w.exits ++ [(p, w.fsserverPid.toNat)] := if_pos hactive
    rw [hif, hS.registered, Int.toNat_natCast]
  rw [hexits, List.mem_append, List.mem_singleton]
  by_cases hqp : q = p
  · exact Or.inr (Or.inr (by rw [hqp]))
  · have hproc : (w.exit p).procs q = w.procs q := update_of_ne hqp ..
    rw [hproc]
    rcases hq with hq | hq
    · exact Or.inl hq
    · exact Or.inr (Or.inl hq)

theorem mourned_step (hok : Lasting w a) (he : Eff w a w') : w'.Mourned := by
  intro S s k d hS hd q hq
  have hpid := h.pid_kept hok he
  have hbefore : (w.procs q).alive = true ∨ (q, S) ∈ w.exits := by
    rcases he.entries h.served hS.running hd with ⟨u, hu, hd0⟩ | ⟨p, hp, hclient⟩
    · have hS0 : w.fsserverPid = S := by
        rcases hpid with hpid | ⟨-, p, hp, hpid⟩
        · exact hpid.symm.trans hS.registered
        · -- a process that registers had no descriptors
          have hSp : S = p := by
            have := hS.registered
            omega
          rw [hSp, hp.client] at hu
          cases hu
      exact h.mourned S u k d ⟨hS0, hu⟩ hd0 q hq
    · have hqp : q = p := by omega
      exact Or.inl (hqp ▸ hclient.alive)
  -- an exit is sent when the process dies, and taken off when it is seen
  have hsame : w'.exits = w.exits → (∀ p, a ≠ .fork p) → (∀ p, a ≠ .exit p) →
      (w'.procs q).alive = true ∨ (q, S) ∈ w'.exits := by
    intro hexits hfork hexit
    rw [hexits]
    rcases he.lives with rfl | ⟨p, hp⟩ | ⟨p, hp⟩ | halive
    · exact hbefore
    · exact absurd hp (hfork p)
    · exact absurd hp (hexit p)
    · rw [halive q]
      exact hbefore
  cases he with
  | still => exact hbefore
  | @fork p _ =>
    rcases hbefore with hq | hq
    · left
      show (update w.procs w.nextpid _ q).alive = true
      rw [update_of_ne (Nat.ne_of_lt (h.tables.born hq))]
      exact hq
    · exact Or.inr hq
  | @exit p halive hidle =>
    refine h.exit_mourned hok (s := s) ⟨?_, ?_⟩ hbefore
    · rcases hpid with hpid | ⟨hnone, -⟩
      · exact hpid.symm.trans hS.registered
      · have hreg : (if w.fsserverPid = p then -1 else w.fsserverPid) = (S : Int) :=
          hS.registered
        split at hreg
        next => omega
        next => omega
    · have hs : update w.servers p none S = some s := hS.running
      by_cases hSp : S = p
      · rw [hSp, update_self] at hs
        cases hs
      · rwa [update_of_ne hSp] at hs
  | @exitLost p S' hmem hgone =>
    rcases hbefore with hq | hq
    · exact Or.inl hq
    · have hne : (q, S) ≠ (p, S') := by
        intro e
        cases e
        have hs : w.servers S = some s := hS.running
        rw [hgone] at hs
        cases hs
      exact Or.inr ((List.mem_erase_of_ne hne).mpr hq)
  | @exitSeen p S' s' t r hmem hs hrun =>
    rcases hbefore with hq0 | hq0
    · exact Or.inl hq0
    · have hne : (q, S) ≠ (p, S') := by
        intro e
        cases e
        have hself : (w.setServer S (some t)).servers S = some t := update_self ..
        cases hself.symm.trans hS.running
        exact ((exitSeen_entry (h.served.balanced _ _ hs) hrun k d).mp hd).2 hq
      exact Or.inr ((List.mem_erase_of_ne hne).mpr hq0)
  | _ => exact hsame rfl (by simp) (by simp)

theorem step (hok : OneServer w a) (hs : w.step a = some w') : Paired w' := by
  have he := step_eff hs
  refine ⟨h.toSingle.step hok.1 he, he.agreed h.tables h.served h.agreed (h.aimed hs),
    h.own_step hok.2 he, h.mourned_step hok.1 he, fun q hq => ?_⟩
  rcases he.alive_before hq with hq | ⟨hq, p, -, hp⟩
  · exact h.pids q hq
  · have := h.tables.born hp
    omega

end Paired

-- ==== the bijection

/-- The slots of `p` that hold remote files. -/
def Sys.remoteSlots (w : Sys) (p : Nat) : Set Nat :=
  { n | ∃ f, (w.procs p).ofile n = some f ∧ (w.files f).type = .remote }

/-- `proc->ofile[n]->remote_fd`. -/
def Sys.remoteFdAt (w : Sys) (p n : Nat) : Int :=
  match (w.procs p).ofile n with
  | some f => (w.files f).remoteFd
  | none => -1

/-- The server's used entries with owner `p`. -/
def ownedFds (s : Srv) (p : Nat) : Set Int :=
  { k | ∃ fd : Nat, k = fd ∧ fd < maxRemoteFds ∧ (s.fdTable fd).used = true
    ∧ (s.fdTable fd).ownerPid = p }

theorem remoteFdAt_eq {n f : Nat} (h : (w.procs p).ofile n = some f) :
    w.remoteFdAt p n = (w.files f).remoteFd := by
  unfold Sys.remoteFdAt
  rw [h]

/-- A used entry is one that clients can reach. -/
theorem mem_ownedFds (hb : Balanced s) {k : Int} :
    k ∈ ownedFds s p ↔ ∃ d, entry s k = some d ∧ d.owner = p := by
  constructor
  · intro hk
    obtain ⟨fd, rfl, hfd, hused, hown⟩ := hk
    obtain ⟨ip, hip⟩ := Option.isSome_iff_exists.mp ((hb.paired fd hfd).mp hused)
    exact ⟨_, (entry_natCast s fd).trans (desc_eq ip hfd hused hip), hown⟩
  · intro hk
    obtain ⟨d, hd, hown⟩ := hk
    obtain ⟨fd, rfl, hd⟩ := entry_some hd
    obtain ⟨hfd, hused, howner, -⟩ := desc_some hd
    exact ⟨fd, rfl, hfd, hused, howner.trans hown⟩

/-- Two clients open files for reading and writing and for reading, and one
of them closes its file and exits. -/
def twoClients : List Act :=
  [.fork 1, .register 2 Fs.smallImage fun _ => true, .fork 1, .sysOpen 1 [97] 2,
    .sysOpen 3 [slash] 0, .sysOpenEnd 3, .sysOpenEnd 1, .sysClose 3 0, .sysCloseEnd 3,
    .exit 3, .exitSeen 3 2]

end Xv6FsServer.Files
