/-
The two descriptor tables, as one ledger.

A process' part of it is `Sys.claim`: the server descriptors that it
opened at server `S` and still has, by where it keeps them. That is a
slot of `ofile`, or the call in progress: between `OPEN`'s reply and the
slot, and until the second request when no slot was left. A slot whose
`CLOSE` has been answered claims nothing. The server's part is its
descriptor table (`Sys.table`).

`Eff.change` says what a step does to the ledger of one process at the
registered server, as one of the changes of `Lib/Ledger.lean`. Only
`CLOSE` can go wrong: sent through an inherited descriptor or one of an
earlier server, it gives back whatever the caller has under that number
here. `Aimed` is the condition that it does not.
-/
import Xv6FsServer.Lib.Ledger
import Xv6FsServer.Files.Proofs.Served

namespace Xv6FsServer.Files

open Lib Function
open Ipc (IpcMsg IpcMsgType Answer clientExitMsg)
open Server

variable {w w' : Sys} {a : Act} {p q S : Nat} {s t : Srv} {ans : Answer}
variable {f n : Nat}
variable {c : Call} {k omode : Int}

-- ==== the claims

/-- A descriptor granted by `S` to `p` that has no slot yet, or will not
get one. -/
def pending (p S : Nat) : Call → Option (Int × Desc)
  | .opened S' omode fd inum =>
    if S' = S then some (fd, grant p omode inum) else none
  | .undoing S' omode fd inum =>
    if S' = S then some (fd, grant p omode inum) else none
  | _ => none

/-- What file `f` claims for `p`, if `p` opened it at `S`. -/
def Sys.fileClaim (w : Sys) (S p f : Nat) : Option (Int × Desc) :=
  if (w.files f).type = .remote ∧ (w.origin f).opener = p ∧ (w.origin f).server = S then
    some ((w.files f).remoteFd,
      ⟨p, (w.files f).readable, (w.files f).writable, (w.origin f).inum⟩)
  else none

def Sys.claim (w : Sys) (S p : Nat) : Option Nat → Option (Int × Desc)
  | none => pending p S (w.procs p).call
  | some n =>
    if (w.procs p).call = .closing n then none
    else ((w.procs p).ofile n).bind (w.fileClaim S p)

theorem claim_call (w : Sys) (S p : Nat) :
    w.claim S p none = pending p S (w.procs p).call := rfl

theorem claim_slot (w : Sys) (S p n : Nat) :
    w.claim S p (some n) = if (w.procs p).call = .closing n then none
      else ((w.procs p).ofile n).bind (w.fileClaim S p) := rfl

/-- A request of `p`'s through file `f` is about file `g`, which `p` opened
at the registered server. -/
structure Sys.Reaches (w : Sys) (p f g : Nat) : Prop where
  remote : (w.files f).type = .remote
  target : (w.files g).type = .remote
  opener : (w.origin g).opener = p
  server : (w.origin g).server = w.fsserverPid
  number : (w.files g).remoteFd = (w.files f).remoteFd

instance (w : Sys) (p f g : Nat) : Decidable (w.Reaches p f g) :=
  decidable_of_iff ((w.files f).type = .remote ∧ (w.files g).type = .remote
      ∧ (w.origin g).opener = p ∧ (w.origin g).server = w.fsserverPid
      ∧ (w.files g).remoteFd = (w.files f).remoteFd)
    ⟨fun h => ⟨h.1, h.2.1, h.2.2.1, h.2.2.2.1, h.2.2.2.2⟩,
      fun h => ⟨h.1, h.2, h.3, h.4, h.5⟩⟩

/-- Descriptor `fd` of `p` reaches none of its other descriptors. -/
def Sys.Unaliased (w : Sys) (p fd : Nat) : Prop :=
  ∀ f ∈ (w.procs p).ofile fd, ∀ n < nofile, ∀ g ∈ (w.procs p).ofile n,
    w.Reaches p f g → n = fd

/-- What `CLOSE` gives back was opened by the descriptor that is closed. -/
def Aimed (w : Sys) : Act → Prop
  | .sysClose p fd => w.Unaliased p fd
  | _ => True

/-- Process `q` owns the descriptor. -/
def ownedBy (q : Nat) (d : Desc) : Prop := d.owner = q

theorem fileClaim_some {v : Int × Desc} (h : w.fileClaim S p f = some v) :
    (w.files f).type = .remote ∧ w.origin f = ⟨p, S, v.2.inum⟩
      ∧ v.1 = (w.files f).remoteFd ∧ v.2.owner = p
      ∧ v.2.readable = (w.files f).readable ∧ v.2.writable = (w.files f).writable := by
  unfold Sys.fileClaim at h
  split at h
  next hf =>
    obtain ⟨h1, h2, h3⟩ := hf
    cases h
    refine ⟨h1, ?_, rfl, rfl, rfl, rfl⟩
    rw [← h2, ← h3]
  next => cases h

theorem pending_server {v : Int × Desc} (h : pending p S c = some v) :
    c.server = some S := by
  have hite : ∀ {S' : Nat} {u : Int × Desc}, (if S' = S then some u else none) = some v →
      some S' = some S := by
    intro S' u hu
    split at hu
    next hS => rw [hS]
    next => cases hu
  cases c with
  | none | closing => cases h
  | opened | undoing => exact hite h

theorem claim_some {v : Int × Desc} (h : w.claim S p (some n) = some v) :
    (w.procs p).call ≠ .closing n ∧ ∃ f, (w.procs p).ofile n = some f
      ∧ w.fileClaim S p f = some v := by
  rw [claim_slot] at h
  split at h
  next => cases h
  next hcall => exact ⟨hcall, Option.bind_eq_some_iff.mp h⟩

/-- A process in no call claims the files that it opened. -/
theorem claim_own (hidle : (w.procs p).call = .none) (hfd : (w.procs p).ofile n = some f)
    (hr : (w.files f).type = .remote) (hopener : (w.origin f).opener = p)
    (hserver : (w.origin f).server = S) :
    w.claim S p (some n) = some ((w.files f).remoteFd,
      ⟨p, (w.files f).readable, (w.files f).writable, (w.origin f).inum⟩) := by
  rw [claim_slot, hidle, if_neg (by simp), hfd, Option.bind_some]
  exact if_pos ⟨hr, hopener, hserver⟩

theorem claim_slot_empty (h : (w.procs p).ofile n = none) :
    w.claim S p (some n) = none := by
  rw [claim_slot, h]
  exact ite_self none

theorem claim_slot_local (h : (w.procs p).ofile n = some f)
    (hlocal : (w.files f).type ≠ .remote) : w.claim S p (some n) = none := by
  have hnone : w.fileClaim S p f = none := if_neg fun hf => hlocal hf.1
  rw [claim_slot, h, Option.bind_some, hnone, ite_self]

/-- A slot that names the same file claims the same. -/
theorem claim_slot_kept (ht : Tables w) (ht' : Tables w') (hk : w.Keeps w')
    (hfd : (w'.procs q).ofile n = (w.procs q).ofile n)
    (hcall : (w'.procs q).call = .closing n ↔ (w.procs q).call = .closing n) :
    w'.claim S q (some n) = w.claim S q (some n) := by
  rw [claim_slot, claim_slot]
  simp only [hcall, hfd]
  cases hf : (w.procs q).ofile n with
  | none => rfl
  | some f =>
    obtain ⟨hkind, horigin⟩ := hk f (ht.ref_pos hf) (ht'.ref_pos (hfd.trans hf))
    obtain ⟨htype, hr, hw, hn, -⟩ := File.of_kind hkind
    rw [Option.bind_some, Option.bind_some]
    unfold Sys.fileClaim
    rw [htype, hr, hw, hn, horigin]

/-- A step of others leaves a process its claims. -/
theorem claim_kept (ht : Tables w) (ht' : Tables w') (hk : w.Keeps w')
    (hproc : w'.procs q = w.procs q) : w'.claim S q = w.claim S q := by
  funext i
  cases i with
  | none =>
    rw [claim_call, claim_call, hproc]
  | some n => exact claim_slot_kept ht ht' hk (by rw [hproc]) (by rw [hproc])

theorem table_eq (h : w.servers S = some s) : w.table S = entry s := by
  funext k
  unfold Sys.table
  rw [h]
  rfl

theorem table_setServer (S : Nat) (t : Srv) :
    (w.setServer S (some t)).table S = entry t :=
  table_eq (update_self ..)

theorem table_setCall (w : Sys) (p : Nat) (c : Call) :
    (w.setCall p c).table = w.table := rfl

theorem claim_setServer (S' : Nat) (x : Option Srv) :
    (w.setServer S' x).claim S p = w.claim S p := by
  funext i
  cases i with
  | none | some => rfl

theorem claim_setCall_other (hqp : q ≠ p) (c : Call) :
    (w.setCall p c).claim S q = w.claim S q := by
  have hproc : (w.setCall p c).procs q = w.procs q := update_of_ne hqp ..
  funext i
  cases i with
  | none => rw [claim_call, claim_call, hproc]
  | some n =>
    rw [claim_slot, claim_slot, hproc]
    rfl

/-- Another point of an open. -/
theorem claim_setCall (hc : ∀ n, c ≠ .closing n)
    (hcall : ∀ n, (w.procs p).call ≠ .closing n) :
    (w.setCall p c).claim S p = update (w.claim S p) none (pending p S c) := by
  have hproc : (w.setCall p c).procs p = { w.procs p with call := c } := update_self ..
  funext i
  cases i with
  | none => rw [claim_call, hproc, update_self]
  | some n =>
    rw [update_of_ne (by simp), claim_slot, claim_slot, hproc, if_neg (hc n),
      if_neg (hcall n)]
    rfl

/-- A slot whose `CLOSE` was answered. -/
theorem claim_setCall_closing (hidle : (w.procs p).call = .none) (n : Nat) :
    (w.setCall p (.closing n)).claim S p = update (w.claim S p) (some n) none := by
  have hproc : (w.setCall p (.closing n)).procs p
      = { w.procs p with call := .closing n } := update_self ..
  funext i
  cases i with
  | none =>
    rw [update_of_ne (by simp), claim_call, claim_call, hproc, hidle]
    rfl
  | some m =>
    by_cases hm : m = n
    · subst hm
      rw [update_self, claim_slot, hproc, if_pos rfl]
    have hne : Call.closing n ≠ .closing m := by
      simp only [ne_eq, Call.closing.injEq]
      exact fun e => hm e.symm
    rw [update_of_ne (by simpa using hm), claim_slot, claim_slot, hproc, if_neg hne,
      hidle, if_neg (by simp)]
    rfl

-- ==== one step's change

/-- What is taken or given back by `p` is nothing to `q`. -/
theorem update_others {T : Int → Option Desc} {v : Option Desc} (hqp : q ≠ p)
    (hold : ∀ d, T k = some d → d.owner = p) (hnew : ∀ d, v = some d → d.owner = p)
    (k' : Int) (d : Desc) (hd : ownedBy q d) :
    update T k v k' = some d ↔ T k' = some d := by
  unfold ownedBy at hd
  by_cases hk : k' = k
  · subst hk
    rw [update_self]
    constructor
    · intro hv
      have := hnew d hv
      omega
    · intro ht
      have := hold d ht
      omega
  · rw [update_of_ne hk]

/-- The ledger of process `q` at server `S`. -/
abbrev Sys.Agrees (w : Sys) (S q : Nat) : Prop :=
  Accounts (w.claim S q) (w.table S) (ownedBy q)

abbrev Sys.Changes (w : Sys) (a : Act) (w' : Sys) (S q : Nat) : Prop :=
  Change (w.Agrees S q ∧ Aimed w a) (ownedBy q) (w.claim S q) (w.table S)
    (w'.claim S q) (w'.table S)

/-- Nothing of `q`'s has changed. -/
theorem Sys.Changes.same (hclaim : w'.claim S q = w.claim S q)
    (htable : w'.table S = w.table S) : w.Changes a w' S q := by
  unfold Sys.Changes
  rw [hclaim, htable]
  exact .others fun _ _ _ => Iff.rfl

theorem openAnswered_change {path : List UInt8} (h : Served w)
    (hp : w.Client p) (hx : Exchange w p (openReq path omode) S s t ans)
    (hpos : ¬ ans.result < 0) (q : Nat) :
    w.Changes a ((w.setServer S (some t)).setCall p
      (.opened S omode ans.fd ((fileOf t ans.fd).getD 0))) S q := by
  rcases hx.opened (h.balanced _ _ hx.running) with ⟨hneg, -⟩ | ⟨inum, -, hfree, hinum, ht⟩
  · omega
  unfold Sys.Changes
  rw [← table_eq hx.running] at hfree ht
  rw [hinum, table_setCall, table_setServer, ht]
  by_cases hqp : q = p
  · subst hqp
    have hidle : ∀ n, (w.procs q).call ≠ .closing n := by
      rw [hp.idle]
      simp
    have hnew : pending q S (.opened S omode ans.fd ((some inum).getD 0))
        = some (ans.fd, grant q omode inum) := if_pos rfl
    rw [claim_setCall (w := w.setServer S (some t)) (by simp) hidle, claim_setServer, hnew]
    refine .take ?_ hfree rfl
    rw [claim_call, hp.idle]
    rfl
  · rw [claim_setCall_other hqp, claim_setServer]
    refine .others (update_others hqp (fun d hd => ?_) fun d hd => ?_)
    · rw [hfree] at hd
      cases hd
    · cases hd
      rfl

/-- `CLOSE` and the rollback of an open: from place `i`, under number `k`. -/
theorem closed_change (h : Served w)
    (hx : Exchange w p (closeReq k) S s t ans) (i : Option Nat)
    (hi : ∀ v, w.claim S p i = some v → v.1 = k)
    (hclaim : (w.setCall p c).claim S p = update (w.claim S p) i none)
    (haim : w.Agrees S p ∧ Aimed w a → ∀ j d, w.claim S p j = some (k, d) → j = i)
    (q : Nat) :
    w.Changes a ((w.setServer S (some t)).setCall p c) S q := by
  have hclosed := hx.closed (h.balanced _ _ hx.running)
  rw [← table_eq hx.running] at hclosed
  unfold Sys.Changes
  rw [table_setCall, table_setServer]
  by_cases hqp : q = p
  · subst hqp
    have hclaim' : ((w.setServer S (some t)).setCall q c).claim S q
        = update (w.claim S q) i none := hclaim ▸ claim_setServer (w := w.setCall q c) ..
    rw [hclaim']
    rcases hclosed with ⟨d, hd, hown, ht⟩ | ⟨ht, hno⟩
    · rw [ht]
      exact .giveBack hi hd hown haim
    rw [ht]
    refine .giveUp fun k' b d hb hd => ?_
    have hk : k' = k := hi _ hb
    exact hno d (hk ▸ hd)
  · rw [claim_setCall_other hqp, claim_setServer]
    rcases hclosed with ⟨d, hd, hown, ht⟩ | ⟨ht, -⟩
    · rw [ht]
      refine .others (update_others hqp (fun d' hd' => ?_) fun d' hd' => by cases hd')
      rw [hd] at hd'
      cases hd'
      exact hown
    · rw [ht]
      exact .others fun _ _ _ => Iff.rfl

/-- A local file is installed or dropped, and the claims stay. -/
theorem claim_of_slots (ht : Tables w) (ht' : Tables w') (hk : w.Keeps w')
    (hcall : (w.procs p).call.server = none) (hcall' : (w'.procs p).call = .none)
    (hother : ∀ m, m ≠ n → (w'.procs p).ofile m = (w.procs p).ofile m)
    (hclosing : ∀ m, m ≠ n → (w.procs p).call ≠ .closing m)
    (hn : w.claim S p (some n) = none) (hn' : w'.claim S p (some n) = none) :
    w'.claim S p = w.claim S p := by
  funext i
  cases i with
  | none =>
    have hno : pending p S (w.procs p).call = none := by
      by_contra hne
      obtain ⟨v, hv⟩ := Option.ne_none_iff_exists'.mp hne
      rw [pending_server hv] at hcall
      cases hcall
    rw [claim_call, claim_call, hcall', hno]
    rfl
  | some m =>
    by_cases hm : m = n
    · rw [hm, hn, hn']
    · refine claim_slot_kept ht ht' hk (hother m hm) ?_
      rw [hcall']
      exact ⟨fun e => (by cases e), fun e => absurd e (hclosing m hm)⟩

theorem fdalloc_free {ofile : Nat → Option Nat} (hn : fdalloc ofile = some n) :
    ofile n = none := by
  obtain ⟨-, -, hfree, -⟩ := first_some hn
  exact Option.isNone_iff_eq_none.mp hfree

theorem install_file (w : Sys) (p f n : Nat) (F : File) :
    (w.install p f n F).files f = F := update_self ..

theorem install_claim {F : File} (ht : Tables w) (ht' : Tables (w.install p f n F))
    (hk : w.Keeps (w.install p f n F)) (hp : w.Client p)
    (hn : fdalloc (w.procs p).ofile = some n)
    (hlocal : ((w.install p f n F).files f).type ≠ .remote) :
    (w.install p f n F).claim S q = w.claim S q := by
  by_cases hqp : q = p
  · subst hqp
    have hproc : (w.install q f n F).procs q = { w.procs q with
        ofile := update (w.procs q).ofile n (some f), call := .none } := update_self ..
    refine claim_of_slots (n := n) ht ht' hk (by rw [hp.idle]; rfl) (by rw [hproc]) ?_ ?_
      (claim_slot_empty (fdalloc_free hn)) (claim_slot_local ?_ hlocal)
    · intro m hm
      rw [hproc]
      exact update_of_ne hm ..
    · intro m _
      rw [hp.idle]
      simp
    · rw [hproc]
      exact update_self ..
  · exact claim_kept ht ht' hk (update_of_ne hqp ..)

theorem drop_claim (ht : Tables w) (ht' : Tables (w.drop p n f))
    (hk : w.Keeps (w.drop p n f)) (hcall : (w.procs p).call.server = none)
    (hclosing : ∀ m, m ≠ n → (w.procs p).call ≠ .closing m)
    (hn : w.claim S p (some n) = none) : (w.drop p n f).claim S q = w.claim S q := by
  by_cases hqp : q = p
  · subst hqp
    have hproc : (w.drop q n f).procs q = { w.procs q with
        ofile := update (w.procs q).ofile n none, call := .none } := update_self ..
    refine claim_of_slots (n := n) ht ht' hk hcall (by rw [hproc]) ?_ hclosing hn
      (claim_slot_empty ?_)
    · intro m hm
      rw [hproc]
      exact update_of_ne hm ..
    · rw [hproc]
      exact update_self ..
  · exact claim_kept ht ht' hk (update_of_ne hqp ..)

/-- The descriptor of an open moves into its slot. -/
theorem openEnd_claim {S' inum : Nat} {fd : Int} (ht : Tables w)
    (ht' : Tables { w.install p f n (remoteFile omode fd w.fsserverPid) with
      origin := update w.origin f ⟨p, S', inum⟩ })
    (hk : w.Keeps { w.install p f n (remoteFile omode fd w.fsserverPid) with
      origin := update w.origin f ⟨p, S', inum⟩ })
    (hcall : (w.procs p).call = .opened S' omode fd inum)
    (hfree : (w.procs p).ofile n = none) :
    ({ w.install p f n (remoteFile omode fd w.fsserverPid) with
      origin := update w.origin f ⟨p, S', inum⟩ } : Sys).claim S p
      = update (update (w.claim S p) none none) (some n) (w.claim S p none) := by
  have hproc : (w.install p f n (remoteFile omode fd w.fsserverPid)).procs p
      = { w.procs p with
        ofile := update (w.procs p).ofile n (some f), call := .none } := update_self ..
  funext i
  cases i with
  | none =>
    rw [update_of_ne (by simp), update_self, claim_call]
    show pending p S ((w.install p f n _).procs p).call = none
    rw [hproc]
    rfl
  | some m =>
    by_cases hm : m = n
    · subst hm
      rw [update_self, claim_slot, claim_call, hcall]
      show (if ((w.install p f m _).procs p).call = _ then none
        else (((w.install p f m _).procs p).ofile m).bind _) = _
      rw [hproc, if_neg (by simp)]
      show (update (w.procs p).ofile m (some f) m).bind _ = _
      rw [update_self, Option.bind_some]
      unfold Sys.fileClaim
      show (if ((w.install p f m _).files f).type = _
        ∧ (update w.origin f _ f).opener = p ∧ (update w.origin f _ f).server = S then
          some (((w.install p f m _).files f).remoteFd,
            Desc.mk p ((w.install p f m _).files f).readable
              ((w.install p f m _).files f).writable (update w.origin f _ f).inum)
        else none) = _
      rw [install_file, update_self]
      show (if _ ∧ _ ∧ S' = S then _ else none) = if S' = S then _ else none
      simp only [remoteFile, true_and]
      rfl
    · rw [update_of_ne (by simpa using hm), update_of_ne (by simp)]
      refine claim_slot_kept ht ht' hk ?_ ?_
      · show ((w.install p f n _).procs p).ofile m = _
        rw [hproc]
        exact update_of_ne hm ..
      · show ((w.install p f n _).procs p).call = _ ↔ _
        rw [hproc, hcall]
        simp

/-- A child has opened nothing. -/
theorem fork_fresh (h : Served w) (p : Nat) :
    w.Changes a (w.fork p) S w.nextpid := by
  have hproc : (w.fork p).procs w.nextpid = ⟨true, (w.procs p).ofile, .none⟩ :=
    update_self ..
  refine .fresh (fun i => ?_) fun k d hd hown => ?_
  · cases i with
    | none =>
      rw [claim_call, hproc]
      rfl
    | some n =>
      by_contra hne
      obtain ⟨v, hv⟩ := Option.ne_none_iff_exists'.mp hne
      obtain ⟨-, f, hf, hclaim⟩ := claim_some hv
      obtain ⟨hremote, horigin, -⟩ := fileClaim_some hclaim
      rw [hproc] at hf
      have htype := (File.of_kind (fork_kind (w := w) p f)).1
      have hborn := (h.files p n f hf (htype.symm.trans hremote)).1
      have horigin : w.origin f = _ := horigin
      rw [horigin] at hborn
      exact absurd hborn (Nat.lt_irrefl _)
  · change w.table S k = some d at hd
    obtain ⟨s, hs, hd⟩ := Option.bind_eq_some_iff.mp hd
    obtain ⟨q, hq, hown'⟩ := h.owners S s k d hs hd
    have hown : d.owner = (w.nextpid : Int) := hown
    omega

/-- A process that is no server was never asked anything. -/
theorem client_claims (h : Served w) (hp : w.Client p) (q : Nat) (i : Option Nat) :
    w.claim p q i = none := by
  have hpast : ¬ w.Past p := by
    intro hpast
    obtain ⟨s, hs⟩ := hpast.2 hp.alive
    rw [hp.client] at hs
    cases hs
  by_contra hne
  obtain ⟨v, hv⟩ := Option.ne_none_iff_exists'.mp hne
  cases i with
  | none =>
    rw [claim_call] at hv
    exact hpast (h.calls q p (pending_server hv))
  | some n =>
    obtain ⟨-, f, hf, hclaim⟩ := claim_some hv
    obtain ⟨hremote, horigin, -⟩ := fileClaim_some hclaim
    have hserver := (h.files q n f hf hremote).2
    rw [horigin] at hserver
    exact hpast hserver

theorem register_fresh (h : Served w) (hp : w.Client p) (disk : Disk)
    (diskOk : Nat → Bool) (q : Nat) :
    w.Changes a (w.register p disk diskOk) p q := by
  refine .fresh (fun i => ?_) fun k d hd => ?_
  · have hsame : (w.register p disk diskOk).claim p q i = w.claim p q i := by
      cases i with
      | none | some => rfl
    rw [hsame, client_claims h hp]
  · have htable : (w.register p disk diskOk).table p
        = entry (Srv.boot disk diskOk) := table_setServer p _
    rw [htable, entry_boot] at hd
    cases hd

theorem Eff.change (ht : Tables w) (h : Served w) (he : Eff w a w')
    (hS : w'.fsserverPid = S) (hq : (w'.procs q).alive = true) :
    w.Changes a w' S q := by
  have hk := he.keeps
  have ht' := he.tables ht
  -- the exchanges are with `S`
  have hreg : ∀ {S' : Nat}, w.fsserverPid = S' → w'.fsserverPid = w.fsserverPid →
      S' = S := by
    intro S' h1 h2
    omega
  have hserves : w'.fsserverPid = w.fsserverPid → ¬ ∀ S s, ¬ w.Serving S s := by
    intro hpid hno
    obtain ⟨s, hs⟩ := h.registered S (hpid.symm.trans hS)
    exact hno S s ⟨hpid.symm.trans hS, hs⟩
  cases he with
  | still => exact .same rfl rfl
  | openFailed hp hx hneg =>
    cases hreg hx.registered rfl
    rcases hx.opened (h.balanced _ _ hx.running) with ⟨-, heq⟩ | ⟨_, hpos, -⟩
    · refine .same (claim_setServer ..) ?_
      rw [table_setServer, heq, table_eq hx.running]
    · omega
  | openAnswered hp hx hpos =>
    cases hreg hx.registered rfl
    exact openAnswered_change h hp hx hpos q
  | @openEnd p S' omode fd inum f n hcall hf hn =>
    by_cases hqp : q = p
    · subst hqp
      have hfree := fdalloc_free hn
      unfold Sys.Changes
      rw [openEnd_claim ht ht' hk hcall hfree]
      exact .move (claim_slot_empty hfree)
    · exact .same (claim_kept ht ht' hk (update_of_ne hqp ..)) rfl
  | @openNoFile p S' omode fd inum hcall =>
    refine .same ?_ rfl
    by_cases hqp : q = p
    · subst hqp
      rw [claim_setCall (by simp) (by rw [hcall]; simp)]
      have hsame : pending q S (.undoing S' omode fd inum) = w.claim S q none := by
        rw [claim_call, hcall]
        rfl
      rw [hsame, update_eq_self]
    · exact claim_setCall_other hqp _
  | @openNoFd p S' omode fd inum f hcall hf =>
    refine .same ?_ rfl
    by_cases hqp : q = p
    · subst hqp
      have hslots : (w.setFile f File.fresh.close).claim S q = w.claim S q :=
        claim_kept ht (ht.setFile (filealloc_free hf) rfl) hk rfl
      rw [claim_setCall (w := w.setFile f File.fresh.close) (by simp)
        (by rw [show (w.setFile f File.fresh.close).procs = w.procs from rfl, hcall]; simp),
        hslots]
      have hsame : pending q S (.undoing S' omode fd inum) = w.claim S q none := by
        rw [claim_call, hcall]
        rfl
      rw [hsame, update_eq_self]
    · exact claim_kept ht ht' hk (update_of_ne hqp ..)
  | undoFailed _ hno | closeFailed _ _ _ hno => exact absurd hno (hserves rfl)
  | @undone p S' omode fd inum S'' s t ans hcall hx =>
    cases hreg hx.registered rfl
    have hpend : w.claim S p none
        = if S' = S then some (fd, grant p omode inum) else none := by
      rw [claim_call, hcall]
      rfl
    refine closed_change h hx none ?_ ?_ ?_ q
    · intro v hv
      rw [hpend] at hv
      split at hv
      next =>
        cases hv
        rfl
      next => cases hv
    · rw [claim_setCall (by simp) (by rw [hcall]; simp)]
      rfl
    · intro hagree j d hj
      by_cases hS' : S' = S
      · rw [if_pos hS'] at hpend
        exact hagree.1.distinct hj hpend
      · obtain ⟨hd, hown⟩ := hagree.1.listed hj
        rw [table_eq hx.running] at hd
        exact absurd hown (h.current S s p S' hx.toServing (by rw [hcall]; rfl) hS' fd d hd)
  | localNoFd | exitLost => exact .same (claim_kept ht ht' hk rfl) rfl
  | @localOpen p omode f n hp hf hn =>
    refine .same (install_claim ht ht' hk hp hn ?_) rfl
    rw [install_file]
    simp
  | @dup p fd f n hp hfd hlocal hn =>
    refine .same (install_claim ht ht' hk hp hn ?_) rfl
    rw [install_file]
    exact hlocal
  | read _ _ _ hx =>
    cases hreg hx.registered rfl
    refine .same (claim_kept ht ht' hk rfl) ?_
    exact (table_setServer ..).trans ((hx.read (h.balanced _ _ hx.running)).1.trans
      (table_eq hx.running).symm)
  | write _ _ _ hx =>
    cases hreg hx.registered rfl
    refine .same (claim_kept ht ht' hk rfl) ?_
    exact (table_setServer ..).trans ((hx.write (h.balanced _ _ hx.running)).1.trans
      (table_eq hx.running).symm)
  | @closeAnswered p fd f S' s t ans hp hfd hr hx =>
    cases hreg hx.registered rfl
    refine closed_change h hx (some fd) ?_ (claim_setCall_closing hp.idle fd) ?_ q
    · intro v hv
      obtain ⟨-, g, hg, hclaim⟩ := claim_some hv
      rw [hfd] at hg
      cases hg
      exact (fileClaim_some hclaim).2.2.1
    · intro haim j d hj
      cases j with
      | none =>
        rw [claim_call, hp.idle] at hj
        cases hj
      | some m =>
        obtain ⟨-, g, hg, hclaim⟩ := claim_some hj
        obtain ⟨hremote, horigin, hnum, -⟩ := fileClaim_some hclaim
        have hm := haim.2 f hfd m (ht.slots p m g hg) g hg ⟨hr, hremote,
          by rw [horigin], by rw [horigin]; exact hS.symm, hnum.symm⟩
        rw [hm]
  | @closeLocal p fd f hp hfd hlocal =>
    refine .same (drop_claim ht ht' hk (by rw [hp.idle]; rfl) ?_ ?_) rfl
    · intro m _
      rw [hp.idle]
      simp
    · exact claim_slot_local hfd hlocal
  | @closeEnd p fd f hcall hfd =>
    refine .same (drop_claim ht ht' hk (by rw [hcall]; rfl) ?_ ?_) rfl
    · intro m hm
      rw [hcall, ne_eq, Call.closing.injEq]
      exact fun e => hm e.symm
    · rw [claim_slot, if_pos hcall]
  | @fork p hp =>
    by_cases hqn : q = w.nextpid
    · subst hqn
      exact fork_fresh h p
    · exact .same (claim_kept ht ht' hk (update_of_ne hqn ..)) rfl
  | @exit p halive _ =>
    have hqp : q ≠ p := by
      intro e
      rw [e] at hq
      change (update w.procs p _ p).alive = true at hq
      rw [update_self] at hq
      cases hq
    have hSp : S ≠ p := by
      change (if w.fsserverPid = p then -1 else w.fsserverPid) = (S : Int) at hS
      split at hS
      next => omega
      next => omega
    refine .same (claim_kept ht ht' hk (update_of_ne hqp ..)) ?_
    have hserver : (w.exit p).servers S = w.servers S := update_of_ne hSp ..
    funext k
    unfold Sys.table
    rw [hserver]
  | @exitSeen p S' s t r hmem hs hrun =>
    have hclaim := claim_kept (S := S) ht ht' hk (q := q) rfl
    by_cases hSS : S' = S
    · subst hSS
      have htable : ({ w.setServer S' (some t) with
          exits := w.exits.erase (p, S') } : Sys).table S' = entry t :=
        table_setServer S' t
      unfold Sys.Changes
      rw [hclaim, htable, table_eq hs]
      refine .others fun k d hd => ?_
      rw [exitSeen_entry (h.balanced _ _ hs) hrun k d]
      refine ⟨fun hd' => hd'.1, fun hd' => ⟨hd', fun hown => ?_⟩⟩
      -- the process that exited is not alive
      have hqp : q = p := by
        have : d.owner = q := hd
        omega
      have hq : (w.procs q).alive = true := hq
      rw [hqp, (h.exits p S' hmem).2] at hq
      cases hq
    · refine .same hclaim ?_
      have hserver : (w.setServer S' (some t)).servers S = w.servers S :=
        update_of_ne (Ne.symm hSS) ..
      funext k
      show ((w.setServer S' (some t)).servers S).bind _ = _
      rw [hserver]
      rfl
  | @register p disk diskOk hp =>
    have hSp : S = p := by
      have hS : (p : Int) = S := hS
      omega
    subst hSp
    exact register_fresh h hp disk diskOk q

-- ==== every run

/-- Processes are born in `fork` and die in `exit`. -/
theorem Eff.lives (he : Eff w a w') :
    w' = w ∨ (∃ p, a = .fork p) ∨ (∃ p, a = .exit p)
      ∨ ∀ q, (w'.procs q).alive = (w.procs q).alive := by
  have hprocs : ∀ {p : Nat} {P : Proc}, w'.procs = update w.procs p P →
      P.alive = (w.procs p).alive → w' = w ∨ (∃ p, a = .fork p) ∨ (∃ p, a = .exit p)
        ∨ ∀ q, (w'.procs q).alive = (w.procs q).alive := by
    intro p P hw hP
    rw [hw]
    exact Or.inr (Or.inr (Or.inr (update_proj Proc.alive hP)))
  cases he with
  | still => exact Or.inl rfl
  | openAnswered => exact hprocs rfl rfl
  | openEnd => exact hprocs rfl rfl
  | openNoFile => exact hprocs rfl rfl
  | openNoFd => exact hprocs rfl rfl
  | undoFailed => exact hprocs rfl rfl
  | undone => exact hprocs rfl rfl
  | localOpen => exact hprocs rfl rfl
  | dup => exact hprocs rfl rfl
  | closeFailed => exact hprocs rfl rfl
  | closeAnswered => exact hprocs rfl rfl
  | closeLocal => exact hprocs rfl rfl
  | closeEnd => exact hprocs rfl rfl
  | fork => exact Or.inr (Or.inl ⟨_, rfl⟩)
  | exit => exact Or.inr (Or.inr (Or.inl ⟨_, rfl⟩))
  | _ => exact Or.inr (Or.inr (Or.inr fun _ => rfl))

/-- A live process was alive, or has just been forked. -/
theorem Eff.alive_before (he : Eff w a w') (hq : (w'.procs q).alive = true) :
    (w.procs q).alive = true
      ∨ q = w.nextpid ∧ ∃ p, a = .fork p ∧ (w.procs p).alive = true := by
  rcases he.lives with rfl | ⟨p, rfl⟩ | ⟨p, rfl⟩ | hsame
  · exact Or.inl hq
  · cases he with
    | still => exact Or.inl hq
    | fork hp =>
      by_cases hqn : q = w.nextpid
      · exact Or.inr ⟨hqn, p, rfl, hp.alive⟩
      · change (update w.procs w.nextpid _ q).alive = true at hq
        rw [update_of_ne hqn] at hq
        exact Or.inl hq
  · cases he with
    | still => exact Or.inl hq
    | exit =>
      change (update w.procs p _ q).alive = true at hq
      by_cases hqp : q = p
      · rw [hqp, update_self] at hq
        cases hq
      · rw [update_of_ne hqp] at hq
        exact Or.inl hq
  · exact Or.inl ((hsame q).symm.trans hq)

/-- A registered server was registered, or has just registered. -/
theorem Eff.pid_before (he : Eff w a w') (hS : w'.fsserverPid = S) :
    w.fsserverPid = S ∨ w.Client S := by
  cases he with
  | @exit p _ _ =>
    change (if w.fsserverPid = p then -1 else w.fsserverPid) = (S : Int) at hS
    split at hS
    next => omega
    next => exact Or.inl hS
  | @register p disk diskOk hp =>
    have hSp : S = p := by
      have hS : (p : Int) = S := hS
      omega
    exact Or.inr (hSp ▸ hp)
  | _ => exact Or.inl hS

/-- Before a server registers, and before a process is born, there is
nothing to account for. -/
theorem agrees_outside (ht : Tables w) (h : Served w)
    (ho : w.Client S ∨ w.nextpid ≤ q) : w.Agrees S q := by
  refine ⟨fun k d hd hown => ?_, fun {i k d} hi => ?_, fun {i j k d c} hi => ?_⟩
  · obtain ⟨s, hs, hd⟩ := Option.bind_eq_some_iff.mp hd
    rcases ho with hS | hq
    · rw [hS.client] at hs
      cases hs
    · obtain ⟨q', hq', hown'⟩ := h.owners S s k d hs hd
      have hown : d.owner = (q : Int) := hown
      omega
  all_goals
    rcases ho with hS | hq
    · rw [(client_claims h hS q i)] at hi
      cases hi
    obtain ⟨hfiles, hcall⟩ := ht.gone q (ht.unborn q hq)
    cases i with
    | none =>
      rw [claim_call, hcall] at hi
      cases hi
    | some n =>
      rw [claim_slot_empty (hfiles n)] at hi
      cases hi

/-- What every live process owns at the registered server it has
claimed. -/
def Sys.Covered (w : Sys) : Prop :=
  ∀ S q : Nat, w.fsserverPid = S → (w.procs q).alive = true →
    Covers (w.claim S q) (w.table S) (ownedBy q)

/-- The tables of every live process and of the registered server agree. -/
def Sys.Agreed (w : Sys) : Prop :=
  ∀ S q : Nat, w.fsserverPid = S → (w.procs q).alive = true → w.Agrees S q

/-- A process and a server whose ledger was kept, or there was nothing to
keep. -/
theorem Eff.before (ht : Tables w) (h : Served w) (he : Eff w a w')
    (hS : w'.fsserverPid = S) (hq : (w'.procs q).alive = true) :
    (w.fsserverPid = S ∧ (w.procs q).alive = true) ∨ w.Agrees S q := by
  rcases he.pid_before hS with hS0 | hS0
  · rcases he.alive_before hq with hq0 | ⟨hq0, -⟩
    · exact Or.inl ⟨hS0, hq0⟩
    · exact Or.inr (agrees_outside ht h (Or.inr (by omega)))
  · exact Or.inr (agrees_outside ht h (Or.inl hS0))

theorem Eff.covered (ht : Tables w) (h : Served w) (hc : w.Covered)
    (he : Eff w a w') : w'.Covered := by
  intro S q hS hq
  refine (he.change ht h hS hq).covers ?_
  rcases he.before ht h hS hq with ⟨hS0, hq0⟩ | hout
  · exact hc S q hS0 hq0
  · exact hout.covered

theorem Eff.agreed (ht : Tables w) (h : Served w) (hc : w.Agreed)
    (he : Eff w a w') (haim : Aimed w a) : w'.Agreed := by
  intro S q hS hq
  have hbefore : w.Agrees S q := by
    rcases he.before ht h hS hq with ⟨hS0, hq0⟩ | hout
    · exact hc S q hS0 hq0
    · exact hout
  exact (he.change ht h hS hq).accounts hbefore ⟨hbefore, haim⟩

theorem agreed_start : Sys.start.Agreed := by
  intro S q hS
  have hS : (-1 : Int) = S := hS
  omega

end Xv6FsServer.Files
