/-
Servers and their clients: what holds in every run.

The server's descriptor table is read by the numbers that clients send
(`entry`), and each exchange is described by what it does to it. `Served`
is the invariant (`Eff.served`): every server is between two requests,
the registered process is one, a descriptor belongs to a process that
exists, and a process whose call began at an earlier server has nothing
at the one that is registered now.
-/
import Xv6FsServer.Server.Proofs.Descriptors
import Xv6FsServer.Files.Proofs.Tables

namespace Xv6FsServer.Files

open Lib Function
open Ipc (IpcMsg IpcMsgType Answer clientExitMsg)
open Server

variable {w w' : Sys} {a : Act} {p q S : Nat} {s t : Srv} {ans : Answer}
variable {k : Int}
variable {d : Desc} {n S' f : Nat} {req : IpcMsg}

-- ==== the server's part

/-- The descriptor with the number a client sends. -/
def entry (s : Srv) (k : Int) : Option Desc :=
  if k < 0 then none else s.desc k.toNat

theorem entry_congr (h : t.desc = s.desc) : entry t = entry s := by
  funext k
  unfold entry
  rw [h]

theorem entry_natCast (s : Srv) (fd : Nat) : entry s fd = s.desc fd := by
  unfold entry
  rw [if_neg (by omega), Int.toNat_natCast]

theorem entry_update {fd : Nat} {v : Option Desc} (h : t.desc = update s.desc fd v) :
    entry t = update (entry s) (fd : Int) v := by
  funext k
  by_cases hk : k = (fd : Int)
  · subst hk
    rw [update_self, entry_natCast, h, update_self]
  · rw [update_of_ne hk]
    unfold entry
    split
    next => rfl
    next hpos => rw [h, update_of_ne (by omega)]

theorem entry_some (h : entry s k = some d) :
    ∃ fd : Nat, k = fd ∧ s.desc fd = some d := by
  unfold entry at h
  split at h
  next => cases h
  next hpos => exact ⟨k.toNat, by omega, h⟩

theorem fileOf_entry (h : entry s k = some d) :
    fileOf s k = some d.inum := by
  obtain ⟨fd, rfl, hd⟩ := entry_some h
  obtain ⟨-, -, -, -, -, ip, hip, hinum⟩ := desc_some hd
  unfold fileOf
  rw [Int.toNat_natCast, hip, Option.map_some, hinum]

/-- The answer of a handler that always answers. -/
theorem answer_of_gives {x : Op Answer} {P : Answer → Srv → Prop} (h : Gives x s P)
    (hx : exec (some <$> x) s = (.ok (some ans), t)) : P ans t := by
  have hmap : Gives (some <$> x) s fun r u => ∀ b, r = some b → P b u := by
    apply Meets.map
    refine h.mono fun b u hb c hc => ?_
    cases hc
    exact hb
  exact hmap.elim hx ans rfl

/-- What `OPEN` grants to process `p`. -/
def grant (p : Nat) (omode : Int) (inum : Nat) : Desc :=
  ⟨p, !wrOnly omode, wrOnly omode || rdWr omode, inum⟩

theorem Exchange.opened {path : List UInt8} {omode : Int}
    (hx : Exchange w p (openReq path omode) S s t ans) (hb : Balanced s) :
    (ans.result < 0 ∧ entry t = entry s)
      ∨ ∃ inum, 0 ≤ ans.result ∧ entry s ans.fd = none ∧ fileOf t ans.fd = some inum
        ∧ entry t = update (entry s) ans.fd (some (grant p omode inum)) := by
  have hrun := hx.run
  rw [handle_open rfl] at hrun
  rcases (answer_of_gives (fsOpen_desc _ hb) hrun).2 with h | ⟨fd, inum, -, hnone, hr, hf, ht⟩
  · exact Or.inl ⟨h.1, entry_congr h.2⟩
  · have hentry := entry_update ht
    rw [hf, hr]
    refine Or.inr ⟨inum, by omega, ?_, ?_, hentry⟩
    · rw [entry_natCast, hnone]
    · have hd : entry t (fd : Int) = some (grant p omode inum) := by
        rw [hentry, update_self]
        rfl
      exact fileOf_entry hd

theorem Exchange.read (hx : Exchange w p (readReq k n) S s t ans) (hb : Balanced s) :
    entry t = entry s ∧ (0 < ans.result → ∃ d, entry s k = some d
      ∧ d.owner = p ∧ d.readable = true) := by
  have hrun := hx.run
  rw [handle_read rfl] at hrun
  obtain ⟨-, ht, hpos⟩ := answer_of_gives (fsRead_desc _ hb) hrun
  refine ⟨entry_congr ht, fun h => ?_⟩
  obtain ⟨fd, d, hk, hd, hown, hmode⟩ := hpos h
  have hk : k = fd := hk
  exact ⟨d, by rw [hk, entry_natCast, hd], hown, hmode⟩

theorem Exchange.write {bs : List UInt8} (hx : Exchange w p (writeReq k bs) S s t ans)
    (hb : Balanced s) :
    entry t = entry s ∧ (0 < ans.result → ∃ d, entry s k = some d
      ∧ d.owner = p ∧ d.writable = true) := by
  have hrun := hx.run
  rw [handle_write rfl] at hrun
  obtain ⟨-, ht, hpos⟩ := answer_of_gives (fsWrite_desc _ hb) hrun
  refine ⟨entry_congr ht, fun h => ?_⟩
  obtain ⟨fd, d, hk, hd, hown, hmode⟩ := hpos h
  have hk : k = fd := hk
  exact ⟨d, by rw [hk, entry_natCast, hd], hown, hmode⟩

theorem Exchange.closed (hx : Exchange w p (closeReq k) S s t ans) (hb : Balanced s) :
    (∃ d, entry s k = some d ∧ d.owner = p ∧ entry t = update (entry s) k none)
      ∨ (entry t = entry s ∧ ∀ d, entry s k = some d → d.owner ≠ p) := by
  have hrun := hx.run
  rw [handle_close rfl] at hrun
  rcases (answer_of_gives (fsClose_desc _ hb) hrun).2 with
    ⟨fd, d, hk, hd, hown, -, ht⟩ | ⟨-, ht, hno⟩
  · have hk : k = fd := hk
    subst hk
    exact Or.inl ⟨d, by rw [entry_natCast, hd], hown, entry_update ht⟩
  · refine Or.inr ⟨entry_congr ht, fun d hd => ?_⟩
    obtain ⟨fd, hk, hd⟩ := entry_some hd
    exact hno fd d hk hd

theorem Exchange.closed_sub (hx : Exchange w p (closeReq k) S s t ans) (hb : Balanced s)
    (k' : Int) (d : Desc) (hd : entry t k' = some d) :
    entry s k' = some d := by
  rcases hx.closed hb with ⟨-, -, -, ht⟩ | ⟨ht, -⟩
  · rw [ht] at hd
    rcases update_some hd with ⟨-, hd⟩ | ⟨-, hd⟩
    · cases hd
    · exact hd
  · rwa [ht] at hd

theorem exitSeen_entry {r : Option Answer} (hb : Balanced s)
    (hrun : exec (handle (clientExitMsg.from p)) s = (.ok r, t)) (k : Int) (d : Desc) :
    entry t k = some d ↔ entry s k = some d ∧ d.owner ≠ p := by
  rw [handle_clientExit rfl] at hrun
  have hends : Ends (do closeAllForOwner (p : Int); pure none) s
      fun (_ : Option Answer) u => u.desc = without p s.desc := by
    exact (closeAllForOwner_desc p hb).seq fun _ u hu => Meets.ret hu.2
  have ht : t.desc = without p s.desc := hends.elim hrun
  unfold entry
  split
  next => simp
  next =>
    rw [ht]
    unfold without
    rw [Option.filter_eq_some_iff, bne_iff_ne]

/-- A server begins with no descriptors. -/
theorem entry_boot (disk : Disk) (diskOk : Nat → Bool) (k : Int) :
    entry (Srv.boot disk diskOk) k = none := by
  unfold entry
  split
  next => rfl
  have htable : (Srv.boot disk diskOk).fdTable = fun _ => .zero :=
    (readsb_sameFds.kept (.zero disk diskOk)).table
  refine if_neg fun hu => ?_
  rw [htable] at hu
  cases hu.2

/-- A server makes no requests. -/
theorem Exchange.ne (hx : Exchange w p req S s t ans)
    (hclient : w.servers p = none) : p ≠ S := by
  intro e
  have hrunning := hx.running
  rw [← e, hclient] at hrunning
  cases hrunning

theorem Exchange.balanced (hx : Exchange w p req S s t ans)
    (hb : Balanced s) : Balanced t :=
  (handle_balanced _ hb).elim hx.run

-- ==== who serves whom

/-- The server that a call waits to hear of again. -/
def Call.server : Call → Option Nat
  | .opened S _ _ _ => some S
  | .undoing S _ _ _ => some S
  | _ => Option.none

def Sys.table (w : Sys) (S : Nat) (k : Int) : Option Desc :=
  (w.servers S).bind fun s => entry s k

/-- Process `S` has been a server. -/
def Sys.Past (w : Sys) (S : Nat) : Prop :=
  S < w.nextpid ∧ ((w.procs S).alive = true → ∃ s, w.servers S = some s)

/-- What holds of servers and their clients in every run. -/
structure Served (w : Sys) : Prop where
  balanced : ∀ S s, w.servers S = some s → Balanced s
  working : ∀ S s, w.servers S = some s →
    (w.procs S).alive = true ∧ (w.procs S).call = .none
  registered : ∀ S : Nat, w.fsserverPid = S → ∃ s, w.servers S = some s
  owners : ∀ S s k d, w.servers S = some s → entry s k = some d →
    ∃ q : Nat, q < w.nextpid ∧ d.owner = q
  files : ∀ p n f, (w.procs p).ofile n = some f → (w.files f).type = .remote →
    (w.origin f).opener < w.nextpid ∧ w.Past (w.origin f).server
  calls : ∀ p S, (w.procs p).call.server = some S → w.Past S
  exits : ∀ p S, (p, S) ∈ w.exits → p < w.nextpid ∧ (w.procs p).alive = false
  /-- A process in a call to an earlier server has nothing at this one. -/
  current : ∀ S s p S', w.Serving S s → (w.procs p).call.server = some S' →
    S' ≠ S → ∀ k d, entry s k = some d → d.owner ≠ p

theorem served_start : Served Sys.start where
  balanced _ _ h := by cases h
  working _ _ h := by cases h
  registered S h := by
    have h : (-1 : Int) = S := h
    omega
  owners _ _ _ _ h := by cases h
  files _ _ _ h := by cases h
  calls _ _ h := by cases h
  exits _ _ h := by cases h
  current _ _ _ _ h := by cases h.running

/-- A past server stays one. -/
theorem Sys.Past.mono (h : w.Past S) (hnext : w.nextpid ≤ w'.nextpid)
    (halive : (w'.procs S).alive = true → (w.procs S).alive = true)
    (hserver : (w'.procs S).alive = true → ∀ s, w.servers S = some s →
      ∃ t, w'.servers S = some t) : w'.Past S := by
  refine ⟨by have := h.1; omega, fun h' => ?_⟩
  obtain ⟨s, hs⟩ := h.2 (halive h')
  exact hserver h' s hs

theorem Sys.Past.same (h : w.Past S) (hnext : w'.nextpid = w.nextpid)
    (hprocs : (w'.procs S).alive = (w.procs S).alive)
    (hservers : ∀ s, w.servers S = some s → ∃ t, w'.servers S = some t) : w'.Past S :=
  h.mono (by omega) (fun h' => hprocs.symm.trans h') fun _ => hservers

/-- A server stays one when another is asked something. -/
theorem servers_kept (S : Nat) (t : Srv) (s : Srv) (hs : w.servers S' = some s) :
    ∃ u, update w.servers S (some t) S' = some u := by
  by_cases hne : S' = S
  · rw [hne, update_self]
    exact ⟨t, rfl⟩
  · rw [update_of_ne hne]
    exact ⟨s, hs⟩

namespace Served

variable (h : Served w)

include h

theorem client_of_call (hcall : (w.procs p).call ≠ .none) : w.servers p = none := by
  cases hs : w.servers p with
  | none => rfl
  | some s => exact absurd (h.working p s hs).2 hcall

/-- Changes of the kernel's own tables. -/
theorem rewire (hservers : w'.servers = w.servers)
    (hpid : w'.fsserverPid = w.fsserverPid) (hnext : w'.nextpid = w.nextpid)
    (hexits : w'.exits = w.exits)
    (halive : ∀ q, (w'.procs q).alive = (w.procs q).alive)
    (hcall : ∀ q, (w'.procs q).call = (w.procs q).call
      ∨ w.servers q = none ∧ ∀ S, (w'.procs q).call.server = some S →
        (w.procs q).call.server = some S ∨ w.fsserverPid = S ∧ w.Past S)
    (hfiles : ∀ q n f, (w'.procs q).ofile n = some f → (w'.files f).type = .remote →
      (w'.origin f).opener < w.nextpid ∧ w.Past (w'.origin f).server) :
    Served w' := by
  have hpast : ∀ {S}, w.Past S → w'.Past S := by
    intro S hS
    refine hS.same hnext (halive S) fun s hs => ⟨s, ?_⟩
    rw [hservers, hs]
  -- a call that goes to a server went there before, or goes to this one
  have hold : ∀ q S, (w'.procs q).call.server = some S →
      (w.procs q).call.server = some S ∨ w.fsserverPid = S ∧ w.Past S := by
    intro q S hS
    rcases hcall q with hq | hq
    · rw [hq] at hS
      exact Or.inl hS
    · exact hq.2 S hS
  constructor
  case balanced =>
    rw [hservers]
    exact h.balanced
  case working =>
    rw [hservers]
    intro S s hs
    rw [halive S]
    refine ⟨(h.working S s hs).1, ?_⟩
    rcases hcall S with hq | hq
    · rw [hq]
      exact (h.working S s hs).2
    · rw [hq.1] at hs
      cases hs
  case registered =>
    rw [hservers, hpid]
    exact h.registered
  case owners =>
    rw [hservers, hnext]
    exact h.owners
  case files =>
    intro q n f hfd hr
    rw [hnext]
    obtain ⟨h1, h2⟩ := hfiles q n f hfd hr
    exact ⟨h1, hpast h2⟩
  case calls =>
    intro q S hS
    rcases hold q S hS with hq | hq
    · exact hpast (h.calls q S hq)
    · exact hpast hq.2
  case exits =>
    intro q S hmem
    rw [halive q, hnext]
    rw [hexits] at hmem
    exact h.exits q S hmem
  case current =>
    intro S s q S' hS hq hne
    have hS : w.Serving S s := by
      obtain ⟨h1, h2⟩ := hS
      rw [hpid] at h1
      rw [hservers] at h2
      exact ⟨h1, h2⟩
    rcases hold q S' hq with hq | hq
    · exact h.current S s q S' hS hq hne
    · have := hS.registered
      omega

/-- One process changes, which is not a server. -/
theorem rewire_proc {P : Proc} (hprocs : w'.procs = update w.procs p P)
    (hservers : w'.servers = w.servers) (hpid : w'.fsserverPid = w.fsserverPid)
    (hnext : w'.nextpid = w.nextpid) (hexits : w'.exits = w.exits)
    (halive : P.alive = (w.procs p).alive) (hclient : w.servers p = none)
    (hc : ∀ S, P.call.server = some S →
      (w.procs p).call.server = some S ∨ w.fsserverPid = S ∧ w.Past S)
    (hfiles : ∀ q n f, (w'.procs q).ofile n = some f → (w'.files f).type = .remote →
      (w'.origin f).opener < w.nextpid ∧ w.Past (w'.origin f).server) :
    Served w' := by
  refine h.rewire hservers hpid hnext hexits ?_ ?_ hfiles
  · rw [hprocs]
    exact update_proj Proc.alive halive
  · rw [hprocs]
    exact (forall_update_iff w.procs fun q P => P.call = (w.procs q).call
      ∨ w.servers q = none ∧ ∀ S, P.call.server = some S →
        (w.procs q).call.server = some S ∨ w.fsserverPid = S ∧ w.Past S).mpr
      ⟨Or.inr ⟨hclient, hc⟩, fun _ _ => Or.inl rfl⟩

theorem setCall {c : Call} (hclient : w.servers p = none)
    (hc : ∀ S, c.server = some S →
      (w.procs p).call.server = some S ∨ w.fsserverPid = S ∧ w.Past S) :
    Served (w.setCall p c) := by
  refine h.rewire_proc rfl rfl rfl rfl rfl rfl hclient hc fun q n f hfd hr => ?_
  rw [setCall_ofile] at hfd
  exact h.files q n f hfd hr

/-- A server has been asked something. -/
theorem serve (exits : List (Nat × Nat)) (hs : w.servers S = some s) (hb : Balanced t)
    (howners : ∀ k d, entry t k = some d → ∃ q : Nat, q < w.nextpid ∧ d.owner = q)
    (hcurrent : ∀ q S', w.fsserverPid = S → (w.procs q).call.server = some S' →
      S' ≠ S → ∀ k d, entry t k = some d → d.owner ≠ q)
    (hexits : ∀ e ∈ exits, e ∈ w.exits) :
    Served { w.setServer S (some t) with exits := exits } := by
  constructor
  case balanced =>
    intro S' s' hs'
    rcases update_some hs' with ⟨-, hs'⟩ | ⟨-, hs'⟩
    · cases hs'
      exact hb
    · exact h.balanced S' s' hs'
  case working =>
    intro S' s' hs'
    rcases update_some hs' with ⟨rfl, -⟩ | ⟨-, hs'⟩
    · exact h.working _ s hs
    · exact h.working S' s' hs'
  case registered =>
    intro S' hS'
    obtain ⟨s', hs'⟩ := h.registered S' hS'
    exact servers_kept S t s' hs'
  case owners =>
    intro S' s' k d hs' hd
    rcases update_some hs' with ⟨-, hs'⟩ | ⟨-, hs'⟩
    · cases hs'
      exact howners k d hd
    · exact h.owners S' s' k d hs' hd
  case files =>
    intro q n f hfd hr
    obtain ⟨h1, h2⟩ := h.files q n f hfd hr
    exact ⟨h1, h2.same rfl rfl (servers_kept S t)⟩
  case calls => exact fun q S' hq => (h.calls q S' hq).same rfl rfl (servers_kept S t)
  case exits => exact fun q S' hmem => h.exits q S' (hexits _ hmem)
  case current =>
    intro S' s' q S'' hserv hq hne
    rcases update_some hserv.running with ⟨rfl, hs'⟩ | ⟨-, hs'⟩
    · cases hs'
      exact hcurrent q S'' hserv.registered hq hne
    · exact h.current S' s' q S'' ⟨hserv.registered, hs'⟩ hq hne

/-- A request of `p`'s: what is new in the table is `p`'s, and there is
nothing new if `p` waits for another server. -/
theorem exchange (hx : Exchange w p req S s t ans) (hp : p < w.nextpid)
    (hnew : ∀ k d, entry t k = some d → entry s k = some d ∨ d.owner = p)
    (hcur : (w.procs p).call.server = none
      ∨ ∀ k d, entry t k = some d → entry s k = some d) :
    Served (w.setServer S (some t)) := by
  refine h.serve w.exits hx.running (hx.balanced (h.balanced _ s hx.running))
    (fun k d hd => ?_) (fun q S' _ hq hne k d hd hown => ?_) fun _ he => he
  · rcases hnew k d hd with hd | hd
    · exact h.owners _ s k d hx.running hd
    · exact ⟨p, hp, hd⟩
  · have hold : entry s k = some d := by
      rcases hnew k d hd with hd' | hd'
      · exact hd'
      · rcases hcur with hnone | hold
        · have hqp : q = p := by
            have := hd'.symm.trans hown
            omega
          rw [hqp, hnone] at hq
          cases hq
        · exact hold k d hd
    exact h.current _ s q S' hx.toServing hq hne k d hold hown

theorem fork (ht : Tables w) (p : Nat) : Served (w.fork p) := by
  have hnext : w.nextpid ≤ (w.fork p).nextpid := Nat.le_succ _
  have hold : ∀ q, q ≠ w.nextpid → (w.fork p).procs q = w.procs q :=
    fun q hq => update_of_ne hq ..
  have hchild : (w.fork p).procs w.nextpid = ⟨true, (w.procs p).ofile, .none⟩ :=
    update_self ..
  have hpast : ∀ {S}, w.Past S → (w.fork p).Past S := by
    intro S hS
    have hne : S ≠ w.nextpid := by
      have := hS.1
      omega
    exact hS.mono hnext (fun ha => by rwa [hold S hne] at ha) fun _ s hs => ⟨s, hs⟩
  have hremote : ∀ f, ((w.fork p).files f).type = (w.files f).type := by
    intro f
    have hkind := congrArg File.type (fork_kind (w := w) p f)
    exact hkind
  constructor
  case balanced => exact h.balanced
  case working =>
    intro S s hs
    have hne : S ≠ w.nextpid := Nat.ne_of_lt (ht.born (h.working S s hs).1)
    rw [hold S hne]
    exact h.working S s hs
  case registered => exact h.registered
  case owners =>
    intro S s k d hs hd
    obtain ⟨q, hq, hown⟩ := h.owners S s k d hs hd
    exact ⟨q, by omega, hown⟩
  case files =>
    intro q n f hfd hr
    rw [hremote] at hr
    have hthere : ∃ q', (w.procs q').ofile n = some f := by
      by_cases hq : q = w.nextpid
      · subst hq
        rw [hchild] at hfd
        exact ⟨p, hfd⟩
      · rw [hold q hq] at hfd
        exact ⟨q, hfd⟩
    obtain ⟨q', hq'⟩ := hthere
    obtain ⟨h1, h2⟩ := h.files q' n f hq' hr
    exact ⟨Nat.lt_of_lt_of_le h1 hnext, hpast h2⟩
  case calls =>
    intro q S hS
    by_cases hq : q = w.nextpid
    · subst hq
      rw [hchild] at hS
      cases hS
    · rw [hold q hq] at hS
      exact hpast (h.calls q S hS)
  case exits =>
    intro q S hmem
    obtain ⟨h1, h2⟩ := h.exits q S hmem
    rw [hold q (Nat.ne_of_lt h1)]
    exact ⟨Nat.lt_of_lt_of_le h1 hnext, h2⟩
  case current =>
    intro S s q S' hserv hq
    by_cases hqn : q = w.nextpid
    · subst hqn
      rw [hchild] at hq
      cases hq
    · rw [hold q hqn] at hq
      exact h.current S s q S' ⟨hserv.registered, hserv.running⟩ hq

theorem exit (ht : Tables w) (halive : (w.procs p).alive = true) :
    Served (w.exit p) := by
  have hself : (w.exit p).procs p = ⟨false, fun _ => none, .none⟩ := update_self ..
  have hold : ∀ q, q ≠ p → (w.exit p).procs q = w.procs q :=
    fun q hq => update_of_ne hq ..
  have hserver : ∀ S s, (w.exit p).servers S = some s →
      S ≠ p ∧ w.servers S = some s := by
    intro S s hs
    rcases update_some hs with ⟨-, hs⟩ | hs
    · cases hs
    · exact hs
  have hpast : ∀ {S}, w.Past S → (w.exit p).Past S := by
    intro S hS
    by_cases hSp : S = p
    · subst hSp
      refine ⟨hS.1, fun ha => ?_⟩
      rw [hself] at ha
      cases ha
    · refine hS.same rfl (by rw [hold S hSp]) fun s hs => ⟨s, ?_⟩
      exact (update_of_ne hSp ..).trans hs
  constructor
  case balanced => exact fun S s hs => h.balanced S s (hserver S s hs).2
  case working =>
    intro S s hs
    rw [hold S (hserver S s hs).1]
    exact h.working S s (hserver S s hs).2
  case registered =>
    intro S hS
    change (if w.fsserverPid = p then -1 else w.fsserverPid) = (S : Int) at hS
    split at hS
    next => omega
    next hne =>
      obtain ⟨s, hs⟩ := h.registered S hS
      exact ⟨s, (update_of_ne (by omega : S ≠ p) ..).trans hs⟩
  case owners => exact fun S s k d hs => h.owners S s k d (hserver S s hs).2
  case files =>
    intro q n f hfd hr
    have hq : q ≠ p := by
      intro e
      rw [e, hself] at hfd
      cases hfd
    have hpos := (ht.exit halive).ref_pos hfd
    have hkind := congrArg File.type (exit_kind hpos)
    rw [hold q hq] at hfd
    obtain ⟨h1, h2⟩ := h.files q n f hfd (hkind.symm.trans hr)
    exact ⟨h1, hpast h2⟩
  case calls =>
    intro q S hS
    have hq : q ≠ p := by
      intro e
      rw [e, hself] at hS
      cases hS
    rw [hold q hq] at hS
    exact hpast (h.calls q S hS)
  case exits =>
    intro q S hmem
    by_cases hq : q = p
    · subst hq
      rw [hself]
      exact ⟨ht.born halive, rfl⟩
    · rw [hold q hq]
      change (q, S) ∈ (if _ then w.exits ++ [(p, _)] else w.exits) at hmem
      have hmem : (q, S) ∈ w.exits := by
        split at hmem
        next =>
          rcases List.mem_append.mp hmem with hm | hm
          · exact hm
          · cases List.mem_singleton.mp hm
            exact absurd rfl hq
        next => exact hmem
      exact h.exits q S hmem
  case current =>
    intro S s q S' hserv hq
    have hqp : q ≠ p := by
      intro e
      rw [e, hself] at hq
      cases hq
    rw [hold q hqp] at hq
    obtain ⟨hS, hs⟩ := hserver S s hserv.running
    have hpid : w.fsserverPid = S := by
      have hreg := hserv.registered
      change (if w.fsserverPid = p then -1 else w.fsserverPid) = (S : Int) at hreg
      split at hreg
      next => omega
      next => exact hreg
    exact h.current S s q S' ⟨hpid, hs⟩ hq

/-- A server forgets some of its descriptors. -/
theorem forget {exits : List (Nat × Nat)} (hs : w.servers S = some s)
    (hb : Balanced t) (hentry : ∀ k d, entry t k = some d → entry s k = some d)
    (hexits : ∀ e ∈ exits, e ∈ w.exits) :
    Served { w.setServer S (some t) with exits := exits } :=
  h.serve exits hs hb (fun k d hd => h.owners S s k d hs (hentry k d hd))
    (fun q S' hS hq hne k d hd =>
      h.current S s q S' ⟨hS, hs⟩ hq hne k d (hentry k d hd)) hexits

theorem register (hp : w.Client p) (disk : Disk) (diskOk : Nat → Bool) :
    Served (w.register p disk diskOk) := by
  have hself : (w.register p disk diskOk).servers p = some (Srv.boot disk diskOk) :=
    update_self ..
  have hkept : ∀ {S} s, w.servers S = some s →
      ∃ u, (w.register p disk diskOk).servers S = some u := servers_kept p _
  constructor
  case balanced =>
    intro S s hs
    rcases update_some hs with ⟨-, hs⟩ | ⟨-, hs⟩
    · cases hs
      exact balanced_boot disk diskOk
    · exact h.balanced S s hs
  case working =>
    intro S s hs
    rcases update_some hs with ⟨rfl, -⟩ | ⟨-, hs⟩
    · exact ⟨hp.alive, hp.idle⟩
    · exact h.working S s hs
  case registered =>
    intro S hS
    have hS : (p : Int) = S := hS
    have hSp : S = p := by omega
    subst hSp
    exact ⟨_, hself⟩
  case owners =>
    intro S s k d hs hd
    rcases update_some hs with ⟨-, hs⟩ | ⟨-, hs⟩
    · cases hs
      rw [entry_boot] at hd
      cases hd
    · exact h.owners S s k d hs hd
  case files =>
    intro q n f hfd hr
    obtain ⟨h1, h2⟩ := h.files q n f hfd hr
    exact ⟨h1, h2.same rfl rfl hkept⟩
  case calls => exact fun q S hq => (h.calls q S hq).same rfl rfl hkept
  case exits => exact h.exits
  case current =>
    intro S s q S' hserv _ _ k d hd
    have hS : (p : Int) = S := hserv.registered
    have hSp : S = p := by omega
    subst hSp
    cases hself.symm.trans hserv.running
    rw [entry_boot] at hd
    cases hd

/-- What a descriptor names that named it before. -/
theorem file_kept (ht : Tables w) (ht' : Tables w') (hk : w.Keeps w')
    (hfd : (w.procs q).ofile n = some f) (hfd' : (w'.procs q).ofile n = some f)
    (hr : (w'.files f).type = .remote) :
    (w'.origin f).opener < w.nextpid ∧ w.Past (w'.origin f).server := by
  obtain ⟨hkind, horigin⟩ := hk f (ht.ref_pos hfd) (ht'.ref_pos hfd')
  rw [horigin]
  exact h.files q n f hfd ((congrArg File.type hkind).symm.trans hr)

/-- A file is put into a free slot of process `p`. -/
theorem install {F : File} (origin : Nat → Origin) (ht : Tables w)
    (ht' : Tables { w.install p f n F with origin := origin })
    (hk : w.Keeps { w.install p f n F with origin := origin })
    (hclient : w.servers p = none) (hnew : F.type = .remote →
      (origin f).opener < w.nextpid ∧ w.Past (origin f).server) :
    Served { w.install p f n F with origin := origin } := by
  refine h.rewire_proc rfl rfl rfl rfl rfl rfl hclient (fun S hS => by cases hS)
    fun q m g hfd hr => ?_
  by_cases hgf : g = f
  · subst hgf
    change (update w.files g F g).type = .remote at hr
    rw [update_self] at hr
    exact hnew hr
  · rcases install_ofile hfd with ⟨-, -, e⟩ | hold
    · exact absurd e hgf
    · exact h.file_kept ht ht' hk hold hfd hr

theorem drop (ht : Tables w) (hclient : w.servers p = none)
    (hfd : (w.procs p).ofile n = some f) : Served (w.drop p n f) := by
  refine h.rewire_proc rfl rfl rfl rfl rfl rfl hclient (fun S hS => by cases hS)
    fun q m g hg hr => ?_
  exact h.file_kept ht (ht.drop hfd) (drop_keeps p n f) (drop_ofile hg) hg hr

theorem withLog (log : List Access) : Served { w with log := log } :=
  ⟨h.balanced, h.working, h.registered, h.owners, h.files, h.calls, h.exits,
    fun S s p S' hs => h.current S s p S' ⟨hs.registered, hs.running⟩⟩

/-- A slot that no descriptor names is written. -/
theorem setFile (ht : Tables w) (hf : (w.files f).ref = 0) (F : File) :
    Served (w.setFile f F) := by
  refine h.rewire rfl rfl rfl rfl (fun _ => rfl) (fun _ => Or.inl rfl)
    fun q n g hfd hr => ?_
  have hgf : g ≠ f := by
    intro e
    have := ht.ref_pos hfd
    rw [e] at this
    omega
  change (update w.files f F g).type = .remote at hr
  rw [update_of_ne hgf] at hr
  exact h.files q n g hfd hr

end Served

theorem Eff.served (ht : Tables w) (h : Served w) (he : Eff w a w') : Served w' := by
  have hk := he.keeps
  have ht' := he.tables ht
  cases he with
  | still => exact h
  | openFailed hp hx hneg =>
    refine h.exchange hx (ht.born hp.alive) ?_ (Or.inl (by rw [hp.idle]; rfl))
    intro k d hd
    rcases hx.opened (h.balanced _ _ hx.running) with ⟨-, heq⟩ | ⟨_, hpos, -⟩
    · exact Or.inl (heq ▸ hd)
    · omega
  | @openAnswered p path omode S s t ans hp hx hpos =>
    have hb := h.balanced _ _ hx.running
    have hserved : Served (w.setServer S (some t)) := by
      refine h.exchange hx (ht.born hp.alive) ?_ (Or.inl (by rw [hp.idle]; rfl))
      intro k d hd
      rcases hx.opened hb with ⟨hneg, -⟩ | ⟨inum, -, -, -, heq⟩
      · omega
      · rw [heq] at hd
        rcases update_some hd with ⟨-, hd⟩ | ⟨-, hd⟩
        · cases hd
          exact Or.inr rfl
        · exact Or.inl hd
    have hpS := hx.ne hp.client
    refine hserved.setCall ((update_of_ne hpS ..).trans hp.client) fun S' hS' => ?_
    cases hS'
    refine Or.inr ⟨hx.registered, ht.born (h.working _ _ hx.running).1, fun _ => ?_⟩
    exact ⟨t, update_self ..⟩
  | @openEnd p S omode fd inum f n hcall hf hn =>
    have hclient := h.client_of_call (p := p) (by rw [hcall]; simp)
    refine h.install _ ht ht' hk hclient fun _ => ?_
    have horigin : update w.origin f ⟨p, S, inum⟩ f = ⟨p, S, inum⟩ := update_self ..
    show (update w.origin f _ f).opener < _ ∧ w.Past (update w.origin f _ f).server
    rw [horigin]
    exact ⟨ht.born (ht.alive_of_call hcall (by simp)), h.calls p S (by rw [hcall]; rfl)⟩
  | @openNoFile p S omode fd inum hcall =>
    refine h.setCall (h.client_of_call (by rw [hcall]; simp)) fun S' hS' => ?_
    rw [hcall]
    exact Or.inl hS'
  | @openNoFd p S omode fd inum f hcall hf =>
    have hserved := h.setFile ht (filealloc_free hf) File.fresh.close
    refine hserved.setCall (h.client_of_call (by rw [hcall]; simp)) fun S' hS' => ?_
    show (w.procs p).call.server = _ ∨ _
    rw [hcall]
    exact Or.inl hS'
  | undoFailed hcall _ =>
    exact h.setCall (h.client_of_call (by rw [hcall]; simp)) fun S' hS' => by cases hS'
  | @undone p S' omode fd inum S s t ans hcall hx =>
    have hclient := h.client_of_call (p := p) (by rw [hcall]; simp)
    have halive := ht.alive_of_call hcall (by simp)
    have hsub : ∀ k d, entry t k = some d → entry s k = some d :=
      hx.closed_sub (h.balanced _ _ hx.running)
    have hserved := h.exchange hx (ht.born halive) (fun k d hd => Or.inl (hsub k d hd))
      (Or.inr hsub)
    have hpS := hx.ne hclient
    exact hserved.setCall ((update_of_ne hpS ..).trans hclient)
      fun S' hS' => by cases hS'
  | localNoFd hf => exact h.setFile ht (filealloc_free hf) _
  | @localOpen p omode f n hp hf hn =>
    exact h.install w.origin ht ht' hk hp.client fun hr => by cases hr
  | @dup p fd f n hp hfd hlocal hn =>
    exact h.install w.origin ht ht' hk hp.client
      fun hr => absurd hr hlocal
  | read hp _ _ hx =>
    refine Served.withLog (h.exchange hx (ht.born hp.alive) (fun k d hd => ?_)
      (Or.inl (by rw [hp.idle]; rfl))) _
    rw [(hx.read (h.balanced _ _ hx.running)).1] at hd
    exact Or.inl hd
  | write hp _ _ hx =>
    refine Served.withLog (h.exchange hx (ht.born hp.alive) (fun k d hd => ?_)
      (Or.inl (by rw [hp.idle]; rfl))) _
    rw [(hx.write (h.balanced _ _ hx.running)).1] at hd
    exact Or.inl hd
  | closeFailed hp _ _ _ =>
    exact h.setCall hp.client fun S' hS' => by cases hS'
  | @closeAnswered p fd f S s t ans hp hfd hr hx =>
    have hsub : ∀ k d, entry t k = some d → entry s k = some d :=
      hx.closed_sub (h.balanced _ _ hx.running)
    have hserved := h.exchange hx (ht.born hp.alive) (fun k d hd => Or.inl (hsub k d hd))
      (Or.inr hsub)
    have hpS := hx.ne hp.client
    exact hserved.setCall ((update_of_ne hpS ..).trans hp.client)
      fun S' hS' => by cases hS'
  | closeLocal hp hfd _ => exact h.drop ht hp.client hfd
  | closeEnd hcall hfd =>
    exact h.drop ht (h.client_of_call (by rw [hcall]; simp)) hfd
  | fork _ => exact h.fork ht _
  | exit halive _ => exact h.exit ht halive
  | exitLost _ _ =>
    exact ⟨h.balanced, h.working, h.registered, h.owners, h.files, h.calls,
      fun p S hm => h.exits p S (List.mem_of_mem_erase hm), fun S s p S' hs =>
        h.current S s p S' ⟨hs.registered, hs.running⟩⟩
  | exitSeen _ hs hrun =>
    refine h.forget hs ((handle_balanced _ (h.balanced _ _ hs)).elim hrun)
      (fun k d hd => ?_) fun e he => List.mem_of_mem_erase he
    exact ((exitSeen_entry (h.balanced _ _ hs) hrun k d).mp hd).1
  | register hp => exact h.register hp _ _

-- ==== where entries come from

/-- The descriptors of one server after it has been asked something. -/
theorem setServer_entries {s' : Srv} {P : Prop}
    (hs : w.servers S = some s) (hnew : entry t k = some d → entry s k = some d ∨ P)
    (hs' : (w.setServer S (some t)).servers S' = some s') (hd : entry s' k = some d) :
    (∃ u, w.servers S' = some u ∧ entry u k = some d) ∨ P := by
  rcases update_some hs' with ⟨rfl, ht⟩ | ⟨-, hs'⟩
  · cases ht
    rcases hnew hd with h | h
    · exact Or.inl ⟨s, hs, h⟩
    · exact Or.inr h
  · exact Or.inl ⟨s', hs', hd⟩

/-- A server's descriptor was there before, or its owner has just been
granted it. -/
theorem Eff.entries (h : Served w) (he : Eff w a w')
    (hs : w'.servers S = some s) (hd : entry s k = some d) :
    (∃ u, w.servers S = some u ∧ entry u k = some d)
      ∨ ∃ p : Nat, d.owner = p ∧ w.Client p := by
  have hsame : w'.servers = w.servers →
      (∃ u, w.servers S = some u ∧ entry u k = some d)
        ∨ ∃ p : Nat, d.owner = p ∧ w.Client p := by
    intro hservers
    rw [hservers] at hs
    exact Or.inl ⟨s, hs, hd⟩
  cases he with
  | openFailed hp hx hneg =>
    refine setServer_entries hx.running (fun hd => ?_) hs hd
    rcases hx.opened (h.balanced _ _ hx.running) with ⟨-, heq⟩ | ⟨_, hpos, -⟩
    · exact Or.inl (heq ▸ hd)
    · omega
  | @openAnswered p path omode S' s' t ans hp hx hpos =>
    refine setServer_entries hx.running (fun hd => ?_) hs hd
    rcases hx.opened (h.balanced _ _ hx.running) with ⟨hneg, -⟩ | ⟨_, -, -, -, heq⟩
    · omega
    · rw [heq] at hd
      rcases update_some hd with ⟨-, hd⟩ | ⟨-, hd⟩
      · cases hd
        exact Or.inr ⟨p, rfl, hp⟩
      · exact Or.inl hd
  | undone _ hx =>
    exact setServer_entries hx.running
      (fun hd => Or.inl (hx.closed_sub (h.balanced _ _ hx.running) k d hd)) hs hd
  | read _ _ _ hx =>
    exact setServer_entries hx.running
      (fun hd => Or.inl ((hx.read (h.balanced _ _ hx.running)).1 ▸ hd)) hs hd
  | write _ _ _ hx =>
    exact setServer_entries hx.running
      (fun hd => Or.inl ((hx.write (h.balanced _ _ hx.running)).1 ▸ hd)) hs hd
  | closeAnswered _ _ _ hx =>
    exact setServer_entries hx.running
      (fun hd => Or.inl (hx.closed_sub (h.balanced _ _ hx.running) k d hd)) hs hd
  | exit =>
    rcases update_some hs with ⟨-, hs⟩ | ⟨-, hs⟩
    · cases hs
    · exact Or.inl ⟨s, hs, hd⟩
  | exitSeen _ hs0 hrun =>
    exact setServer_entries hs0 (fun hd =>
      Or.inl ((exitSeen_entry (h.balanced _ _ hs0) hrun k d).mp hd).1) hs hd
  | register =>
    rcases update_some hs with ⟨-, hs⟩ | ⟨-, hs⟩
    · cases hs
      rw [entry_boot] at hd
      cases hd
    · exact Or.inl ⟨s, hs, hd⟩
  | _ => exact hsame rfl

/-- A call waits for the server it waited for, or for the registered
one. -/
theorem Eff.callServer (he : Eff w a w') (hc : (w'.procs q).call.server = some S) :
    (w.procs q).call.server = some S
      ∨ w.fsserverPid = S ∧ w'.fsserverPid = w.fsserverPid := by
  -- one process goes to another point of its call
  have hcall : ∀ {p : Nat} {P : Proc}, w'.procs = update w.procs p P →
      (P.call.server = some S → (w.procs p).call.server = some S
        ∨ w.fsserverPid = S ∧ w'.fsserverPid = w.fsserverPid) →
      (w.procs q).call.server = some S
        ∨ w.fsserverPid = S ∧ w'.fsserverPid = w.fsserverPid := by
    intro p P hprocs hP
    rw [hprocs] at hc
    by_cases hq : q = p
    · subst hq
      rw [update_self] at hc
      exact hP hc
    · rw [update_of_ne hq] at hc
      exact Or.inl hc
  cases he with
  | openAnswered hp hx _ =>
    refine hcall rfl fun hS => Or.inr ⟨?_, rfl⟩
    cases hS
    exact hx.registered
  | openEnd hc0 => exact hcall rfl fun hS => by cases hS
  | openNoFile hc0 => exact hcall rfl fun hS => Or.inl (by rw [hc0]; exact hS)
  | openNoFd hc0 => exact hcall rfl fun hS => Or.inl (by rw [hc0]; exact hS)
  | undoFailed => exact hcall rfl fun hS => by cases hS
  | undone => exact hcall rfl fun hS => by cases hS
  | localOpen => exact hcall rfl fun hS => by cases hS
  | dup => exact hcall rfl fun hS => by cases hS
  | closeFailed => exact hcall rfl fun hS => by cases hS
  | closeAnswered => exact hcall rfl fun hS => by cases hS
  | closeLocal => exact hcall rfl fun hS => by cases hS
  | closeEnd => exact hcall rfl fun hS => by cases hS
  | fork => exact hcall rfl fun hS => by cases hS
  | exit => exact hcall rfl fun hS => by cases hS
  | _ => exact Or.inl hc

-- ==== one server

/-- There is one server, and it does not exit. -/
def Lasting (w : Sys) : Act → Prop
  | .register _ _ _ => w.fsserverPid = -1
  | .exit p => (w.servers p).isNone
  | _ => True

instance (w : Sys) (a : Act) : Decidable (Lasting w a) := by
  cases a <;> (unfold Lasting; infer_instance)

/-- Every remote file and every call is of the one server. -/
structure Single (w : Sys) : Prop where
  tables : Tables w
  served : Served w
  calls : ∀ p S, (w.procs p).call.server = some S → w.fsserverPid = S
  files : ∀ p n f, (w.procs p).ofile n = some f → (w.files f).type = .remote →
    (w.origin f).server = w.fsserverPid

theorem single_start : Single Sys.start where
  tables := tables_start
  served := served_start
  calls _ _ h := by cases h
  files _ _ _ h := by cases h

namespace Single

variable (h : Single w)

include h

/-- A registered server stays registered. -/
theorem pid_kept (hok : Lasting w a) (he : Eff w a w') :
    w'.fsserverPid = w.fsserverPid
      ∨ w.fsserverPid = -1 ∧ ∃ p : Nat, w.Client p ∧ w'.fsserverPid = p := by
  cases he with
  | @exit p _ _ =>
    have hp : w.servers p = none := Option.isNone_iff_eq_none.mp hok
    have hne : w.fsserverPid ≠ p := by
      intro e
      obtain ⟨s, hs⟩ := h.served.registered p e
      rw [hp] at hs
      cases hs
    exact Or.inl (if_neg hne)
  | register hp => exact Or.inr ⟨hok, _, hp, rfl⟩
  | _ => exact Or.inl rfl

theorem step (hok : Lasting w a) (he : Eff w a w') : Single w' := by
  have hpid := h.pid_kept hok he
  refine ⟨he.tables h.tables, he.served h.tables h.served, fun q S hc => ?_,
    fun q n f hfd hr => ?_⟩
  · rcases he.callServer hc with hc | ⟨hS, hkept⟩
    · have hS := h.calls q S hc
      rcases hpid with hpid | ⟨hpid, -⟩
      · rw [hpid, hS]
      · omega
    · rw [hkept, hS]
  · -- a remote file of before is of the server that there was
    have hold : ∀ p, (w.procs p).ofile n = some f → w.Same w' f →
        (w'.origin f).server = w'.fsserverPid := by
      intro p hp hsame
      have hS := h.files p n f hp ((File.of_kind hsame.1).1.symm.trans hr)
      rw [hsame.2]
      rcases hpid with hpid | ⟨hpid, -⟩
      · rw [hpid, hS]
      · omega
    rcases he.slot h.tables hfd hr with ⟨hq, hsame⟩ | ⟨p, -, -, -, hp, hsame⟩ |
      ⟨S, omode, fd, inum, -, hcall, -, -, -, horigin⟩
    · exact hold q hq hsame
    · exact hold p hp hsame
    · have hS := h.calls q S (by rw [hcall]; rfl)
      rw [horigin]
      rcases hpid with hpid | ⟨hpid, -⟩
      · rw [hpid, hS]
      · omega

end Single

end Xv6FsServer.Files
