/-
`fs_ipc_call` as one step.

`Files/Model.lean` takes request, handler and reply together. In the
protocol machine they are steps of their own, with any others in between;
but the server has one request in hand at a time, so its handlers run as
exchanges one after another (`Exchanged`), in the order of its answers. A
call that returns 0 returns the reply of its own exchange, by the
agreement of requests and replies.
-/
import Xv6FsServer.Files.Proofs.Effect
import Xv6FsServer.Server.Proofs.Cleanup

namespace Xv6FsServer.Files

open Lib Function
open Ipc (IpcMsg IpcMsgType Answer World WAct Kept Endless Serves Agreement
  everybody sendReply serverPid start clientExitMsg)
open Server (Srv handle fsHandler)

variable {v v' : Sys} {w w' : World Srv} {l : List (IpcMsg × IpcMsg)} {s t : Srv}

/-- Exchanges with the server one after another, and the `CLIENT_EXIT`s it
took between them: the requests, each with the reply to it. -/
inductive Exchanged (v : Sys) : List (IpcMsg × IpcMsg) → Sys → Prop
  | none : Exchanged v [] v
  | call {l v₁ v₂ S s ans} {req : IpcMsg} {c : Nat} (h : Exchanged v l v₁)
      (hfrom : req.senderPid = c)
      (hcall : v₁.fsIpcCall c req = some (.answered S s ans, v₂)) :
      Exchanged v (l ++ [(req, (sendReply req ans).from S)]) v₂
  | exit {l v₁ c S s t r} (h : Exchanged v l v₁) (hs : v₁.servers S = some s)
      (hrun : exec (handle (clientExitMsg.from c)) s = (.ok r, t)) :
      Exchanged v l (v₁.setServer S (some t))

/-- The handler of the request in hand returns. -/
def Answers (w : World Srv) : WAct → Prop
  | .serve => w.phase = .receiving →
    w.server.buf.type ≠ IpcMsgType.fsClientExit.code →
      ∃ ans t, exec (handle w.server.buf) w.fs = (.ok (some ans), t)
  | .kernel _ => True

theorem Sys.Serving.setServer {S : Nat} (h : v.Serving S s) :
    (v.setServer S (some t)).Serving S t :=
  ⟨h.registered, update_self ..⟩

theorem Sys.Serving.fsIpcCall {S c : Nat} {req : IpcMsg} {ans : Answer}
    (h : v.Serving S s) (hfrom : req.senderPid = c)
    (hrun : exec (handle req) s = (.ok (some ans), t)) :
    v.fsIpcCall c req = some (.answered S s ans, v.setServer S (some t)) := by
  have hreq : req.from c = req := by
    unfold IpcMsg.from
    rw [← hfrom]
  unfold Sys.fsIpcCall
  rw [h.registered, if_neg (by omega), Int.toNat_natCast, h.running]
  dsimp only
  rw [hreq, hrun]

/-- `CLIENT_EXIT` is handled by `close_all_for_owner`, which returns. -/
theorem exec_clientExit (s : Srv) (c : Nat) :
    exec (handle (clientExitMsg.from c)) s = (.ok none, fsHandler.closeAllForOwner s c) := by
  obtain ⟨_, t, hrun, -⟩ := (Server.closeAllForOwner_closed c s).run
  have hclose : fsHandler.closeAllForOwner s c = t := by
    unfold fsHandler
    dsimp only
    rw [hrun]
  rw [Server.handle_clientExit rfl, exec_bind, IpcMsg.from_senderPid, hrun, hclose]
  rfl

/-- A stretch of the server's code is an exchange, the end of a client, or
nothing to the files. -/
theorem serves_exchanged (he : Endless w) (hup : Ipc.Up w.kernel w.phase)
    (huser : w.server.pc = .user) (hs : Serves fsHandler w w') (ha : Answers w .serve)
    (hx : Exchanged v w.handled v') (hv : v'.Serving serverPid w.fs) :
    ∃ v'', Exchanged v w'.handled v'' ∧ v''.Serving serverPid w'.fs := by
  have hhand : w.phase = .receiving → w.server.buf.Harmless := by
    intro hph
    rw [hph] at hup
    exact he.hand hph (hup.inHand huser)
  cases hs with
  | recv _ _ _ hsame hfs | exit _ _ _ _ _ hsame hfs =>
    rw [hsame, hfs]
    exact ⟨v', hx, hv⟩
  | again _ _ _ hsame hfs =>
    rw [hsame]
    rcases hfs with ⟨hfs, -⟩ | ⟨hph, -, hfs⟩
    · rw [hfs]
      exact ⟨v', hx, hv⟩
    obtain ⟨⟨c, hc, -⟩, -⟩ := hhand hph
    rw [hfs, hc]
    exact ⟨_, hx.exit hv.running (exec_clientExit w.fs c), hv.setServer⟩
  | answer ans hph _ htype hans _ hnew hfs =>
    obtain ⟨⟨c, hc, -⟩, hshut⟩ := hhand hph
    obtain ⟨ans', t, hrun⟩ := ha hph htype
    have hserve : fsHandler.serve w.fs w.server.buf = (t, ans') := by
      unfold fsHandler
      dsimp only
      rw [hrun]
    rw [hfs hshut, hnew, hserve]
    obtain rfl : ans = ans' := by
      rcases hans with ⟨-, h1, -⟩ | ⟨h1, -⟩
      · rw [h1, hserve]
      · exact absurd h1 hshut
    exact ⟨_, hx.call hc (hv.fsIpcCall hc hrun), hv.setServer⟩

/-- Clients that use the file calls and `exit`, in any interleaving, with a
server whose handlers return: the server's state and its answers are those
of exchanges one after another, and requests and replies agree. -/
theorem fsIpcCall_atomic (fs : Srv) (hv : v.Serving serverPid fs)
    (acts : List WAct) (w : World Srv)
    (hok : Along (World.step fsHandler) (fun w b => b.fileCallsOnly ∧ Answers w b)
      (start fs) acts)
    (hr : runs (World.step fsHandler) (start fs) acts = some w) :
    Agreement fsHandler w
      ∧ ∃ v', Exchanged v w.handled v' ∧ v'.Serving serverPid w.fs := by
  have hinv : (Kept everybody fsHandler w ∧ Endless w)
      ∧ ∃ v', Exchanged v w.handled v' ∧ v'.Serving serverPid w.fs := by
    refine Along.invariant (I := fun w => (Kept everybody fsHandler w ∧ Endless w)
      ∧ ∃ v', Exchanged v w.handled v' ∧ v'.Serving serverPid w.fs) ?_
      ⟨⟨Ipc.kept_start fs, Ipc.endless_start fs⟩, v, .none, hv⟩ hok hr
    rintro w b w' ⟨⟨hk, he⟩, v', hx, hv'⟩ ⟨hb, ha⟩ hs
    refine ⟨hk.endless_step he hb hs, ?_⟩
    cases b with
    | kernel a =>
      obtain ⟨k, -, rfl, -⟩ := Ipc.step_kernel hs
      exact ⟨v', hx, hv'⟩
    | serve =>
      have hup := hk.proto.server.up he.running
      obtain ⟨huser, hserves⟩ := Ipc.serves_of_step hs hk.proto.roles.known hup.pid
      exact serves_exchanged he hup huser hserves ha hx hv'
  exact ⟨Ipc.agreement_of hinv.1.1 hinv.1.2, hinv.2⟩

end Xv6FsServer.Files
