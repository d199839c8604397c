/-
A pipe is a queue of bytes, whoever reads and writes it and however their
calls are cut by sleeping (`pipe_fifo`).

`put` and `take` are the two ends of the ring: a byte goes behind the last
one and the first is taken off, and the difference of the two wrapping
counters is the number of bytes between. What a stretch of a call does to
the list `buffered` follows by induction on its loop, and a step of the
system moves bytes from a writer's buffer to the end of the list and from
its front to a reader.
-/
import Xv6FsServer.Pipes.Model
import Xv6FsServer.Lib.Trace

namespace Xv6FsServer.Pipes

open Lib Function List

variable {p q : Pipe} {s t : Sys} {c i j n : Nat} {addr : List UInt8} {killed : Bool}

-- ==== the ring

theorem length_buffered (p : Pipe) : p.buffered.length = (p.nwrite - p.nread).toNat :=
  length_window

theorem toNat_between (p : Pipe) : (p.nwrite - p.nread).toNat
    = (2 ^ 32 - p.nread.toNat + p.nwrite.toNat) % 2 ^ 32 := UInt32.toNat_sub ..

theorem full_iff :
    p.nwrite = p.nread + UInt32.ofNat pipeSize ↔ p.buffered.length = pipeSize := by
  have hr := p.nread.toNat_lt
  have hw := p.nwrite.toNat_lt
  rw [length_buffered, toNat_between, ← UInt32.toNat_inj, UInt32.toNat_add,
    show (UInt32.ofNat pipeSize).toNat = 512 from rfl, show pipeSize = 512 from rfl]
  omega

theorem empty_iff : p.nread = p.nwrite ↔ p.buffered = [] := by
  have hr := p.nread.toNat_lt
  have hw := p.nwrite.toNat_lt
  rw [← length_eq_zero_iff, length_buffered, toNat_between, ← UInt32.toNat_inj]
  omega

theorem put_buffered (h : p.buffered.length < pipeSize) (b : UInt8) :
    (p.put b).buffered = p.buffered ++ [b] := by
  have hr := p.nread.toNat_lt
  have hw := p.nwrite.toNat_lt
  rw [length_buffered] at h
  generalize hn : (p.nwrite - p.nread).toNat = n at h
  rw [toNat_between] at hn
  have hlt : n < 512 := h
  have hpos : p.nwrite.toNat % pipeSize = (p.nread.toNat + n) % pipeSize := by
    unfold pipeSize
    omega
  have hlen : (p.nwrite + 1 - p.nread).toNat = n + 1 := by
    rw [UInt32.toNat_sub, UInt32.toNat_add, show (1 : UInt32).toNat = 1 from rfl]
    omega
  show window pipeSize (update p.data (p.nwrite.toNat % pipeSize) b) p.nread.toNat
    (p.nwrite + 1 - p.nread).toNat = _
  rw [hlen, hpos, window_push h]
  unfold Pipe.buffered
  rw [toNat_between, hn]

theorem take_buffered (h : p.nread ≠ p.nwrite) :
    p.buffered = p.front :: p.take.buffered := by
  have hr := p.nread.toNat_lt
  have hw := p.nwrite.toNat_lt
  rw [ne_eq, ← UInt32.toNat_inj] at h
  obtain ⟨n, hn⟩ : ∃ n, (p.nwrite - p.nread).toNat = n + 1 := by
    refine ⟨(p.nwrite - p.nread).toNat - 1, ?_⟩
    rw [toNat_between]
    omega
  have hless : (p.nwrite - (p.nread + 1)).toNat = n := by
    rw [toNat_between] at hn
    rw [UInt32.toNat_sub, UInt32.toNat_add, show (1 : UInt32).toNat = 1 from rfl]
    omega
  unfold Pipe.buffered
  rw [hn, window_pop]
  congr 1
  show _ = window pipeSize p.data (p.nread + 1).toNat (p.nwrite - (p.nread + 1)).toNat
  rw [hless, UInt32.toNat_add]
  exact (window_mod (by decide)).symm

-- ==== the stretches

/-- A stretch of `pipewrite` stores the next bytes of its buffer, as many as
there is room for. -/
structure Stores (p : Pipe) (i : Nat) (rest : List UInt8) (n : Nat)
    (r : Pipe × Nat × Stretch) : Prop where
  from_le : i ≤ r.2.1
  to_le : r.2.1 ≤ i + rest.length
  bytes : r.1.buffered = p.buffered ++ rest.take (r.2.1 - i)
  room : r.1.buffered.length ≤ pipeSize
  result : ∀ v, r.2.2 = .returns v → v = -1 ∨ v = n ∧ r.2.1 = i + rest.length

theorem pipewriteLoop_stores (killed : Bool) (rest : List UInt8)
    (h : p.buffered.length ≤ pipeSize) :
    Stores p i rest n (pipewriteLoop killed n p i rest) := by
  induction rest generalizing p i with
  | nil =>
    unfold pipewriteLoop
    exact ⟨Nat.le_refl _, Nat.le_refl _, by simp, h,
      fun v hv => .inr ⟨(Stretch.returns.inj hv).symm, rfl⟩⟩
  | cons b rest ih =>
    -- a stretch that goes no further has stored nothing more
    have hstop : ∀ e, (∀ v, e = Stretch.returns v → v = -1) →
        Stores p i (b :: rest) n (p, i, e) := by
      intro e he
      exact ⟨Nat.le_refl _, Nat.le_add_right .., by simp, h, fun v hv => .inl (he v hv)⟩
    unfold pipewriteLoop
    split
    next =>
      split
      next => exact hstop _ fun v hv => (Stretch.returns.inj hv).symm
      next => exact hstop _ nofun
    next hroom =>
      rw [full_iff] at hroom
      have hput := put_buffered (p := p) (by omega) b
      have hlen : (p.put b).buffered.length ≤ pipeSize := by
        rw [hput, length_append, length_singleton]
        omega
      obtain ⟨h1, h2, h3, h4, h5⟩ := ih (p := p.put b) (i := i + 1) hlen
      generalize pipewriteLoop killed n (p.put b) (i + 1) rest = r at h1 h2 h3 h4 h5
      obtain ⟨q, j, e⟩ := r
      dsimp only at h1 h2 h3 h4 h5
      refine ⟨by dsimp only; omega, ?_, ?_, h4, fun v hv => ?_⟩
      · rw [length_cons]
        dsimp only
        omega
      · dsimp only
        rw [h3, hput, show j - i = j - (i + 1) + 1 by omega, take_succ_cons,
          append_assoc]
        rfl
      · rcases h5 v hv with hv | ⟨hv, hj⟩
        · exact .inl hv
        · refine .inr ⟨hv, ?_⟩
          rw [length_cons]
          dsimp only
          omega

theorem pipereadCopy_takes (n : Nat) (p : Pipe) :
    p.buffered = (pipereadCopy n p).2 ++ (pipereadCopy n p).1.buffered := by
  induction n generalizing p with
  | zero => rfl
  | succ n ih =>
    unfold pipereadCopy
    split
    next => rfl
    next hne =>
      rw [take_buffered hne, cons_append, ← ih p.take]

theorem piperead_takes (killed : Bool) (n : Nat) (p : Pipe) :
    p.buffered = (piperead killed n p).2.1 ++ (piperead killed n p).1.buffered := by
  unfold piperead
  split
  next =>
    split
    next => rfl
    next => rfl
  next => exact pipereadCopy_takes n p

/-- `piperead` of some bytes returns 0 at the end of the stream only. -/
theorem piperead_zero (hn : 0 < n) (h : (piperead killed n p).2.2 = .returns 0) :
    p.buffered = [] ∧ p.writeopen = false := by
  unfold piperead at h
  split at h
  next =>
    split at h
    next => cases Stretch.returns.inj h
    next => cases h
  next hend =>
    have hnone : (pipereadCopy n p).2.length = 0 := by
      exact_mod_cast Stretch.returns.inj h
    have hempty : p.nread = p.nwrite := by
      by_contra hne
      obtain ⟨m, rfl⟩ := Nat.exists_eq_succ_of_ne_zero (Nat.pos_iff_ne_zero.mp hn)
      unfold pipereadCopy at hnone
      rw [if_neg hne] at hnone
      cases hnone
    refine ⟨empty_iff.mp hempty, ?_⟩
    rw [← Bool.not_eq_true]
    exact fun hopen => hend ⟨hempty, hopen⟩

-- ==== the system

/-- The bytes of a call that has not returned. -/
def Phase.sent : Phase → List UInt8
  | .writing addr i => addr.take i
  | _ => []

/-- The bytes process `c` has got into the pipe, call by call. -/
def Sys.sent (s : Sys) (c : Nat) : List UInt8 :=
  (s.past c).flatMap (fun w => w.addr.take w.i) ++ (s.phase c).sent

/-- The bytes of process `c` among those stored. -/
def Sys.own (s : Sys) (c : Nat) : List UInt8 :=
  (s.stored.filter fun x => x.1 = c).map Prod.snd

/-- A call that returned its length has stored all its bytes. -/
def Written.Whole (w : Written) : Prop :=
  w.result = -1 ∨ w.result = w.addr.length ∧ w.i = w.addr.length

structure Sys.Ok (s : Sys) : Prop where
  room : s.pipe.buffered.length ≤ pipeSize
  fifo : s.taken ++ s.pipe.buffered = s.stored.map Prod.snd
  own : ∀ c, s.own c = s.sent c
  within : ∀ c addr i, s.phase c = .writing addr i → i ≤ addr.length
  whole : ∀ c, ∀ w ∈ s.past c, w.Whole

theorem own_append (s : Sys) (c : Nat) (bytes : List UInt8) (d : Nat) :
    ((s.stored ++ bytes.map (Prod.mk c)).filter fun x => x.1 = d).map Prod.snd
      = s.own d ++ if d = c then bytes else [] := by
  rw [filter_append, map_append]
  congr 1
  split
  next heq =>
    subst heq
    rw [filter_eq_self.mpr (by simp), map_map]
    exact map_id bytes
  next hne =>
    rw [filter_eq_nil_iff.mpr (by simpa using fun _ _ => Ne.symm hne)]
    rfl

/-- A writer that had stored `i` bytes has stored `j`. -/
theorem take_append_slice (h : i ≤ j) :
    addr.take i ++ (addr.take j).drop i = addr.take j := by
  conv_rhs => rw [← take_append_drop i (addr.take j)]
  rw [take_take, Nat.min_eq_left h]

/-- A stretch of process `c` leaves the others as they are. -/
theorem Sys.Ok.stretch (h : s.Ok) (c : Nat) (hphase : ∀ d, d ≠ c → t.phase d = s.phase d)
    (hpast : ∀ d, d ≠ c → t.past d = s.past d) (howns : ∀ d, d ≠ c → t.own d = s.own d)
    (hroom : t.pipe.buffered.length ≤ pipeSize)
    (hfifo : t.taken ++ t.pipe.buffered = t.stored.map Prod.snd)
    (hown : t.own c = t.sent c)
    (hwithin : ∀ addr i, t.phase c = .writing addr i → i ≤ addr.length)
    (hwhole : ∀ w ∈ t.past c, w.Whole) : t.Ok := by
  refine ⟨hroom, hfifo, fun d => ?_, fun d addr i hd => ?_, fun d w hw => ?_⟩
  · by_cases hdc : d = c
    · rw [hdc]
      exact hown
    · unfold Sys.sent
      rw [howns d hdc, hphase d hdc, hpast d hdc]
      exact h.own d
  · by_cases hdc : d = c
    · subst hdc
      exact hwithin addr i hd
    · exact h.within d addr i (hphase d hdc ▸ hd)
  · by_cases hdc : d = c
    · subst hdc
      exact hwhole w hw
    · exact h.whole d w (hpast d hdc ▸ hw)

theorem Sys.Ok.write (h : s.Ok) (hsent : (s.phase c).sent = addr.take i)
    (hi : i ≤ addr.length) (killed : Bool) : (s.write c addr i killed).Ok := by
  have hst := pipewriteLoop_stores (i := i) (n := addr.length) killed
    (addr.drop i) h.room
  unfold Sys.write
  generalize pipewriteLoop killed addr.length s.pipe i (addr.drop i) = r at hst
  obtain ⟨q, j, e⟩ := r
  obtain ⟨hij, hj, hbytes, hroom, hres⟩ := hst
  dsimp only at hij hj hbytes hroom hres ⊢
  rw [length_drop] at hj hres
  have hfifo : s.taken ++ q.buffered
      = (s.stored ++ ((addr.take j).drop i).map (Prod.mk c)).map Prod.snd := by
    rw [hbytes, ← append_assoc, h.fifo, map_append, drop_take,
      map_map]
    exact congrArg _ (map_id _).symm
  have howns : ∀ d, d ≠ c → ((s.stored ++ ((addr.take j).drop i).map
      (Prod.mk c)).filter fun x => x.1 = d).map Prod.snd = s.own d := by
    intro d hd
    rw [own_append, if_neg hd, append_nil]
  have hown : ((s.stored ++ ((addr.take j).drop i).map (Prod.mk c)).filter
      fun x => x.1 = c).map Prod.snd
        = (s.past c).flatMap (fun w => w.addr.take w.i) ++ addr.take j := by
    rw [own_append, if_pos rfl, h.own c]
    unfold Sys.sent
    rw [hsent, append_assoc, take_append_slice hij]
  cases e with
  | sleeps =>
    refine h.stretch c (fun d hd => update_of_ne hd ..) (fun _ _ => rfl) howns hroom
      hfifo ?_ ?_ (h.whole c)
    · refine hown.trans ?_
      unfold Sys.sent
      dsimp only
      rw [update_self]
      rfl
    · intro addr' i' hd
      dsimp only at hd
      rw [update_self] at hd
      cases hd
      omega
  | returns v =>
    refine h.stretch c (fun d hd => update_of_ne hd ..) (fun d hd => update_of_ne hd ..)
      howns hroom hfifo ?_ ?_ ?_
    · refine hown.trans ?_
      unfold Sys.sent
      dsimp only
      rw [update_self, update_self, flatMap_append, flatMap_singleton]
      exact (append_nil _).symm
    · intro addr' i' hd
      dsimp only at hd
      rw [update_self] at hd
      cases hd
    · intro w hw
      dsimp only at hw
      rw [update_self, mem_append, mem_singleton] at hw
      rcases hw with hw | rfl
      · exact h.whole c w hw
      · rcases hres v rfl with hv | ⟨hv, hlen⟩
        · exact .inl hv
        · exact .inr ⟨hv, by dsimp only; omega⟩

theorem Sys.Ok.read (h : s.Ok) (hsent : (s.phase c).sent = []) (n : Nat)
    (killed : Bool) : (s.read c n killed).Ok := by
  have htakes := piperead_takes killed n s.pipe
  unfold Sys.read
  generalize piperead killed n s.pipe = r at htakes
  obtain ⟨q, bytes, e⟩ := r
  dsimp only at htakes ⊢
  have hroom : q.buffered.length ≤ pipeSize := by
    have hle := h.room
    rw [htakes, length_append] at hle
    omega
  have hfifo : s.taken ++ bytes ++ q.buffered = s.stored.map Prod.snd := by
    rw [append_assoc, ← htakes]
    exact h.fifo
  -- whether it sleeps or returns, a reader has stored nothing
  have hnone : ∀ X : Phase, X.sent = [] → (∀ addr i, X ≠ .writing addr i) →
      Sys.Ok { s with
        pipe := q, taken := s.taken ++ bytes, phase := update s.phase c X } := by
    intro X hX hreads
    refine h.stretch c (fun d hd => update_of_ne hd ..) (fun _ _ => rfl) (fun _ _ => rfl)
      hroom hfifo ?_ ?_ (h.whole c)
    · refine (h.own c).trans ?_
      unfold Sys.sent
      dsimp only
      rw [update_self, hX, hsent]
    · intro addr i hd
      dsimp only at hd
      rw [update_self] at hd
      exact absurd hd (hreads addr i)
  cases e with
  | sleeps => exact hnone _ rfl nofun
  | returns v => exact hnone _ rfl nofun

theorem Sys.Ok.step (h : s.Ok) {a : Act} (hstep : s.step a = some t) : t.Ok := by
  unfold Sys.step at hstep
  split at hstep
  next => cases hstep
  next =>
    cases a with
    | pipewrite c addr killed =>
      dsimp only at hstep
      split at hstep
      next hout =>
        cases hstep
        exact h.write (by rw [hout]; rfl) (Nat.zero_le _) killed
      next => cases hstep
    | piperead c n killed =>
      dsimp only at hstep
      split at hstep
      next hout =>
        cases hstep
        exact h.read (by rw [hout]; rfl) n killed
      next => cases hstep
    | wake c killed =>
      dsimp only at hstep
      split at hstep
      next => cases hstep
      next addr i hin =>
        cases hstep
        exact h.write (by rw [hin]; rfl) (h.within c addr i hin) killed
      next n hin =>
        cases hstep
        exact h.read (by rw [hin]; rfl) n killed
    | pipeclose writable =>
      cases hstep
      have hsame : (pipeclose s.pipe writable).buffered = s.pipe.buffered := by
        unfold pipeclose
        split <;> rfl
      exact ⟨hsame ▸ h.room, hsame ▸ h.fifo, h.own, h.within, h.whole⟩

/-- Whoever reads, writes and closes the pipe: it holds at most `PIPESIZE`
bytes, what was read followed by what is in it is what was stored, each
process's bytes among them in the order of its calls and whole for every
call that returned its length, and a read of some bytes returns 0 at the end
of the stream only. -/
theorem pipe_fifo (data : Nat → UInt8) (acts : List Act) (s : Sys)
    (h : runs Sys.step (Sys.init data) acts = some s) :
    (s.pipe.nwrite - s.pipe.nread).toNat ≤ pipeSize
      ∧ s.taken ++ s.pipe.buffered = s.stored.map Prod.snd
      ∧ (∀ c, s.own c = s.sent c) ∧ (∀ c, ∀ w ∈ s.past c, w.Whole)
      ∧ ∀ killed n, 0 < n → (piperead killed n s.pipe).2.2 = .returns 0 →
          s.pipe.nread = s.pipe.nwrite ∧ s.pipe.writeopen = false := by
  have hinit : (Sys.init data).Ok := by
    have hempty : (pipealloc data).buffered = [] := empty_iff.mp rfl
    refine ⟨?_, hempty, fun _ => rfl, nofun, nofun⟩
    show (pipealloc data).buffered.length ≤ pipeSize
    rw [hempty]
    exact Nat.zero_le _
  have hok : s.Ok := runs_invariant (fun _ _ _ hs => hs.step) hinit h
  refine ⟨length_buffered s.pipe ▸ hok.room, hok.fifo, hok.own, hok.whole, ?_⟩
  intro killed n hn hzero
  obtain ⟨hempty, hclosed⟩ := piperead_zero hn hzero
  exact ⟨empty_iff.mpr hempty, hclosed⟩

/-- A reader waits for two writers, and the second closes the pipe. -/
def twoWriters : List Act :=
  [.piperead 1 2 false, .pipewrite 0 [7, 8, 9] false, .wake 1 false,
    .pipewrite 2 [5] false, .pipeclose true]

theorem pipe_fifo_twoWriters :
    ∃ s, runs Sys.step (Sys.init fun _ => 1) twoWriters = some s
      ∧ s.taken = [7, 8] ∧ s.pipe.buffered = [9, 5] ∧ s.own 2 = [5] := by
  have hrun : (runs Sys.step (Sys.init fun _ => 1) twoWriters).map
      (fun s => (s.taken, s.stored, s.sent 2))
        = some ([7, 8], [(0, 7), (0, 8), (0, 9), (2, 5)], [5]) := by
    decide +kernel
  obtain ⟨s, hs, hvals⟩ := Option.map_eq_some_iff.mp hrun
  simp only [Prod.mk.injEq] at hvals
  obtain ⟨htaken, hstored, hsent⟩ := hvals
  obtain ⟨-, hfifo, hown, -, -⟩ := pipe_fifo (fun _ => 1) twoWriters s hs
  rw [htaken, hstored] at hfifo
  exact ⟨s, hs, htaken, append_cancel_left hfifo, (hown 2).trans hsent⟩

end Xv6FsServer.Pipes
