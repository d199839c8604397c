/-
The log's admission rule: how far `begin_op`'s reservation carries.

`begin_op` lets an operation in while
`lh.n + (outstanding + 1) * MAXOPBLOCKS ≤ LOGSIZE`, so the blocks already
logged and the shares the admitted operations have left never exceed
`LOGSIZE` together (`Reserved.shares`). That is the bound the rule was
written for, and it holds.

`log_write` asks for more. mkfs gives the log `nlog = LOGSIZE` blocks,
one of which is the header, so `log_write` panics as soon as
`lh.n ≥ log.size - 1`, one block before the reservation is used up: three
operations with a full share each reach the panic on the thirtieth block
(`overfull`). `log_admission` says exactly which runs are safe.
-/
import Xv6FsServer.Log.Proofs.Step
import Mathlib.Algebra.BigOperators.Group.Finset.Basic
import Mathlib.Algebra.Order.BigOperators.Group.Finset
import Mathlib.Algebra.Group.Action.Defs

namespace Xv6FsServer.Log

open Lib Function Finset

variable {g : Geometry} {d₀ : Disk} {s s' : State}
variable {p : Nat}

-- ==== the reservation

/-- The blocks the running operation has passed to `log_write`. -/
def OpPc.calls : OpPc → Finset Nat
  | .idle => ∅
  | .inOp _ calls => calls
  | .checked _ calls _ => calls

/-- What is left of the operation's `MAXOPBLOCKS`. -/
def OpPc.share (q : OpPc) : Nat := maxOpBlocks - q.calls.card

/-- Each operation calls `log_write` on at most `MAXOPBLOCKS` distinct
blocks. -/
def OpBudget (s : State) : Act → Prop
  | .check p b => (insert b (s.ops p).calls).card ≤ maxOpBlocks
  | _ => True

instance (s : State) : ∀ a, Decidable (OpBudget s a)
  | .check p b =>
    inferInstanceAs
      (Decidable ((insert b (s.ops p).calls).card ≤ maxOpBlocks))
  | .diskRequest _ _ | .begin _ | .append _ _ _ | .endOp _ | .tick | .load _
  | .evict _ | .crash => inferInstanceAs (Decidable True)

/-- The reservation: the logged blocks and the shares left to the
admitted operations fit in `LOGSIZE` together. -/
structure Reserved (s : State) : Prop where
  sub : ∀ p, ∀ b ∈ (s.ops p).calls, b ∈ s.lh
  planned : ∀ p id calls b, s.ops p = .checked id calls b →
    (insert b calls).card ≤ maxOpBlocks
  shares : ∃ A : Finset Nat, (∀ p, p ∈ A ↔ s.ops p ≠ .idle)
    ∧ s.lh.length + ∑ p ∈ A, (s.ops p).share ≤ logSize

theorem OpPc.share_le (q : OpPc) : q.share ≤ maxOpBlocks := Nat.sub_le ..

/-- Steps that leave the log and the operations alone keep the
reservation. -/
theorem Reserved.congr (h : Reserved s) (hlh : s'.lh = s.lh)
    (hops : s'.ops = s.ops) : Reserved s' := by
  refine ⟨?_, ?_, ?_⟩
  · rw [hlh, hops]
    exact h.sub
  · rw [hops]
    exact h.planned
  · rw [hlh, hops]
    exact h.shares

/-- With no operation running, only the log itself counts. -/
theorem Reserved.of_idle (hidle : ∀ p, s.ops p = .idle)
    (hlen : s.lh.length ≤ logSize) : Reserved s := by
  refine ⟨?_, ?_, ∅, ?_, ?_⟩
  · intro p b hb
    rw [hidle p] at hb
    exact absurd hb (notMem_empty b)
  · intro p id calls b hq
    cases (hidle p).symm.trans hq
  · intro p
    rw [hidle p]
    simp
  · rw [sum_empty]
    exact hlen

/-- One process comes to `q`, and the shares fit beside the new log. -/
private theorem Reserved.change {q : OpPc} (h : Reserved s)
    (hops : s'.ops = update s.ops p q) (hgrow : ∀ b ∈ s.lh, b ∈ s'.lh)
    (hcalls : ∀ b ∈ q.calls, b ∈ s'.lh)
    (hplan : ∀ id calls b, q = .checked id calls b →
      (insert b calls).card ≤ maxOpBlocks)
    (hshares : ∃ A : Finset Nat, (∀ x, x ∈ A ↔ s'.ops x ≠ .idle)
      ∧ s'.lh.length + ∑ x ∈ A, (s'.ops x).share ≤ logSize) : Reserved s' := by
  refine ⟨?_, ?_, hshares⟩
  · intro x b hb
    rw [hops] at hb
    by_cases hx : x = p
    · subst hx
      rw [update_self] at hb
      exact hcalls b hb
    · rw [update_of_ne hx] at hb
      exact hgrow b (h.sub x b hb)
  · intro x id calls b hx'
    rw [hops] at hx'
    by_cases hx : x = p
    · subst hx
      rw [update_self] at hx'
      exact hplan id calls b hx'
    · rw [update_of_ne hx] at hx'
      exact h.planned x id calls b hx'

/-- The shares of the other processes. -/
private theorem sum_others {q : OpPc} {A : Finset Nat}
    (hops : s'.ops = update s.ops p q) (hp : p ∉ A) :
    ∑ x ∈ A, (s'.ops x).share = ∑ x ∈ A, (s.ops x).share := by
  refine sum_congr rfl fun x hx => ?_
  rw [hops, update_of_ne (ne_of_mem_of_not_mem hx hp)]

/-- One process moves on: its new share and the new log take no more
than its old share and the old log did. -/
private theorem Reserved.move {q : OpPc} (h : Reserved s)
    (hact : s.ops p ≠ .idle) (hq : q ≠ .idle) (hops : s'.ops = update s.ops p q)
    (hgrow : ∀ b ∈ s.lh, b ∈ s'.lh) (hcalls : ∀ b ∈ q.calls, b ∈ s'.lh)
    (hplan : ∀ id calls b, q = .checked id calls b →
      (insert b calls).card ≤ maxOpBlocks)
    (hle : s'.lh.length + q.share ≤ s.lh.length + (s.ops p).share) :
    Reserved s' := by
  obtain ⟨A, hA, hsum⟩ := h.shares
  have hpA : p ∈ A := (hA p).mpr hact
  refine h.change hops hgrow hcalls hplan ⟨A, fun x => ?_, ?_⟩
  · rw [hops]
    by_cases hx : x = p
    · subst hx
      rw [update_self]
      exact iff_of_true hpA hq
    · rw [update_of_ne hx]
      exact hA x
  · have hrest := sum_others hops (A := A.erase p) (notMem_erase p A)
    have hself : (s'.ops p).share = q.share := by
      rw [hops, update_self]
    have h1 := add_sum_erase A (fun x => (s'.ops x).share) hpA
    have h2 := add_sum_erase A (fun x => (s.ops x).share) hpA
    omega

-- ==== the step lemmas

/-- An operation is let in: every admitted one counts with a full share
at most. -/
theorem reserved_enter (h : Reserved s) (hi : OpsInv g s) (hidle : s.ops p = .idle)
    (hroom : ¬ s.lh.length + (s.outstanding + 1) * maxOpBlocks > logSize) :
    Reserved { s with
      outstanding := s.outstanding + 1
      ops := update s.ops p (.inOp s.nextOp ∅)
      nextOp := s.nextOp + 1 } := by
  obtain ⟨A, hA, -⟩ := h.shares
  obtain ⟨B, hB, hcard⟩ := hi.count
  have hAB : B = A := by
    ext x
    rw [hA x, hB x]
  rw [hAB] at hcard
  have hpA : p ∉ A := fun hp => (hA p).mp hp hidle
  refine h.change (p := p) rfl (fun _ hb => hb) (by simp [OpPc.calls]) (by simp)
    ⟨insert p A, fun x => ?_, ?_⟩
  · by_cases hx : x = p
    · subst hx
      simp
    · simp only [mem_insert, hx, false_or, update_of_ne hx]
      exact hA x
  · have hle : ∀ x ∈ insert p A,
        (update s.ops p (.inOp s.nextOp ∅) x).share ≤ maxOpBlocks :=
      fun x _ => OpPc.share_le _
    have hsum := sum_le_card_nsmul _ _ _ hle
    rw [card_insert_of_notMem hpA, hcard, smul_eq_mul] at hsum
    show s.lh.length + ∑ x ∈ insert p A,
      (update s.ops p (.inOp s.nextOp ∅) x).share ≤ logSize
    omega

theorem reserved_check {b id : Nat} {calls : Finset Nat} (h : Reserved s)
    (hop : s.ops p = .inOp id calls) (hb : OpBudget s (.check p b)) :
    Reserved { s with ops := update s.ops p (.checked id calls b) } := by
  simp only [OpBudget, hop] at hb
  have hsub := h.sub p
  rw [hop] at hsub
  refine h.move (p := p) (by rw [hop]; simp) ?_ rfl (fun x hx => hx) hsub ?_ ?_
  · simp
  · intro id' calls' b' hq
    cases hq
    exact hb
  · rw [hop]
    exact Nat.le_refl _

/-- An appended block is new to the log, so it is new to the operation
too, and comes out of its share. -/
theorem reserved_append {b id : Nat} {calls : Finset Nat} (h : Reserved s)
    (hop : s.ops p = .checked id calls b) (hlh : s'.lh = absorb s.lh b)
    (hops : s'.ops = update s.ops p (.inOp id (insert b calls))) :
    Reserved s' := by
  have hplan := h.planned p id calls b hop
  have hsub : ∀ x ∈ calls, x ∈ s.lh := by
    have := h.sub p
    rw [hop] at this
    exact this
  refine h.move (p := p) (by rw [hop]; simp) ?_ hops
    (fun x hx => hlh ▸ mem_absorb.mpr (Or.inl hx)) ?_ ?_ ?_
  · simp
  · intro x hx
    rw [hlh]
    rcases mem_insert.mp hx with rfl | hx
    · exact mem_absorb.mpr (Or.inr rfl)
    · exact mem_absorb.mpr (Or.inl (hsub x hx))
  · intro id' calls' b'' hq
    cases hq
  · rw [hop, hlh]
    show (absorb s.lh b).length + (maxOpBlocks - (insert b calls).card)
      ≤ s.lh.length + (maxOpBlocks - calls.card)
    unfold absorb
    split
    next =>
      have := card_le_card (subset_insert b calls)
      omega
    next hnew =>
      have hfresh : b ∉ calls := fun hc => hnew (hsub b hc)
      rw [card_insert_of_notMem hfresh] at hplan ⊢
      rw [List.length_append, List.length_singleton]
      omega

/-- A finished operation gives its share back. -/
theorem reserved_leave (h : Reserved s) (hact : s.ops p ≠ .idle)
    (hops : s'.ops = update s.ops p .idle) (hlh : s'.lh = s.lh) :
    Reserved s' := by
  obtain ⟨A, hA, hsum⟩ := h.shares
  have hpA : p ∈ A := (hA p).mpr hact
  refine h.change hops (fun _ hb => hlh ▸ hb) (by simp [OpPc.calls]) (by simp)
    ⟨A.erase p, fun x => ?_, ?_⟩
  · rw [hops]
    by_cases hx : x = p
    · subst hx
      rw [update_self]
      simp
    · rw [update_of_ne hx, mem_erase, hA x]
      simp [hx]
  · have h2 := add_sum_erase A (fun x => (s.ops x).share) hpA
    rw [sum_others hops (notMem_erase p A), hlh]
    omega

theorem reserved_powerOn (d : Disk) : Reserved (powerOn d) :=
  Reserved.of_idle (fun _ => rfl) (Nat.zero_le _)

theorem reserved_step (hsize : g.size = logSize) {a : Act} (h : Reserved s)
    (hi : Inv g d₀ s) (hk : KernelOnly g s a) (hb : OpBudget s a)
    (hs : step g s a = some s') : Reserved s' := by
  have hi' := inv_step hsize hi hk hs
  -- `commit()` and recovery run with no operation inside
  have hidle : s.pc ≠ none → ∀ p, s.ops p = .idle :=
    fun hpc => (hi.ops.alone hpc).1
  cases step_eff hs with
  | entered hfree _ _ hroom => exact reserved_enter h hi.ops hfree hroom
  | checked hop => exact reserved_check h hop hb
  | appended hop => exact reserved_append h hop rfl rfl
  | last hop | left hop =>
    exact reserved_leave h (by rw [hop]; simp) rfl rfl
  | readHead hpc =>
    -- recovery reads a header the log has room for
    refine Reserved.of_idle (hidle (by rw [hpc]; simp)) ?_
    have hlen := hi'.phase.replay.len
    exact hsize ▸ Nat.le_of_lt hlen
  | installed hpc =>
    exact Reserved.of_idle (hidle (by rw [hpc]; simp)) (Nat.zero_le _)
  | crashed => exact Reserved.of_idle (fun _ => rfl) (Nat.zero_le _)
  | _ => exact h.congr rfl rfl

-- ==== the exact bound

/-- The log block a step writes or reads. -/
def slotUsed (g : Geometry) (s : State) : Act → Option Nat
  | .tick =>
    match s.pc with
    | some (.writeLog tail) | some (.install tail) =>
      if tail < s.lh.length then some (g.start + tail + 1) else none
    | _ => none
  | _ => none

/-- The step does not reach `panic("too big a transaction")`, and the log
block it uses lies inside the log. -/
def FitsLog (g : Geometry) (s : State) (a : Act) : Prop :=
  (∀ s', step g s a = some s' → s'.panicked ≠ some .tooBig)
    ∧ ∀ x, slotUsed g s a = some x → g.start + 1 ≤ x ∧ x < g.start + g.size

/-- `log_write` is called with fewer than `LOGSIZE - 1` distinct blocks
logged since the last commit. -/
def Underfull (s : State) : Act → Prop
  | .check _ _ => (tally s).card < logSize - 1
  | _ => True

instance (s : State) : ∀ a, Decidable (Underfull s a)
  | .check _ _ => inferInstanceAs (Decidable ((tally s).card < logSize - 1))
  | .diskRequest _ _ | .begin _ | .append _ _ _ | .endOp _ | .tick | .load _
  | .evict _ | .crash => inferInstanceAs (Decidable True)

/-- In the open phase the header lists the distinct blocks logged. -/
theorem tally_card (ho : OpenInv g d₀ s) : (tally s).card = s.lh.length := by
  have heq : tally s = s.lh.toFinset := by
    ext b
    unfold tally
    rw [List.mem_toFinset, List.mem_toFinset, ho.logged b]
  rw [heq, List.toFinset_card_of_nodup ho.nodup]

/-- The distinct blocks logged never pass the reservation. -/
theorem tally_le (hi : Inv g d₀ s) (h : Reserved s) :
    (tally s).card ≤ logSize := by
  obtain ⟨A, -, hsum⟩ := h.shares
  have hlh : s.lh.length ≤ logSize := by omega
  have hempty : s.group = [] → (tally s).card ≤ logSize := by
    intro hg
    unfold tally
    rw [hg]
    exact Nat.zero_le _
  have hph := hi.phase
  unfold Phase at hph
  split at hph
  · rw [tally_card hph]
    exact hlh
  · exact hempty hph.1.group
  · rw [tally_card hph.1]
    exact hlh
  · rw [tally_card hph.1]
    exact hlh
  · exact hempty hph.group
  · exact hempty hph.1.group
  · rw [tally_card hph.1]
    exact hlh

/-- No log block outside the log is ever used: by the time `write_log`
has a buffer for its first log block, the group is small enough. -/
theorem slotUsed_inside (hsize : g.size = logSize) (hi : Inv g d₀ s)
    {a : Act} {x : Nat} (hx : slotUsed g s a = some x) :
    g.start + 1 ≤ x ∧ x < g.start + g.size := by
  have hnb : nbuf = logSize := rfl
  have hls : 1 < logSize := by decide
  have hph := hi.phase
  unfold Phase at hph
  cases a with
  | tick =>
    simp only [slotUsed] at hx
    split at hx
    next tail hpc =>
      rw [hpc] at hph
      split at hx
      next hlt =>
        cases hx
        rcases Nat.eq_zero_or_pos tail with h0 | h0
        · omega
        · have := hph.2.2 h0
          omega
      next => cases hx
    next tail hpc =>
      rw [hpc] at hph
      split at hx
      next hlt =>
        cases hx
        have := hph.replay.len
        omega
      next => cases hx
    next => cases hx
  | _ => cases hx

/-- The panic is taken exactly by a call of `log_write` that finds no slot
left beside the header. -/
theorem tooBig_iff (hsize : g.size = logSize) {a : Act}
    (hp : s.panicked = none) (he : Eff g s a s') :
    s'.panicked = some .tooBig
      ↔ (∃ p b, a = .check p b) ∧ logSize - 1 ≤ s.lh.length := by
  cases he with
  | @tooBig p b _ _ _ hfull => exact iff_of_true rfl ⟨⟨p, b, rfl⟩, by omega⟩
  | outside _ hroom | checked _ _ hroom =>
    refine iff_of_false (by simp [hp]) fun h => ?_
    omega
  | _ => exact iff_of_false (by simp [hp, bwrite, crash, powerOn]) (by simp)

/-- One step fits the log exactly when it is no call of `log_write` on a
full group. -/
theorem fitsLog_iff_underfull (hsize : g.size = logSize) (hi : Inv g d₀ s)
    {a : Act} (hs : step g s a = some s') :
    FitsLog g s a ↔ Underfull s a := by
  have hslot : ∀ x, slotUsed g s a = some x →
      g.start + 1 ≤ x ∧ x < g.start + g.size :=
    fun x => slotUsed_inside hsize hi
  unfold FitsLog
  rw [and_iff_left hslot, hs]
  have hone : (∀ t, some s' = some t → t.panicked ≠ some .tooBig)
      ↔ s'.panicked ≠ some .tooBig :=
    ⟨fun h => h s' rfl, fun h t ht => Option.some.inj ht ▸ h⟩
  rw [hone]
  have hp : a.isCrash = false → s.panicked = none := by
    intro hc
    unfold step at hs
    split at hs
    next hcond =>
      rcases hcond with hp | hp
      · exact hp
      · rw [hc] at hp
        cases hp
    next => cases hs
  cases a with
  | check p b =>
    -- the caller is inside an operation, so the phase is open
    have hact : s.ops p ≠ .idle := by
      intro hidle
      have hlive := live_of_step hs
      simp only [live, logCheck, hidle] at hlive
      cases hlive
    have htally := tally_card (hi.open_of_active hact).2
    show _ ↔ (tally s).card < logSize - 1
    rw [Ne, tooBig_iff hsize (hp rfl) (step_eff hs), htally]
    simp only [Act.check.injEq, exists_and_left, exists_eq', and_true, true_and]
    omega
  | crash =>
    cases live_of_step hs
    exact iff_of_true (by simp [crash, powerOn]) trivial
  | _ =>
    refine iff_of_true ?_ trivial
    rw [Ne, tooBig_iff hsize (hp rfl) (step_eff hs)]
    simp

-- ==== the theorem

/-- What the admission rule achieves, and where it stops short. In every
run whose operations keep to `MAXOPBLOCKS` distinct blocks each, at most
`LOGSIZE` distinct blocks are logged between two commits; and the run
stays clear of the panic and inside the log exactly if every `log_write`
in it is called with fewer than `LOGSIZE - 1` of them logged. -/
theorem log_admission (g : Geometry) (hsize : g.size = logSize) (d₀ : Disk)
    (hd : getHead (d₀ g.start) = []) (acts : List Act) (s : State)
    (hk : Along (step g) (KernelOnly g) (powerOn d₀) acts)
    (hb : Along (step g) OpBudget (powerOn d₀) acts)
    (hr : runs (step g) (powerOn d₀) acts = some s) :
    (tally s).card ≤ logSize
      ∧ (Along (step g) (FitsLog g) (powerOn d₀) acts
        ↔ Along (step g) Underfull (powerOn d₀) acts) := by
  have hi0 := inv_powerOn hsize hd
  constructor
  · have hend : Inv g d₀ s ∧ Reserved s :=
      Along.invariant (I := fun s => Inv g d₀ s ∧ Reserved s)
        (fun _ _ _ h hok hst => ⟨inv_step hsize h.1 hok.1 hst,
          reserved_step hsize h.2 h.1 hok.1 hok.2 hst⟩)
        ⟨hi0, reserved_powerOn d₀⟩ (hk.and hb) hr
    exact tally_le hend.1 hend.2
  · constructor
    · intro hf
      exact Along.mono (I := Inv g d₀)
        (fun _ _ _ h hok hst => inv_step hsize h hok.1 hst)
        (fun _ _ _ h hok hst => (fitsLog_iff_underfull hsize h hst).mp hok.2)
        hi0 (hk.and hf) hr
    · intro hu
      exact Along.mono (I := Inv g d₀)
        (fun _ _ _ h hok hst => inv_step hsize h hok.1 hst)
        (fun _ _ _ h hok hst => (fitsLog_iff_underfull hsize h hst).mpr hok.2)
        hi0 (hk.and hu) hr

/-- Boot, three operations, and one `log_write` of a block of its own for
each `i < n`, ten to an operation. -/
def threeOps (n : Nat) : List Act :=
  [.load 2, .tick, .tick, .tick, .tick, .begin 0, .begin 1, .begin 2]
    ++ (List.range n).flatMap fun i =>
      [.load (60 + i), .check (i / maxOpBlocks) (60 + i),
        .append (i / maxOpBlocks) (60 + i) id]

/-- Twelve blocks by two of the operations: the run is safe. -/
theorem log_admission_twelve :
    ∃ s, runs (step ⟨2, logSize⟩) (powerOn fun _ => Bytes.zero) (threeOps 12)
        = some s
      ∧ (tally s).card ≤ logSize
      ∧ Along (step ⟨2, logSize⟩) (FitsLog ⟨2, logSize⟩)
        (powerOn fun _ => Bytes.zero) (threeOps 12) := by
  have heval : (runs (step ⟨2, logSize⟩) (powerOn fun _ => Bytes.zero)
      (threeOps 12)).isSome = true := by decide +kernel
  obtain ⟨s, hs⟩ := Option.isSome_iff_exists.mp heval
  obtain ⟨hle, hiff⟩ := log_admission ⟨2, logSize⟩ rfl _ (by decide)
    (threeOps 12) s (by decide +kernel) (by decide +kernel) hs
  exact ⟨s, hs, hle, hiff.mpr (by decide +kernel)⟩

/-- Three operations of ten blocks each, all within the rules, panic on
the thirtieth block. -/
theorem overfull :
    Along (step ⟨2, logSize⟩) (KernelOnly ⟨2, logSize⟩)
        (powerOn fun _ => Bytes.zero) (threeOps 29 ++ [.check 2 89])
      ∧ Along (step ⟨2, logSize⟩) OpBudget (powerOn fun _ => Bytes.zero)
        (threeOps 29 ++ [.check 2 89])
      ∧ (runs (step ⟨2, logSize⟩) (powerOn fun _ => Bytes.zero)
        (threeOps 29 ++ [.check 2 89])).map State.panicked
          = some (some .tooBig) := by
  decide +kernel

end Xv6FsServer.Log
