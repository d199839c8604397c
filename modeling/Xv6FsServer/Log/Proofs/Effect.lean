/-
What each step of the log does, said once (`step_eff`).

`Eff g s a s'` lists the ways a step can go, with the guards it passed
and the state it leads to. Every invariant of the log is proved by cases
over it; none unfolds the step function again.
-/
import Xv6FsServer.Log.Model

namespace Xv6FsServer.Log

open Lib

variable {g : Geometry} {s s' : State}

/-- The steps of the log, by what they do. `slept` and the panics are steps
too. -/
inductive Eff (g : Geometry) (s : State) : Act → State → Prop
  | slept (p : Nat) : Eff g s (.begin p) s
  | entered {p : Nat} (hidle : s.ops p = .idle) (hboot : s.booted = true)
      (hcom : ¬ s.committing = true)
      (hroom : ¬ s.lh.length + (s.outstanding + 1) * maxOpBlocks > logSize) :
      Eff g s (.begin p) { s with
        outstanding := s.outstanding + 1
        ops := Function.update s.ops p (.inOp s.nextOp ∅)
        nextOp := s.nextOp + 1 }
  | tooBig {p b id calls} (hop : s.ops p = .inOp id calls)
      (hfull : s.lh.length ≥ logSize ∨ s.lh.length ≥ g.size - 1) :
      Eff g s (.check p b) { s with panicked := some .tooBig }
  | outside {p b id calls} (hop : s.ops p = .inOp id calls)
      (hroom : ¬ (s.lh.length ≥ logSize ∨ s.lh.length ≥ g.size - 1)) :
      Eff g s (.check p b) { s with panicked := some .outsideOfTrans }
  | checked {p b id calls} (hop : s.ops p = .inOp id calls)
      (hb : b < 4294967296)
      (hroom : ¬ (s.lh.length ≥ logSize ∨ s.lh.length ≥ g.size - 1)) :
      Eff g s (.check p b)
        { s with ops := Function.update s.ops p (.checked id calls b) }
  | appended {p b f id calls} (hop : s.ops p = .checked id calls b)
      (hin : b ∈ s.cached) :
      Eff g s (.append p b f) { s with
        lh := absorb s.lh b
        bdata := Function.update s.bdata b (f (s.bdata b))
        dirty := insert b s.dirty
        ops := Function.update s.ops p (.inOp id (insert b calls))
        group := s.group ++ [⟨id, b, f (s.bdata b)⟩]
        ledger := s.ledger ++ [⟨id, b, f (s.bdata b)⟩] }
  | endPanic (p : Nat) :
      Eff g s (.endOp p) { s with panicked := some .committing }
  | last {p id calls} (hop : s.ops p = .inOp id calls)
      (hlast : s.outstanding - 1 = 0) :
      Eff g s (.endOp p) { s with
        outstanding := 0
        committing := true
        ops := Function.update s.ops p .idle
        pc := some (if s.lh = [] then .finish else .writeLog 0) }
  | left {p id calls} (hop : s.ops p = .inOp id calls) :
      Eff g s (.endOp p) { s with
        outstanding := s.outstanding - 1
        ops := Function.update s.ops p .idle }
  | readHead (hpc : s.pc = some .readHead) (hin : g.start ∈ s.cached) :
      Eff g s .tick
        { s with lh := getHead (s.bdata g.start), pc := some (.install 0) }
  | writeLog {k b} (hpc : s.pc = some (.writeLog k)) (hb : s.lh[k]? = some b)
      (hslot : g.start + k + 1 ∈ s.cached) (hin : b ∈ s.cached) :
      Eff g s .tick { bwrite s (g.start + k + 1) (s.bdata b) with
        pc := some (.writeLog (k + 1)) }
  | copied {k} (hpc : s.pc = some (.writeLog k)) (hb : s.lh[k]? = none) :
      Eff g s .tick { s with pc := some .writeHead }
  | writeHead (hpc : s.pc = some .writeHead) :
      Eff g s .tick { bwrite s g.start (putHead s.lh (s.bdata g.start)) with
        pc := some (.install 0)
        groups := s.groups ++ [s.group]
        group := [] }
  | install {k b} (hpc : s.pc = some (.install k)) (hb : s.lh[k]? = some b)
      (hslot : g.start + k + 1 ∈ s.cached) :
      Eff g s .tick { bwrite s b (s.bdata (g.start + k + 1)) with
        pc := some (.install (k + 1)) }
  | installed {k} (hpc : s.pc = some (.install k)) (hb : s.lh[k]? = none) :
      Eff g s .tick { s with lh := [], pc := some .eraseHead }
  | eraseHead (hpc : s.pc = some .eraseHead) :
      Eff g s .tick { bwrite s g.start (putHead s.lh (s.bdata g.start)) with
        pc := some .finish }
  | finish (hpc : s.pc = some .finish) :
      Eff g s .tick { s with committing := false, booted := true, pc := none }
  | loaded {b} (hb : b ∉ s.cached) (hroom : s.cached.card < nbuf) :
      Eff g s (.load b) { s with
        cached := insert b s.cached
        bdata := Function.update s.bdata b (s.disk b) }
  | noBuffers (b : Nat) :
      Eff g s (.load b) { s with panicked := some .noBuffers }
  | evicted {b} (hb : b ∉ s.dirty) :
      Eff g s (.evict b) { s with cached := s.cached.erase b }
  | requested {sector buf} (hboot : s.booted = true) :
      Eff g s (.diskRequest sector buf) (bwrite s sector buf)
  | crashed : Eff g s .crash (crash s)

-- ==== the inversion

/-- `begin_op` sleeps during a commit and when the log might fill up. -/
theorem beginOp_eff {p : Nat} (h : beginOp p s = some s') :
    Eff g s (.begin p) s' := by
  unfold beginOp at h
  split at h
  next hidle =>
    split at h
    next hboot =>
      split at h
      next =>
        cases h
        exact .slept p
      next hcom =>
        split at h
        next =>
          cases h
          exact .slept p
        next hroom =>
          cases h
          exact .entered hidle hboot hcom hroom
    next => cases h
  next => cases h

/-- The two panics of `log_write` come before it touches the log. -/
theorem logCheck_eff {p b : Nat} (h : logCheck g p b s = some s') :
    Eff g s (.check p b) s' := by
  unfold logCheck at h
  split at h
  next id calls hop =>
    split at h
    next hb =>
      split at h
      next hfull =>
        cases h
        exact .tooBig hop hfull
      next hroom =>
        split at h
        next =>
          cases h
          exact .outside hop hroom
        next =>
          cases h
          exact .checked hop hb hroom
    next => cases h
  next => cases h

/-- The rest of `log_write`: one entry a block, and the buffer is dirty. -/
theorem logAppend_eff {p b : Nat} {f : Block → Block}
    (h : logAppend p b f s = some s') : Eff g s (.append p b f) s' := by
  unfold logAppend at h
  split at h
  next id calls b' hop =>
    split at h
    next hcond =>
      obtain ⟨rfl, hin⟩ := hcond
      cases h
      exact .appended hop hin
    next => cases h
  next => cases h

/-- The last operation out commits. -/
theorem endOp_eff {p : Nat} (h : endOp p s = some s') :
    Eff g s (.endOp p) s' := by
  unfold endOp at h
  split at h
  next id calls hop =>
    split at h
    next =>
      cases h
      exact .endPanic p
    next =>
      split at h
      next hlast =>
        cases h
        exact .last hop hlast
      next =>
        cases h
        exact .left hop
  next => cases h

/-- `commit`, and recovery, write by write. -/
theorem tick_eff (h : tick g s = some s') : Eff g s .tick s' := by
  unfold tick at h
  split at h
  next => cases h
  next hpc =>
    split at h
    next hin =>
      cases h
      exact .readHead hpc hin
    next => cases h
  next k hpc =>
    split at h
    next b hb =>
      split at h
      next hin =>
        cases h
        exact .writeLog hpc hb hin.1 hin.2
      next => cases h
    next hb =>
      cases h
      exact .copied hpc hb
  next hpc =>
    split at h
    next =>
      cases h
      exact .writeHead hpc
    next => cases h
  next k hpc =>
    split at h
    next b hb =>
      split at h
      next hin =>
        cases h
        exact .install hpc hb hin.1
      next => cases h
    next hb =>
      cases h
      exact .installed hpc hb
  next hpc =>
    split at h
    next =>
      cases h
      exact .eraseHead hpc
    next => cases h
  next hpc =>
    cases h
    exact .finish hpc

/-- A full cache without a clean buffer is a panic. -/
theorem load_eff {b : Nat} (h : load b s = some s') : Eff g s (.load b) s' := by
  unfold load at h
  split at h
  next => cases h
  next hb =>
    split at h
    next hroom =>
      cases h
      exact .loaded hb hroom
    next =>
      split at h
      next =>
        cases h
        exact .noBuffers b
      next => cases h

/-- Every step is one of these. -/
theorem step_eff {a : Act} (h : step g s a = some s') : Eff g s a s' := by
  have hl := live_of_step h
  cases a with
  | begin p => exact beginOp_eff hl
  | check p b => exact logCheck_eff hl
  | append p b f => exact logAppend_eff hl
  | endOp p => exact endOp_eff hl
  | tick => exact tick_eff hl
  | load b => exact load_eff hl
  | evict b =>
    simp only [live, evict] at hl
    split at hl
    next hb =>
      cases hl
      exact .evicted hb.2
    next => cases hl
  | diskRequest sector buf =>
    simp only [live, diskRequest] at hl
    split at hl
    next hcond =>
      cases hl
      exact .requested hcond.1
    next => cases hl
  | crash =>
    cases hl
    exact .crashed

end Xv6FsServer.Log
