/-
Runs of a labelled transition function, and the induction they carry.

A machine is a partial step function `step : σ → α → Option σ`: `none`
is a label that is not enabled. `runs` folds it over a list of labels,
so a run is data (a schedule), and a closed run can be evaluated.

`Along step ok s as` says that every label of the schedule meets the
condition `ok` in the state it is taken in: the shape of "in every run
whose steps all meet the condition". `Along.invariant` is the one
induction every safety proof uses: what holds at the start and is kept
by each admitted step holds at the end; `Along.mono` turns an invariant
into a fact about every step of the run.
-/
import Mathlib.Logic.Basic

namespace Xv6FsServer.Lib

variable {σ α : Type*} {step : σ → α → Option σ}
variable {s' s : σ} {as bs : List α} {ok : σ → α → Prop}
variable {a : α} {t : σ} {I : σ → Prop} {ok' : σ → α → Prop}

/-- Run a schedule, failing on the first label that is not enabled. -/
def runs (step : σ → α → Option σ) : σ → List α → Option σ
  | s, [] => some s
  | s, a :: as =>
    match step s a with
    | some s' => runs step s' as
    | none => none

/-- Every label of the schedule meets `ok` in the state it is taken in. -/
def Along (step : σ → α → Option σ) (ok : σ → α → Prop) : σ → List α → Prop
  | _, [] => True
  | s, a :: as =>
    ok s a ∧
      match step s a with
      | some s' => Along step ok s' as
      | none => True

instance Along.decidable (ok : σ → α → Prop) [∀ s a, Decidable (ok s a)] :
    ∀ (s : σ) (as : List α), Decidable (Along step ok s as)
  | _, [] => inferInstanceAs (Decidable True)
  | s, a :: as =>
    match h : step s a with
    | some s' =>
      haveI := Along.decidable ok s' as
      decidable_of_iff (ok s a ∧ Along step ok s' as) (by
        simp only [Along, h])
    | none =>
      decidable_of_iff (ok s a) (by simp only [Along, h, and_true])

theorem runs_cons (h : runs step s (a :: as) = some s') :
    ∃ t, step s a = some t ∧ runs step t as = some s' := by
  unfold runs at h
  split at h
  next t ht => exact ⟨t, ht, h⟩
  next => cases h

theorem runs_step (h : step s a = some t) :
    runs step s (a :: as) = runs step t as := by
  simp only [runs, h]

theorem runs_append :
    runs step s (as ++ bs) = (runs step s as).bind fun t => runs step t bs := by
  induction as generalizing s with
  | nil => rfl
  | cons a as ih =>
    simp only [List.cons_append, runs]
    split
    next t ht => exact ih
    next => rfl

/-- A run over a concatenation passes through the middle state. -/
theorem runs_append_some (h : runs step s (as ++ bs) = some s') :
    ∃ t, runs step s as = some t ∧ runs step t bs = some s' := by
  rw [runs_append] at h
  exact Option.bind_eq_some_iff.mp h

theorem Along.cons (h : Along step ok s (a :: as)) (ht : step s a = some t) :
    ok s a ∧ Along step ok t as := by
  unfold Along at h
  rw [ht] at h
  exact h

/-- The condition holds along both halves of a schedule. -/
theorem Along.append (h : Along step ok s (as ++ bs)) (ht : runs step s as = some t) :
    Along step ok s as ∧ Along step ok t bs := by
  induction as generalizing s with
  | nil =>
    cases ht
    exact ⟨trivial, h⟩
  | cons a as ih =>
    obtain ⟨u, hu, hrest⟩ := runs_cons ht
    obtain ⟨hok, hal⟩ := h.cons hu
    obtain ⟨h1, h2⟩ := ih hal hrest
    refine ⟨?_, h2⟩
    unfold Along
    rw [hu]
    exact ⟨hok, h1⟩

/-- The safety induction: an invariant kept by every admitted step holds
wherever an admitted run ends. -/
theorem Along.invariant
    (hstep : ∀ s a s', I s → ok s a → step s a = some s' → I s') (h0 : I s)
    (hok : Along step ok s as) (hr : runs step s as = some s') : I s' := by
  induction as generalizing s with
  | nil =>
    cases hr
    exact h0
  | cons a as ih =>
    obtain ⟨t, ht, hrest⟩ := runs_cons hr
    obtain ⟨ha, hal⟩ := hok.cons ht
    exact ih (hstep s a t h0 ha ht) hal hrest

/-- An invariant of the admitted steps turns one step condition into
another along a run that is taken to its end. -/
theorem Along.mono (hstep : ∀ s a s', I s → ok s a → step s a = some s' → I s')
    (himp : ∀ s a s', I s → ok s a → step s a = some s' → ok' s a) (h0 : I s)
    (hok : Along step ok s as) (hr : runs step s as = some s') : Along step ok' s as := by
  induction as generalizing s with
  | nil => trivial
  | cons a as ih =>
    obtain ⟨t, ht, hrest⟩ := runs_cons hr
    obtain ⟨ha, hal⟩ := hok.cons ht
    unfold Along
    rw [ht]
    exact ⟨himp s a t h0 ha ht, ih (hstep s a t h0 ha ht) hal hrest⟩

theorem Along.and (h : Along step ok s as) (h' : Along step ok' s as) :
    Along step (fun s a => ok s a ∧ ok' s a) s as := by
  induction as generalizing s with
  | nil => trivial
  | cons a as ih =>
    unfold Along at h h' ⊢
    refine ⟨⟨h.1, h'.1⟩, ?_⟩
    split
    next t ht =>
      rw [ht] at h h'
      exact ih h.2 h'.2
    next => trivial

/-- A condition that the labels of the schedule meet in every state. -/
theorem Along.of_labels (h : ∀ a ∈ as, ∀ s, ok s a) (s : σ) : Along step ok s as := by
  induction as generalizing s with
  | nil => trivial
  | cons a as ih =>
    unfold Along
    refine ⟨h a (List.mem_cons_self ..) s, ?_⟩
    split
    next t _ => exact ih (fun b hb => h b (List.mem_cons_of_mem _ hb)) t
    next => trivial

/-- The same where every step keeps the invariant. -/
theorem runs_invariant (hstep : ∀ s a s', I s → step s a = some s' → I s')
    (h0 : I s) (hr : runs step s as = some s') : I s' :=
  Along.invariant (fun s a s' hs _ => hstep s a s' hs) h0
    (Along.of_labels (fun _ _ _ => trivial) s) hr

theorem runs_trans {u : σ} (h1 : runs step s as = some t) (h2 : runs step t bs = some u) :
    runs step s (as ++ bs) = some u := by
  rw [runs_append, h1]
  exact h2

end Xv6FsServer.Lib
