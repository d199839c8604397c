/-
Programs over a state that may stop with a fault, and what can be said of
their runs.

`Ends x s Q` is total correctness: started in `s`, the program `x` does
not fault, and `Q` holds of what it returns and of the state it leaves. A
program is a function, so `Ends` determines its run (`Ends.elim`).
`Meets F x s Q` allows for a fault: `Q` holds if the program returns, and
`F` of the fault and the state in which it stops otherwise. With `F` always
true it is partial correctness; `Leaves` speaks of the state only and `Safe`
of the fault only. `Within r x` bounds what `x` can do to any state by a
preorder `r`.

The rules follow the program text: `seq` goes on from a callee's
specification, `get_bind` and `modify_bind` from a look at the state or a
change of it, and `mono` uses a specification where the caller wants less.
-/
import Mathlib.Order.Defs.Unbundled

namespace Xv6FsServer.Lib

/-- A program over the state `σ` with the faults `ε`. A fault keeps the
state in which it happened. -/
abbrev Prog (σ ε α : Type) : Type := ExceptT ε (StateM σ) α

variable {σ ε α β : Type} {s t : σ}
variable {a : α} {Q : α → σ → Prop}

/-- The run of a program from a state: what it returns or how it stops,
and the state it leaves. -/
def exec (x : Prog σ ε α) (s : σ) : Except ε α × σ := (ExceptT.run x).run s

/-- The rest of a program runs where its first part left off. -/
theorem exec_bind (x : Prog σ ε α) (f : α → Prog σ ε β) (s : σ) :
    exec (x >>= f) s =
      match exec x s with
      | (.ok a, t) => exec (f a) t
      | (.error e, t) => (.error e, t) := by
  show (match exec x s with
    | (r, t) => (ExceptT.bindCont f r : StateM σ (Except ε β)).run t) = _
  generalize exec x s = p
  obtain ⟨r, t⟩ := p
  cases r <;> rfl

-- ==== the outcome of a run

variable {x : Prog σ ε α} {f : α → Prog σ ε β}

/-- If `x` returns, its result and state satisfy `Q`; if it faults, the
fault and the state it stops in satisfy `F`. -/
def Meets (F : ε → σ → Prop) (x : Prog σ ε α) (s : σ) (Q : α → σ → Prop) : Prop :=
  match exec x s with
  | (.ok a, t) => Q a t
  | (.error e, t) => F e t

/-- `x` ends without a fault, in a result and a state that satisfy `Q`. -/
abbrev Ends (x : Prog σ ε α) (s : σ) (Q : α → σ → Prop) : Prop :=
  Meets (fun _ _ => False) x s Q

/-- If `x` faults, the state it stops in satisfies `I`. -/
abbrev Leaves (I : σ → Prop) (x : Prog σ ε α) (s : σ) (Q : α → σ → Prop) : Prop :=
  Meets (fun _ t => I t) x s Q

/-- If `x` faults, the fault is one that `E` allows. -/
abbrev Safe (E : ε → Prop) (x : Prog σ ε α) (s : σ) (Q : α → σ → Prop) : Prop :=
  Meets (fun e _ => E e) x s Q

variable {F : ε → σ → Prop}

/-- A specification, read off a run that returned. -/
theorem Meets.elim (h : Meets F x s Q) (hx : exec x s = (.ok a, t)) : Q a t := by
  unfold Meets at h
  rw [hx] at h
  exact h

/-- And off one that did not. -/
theorem Meets.elim_fault (h : Meets F x s Q) {e : ε} (hx : exec x s = (.error e, t)) :
    F e t := by
  unfold Meets at h
  rw [hx] at h
  exact h

/-- The rule of consequence. -/
theorem Meets.imp {G : ε → σ → Prop} {R : α → σ → Prop} (h : Meets F x s Q)
    (hfg : ∀ e t, F e t → G e t) (hqr : ∀ a t, Q a t → R a t) : Meets G x s R := by
  unfold Meets at h ⊢
  generalize exec x s = p at h ⊢
  obtain ⟨r, t⟩ := p
  cases r with
  | ok a => exact hqr a t h
  | error e => exact hfg e t h

/-- Consequence, for what is returned. -/
theorem Meets.mono {R : α → σ → Prop} (h : Meets F x s Q) (hqr : ∀ a t, Q a t → R a t) :
    Meets F x s R :=
  h.imp (fun _ _ hf => hf) hqr

/-- Consequence, for what may go wrong. -/
theorem Meets.weaken {G : ε → σ → Prop} (h : Meets F x s Q)
    (hfg : ∀ e t, F e t → G e t) : Meets G x s Q :=
  h.imp hfg fun _ _ hq => hq

/-- Total correctness, where a fault would be allowed. -/
theorem Meets.lift (h : Meets (fun _ _ => False) x s Q) : Meets F x s Q :=
  h.weaken fun _ _ hf => hf.elim

/-- A total specification has a run. -/
theorem Meets.run (h : Meets (fun _ _ => False) x s Q) :
    ∃ a t, exec x s = (.ok a, t) ∧ Q a t := by
  unfold Meets at h
  generalize exec x s = p at h ⊢
  obtain ⟨r, t⟩ := p
  cases r with
  | ok a => exact ⟨a, t, rfl, h⟩
  | error e => exact h.elim

/-- A run whose outcome is given. -/
theorem Ends.exec_eq (h : Ends x s fun r u => r = a ∧ u = t) :
    exec x s = (.ok a, t) := by
  obtain ⟨b, u, hx, rfl, rfl⟩ := h.run
  exact hx

theorem Meets.ret (h : Q a s) : Meets F (pure a : Prog σ ε α) s Q := h

theorem Meets.read {Q : σ → σ → Prop} (h : Q s s) :
    Meets F (get : Prog σ ε σ) s Q := h

theorem Meets.change {Q : PUnit → σ → Prop} {f : σ → σ} (h : Q ⟨⟩ (f s)) :
    Meets F (modify f : Prog σ ε PUnit) s Q := h

theorem Meets.fault {e : ε} (h : F e s) : Meets F (throw e : Prog σ ε α) s Q := h

/-- The first part has to establish what the rest needs. -/
theorem Meets.bind {Q : β → σ → Prop} (h : Meets F x s fun a t => Meets F (f a) t Q) :
    Meets F (x >>= f) s Q := by
  unfold Meets at h ⊢
  rw [exec_bind]
  generalize exec x s = p at h ⊢
  obtain ⟨r, t⟩ := p
  cases r with
  | ok a => exact h
  | error e => exact h

/-- The same, with the first part's specification at hand. -/
theorem Meets.seq {P : α → σ → Prop} {Q : β → σ → Prop} (h : Meets F x s P)
    (hf : ∀ a t, P a t → Meets F (f a) t Q) : Meets F (x >>= f) s Q :=
  Meets.bind (h.mono hf)

/-- The rest sees the state as it is. -/
theorem Meets.get_bind {f : σ → Prog σ ε β} {Q : β → σ → Prop}
    (h : Meets F (f s) s Q) : Meets F (get >>= f) s Q := Meets.bind (.read h)

/-- The rest starts in the changed state. -/
theorem Meets.modify_bind {g : σ → σ} {f : PUnit → Prog σ ε β} {Q : β → σ → Prop}
    (h : Meets F (f ⟨⟩) (g s) Q) : Meets F (modify g >>= f) s Q :=
  Meets.bind (.change h)

theorem Meets.map {f : α → β} {Q : β → σ → Prop} (h : Meets F x s fun a t => Q (f a) t) :
    Meets F (f <$> x) s Q :=
  Meets.bind h

-- ==== kept relations

/-- However `x` ends, the state it leaves stands in `r` to the state it
started in. -/
structure Within (r : σ → σ → Prop) (x : Prog σ ε α) : Prop where
  kept : ∀ s, r s (exec x s).2

variable {r : σ → σ → Prop}

/-- A bound is a specification of both ways to end. -/
theorem Within.leaves (h : Within r x) (s : σ) : Leaves (r s) x s fun _ t => r s t := by
  have hs := h.kept s
  unfold Leaves Meets
  generalize exec x s = p at hs ⊢
  obtain ⟨a, t⟩ := p
  cases a <;> exact hs

/-- And conversely. -/
theorem Within.of_leaves (h : ∀ s, Leaves (r s) x s fun _ t => r s t) : Within r x := by
  refine ⟨fun s => ?_⟩
  have hs := h s
  unfold Leaves Meets at hs
  generalize exec x s = p at hs ⊢
  obtain ⟨a, t⟩ := p
  cases a <;> exact hs

theorem Within.imp {q : σ → σ → Prop} (h : Within r x) (himp : ∀ s t, r s t → q s t) :
    Within q x :=
  ⟨fun s => himp _ _ (h.kept s)⟩

theorem Within.ret [Std.Refl r] (a : α) : Within r (pure a : Prog σ ε α) :=
  ⟨fun s => Std.Refl.refl s⟩

theorem Within.read [Std.Refl r] : Within r (get : Prog σ ε σ) :=
  ⟨fun s => Std.Refl.refl s⟩

theorem Within.fault [Std.Refl r] (e : ε) : Within r (throw e : Prog σ ε α) :=
  ⟨fun s => Std.Refl.refl s⟩

theorem Within.change {f : σ → σ} (h : ∀ s, r s (f s)) :
    Within r (modify f : Prog σ ε PUnit) := ⟨h⟩

/-- Bounds compose, the relation being transitive. -/
theorem Within.bind [IsTrans σ r] (hx : Within r x) (hf : ∀ a, Within r (f a)) :
    Within r (x >>= f) := by
  refine ⟨fun s => ?_⟩
  have hs := hx.kept s
  rw [exec_bind]
  generalize exec x s = p at hs ⊢
  obtain ⟨a, t⟩ := p
  cases a with
  | ok a => exact IsTrans.trans _ _ _ hs ((hf a).kept t)
  | error e => exact hs

theorem Within.map [IsTrans σ r] [Std.Refl r] {f : α → β} (hx : Within r x) :
    Within r (f <$> x) :=
  Within.bind hx fun a => Within.ret (f a)

end Xv6FsServer.Lib
