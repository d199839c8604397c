/-
Two parties that each keep a record of the same holdings.

One keeps a `table`: what each key holds, for all owners. The other
keeps, for one owner, a number of places, some of which `claim` a key
with its value. `Covers` says that whatever the owner has in the table is
claimed; `Accounts` says that the two records agree: the claims are
exactly the owner's part of the table, each key claimed in one place.

The two are updated one after the other, so what is proved here is which
updates keep them in order. `Change` lists them: a key is taken, given
back, or claimed in another place, and the rest of the table belongs to
others. A key can also be given back from the wrong place, which still
leaves the table covered; `A` is the promise that it is not.
-/
import Mathlib.Logic.Function.Basic

namespace Xv6FsServer.Lib

open Function

variable {ι κ β : Type*}
variable {claim claim' : ι → Option (κ × β)} {table table' : κ → Option β}
variable {mine : β → Prop} {A : Prop}

/-- What the owner has is claimed. -/
def Covers (claim : ι → Option (κ × β)) (table : κ → Option β) (mine : β → Prop) :
    Prop :=
  ∀ k b, table k = some b → mine b → ∃ i, claim i = some (k, b)

/-- The claims are the owner's part of the table. -/
structure Accounts (claim : ι → Option (κ × β)) (table : κ → Option β)
    (mine : β → Prop) : Prop where
  covered : Covers claim table mine
  listed : ∀ {i k b}, claim i = some (k, b) → table k = some b ∧ mine b
  distinct : ∀ {i j k b c}, claim i = some (k, b) → claim j = some (k, c) → i = j

variable [DecidableEq ι]

/-- A place that is changed to `none` had the claims that are missing. -/
theorem update_none_some {i j : ι} {v : κ × β}
    (h : update claim i none j = some v) : j ≠ i ∧ claim j = some v := by
  by_cases hji : j = i
  · rw [hji, update_self] at h
    cases h
  · exact ⟨hji, (update_of_ne hji ..).symm.trans h⟩

variable [DecidableEq κ]

inductive Change (A : Prop) (mine : β → Prop) (claim : ι → Option (κ × β))
    (table : κ → Option β) : (ι → Option (κ × β)) → (κ → Option β) → Prop
  /-- Nothing is claimed and nothing owned. -/
  | fresh {c : ι → Option (κ × β)} {t : κ → Option β} (hclaim : ∀ i, c i = none)
      (htable : ∀ k b, t k = some b → ¬ mine b) : Change A mine claim table c t
  /-- Only what others own changes. -/
  | others {t : κ → Option β}
      (htable : ∀ k b, mine b → (t k = some b ↔ table k = some b)) :
      Change A mine claim table claim t
  /-- A free key is taken and claimed in a free place. -/
  | take {i k b} (hi : claim i = none) (hk : table k = none) (hm : mine b) :
      Change A mine claim table (update claim i (some (k, b)))
        (update table k (some b))
  /-- A key of the owner's is given back from a place that claimed no
  other. -/
  | giveBack {i k b} (hi : ∀ v, claim i = some v → v.1 = k) (hk : table k = some b)
      (hm : mine b) (haim : A → ∀ j c, claim j = some (k, c) → j = i) :
      Change A mine claim table (update claim i none) (update table k none)
  /-- A place gives up a claim to what the owner does not have. -/
  | giveUp {i} (hi : ∀ k b c, claim i = some (k, b) → table k = some c → ¬ mine c) :
      Change A mine claim table (update claim i none) table
  /-- A claim is moved to a free place. -/
  | move {i j} (hj : claim j = none) :
      Change A mine claim table (update (update claim i none) j (claim i)) table

theorem Change.covers (h : Covers claim table mine)
    (hc : Change A mine claim table claim' table') : Covers claim' table' mine := by
  intro k' c hk' hmc
  cases hc with
  | fresh _ htable => exact absurd hmc (htable k' c hk')
  | others htable => exact h k' c ((htable k' c hmc).mp hk') hmc
  | @take i k b hi _ _ =>
    by_cases hkk : k' = k
    · subst hkk
      rw [update_self] at hk'
      cases hk'
      exact ⟨i, update_self ..⟩
    · rw [update_of_ne hkk] at hk'
      obtain ⟨j, hj⟩ := h k' c hk' hmc
      have hji : j ≠ i := by
        intro e
        rw [e, hi] at hj
        cases hj
      exact ⟨j, (update_of_ne hji ..).trans hj⟩
  | @giveBack i k b hi _ _ _ =>
    have hkk : k' ≠ k := by
      intro e
      rw [e, update_self] at hk'
      cases hk'
    rw [update_of_ne hkk] at hk'
    obtain ⟨j, hj⟩ := h k' c hk' hmc
    have hji : j ≠ i := fun e => hkk (hi _ (e ▸ hj))
    exact ⟨j, (update_of_ne hji ..).trans hj⟩
  | @giveUp i hi =>
    obtain ⟨j, hj⟩ := h k' c hk' hmc
    have hji : j ≠ i := fun e => hi _ _ _ (e ▸ hj) hk' hmc
    exact ⟨j, (update_of_ne hji ..).trans hj⟩
  | @move i j hj =>
    obtain ⟨l, hl⟩ := h k' c hk' hmc
    by_cases hli : l = i
    · exact ⟨j, (update_self ..).trans (hli ▸ hl)⟩
    · have hlj : l ≠ j := by
        intro e
        rw [e, hj] at hl
        cases hl
      exact ⟨l, (update_of_ne hlj ..).trans ((update_of_ne hli ..).trans hl)⟩

namespace Accounts

variable (h : Accounts claim table mine)

include h

theorem take {i : ι} {k : κ} {b : β} (hi : claim i = none) (hk : table k = none)
    (hm : mine b) : Accounts (update claim i (some (k, b)))
      (update table k (some b)) mine := by
  -- a claim of the key is the new one: the key was free
  have hnew : ∀ {j c}, update claim i (some (k, b)) j = some (k, c) → j = i := by
    intro j c hj
    by_contra hne
    rw [update_of_ne hne] at hj
    rw [(h.listed hj).1] at hk
    cases hk
  constructor
  case covered => exact Change.covers h.covered (.take (A := True) hi hk hm)
  case listed =>
    intro j k' c hj
    by_cases hji : j = i
    · subst hji
      rw [update_self] at hj
      cases hj
      exact ⟨update_self .., hm⟩
    · have hk' : k' ≠ k := fun e => hji (hnew (e ▸ hj))
      rw [update_of_ne hji] at hj
      obtain ⟨hc, hmc⟩ := h.listed hj
      exact ⟨(update_of_ne hk' ..).trans hc, hmc⟩
  case distinct =>
    intro j j' k' c c' hj hj'
    by_cases hkk : k' = k
    · subst hkk
      rw [hnew hj, hnew hj']
    · have hne : ∀ {l d}, update claim i (some (k, b)) l = some (k', d) → l ≠ i := by
        intro l d hl e
        rw [e, update_self] at hl
        cases hl
        exact hkk rfl
      rw [update_of_ne (hne hj)] at hj
      rw [update_of_ne (hne hj')] at hj'
      exact h.distinct hj hj'

theorem giveBack {i : ι} {k : κ} {b : β} (hi : claim i = some (k, b)) :
    Accounts (update claim i none) (update table k none) mine := by
  obtain ⟨hk, hm⟩ := h.listed hi
  constructor
  case covered =>
    refine Change.covers h.covered (.giveBack (A := True) ?_ hk hm fun _ j c hj => ?_)
    · intro v hv
      rw [hi] at hv
      cases hv
      rfl
    · exact h.distinct hj hi
  case listed =>
    intro j k' c hj
    obtain ⟨hji, hj⟩ := update_none_some hj
    have hk' : k' ≠ k := fun e => hji (h.distinct hj (e ▸ hi))
    exact ⟨(update_of_ne hk' ..).trans (h.listed hj).1, (h.listed hj).2⟩
  case distinct =>
    intro j j' k' c c' hj hj'
    exact h.distinct (update_none_some hj).2 (update_none_some hj').2

theorem move {i j : ι} (hj : claim j = none) :
    Accounts (update (update claim i none) j (claim i)) table mine := by
  cases hi : claim i with
  | none =>
    have hsame : ∀ l, claim l = none → update claim l none = claim := by
      intro l hl
      rw [← hl, update_eq_self]
    rw [hsame i hi, hsame j hj]
    exact h
  | some v =>
    obtain ⟨k, b⟩ := v
    have hij : j ≠ i := by
      intro e
      rw [e, hi] at hj
      cases hj
    have hput := (h.giveBack hi).take ((update_of_ne hij ..).trans hj)
      (update_self ..) (h.listed hi).2
    rw [update_idem, ← (h.listed hi).1, update_eq_self] at hput
    exact hput

end Accounts

/-- Records that agree keep agreeing, if keys are given back where they are
claimed. -/
theorem Change.accounts (h : Accounts claim table mine) (hA : A)
    (hc : Change A mine claim table claim' table') : Accounts claim' table' mine := by
  have hcov := hc.covers h.covered
  cases hc with
  | fresh hclaim _ =>
    refine ⟨hcov, fun hi => ?_, fun hi => ?_⟩
    · rw [hclaim] at hi
      cases hi
    · rw [hclaim] at hi
      cases hi
  | others htable =>
    refine ⟨hcov, fun hi => ?_, h.distinct⟩
    obtain ⟨hk, hm⟩ := h.listed hi
    exact ⟨(htable _ _ hm).mpr hk, hm⟩
  | take hi hk hm => exact h.take hi hk hm
  | giveBack _ hk hm haim =>
    obtain ⟨j, hj⟩ := h.covered _ _ hk hm
    cases haim hA _ _ hj
    exact h.giveBack hj
  | @giveUp i hi =>
    have hnone : claim i = none := by
      cases hv : claim i with
      | none => rfl
      | some v =>
        obtain ⟨hk, hm⟩ := h.listed hv
        exact absurd hm (hi _ _ _ hv hk)
    rw [← hnone, update_eq_self]
    exact h
  | move hj => exact h.move hj

end Xv6FsServer.Lib
