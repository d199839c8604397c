/-
User address spaces: what `allocuvm`, `deallocuvm`, `growproc` and `copyuvm`
make of a mapping.

`Space s r sz` is the shape `proc->sz` promises: the pages from `PGSIZE` up to
the size, rounded up, and no others. As no two of them are one physical page,
there are no more than physical pages, which keeps every address that is
walked out of the upper half of the PML4 and every size within an `uint`.
-/
import Xv6FsServer.Vm.Proofs.Tables
import Mathlib.Order.Interval.Finset.Nat

namespace Xv6FsServer.Vm

open Lib Function Meets

variable {s t u : Mem} {r d n a sz page x : Nat} {H H' L : List Nat}
variable {newsz : Nat}

/-- The pages of a size, rounded up. -/
def pages (sz : Nat) : Nat := (sz + (pgSize - 1)) / pgSize

/-- The pages `[1, n)` are mapped, and no others. -/
def Covers (s : Mem) (r n : Nat) : Prop :=
  ∀ va, va < 2 ^ 47 →
    ((mapped s r va).isSome ↔ 1 ≤ va / pgSize ∧ va / pgSize < n)

structure Space (s : Mem) (r sz : Nat) : Prop where
  pos : 0 < sz
  covers : Covers s r (pages sz)

/-- Nothing is mapped. -/
def Gone (s : Mem) (r : Nat) : Prop := ∀ va, va < 2 ^ 47 → mapped s r va = none

theorem Covers.congr (h : Covers s r n)
    (hsame : ∀ va, va < 2 ^ 47 → mapped t r va = mapped s r va) : Covers t r n := by
  intro va hva
  rw [hsame va hva]
  exact h va hva

/-- Distinct pages are mapped to distinct physical pages, so there are not too
many of them. -/
theorem Covers.le (h : Covers s r n) (hs : Sound r H s) : n ≤ physPages + 1 := by
  by_contra hgt
  have hva : ∀ j, j ≤ physPages + 1 → j * pgSize < 2 ^ 47 := by
    intro j hj
    calc j * pgSize ≤ (physPages + 1) * pgSize := Nat.mul_le_mul_right _ hj
      _ < 2 ^ 47 := by decide
  have hdiv : ∀ j, j * pgSize / pgSize = j := fun j => Nat.mul_div_cancel j (by decide)
  have hsome : ∀ j ∈ Finset.Icc 1 (physPages + 1),
      (mapped s r (j * pgSize)).isSome := by
    intro j hj
    obtain ⟨hj1, hj2⟩ := Finset.mem_Icc.mp hj
    refine (h _ (hva j hj2)).mpr ?_
    rw [hdiv]
    omega
  have hmaps : ∀ j ∈ Finset.Icc 1 (physPages + 1),
      (mapped s r (j * pgSize)).getD 0 ∈ Finset.range physPages := by
    intro j hj
    obtain ⟨y, hy⟩ := Option.isSome_iff_exists.mp (hsome j hj)
    have hmem := mapped_mem (hva j (Finset.mem_Icc.mp hj).2) hy
    rw [hy]
    exact Finset.mem_range.mpr (hs.range (mem_tree_bag (H := H) hmem)).2
  have hinj : Set.InjOn (fun j => (mapped s r (j * pgSize)).getD 0)
      (Finset.Icc 1 (physPages + 1) : Finset Nat) := by
    intro i hi j hj heq
    obtain ⟨y, hy⟩ := Option.isSome_iff_exists.mp (hsome i hi)
    obtain ⟨z, hz⟩ := Option.isSome_iff_exists.mp (hsome j hj)
    dsimp only at heq
    rw [hy, hz] at heq
    change y = z at heq
    subst heq
    have hpage := mapped_inj hs.nodup (hva i (Finset.mem_Icc.mp hi).2)
      (hva j (Finset.mem_Icc.mp hj).2) hy hz
    rwa [hdiv, hdiv] at hpage
  have hcard := Finset.card_le_card_of_injOn _ hmaps hinj
  rw [Nat.card_Icc, Finset.card_range] at hcard
  omega

theorem Space.lt (h : Space s r sz) (hs : Sound r H s) : sz < 2 ^ 29 := by
  have hle := h.covers.le hs
  unfold pages pgSize at hle
  have hphys : physPages = 57344 := rfl
  omega

theorem Covers.not_mapped (h : Covers s r n) {va : Nat} (hva : va < 2 ^ 47)
    (hge : n ≤ va / pgSize) : mapped s r va = none := by
  cases hm : mapped s r va with
  | none => rfl
  | some y =>
    have hlt := (h va hva).mp (by rw [hm]; rfl)
    omega

theorem Gone.covers (h : Gone s r) : Covers s r 1 := by
  intro va hva
  rw [h va hva]
  constructor
  · intro hfalse
    cases hfalse
  · intro hbad
    omega

/-- One page more. -/
theorem Covers.extend (h : Covers s r n) (hn : 1 ≤ n) {va : Nat} (hpage : va / pgSize = n)
    (hmap : ∀ vb, vb < 2 ^ 47 → mapped t r vb
      = if vb / pgSize = va / pgSize then some page else mapped s r vb) :
    Covers t r (n + 1) := by
  intro vb hvb
  rw [hmap vb hvb]
  split
  · rename_i heq
    rw [heq, hpage]
    simp [hn]
  · rename_i hne
    rw [h vb hvb]
    omega

-- ==== growing

theorem Covers.enough (h : Covers s r (a / pgSize)) (hge : newsz ≤ a)
    (ha : a % pgSize = 0) : Covers s r (max (a / pgSize) (pages newsz)) := by
  have hle : pages newsz ≤ a / pgSize := by
    unfold pages pgSize at *
    omega
  rw [Nat.max_eq_left hle]
  exact h

theorem allocuvmLoop_spec (newsz : Nat) (hs : Sound r H s)
    (hcov : Covers s r (a / pgSize)) (ha : a % pgSize = 0) (hpos : 1 ≤ a / pgSize)
    (hn : newsz ≤ a + n * pgSize) :
    Safe Full (allocuvmLoop r n a newsz) s fun _ t => Moves r H H s t ∧
      Covers t r (max (a / pgSize) (pages newsz)) := by
  -- the fuel is for the loop condition to fail first
  induction n generalizing s a with
  | zero =>
    apply ret
    exact ⟨.refl r H s, hcov.enough (by omega) ha⟩
  | succ n ih =>
    unfold allocuvmLoop
    split
    · rename_i hlt
      have hbound := hcov.le hs
      have hva : a < 2 ^ 47 := by
        have hphys : physPages = 57344 := rfl
        unfold pgSize at *
        omega
      refine (kallocZeroed_takes s).seq fun page s1 ⟨htakes, _, _⟩ => ?_
      have hm1 := htakes.hand hs
      have hmap1 : ∀ va, va < 2 ^ 47 → mapped s1 r va = mapped s r va :=
        fun _ hva => htakes.mapped hs hva
      have hs1 := hm1.sound hs
      refine (mappages_spec hs1 hva ?_).seq fun _ s2 ⟨hm2, hmap2⟩ => ?_
      · rw [hmap1 a hva]
        exact hcov.not_mapped hva (Nat.le_refl _)
      have hnext : (a + pgSize) / pgSize = a / pgSize + 1 :=
        Nat.add_div_right a (by decide)
      have hcov2 : Covers s2 r ((a + pgSize) / pgSize) := by
        rw [hnext]
        exact (hcov.congr hmap1).extend hpos rfl hmap2
      have hmax : max ((a + pgSize) / pgSize) (pages newsz)
          = max (a / pgSize) (pages newsz) := by
        unfold pages pgSize at *
        omega
      rw [← hmax]
      refine (ih (hm2.sound hs1) hcov2 (by unfold pgSize at *; omega)
        (by omega) (by rw [Nat.succ_mul] at hn; omega)).mono ?_
      intro _ u ⟨hm3, hcov3⟩
      exact ⟨(hm1.trans hm2).trans hm3, hcov3⟩
    · exact ret ⟨.refl r H s, hcov.enough (by omega) ha⟩

theorem pgRoundUp_div (h : a < 2 ^ 63) : pgRoundUp a / pgSize = pages a := by
  unfold pgRoundUp word
  rw [Nat.mod_eq_of_lt (by unfold pgSize; omega)]
  exact Nat.mul_div_cancel _ (by decide)

theorem pgRoundUp_mod (a : Nat) : pgRoundUp a % pgSize = 0 := Nat.mul_mod_left ..

theorem pages_pos (h : 0 < sz) : 1 ≤ pages sz := by
  unfold pages pgSize
  omega

theorem pages_le_pages (h : sz ≤ newsz) : pages sz ≤ pages newsz := by
  unfold pages pgSize
  omega

/-- The size `allocuvm` returns is the size there is, unless it is 0 and there
was no change. -/
theorem allocuvm_spec (hs : Sound r H s) (h : Space s r sz) :
    Safe Full (allocuvm r sz newsz) s fun res t => Moves r H H s t ∧
      ((res = 0 ∧ t = s) ∨
        (res = max sz newsz ∧ newsz < kernBase ∧ Space t r res)) := by
  unfold allocuvm
  split
  · exact ret ⟨.refl r H s, .inl ⟨rfl, rfl⟩⟩
  · split
    · exact ret ⟨.refl r H s, .inr ⟨by omega, by omega, h⟩⟩
    · rename_i hlow hge
      have hlt := h.lt hs
      have hdiv := pgRoundUp_div (a := sz) (by omega)
      refine (allocuvmLoop_spec newsz hs (by rw [hdiv]; exact h.covers)
        (pgRoundUp_mod sz) (by rw [hdiv]; exact pages_pos h.pos) ?_).seq ?_
      · unfold pgSize
        omega
      · intro _ t ⟨hm, hcov⟩
        rw [hdiv, Nat.max_eq_right (pages_le_pages (by omega))] at hcov
        have hpos := h.pos
        exact ret ⟨hm, .inr ⟨by omega, by omega, by omega, hcov⟩⟩

-- ==== shrinking

theorem deallocuvmLoop_spec {oldsz : Nat} (hs : Sound r H s) (ha : a % pgSize = 0)
    (hold : oldsz < 2 ^ 47) (hn : oldsz ≤ a + n * pgSize) :
    Ends (deallocuvmLoop r n a oldsz) s fun _ t => Moves r H H s t ∧
      ∀ vb, vb < 2 ^ 47 → mapped t r vb
        = if a / pgSize ≤ vb / pgSize ∧ vb / pgSize < pages oldsz then none
          else mapped s r vb := by
  have hdone : ∀ {a : Nat}, a % pgSize = 0 → oldsz ≤ a → ∀ vb,
      ¬ (a / pgSize ≤ vb / pgSize ∧ vb / pgSize < pages oldsz) := by
    intro a ha hge vb
    unfold pages pgSize at *
    omega
  induction n generalizing s a with
  | zero =>
    apply ret
    refine ⟨.refl r H s, fun vb _ => ?_⟩
    rw [if_neg (hdone ha (by omega) vb)]
  | succ n ih =>
    unfold deallocuvmLoop
    split
    · rename_i hlt
      refine (unmapPage_spec hs (by omega)).seq fun _ s1 ⟨hm1, hmap1⟩ => ?_
      refine (ih (hm1.sound hs) (by unfold pgSize at *; omega)
        (by rw [Nat.succ_mul] at hn; omega)).mono fun _ t ⟨hm2, hmap2⟩ => ?_
      refine ⟨hm1.trans hm2, fun vb hvb => ?_⟩
      have hnext : (a + pgSize) / pgSize = a / pgSize + 1 :=
        Nat.add_div_right a (by decide)
      have hlast : a / pgSize < pages oldsz := by
        unfold pages pgSize at *
        omega
      rw [hmap2 vb hvb, hmap1 vb hvb, hnext]
      by_cases hfirst : vb / pgSize = a / pgSize
      · rw [if_pos hfirst, if_neg (by omega), if_pos (by omega)]
      · rw [if_neg hfirst]
        congr 1
        exact propext ⟨fun h => ⟨by omega, h.2⟩, fun h => ⟨by omega, h.2⟩⟩
    · apply ret
      refine ⟨.refl r H s, fun vb _ => ?_⟩
      rw [if_neg (hdone ha (by omega) vb)]

theorem deallocuvm_spec (newsz : Nat) (hs : Sound r H s) (hsz : sz < 2 ^ 47)
    (hlt : newsz < sz) :
    Ends (deallocuvm r sz newsz) s fun res t => res = newsz ∧ Moves r H H s t ∧
      ∀ vb, vb < 2 ^ 47 → mapped t r vb
        = if pages newsz ≤ vb / pgSize ∧ vb / pgSize < pages sz then none
          else mapped s r vb := by
  unfold deallocuvm
  rw [if_neg (by omega)]
  refine (deallocuvmLoop_spec hs (pgRoundUp_mod newsz) hsz ?_).seq ?_
  · unfold pgSize
    omega
  · intro _ t ⟨hm, hmap⟩
    rw [pgRoundUp_div (by omega)] at hmap
    exact ret ⟨rfl, hm, hmap⟩

-- ==== growproc

/-- `sbrk` by just the negative of the size: the size 0 that `deallocuvm` then
returns is taken for an error. -/
def Wipes (sz : Nat) (n : Int) : Prop := n < 0 ∧ (sz + n) % 2 ^ 64 = 0

instance (sz : Nat) (n : Int) : Decidable (Wipes sz n) :=
  inferInstanceAs (Decidable (_ ∧ _))

/-- What is left of a space is a space. -/
theorem Space.shrink (h : Space s r sz) (hpos : 0 < newsz) (hle : newsz ≤ sz)
    (hmap : ∀ vb, vb < 2 ^ 47 → mapped t r vb
      = if pages newsz ≤ vb / pgSize ∧ vb / pgSize < pages sz then none
        else mapped s r vb) : Space t r newsz := by
  refine ⟨hpos, fun vb hvb => ?_⟩
  have hpages := pages_le_pages hle
  rw [hmap vb hvb]
  split
  · simp only [Option.isSome_none, Bool.false_eq_true, false_iff]
    omega
  · rw [h.covers vb hvb]
    omega

theorem growproc_spec {n : Int} (hs : Sound r H s) (h : Space s r sz)
    (hn : ¬ Wipes sz n) :
    Safe Full (growproc r sz n) s fun res t => Moves r H H s t ∧
      Space t r (res.getD sz) ∧ (res = none → t = s) := by
  have hpos := h.pos
  have hlt := h.lt hs
  unfold growproc
  split
  · rename_i hup
    refine (allocuvm_spec hs h).seq ?_
    rintro res t ⟨hm, ⟨rfl, rfl⟩ | ⟨hres, -, hsp⟩⟩
    · exact ret ⟨hm, h, fun _ => rfl⟩
    · rw [if_neg (by omega)]
      exact ret ⟨hm, hsp, fun hnone => nomatch hnone⟩
  · split
    · rename_i hdown
      have hne : (sz + n) % 2 ^ 64 ≠ 0 := fun hz => hn ⟨hdown, hz⟩
      generalize hnew : ((sz + n) % 2 ^ 64).toNat = newsz
      apply Meets.bind
      by_cases hless : newsz < sz
      · refine lift ((deallocuvm_spec newsz hs (by omega) hless).mono ?_)
        intro res t ⟨hres, hm, hmap⟩
        have hsp : Space t r newsz := h.shrink (by omega) (by omega) hmap
        rw [hres, if_neg (by omega)]
        exact ret ⟨hm, hsp, fun hnone => nomatch hnone⟩
      · -- below zero the size wraps around, and nothing is done
        unfold deallocuvm
        rw [if_pos (by omega)]
        apply ret
        rw [if_neg (by omega)]
        exact ret ⟨.refl r H s, h, fun hnone => nomatch hnone⟩
    · exact ret ⟨.refl r H s, h, fun hnone => nomatch hnone⟩

theorem growproc_wipes {n : Int} (hs : Sound r H s) (h : Space s r sz)
    (hn : Wipes sz n) :
    Ends (growproc r sz n) s fun res t => res = none ∧ Moves r H H s t ∧ Gone t r := by
  have hpos := h.pos
  have hlt := h.lt hs
  obtain ⟨hneg, hzero⟩ := hn
  unfold growproc
  rw [if_neg (by omega), if_pos hneg, hzero]
  refine (deallocuvm_spec 0 hs (by omega) hpos).seq ?_
  rintro _ t ⟨rfl, hm, hmap⟩
  refine ret ⟨rfl, hm, fun va hva => ?_⟩
  rw [hmap va hva]
  split
  · rfl
  · rename_i hout
    refine h.covers.not_mapped hva (Nat.le_of_not_lt fun hin => hout ⟨?_, hin⟩)
    exact Nat.zero_le _

end Xv6FsServer.Vm
