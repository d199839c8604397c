/-
The log invariant is kept by every step (`inv_step`), by cases over what
a step can do.

The buffers (`cache_eff`) and the processes (`ops_eff`) are followed over
every step first; the phase is what is left. Only three labels move its
facts. `append` extends the current group; `tick` advances `commit()` or
recovery, one lemma a program counter; `crash` keeps the disk and lands
in the recovery phase through `Inv.replay`. The others change processes
or clean buffers and go through `Phase.congr` or a view equation.
-/
import Xv6FsServer.Log.Proofs.Effect
import Xv6FsServer.Log.Proofs.Inv

namespace Xv6FsServer.Log

open Lib Function

variable {g : Geometry} {d₀ : Disk} {s s' : State}
variable {p b k : Nat} {a : Act}
variable {lh : List Nat} {x id : Nat} {calls : Finset Nat}

-- ==== processes come and go

/-- Replacing one idle process by an active one adds one to the count. -/
private theorem count_enter {q : OpPc} (hq : q ≠ .idle) (hidle : s.ops p = .idle)
    (h : ∃ A : Finset Nat, (∀ p, p ∈ A ↔ s.ops p ≠ .idle) ∧ A.card = s.outstanding) :
    ∃ A : Finset Nat, (∀ x, x ∈ A ↔ update s.ops p q x ≠ .idle)
      ∧ A.card = s.outstanding + 1 := by
  obtain ⟨A, hA, hcard⟩ := h
  have hpA : p ∉ A := fun hmem => (hA p).mp hmem hidle
  refine ⟨insert p A, ?_, ?_⟩
  · intro x
    by_cases hx : x = p
    · subst hx
      simp [update_self, hq]
    · rw [Finset.mem_insert, update_of_ne hx, hA x]
      simp [hx]
  · rw [Finset.card_insert_of_notMem hpA, hcard]

/-- Moving an active process inside its operation keeps the count. -/
private theorem count_move {q : OpPc} (hq : q ≠ .idle) (hact : s.ops p ≠ .idle)
    (h : ∃ A : Finset Nat, (∀ p, p ∈ A ↔ s.ops p ≠ .idle) ∧ A.card = s.outstanding) :
    ∃ A : Finset Nat, (∀ x, x ∈ A ↔ update s.ops p q x ≠ .idle)
      ∧ A.card = s.outstanding := by
  obtain ⟨A, hA, hcard⟩ := h
  refine ⟨A, ?_, hcard⟩
  intro x
  by_cases hx : x = p
  · subst hx
    simp [update_self, hq, hA x, hact]
  · rw [update_of_ne hx, hA x]

/-- An operation that ends leaves the others counted. -/
private theorem count_leave (hact : s.ops p ≠ .idle)
    (h : ∃ A : Finset Nat, (∀ p, p ∈ A ↔ s.ops p ≠ .idle) ∧ A.card = s.outstanding) :
    ∃ A : Finset Nat, (∀ x, x ∈ A ↔ update s.ops p .idle x ≠ .idle)
      ∧ A.card = s.outstanding - 1 := by
  obtain ⟨A, hA, hcard⟩ := h
  refine ⟨A.erase p, ?_, ?_⟩
  · intro x
    by_cases hx : x = p
    · subst hx
      simp [update_self]
    · rw [Finset.mem_erase, update_of_ne hx, hA x]
      simp [hx]
  · rw [Finset.card_erase_of_mem ((hA p).mpr hact), hcard]

/-- Whoever is between the check and the lock still has a home block in
hand after one process moved. -/
private theorem checked_update {q : OpPc}
    (h : ∀ x id calls b, s.ops x = .checked id calls b → Home g b ∧ b < 4294967296)
    (hq : ∀ id calls b, q = .checked id calls b → Home g b ∧ b < 4294967296) :
    ∀ x id calls b, update s.ops p q x = .checked id calls b →
      Home g b ∧ b < 4294967296 := by
  intro x id calls b hx
  by_cases hxp : x = p
  · subst hxp
    rw [update_self] at hx
    exact hq id calls b hx
  · rw [update_of_ne hxp] at hx
    exact h x id calls b hx

/-- `commit()` or recovery moves on: still alone. -/
theorem OpsInv.advance (h : OpsInv g s) (hpc : s.pc ≠ none)
    (hops : s'.ops = s.ops) (hout : s'.outstanding = s.outstanding)
    (hcom : s'.committing = s.committing) (hboot : s'.booted = s.booted)
    (hpc' : s'.pc ≠ none) : OpsInv g s' := by
  refine ⟨?_, ?_, ?_, fun _ => hpc'⟩
  · rw [hops, hout]
    exact h.count
  · rw [hops]
    exact h.checked
  · intro _
    rw [hops, hcom, hboot]
    exact h.alone hpc

/-- A process inside an operation keeps `commit()` away. -/
theorem OpsInv.pc_of_active (h : OpsInv g s) (hact : s.ops p ≠ .idle) : s.pc = none := by
  by_contra hne
  exact hact ((h.alone hne).1 p)

theorem ops_eff (h : OpsInv g s) (ha : ∀ p b, a = .check p b → Home g b)
    (he : Eff g s a s') :
    OpsInv g s' := by
  have hactive : ∀ {p : Nat}, s.ops p ≠ .idle → s.pc ≠ none →
      (∀ x, s'.ops x = .idle) ∧ (s'.committing = true ∨ s'.booted = false) :=
    fun hact hne => absurd (h.pc_of_active hact) hne
  cases he with
  | slept => exact h
  | entered hidle hboot hcom =>
    refine ⟨count_enter (by simp) hidle h.count,
      checked_update h.checked (by simp), ?_, h.busy⟩
    intro hpc
    -- neither committing nor booting: the log code is not running
    rcases (h.alone hpc).2 with hc | hb
    · exact absurd hc hcom
    · rw [hb] at hboot
      cases hboot
  | @checked p b id calls hop hbb =>
    have hact : s.ops p ≠ .idle := by rw [hop]; simp
    refine ⟨count_move (by simp) hact h.count,
      checked_update h.checked ?_, hactive hact, h.busy⟩
    intro id' calls' b' hq
    cases hq
    exact ⟨ha p b rfl, hbb⟩
  | @appended p b f id calls hop =>
    have hact : s.ops p ≠ .idle := by rw [hop]; simp
    exact ⟨count_move (by simp) hact h.count,
      checked_update h.checked (by simp), hactive hact, h.busy⟩
  | @last p id calls hop hlast =>
    -- the operation that starts `commit()` was the last one
    obtain ⟨A, hA, hcard⟩ := count_leave (by rw [hop]; simp) h.count
    have hempty : A = ∅ := Finset.card_eq_zero.mp (by omega)
    refine ⟨⟨A, hA, by rw [hempty]; rfl⟩, checked_update h.checked (by simp),
      fun _ => ⟨fun x => ?_, Or.inl rfl⟩, by simp⟩
    by_contra hne
    have hx := (hA x).mpr hne
    rw [hempty] at hx
    simp at hx
  | @left p id calls hop =>
    have hact : s.ops p ≠ .idle := by rw [hop]; simp
    exact ⟨count_leave hact h.count, checked_update h.checked (by simp),
      hactive hact, h.busy⟩
  | readHead hpc | writeLog hpc | copied hpc | writeHead hpc | install hpc
  | installed hpc | eraseHead hpc =>
    exact h.advance (by rw [hpc]; simp) rfl rfl rfl rfl (by simp)
  | finish => exact ⟨h.count, h.checked, by simp, by simp⟩
  | crashed =>
    exact ⟨⟨∅, by simp [crash, powerOn], rfl⟩, by simp [crash, powerOn],
      fun _ => ⟨fun _ => rfl, Or.inr rfl⟩, by simp [crash, powerOn]⟩
  | tooBig | outside | endPanic | loaded | noBuffers | evicted | requested =>
    exact ⟨h.count, h.checked, h.alone, h.busy⟩

-- ==== the buffers

theorem cache_eff (h : CacheInv s) (he : Eff g s a s') : CacheInv s' := by
  cases he with
  | appended hop hin => exact (h.pin hin _).congr rfl rfl rfl rfl
  | writeLog | writeHead | install | eraseHead | requested =>
    exact (h.bwrite _ _).congr rfl rfl rfl rfl
  | loaded hb hroom => exact h.fill hb hroom
  | evicted hb => exact h.recycle hb
  | crashed =>
    exact ⟨by simp [crash, powerOn], by simp [crash, powerOn],
      by simp [crash, powerOn]⟩
  | _ => exact h.congr rfl rfl rfl rfl

-- ==== log_write

theorem mem_absorb : x ∈ absorb lh b ↔ x ∈ lh ∨ x = b := by
  unfold absorb
  split
  next hb =>
    constructor
    · exact Or.inl
    · rintro (hx | rfl)
      · exact hx
      · exact hb
  next => simp

theorem nodup_absorb (h : lh.Nodup) : (absorb lh b).Nodup := by
  unfold absorb
  split
  next => exact h
  next hb =>
    refine List.nodup_append.mpr ⟨h, List.nodup_singleton b, ?_⟩
    intro x hx y hy hxy
    rw [List.mem_singleton] at hy
    exact hb (hy ▸ hxy ▸ hx)

theorem phase_append {f : Block → Block} (h : Inv g d₀ s)
    (hop : s.ops p = .checked id calls b) (hcached : b ∈ s.cached) :
    Phase g d₀ { s with
      lh := absorb s.lh b
      bdata := update s.bdata b (f (s.bdata b))
      dirty := insert b s.dirty
      ops := update s.ops p (.inOp id (insert b calls))
      group := s.group ++ [⟨id, b, f (s.bdata b)⟩]
      ledger := s.ledger ++ [⟨id, b, f (s.bdata b)⟩] } := by
  obtain ⟨hpc, ho⟩ := h.open_of_active (p := p) (by rw [hop]; simp)
  obtain ⟨hhome, hbb⟩ := h.ops.checked p id calls b hop
  unfold Phase
  rw [hpc]
  refine ⟨ho.replay, nodup_absorb ho.nodup, ?_, ?_, ?_, ?_⟩
  · intro x
    rw [mem_absorb, ho.logged x, List.map_append, List.mem_append]
    simp
  · intro x hx
    rcases mem_absorb.mp hx with hx | rfl
    · exact ho.lh_home x hx
    · exact ⟨hhome, hbb⟩
  · intro x
    rw [mem_absorb, ← ho.pinned x, Finset.mem_insert]
    exact or_comm
  · intro x hx
    show bread _ x = applyWrites (committed d₀ s) (s.group ++ [_]) x
    rw [applyWrites_snoc]
    refine (bread_pin hcached _ x).trans ?_
    by_cases hxb : x = b
    · subst hxb
      rw [update_self, update_self]
    · rw [update_of_ne hxb, update_of_ne hxb]
      exact ho.view x hx

/-- The last operation out starts `commit()`. -/
theorem phase_last (h : Inv g d₀ s) (hop : s.ops p = .inOp id calls) :
    Phase g d₀ { s with
      outstanding := 0
      committing := true
      ops := update s.ops p .idle
      pc := some (if s.lh = [] then .finish else .writeLog 0) } := by
  obtain ⟨-, ho⟩ := h.open_of_active (p := p) (by rw [hop]; simp)
  unfold Phase
  by_cases hl : s.lh = []
  · rw [if_pos hl]
    exact ⟨⟨ho.1, ho.2, ho.3, ho.4, ho.5, ho.6⟩, hl⟩
  · rw [if_neg hl]
    refine ⟨⟨ho.1, ho.2, ho.3, ho.4, ho.5, ho.6⟩, ?_, by omega⟩
    intro j b hj
    omega

-- ==== commit, recovery

/-- A log slot in use is no home block. -/
theorem slot_not_home (hk : k + 1 < g.size) : ¬ Home g (g.start + k + 1) := by
  rintro (h | h) <;> omega

/-- A header or slot write by `write_log`: no home block changes. -/
private theorem OpenInv.bwrite_slot (ho : OpenInv g d₀ s) {v : Block}
    {q : Option LogPc} (hx : ¬ Home g x) (hne : x ≠ g.start) :
    OpenInv g d₀ { bwrite s x v with pc := q } := by
  have hxl : x ∉ s.lh := fun hmem => hx (ho.lh_home x hmem).1
  have hxd : x ∉ s.dirty := fun hmem => hxl ((ho.pinned x).mp hmem)
  refine ⟨ho.replay.update_slot hx hne, ho.nodup, ho.logged, ho.lh_home, ?_, ?_⟩
  · intro b
    show b ∈ s.dirty.erase x ↔ b ∈ s.lh
    rw [Finset.erase_eq_of_notMem hxd]
    exact ho.pinned b
  · intro b hb
    have hbx : b ≠ x := fun e => hx (e ▸ hb)
    rw [show applyWrites (committed d₀ { bwrite s x v with pc := q })
        ({ bwrite s x v with pc := q } : State).group b
      = applyWrites (committed d₀ s) s.group b from rfl, ← ho.view b hb]
    unfold bread bwrite
    simp only [update_of_ne hbx]

/-- `write_log` copies one more block. -/
theorem phase_writeLog (hsize : g.size = logSize) (h : Inv g d₀ s)
    (hpc : s.pc = some (.writeLog k)) (hb : s.lh[k]? = some b)
    (hslot : g.start + k + 1 ∈ s.cached) :
    Phase g d₀ { bwrite s (g.start + k + 1) (s.bdata b) with
      pc := some (.writeLog (k + 1)) } := by
  have hph := h.phase
  unfold Phase at hph
  rw [hpc] at hph
  obtain ⟨ho, hcp, hroom⟩ := hph
  have hkl : k < s.lh.length := (List.getElem?_eq_some_iff.mp hb).1
  have hsz : g.size = 30 := hsize
  have hnb : nbuf = 30 := rfl
  -- the first slot is in the log area whatever the group's size; the
  -- pigeonhole then bounds the group, and with it every later slot
  have hlen : s.lh.length < nbuf := by
    by_cases hk : 0 < k
    · exact hroom hk
    refine lh_lt_nbuf_of_slot h.cache ho hslot fun hmem => ?_
    have : k = 0 := by omega
    subst this
    exact slot_not_home (g := g) (k := 0) (by omega) (ho.lh_home _ hmem).1
  have hnh : ¬ Home g (g.start + k + 1) := slot_not_home (by omega)
  refine ⟨ho.bwrite_slot hnh (by omega), ?_, fun _ => hlen⟩
  intro j c hj hc
  show update s.disk (g.start + k + 1) (s.bdata b) (g.start + j + 1)
    = update s.bdata (g.start + k + 1) (s.bdata b) c
  have hcs : c ≠ g.start + k + 1 := by
    intro e
    exact hnh (e ▸ (ho.lh_home c (List.mem_of_getElem? hc)).1)
  rw [update_of_ne hcs]
  by_cases hjk : j = k
  · subst hjk
    rw [update_self]
    have : some c = some b := hc.symm.trans hb
    cases this
    rfl
  · rw [update_of_ne (by omega)]
    exact hcp j c (by omega) hc

/-- The commit point: the header write makes the current group the last
committed one, and the disk replays to it. -/
theorem phase_writeHead (hsize : g.size = logSize) (h : Inv g d₀ s)
    (hpc : s.pc = some .writeHead) :
    Phase g d₀ { bwrite s g.start (putHead s.lh (s.bdata g.start)) with
      pc := some (.install 0)
      groups := s.groups ++ [s.group]
      group := [] } := by
  have hph := h.phase
  unfold Phase at hph
  rw [hpc] at hph
  obtain ⟨ho, hcp, hlen⟩ := hph
  have hsz : g.size = 30 := hsize
  have hnb : nbuf = 30 := rfl
  have hstart : ¬ Home g g.start := by rintro (h1 | h1) <;> omega
  have hbase : committed d₀ { bwrite s g.start
      (putHead s.lh (s.bdata g.start)) with
      pc := some (.install 0), groups := s.groups ++ [s.group], group := [] }
      = applyWrites (committed d₀ s) s.group := by
    show applyWrites d₀ (s.groups ++ [s.group]).flatten = _
    rw [List.flatten_append, applyWrites_append]
    simp [committed]
  refine ⟨⟨?_, ?_, fun b hb => (ho.lh_home b hb).1, ?_, ?_⟩, ?_, ?_, rfl⟩
  · show getHead (update s.disk g.start _ g.start) = s.lh
    rw [update_self]
    exact getHead_putHead _ (by unfold logSize maxOpBlocks; omega)
      fun b hb => (ho.lh_home b hb).2
  · show s.lh.length < g.size
    omega
  · intro j b hj
    have hjl := (List.getElem?_eq_some_iff.mp hj).1
    have hmem : b ∈ s.lh := List.mem_of_getElem? hj
    have hbc : b ∈ s.cached := h.cache.dirty_sub ((ho.pinned b).mpr hmem)
    rw [hbase, ← ho.view b (ho.lh_home b hmem).1, bread_of_mem hbc]
    show update s.disk g.start _ (g.start + j + 1) = s.bdata b
    rw [update_of_ne (by omega)]
    exact hcp j b hjl hj
  · intro b hb hbl
    have hbs : b ≠ g.start := fun e => hstart (e ▸ hb)
    rw [hbase, applyWrites_of_not_mem _ fun hmem => hbl ((ho.logged b).mpr hmem)]
    show update s.disk g.start _ b = committed d₀ s b
    rw [update_of_ne hbs]
    exact ho.replay.rest b hb (by simp)
  · intro j b hj
    omega
  · intro b hb
    have hbl : b ∈ s.lh := (ho.pinned b).mp (Finset.mem_erase.mp hb).2
    obtain ⟨j, hj⟩ := List.getElem?_of_mem hbl
    exact ⟨j, by omega, hj⟩

/-- `install_trans` installs one more block. -/
theorem phase_install (h : Inv g d₀ s) (hpc : s.pc = some (.install k))
    (hb : s.lh[k]? = some b) (hslot : g.start + k + 1 ∈ s.cached) :
    Phase g d₀ { bwrite s b (s.bdata (g.start + k + 1)) with
      pc := some (.install (k + 1)) } := by
  have hph := h.phase
  unfold Phase at hph
  rw [hpc] at hph
  have hkl : k < s.lh.length := (List.getElem?_eq_some_iff.mp hb).1
  have hlen := hph.replay.len
  have hmem : b ∈ s.lh := List.mem_of_getElem? hb
  -- the slot's buffer is clean, so it holds the committed contents
  have hdata : s.bdata (g.start + k + 1) = committed d₀ s b := by
    rw [h.cache.clean _ hslot, hph.replay.slots k b hb]
    intro hd
    obtain ⟨j, _, hj⟩ := hph.pinned _ hd
    exact slot_not_home (by omega)
      (hph.replay.home _ (List.mem_of_getElem? hj))
  refine ⟨?_, ?_, ?_, hph.group⟩
  · show Replay g (committed d₀ s)
      (update s.disk b (s.bdata (g.start + k + 1))) s.lh
    rw [hdata]
    exact hph.replay.install hmem
  · intro j c hj hc
    show update s.disk b (s.bdata (g.start + k + 1)) c
      = committed d₀ s c
    by_cases hcb : c = b
    · subst hcb
      rw [update_self, hdata]
    rw [update_of_ne hcb]
    have hjk : j ≠ k := by
      rintro rfl
      exact hcb (Option.some.inj (hc.symm.trans hb))
    exact hph.installed j c (by omega) hc
  · intro c hc
    obtain ⟨hcb, hcd⟩ := Finset.mem_erase.mp hc
    obtain ⟨j, hkj, hj⟩ := hph.pinned c hcd
    have hjk : j ≠ k := by
      rintro rfl
      exact hcb (Option.some.inj (hj.symm.trans hb))
    exact ⟨j, by omega, hj⟩

/-- The end of `install_trans`: every home block is committed. -/
theorem phase_installed (h : Inv g d₀ s) (hpc : s.pc = some (.install k))
    (hb : s.lh[k]? = none) :
    Phase g d₀ { s with lh := [], pc := some .eraseHead } := by
  have hph := h.phase
  unfold Phase at hph
  rw [hpc] at hph
  have hkl : s.lh.length ≤ k := List.getElem?_eq_none_iff.mp hb
  refine ⟨⟨rfl, hph.group, ?_⟩, ⟨s.lh, hph.replay⟩, ?_⟩
  · rw [Finset.eq_empty_iff_forall_notMem]
    intro b hbd
    obtain ⟨j, hkj, hj⟩ := hph.pinned b hbd
    have := (List.getElem?_eq_some_iff.mp hj).1
    omega
  · intro b hbh
    by_cases hbl : b ∈ s.lh
    · obtain ⟨j, hj⟩ := List.getElem?_of_mem hbl
      have := (List.getElem?_eq_some_iff.mp hj).1
      exact hph.installed j b (by omega) hj
    · exact hph.replay.rest b hbh hbl

/-- The last header write erases the log. -/
theorem phase_eraseHead (hsize : 0 < g.size) (h : Inv g d₀ s)
    (hpc : s.pc = some .eraseHead) :
    Phase g d₀ { bwrite s g.start (putHead s.lh (s.bdata g.start)) with
      pc := some .finish } := by
  have hph := h.phase
  unfold Phase at hph
  rw [hpc] at hph
  obtain ⟨hi, -, hall⟩ := hph
  have hhead : getHead (putHead s.lh (s.bdata g.start)) = [] := by
    rw [getHead_putHead _ (by rw [hi.lh]; simp) (by rw [hi.lh]; simp), hi.lh]
  have hrep := Replay.erase (d := s.disk) hsize hhead hall
  have hc := h.cache.bwrite g.start (putHead s.lh (s.bdata g.start))
  refine ⟨⟨hrep, ?_, ?_, ?_, ?_, ?_⟩, hi.lh⟩
  · show s.lh.Nodup
    rw [hi.lh]
    exact List.nodup_nil
  · intro b
    show b ∈ s.lh ↔ b ∈ s.group.map Write.blockno
    rw [hi.lh, hi.group]
    simp
  · intro b hb
    have hb' : b ∈ s.lh := hb
    rw [hi.lh] at hb'
    cases hb'
  · intro b
    show b ∈ s.dirty.erase g.start ↔ b ∈ s.lh
    rw [hi.lh, hi.dirty]
    simp
  · intro b hb
    have hcl := hc.bread_clean (b := b) (by
      show b ∉ s.dirty.erase g.start
      rw [hi.dirty]
      simp)
    show bread (bwrite s g.start _) b = applyWrites (committed d₀ s) s.group b
    rw [hcl, hi.group]
    exact hrep.rest b hb (by simp)

/-- `read_head` takes the on-disk header into memory. -/
theorem phase_readHead (h : Inv g d₀ s) (hpc : s.pc = some .readHead)
    (hslot : g.start ∈ s.cached) :
    Phase g d₀ { s with
      lh := getHead (s.bdata g.start), pc := some (.install 0) } := by
  have hph := h.phase
  unfold Phase at hph
  rw [hpc] at hph
  obtain ⟨hi, L, hL⟩ := hph
  have hhead : getHead (s.bdata g.start) = L := by
    rw [h.cache.clean _ hslot (by rw [hi.dirty]; simp)]
    exact hL.head
  refine ⟨?_, ?_, ?_, hi.group⟩
  · show Replay g (committed d₀ s) s.disk (getHead (s.bdata g.start))
    rw [hhead]
    exact hL
  · intro j b hj
    omega
  · intro b hb
    have hb' : b ∈ s.dirty := hb
    rw [hi.dirty] at hb'
    simp at hb'

/-- `write_log` is through: every logged block has its copy. -/
theorem phase_copied (h : Inv g d₀ s) (hpc : s.pc = some (.writeLog k))
    (hb : s.lh[k]? = none) :
    Phase g d₀ { s with pc := some .writeHead } := by
  have hph := h.phase
  unfold Phase at hph
  rw [hpc] at hph
  obtain ⟨ho, hcp, hroom⟩ := hph
  have hkl : s.lh.length ≤ k := List.getElem?_eq_none_iff.mp hb
  refine ⟨⟨ho.1, ho.2, ho.3, ho.4, ho.5, ho.6⟩, ?_, ?_⟩
  · intro j b hj hjb
    have hj' : j < s.lh.length := hj
    exact hcp j b (by omega) hjb
  · show s.lh.length < nbuf
    by_cases hk : 0 < k
    · exact hroom hk
    · have : nbuf = 30 := rfl
      omega

-- ==== buffers come and go

/-- The phase reads clean buffers only through `bread`, so filling or
recycling one does not show. -/
private theorem Phase.recache (h : Phase g d₀ s) {C : Finset Nat} {D : Nat → Block}
    (hview : ∀ x, bread { s with cached := C, bdata := D } x = bread s x)
    (hdata : ∀ x ∈ s.dirty, D x = s.bdata x) :
    Phase g d₀ { s with cached := C, bdata := D } := by
  have hopen : OpenInv g d₀ s →
      OpenInv g d₀ { s with cached := C, bdata := D } := by
    intro ho
    refine ⟨ho.replay, ho.nodup, ho.logged, ho.lh_home, ho.pinned, ?_⟩
    intro b hb
    rw [hview b]
    exact ho.view b hb
  have hcopied : ∀ k, OpenInv g d₀ s → Copied g k s →
      Copied g k { s with cached := C, bdata := D } := by
    intro k ho hcp j b hj hb
    show s.disk (g.start + j + 1) = D b
    rw [hdata b ((ho.pinned b).mpr (List.mem_of_getElem? hb))]
    exact hcp j b hj hb
  rcases s with ⟨disk, cached, dirty, bdata, o, c, lh, ops, pc, _, _, _, _, _, _⟩
  cases pc with
  | none => exact hopen h
  | some q =>
    cases q with
    | readHead => exact ⟨⟨h.1.lh, h.1.group, h.1.dirty⟩, h.2⟩
    | writeLog k =>
      obtain ⟨ho, hcp, hk⟩ := h
      exact ⟨hopen ho, hcopied k ho hcp, hk⟩
    | writeHead =>
      obtain ⟨ho, hcp, hk⟩ := h
      exact ⟨hopen ho, hcopied _ ho hcp, hk⟩
    | install k => exact ⟨h.replay, h.installed, h.pinned, h.group⟩
    | eraseHead =>
      obtain ⟨hi, hr, hall⟩ := h
      exact ⟨⟨hi.lh, hi.group, hi.dirty⟩, hr, hall⟩
    | finish =>
      obtain ⟨ho, hl⟩ := h
      exact ⟨hopen ho, hl⟩

-- ==== the runs

theorem phase_eff (hsize : g.size = logSize) (h : Inv g d₀ s) (ha : KernelOnly g s a)
    (he : Eff g s a s') : Phase g d₀ s' := by
  have hsz : g.size = 30 := hsize
  cases he with
  | appended hop hin => exact phase_append h hop hin
  | last hop => exact phase_last h hop
  | readHead hpc hin => exact phase_readHead h hpc hin
  | writeLog hpc hb hslot => exact phase_writeLog hsize h hpc hb hslot
  | copied hpc hb => exact phase_copied h hpc hb
  | writeHead hpc => exact phase_writeHead hsize h hpc
  | install hpc hb hslot => exact phase_install h hpc hb hslot
  | installed hpc hb => exact phase_installed h hpc hb
  | eraseHead hpc => exact phase_eraseHead (by omega) h hpc
  | finish hpc =>
    have hph := h.phase
    unfold Phase at hph
    rw [hpc] at hph
    obtain ⟨ho, -⟩ := hph
    exact ⟨ho.1, ho.2, ho.3, ho.4, ho.5, ho.6⟩
  | @loaded b hb =>
    refine h.phase.recache (bread_fill hb) fun x hx => ?_
    have hxb : x ≠ b := fun e => hb (e ▸ h.cache.dirty_sub hx)
    rw [update_of_ne hxb]
  | evicted hb =>
    exact h.phase.recache (D := s.bdata) (h.cache.bread_recycle hb)
      fun _ _ => rfl
  | requested => exact ha.elim
  | crashed =>
    -- a crash leaves a disk that replays to the committed contents
    obtain ⟨L, hL⟩ := h.replay
    exact ⟨⟨rfl, rfl, rfl⟩, L, hL⟩
  | slept | entered | tooBig | outside | checked | endPanic | left
  | noBuffers => exact h.phase.congr rfl rfl rfl rfl rfl rfl rfl rfl

theorem KernelOnly.check_home (h : KernelOnly g s a) (p b : Nat) (ha : a = .check p b) :
    Home g b := by
  subst ha
  exact h

/-- Every step the kernel itself can take keeps the log invariant. -/
theorem inv_step (hsize : g.size = logSize) (h : Inv g d₀ s) (ha : KernelOnly g s a)
    (hs : step g s a = some s') : Inv g d₀ s' := by
  have he := step_eff hs
  exact ⟨cache_eff h.cache he, ops_eff h.ops ha.check_home he,
    phase_eff hsize h ha he⟩

/-- Power-on over a disk with an empty log. -/
theorem inv_powerOn (hsize : g.size = logSize) {d : Disk}
    (hd : getHead (d g.start) = []) : Inv g d (powerOn d) := by
  have hsz : g.size = 30 := hsize
  refine ⟨⟨by simp [powerOn], by simp [powerOn], by simp [powerOn]⟩,
    ⟨⟨∅, by simp [powerOn], rfl⟩, ?_, fun _ => ⟨fun _ => rfl, Or.inr rfl⟩, ?_⟩,
    ⟨rfl, rfl, rfl⟩, [], ⟨hd, ?_, by simp, by simp, fun _ _ _ => rfl⟩⟩
  · intro p id calls b hp
    cases hp
  · intro hc
    cases hc
  · show 0 < g.size
    omega

end Xv6FsServer.Log
