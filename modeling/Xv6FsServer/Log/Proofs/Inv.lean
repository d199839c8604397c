/-
The log invariant: what disk, header, cache and in-memory log say about
each other at every program point of `commit()` and of recovery.

# One fact that survives every crash

`Replay g base d L` is the whole recovery argument: the header block on
disk lists `L`, each listed block's log slot holds its committed
contents, and every other home block already has its committed
contents. Replaying `L` onto such a disk gives `base`, whatever the
listed home blocks hold, so a crash inside `install_trans` (or inside
recovery itself) changes nothing about where the next recovery ends.
Every phase below contains a `Replay`, with `L = []` before the header
write and `L = log.lh` after it; the header write is the one step that
changes `base`.

# Why the log never spills

`log_write` checks the bound before it takes the lock, so two processes
can both see the last slot free and the header can list `logSize`
blocks, one more than the log has slots. Such a group never reaches the
disk: its `logSize = nbuf` blocks pin every buffer, and `write_log`
cannot get one for its first log block (`lh_lt_nbuf_of_slot`). The
kernel panics in `bget` instead, which is a crash before the commit
point.
-/
import Xv6FsServer.Log.Model
import Mathlib.Data.Finset.Insert

namespace Xv6FsServer.Log

open Lib Function

variable {b : Nat} {s : State} {g : Geometry} {d₀ : Disk}
variable {t : State} {x : Nat} {base d : Disk} {v : Block}

-- ==== the committed contents

/-- A block outside the log area. -/
def Home (g : Geometry) (b : Nat) : Prop := b < g.start ∨ g.start + g.size ≤ b

instance (g : Geometry) (b : Nat) : Decidable (Home g b) :=
  inferInstanceAs (Decidable (_ ∨ _))

/-- Give every logged block its contents, in log order. -/
def applyWrites (d : Disk) (ws : List Write) : Disk :=
  ws.foldl (fun d w => Function.update d w.blockno w.data) d

/-- The home contents after the committed groups. -/
def committed (d₀ : Disk) (s : State) : Disk := applyWrites d₀ s.groups.flatten

theorem applyWrites_append (d : Disk) (ws vs : List Write) :
    applyWrites d (ws ++ vs) = applyWrites (applyWrites d ws) vs :=
  List.foldl_append

theorem applyWrites_snoc (d : Disk) (ws : List Write) (w : Write) :
    applyWrites d (ws ++ [w])
      = update (applyWrites d ws) w.blockno w.data := by
  rw [applyWrites_append]
  rfl

/-- A block no write names keeps its contents. -/
theorem applyWrites_of_not_mem {ws : List Write} (d : Disk) (h : b ∉ ws.map Write.blockno) :
    applyWrites d ws b = d b := by
  induction ws generalizing d with
  | nil => rfl
  | cons w ws ih =>
    rw [List.map_cons, List.mem_cons, not_or] at h
    show applyWrites (update d w.blockno w.data) ws b = d b
    rw [ih _ h.2, update_of_ne h.1]

-- ==== the phase facts

/-- The buffers: pinned ones are cached, there are at most `nbuf`, and a
clean one agrees with the disk. -/
structure CacheInv (s : State) : Prop where
  dirty_sub : s.dirty ⊆ s.cached
  card_le : s.cached.card ≤ nbuf
  clean : ∀ b ∈ s.cached, b ∉ s.dirty → s.bdata b = s.disk b

/-- Replaying the on-disk log onto `d` gives `base` on the home blocks
(module doc). -/
structure Replay (g : Geometry) (base d : Disk) (L : List Nat) : Prop where
  head : getHead (d g.start) = L
  len : L.length < g.size
  home : ∀ b ∈ L, Home g b
  slots : ∀ j b, L[j]? = some b → d (g.start + j + 1) = base b
  rest : ∀ b, Home g b → b ∉ L → d b = base b

/-- No commit has reached the disk: the on-disk log is empty, the pinned
buffers are the logged blocks, and `bread` shows the committed contents
with the current group's writes on top. -/
structure OpenInv (g : Geometry) (d₀ : Disk) (s : State) : Prop where
  replay : Replay g (committed d₀ s) s.disk []
  nodup : s.lh.Nodup
  logged : ∀ b, b ∈ s.lh ↔ b ∈ s.group.map Write.blockno
  lh_home : ∀ b ∈ s.lh, Home g b ∧ b < 4294967296
  pinned : ∀ b, b ∈ s.dirty ↔ b ∈ s.lh
  view : ∀ b, Home g b → bread s b = applyWrites (committed d₀ s) s.group b

/-- `write_log` has copied the first `k` logged blocks. -/
def Copied (g : Geometry) (k : Nat) (s : State) : Prop :=
  ∀ j b, j < k → s.lh[j]? = some b → s.disk (g.start + j + 1) = s.bdata b

/-- `install_trans` has installed the first `k` blocks of the on-disk
log. -/
structure InstallInv (g : Geometry) (d₀ : Disk) (k : Nat) (s : State) :
    Prop where
  replay : Replay g (committed d₀ s) s.disk s.lh
  installed : ∀ j b, j < k → s.lh[j]? = some b → s.disk b = committed d₀ s b
  pinned : ∀ b ∈ s.dirty, ∃ j, k ≤ j ∧ s.lh[j]? = some b
  group : s.group = []

/-- Nothing is logged in memory and nothing is pinned. -/
structure Idle (s : State) : Prop where
  lh : s.lh = []
  group : s.group = []
  dirty : s.dirty = ∅

/-- The phase of `commit()` or of recovery, read off its program
counter. -/
def Phase (g : Geometry) (d₀ : Disk) (s : State) : Prop :=
  match s.pc with
  | none => OpenInv g d₀ s
  | some .readHead => Idle s ∧ ∃ L, Replay g (committed d₀ s) s.disk L
  | some (.writeLog k) =>
    OpenInv g d₀ s ∧ Copied g k s ∧ (0 < k → s.lh.length < nbuf)
  | some .writeHead =>
    OpenInv g d₀ s ∧ Copied g s.lh.length s ∧ s.lh.length < nbuf
  | some (.install k) => InstallInv g d₀ k s
  | some .eraseHead =>
    Idle s ∧ (∃ L, Replay g (committed d₀ s) s.disk L)
      ∧ ∀ b, Home g b → s.disk b = committed d₀ s b
  | some .finish => OpenInv g d₀ s ∧ s.lh = []

/-- Who is inside an operation: `outstanding` counts them, a process in
`log_write` has a home block in hand, and `commit()` and recovery run
alone. -/
structure OpsInv (g : Geometry) (s : State) : Prop where
  count : ∃ A : Finset Nat, (∀ p, p ∈ A ↔ s.ops p ≠ .idle)
    ∧ A.card = s.outstanding
  checked : ∀ p id calls b, s.ops p = .checked id calls b →
    Home g b ∧ b < 4294967296
  alone : s.pc ≠ none → (∀ p, s.ops p = .idle)
    ∧ (s.committing = true ∨ s.booted = false)
  busy : s.committing = true → s.pc ≠ none

/-- The log invariant. -/
structure Inv (g : Geometry) (d₀ : Disk) (s : State) : Prop where
  cache : CacheInv s
  ops : OpsInv g s
  phase : Phase g d₀ s

/-- Operations log home blocks, and nothing writes the disk behind the
log's back. -/
def KernelOnly (g : Geometry) (_ : State) : Act → Prop
  | .check _ b => Home g b
  | .diskRequest _ _ => False
  | _ => True

instance (g : Geometry) (s : State) : ∀ a, Decidable (KernelOnly g s a)
  | .check _ b => inferInstanceAs (Decidable (Home g b))
  | .diskRequest _ _ => inferInstanceAs (Decidable False)
  | .begin _ | .append _ _ _ | .endOp _ | .tick | .load _ | .evict _ | .crash =>
    inferInstanceAs (Decidable True)

-- ==== cache lemmas

theorem bread_of_mem (h : b ∈ s.cached) : bread s b = s.bdata b := by
  unfold bread
  rw [if_pos h]

/-- An unpinned block reads as the disk has it. -/
theorem CacheInv.bread_clean (hc : CacheInv s) (h : b ∉ s.dirty) :
    bread s b = s.disk b := by
  unfold bread
  split
  next hb => exact hc.clean b hb h
  next => rfl

/-- The cache invariant reads only the disk and the buffers. -/
theorem CacheInv.congr (h : CacheInv s) (hdisk : t.disk = s.disk)
    (hcached : t.cached = s.cached) (hdirty : t.dirty = s.dirty)
    (hbdata : t.bdata = s.bdata) : CacheInv t := by
  refine ⟨?_, ?_, ?_⟩
  · rw [hdirty, hcached]
    exact h.dirty_sub
  · rw [hcached]
    exact h.card_le
  · rw [hcached, hdirty, hbdata, hdisk]
    exact h.clean

/-- `bwrite` through a cached buffer keeps the cache invariant. -/
theorem CacheInv.bwrite (hc : CacheInv s) (b : Nat) (v : Block) :
    CacheInv (bwrite s b v) := by
  refine ⟨?_, hc.card_le, ?_⟩
  · exact (Finset.erase_subset _ _).trans hc.dirty_sub
  · intro x hx hxd
    show update s.bdata b v x = update s.disk b v x
    by_cases hxb : x = b
    · subst hxb
      rw [update_self, update_self]
    · rw [update_of_ne hxb, update_of_ne hxb]
      refine hc.clean x hx fun hd => hxd ?_
      exact Finset.mem_erase.mpr ⟨hxb, hd⟩

/-- `bwrite` is seen by every later `bread`, cached or not. -/
theorem bread_bwrite (s : State) (b : Nat) (v : Block) (x : Nat) :
    bread (Log.bwrite s b v) x = update (bread s) b v x := by
  unfold bread Log.bwrite
  by_cases hx : x = b
  · subst hx
    simp
  · simp [update_of_ne hx]

/-- A buffer read in from the disk. -/
theorem CacheInv.fill (hc : CacheInv s) (hb : b ∉ s.cached) (hroom : s.cached.card < nbuf) :
    CacheInv { s with
      cached := insert b s.cached
      bdata := update s.bdata b (s.disk b) } := by
  refine ⟨hc.dirty_sub.trans (Finset.subset_insert _ _), ?_, ?_⟩
  · show (insert b s.cached).card ≤ nbuf
    rw [Finset.card_insert_of_notMem hb]
    exact hroom
  · intro x hx hxd
    show update s.bdata b (s.disk b) x = s.disk x
    by_cases hxb : x = b
    · subst hxb
      rw [update_self]
    · rw [update_of_ne hxb]
      exact hc.clean x (Finset.mem_of_mem_insert_of_ne hx hxb) hxd

theorem bread_fill (hb : b ∉ s.cached) (x : Nat) : bread { s with
      cached := insert b s.cached
      bdata := update s.bdata b (s.disk b) } x = bread s x := by
  unfold bread
  by_cases hxb : x = b
  · subst hxb
    simp [hb]
  · simp [hxb]

/-- A clean buffer given up. -/
theorem CacheInv.recycle (hc : CacheInv s) (hb : b ∉ s.dirty) :
    CacheInv { s with cached := s.cached.erase b } := by
  refine ⟨?_, ?_, ?_⟩
  · intro x hx
    have hxb : x ≠ b := fun e => hb (e ▸ hx)
    exact Finset.mem_erase.mpr ⟨hxb, hc.dirty_sub hx⟩
  · exact (Finset.card_le_card (Finset.erase_subset _ _)).trans hc.card_le
  · intro x hx
    exact hc.clean x (Finset.mem_of_mem_erase hx)

theorem CacheInv.bread_recycle (hc : CacheInv s) (hb : b ∉ s.dirty) (x : Nat) :
    bread { s with cached := s.cached.erase b } x = bread s x := by
  unfold bread
  by_cases hxb : x = b
  · subst hxb
    by_cases hx : x ∈ s.cached
    · simp [hx, hc.clean x hx hb]
    · simp [hx]
  · simp [hxb]

/-- A buffer modified and pinned. -/
theorem CacheInv.pin (hc : CacheInv s) (hb : b ∈ s.cached) (v : Block) :
    CacheInv { s with
      bdata := update s.bdata b v, dirty := insert b s.dirty } := by
  refine ⟨?_, hc.card_le, ?_⟩
  · intro x hx
    rcases Finset.mem_insert.mp hx with rfl | hx
    · exact hb
    · exact hc.dirty_sub hx
  · intro x hx hxd
    have hxb : x ≠ b := fun e => hxd (e ▸ Finset.mem_insert_self _ _)
    show update s.bdata b v x = s.disk x
    rw [update_of_ne hxb]
    exact hc.clean x hx fun hd => hxd (Finset.mem_insert_of_mem hd)

theorem bread_pin (hb : b ∈ s.cached) (v : Block) (x : Nat) : bread { s with
      bdata := update s.bdata b v, dirty := insert b s.dirty } x
      = update (bread s) b v x := by
  unfold bread
  by_cases hxb : x = b
  · subst hxb
    simp [hb]
  · simp [update_of_ne hxb]

/-- The pigeonhole: a group that leaves room for one log block's buffer
has fewer than `nbuf` blocks. -/
theorem lh_lt_nbuf_of_slot (hc : CacheInv s) (ho : OpenInv g d₀ s)
    (hx : x ∈ s.cached) (hxl : x ∉ s.lh) : s.lh.length < nbuf := by
  have hsub : insert x s.lh.toFinset ⊆ s.cached := by
    intro y hy
    rcases Finset.mem_insert.mp hy with rfl | hy
    · exact hx
    · exact hc.dirty_sub ((ho.pinned y).mpr (List.mem_toFinset.mp hy))
  have hcard : (insert x s.lh.toFinset).card = s.lh.length + 1 := by
    rw [Finset.card_insert_of_notMem (by simpa using hxl),
      List.toFinset_card_of_nodup ho.nodup]
  have hle := (Finset.card_le_card hsub).trans hc.card_le
  omega

-- ==== replay transport

/-- A write that is no home block, no header and no listed slot leaves a
replayable disk replayable; stated for the empty log, where no slot is
listed. -/
theorem Replay.update_slot (h : Replay g base d [])
    (hx : ¬ Home g x) (hne : x ≠ g.start) :
    Replay g base (update d x v) [] := by
  refine ⟨?_, h.len, by simp, by simp, ?_⟩
  · rw [update_of_ne (Ne.symm hne)]
    exact h.head
  · intro b hb _
    have hbx : b ≠ x := fun e => hx (e ▸ hb)
    rw [update_of_ne hbx]
    exact h.rest b hb (by simp)

/-- Installing one listed block keeps the disk replayable. -/
theorem Replay.install {L : List Nat} (h : Replay g base d L) (hb : b ∈ L) :
    Replay g base (update d b (base b)) L := by
  have hhome := h.home b hb
  refine ⟨?_, h.len, h.home, ?_, ?_⟩
  · rw [update_of_ne]
    · exact h.head
    · have := h.len
      rcases hhome with h1 | h1 <;> omega
  · intro j c hj
    have hjl : j < L.length := (List.getElem?_eq_some_iff.mp hj).1
    have hlen := h.len
    rw [update_of_ne]
    · exact h.slots j c hj
    · rcases hhome with h1 | h1 <;> omega
  · intro c hc hcl
    have hcb : c ≠ b := fun e => hcl (e ▸ hb)
    rw [update_of_ne hcb]
    exact h.rest c hc hcl

/-- Erasing the header of a disk whose home blocks are all committed. -/
theorem Replay.erase (hsize : 0 < g.size)
    (hv : getHead v = []) (hall : ∀ b, Home g b → d b = base b) :
    Replay g base (update d g.start v) [] := by
  refine ⟨?_, hsize, by simp, by simp, ?_⟩
  · rw [update_self]
    exact hv
  · intro b hb _
    have hbs : b ≠ g.start := by rcases hb with h1 | h1 <;> omega
    rw [update_of_ne hbs]
    exact hall b hb

-- ==== phase inversions

/-- Every phase leaves a replayable disk. -/
theorem Inv.replay (h : Inv g d₀ s) : ∃ L, Replay g (committed d₀ s) s.disk L := by
  have hp := h.phase
  unfold Phase at hp
  split at hp
  · exact ⟨_, hp.replay⟩
  · exact hp.2
  · exact ⟨_, hp.1.replay⟩
  · exact ⟨_, hp.1.replay⟩
  · exact ⟨_, hp.replay⟩
  · exact hp.2.1
  · exact ⟨_, hp.1.replay⟩

/-- A process inside an operation runs in the open phase. -/
theorem Inv.open_of_active (h : Inv g d₀ s) {p : Nat} (hp : s.ops p ≠ .idle) :
    s.pc = none ∧ OpenInv g d₀ s := by
  have hpc : s.pc = none := by
    by_contra hne
    exact hp ((h.ops.alone hne).1 p)
  have hph := h.phase
  unfold Phase at hph
  rw [hpc] at hph
  exact ⟨hpc, hph⟩

/-- The phase reads the log, the disk, the buffers and the ghosts; the
processes and the panic flag do not enter it. -/
theorem Phase.congr (h : Phase g d₀ s) (hdisk : t.disk = s.disk)
    (hcached : t.cached = s.cached) (hdirty : t.dirty = s.dirty)
    (hbdata : t.bdata = s.bdata) (hlh : t.lh = s.lh) (hpc : t.pc = s.pc)
    (hgroup : t.group = s.group) (hgroups : t.groups = s.groups) : Phase g d₀ t := by
  obtain ⟨disk, cached, dirty, bdata, _, _, lh, _, pc, _, _, _, group, groups,
    _⟩ := s
  obtain ⟨disk', cached', dirty', bdata', _, _, lh', _, pc', _, _, _, group',
    groups', _⟩ := t
  simp only at hdisk hcached hdirty hbdata hlh hpc hgroup hgroups
  subst hdisk hcached hdirty hbdata hlh hpc hgroup hgroups
  cases pc' with
  | none => exact ⟨h.1, h.2, h.3, h.4, h.5, h.6⟩
  | some q =>
    cases q with
    | readHead => exact ⟨⟨h.1.1, h.1.2, h.1.3⟩, h.2⟩
    | writeLog | writeHead =>
      obtain ⟨ho, hcp, hk⟩ := h
      exact ⟨⟨ho.1, ho.2, ho.3, ho.4, ho.5, ho.6⟩, hcp, hk⟩
    | install k => exact ⟨h.1, h.2, h.3, h.4⟩
    | eraseHead =>
      obtain ⟨hi, hr, hall⟩ := h
      exact ⟨⟨hi.1, hi.2, hi.3⟩, hr, hall⟩
    | finish =>
      obtain ⟨ho, hl⟩ := h
      exact ⟨⟨ho.1, ho.2, ho.3, ho.4, ho.5, ho.6⟩, hl⟩

end Xv6FsServer.Log
