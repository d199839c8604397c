/-
The server's `disk_request` writes against the kernel's own commits.

`sys_disk_request` goes through the same buffers as the log, but outside
`begin_op`/`end_op`. Every `bread` sees it at once; what can take it back
is a copy of the sector made earlier. `write_log` copies the logged
blocks into the log and `install_trans` later writes the copies home, so
between those two moments the log holds a copy of the sector
(`Staged`). A request in that window is undone by the very commit that
is running (`staged_request_lost` is such a run). Outside it nothing is lost: in every
run whose requests avoid the window, what `bread` shows of a home block
is exactly what the requests and the transactions made it
(`diskRequest_kept`).

The step facts come in one shape, `Keeps`: the invariant goes on, and
`bread` moves by the label's own write and nothing else. `Shows` is the
part of it that is not the buffers' or the processes' own.
-/
import Xv6FsServer.Log.Proofs.Step

namespace Xv6FsServer.Log

open Lib Function

variable {g : Geometry} {s s' : State}
variable {b : Nat}
variable {a : Act} {p id x k : Nat} {calls : Finset Nat} {v : Block}

-- ==== the window

/-- The log holds a copy of the `j`-th listed block that has not been
installed yet. -/
def InLog : Option LogPc → Nat → Prop
  | some (.writeLog tail), j => j < tail
  | some .writeHead, _ => True
  | some (.install tail), j => tail ≤ j
  | _, _ => False

instance : ∀ (pc : Option LogPc) (j : Nat), Decidable (InLog pc j)
  | some (.writeLog tail), j => inferInstanceAs (Decidable (j < tail))
  | some .writeHead, _ => inferInstanceAs (Decidable True)
  | some (.install tail), j => inferInstanceAs (Decidable (tail ≤ j))
  | none, _ | some .readHead, _ | some .eraseHead, _ | some .finish, _ =>
    inferInstanceAs (Decidable False)

/-- The running commit is about to install a copy of the sector. -/
def Staged (s : State) (sector : Nat) : Prop :=
  ∃ j < s.lh.length, s.lh[j]? = some sector ∧ InLog s.pc j

instance (s : State) (sector : Nat) : Decidable (Staged s sector) :=
  inferInstanceAs
    (Decidable (∃ j < s.lh.length, s.lh[j]? = some sector ∧ InLog s.pc j))

/-- Transactions log home blocks the log has a slot for, and a request
goes to a home block no running commit holds a copy of. -/
def Apart (g : Geometry) (s : State) : Act → Prop
  | .check _ b => Home g b
  | .append _ b _ => b ∈ s.lh ∨ s.lh.length < g.size - 1
  | .diskRequest sector _ => Home g sector ∧ ¬ Staged s sector
  | .crash => False
  | _ => True

instance (g : Geometry) (s : State) : ∀ a, Decidable (Apart g s a)
  | .check _ b => inferInstanceAs (Decidable (Home g b))
  | .append _ b _ =>
    inferInstanceAs (Decidable (b ∈ s.lh ∨ s.lh.length < g.size - 1))
  | .diskRequest sector _ =>
    inferInstanceAs (Decidable (Home g sector ∧ ¬ Staged s sector))
  | .crash => inferInstanceAs (Decidable False)
  | .begin _ | .endOp _ | .tick | .load _ | .evict _ =>
    inferInstanceAs (Decidable True)

/-- The sector's contents after the label's own write: a request
replaces them, a transaction modifies what it read. -/
def written (sector : Nat) (v : Block) : Act → Block
  | .diskRequest x buf => if x = sector then buf else v
  | .append _ x f => if x = sector then f v else v
  | _ => v

-- ==== the invariant

/-- The log of a booted kernel: it fits, and each copy in it is what
`bread` shows of the block. -/
structure Fresh (g : Geometry) (s : State) : Prop where
  head : s.pc ≠ some .readHead
  home : ∀ b ∈ s.lh, Home g b
  len : s.lh.length ≤ g.size - 1
  copies : ∀ j b, s.lh[j]? = some b → InLog s.pc j →
    s.disk (g.start + j + 1) = bread s b

/-- `initlog` is still recovering. -/
structure Booting (s : State) : Prop where
  pc : s.pc ≠ none
  dirty : s.dirty = ∅
  lh : s.pc = some .eraseHead ∨ s.pc = some .finish → s.lh = []

structure ReqInv (g : Geometry) (s : State) : Prop where
  cache : CacheInv s
  ops : OpsInv g s
  pinned : ∀ b ∈ s.dirty, Home g b
  booting : s.booted = false → Booting s
  fresh : s.booted = true → Fresh g s

/-- The step goes on in the invariant and shows only its own write. -/
structure Keeps (g : Geometry) (a : Act) (s s' : State) : Prop where
  inv : ReqInv g s'
  booted : s.booted = true → s'.booted = true
  view : s.booted = true → ∀ x, Home g x →
    bread s' x = written x (bread s x) a

/-- Steps that leave disk, buffers and log alone. -/
theorem Fresh.congr (h : Fresh g s) (hdisk : s'.disk = s.disk)
    (hview : ∀ x, bread s' x = bread s x) (hlh : s'.lh = s.lh)
    (hhead : s'.pc ≠ some .readHead)
    (hpc : ∀ j b, s.lh[j]? = some b → InLog s'.pc j → InLog s.pc j) :
    Fresh g s' := by
  refine ⟨hhead, ?_, ?_, ?_⟩
  · rw [hlh]
    exact h.home
  · rw [hlh]
    exact h.len
  · intro j b hj hin
    rw [hlh] at hj
    rw [hdisk, hview b]
    exact h.copies j b hj (hpc j b hj hin)

/-- `Keeps` without the buffers and the processes. -/
structure Shows (g : Geometry) (a : Act) (s s' : State) : Prop where
  pinned : ∀ b ∈ s'.dirty, Home g b
  booting : s'.booted = false → Booting s'
  fresh : s'.booted = true → Fresh g s'
  booted : s.booted = true → s'.booted = true
  view : s.booted = true → ∀ x, Home g x →
    bread s' x = written x (bread s x) a

/-- Steps that leave the blocks, the log and the program counter alone. -/
theorem ReqInv.shows_of_view (h : ReqInv g s)
    (hdisk : s'.disk = s.disk) (hdirty : s'.dirty = s.dirty)
    (hview : ∀ x, bread s' x = bread s x) (hlh : s'.lh = s.lh)
    (hpc : s'.pc = s.pc) (hboot : s'.booted = s.booted)
    (ha : ∀ x v, written x v a = v) : Shows g a s s' := by
  refine ⟨?_, ?_, ?_, ?_, ?_⟩
  · rw [hdirty]
    exact h.pinned
  · intro hb
    rw [hboot] at hb
    obtain ⟨h1, h2, h3⟩ := h.booting hb
    refine ⟨?_, ?_, ?_⟩
    · rw [hpc]
      exact h1
    · rw [hdirty]
      exact h2
    · rw [hpc, hlh]
      exact h3
  · intro hb
    rw [hboot] at hb
    refine (h.fresh hb).congr hdisk hview hlh ?_ ?_
    · rw [hpc]
      exact (h.fresh hb).head
    · rw [hpc]
      exact fun _ _ _ hin => hin
  · rw [hboot]
    exact fun hb => hb
  · intro _ x _
    rw [ha, hview x]

/-- `log_write` pins what the caller made of the current contents. -/
theorem shows_append {f : Block → Block}
    (h : ReqInv g s) (hroom : b ∈ s.lh ∨ s.lh.length < g.size - 1)
    (hop : s.ops p = .checked id calls b) (hin : b ∈ s.cached) :
    Shows g (.append p b f) s { s with
      lh := absorb s.lh b
      bdata := update s.bdata b (f (s.bdata b))
      dirty := insert b s.dirty
      ops := update s.ops p (.inOp id (insert b calls))
      group := s.group ++ [⟨id, b, f (s.bdata b)⟩]
      ledger := s.ledger ++ [⟨id, b, f (s.bdata b)⟩] } := by
  have hhome := (h.ops.checked p id calls b hop).1
  have hpc : s.pc = none := h.ops.pc_of_active (p := p) (by rw [hop]; simp)
  refine ⟨?_, ?_, ?_, fun hb => hb, ?_⟩
  · intro x hx
    rcases Finset.mem_insert.mp hx with rfl | hx
    · exact hhome
    · exact h.pinned x hx
  · intro hb
    exact absurd hpc (h.booting hb).pc
  · intro hb
    have hf := h.fresh hb
    refine ⟨hf.head, ?_, ?_, ?_⟩
    · intro x hx
      rcases mem_absorb.mp hx with hx | rfl
      · exact hf.home x hx
      · exact hhome
    · show (absorb s.lh b).length ≤ g.size - 1
      have hlen := hf.len
      unfold absorb
      split
      next => exact hlen
      next hnew =>
        rcases hroom with hmem | hlt
        · exact absurd hmem hnew
        · rw [List.length_append, List.length_singleton]
          omega
    · intro j c _ hj
      -- no commit is running, so the log holds no copy
      have hj' : InLog s.pc j := hj
      rw [hpc] at hj'
      exact hj'.elim
  · intro _ x _
    refine (bread_pin hin _ x).trans ?_
    show _ = if b = x then f (bread s x) else bread s x
    by_cases hx : x = b
    · subst hx
      rw [update_self, if_pos rfl, bread_of_mem hin]
    · rw [update_of_ne hx, if_neg (Ne.symm hx)]

/-- `commit()` starts, and `write_log` has not copied anything yet. -/
theorem shows_last (h : ReqInv g s) (hop : s.ops p = .inOp id calls) :
    Shows g (.endOp p) s { s with
      outstanding := 0
      committing := true
      ops := update s.ops p .idle
      pc := some (if s.lh = [] then .finish else .writeLog 0) } := by
  have hpc : s.pc = none := h.ops.pc_of_active (p := p) (by rw [hop]; simp)
  refine ⟨h.pinned, ?_, ?_, fun hb => hb, fun _ _ _ => rfl⟩
  · intro hb
    exact absurd hpc (h.booting hb).pc
  · intro hb
    refine (h.fresh hb).congr rfl (fun _ => rfl) rfl ?_ ?_
    · show some (if s.lh = [] then LogPc.finish else .writeLog 0)
        ≠ some .readHead
      split <;> simp
    · intro j b _ hin
      split at hin
      · exact hin.elim
      · exact absurd hin (Nat.not_lt_zero j)

-- ==== the ticks

/-- A write that does not show: to a block of the log area, or of what
`bread` shows already. -/
def Unseen (g : Geometry) (s : State) (b : Nat) (v : Block) : Prop :=
  ¬ Home g b ∨ v = bread s b

theorem Unseen.bread_bwrite (h : Unseen g s b v) (hx : Home g x) :
    bread (bwrite s b v) x = bread s x := by
  rw [Log.bread_bwrite]
  by_cases hxb : x = b
  · subst hxb
    rcases h with h | rfl
    · exact absurd hx h
    · rw [update_self]
  · rw [update_of_ne hxb]

/-- A disk write of `commit()` or recovery that does not show, with the
program counter moved on to `q`. -/
theorem ReqInv.shows_bwrite {q : LogPc} (h : ReqInv g s)
    (hdisk : s'.disk = (bwrite s b v).disk) (hcached : s'.cached = s.cached)
    (hdirty : s'.dirty = s.dirty.erase b) (hbdata : s'.bdata = (bwrite s b v).bdata)
    (hlh : s'.lh = s.lh) (hpc : s'.pc = some q) (hboot : s'.booted = s.booted)
    (hq : s.booted = false → q = .eraseHead ∨ q = .finish → s.lh = [])
    (hhead : q ≠ .readHead) (hseen : s.booted = true → Unseen g s b v)
    (hcopies : s.booted = true → ∀ j c, s.lh[j]? = some c → InLog (some q) j →
      s'.disk (g.start + j + 1) = bread s c) : Shows g .tick s s' := by
  have hview : ∀ x, bread s' x = bread (bwrite s b v) x := by
    intro x
    unfold bread
    rw [hcached, hbdata, hdisk]
    rfl
  have hshow : s.booted = true → ∀ x, Home g x → bread s' x = bread s x := by
    intro hb x hx
    rw [hview x]
    exact (hseen hb).bread_bwrite hx
  refine ⟨?_, ?_, ?_, ?_, ?_⟩
  · intro x hx
    rw [hdirty] at hx
    exact h.pinned x (Finset.mem_of_mem_erase hx)
  · intro hb
    rw [hboot] at hb
    refine ⟨?_, ?_, ?_⟩
    · rw [hpc]
      simp
    · rw [hdirty, (h.booting hb).dirty]
      rfl
    · rw [hpc, hlh]
      intro hor
      exact hq hb (hor.imp Option.some.inj Option.some.inj)
  · intro hb
    rw [hboot] at hb
    have hf := h.fresh hb
    refine ⟨?_, ?_, ?_, ?_⟩
    · rw [hpc]
      exact fun e => hhead (Option.some.inj e)
    · rw [hlh]
      exact hf.home
    · rw [hlh]
      exact hf.len
    · intro j c hj hin
      rw [hlh] at hj
      rw [hpc] at hin
      rw [hshow hb c (hf.home c (List.mem_of_getElem? hj))]
      exact hcopies hb j c hj hin
  · rw [hboot]
    exact fun hb => hb
  · exact hshow

/-- The header block is in the log area. -/
theorem start_not_home (hsize : 0 < g.size) : ¬ Home g g.start := by
  rintro (h | h) <;> omega

/-- `write_log` copies one more block as `bread` shows it. -/
theorem shows_writeLog (h : ReqInv g s) (hpc : s.pc = some (.writeLog k))
    (hb : s.lh[k]? = some b) (hin : b ∈ s.cached) :
    Shows g .tick s { bwrite s (g.start + k + 1) (s.bdata b) with
      pc := some (.writeLog (k + 1)) } := by
  have hkl : k < s.lh.length := (List.getElem?_eq_some_iff.mp hb).1
  refine h.shows_bwrite rfl rfl rfl rfl rfl rfl rfl (by simp) (by simp) ?_ ?_
  · intro hboot
    have hlen := (h.fresh hboot).len
    exact Or.inl (slot_not_home (by omega))
  · intro hboot j c hj hjk
    show update s.disk (g.start + k + 1) (s.bdata b) (g.start + j + 1)
      = bread s c
    by_cases hjk' : j = k
    · subst hjk'
      rw [update_self]
      cases Option.some.inj (hj.symm.trans hb)
      exact (bread_of_mem hin).symm
    · have hlt : j < k + 1 := hjk
      rw [update_of_ne (by omega)]
      refine (h.fresh hboot).copies j c hj ?_
      rw [hpc]
      show j < k
      omega

/-- `install_trans` writes home what `bread` shows already. -/
theorem shows_install (h : ReqInv g s) (hpc : s.pc = some (.install k))
    (hb : s.lh[k]? = some b) (hin : g.start + k + 1 ∈ s.cached) :
    Shows g .tick s { bwrite s b (s.bdata (g.start + k + 1)) with
      pc := some (.install (k + 1)) } := by
  have hkl : k < s.lh.length := (List.getElem?_eq_some_iff.mp hb).1
  refine h.shows_bwrite rfl rfl rfl rfl rfl rfl rfl (by simp) (by simp) ?_ ?_
  · intro hboot
    have hf := h.fresh hboot
    have hlen := hf.len
    -- log blocks are never pinned, so the slot's buffer is the disk's copy
    have hclean : g.start + k + 1 ∉ s.dirty :=
      fun hd => slot_not_home (by omega) (h.pinned _ hd)
    refine Or.inr ?_
    rw [h.cache.clean _ hin hclean]
    refine hf.copies k b hb ?_
    rw [hpc]
    exact Nat.le_refl k
  · intro hboot j c hj hjk
    have hf := h.fresh hboot
    have hlen := hf.len
    have hjl : j < s.lh.length := (List.getElem?_eq_some_iff.mp hj).1
    have hne : g.start + j + 1 ≠ b := fun e =>
      slot_not_home (by omega) (e ▸ hf.home b (List.mem_of_getElem? hb))
    show update s.disk b _ (g.start + j + 1) = bread s c
    rw [update_of_ne hne]
    refine hf.copies j c hj ?_
    rw [hpc]
    exact Nat.le_of_succ_le hjk

theorem shows_writeHead (hsize : 0 < g.size) (h : ReqInv g s)
    (hpc : s.pc = some .writeHead) :
    Shows g .tick s { bwrite s g.start (putHead s.lh (s.bdata g.start)) with
      pc := some (.install 0)
      groups := s.groups ++ [s.group]
      group := [] } := by
  refine h.shows_bwrite rfl rfl rfl rfl rfl rfl rfl (by simp) (by simp)
    (fun _ => Or.inl (start_not_home hsize)) ?_
  intro hboot j c hj _
  show update s.disk g.start _ (g.start + j + 1) = bread s c
  rw [update_of_ne (by omega)]
  refine (h.fresh hboot).copies j c hj ?_
  rw [hpc]
  trivial

theorem shows_eraseHead (hsize : 0 < g.size) (h : ReqInv g s)
    (hpc : s.pc = some .eraseHead) :
    Shows g .tick s { bwrite s g.start (putHead s.lh (s.bdata g.start)) with
      pc := some .finish } := by
  refine h.shows_bwrite rfl rfl rfl rfl rfl rfl rfl ?_ (by simp)
    (fun _ => Or.inl (start_not_home hsize)) ?_
  · intro hb _
    exact (h.booting hb).lh (Or.inl hpc)
  · intro _ j c _ hin
    exact hin.elim

/-- A tick that writes nothing: the log or the program counter moves. -/
theorem ReqInv.shows_quiet (h : ReqInv g s) (hdirty : s'.dirty = s.dirty)
    (hview : ∀ x, bread s' x = bread s x)
    (hbooted : s.booted = true → s'.booted = true)
    (hbooting : s'.booted = false → Booting s')
    (hfresh : s'.booted = true → Fresh g s') : Shows g .tick s s' := by
  refine ⟨?_, hbooting, hfresh, hbooted, fun _ x _ => hview x⟩
  rw [hdirty]
  exact h.pinned

theorem shows_readHead (h : ReqInv g s) (hpc : s.pc = some .readHead) :
    Shows g .tick s { s with
      lh := getHead (s.bdata g.start), pc := some (.install 0) } := by
  have hboot : s.booted = false := by
    by_contra hb
    exact (h.fresh (by simpa using hb)).head hpc
  refine h.shows_quiet rfl (fun _ => rfl) (fun hb => hb) ?_ ?_
  · intro _
    exact ⟨by simp, (h.booting hboot).dirty, by simp⟩
  · intro hb
    cases hboot.symm.trans hb

theorem shows_copied (h : ReqInv g s)
    (hpc : s.pc = some (.writeLog k)) (hb : s.lh[k]? = none) :
    Shows g .tick s { s with pc := some .writeHead } := by
  refine h.shows_quiet rfl (fun _ => rfl) (fun hb => hb) ?_ ?_
  · intro hboot
    exact ⟨by simp, (h.booting hboot).dirty, by simp⟩
  · intro hboot
    refine (h.fresh hboot).congr rfl (fun _ => rfl) rfl (by simp) ?_
    intro j b hj _
    have hjl := (List.getElem?_eq_some_iff.mp hj).1
    have hkl := List.getElem?_eq_none_iff.mp hb
    rw [hpc]
    show j < k
    omega

theorem shows_installed (h : ReqInv g s) :
    Shows g .tick s { s with lh := [], pc := some .eraseHead } := by
  refine h.shows_quiet rfl (fun _ => rfl) (fun hb => hb) ?_ ?_
  · intro hboot
    exact ⟨by simp, (h.booting hboot).dirty, fun _ => rfl⟩
  · intro _
    exact ⟨by simp, by simp, Nat.zero_le _, by simp⟩

theorem shows_finish (h : ReqInv g s) (hpc : s.pc = some .finish) :
    Shows g .tick s
      { s with committing := false, booted := true, pc := none } := by
  refine h.shows_quiet rfl (fun _ => rfl) (fun _ => rfl) (by simp) ?_
  intro _
  by_cases hboot : s.booted = true
  · exact (h.fresh hboot).congr rfl (fun _ => rfl) rfl (by simp)
      fun _ _ _ hin => hin.elim
  -- recovery ends with nothing logged
  have hlh := (h.booting (by simpa using hboot)).lh (Or.inr hpc)
  refine ⟨by simp, ?_, ?_, ?_⟩
  · simp [hlh]
  · simp [hlh]
  · simp [hlh]

-- ==== the step

/-- A request outside the window leaves every copy in the log current. -/
theorem shows_diskRequest {sector : Nat} {buf : Block} (h : ReqInv g s)
    (hhome : Home g sector) (hst : ¬ Staged s sector) (hboot : s.booted = true) :
    Shows g (.diskRequest sector buf) s (bwrite s sector buf) := by
  refine ⟨?_, ?_, ?_, fun hb => hb, ?_⟩
  · intro x hx
    exact h.pinned x (Finset.mem_of_mem_erase hx)
  · intro hb
    cases hb.symm.trans hboot
  · intro _
    have hf := h.fresh hboot
    have hlen := hf.len
    refine ⟨hf.head, hf.home, hf.len, ?_⟩
    intro j c hj hin
    have hjl : j < s.lh.length := (List.getElem?_eq_some_iff.mp hj).1
    have hc : c ≠ sector := fun e => hst ⟨j, hjl, e ▸ hj, hin⟩
    have hslot : g.start + j + 1 ≠ sector :=
      fun e => slot_not_home (by omega) (e ▸ hhome)
    rw [bread_bwrite, update_of_ne hc]
    show update s.disk sector buf (g.start + j + 1) = bread s c
    rw [update_of_ne hslot]
    exact hf.copies j c hj hin
  · intro _ x _
    rw [bread_bwrite]
    show _ = if sector = x then buf else bread s x
    by_cases hx : x = sector
    · subst hx
      rw [update_self, if_pos rfl]
    · rw [update_of_ne hx, if_neg (Ne.symm hx)]

theorem shows_eff (hsize : 0 < g.size) (h : ReqInv g s)
    (ha : Apart g s a) (he : Eff g s a s') : Shows g a s s' := by
  cases he with
  | appended hop hin => exact shows_append h ha hop hin
  | last hop => exact shows_last h hop
  | readHead hpc => exact shows_readHead h hpc
  | writeLog hpc hb _ hin => exact shows_writeLog h hpc hb hin
  | copied hpc hb => exact shows_copied h hpc hb
  | writeHead hpc => exact shows_writeHead hsize h hpc
  | install hpc hb hslot => exact shows_install h hpc hb hslot
  | installed => exact shows_installed h
  | eraseHead hpc => exact shows_eraseHead hsize h hpc
  | finish hpc => exact shows_finish h hpc
  | loaded hb =>
    exact h.shows_of_view rfl rfl (bread_fill hb) rfl rfl rfl fun _ _ => rfl
  | evicted hb =>
    exact h.shows_of_view rfl rfl (h.cache.bread_recycle hb) rfl rfl rfl
      fun _ _ => rfl
  | requested hboot => exact shows_diskRequest h ha.1 ha.2 hboot
  | crashed => exact ha.elim
  | slept | entered | tooBig | outside | checked | endPanic | left
  | noBuffers =>
    exact h.shows_of_view rfl rfl (fun _ => rfl) rfl rfl rfl fun _ _ => rfl

theorem Apart.check_home (h : Apart g s a) (p b : Nat)
    (ha : a = .check p b) : Home g b := by
  subst ha
  exact h

theorem keeps_step (hsize : 0 < g.size) (h : ReqInv g s)
    (ha : Apart g s a) (hs : step g s a = some s') : Keeps g a s s' := by
  have he := step_eff hs
  obtain ⟨h1, h2, h3, h4, h5⟩ := shows_eff hsize h ha he
  exact ⟨⟨cache_eff h.cache he, ops_eff h.ops ha.check_home he, h1, h2, h3⟩,
    h4, h5⟩

theorem reqInv_powerOn (g : Geometry) (d : Disk) : ReqInv g (powerOn d) := by
  refine ⟨⟨by simp [powerOn], by simp [powerOn], by simp [powerOn]⟩,
    ⟨⟨∅, by simp [powerOn], rfl⟩, ?_, fun _ => ⟨fun _ => rfl, Or.inr rfl⟩, ?_⟩,
    by simp [powerOn], fun _ => ⟨by simp [powerOn], rfl, by simp [powerOn]⟩, ?_⟩
  · intro p id calls b hp
    cases hp
  · intro hc
    cases hc
  · intro hb
    cases hb

/-- Along a run of a booted kernel a home block shows the writes of the
schedule, one after the other. -/
theorem bread_runs (hsize : 0 < g.size) {acts : List Act}
    (hx : Home g x) (h : ReqInv g s) (hboot : s.booted = true)
    (hok : Along (step g) (Apart g) s acts) (hr : runs (step g) s acts = some s') :
    bread s' x = acts.foldl (written x) (bread s x) := by
  induction acts generalizing s with
  | nil =>
    cases hr
    rfl
  | cons a acts ih =>
    obtain ⟨t, ht, hrest⟩ := runs_cons hr
    obtain ⟨ha, hal⟩ := hok.cons ht
    have hk := keeps_step hsize h ha ht
    rw [ih hk.inv (hk.booted hboot) hal hrest, hk.view hboot x hx]
    rfl

-- ==== the theorem

/-- Acknowledged requests are kept. In every run whose requests avoid
the sectors a running commit holds copies of (and the log area), and
whose transactions find a log slot, the sector reads as the request left
it, changed only by the later requests and transactions on it. -/
theorem diskRequest_kept (g : Geometry) (hsize : 0 < g.size) (d₀ : Disk)
    (before after : List Act) (sector : Nat) (buf : Block) (s : State)
    (hok : Along (step g) (Apart g) (powerOn d₀)
      (before ++ .diskRequest sector buf :: after))
    (hr : runs (step g) (powerOn d₀)
      (before ++ .diskRequest sector buf :: after) = some s) :
    bread s sector = after.foldl (written sector) buf := by
  obtain ⟨t, ht, hrest⟩ := runs_append_some hr
  obtain ⟨hok1, hok2⟩ := hok.append ht
  have hinv : ReqInv g t :=
    Along.invariant (fun _ _ _ h ha hst => (keeps_step hsize h ha hst).inv)
      (reqInv_powerOn g d₀) hok1 ht
  obtain ⟨u, hu, hafter⟩ := runs_cons hrest
  obtain ⟨hap, hal⟩ := hok2.cons hu
  have hboot : t.booted = true := by
    have hl := live_of_step hu
    simp only [live, diskRequest] at hl
    split at hl
    next hcond => exact hcond.1
    next => cases hl
  have hk := keeps_step hsize hinv hap hu
  have hnow : bread u sector = buf := by
    rw [hk.view hboot sector hap.1]
    exact if_pos rfl
  rw [bread_runs hsize hap.1 hk.inv (hk.booted hboot) hal hafter, hnow]

/-- Boot, and one transaction on block 60 up to `write_log`'s first
copy. -/
def copiedOnce : List Act :=
  [.load 2, .tick, .tick, .tick, .tick, .begin 0, .check 0 60, .load 60,
    .append 0 60 (fun _ => Bytes.ofFn fun _ => 1), .endOp 0, .load 3, .tick]

/-- A request for another sector in the same place is kept over the rest
of the commit. -/
theorem diskRequest_kept_61 :
    ∃ s, runs (step ⟨2, logSize⟩) (powerOn fun _ => Bytes.zero)
        ((copiedOnce ++ [.load 61]) ++ .diskRequest 61 (Bytes.ofFn fun _ => 2)
          :: [.tick, .tick, .tick, .tick, .tick, .tick]) = some s
      ∧ s.pc = none ∧ bread s 61 = Bytes.ofFn fun _ => 2 := by
  have heval : (runs (step ⟨2, logSize⟩) (powerOn fun _ => Bytes.zero)
      ((copiedOnce ++ [.load 61]) ++ .diskRequest 61 (Bytes.ofFn fun _ => 2)
        :: [.tick, .tick, .tick, .tick, .tick, .tick])).map State.pc
      = some none := by decide
  obtain ⟨s, hs, hpc⟩ := Option.map_eq_some_iff.mp heval
  exact ⟨s, hs, hpc, diskRequest_kept ⟨2, logSize⟩ (by decide) _
    (copiedOnce ++ [.load 61]) [.tick, .tick, .tick, .tick, .tick, .tick] 61 _ s
    (by decide) hs⟩

/-- A request for the copied block itself is acknowledged and then
overwritten when the commit installs its older copy. -/
theorem staged_request_lost :
    (runs (step ⟨2, logSize⟩) (powerOn fun _ => Bytes.zero)
        (copiedOnce ++ [.diskRequest 60 (Bytes.ofFn fun _ => 2)])).map
          (fun s => (bread s 60).get 0) = some 2
      ∧ (runs (step ⟨2, logSize⟩) (powerOn fun _ => Bytes.zero)
        (copiedOnce ++ [.diskRequest 60 (Bytes.ofFn fun _ => 2)]
          ++ [.tick, .tick, .tick])).map
          (fun s => (bread s 60).get 0) = some 1 := by
  decide

end Xv6FsServer.Log
