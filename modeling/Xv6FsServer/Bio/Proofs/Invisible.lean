/-
The buffer cache is invisible.

`bread` returns what a block was last given, whichever buffers were
recycled in between, and a commit in progress does not show
(`cache_invisible`). Two things are needed of the writers (`Apart`): the
log's own blocks are the log's, and no `bwrite` is made of a block that is
in a transaction.

The second is not what the kernel does. `sys_disk_request` lets the file
server `bwrite` any block. That clears `B_DIRTY`, the log's pin, and if the
block is in the log already, the commit overwrites it with what it was
before (`write_lost`).
-/
import Xv6FsServer.Bio.Proofs.Cache

namespace Xv6FsServer.Bio

open Lib Function

variable {g : Log.Geometry} {s s' : State} {a : Act}
variable {j b : Nat} {v : Block} {c : Cache}
variable {p i tail : Nat}

-- ==== the condition

/-- The blocks of the log itself. -/
def inLog (g : Log.Geometry) (b : Nat) : Prop := g.start ≤ b ∧ b < g.start + g.size

instance (g : Log.Geometry) (b : Nat) : Decidable (inLog g b) :=
  inferInstanceAs (Decidable (_ ∧ _))

/-- The transaction in `lh` has not reached its commit point. -/
def State.uncommitted (s : State) : Bool :=
  match s.commit with
  | none | some (_, .writeLog _) | some (_, .writeHead) => true
  | some (_, .install _) | some (_, .eraseHead) => false

/-- Nobody logs a block of the log, `bwrite`s a block that is in the
transaction, or `bwrite`s a block of the log while it is in use. The log's
pin is one of the things kept, so a block of the transaction is left alone
from its `log_write` on, not only while the log has a copy of it. -/
def Apart (g : Log.Geometry) (s : State) : Act → Prop
  | .logWrite _ i _ => ¬ inLog g (s.cache.buf i).blockno
  | .bwrite _ i _ => (s.cache.buf i).blockno ∉ s.lh
      ∧ ¬ (s.commit.isSome = true ∧ inLog g (s.cache.buf i).blockno)
  | _ => True

instance (g : Log.Geometry) (s : State) : ∀ a, Decidable (Apart g s a)
  | .logWrite _ _ _ => inferInstanceAs (Decidable (¬ inLog g _))
  | .bwrite _ _ _ => inferInstanceAs (Decidable (_ ∧ ¬ (_ ∧ _)))
  | .get _ _ _ | .lock _ | .brelse _ _ | .beginOp | .endOp _ | .tick =>
    isTrue trivial

-- ==== the invariant

/-- The log block of entry `j` has the contents of the entry's block. -/
def State.Copied (g : Log.Geometry) (s : State) (j : Nat) : Prop :=
  ∀ b, s.lh[j]? = some b → s.given (g.start + j + 1) = s.given b

/-- What a commit has done so far. -/
def State.Progress (g : Log.Geometry) (s : State) : Prop :=
  match s.commit with
  | none => True
  | some (_, .writeLog tail) => ∀ j, j < tail → s.Copied g j
  | some (_, .writeHead) | some (_, .install _) => ∀ j, s.Copied g j
  | some (_, .eraseHead) => s.lh = []

structure BioInv (g : Log.Geometry) (s : State) : Prop where
  ok : CacheOk s.cache s.waiting s.given
  fits : s.lh.length ≤ g.size - 1
  apart : ∀ b ∈ s.lh, ¬ inLog g b
  pinned : s.uncommitted = true → ∀ b ∈ s.lh, s.cache.Pinned b
  progress : s.Progress g
  quiet : s.commit.isSome = true → s.outstanding = 0

/-- The log block of an entry is in the log. -/
theorem BioInv.slot (h : BioInv g s) (hj : s.lh[j]? = some b) :
    inLog g (g.start + j + 1) := by
  have hlt : j < s.lh.length := (List.getElem?_eq_some_iff.mp hj).1
  have := h.fits
  unfold inLog
  omega

theorem BioInv.ne_slot (h : BioInv g s) {k b' : Nat} (hj : s.lh[j]? = some b)
    (hk : s.lh[k]? = some b') : b ≠ g.start + k + 1 := by
  intro he
  have hmem := List.mem_of_getElem? hj
  rw [he] at hmem
  exact h.apart _ hmem (h.slot hk)

theorem BioInv.ne_start (h : BioInv g s) (hb : b ∈ s.lh) : b ≠ g.start := by
  intro he
  have hpos : 0 < s.lh.length := List.length_pos_of_mem hb
  have := h.fits
  refine h.apart b hb ⟨by omega, by omega⟩

/-- What the copies say stays true when something else is given. -/
theorem State.Copied.update {x : Nat} (h : s.Copied g j) (hlh : s'.lh = s.lh)
    (hgiven : s'.given = update s.given x v) (hx : g.start + j + 1 ≠ x)
    (hno : ∀ b, s.lh[j]? = some b → b ≠ x) :
    s'.Copied g j := by
  intro b hb
  rw [hlh] at hb
  rw [hgiven, update_of_ne hx, update_of_ne (hno b hb)]
  exact h b hb

section

variable (h : BioInv g s)
include h

/-- A step of the cache alone. -/
theorem BioInv.of_cache {W : List Wait} (hok : CacheOk c W s.given)
    (hpin : ∀ b, s.cache.Pinned b → c.Pinned b) :
    BioInv g { s with cache := c, waiting := W } :=
  ⟨hok, h.fits, h.apart, fun hu b hb => hpin b (h.pinned hu b hb), h.progress, h.quiet⟩

-- ==== the steps

theorem logWrite_inv (hok : Apart g s (.logWrite p i v))
    (hs : logWrite g s p i v = some s') :
    BioInv g s' := by
  unfold logWrite at hs
  dsimp only at hs
  split at hs
  next hl =>
    split at hs
    next => cases hs
    next hroom =>
      split at hs
      next => cases hs
      next hout =>
        cases hs
        obtain ⟨hc, hnew, hpin⟩ := pin_ok h.ok hl v
        have hidle : s.commit = none := by
          cases hcm : s.commit with
          | none => rfl
          | some x =>
            have := h.quiet (by rw [hcm]; rfl)
            omega
        have hmem : ∀ b ∈ Log.absorb s.lh (s.cache.buf i).blockno,
            b ∈ s.lh ∨ b = (s.cache.buf i).blockno := by
          intro b hb
          unfold Log.absorb at hb
          split at hb
          next => exact .inl hb
          next =>
            rcases List.mem_append.mp hb with hb | hb
            · exact .inl hb
            · exact .inr (List.mem_singleton.mp hb)
        refine ⟨hc, ?_, ?_, ?_, ?_, h.quiet⟩
        · unfold Log.absorb
          have := h.fits
          split
          next => exact h.fits
          next =>
            rw [List.length_append, List.length_singleton]
            omega
        · intro b hb
          rcases hmem b hb with hb | hb
          · exact h.apart b hb
          · rw [hb]
            exact hok
        · intro _ b hb
          rcases hmem b hb with hb | hb
          · refine hpin b (h.pinned ?_ b hb)
            unfold State.uncommitted
            rw [hidle]
          · rw [hb]
            exact hnew
        · unfold State.Progress
          rw [hidle]
          trivial
  next => cases hs

theorem bwrite_inv (hok : Apart g s (.bwrite p i v))
    (hw : bwrite s.cache p i v = some c) :
    BioInv g { s with
      cache := c, given := update s.given (s.cache.buf i).blockno v } := by
  obtain ⟨hc, hwrote⟩ := bwrite_ok h.ok hw
  obtain ⟨hlh, hlog⟩ := hok
  have hkept : s.commit.isSome = true → ∀ j, s.Copied g j →
      State.Copied g { s with
        cache := c, given := update s.given (s.cache.buf i).blockno v } j := by
    intro hcm j hj b hb
    show update s.given _ v _ = update s.given _ v _
    rw [update_of_ne, update_of_ne]
    · exact hj b hb
    · intro he
      rw [← he] at hlh
      exact hlh (List.mem_of_getElem? hb)
    · intro he
      exact hlog ⟨hcm, he ▸ h.slot hb⟩
  refine ⟨hc, h.fits, h.apart, fun hu b hb => ?_, ?_, h.quiet⟩
  · refine hwrote.pinned b ?_ (h.pinned hu b hb)
    intro he
    rw [← he] at hlh
    exact hlh hb
  · have hp := h.progress
    unfold State.Progress at hp ⊢
    cases hcm : s.commit with
    | none => trivial
    | some x =>
      obtain ⟨q, pc⟩ := x
      have hsome : s.commit.isSome = true := by
        rw [hcm]
        rfl
      rw [hcm] at hp
      cases pc with
      | writeLog tail => exact fun j hj => hkept hsome j (hp j hj)
      | writeHead => exact fun j => hkept hsome j (hp j)
      | install tail => exact fun j => hkept hsome j (hp j)
      | eraseHead => exact hp

theorem writeLog_inv
    (hcm : s.commit = some (p, .writeLog tail)) (hb : s.lh[tail]? = some b)
    (hw : writeLog g s.cache p tail b = some (v, c)) :
    BioInv g { s with
      cache := c
      given := update s.given (g.start + tail + 1) v
      commit := some (p, .writeLog (tail + 1)) } := by
  obtain ⟨hv, hc, hpin⟩ := writeLog_ok h.ok hw
  have hp := h.progress
  unfold State.Progress at hp
  rw [hcm] at hp
  refine ⟨hc, h.fits, h.apart, fun _ b' hb' => ?_, fun j hj => ?_,
    fun _ => h.quiet (by rw [hcm]; rfl)⟩
  · refine hpin b' ?_ (h.pinned (by unfold State.uncommitted; rw [hcm]) b' hb')
    obtain ⟨k, hk⟩ := List.getElem?_of_mem hb'
    exact h.ne_slot hk hb
  · -- the entries before this one are in the log already
    by_cases hjt : j = tail
    · subst hjt
      intro b' hb'
      cases hb.symm.trans hb'
      show update s.given _ v _ = update s.given _ v _
      rw [update_self, update_of_ne (h.ne_slot hb hb)]
      exact hv
    · have hlt : j < tail := by omega
      refine (hp j hlt).update rfl rfl ?_ fun b' hb' => h.ne_slot hb' hb
      omega

theorem writeHead_copied (hj : s.Copied g j) (hlh : s'.lh = s.lh)
    (hgiven : s'.given = update s.given g.start v) :
    s'.Copied g j := by
  refine hj.update hlh hgiven (by omega) fun b hb => ?_
  exact h.ne_start (List.mem_of_getElem? hb)

theorem install_inv
    (hcm : s.commit = some (p, .install tail)) (hb : s.lh[tail]? = some b)
    (hw : installTrans g s.cache p tail b = some (v, c)) :
    BioInv g { s with cache := c, commit := some (p, .install (tail + 1)) } := by
  obtain ⟨hv, hc, -⟩ := installTrans_ok h.ok hw
  have hp := h.progress
  unfold State.Progress at hp
  rw [hcm] at hp
  -- what comes out of the log is what the block has been given
  have hsame : update s.given b v = s.given := by
    rw [update_eq_self_iff, hv]
    exact hp tail b hb
  rw [hsame] at hc
  exact ⟨hc, h.fits, h.apart, fun hu => (nomatch hu), hp,
    fun _ => h.quiet (by rw [hcm]; rfl)⟩

theorem tick_inv (hs : tick g s = some s') : BioInv g s' := by
  have hp := h.progress
  unfold State.Progress at hp
  unfold tick at hs
  split at hs
  next => cases hs
  next p tail hcm =>
    have hquiet : s.outstanding = 0 := h.quiet (by rw [hcm]; rfl)
    rw [hcm] at hp
    split at hs
    next b hb =>
      obtain ⟨⟨v, c⟩, hw, hs⟩ := Option.bind_eq_some_iff.mp hs
      cases hs
      exact writeLog_inv h hcm hb hw
    next hb =>
      cases hs
      refine ⟨h.ok, h.fits, h.apart, fun _ => h.pinned ?_, fun j b hj => ?_,
        fun _ => hquiet⟩
      · unfold State.uncommitted
        rw [hcm]
      · refine hp j ?_ b hj
        have hlt := (List.getElem?_eq_some_iff.mp hj).1
        have := List.getElem?_eq_none_iff.mp hb
        have hlt : j < s.lh.length := hlt
        omega
  next p hcm =>
    have hquiet : s.outstanding = 0 := h.quiet (by rw [hcm]; rfl)
    rw [hcm] at hp
    obtain ⟨⟨v, c⟩, hw, hs⟩ := Option.bind_eq_some_iff.mp hs
    cases hs
    obtain ⟨hc, -⟩ := writeHead_ok h.ok hw
    exact ⟨hc, h.fits, h.apart, fun hu => (nomatch hu),
      fun j => writeHead_copied h (hp j) rfl rfl, fun _ => hquiet⟩
  next p tail hcm =>
    have hquiet : s.outstanding = 0 := h.quiet (by rw [hcm]; rfl)
    split at hs
    next b hb =>
      obtain ⟨⟨v, c⟩, hw, hs⟩ := Option.bind_eq_some_iff.mp hs
      cases hs
      exact install_inv h hcm hb hw
    next hb =>
      cases hs
      exact ⟨h.ok, Nat.zero_le _, nofun, fun hu => (nomatch hu), rfl, fun _ => hquiet⟩
  next p hcm =>
    rw [hcm] at hp
    obtain ⟨⟨v, c⟩, hw, hs⟩ := Option.bind_eq_some_iff.mp hs
    cases hs
    obtain ⟨hc, -⟩ := writeHead_ok h.ok hw
    have hempty : s.lh = [] := hp
    refine ⟨hc, h.fits, h.apart, fun _ b hb => ?_, trivial, fun hq => nomatch hq⟩
    rw [hempty] at hb
    cases hb

theorem bio_step (hok : Apart g s a) (hs : step g s a = some s') : BioInv g s' := by
  cases a with
  | get p dev blockno =>
    unfold step at hs
    dsimp only at hs
    split at hs
    next => cases hs
    next =>
      obtain ⟨⟨i, c⟩, hget, hs⟩ := Option.bind_eq_some_iff.mp hs
      cases hs
      obtain ⟨hc, hgot⟩ := bget_ok h.ok hget p
      exact h.of_cache hc hgot.pinned
  | lock p =>
    unfold step at hs
    dsimp only at hs
    split at hs
    next => cases hs
    next e he =>
      obtain ⟨c, hlock, hs⟩ := Option.bind_eq_some_iff.mp hs
      cases hs
      obtain ⟨hc, -, -, -, -, hpin⟩ :=
        breadLocked_ok h.ok (List.mem_of_find?_eq_some he) hlock
      exact h.of_cache hc hpin
  | logWrite p i v => exact logWrite_inv h hok hs
  | bwrite p i v =>
    unfold step at hs
    obtain ⟨c, hw, hs⟩ := Option.bind_eq_some_iff.mp hs
    cases hs
    exact bwrite_inv h hok hw
  | brelse p i =>
    unfold step at hs
    obtain ⟨c, hr, hs⟩ := Option.bind_eq_some_iff.mp hs
    cases hs
    obtain ⟨hc, -, hpin⟩ := brelse_ok h.ok hr
    exact h.of_cache hc hpin
  | beginOp =>
    unfold step beginOp at hs
    dsimp only at hs
    split at hs
    next => cases hs
    next hno =>
      cases hs
      refine ⟨h.ok, h.fits, h.apart, h.pinned, h.progress, fun hq => ?_⟩
      exact absurd (.inl hq) hno
  | endOp p =>
    unfold step endOp at hs
    dsimp only at hs
    split at hs
    next => cases hs
    next hout =>
      split at hs
      next hlast =>
        cases hs
        have hidle : s.commit = none := by
          cases hcm : s.commit with
          | none => rfl
          | some x => exact absurd (h.quiet (by rw [hcm]; rfl)) hout
        refine ⟨h.ok, h.fits, h.apart, fun _ => h.pinned ?_,
          fun j hj => absurd hj (Nat.not_lt_zero j), fun _ => rfl⟩
        unfold State.uncommitted
        rw [hidle]
      next =>
        cases hs
        refine ⟨h.ok, h.fits, h.apart, h.pinned, h.progress, fun hq => ?_⟩
        exact absurd (h.quiet hq) hout
  | tick => exact tick_inv h hs

end

theorem bio_boot (g : Log.Geometry) (disksize : Nat) (disk : Disk) :
    BioInv g (boot disksize disk) := by
  refine ⟨⟨?_, fun i => ?_, fun _ _ _ _ h0 => absurd rfl h0, fun _ _ => rfl, nofun,
    nofun, nofun, nofun, fun _ _ => rfl⟩, Nat.zero_le _, nofun, nofun, trivial, nofun⟩
  · exact List.nodup_reverse.mpr List.nodup_range
  · rw [show (boot disksize disk).cache.order = (List.range nbuf).reverse from rfl,
      List.mem_reverse, List.mem_range]

/-- `bget` takes no dirty buffer away from its block. -/
theorem bget_dirty {c' : Cache} {dev : Nat} (hget : bget c dev b = some (i, c'))
    (hd : (c.buf j).dirty = true) :
    (c'.buf j).dev = (c.buf j).dev ∧ (c'.buf j).blockno = (c.buf j).blockno := by
  unfold bget at hget
  split at hget
  next =>
    cases hget
    by_cases hji : j = i
    · rw [hji, modify_self]
      exact ⟨rfl, rfl⟩
    · rw [modify_of_ne c _ hji]
      exact ⟨rfl, rfl⟩
  next =>
    split at hget
    next k hvictim =>
      cases hget
      have hfree := List.find?_some hvictim
      obtain ⟨-, hclean⟩ := of_decide_eq_true hfree
      by_cases hji : j = i
      · rw [hji] at hd
        cases hclean.symm.trans hd
      · rw [modify_of_ne c _ hji]
        exact ⟨rfl, rfl⟩
    next => cases hget

/-- In every run that keeps the writers apart: no two buffers hold the same
block; a `bread` that returns has the block it asked for, with what the
block was last given by `log_write` or `bwrite`; and the blocks of a
transaction that has not committed have a dirty buffer, which no `bget`
recycles. -/
theorem cache_invisible (g : Log.Geometry) (disksize : Nat) (disk : Disk)
    (acts : List Act) (s : State)
    (hok : Along (step g) (Apart g) (boot disksize disk) acts)
    (hr : runs (step g) (boot disksize disk) acts = some s) :
    (∀ i j, i < nbuf → j < nbuf → (s.cache.buf i).dev ≠ 0 →
        (s.cache.buf i).dev = (s.cache.buf j).dev →
        (s.cache.buf i).blockno = (s.cache.buf j).blockno → i = j)
      ∧ (∀ p s', step g s (.lock p) = some s' →
        ∃ e, s.waiting.find? (fun e => decide (e.proc = p)) = some e
          ∧ (s'.cache.buf e.buf).lock = some p
          ∧ (s'.cache.buf e.buf).dev = e.dev
          ∧ (s'.cache.buf e.buf).blockno = e.blockno
          ∧ (s'.cache.buf e.buf).data = s.given e.blockno)
      ∧ (s.uncommitted = true → ∀ b ∈ s.lh, ∃ i, i < nbuf
        ∧ (s.cache.buf i).dev = 1 ∧ (s.cache.buf i).blockno = b
        ∧ (s.cache.buf i).dirty = true)
      ∧ ∀ p dev b s' i, step g s (.get p dev b) = some s' →
        (s.cache.buf i).dirty = true →
        (s'.cache.buf i).dev = (s.cache.buf i).dev
          ∧ (s'.cache.buf i).blockno = (s.cache.buf i).blockno := by
  have hinv := Along.invariant (fun _ _ _ h ha hs => bio_step h ha hs)
    (bio_boot g disksize disk) hok hr
  refine ⟨hinv.ok.unique, fun p s' hs => ?_, hinv.pinned, fun p dev b s' i hs hd => ?_⟩
  · unfold step at hs
    dsimp only at hs
    split at hs
    next => cases hs
    next e he =>
      obtain ⟨c, hlock, hs⟩ := Option.bind_eq_some_iff.mp hs
      cases hs
      obtain ⟨-, hholds, hdev, -⟩ :=
        breadLocked_ok hinv.ok (List.mem_of_find?_eq_some he) hlock
      exact ⟨e, he, hholds.lock, hdev, hholds.blockno, hholds.data⟩
  · unfold step at hs
    dsimp only at hs
    split at hs
    next => cases hs
    next =>
      obtain ⟨⟨k, c⟩, hget, hs⟩ := Option.bind_eq_some_iff.mp hs
      cases hs
      exact bget_dirty hget hd

/-- A log of thirty blocks at block 2, a disk of a hundred. -/
def smallLog : Log.Geometry := ⟨2, 30⟩

/-- Some contents. -/
def filled (n : Nat) : Block := Bytes.zero.put32 0 n

/-- A process logs block 50 and commits; its `bread` of the block follows. -/
def logAndRead : List Act :=
  [.beginOp, .get 0 1 50, .lock 0, .logWrite 0 0 (filled 7), .brelse 0 0, .endOp 0,
    .tick, .tick, .tick, .tick, .get 0 1 50]

theorem cache_invisible_logAndRead :
    ∃ s s', runs (step smallLog) (boot 100 fun _ => Bytes.zero) logAndRead = some s
      ∧ step smallLog s (.lock 0) = some s'
      ∧ ∃ e, s.waiting.find? (fun e => decide (e.proc = 0)) = some e
        ∧ (s'.cache.buf e.buf).data = s.given e.blockno := by
  have hrun : (runs (step smallLog) (boot 100 fun _ => Bytes.zero) logAndRead).map
      (fun s => (step smallLog s (.lock 0)).isSome) = some true := by decide +kernel
  obtain ⟨s, hs, hsome⟩ := Option.map_eq_some_iff.mp hrun
  obtain ⟨s', hs'⟩ := Option.isSome_iff_exists.mp hsome
  obtain ⟨-, hread, -⟩ := cache_invisible smallLog 100 (fun _ => Bytes.zero) logAndRead s
    (by decide +kernel) hs
  obtain ⟨e, he, -, -, -, hdata⟩ := hread 0 s' hs'
  exact ⟨s, s', hs, hs', e, he, hdata⟩

/-- Process 0 logs block 50 and commits. When the block is in the log and
not yet installed, process 1 writes it with `bwrite`, as `sys_disk_request`
does; the rest of the commit overwrites that, and a `bread` returns the
older contents. -/
theorem write_lost :
    (runs (step smallLog) (boot 100 fun _ => Bytes.zero)
      [.beginOp, .get 0 1 50, .lock 0, .logWrite 0 0 (filled 7), .brelse 0 0,
        .endOp 0, .tick, .get 1 1 50, .lock 1, .bwrite 1 0 (filled 9), .brelse 1 0,
        .tick, .tick, .tick, .get 1 1 50, .lock 1]).map
      (fun s => ((s.cache.buf 0).lock, (s.cache.buf 0).dev, (s.cache.buf 0).blockno,
        (s.cache.buf 0).data.le32 0, (s.given 50).le32 0))
      = some (some 1, 1, 50, 7, 9) := by
  decide +kernel

end Xv6FsServer.Bio
