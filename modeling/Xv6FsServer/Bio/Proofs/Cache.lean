/-
The buffer cache, one operation at a time.

`CacheOk` says what is true of the buffers between two operations: no two
of them hold the same block, a buffer's `refcnt` counts its holder and the
processes that wait for it, and a valid buffer holds what its block was
last given (`given`); so does the disk, unless a dirty buffer is ahead of
it. Each operation has one lemma that says that it keeps `CacheOk`, what it
returns, and which blocks stay pinned.
-/
import Xv6FsServer.Bio.Model

namespace Xv6FsServer.Bio

open Lib Function

variable {c c' : Cache} {W : List Wait} {given : Disk} {i j p dev b : Nat}
variable {v : Block}
variable {x : Buf} {e : Wait} {g : Log.Geometry} {tail : Nat}

-- ==== the invariant

structure CacheOk (c : Cache) (W : List Wait) (given : Disk) : Prop where
  nodup : c.order.Nodup
  listed : ∀ i, i ∈ c.order ↔ i < nbuf
  unique : ∀ i j, i < nbuf → j < nbuf → (c.buf i).dev ≠ 0 →
    (c.buf i).dev = (c.buf j).dev → (c.buf i).blockno = (c.buf j).blockno → i = j
  refs : ∀ i, i < nbuf → (c.buf i).refcnt
    = (c.buf i).lock.toList.length + W.countP fun e => decide (e.buf = i)
  waits : ∀ e ∈ W, e.buf < nbuf ∧ (c.buf e.buf).dev = e.dev
    ∧ (c.buf e.buf).blockno = e.blockno
  locked : ∀ i p, (c.buf i).lock = some p → i < nbuf ∧ (c.buf i).valid = true
  valid : ∀ i, i < nbuf → (c.buf i).valid = true →
    (c.buf i).dev = 1 ∧ (c.buf i).data = given (c.buf i).blockno
  dirty : ∀ i, i < nbuf → (c.buf i).dirty = true → (c.buf i).valid = true
  disk : ∀ b, (∀ i, i < nbuf → (c.buf i).dev = 1 → (c.buf i).blockno = b →
    (c.buf i).dirty = false) → c.disk b = given b

/-- The block has a dirty buffer: `bget` does not recycle it. -/
def Cache.Pinned (c : Cache) (b : Nat) : Prop :=
  ∃ i, i < nbuf ∧ (c.buf i).dev = 1 ∧ (c.buf i).blockno = b ∧ (c.buf i).dirty = true

@[simp] theorem modify_self (c : Cache) (i : Nat) (f : Buf → Buf) :
    (c.modify i f).buf i = f (c.buf i) := update_self ..

theorem modify_of_ne (c : Cache) (f : Buf → Buf) (h : j ≠ i) :
    (c.modify i f).buf j = c.buf j := update_of_ne h ..

/-- A buffer that nobody refers to is neither locked nor waited for. -/
theorem CacheOk.free (h : CacheOk c W given) (hi : i < nbuf)
    (h0 : (c.buf i).refcnt = 0) :
    (c.buf i).lock = none ∧ ∀ e ∈ W, e.buf ≠ i := by
  have hrefs := h.refs i hi
  rw [h0] at hrefs
  have hlock : (c.buf i).lock.toList.length = 0 := by omega
  have hcount : W.countP (fun e => decide (e.buf = i)) = 0 := by omega
  refine ⟨?_, fun e he hei => ?_⟩
  · cases hl : (c.buf i).lock with
    | none => rfl
    | some p =>
      rw [hl] at hlock
      cases hlock
  · have := List.countP_eq_zero.mp hcount e he
    exact this (decide_eq_true hei)

/-- The other buffers do not hold the block of a valid one. -/
theorem CacheOk.other (h : CacheOk c W given) (hi : i < nbuf)
    (hv : (c.buf i).valid = true) (hj : j < nbuf) (hne : j ≠ i)
    (hdev : (c.buf j).dev = 1) : (c.buf j).blockno ≠ (c.buf i).blockno := by
  intro hb
  have hdi := (h.valid i hi hv).1
  exact hne (h.unique j i hj hi (by rw [hdev]; decide) (by rw [hdev, hdi]) hb)

section

variable (h : CacheOk c W given)
include h

theorem CacheOk.apart (hi : i < nbuf) (hxd : x.dev = (c.buf i).dev)
    (hxb : x.blockno = (c.buf i).blockno) (h0 : x.dev ≠ 0) (j : Nat) (hj : j < nbuf)
    (hji : j ≠ i) (hd : (c.buf j).dev = x.dev) : (c.buf j).blockno ≠ x.blockno :=
  fun hb => hji (h.unique j i hj hi (hd ▸ h0) (hd.trans hxd) (hb.trans hxb))

theorem CacheOk.waiting (hxd : x.dev = (c.buf i).dev)
    (hxb : x.blockno = (c.buf i).blockno) (he : e ∈ W) :
    (e.buf = i ∧ x.dev = e.dev ∧ x.blockno = e.blockno) ∨ (e.buf ≠ i ∧ e ∈ W) := by
  by_cases hei : e.buf = i
  · obtain ⟨-, h1, h2⟩ := h.waits e he
    rw [hei] at h1 h2
    exact .inl ⟨hei, hxd.trans h1, hxb.trans h2⟩
  · exact .inr ⟨hei, he⟩

theorem CacheOk.onDisk
    (hi : (c.buf i).dev = 1 → (c.buf i).blockno = b → (c.buf i).dirty = false)
    (hothers : ∀ j, j < nbuf → j ≠ i → (c.buf j).dev = 1 → (c.buf j).blockno = b →
      (c.buf j).dirty = false) : c.disk b = given b := by
  refine h.disk b fun j hj hd hb => ?_
  by_cases hji : j = i
  · rw [hji] at hd hb ⊢
    exact hi hd hb
  · exact hothers j hj hji hd hb

end

/-- A change of buffer `i` alone, to `x`. -/
structure Changed (c c' : Cache) (i : Nat) (x : Buf) : Prop where
  self : c'.buf i = x
  other : ∀ j, j ≠ i → c'.buf j = c.buf j
  order : c'.order.Perm c.order

theorem changed_modify (c : Cache) (i : Nat) (f : Buf → Buf) :
    Changed c (c.modify i f) i (f (c.buf i)) :=
  ⟨modify_self c i f, fun _ hj => modify_of_ne c f hj, .refl _⟩

/-- What has to be checked of a changed buffer. -/
theorem CacheOk.change (h : CacheOk c W given) {W' : List Wait}
    {given' : Disk} (hx : Changed c c' i x) (hi : i < nbuf)
    (hunique : x.dev ≠ 0 → ∀ j, j < nbuf → j ≠ i → (c.buf j).dev = x.dev →
      (c.buf j).blockno ≠ x.blockno)
    (hrefs : x.refcnt
      = x.lock.toList.length + W'.countP fun e => decide (e.buf = i))
    (hcount : ∀ j, j ≠ i → W'.countP (fun e => decide (e.buf = j))
      = W.countP fun e => decide (e.buf = j))
    (hwaits : ∀ e ∈ W', (e.buf = i ∧ x.dev = e.dev ∧ x.blockno = e.blockno)
      ∨ (e.buf ≠ i ∧ e ∈ W))
    (hlocked : ∀ p, x.lock = some p → x.valid = true)
    (hvalid : x.valid = true → x.dev = 1 ∧ x.data = given' x.blockno)
    (hgiven : ∀ j, j < nbuf → j ≠ i → (c.buf j).valid = true →
      given' (c.buf j).blockno = given (c.buf j).blockno)
    (hdirty : x.dirty = true → x.valid = true)
    (hdisk : ∀ b, (x.dev = 1 → x.blockno = b → x.dirty = false) →
      (∀ j, j < nbuf → j ≠ i → (c.buf j).dev = 1 → (c.buf j).blockno = b →
        (c.buf j).dirty = false) → c'.disk b = given' b) :
    CacheOk c' W' given' := by
  have hself := hx.self
  have hother := hx.other
  refine ⟨hx.order.nodup_iff.mpr h.nodup, fun j => ?_, ?_, ?_, ?_, ?_, ?_, ?_, ?_⟩
  · rw [hx.order.mem_iff]
    exact h.listed j
  · intro j k hj hk h0 hd hb
    by_cases hji : j = i
    · by_cases hki : k = i
      · rw [hji, hki]
      · rw [hji, hself] at h0 hd hb
        rw [hother k hki] at hd hb
        exact absurd hb.symm (hunique h0 k hk hki hd.symm)
    · rw [hother j hji] at h0 hd hb
      by_cases hki : k = i
      · rw [hki, hself] at hd hb
        exact absurd hb (hunique (hd ▸ h0) j hj hji hd)
      · rw [hother k hki] at hd hb
        exact h.unique j k hj hk h0 hd hb
  · intro j hj
    by_cases hji : j = i
    · rw [hji, hself]
      exact hrefs
    · rw [hother j hji, hcount j hji]
      exact h.refs j hj
  · intro e he
    rcases hwaits e he with ⟨hei, hd, hb⟩ | ⟨hei, hold⟩
    · rw [hei, hself]
      exact ⟨hi, hd, hb⟩
    · rw [hother e.buf hei]
      exact h.waits e hold
  · intro j q hq
    by_cases hji : j = i
    · rw [hji, hself] at hq ⊢
      exact ⟨hi, hlocked q hq⟩
    · rw [hother j hji] at hq ⊢
      exact h.locked j q hq
  · intro j hj hv
    by_cases hji : j = i
    · rw [hji, hself] at hv ⊢
      exact hvalid hv
    · rw [hother j hji] at hv ⊢
      obtain ⟨hd, hdata⟩ := h.valid j hj hv
      exact ⟨hd, hdata.trans (hgiven j hj hji hv).symm⟩
  · intro j hj hd
    by_cases hji : j = i
    · rw [hji, hself] at hd ⊢
      exact hdirty hd
    · rw [hother j hji] at hd ⊢
      exact h.dirty j hj hd
  · intro b hb
    refine hdisk b (fun h1 h2 => ?_) fun j hj hji h1 h2 => ?_
    · have := hb i hi
      rw [hself] at this
      exact this h1 h2
    · have := hb j hj
      rw [hother j hji] at this
      exact this h1 h2

/-- What is pinned stays pinned when buffer `i` keeps its block and its
dirt. -/
theorem Cache.Pinned.change (h : c.Pinned b) (hc : Changed c c' i x)
    (hx : (c.buf i).dirty = true → (c.buf i).blockno = b →
      x.dev = (c.buf i).dev ∧ x.blockno = (c.buf i).blockno ∧ x.dirty = true) :
    c'.Pinned b := by
  obtain ⟨j, hj, hd, hb, hdirty⟩ := h
  refine ⟨j, hj, ?_⟩
  by_cases hji : j = i
  · rw [hji] at hd hb hdirty ⊢
    obtain ⟨h1, h2, h3⟩ := hx hdirty hb
    rw [hc.self]
    exact ⟨h1.trans hd, h2.trans hb, h3⟩
  · rw [hc.other j hji]
    exact ⟨hd, hb, hdirty⟩

-- ==== bget

/-- What `bget` has done: the buffer is the process's to wait for, the
others are as they were. -/
structure Got (c c' : Cache) (dev b i : Nat) : Prop where
  lt : i < nbuf
  dev : (c'.buf i).dev = dev
  blockno : (c'.buf i).blockno = b
  lock : (c'.buf i).lock = (c.buf i).lock
  frame : ∀ j, j ≠ i → c'.buf j = c.buf j
  pinned : ∀ b, c.Pinned b → c'.Pinned b

theorem countP_cons_buf (W : List Wait) (e : Wait) (j : Nat) :
    (e :: W).countP (fun e => decide (e.buf = j))
      = (if e.buf = j then 1 else 0) + W.countP fun e => decide (e.buf = j) := by
  rw [List.countP_cons]
  by_cases h : e.buf = j
  · simp [h, Nat.add_comm]
  · simp [h]

/-- Where nothing but the references of buffer `i` changes. -/
theorem CacheOk.count_other (e : Wait) (he : e.buf = i) (hj : j ≠ i) :
    (e :: W).countP (fun e => decide (e.buf = j))
      = W.countP fun e => decide (e.buf = j) := by
  rw [countP_cons_buf, if_neg (by rw [he]; exact hj.symm), Nat.zero_add]

theorem bget_ok (h : CacheOk c W given) (hget : bget c dev b = some (i, c'))
    (p : Nat) : CacheOk c' (⟨p, i, dev, b⟩ :: W) given ∧ Got c c' dev b i := by
  unfold bget at hget
  split at hget
  next k hfind =>
    -- the block has a buffer
    cases hget
    unfold Cache.find at hfind
    have hlt : i < nbuf := (h.listed i).mp (List.mem_of_find?_eq_some hfind)
    have hhit := List.find?_some hfind
    obtain ⟨hdev, hb⟩ := of_decide_eq_true hhit
    refine ⟨h.change (changed_modify ..) hlt ?_ ?_ ?_ ?_ ?_ ?_ ?_ ?_ ?_,
      hlt, ?_, ?_, ?_, ?_, ?_⟩
    · exact h.apart hlt rfl rfl
    · rw [countP_cons_buf, if_pos rfl]
      have := h.refs i hlt
      show (c.buf i).refcnt + 1 = (c.buf i).lock.toList.length + _
      omega
    · exact fun j hj => CacheOk.count_other _ rfl hj
    · intro e he
      rcases List.mem_cons.mp he with he | he
      · rw [he]
        exact .inl ⟨rfl, hdev, hb⟩
      · exact h.waiting rfl rfl he
    · exact fun q hq => (h.locked i q hq).2
    · exact h.valid i hlt
    · exact fun _ _ _ _ => rfl
    · exact h.dirty i hlt
    · exact fun _ => h.onDisk
    · rw [modify_self]
      exact hdev
    · rw [modify_self]
      exact hb
    · rw [modify_self]
    · exact fun j hj => modify_of_ne c _ hj
    · exact fun b hp => hp.change (changed_modify ..) fun hd _ => ⟨rfl, rfl, hd⟩
  next hfind =>
    split at hget
    next k hvictim =>
      -- it takes the buffer of another block
      cases hget
      unfold Cache.victim at hvictim
      have hlt : i < nbuf := (h.listed i).mp
        (List.mem_reverse.mp (List.mem_of_find?_eq_some hvictim))
      have hfree := List.find?_some hvictim
      obtain ⟨hzero, hclean⟩ := of_decide_eq_true hfree
      obtain ⟨hlock, hnobody⟩ := h.free hlt hzero
      have hmiss : ∀ j, j < nbuf → ¬ ((c.buf j).dev = dev ∧ (c.buf j).blockno = b) := by
        intro j hj hc
        have := List.find?_eq_none.mp hfind j ((h.listed j).mpr hj)
        exact this (decide_eq_true hc)
      refine ⟨h.change (changed_modify ..) hlt ?_ ?_ ?_ ?_ ?_ ?_ ?_ ?_ ?_,
        hlt, ?_, ?_, ?_, ?_, ?_⟩
      · exact fun _ j hj _ hd hbj => hmiss j hj ⟨hd, hbj⟩
      · rw [countP_cons_buf, if_pos rfl, hlock]
        have := h.refs i hlt
        rw [hlock, hzero] at this
        show 1 = 0 + (1 + _)
        omega
      · exact fun j hj => CacheOk.count_other _ rfl hj
      · intro e he
        rcases List.mem_cons.mp he with he | he
        · rw [he]
          exact .inl ⟨rfl, rfl, rfl⟩
        · exact .inr ⟨hnobody e he, he⟩
      · intro q hq
        cases hlock.symm.trans hq
      · exact fun hv => nomatch hv
      · exact fun _ _ _ _ => rfl
      · exact fun hd => nomatch hd
      · exact fun _ _ => h.onDisk fun _ _ => hclean
      · rw [modify_self]
      · rw [modify_self]
      · rw [modify_self]
      · exact fun j hj => modify_of_ne c _ hj
      · intro b' hp
        refine hp.change (changed_modify ..) fun hd _ => ?_
        cases hclean.symm.trans hd
    next => cases hget

-- ==== bread

/-- The process has the buffer, locked, with what its block was last
given. -/
structure Holds (c : Cache) (given : Disk) (p b i : Nat) : Prop where
  lt : i < nbuf
  lock : (c.buf i).lock = some p
  blockno : (c.buf i).blockno = b
  data : (c.buf i).data = given b

theorem countP_erase_buf (he : e ∈ W) (j : Nat) :
    W.countP (fun e => decide (e.buf = j))
      = (if e.buf = j then 1 else 0)
        + (W.erase e).countP fun e => decide (e.buf = j) := by
  rw [(List.perm_cons_erase he).countP_eq, countP_cons_buf]

/-- `iderw` of a buffer that is not valid. -/
theorem iderw_read (hv : (c.buf i).valid = false) (hd : (c.buf i).dirty = false)
    (hr : iderw c i = some c') : (c.buf i).dev = 1
      ∧ c' = c.modify i fun b => { b with data := c.disk b.blockno, valid := true } := by
  unfold iderw at hr
  rw [if_neg (by rw [hv]; simp)] at hr
  split at hr
  next => cases hr
  next hdev =>
    split at hr
    next => cases hr
    next =>
      rw [if_neg (by rw [hd]; simp)] at hr
      exact ⟨not_not.mp hdev, (Option.some.inj hr).symm⟩

/-- The end of `bread`: the process that waited has the buffer. -/
theorem breadLocked_ok (h : CacheOk c W given) (he : e ∈ W)
    (hr : breadLocked c p e.buf = some c') :
    CacheOk c' (W.erase e) given ∧ Holds c' given p e.blockno e.buf
      ∧ (c'.buf e.buf).dev = e.dev ∧ (∀ j, j ≠ e.buf → c'.buf j = c.buf j)
      ∧ (c.buf e.buf).lock = none ∧ ∀ b, c.Pinned b → c'.Pinned b := by
  obtain ⟨hlt, hdev, hb⟩ := h.waits e he
  have hrefs := h.refs e.buf hlt
  unfold breadLocked at hr
  split at hr
  next => cases hr
  next hlock =>
    -- the buffer as it is afterwards: locked, valid, with the block's contents
    obtain ⟨x, hx, hxr, hxl, hxd, hxb, hxv, hxdata, hxdirty, hdisk⟩ :
        ∃ x, Changed c c' e.buf x ∧ x.refcnt = (c.buf e.buf).refcnt
          ∧ x.lock = some p ∧ x.dev = (c.buf e.buf).dev
          ∧ x.blockno = (c.buf e.buf).blockno ∧ x.valid = true
          ∧ (x.dev = 1 ∧ x.data = given x.blockno)
          ∧ x.dirty = (c.buf e.buf).dirty ∧ c'.disk = c.disk := by
      dsimp only at hr
      split at hr
      next hv =>
        cases hr
        rw [modify_self] at hv
        exact ⟨_, changed_modify .., rfl, rfl, rfl, rfl, hv, h.valid _ hlt hv, rfl, rfl⟩
      next hv =>
        rw [modify_self] at hv
        have hv : (c.buf e.buf).valid = false := by simpa using hv
        have hclean : (c.buf e.buf).dirty = false := by
          cases hd : (c.buf e.buf).dirty with
          | false => rfl
          | true => cases hv.symm.trans (h.dirty _ hlt hd)
        obtain ⟨hdev1, hc'⟩ := iderw_read (by rw [modify_self]; exact hv)
          (by rw [modify_self]; exact hclean) hr
        rw [modify_self] at hdev1
        have hone : c.disk (c.buf e.buf).blockno = given (c.buf e.buf).blockno := by
          refine h.disk _ fun j hj hjd hjb => ?_
          have hje : j = e.buf := h.unique j e.buf hj hlt (by rw [hjd]; decide)
            (by rw [hjd, hdev1]) hjb
          rw [hje]
          exact hclean
        refine ⟨{ c.buf e.buf with
          lock := some p, data := c.disk (c.buf e.buf).blockno, valid := true },
          ⟨?_, fun j hj => ?_, ?_⟩, rfl, rfl, rfl, rfl, rfl, ⟨hdev1, hone⟩, rfl, ?_⟩
        · rw [hc', modify_self, modify_self]
          rfl
        · rw [hc', modify_of_ne _ _ hj, modify_of_ne _ _ hj]
        · rw [hc']
          exact .refl _
        · rw [hc']
          rfl
    have hcount := fun j => countP_erase_buf he j
    refine ⟨h.change hx hlt ?_ ?_ ?_ ?_ ?_ ?_ ?_ ?_ ?_, ⟨hlt, ?_, ?_, ?_⟩, ?_, hx.other,
      hlock, ?_⟩
    · exact h.apart hlt hxd hxb
    · have := hcount e.buf
      rw [if_pos rfl] at this
      rw [hlock, Option.toList_none, List.length_nil] at hrefs
      rw [hxr, hxl, Option.toList_some, List.length_singleton]
      omega
    · intro j hje
      have := hcount j
      rw [if_neg (Ne.symm hje), Nat.zero_add] at this
      exact this.symm
    · exact fun e' he' => h.waiting hxd hxb (List.mem_of_mem_erase he')
    · exact fun _ _ => hxv
    · exact fun _ => hxdata
    · exact fun _ _ _ _ => rfl
    · exact fun _ => hxv
    · intro b hxc hothers
      rw [hdisk]
      refine h.onDisk (fun hd hb => ?_) hothers
      rw [← hxdirty]
      exact hxc (hxd.trans hd) (hxb.trans hb)
    · rw [hx.self]
      exact hxl
    · rw [hx.self]
      exact hxb.trans hb
    · rw [hx.self, hxdata.2, hxb, hb]
    · rw [hx.self]
      exact hxd.trans hdev
    · exact fun b hp => hp.change hx fun hd _ => ⟨hxd, hxb, hxdirty.trans hd⟩

/-- What `bread` in one go does. -/
structure Read (c c' : Cache) (given : Disk) (p b i : Nat) : Prop where
  holds : Holds c' given p b i
  fresh : (c.buf i).lock = none
  frame : ∀ j, j ≠ i → c'.buf j = c.buf j
  pinned : ∀ b, c.Pinned b → c'.Pinned b

theorem bread_ok (h : CacheOk c W given) (hr : bread c p dev b = some (i, c')) :
    CacheOk c' W given ∧ Read c c' given p b i := by
  unfold bread at hr
  obtain ⟨⟨k, c₁⟩, hget, hr⟩ := Option.bind_eq_some_iff.mp hr
  obtain ⟨c₂, hlock, hr⟩ := Option.bind_eq_some_iff.mp hr
  cases hr
  obtain ⟨h₁, hgot⟩ := bget_ok h hget p
  obtain ⟨h₂, hholds, -, hframe, hfree, hpin⟩ :=
    breadLocked_ok (e := ⟨p, i, dev, b⟩) h₁ List.mem_cons_self hlock
  rw [List.erase_cons_head] at h₂
  refine ⟨h₂, hholds, ?_, fun j hj => ?_, fun b hp => hpin b (hgot.pinned b hp)⟩
  · rw [← hgot.lock]
    exact hfree
  · rw [hframe j hj, hgot.frame j hj]

-- ==== the writes

/-- The holder of a buffer gives its block new contents: in the buffer, and
either the buffer is dirty then or the disk has them too. -/
theorem CacheOk.give (h : CacheOk c W given) (hl : (c.buf i).lock = some p)
    (hx : Changed c c' i x) (hxr : x.refcnt = (c.buf i).refcnt) (hxl : x.lock = some p)
    (hxd : x.dev = (c.buf i).dev) (hxb : x.blockno = (c.buf i).blockno)
    (hxv : x.valid = true) (hxdata : x.data = v)
    (hdisk : ∀ b, b ≠ (c.buf i).blockno → c'.disk b = c.disk b)
    (hahead : x.dirty = false → c'.disk (c.buf i).blockno = v) :
    CacheOk c' W (update given (c.buf i).blockno v) := by
  obtain ⟨hlt, hv⟩ := h.locked i p hl
  obtain ⟨hdev, -⟩ := h.valid i hlt hv
  have hrefs := h.refs i hlt
  rw [hl] at hrefs
  refine h.change hx hlt (h.apart hlt hxd hxb) ?_ (fun _ _ => rfl)
    (fun _ he => h.waiting hxd hxb he) (fun _ _ => hxv) ?_ ?_ (fun _ => hxv) ?_
  · rw [hxr, hxl]
    exact hrefs
  · intro _
    rw [hxb, update_self]
    exact ⟨hxd.trans hdev, hxdata⟩
  · intro j hj hji hvj
    refine update_of_ne ?_ ..
    exact h.other hlt hv hj hji (h.valid j hj hvj).1
  · intro b hxc hothers
    by_cases hbi : b = (c.buf i).blockno
    · rw [hbi, update_self]
      exact hahead (hxc (hxd.trans hdev) (hxb.trans hbi.symm))
    · rw [update_of_ne hbi, hdisk b hbi]
      refine h.disk b fun j hj hjd hjb => ?_
      have hji : j ≠ i := by
        intro hji
        rw [hji] at hjb
        exact hbi hjb.symm
      exact hothers j hj hji hjd hjb

/-- `log_write`'s part in the cache. -/
theorem pin_ok (h : CacheOk c W given) (hl : (c.buf i).lock = some p) (v : Block) :
    CacheOk (c.modify i fun b => { b with data := v, dirty := true }) W
        (update given (c.buf i).blockno v)
      ∧ (c.modify i fun b => { b with data := v, dirty := true }).Pinned
        (c.buf i).blockno
      ∧ ∀ b, c.Pinned b →
        (c.modify i fun b => { b with data := v, dirty := true }).Pinned b := by
  obtain ⟨hlt, hv⟩ := h.locked i p hl
  obtain ⟨hdev, -⟩ := h.valid i hlt hv
  refine ⟨h.give hl (changed_modify ..) rfl hl rfl rfl hv rfl (fun _ _ => rfl)
    (fun hd => nomatch hd), ⟨i, hlt, ?_⟩, fun b hp => ?_⟩
  · rw [modify_self]
    exact ⟨hdev, rfl, rfl⟩
  · exact hp.change (changed_modify ..) fun _ _ => ⟨rfl, rfl, rfl⟩

/-- `iderw` of a dirty buffer. -/
theorem iderw_write (hd : (c.buf i).dirty = true) (hr : iderw c i = some c') :
    c' = { c.modify i (fun b => { b with dirty := false, valid := true }) with
      disk := update c.disk (c.buf i).blockno (c.buf i).data } := by
  unfold iderw at hr
  rw [if_neg (by rw [hd]; simp)] at hr
  split at hr
  next => cases hr
  next =>
    split at hr
    next => cases hr
    next => exact (Option.some.inj hr).symm

/-- What `bwrite` does. -/
structure Wrote (c c' : Cache) (p i : Nat) : Prop where
  lock : (c'.buf i).lock = some p
  frame : ∀ j, j ≠ i → c'.buf j = c.buf j
  pinned : ∀ b, b ≠ (c.buf i).blockno → c.Pinned b → c'.Pinned b

section

variable (h : CacheOk c W given)
include h

theorem bwrite_ok (hr : bwrite c p i v = some c') :
    CacheOk c' W (update given (c.buf i).blockno v) ∧ Wrote c c' p i := by
  unfold bwrite at hr
  split at hr
  next hl =>
    have hc' := iderw_write (by rw [modify_self]) hr
    rw [modify_self] at hc'
    have hx : Changed c c' i { c.buf i with data := v, dirty := false, valid := true } := by
      refine ⟨?_, fun j hj => ?_, ?_⟩
      · rw [hc']
        rw [modify_self, modify_self]
      · rw [hc']
        rw [modify_of_ne _ _ hj, modify_of_ne _ _ hj]
      · rw [hc']
        exact .refl _
    have hdisk : c'.disk = update c.disk (c.buf i).blockno v := by
      rw [hc']
      rfl
    refine ⟨h.give hl hx rfl hl rfl rfl rfl rfl (fun b hb => ?_) fun _ => ?_, ?_, hx.other,
      fun b hb hp => ?_⟩
    · rw [hdisk, update_of_ne hb]
    · rw [hdisk, update_self]
    · rw [hx.self]
      exact hl
    · exact hp.change hx fun _ hbi => absurd hbi.symm hb
  next => cases hr

-- ==== brelse

theorem brelse_ok (hr : brelse c p i = some c') :
    CacheOk c' W given ∧ (∀ j, j ≠ i → c'.buf j = c.buf j)
      ∧ ∀ b, c.Pinned b → c'.Pinned b := by
  unfold brelse at hr
  split at hr
  next hl =>
    obtain ⟨hlt, hv⟩ := h.locked i p hl
    have hrefs := h.refs i hlt
    rw [hl, Option.toList_some, List.length_singleton] at hrefs
    have hx : Changed c c' i
        { c.buf i with lock := none, refcnt := (c.buf i).refcnt - 1 } := by
      dsimp only at hr
      split at hr
      next =>
        cases hr
        refine ⟨?_, fun j hj => ?_, ?_⟩
        · dsimp only
          rw [modify_self]
        · dsimp only
          rw [modify_of_ne _ _ hj]
        · exact (List.perm_cons_erase ((h.listed i).mpr hlt)).symm
      next =>
        cases hr
        exact changed_modify ..
    have hdisk : c'.disk = c.disk := by
      dsimp only at hr
      split at hr
      next =>
        cases hr
        rfl
      next =>
        cases hr
        rfl
    refine ⟨h.change hx hlt (h.apart hlt rfl rfl) ?_ (fun _ _ => rfl)
      (fun _ he => h.waiting rfl rfl he) (fun _ hq => nomatch hq)
      (fun _ => h.valid i hlt hv) (fun _ _ _ _ => rfl) (fun _ => hv) ?_, hx.other,
      fun b hp => hp.change hx fun hd _ => ⟨rfl, rfl, hd⟩⟩
    · show (c.buf i).refcnt - 1 = 0 + _
      omega
    · intro b hxc hothers
      rw [hdisk]
      exact h.onDisk hxc hothers
  next => cases hr

-- ==== passes of a commit

/-- Copy a block that the process holds into another one that it holds. -/
theorem copyOut_ok {src dst bs bd : Nat}
    (hs : Holds c given p bs src) (hd : Holds c given p bd dst)
    (hr : copyOut c p src dst = some (v, c')) :
    v = given bs ∧ CacheOk c' W (update given bd v)
      ∧ ∀ b, b ≠ bd → c.Pinned b → c'.Pinned b := by
  unfold copyOut at hr
  obtain ⟨c₁, hw, hr⟩ := Option.bind_eq_some_iff.mp hr
  obtain ⟨c₂, hr₁, hr⟩ := Option.bind_eq_some_iff.mp hr
  obtain ⟨c₃, hr₂, hr⟩ := Option.bind_eq_some_iff.mp hr
  cases hr
  obtain ⟨h₁, hwrote⟩ := bwrite_ok h hw
  obtain ⟨h₂, -, hpin₂⟩ := brelse_ok h₁ hr₁
  obtain ⟨h₃, -, hpin₃⟩ := brelse_ok h₂ hr₂
  rw [hd.blockno] at h₃
  refine ⟨hs.data, h₃, fun b hb hp => hpin₃ b (hpin₂ b (hwrote.pinned b ?_ hp))⟩
  rw [hd.blockno]
  exact hb

/-- Two `bread`s of a pass: the first buffer is still held after the
second. -/
theorem bread_two {c₁ c₂ : Cache} {b₁ b₂ i₁ i₂ : Nat}
    (hr₁ : bread c p rootDev b₁ = some (i₁, c₁))
    (hr₂ : bread c₁ p rootDev b₂ = some (i₂, c₂)) :
    CacheOk c₂ W given ∧ Holds c₂ given p b₁ i₁ ∧ Holds c₂ given p b₂ i₂
      ∧ ∀ b, c.Pinned b → c₂.Pinned b := by
  obtain ⟨h₁, hread₁⟩ := bread_ok h hr₁
  obtain ⟨h₂, hread₂⟩ := bread_ok h₁ hr₂
  have hne : i₁ ≠ i₂ := by
    intro he
    have := hread₂.fresh
    rw [← he] at this
    cases this.symm.trans hread₁.holds.lock
  have hsame := hread₂.frame i₁ hne
  have hold := hread₁.holds
  refine ⟨h₂, ⟨hold.lt, ?_, ?_, ?_⟩, hread₂.holds,
    fun b hp => hread₂.pinned b (hread₁.pinned b hp)⟩
  · rw [hsame]
    exact hold.lock
  · rw [hsame]
    exact hold.blockno
  · rw [hsame]
    exact hold.data

theorem writeLog_ok (hr : writeLog g c p tail b = some (v, c')) :
    v = given b ∧ CacheOk c' W (update given (g.start + tail + 1) v)
      ∧ ∀ b', b' ≠ g.start + tail + 1 → c.Pinned b' → c'.Pinned b' := by
  unfold writeLog at hr
  obtain ⟨⟨dst, c₁⟩, hr₁, hr⟩ := Option.bind_eq_some_iff.mp hr
  obtain ⟨⟨src, c₂⟩, hr₂, hr⟩ := Option.bind_eq_some_iff.mp hr
  obtain ⟨h₂, hdst, hsrc, hpin⟩ := bread_two h hr₁ hr₂
  obtain ⟨hv, h₃, hpin₃⟩ := copyOut_ok h₂ hsrc hdst hr
  exact ⟨hv, h₃, fun b' hb hp => hpin₃ b' hb (hpin b' hp)⟩

theorem installTrans_ok (hr : installTrans g c p tail b = some (v, c')) :
    v = given (g.start + tail + 1) ∧ CacheOk c' W (update given b v)
      ∧ ∀ b', b' ≠ b → c.Pinned b' → c'.Pinned b' := by
  unfold installTrans at hr
  obtain ⟨⟨lbuf, c₁⟩, hr₁, hr⟩ := Option.bind_eq_some_iff.mp hr
  obtain ⟨⟨dbuf, c₂⟩, hr₂, hr⟩ := Option.bind_eq_some_iff.mp hr
  obtain ⟨h₂, hl, hd, hpin⟩ := bread_two h hr₁ hr₂
  obtain ⟨hv, h₃, hpin₃⟩ := copyOut_ok h₂ hl hd hr
  exact ⟨hv, h₃, fun b' hb hp => hpin₃ b' hb (hpin b' hp)⟩

theorem writeHead_ok {lh : List Nat} (hr : writeHead g c p lh = some (v, c')) :
    CacheOk c' W (update given g.start v)
      ∧ ∀ b', b' ≠ g.start → c.Pinned b' → c'.Pinned b' := by
  unfold writeHead at hr
  obtain ⟨⟨i, c₁⟩, hr₁, hr⟩ := Option.bind_eq_some_iff.mp hr
  obtain ⟨c₂, hw, hr⟩ := Option.bind_eq_some_iff.mp hr
  obtain ⟨c₃, hrel, hr⟩ := Option.bind_eq_some_iff.mp hr
  cases hr
  obtain ⟨h₁, hread⟩ := bread_ok h hr₁
  obtain ⟨h₂, hwrote⟩ := bwrite_ok h₁ hw
  obtain ⟨h₃, -, hpin₃⟩ := brelse_ok h₂ hrel
  rw [hread.holds.blockno] at h₃
  refine ⟨h₃, fun b' hb hp => hpin₃ b' (hwrote.pinned b' ?_ (hread.pinned b' hp))⟩
  rw [hread.holds.blockno]
  exact hb

end

end Xv6FsServer.Bio
