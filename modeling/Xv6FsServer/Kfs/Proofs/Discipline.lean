/-
The calls on names, over any discipline of the inode cache.

A `Discipline` is a statement about the inode cache, in which `base` counts
the references of the tables above and `held` those of the running call,
with a promise to whoever has a reference, and with the functions of fs.c
that keep both. That is all a call of sysfile.c is made of, so every call
keeps them, wherever it gives up: this is one walk through the code for
whatever is to be known of the cache. The counts alone are a discipline on
any disk (`counting`), and so is the cache of a disk with exact accounts
(`accounting`).
-/
import Xv6FsServer.Kfs.Calls

namespace Xv6FsServer.Kfs

open Lib Fs Meets

/-- The references are those of the tables and those that are held. -/
def Refs (base : Nat → Nat) (held : List Nat) (s : KFs) : Prop :=
  ∀ i, (s.inodes i).ref = base i + held.count i

/-- An inode with other fields than its type and its blocks. -/
structure OtherFields (d e : DInode) : Prop where
  ok : e.Ok
  type : e.type = d.type
  addrs : e.addrs = d.addrs
  size : e.size = d.size

/-- `Stays` is what the holders of references can rely on, `Loaded s ip type`
that the slot's inode is loaded and of this type, `There s dev inum` that
the inode exists, and `Fault` are the panics there may be. -/
structure Discipline where
  Holds : (Nat → Nat) → List Nat → KFs → Prop
  Stays : (Nat → Nat) → List Nat → KFs → KFs → Prop
  Loaded : KFs → Nat → Nat → Prop
  There : KFs → Nat → Nat → Prop
  Fault : Panic → Prop
  refs : ∀ {base held s}, Holds base held s → Refs base held s
  rebase : ∀ {base base' : Nat → Nat} {held held' s}, Holds base held s →
    (∀ i, base' i + held'.count i = base i + held.count i) → Holds base' held' s
  refl : ∀ {base held} s, Stays base held s s
  trans : ∀ {base held s t u}, Stays base held s t → Stays base held t u →
    Stays base held s u
  fewer : ∀ {base} {held held' : List Nat} {s t}, Stays base held s t →
    (∀ i, held'.count i ≤ held.count i) → Stays base held' s t
  loaded : ∀ {base held s t ip type}, Stays base held s t →
    0 < base ip + held.count ip → Loaded s ip type → Loaded t ip type
  there : ∀ {base held s t dev inum}, Stays base held s t → There s dev inum →
    There t dev inum
  typed : ∀ {s ip type}, Loaded s ip type → Loaded s ip (s.inodes ip).d.type
  known : ∀ {base held s ip}, Holds base held s → 0 < base ip + held.count ip →
    There s (s.inodes ip).dev (s.inodes ip).inum
  low : ∀ {base held s inum}, Holds base held s → inum ≤ rootIno → There s rootDev inum
  panics : ∀ {e}, e ≠ .freeingFreeBlock → Fault e
  get : ∀ {base held s dev inum}, Holds base held s → There s dev inum →
    Safe Fault (iget dev inum) s fun ip t =>
      Holds base (ip :: held) t ∧ Stays base held s t
  dup : ∀ {base held s ip}, Holds base held s → 0 < base ip →
    Safe Fault (idup ip) s fun r t =>
      r = ip ∧ Holds base (ip :: held) t ∧ Stays base held s t
  put : ∀ {base held s ip}, Holds base (ip :: held) s →
    Safe Fault (iput ip) s fun _ t => Holds base held t ∧ Stays base held s t
  lock : ∀ {base held s ip}, Holds base held s → 0 < base ip + held.count ip →
    Safe Fault (ilock ip) s fun _ t => Holds base held t ∧ Stays base held s t
      ∧ Loaded t ip (t.inodes ip).d.type
  new : ∀ {base held s type}, Holds base held s → type ≠ 0 → type < 65536 →
    Safe Fault (do let ip ← ialloc type; ilock ip; pure ip) s fun ip t =>
      Holds base (ip :: held) t ∧ Stays base held s t ∧ Loaded t ip type
  update : ∀ {base held s ip type f}, Holds base held s →
    0 < base ip + held.count ip → Loaded s ip type →
    (∀ d : DInode, d.Ok → OtherFields d (f d)) →
    Safe Fault (do setD ip f; iupdate ip) s fun _ t =>
      Holds base held t ∧ Stays base held s t
  read : ∀ {base held s ip type} off n, Holds base held s →
    0 < base ip + held.count ip → Loaded s ip type →
    Safe Fault (readi ip off n) s fun r t => Holds base held t ∧ Stays base held s t
      ∧ (type = tDir → 16 ∣ off → n = 16 → ∀ de, r = some de → de.length = 16 →
        There t (t.inodes ip).dev (direntInum de))
  write : ∀ {base held s ip type} src off, Holds base held s →
    0 < base ip + held.count ip → Loaded s ip type →
    (type = tDir → 16 ∣ off ∧ ∃ dev inum name, There s dev inum
      ∧ src = mkDirent inum name ∧ name.length = dirsiz) →
    Safe Fault (writei ip src off) s fun _ t => Holds base held t ∧ Stays base held s t

variable {D : Discipline} {s t : KFs} {base : Nat → Nat} {held : List Nat}
variable {a b ip dp dev inum type cwd off : Nat} {name : List UInt8}

theorem head_pos : 0 < base ip + (ip :: held).count ip := by
  rw [List.count_cons_self]
  omega

theorem second_pos : 0 < base ip + (dp :: ip :: held).count ip :=
  Nat.lt_of_lt_of_le head_pos (Nat.add_le_add_left List.count_le_count_cons _)

/-- Whoever has fewer references can rely on less. -/
theorem Discipline.tail (D : Discipline) (h : D.Stays base (ip :: held) s t) :
    D.Stays base held s t :=
  D.fewer h fun _ => List.count_le_count_cons

theorem Discipline.swap (D : Discipline) (h : D.Holds base (a :: b :: held) s) :
    D.Holds base (b :: a :: held) s :=
  D.rebase h fun i => by rw [(List.Perm.swap a b held).count_eq i]

/-- The inode of an open file is loaded, and no directory if the file can be
written. -/
def Discipline.Fit (D : Discipline) (s : KFs) (X : File) : Prop :=
  ∃ type, D.Loaded s X.ip type ∧ (X.writable = true → type ≠ tDir)

theorem Discipline.fit_congr (D : Discipline) {X Y : File} (hip : Y.ip = X.ip)
    (hw : Y.writable = X.writable) (h : D.Fit s X) : D.Fit s Y := by
  unfold Discipline.Fit at h ⊢
  rw [hip, hw]
  exact h

theorem Discipline.fit_stays (D : Discipline) {X : File} (h : D.Fit s X)
    (hst : D.Stays base held s t) (hp : 0 < base X.ip) : D.Fit t X := by
  obtain ⟨type, hl, hdir⟩ := h
  exact ⟨type, D.loaded hst (by omega) hl, hdir⟩

section

variable {α : Type} {Q : α → KFs → Prop}

/-- `iunlockput`, and a result. -/
theorem putAnd_kept {r : α} (h : D.Holds base (ip :: held) s)
    (hQ : ∀ t, D.Holds base held t → D.Stays base held s t → Q r t) :
    Safe D.Fault (do iunlockput ip; pure r) s Q := by
  refine (D.put h).seq fun _ t ht => ?_
  exact ret (hQ t ht.1 ht.2)

/-- The inode is written back with other fields, and the code goes on. -/
theorem update_seq {f : DInode → DInode} {k : Op α} (h : D.Holds base held s)
    (hp : 0 < base ip + held.count ip) (hl : D.Loaded s ip type)
    (hf : ∀ d : DInode, d.Ok → OtherFields d (f d))
    (hQ : ∀ t, D.Holds base held t → D.Stays base held s t → Safe D.Fault k t Q) :
    Safe D.Fault (do setD ip f; iupdate ip; k) s Q := by
  have hseq := (D.update h hp hl hf).seq (f := fun _ => k) fun _ t ht => hQ t ht.1 ht.2
  rw [bind_assoc] at hseq
  exact hseq

/-- A new inode, and the code goes on with it. -/
theorem new_seq {k : Nat → Op α} (h : D.Holds base held s) (htype : type ≠ 0)
    (hlt : type < 65536)
    (hQ : ∀ ip t, D.Holds base (ip :: held) t → D.Stays base held s t →
      D.Loaded t ip type → Safe D.Fault (k ip) t Q) :
    Safe D.Fault (do let ip ← ialloc type; ilock ip; k ip) s Q := by
  have hseq := (D.new h htype hlt).seq (f := k) fun ip t ht => hQ ip t ht.1 ht.2.1 ht.2.2
  simp only [bind_assoc, pure_bind] at hseq
  exact hseq

-- ==== directories

/-- A loop over the entries of a directory, which reads one entry a round
(`hloop`). -/
theorem scan_kept {L : Nat → Nat → Op α} (stop : Nat → α)
    {body : Nat → Nat → List UInt8 → Op α} {e : Panic}
    (h : D.Holds base held s) (hp : 0 < base dp + held.count dp)
    (hl : D.Loaded s dp tDir) (he : e ≠ .freeingFreeBlock)
    (hend : ∀ off, L 0 off = pure (stop off)) (hloop : ∀ n off, L (n + 1) off = do
      let s ← get
      if off < (s.inodes dp).d.size then
        match ← readi dp off 16 with
        | none => throw e
        | some de => if de.length ≠ 16 then throw e else body n off de
      else pure (stop off))
    (hstop : ∀ off t, 16 ∣ off → D.Holds base held t → D.Stays base held s t →
      Q (stop off) t)
    (hbody : ∀ n off de t, 16 ∣ off → D.Holds base held t → D.Stays base held s t →
      D.There t (t.inodes dp).dev (direntInum de) →
      Safe D.Fault (L n (off + 16)) t Q → Safe D.Fault (body n off de) t Q)
    (n : Nat) (hoff : 16 ∣ off) : Safe D.Fault (L n off) s Q := by
  suffices hall : ∀ t, D.Holds base held t → D.Stays base held s t →
      Safe D.Fault (L n off) t Q from hall s h (D.refl s)
  induction n generalizing off with
  | zero =>
    intro t ht hst
    rw [hend]
    exact ret (hstop off t hoff ht hst)
  | succ n ih =>
    intro t ht hst
    rw [hloop]
    apply get_bind
    split
    next =>
      refine (D.read off 16 ht hp (D.loaded hst hp hl)).seq ?_
      rintro r u ⟨hu, hst', hthere⟩
      have hst' := D.trans hst hst'
      split
      next => exact fault (D.panics he)
      next de =>
        split
        next => exact fault (D.panics he)
        next hlen =>
          exact hbody n off de u hoff hu hst' (hthere rfl hoff rfl de rfl (not_not.mp hlen))
            (ih (Nat.dvd_add hoff (Nat.dvd_refl 16)) u hu hst')
    next => exact ret (hstop off t hoff ht hst)

end

section

variable (h : D.Holds base held s) (hp : 0 < base dp + held.count dp)
  (hl : D.Loaded s dp type)
include h hp hl

theorem dirlookup_kept : Safe D.Fault (dirlookup dp name) s fun r t =>
    D.Holds base ((r.map Prod.fst).toList ++ held) t ∧ D.Stays base held s t
      ∧ D.Loaded s dp tDir ∧ ∀ ip off, r = some (ip, off) → 16 ∣ off := by
  apply get_bind
  split
  next => exact fault (D.panics (by nofun))
  next hdir =>
    have hl := D.typed hl
    rw [not_not.mp hdir] at hl
    refine scan_kept (fun _ => none) (e := .dirlookupRead) h hp hl (by nofun)
      (fun _ => rfl) (fun _ _ => rfl)
      (fun _ t _ ht hst => ⟨ht, hst, hl, fun _ _ hr => nomatch hr⟩)
      (fun n off de t hoff ht hst hthere hnext => ?_) _ (Nat.dvd_zero 16)
    split
    next => exact hnext
    split
    next =>
      apply get_bind
      refine (D.get ht hthere).seq fun ip u hu => ?_
      refine ret ⟨hu.1, D.trans hst hu.2, hl, fun jp o hr => ?_⟩
      cases hr
      exact hoff
    next => exact hnext

/-- `dirlink` goes on to an entry that is not in use. -/
theorem dirlinkLoop_kept (hdir : type = tDir) (n : Nat) :
    Safe D.Fault (dirlinkLoop dp n 0) s fun r t =>
      D.Holds base held t ∧ D.Stays base held s t ∧ 16 ∣ r := by
  rw [hdir] at hl
  refine scan_kept id (e := .dirlinkRead) h hp hl (by nofun) (fun _ => rfl)
    (fun _ _ => rfl) (fun _ t hoff ht hst => ⟨ht, hst, hoff⟩)
    (fun n off de t hoff ht hst _ hnext => ?_) n (Nat.dvd_zero 16)
  split
  next => exact ret ⟨ht, hst, hoff⟩
  next => exact hnext

theorem inUse_kept : Safe D.Fault (inUse dp) s fun _ t =>
    D.Holds base held t ∧ D.Stays base held s t := by
  apply get_bind
  split
  next hdir =>
    have hl := D.typed hl
    rw [hdir] at hl
    apply map
    apply get_bind
    refine scan_kept (fun _ => true) (e := .isdiremptyReadi) h hp hl (by nofun)
      (fun _ => rfl) (fun _ _ => rfl) (fun _ t _ ht hst => ⟨ht, hst⟩)
      (fun n off de t _ ht hst _ hnext => ?_) _ (Nat.dvd_mul_right 16 2)
    split
    next => exact ret ⟨ht, hst⟩
    next => exact hnext
  next => exact ret ⟨h, D.refl s⟩

end

theorem length_strncpy (name : List UInt8) (n : Nat) : (strncpy name n).length = n := by
  unfold strncpy
  rw [List.length_append, List.length_take, List.length_replicate]
  omega

theorem dirlink_kept (h : D.Holds base held s) (hp : 0 < base dp + held.count dp)
    (hl : D.Loaded s dp type) (hthere : D.There s dev inum) :
    Safe D.Fault (dirlink dp name inum) s fun _ t =>
      D.Holds base held t ∧ D.Stays base held s t := by
  refine (dirlookup_kept h hp hl).seq ?_
  rintro r t ⟨ht, hst, hl, -⟩
  split
  next ip off => exact putAnd_kept ht fun u hu hst' => ⟨hu, D.trans hst hst'⟩
  next =>
    apply get_bind
    refine (dirlinkLoop_kept ht hp (D.loaded hst hp hl) rfl _).seq ?_
    rintro off u ⟨hu, hst', hoff⟩
    have hst := D.trans hst hst'
    refine (D.write _ off hu hp (D.loaded hst hp hl) fun _ => ⟨hoff, dev, inum,
      strncpy name dirsiz, D.there hst hthere, rfl, length_strncpy ..⟩).seq fun r v hv => ?_
    split
    next => exact fault (D.panics (by nofun))
    next => exact ret ⟨hv.1, D.trans hst hv.2⟩

-- ==== paths

theorem namexLoop_kept (nameiparent : Bool) (n : Nat) (path : List UInt8)
    (h : D.Holds base (ip :: held) s) :
    Safe D.Fault (namexLoop nameiparent n ip path) s fun r t =>
      D.Holds base ((r.map Prod.fst).toList ++ held) t ∧ D.Stays base held s t := by
  induction n generalizing s ip path with
  | zero => exact ret ⟨h, D.refl s⟩
  | succ n ih =>
    unfold namexLoop
    split
    next =>
      split
      next => exact putAnd_kept h fun t ht hst => ⟨ht, hst⟩
      next => exact ret ⟨h, D.refl s⟩
    next name rest _ =>
      refine (D.lock h head_pos).seq ?_
      rintro _ t ⟨h1, hst1, hl⟩
      have hst1 := D.tail hst1
      apply get_bind
      split
      next => exact putAnd_kept h1 fun u hu hst => ⟨hu, D.trans hst1 hst⟩
      split
      next => exact ret ⟨h1, hst1⟩
      refine (dirlookup_kept h1 head_pos hl).seq ?_
      rintro r u ⟨h2, hst2, -⟩
      have hst2 := D.trans hst1 (D.tail hst2)
      split
      next => exact putAnd_kept h2 fun v hv hst => ⟨hv, D.trans hst2 hst⟩
      next jp off =>
        refine (D.put (D.swap h2)).seq fun _ v hv => ?_
        refine (ih rest hv.1).mono fun r w hw => ⟨hw.1, ?_⟩
        exact D.trans (D.trans hst2 (D.tail hv.2)) hw.2

theorem namex_kept (path : List UInt8) (nameiparent : Bool) (h : D.Holds base held s)
    (hcwd : 0 < base cwd) : Safe D.Fault (namex cwd path nameiparent) s fun r t =>
      D.Holds base ((r.map Prod.fst).toList ++ held) t ∧ D.Stays base held s t := by
  unfold namex
  split
  next =>
    refine (D.get h (D.low h (Nat.le_refl _))).seq fun ip t ht => ?_
    exact (namexLoop_kept nameiparent _ path ht.1).mono fun r u hu =>
      ⟨hu.1, D.trans ht.2 hu.2⟩
  next =>
    refine (D.dup h hcwd).seq ?_
    rintro r t ⟨rfl, ht⟩
    exact (namexLoop_kept nameiparent _ path ht.1).mono fun r u hu =>
      ⟨hu.1, D.trans ht.2 hu.2⟩

theorem namei_kept (path : List UInt8) (h : D.Holds base held s) (hcwd : 0 < base cwd) :
    Safe D.Fault (namei cwd path) s fun r t =>
      D.Holds base (r.toList ++ held) t ∧ D.Stays base held s t := by
  apply map
  exact namex_kept path false h hcwd

/-- `namei` and `ilock`, the beginning of many a call. -/
theorem onPath_kept {α : Type} {Q : α → KFs → Prop} {none' : Op α} {k : Nat → Op α}
    (path : List UInt8) (h : D.Holds base held s) (hcwd : 0 < base cwd)
    (hnone : ∀ t, D.Holds base held t → D.Stays base held s t → Safe D.Fault none' t Q)
    (hsome : ∀ ip t, D.Holds base (ip :: held) t → D.Stays base held s t →
      D.Loaded t ip (t.inodes ip).d.type → Safe D.Fault (k ip) t Q) :
    Safe D.Fault (do
      match ← namei cwd path with
      | none => none'
      | some ip => do ilock ip; k ip) s Q := by
  refine (namei_kept path h hcwd).seq ?_
  rintro r t ⟨h1, hst1⟩
  split
  next => exact hnone t h1 hst1
  next ip =>
    refine (D.lock h1 head_pos).seq ?_
    rintro _ u ⟨h2, hst2, hl⟩
    exact hsome ip u h2 (D.trans hst1 (D.tail hst2)) hl

/-- The same with the parent directory. -/
theorem onParent_kept {α : Type} {Q : α → KFs → Prop} {none' : Op α}
    {k : Nat → List UInt8 → Op α} (path : List UInt8) (h : D.Holds base held s)
    (hcwd : 0 < base cwd)
    (hnone : ∀ t, D.Holds base held t → D.Stays base held s t → Safe D.Fault none' t Q)
    (hsome : ∀ dp name t, D.Holds base (dp :: held) t → D.Stays base held s t →
      D.Loaded t dp (t.inodes dp).d.type → Safe D.Fault (k dp name) t Q) :
    Safe D.Fault (do
      match ← nameiparent cwd path with
      | none => none'
      | some (dp, name) => do ilock dp; k dp name) s Q := by
  refine (namex_kept path true h hcwd).seq ?_
  rintro r t ⟨h1, hst1⟩
  split
  next => exact hnone t h1 hst1
  next dp name =>
    refine (D.lock h1 head_pos).seq ?_
    rintro _ u ⟨h2, hst2, hl⟩
    exact hsome dp name u h2 (D.trans hst1 (D.tail hst2)) hl

-- ==== link and unlink

theorem addLink_fields (d : DInode) (h : d.Ok) : OtherFields d (addLink d) := by
  have hn : (d.nlink + 1) % 65536 < 65536 := Nat.mod_lt _ (by omega)
  unfold addLink
  generalize (d.nlink + 1) % 65536 = n at hn ⊢
  exact ⟨{ h with nlink := hn }, rfl, rfl, rfl⟩

theorem dropLink_fields (d : DInode) (h : d.Ok) : OtherFields d (dropLink d) := by
  have hn : (d.nlink + 65535) % 65536 < 65536 := Nat.mod_lt _ (by omega)
  unfold dropLink
  generalize (d.nlink + 65535) % 65536 = n at hn ⊢
  exact ⟨{ h with nlink := hn }, rfl, rfl, rfl⟩

theorem linkBad_kept (h : D.Holds base (ip :: held) s) :
    Safe D.Fault (linkBad ip) s fun _ t => D.Holds base held t ∧ D.Stays base held s t := by
  refine (D.lock h head_pos).seq ?_
  rintro _ t ⟨h1, hst1, hl⟩
  refine update_seq h1 head_pos hl dropLink_fields fun u h2 hst2 => ?_
  exact putAnd_kept h2 fun v hv hst =>
    ⟨hv, D.trans (D.tail (D.trans hst1 hst2)) hst⟩

theorem link_kept (old new : List UInt8) (h : D.Holds base held s) (hcwd : 0 < base cwd) :
    Safe D.Fault (link cwd old new) s fun _ t =>
      D.Holds base held t ∧ D.Stays base held s t := by
  refine onPath_kept old h hcwd (fun t ht hst => ret ⟨ht, hst⟩) fun ip t h2 hst2 hl => ?_
  apply get_bind
  split
  next => exact putAnd_kept h2 fun u hu hst => ⟨hu, D.trans hst2 hst⟩
  refine update_seq h2 head_pos hl addLink_fields fun u h3 hst3 => ?_
  have hst3 := D.trans hst2 (D.tail hst3)
  refine onParent_kept new h3 hcwd (fun v h4 hst4 => ?_) fun dp name v h4 hst4 hld => ?_
  · exact (linkBad_kept h4).mono fun _ w hw =>
      ⟨hw.1, D.trans (D.trans hst3 (D.tail hst4)) hw.2⟩
  · have hst4 := D.trans hst3 (D.tail hst4)
    -- from here on both are held, and `bad` puts them in this order
    have hbad : ∀ v, D.Holds base (dp :: ip :: held) v → D.Stays base held s v →
        Safe D.Fault (do iunlockput dp; linkBad ip) v fun _ w =>
          D.Holds base held w ∧ D.Stays base held s w := by
      intro v hv hst
      refine (D.put hv).seq fun _ w hw => ?_
      exact (linkBad_kept hw.1).mono fun _ x hx =>
        ⟨hx.1, D.trans (D.trans hst (D.tail hw.2)) hx.2⟩
    apply get_bind
    split
    next => exact hbad v h4 hst4
    refine (dirlink_kept h4 head_pos hld (D.known h4 second_pos)).seq ?_
    rintro r w ⟨h5, hst5⟩
    have hst5 := D.trans hst4 (D.tail (D.tail hst5))
    split
    next => exact hbad w h5 hst5
    refine (D.put h5).seq fun _ x hx => ?_
    exact putAnd_kept hx.1 fun y hy hst =>
      ⟨hy, D.trans (D.trans hst5 (D.tail hx.2)) hst⟩

theorem dropParent_kept (h : D.Holds base held s) (hp : 0 < base dp + held.count dp)
    (hd : D.Loaded s dp type) :
    Safe D.Fault (dropParent dp ip) s fun _ t =>
      D.Holds base held t ∧ D.Stays base held s t := by
  apply get_bind
  split
  next => exact D.update h hp hd dropLink_fields
  next => exact ret ⟨h, D.refl s⟩

theorem unlinkEntry_kept (h : D.Holds base (dp :: ip :: held) s)
    (hd : D.Loaded s dp a) (hl : D.Loaded s ip b) (hoff : 16 ∣ off) :
    Safe D.Fault (unlinkEntry dp ip off) s fun _ t =>
      D.Holds base held t ∧ D.Stays base held s t := by
  refine (D.write _ off h head_pos hd fun _ => ⟨hoff, rootDev, 0,
    List.replicate dirsiz 0, D.low h (Nat.zero_le _), rfl, rfl⟩).seq ?_
  rintro r t ⟨h1, hst1⟩
  split
  next => exact fault (D.panics (by nofun))
  refine (dropParent_kept h1 head_pos (D.loaded hst1 head_pos hd)).seq ?_
  rintro _ u ⟨h2, hst2⟩
  have hst2 := D.tail (D.trans hst1 hst2)
  refine (D.put h2).seq ?_
  rintro _ v ⟨h3, hst3⟩
  have hst3 := D.trans hst2 hst3
  refine update_seq h3 head_pos (D.loaded hst3 head_pos hl) dropLink_fields
    fun w h4 hst4 => ?_
  exact putAnd_kept h4 fun x hx hst =>
    ⟨hx, D.trans (D.tail (D.trans hst3 hst4)) hst⟩

theorem unlink_kept (path : List UInt8) (h : D.Holds base held s) (hcwd : 0 < base cwd) :
    Safe D.Fault (unlink cwd path) s fun _ t =>
      D.Holds base held t ∧ D.Stays base held s t := by
  refine onParent_kept path h hcwd (fun t ht hst => ret ⟨ht, hst⟩)
    fun dp name t h2 hst2 hd => ?_
  split
  next => exact putAnd_kept h2 fun u hu hst => ⟨hu, D.trans hst2 hst⟩
  refine (dirlookup_kept h2 head_pos hd).seq ?_
  rintro q u ⟨h3, hst3, -, hoff⟩
  have hd3 := D.loaded hst3 head_pos hd
  have hst3 := D.trans hst2 (D.tail hst3)
  split
  next => exact putAnd_kept h3 fun v hv hst => ⟨hv, D.trans hst3 hst⟩
  next ip off =>
    refine (D.lock h3 head_pos).seq ?_
    rintro _ v ⟨h4, hst4, hl⟩
    have hd4 := D.loaded hst4 second_pos hd3
    have hst4 := D.trans hst3 (D.tail (D.tail hst4))
    apply get_bind
    split
    next => exact fault (D.panics (by nofun))
    refine (inUse_kept h4 head_pos hl).seq ?_
    rintro busy w ⟨h5, hst5⟩
    have hd5 := D.loaded hst5 second_pos hd4
    have hl5 := D.loaded hst5 head_pos hl
    have hst5 := D.trans hst4 (D.tail (D.tail hst5))
    split
    next =>
      refine (D.put h5).seq fun _ x hx => ?_
      exact putAnd_kept hx.1 fun y hy hst =>
        ⟨hy, D.trans (D.trans hst5 (D.tail hx.2)) hst⟩
    next =>
      exact (unlinkEntry_kept (D.swap h5) hd5 hl5 (hoff _ _ rfl)).mono fun _ x hx =>
        ⟨hx.1, D.trans hst5 hx.2⟩

-- ==== create

theorem newFields (major minor : Nat) (d : DInode) (h : d.Ok) :
    OtherFields d
      { d with major := major % 65536, minor := minor % 65536, nlink := 1 } := by
  have h1 : major % 65536 < 65536 := Nat.mod_lt _ (by omega)
  have h2 : minor % 65536 < 65536 := Nat.mod_lt _ (by omega)
  generalize major % 65536 = a at h1 ⊢
  generalize minor % 65536 = b at h2 ⊢
  exact ⟨{ h with major := h1, minor := h2, nlink := Nat.one_lt_succ_succ _ }, rfl, rfl, rfl⟩

theorem createDots_kept (h : D.Holds base (ip :: dp :: held) s)
    (hd : D.Loaded s dp a) (hl : D.Loaded s ip b) :
    Safe D.Fault (createDots dp ip type) s fun _ t =>
      D.Holds base (ip :: dp :: held) t ∧ D.Stays base (ip :: dp :: held) s t := by
  unfold createDots
  split
  next =>
    refine update_seq h second_pos hd addLink_fields fun t h1 hst1 => ?_
    apply get_bind
    refine (dirlink_kept h1 head_pos (D.loaded hst1 head_pos hl)
      (D.known h1 head_pos)).seq ?_
    rintro r u ⟨h2, hst2⟩
    split
    next => exact fault (D.panics (by nofun))
    refine (dirlink_kept h2 head_pos (D.loaded (D.trans hst1 hst2) head_pos hl)
      (D.there hst2 (D.known h1 second_pos))).seq fun r v hv => ?_
    split
    next => exact fault (D.panics (by nofun))
    next => exact ret ⟨hv.1, D.trans (D.trans hst1 hst2) hv.2⟩
  next => exact ret ⟨h, D.refl s⟩

theorem createNew_kept (major minor : Nat) (h : D.Holds base (dp :: held) s)
    (hd : D.Loaded s dp a) (htype : type ≠ 0) (hlt : type < 65536) :
    Safe D.Fault (createNew dp name type major minor) s fun r t => ∃ ip, r = some ip
      ∧ D.Holds base (ip :: held) t ∧ D.Stays base held s t ∧ D.Loaded t ip type := by
  refine new_seq h htype hlt fun ip t h1 hst1 hl1 => ?_
  have hd1 := D.loaded hst1 head_pos hd
  refine update_seq h1 head_pos hl1 (newFields major minor) fun u h2 hst2 => ?_
  refine (createDots_kept h2 (D.loaded hst2 second_pos hd1)
    (D.loaded hst2 head_pos hl1)).seq ?_
  rintro _ v ⟨h3, hst3⟩
  have hst3 := D.trans hst2 hst3
  apply get_bind
  refine (dirlink_kept h3 second_pos (D.loaded hst3 second_pos hd1)
    (D.known h3 head_pos)).seq ?_
  rintro r w ⟨h4, hst4⟩
  have hst4 := D.trans hst3 hst4
  split
  next => exact fault (D.panics (by nofun))
  refine putAnd_kept (D.swap h4) fun x hx hst => ⟨ip, rfl, hx, ?_, ?_⟩
  · exact D.trans (D.trans (D.tail hst1) (D.tail (D.tail hst4))) (D.tail hst)
  · -- `ip` was held all along
    exact D.loaded hst head_pos (D.loaded hst4 head_pos hl1)

theorem create_kept (path : List UInt8) (major minor : Nat) (h : D.Holds base held s)
    (hcwd : 0 < base cwd) (htype : type ≠ 0) (hlt : type < 65536) :
    Safe D.Fault (create cwd path type major minor) s fun r t =>
      D.Holds base (r.toList ++ held) t ∧ D.Stays base held s t
        ∧ ∀ ip, r = some ip → D.Loaded t ip type := by
  refine onParent_kept path h hcwd
    (fun t ht hst => ret ⟨ht, hst, fun _ hr => nomatch hr⟩) fun dp name t h2 hst2 hd => ?_
  refine (dirlookup_kept h2 head_pos hd).seq ?_
  rintro q u ⟨h3, hst3, -⟩
  have hd3 := D.loaded hst3 head_pos hd
  have hst3 := D.trans hst2 (D.tail hst3)
  split
  next ip off =>
    refine (D.put (D.swap h3)).seq ?_
    rintro _ v ⟨h4, hst4⟩
    refine (D.lock h4 head_pos).seq ?_
    rintro _ w ⟨h5, hst5, hl⟩
    have hst5 := D.trans hst3 (D.tail (D.trans hst4 hst5))
    apply get_bind
    split
    next hfile =>
      refine ret ⟨h5, hst5, fun jp hr => ?_⟩
      cases hr
      rw [hfile.2, ← hfile.1] at hl
      exact hl
    next =>
      exact putAnd_kept h5 fun x hx hst =>
        ⟨hx, D.trans hst5 hst, fun _ hr => nomatch hr⟩
  next =>
    refine (createNew_kept major minor h3 hd3 htype hlt).mono fun r v hv => ?_
    obtain ⟨ip, rfl, h4, hst4, hl⟩ := hv
    refine ⟨h4, D.trans hst3 hst4, fun jp hr => ?_⟩
    cases hr
    exact hl

theorem createAndPut_kept (path : List UInt8) (major minor : Nat)
    (h : D.Holds base held s) (hcwd : 0 < base cwd) (htype : type ≠ 0)
    (hlt : type < 65536) :
    Safe D.Fault (createAndPut cwd path type major minor) s fun _ t =>
      D.Holds base held t ∧ D.Stays base held s t := by
  refine (create_kept path major minor h hcwd htype hlt).seq ?_
  rintro r t ⟨h1, hst1, -⟩
  split
  next => exact ret ⟨h1, hst1⟩
  next ip => exact putAnd_kept h1 fun u hu hst => ⟨hu, D.trans hst1 hst⟩

-- ==== open, chdir, exec and the files

/-- `opened` for writing only if the mode is not `O_RDONLY`. -/
theorem Discipline.fit_opened (D : Discipline) {omode : Nat} (hl : D.Loaded s ip type)
    (hdir : type = tDir → omode = oRdonly) (X : File) :
    D.Fit s (opened .inode ip omode X) := by
  refine ⟨type, hl, fun hw htype => ?_⟩
  cases hdir htype
  exact absurd hw (show ¬(oWronly oRdonly || oRdwr oRdonly) = true by decide)

theorem openInode_kept (path : List UInt8) (omode : Nat) (h : D.Holds base held s)
    (hcwd : 0 < base cwd) :
    Safe D.Fault (openInode cwd path omode) s fun r t =>
      D.Holds base (r.toList ++ held) t ∧ D.Stays base held s t
        ∧ ∀ ip, r = some ip → ∀ X, D.Fit t (opened .inode ip omode X) := by
  unfold openInode
  split
  next =>
    refine (create_kept path 0 0 h hcwd (by decide) (by decide)).mono fun r t ht => ?_
    exact ⟨ht.1, ht.2.1, fun ip hr => D.fit_opened (ht.2.2 ip hr) fun hdir =>
      absurd hdir (by decide)⟩
  next =>
    refine onPath_kept path h hcwd
      (fun t ht hst => ret ⟨ht, hst, fun _ hr => nomatch hr⟩) fun ip t h2 hst2 hl => ?_
    apply get_bind
    split
    next =>
      exact putAnd_kept h2 fun u hu hst =>
        ⟨hu, D.trans hst2 hst, fun _ hr => nomatch hr⟩
    next hok =>
      refine ret ⟨h2, hst2, fun jp hr => ?_⟩
      cases hr
      exact D.fit_opened hl fun hdir => not_not.mp fun hne => hok ⟨hdir, hne⟩

theorem chdirInode_kept (path : List UInt8) (h : D.Holds base held s)
    (hcwd : 0 < base cwd) :
    Safe D.Fault (chdirInode cwd path) s fun r t =>
      D.Holds base (r.toList ++ held) t ∧ D.Stays base held s t := by
  refine onPath_kept path h hcwd (fun t ht hst => ret ⟨ht, hst⟩) fun ip t h2 hst2 _ => ?_
  apply get_bind
  split
  next => exact putAnd_kept h2 fun u hu hst => ⟨hu, D.trans hst2 hst⟩
  next => exact ret ⟨h2, hst2⟩

theorem ilock_kept (h : D.Holds base held s) (hp : 0 < base ip + held.count ip) :
    Safe D.Fault (ilock ip) s fun _ t => D.Holds base held t ∧ D.Stays base held s t :=
  (D.lock h hp).mono fun _ _ ht => ⟨ht.1, ht.2.1⟩

theorem readiDev_kept (ext : Option (List UInt8)) (h : D.Holds base held s)
    (hp : 0 < base ip + held.count ip) (hl : D.Loaded s ip type) (off n : Nat) :
    Safe D.Fault (readiDev ext ip off n) s fun _ t =>
      D.Holds base held t ∧ D.Stays base held s t := by
  apply get_bind
  split
  next => exact ret ⟨h, D.refl s⟩
  next => exact (D.read off n h hp hl).mono fun _ _ ht => ⟨ht.1, ht.2.1⟩

/-- A write to a file that is no directory. -/
theorem writeiDev_kept (ext : Int) (h : D.Holds base held s)
    (hp : 0 < base ip + held.count ip) (hl : D.Loaded s ip type) (hdir : type ≠ tDir)
    (src : List UInt8) (off : Nat) :
    Safe D.Fault (writeiDev ext ip src off) s fun _ t =>
      D.Holds base held t ∧ D.Stays base held s t := by
  apply get_bind
  split
  next => exact ret ⟨h, D.refl s⟩
  next => exact D.write src off h hp hl fun htype => absurd htype hdir

theorem execReads_kept (ext : Option (List UInt8)) (reads : List (Nat × Nat))
    (h : D.Holds base held s) (hp : 0 < base ip + held.count ip)
    (hl : D.Loaded s ip type) :
    Safe D.Fault (execReads ext ip reads) s fun _ t =>
      D.Holds base held t ∧ D.Stays base held s t := by
  induction reads generalizing s with
  | nil => exact ret ⟨h, D.refl s⟩
  | cons x rest ih =>
    refine (readiDev_kept ext h hp hl x.1 x.2).seq fun _ t ht => ?_
    exact (ih ht.1 (D.loaded ht.2 hp hl)).mono fun _ u hu => ⟨hu.1, D.trans ht.2 hu.2⟩

theorem execFile_kept (path : List UInt8) (ext : Option (List UInt8))
    (reads : List (Nat × Nat)) (h : D.Holds base held s) (hcwd : 0 < base cwd) :
    Safe D.Fault (execFile cwd path ext reads) s fun _ t =>
      D.Holds base held t ∧ D.Stays base held s t := by
  refine onPath_kept path h hcwd (fun t ht hst => ret ⟨ht, hst⟩) fun ip t h2 hst2 hl => ?_
  refine (execReads_kept ext reads h2 head_pos hl).seq fun _ u hu => ?_
  have hst3 := D.trans hst2 (D.tail hu.2)
  exact (D.put hu.1).mono fun _ v hv => ⟨hv.1, D.trans hst3 hv.2⟩

end Xv6FsServer.Kfs
