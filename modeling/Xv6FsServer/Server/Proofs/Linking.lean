/-
The two writes of a creation: a new inode, and an entry in a directory.

`Rewritten` is an inode written back, with what that does to the table of
inodes and to the cache. Over it `ialloc` takes the lowest free inode
(`freeInode`), and `dirlink` writes the entry into the first free place of
the directory unless it finds the name (`Linked`).
-/
import Xv6FsServer.Server.Spec
import Xv6FsServer.Server.Proofs.Paths

namespace Xv6FsServer.Server

open Lib Fs Function Server.Core Meets

variable {c c' : Core} {s : Srv} {H : List (Nat × Nat)} {R : List Nat}
variable {i j ip inum dp : Nat} {d : DInode} {name bytes : List UInt8}

-- ==== an inode is written back

/-- The inode `inum` is written to the disk as `d`, which is also what the
cache then has of it. -/
structure Rewritten (c c' : Core) (inum : Nat) (d : DInode) : Prop where
  disk : c'.disk = putInode c.sb c.disk inum d
  sb : c'.sb = c.sb
  fdTable : c'.fdTable = c.fdTable
  fdInodes : c'.fdInodes = c.fdInodes
  node : ∀ j, ∃ d', c'.inodes j = { c.inodes j with d := d' }
  other : ∀ j, (c.inodes j).inum ≠ inum → c'.inodes j = c.inodes j
  self : ∀ j, j < ninode → (c.inodes j).Live → (c.inodes j).inum = inum →
    (c.inodes j).valid = true → (c'.inodes j).d = d

theorem Rewritten.live (h : Rewritten c c' inum d) (j : Nat) :
    ((c'.inodes j).Live ↔ (c.inodes j).Live)
      ∧ (c'.inodes j).inum = (c.inodes j).inum
      ∧ (c'.inodes j).ref = (c.inodes j).ref
      ∧ (c'.inodes j).dev = (c.inodes j).dev
      ∧ (c'.inodes j).valid = (c.inodes j).valid := by
  obtain ⟨d', hd⟩ := h.node j
  rw [hd]
  exact ⟨Iff.rfl, rfl, rfl, rfl, rfl⟩

theorem Rewritten.dinode_self (h : Rewritten c c' inum d) (hok : d.Ok) :
    dinode c'.sb c'.disk inum = d := by
  rw [h.sb, h.disk]
  exact dinode_putInode hok

theorem Rewritten.dinode_of_ne (h : Rewritten c c' inum d) (hne : j ≠ inum) :
    dinode c'.sb c'.disk j = dinode c.sb c.disk j := by
  rw [h.sb, h.disk]
  exact dinode_putInode_of_ne hne

theorem Rewritten.tab (h : Rewritten c c' inum d) (hok : d.Ok) :
    c'.tab = update c.tab inum d := by
  have hcached : ∀ n, c'.cached n = c.cached n := by
    intro n
    unfold cached
    refine first_congr fun j _ _ => ?_
    obtain ⟨hlive, hinum, -⟩ := h.live j
    rw [Bool.eq_iff_iff, cached_test, cached_test, hlive, hinum]
  funext n
  by_cases hn : n = inum
  · subst hn
    rw [update_self]
    unfold tab
    rw [hcached n]
    cases hc : c.cached n with
    | none => exact h.dinode_self hok
    | some j =>
      obtain ⟨hj, hlive, hinum⟩ := cached_some hc
      dsimp only
      rw [(h.live j).2.2.2.2]
      split
      next hvalid => exact h.self j hj hlive hinum hvalid
      next => exact h.dinode_self hok
  · rw [update_of_ne hn]
    unfold Core.tab
    rw [hcached n, h.dinode_of_ne hn]
    cases hc : c.cached n with
    | none => rfl
    | some j =>
      obtain ⟨-, -, hinum⟩ := cached_some hc
      dsimp only
      rw [h.other j (by rw [hinum]; exact hn)]

theorem CacheOk.rewritten (h : CacheOk c R) (hr : Rewritten c c' inum d)
    (hi : inum < c.sb.ninodes) (hok : d.Ok) (htype : d.type ≠ 0)
    (hblocks : (∀ k, d.addrs k = 0)
      ∨ (Allocated c.sb c.tab inum ∧ d.addrs = (c.tab inum).addrs)) :
    CacheOk c' R := by
  have hdinode : ∀ j, j < ninode → (c.inodes j).inum = inum ∨
      c'.inodes j = c.inodes j ∧ dinode c'.sb c'.disk (c'.inodes j).inum
        = dinode c.sb c.disk (c.inodes j).inum := by
    intro j hj
    by_cases he : (c.inodes j).inum = inum
    · exact Or.inl he
    · rw [hr.other j he, hr.dinode_of_ne he]
      exact Or.inr ⟨rfl, rfl⟩
  refine ⟨⟨?_, ?_, ?_, ?_, ?_, ?_⟩, ?_, ?_, ?_, h.held, ?_⟩
  · rw [hr.sb]
    exact h.vol.layout
  · intro i j hi hj hli hlj hinum
    rw [(hr.live i).1] at hli
    rw [(hr.live j).1] at hlj
    rw [(hr.live i).2.1, (hr.live j).2.1] at hinum
    exact h.vol.distinct i j hi hj hli hlj hinum
  · intro j hj hlive
    rw [(hr.live j).1] at hlive
    rw [(hr.live j).2.1, hr.sb]
    exact h.vol.inums j hj hlive
  · intro j hj hlive hvalid
    rw [(hr.live j).1] at hlive
    rw [(hr.live j).2.2.2.2] at hvalid
    rcases hdinode j hj with he | ⟨he, -⟩
    · rw [hr.self j hj hlive he hvalid]
      exact hok
    · rw [he]
      exact h.vol.ok j hj hlive hvalid
  · intro j hj hlive hvalid
    rw [(hr.live j).1] at hlive
    rw [(hr.live j).2.2.2.2] at hvalid
    rcases hdinode j hj with he | ⟨he, hd⟩
    · rw [hr.self j hj hlive he hvalid, (hr.live j).2.1, he, hr.dinode_self hok]
      exact .refl d
    · rw [hd, he]
      exact h.vol.older j hj hlive hvalid
  · rw [hr.sb, hr.disk, hr.tab hok]
    exact h.vol.owns.putInode h.vol.layout hi hblocks
  · intro j hj href
    rw [(hr.live j).2.2.1] at href
    rw [(hr.live j).2.2.2.1]
    exact h.dev j hj href
  · intro j hj href
    rw [(hr.live j).2.2.1] at href
    rcases hdinode j hj with he | ⟨-, hd⟩
    · rw [(hr.live j).2.1, he, hr.dinode_self hok]
      exact htype
    · rw [hd]
      exact h.alloc j hj href
  · intro j hj
    have hopens : c'.opens j = c.opens j := by
      unfold opens
      rw [hr.fdInodes]
    rw [(hr.live j).2.2.1, hopens]
    exact h.refs j hj
  · intro f hf j hopen
    rw [hr.fdInodes] at hopen
    rw [(hr.live j).2.2.2.2]
    exact h.fds f hf j hopen

-- ==== the table and the inode cache

/-- Loading inodes does not change the inode table. -/
theorem Core.tab_congr (hd : c.Distinct) (hd' : c'.Distinct) (hsame : SameFiles c c')
    (hkept : ∀ i, i < ninode → (c.inodes i).Live → (c.inodes i).valid = true →
      (c'.inodes i).Live ∧ SameNode (c.inodes i) (c'.inodes i))
    (hnew : ∀ i, i < ninode → (c'.inodes i).Live → (c'.inodes i).valid = true →
      ((c.inodes i).Live ∧ SameNode (c.inodes i) (c'.inodes i))
      ∨ (c'.inodes i).d = dinode c.sb c.disk (c'.inodes i).inum
        ∧ ∀ j, j < ninode → (c.inodes j).Live → (c.inodes j).valid = true →
          (c.inodes j).inum ≠ (c'.inodes i).inum) :
    c'.tab = c.tab := by
  funext n
  by_cases hex : ∃ i, i < ninode ∧ (c.inodes i).Live ∧ (c.inodes i).valid = true
      ∧ (c.inodes i).inum = n
  · obtain ⟨i, hi, hlive, hvalid, rfl⟩ := hex
    obtain ⟨hlive', hnode⟩ := hkept i hi hlive hvalid
    rw [tab_of_valid hd hi hlive hvalid, ← hnode.inum,
      tab_of_valid hd' hi hlive' (hnode.valid.trans hvalid), hnode.d]
  · have hold : c.tab n = dinode c.sb c.disk n := by
      refine tab_of_none fun i hi hlive hinum => ?_
      by_contra hvalid
      exact hex ⟨i, hi, hlive, Bool.not_eq_false _ ▸ hvalid, hinum⟩
    rw [hold]
    by_cases hex' : ∃ i, i < ninode ∧ (c'.inodes i).Live
        ∧ (c'.inodes i).valid = true ∧ (c'.inodes i).inum = n
    · obtain ⟨i, hi, hlive, hvalid, rfl⟩ := hex'
      rw [tab_of_valid hd' hi hlive hvalid]
      rcases hnew i hi hlive hvalid with ⟨hl, hnode⟩ | ⟨hdi, -⟩
      · exact absurd ⟨i, hi, hl, hnode.valid.symm.trans hvalid, hnode.inum.symm⟩ hex
      · exact hdi
    · rw [← hsame.sb, ← hsame.disk]
      refine tab_of_none fun i hi hlive hinum => ?_
      by_contra hvalid
      exact hex' ⟨i, hi, hlive, Bool.not_eq_false _ ▸ hvalid, hinum⟩

theorem CacheOk.tab_get (h : CacheOk c R)
    (halloc : Allocated c.sb (dinode c.sb c.disk) inum) (hget : c.get inum = (some i, c')) :
    c'.tab = c.tab := by
  have hc' := (h.get halloc hget).1
  have hsame : SameFiles c c' := by
    have := c.get_sameFiles inum
    rw [hget] at this
    exact this
  have hcases := c.get_cases inum
  rw [hget] at hcases
  refine tab_congr h.vol.distinct hc'.vol.distinct hsame ?_ ?_
  · intro j _ hlive _
    have hnode := c.get_sameNode inum hlive
    rw [hget] at hnode
    refine ⟨?_, hnode⟩
    cases hcases with
    | found =>
      by_cases hj : j = i
      · subst hj
        rw [c.setNode_self]
        exact ⟨by have := hlive.1; show 0 < _ + 1; omega, hlive.2⟩
      · rw [c.setNode_of_ne _ hj]
        exact hlive
    | fresh _ _ hfree =>
      by_cases hj : j = i
      · subst hj
        have := hlive.1
        omega
      · rw [c.setNode_of_ne _ hj]
        exact hlive
  · intro j _ hlive hvalid
    left
    cases hcases with
    | found _ _ hl =>
      by_cases hj : j = i
      · subst hj
        rw [c.setNode_self]
        exact ⟨hl, rfl, rfl, rfl⟩
      · rw [c.setNode_of_ne _ hj] at hlive ⊢
        exact ⟨hlive, .refl _⟩
    | fresh =>
      by_cases hj : j = i
      · subst hj
        rw [c.setNode_self] at hvalid
        cases hvalid
      · rw [c.setNode_of_ne _ hj] at hlive ⊢
        exact ⟨hlive, .refl _⟩

theorem CacheOk.tab_lock (h : CacheOk c R) (hi : ip ∈ R) :
    (c.lock ip).tab = c.tab := by
  have hlive := h.held_live hi
  unfold Core.lock
  split
  next => rfl
  next hinvalid =>
    have hlock := (h.lock hi).1
    unfold Core.lock at hlock
    rw [if_neg hinvalid] at hlock
    refine tab_congr h.vol.distinct hlock.vol.distinct (.setNode ..) ?_ ?_
    · intro j _ hl hvalid
      have hj : j ≠ ip := by
        intro he
        exact hinvalid (he ▸ hvalid)
      rw [c.setNode_of_ne _ hj]
      exact ⟨hl, .refl _⟩
    · intro j _ hl hvalid
      by_cases hj : j = ip
      · subst hj
        rw [c.setNode_self]
        refine Or.inr ⟨rfl, fun k hk hkl hkv hinum => ?_⟩
        have := h.vol.distinct k j hk (h.held j hi) hkl hlive hinum
        exact hinvalid (this ▸ hkv)
      · rw [c.setNode_of_ne _ hj] at hl ⊢
        exact Or.inl ⟨hl, .refl _⟩

-- ==== ialloc

/-- The inode that `ialloc` takes. -/
def freeInode (sb : Superblock) (disk : Disk) : Option Nat :=
  first (fun i => (dinode sb disk i).type == 0) 1 (sb.ninodes - 1)

theorem freeInode_some (h : freeInode s.sb s.disk = some i) :
    1 ≤ i ∧ i < s.sb.ninodes ∧ (dinode s.sb s.disk i).type = 0 := by
  obtain ⟨h1, h2, htest, -⟩ := first_some h
  exact ⟨h1, by omega, beq_iff_eq.mp htest⟩

/-- The core after `ialloc` has written the inode `i`. -/
def Core.claim (c : Core) (type i : Nat) : Core :=
  c.setDisk (putInode c.sb c.disk i (.fresh type))

theorem iallocLoop_spec (type n : Nat) (h : BufOk s H) (hlen : H.length < nbuf)
    (inum : Nat) :
    Ends (iallocLoop type n inum) s fun r t => BufOk t H
      ∧ match first (fun i => (dinode s.sb s.disk i).type == 0) inum n with
        | some i => r = ((s.core.claim type i).get i).1
            ∧ t.core = ((s.core.claim type i).get i).2
        | none => r = none ∧ t.core = s.core := by
  induction n generalizing inum s with
  | zero => exact ret ⟨h, rfl, rfl⟩
  | succ n ih =>
    unfold iallocLoop first
    apply get_bind
    refine (ubread_spec h hlen (iblock inum s.sb)).seq ?_
    rintro r t ⟨bp, rfl, hbuf, hcore⟩
    have hdisk : t.disk = s.disk := congrArg disk hcore
    have hsb : t.sb = s.sb := congrArg sb hcore
    have hdata : (t.bufs bp).data = s.disk (iblock inum s.sb) := by
      rw [← hdisk]
      exact hbuf.data List.mem_cons_self
    apply get_bind
    rw [hdata]
    split
    next hfree =>
      have hfree : (dinode s.sb s.disk inum).type = 0 := hfree
      rw [if_pos (beq_iff_eq.mpr hfree)]
      apply modify_bind
      refine (ubwrite_spec hbuf List.mem_cons_self fun b =>
        putDInode b (inum % ipb) (.fresh type)).seq fun _ u hu => ?_
      obtain ⟨hbuf2, hcore2⟩ := hu
      have hclaim : u.core = s.core.claim type inum := by
        rw [hcore2, hcore, hdisk]
        rfl
      refine (ubrelse_spec hbuf2).seq fun _ v hv => ?_
      obtain ⟨hbuf3, hcore3⟩ := hv
      refine (uiget_spec hbuf3 inum).mono fun r w hw => ?_
      rw [hcore3, hclaim] at hw
      exact hw
    next hused =>
      have hused : (dinode s.sb s.disk inum).type ≠ 0 := hused
      rw [if_neg (fun he => hused (beq_iff_eq.mp he))]
      refine (ubrelse_spec hbuf).seq fun _ u hu => ?_
      obtain ⟨hbuf2, hcore2⟩ := hu
      have hnext := ih hbuf2 (inum + 1)
      have hu : u.core = s.core := hcore2.trans hcore
      rw [show u.disk = s.disk from congrArg disk hu,
        show u.sb = s.sb from congrArg sb hu, hu] at hnext
      exact hnext

theorem ialloc_spec (type : Nat) (h : BufOk s H) (hlen : H.length < nbuf) :
    Ends (ialloc type) s fun r t => BufOk t H
      ∧ match freeInode s.sb s.disk with
        | some i => r = ((s.core.claim type i).get i).1
            ∧ t.core = ((s.core.claim type i).get i).2
        | none => r = none ∧ t.core = s.core := by
  unfold ialloc
  apply get_bind
  exact iallocLoop_spec type _ h hlen 1

/-- A free inode is not in the cache. -/
theorem CacheOk.claimed (h : CacheOk c R) (hfree : (dinode c.sb c.disk i).type = 0)
    (type : Nat) : Rewritten c (c.claim type i) i (.fresh type) where
  disk := rfl
  sb := rfl
  fdTable := rfl
  fdInodes := rfl
  node := fun j => ⟨(c.inodes j).d, rfl⟩
  other := fun _ _ => rfl
  self := by
    intro j hj hlive hinum
    have := h.alloc j hj hlive.1
    rw [hinum] at this
    exact absurd hfree this

-- ==== the links

theorem Core.setDisk_inodes (c : Core) (disk : Disk) :
    (c.setDisk disk).inodes = c.inodes := rfl

/-- `ip->nlink = n; uiupdate(ip);`. -/
theorem uiupdate_links (h : BufOk s H) (hlen : H.length < nbuf)
    (hdist : s.core.Distinct) (hip : Loaded s.core ip inum) (n : Nat) :
    Ends (uiupdate ip)
      (s.setInode ip fun u => { u with d := { u.d with nlink := n } })
      fun _ t => BufOk t H
        ∧ Rewritten s.core t.core inum { (s.inodes ip).d with nlink := n } := by
  have hself : (s.setInode ip fun u =>
      { u with d := { u.d with nlink := n } }).inodes ip
      = { s.inodes ip with d := { (s.inodes ip).d with nlink := n } } :=
    update_self ..
  have hdev : (s.inodes ip).dev = rootDev := hip.live.2
  have hinum : (s.inodes ip).inum = inum := hip.inum
  refine (uiupdate_spec (h.setInode ip _) hlen (by rw [hself]; exact hdev)).mono
    fun _ t ht => ⟨ht.1, ?_⟩
  rw [ht.2, hself, core_setNode]
  refine ⟨?_, rfl, rfl, rfl, fun j => ?_, fun j hj => ?_, fun j hj hlive he _ => ?_⟩
  · show putInode s.sb s.disk (s.inodes ip).inum _ = _
    rw [hinum]
    rfl
  · rw [setDisk_inodes]
    by_cases hj : j = ip
    · subst hj
      rw [s.core.setNode_self]
      exact ⟨_, rfl⟩
    · rw [s.core.setNode_of_ne _ hj]
      exact ⟨(s.core.inodes j).d, rfl⟩
  · rw [setDisk_inodes]
    refine s.core.setNode_of_ne _ ?_
    intro he
    subst he
    exact hj hip.inum
  · have hjip : j = ip :=
      hdist j ip hj hip.lt hlive hip.live (he.trans hip.inum.symm)
    subst hjip
    rw [setDisk_inodes, s.core.setNode_self]
    rfl

-- ==== dirlink

theorem dirlinkLoop_spec (hdir : IsDir s.core dp bytes) (h : BufOk s H)
    (hlen : H.length + 1 < nbuf) (n k : Nat) (hk : k ≤ bytes.length / 16)
    (hn : bytes.length / 16 ≤ k + n) :
    Ends (dirlinkLoop dp (n + 1) (16 * k)) s fun r t => BufOk t H
      ∧ t.core = s.core
      ∧ r = 16 * (first (fun k => entryInum bytes k == 0) k
        (bytes.length / 16 - k)).getD (bytes.length / 16) := by
  have hwhole := hdir.whole
  have hend : ∀ k, k ≤ bytes.length / 16 → ¬ 16 * k < bytes.length →
      16 * k = 16 * (first (fun k => entryInum bytes k == 0) k
        (bytes.length / 16 - k)).getD (bytes.length / 16) := by
    intro k _ hge
    rw [show bytes.length / 16 - k = 0 by omega]
    show 16 * k = 16 * (bytes.length / 16)
    omega
  induction n generalizing k s with
  | zero =>
    unfold dirlinkLoop
    apply get_bind
    rw [hdir.size, if_neg (by omega)]
    exact ret ⟨h, rfl, hend k hk (by omega)⟩
  | succ n ih =>
    unfold dirlinkLoop
    apply get_bind
    rw [hdir.size]
    split
    next hlt =>
      refine (hdir.ureadi h hlen hlt).seq ?_
      rintro r t ⟨hbuf, rfl, hcore⟩
      have hdir' : IsDir t.core dp bytes := hcore ▸ hdir
      dsimp only
      rw [if_neg (by rw [length_dirent (by omega)]; simp),
        show bytes.length / 16 - k = bytes.length / 16 - (k + 1) + 1 by omega, first]
      split
      next h0 =>
        have h0 : entryInum bytes k = 0 := h0
        rw [if_pos (beq_iff_eq.mpr h0)]
        exact ret ⟨hbuf, hcore, rfl⟩
      next h0 =>
        have h0 : entryInum bytes k ≠ 0 := h0
        rw [if_neg fun he => h0 (beq_iff_eq.mp he)]
        have hnext := ih hdir' hbuf (k + 1) (by omega) (by omega)
        rw [hcore] at hnext
        exact hnext
    next hge => exact ret ⟨h, rfl, hend k hk hge⟩

/-- The core after a write into the loaded inode `ip`. -/
def Core.wrote (c : Core) (ip : Nat) (src : List UInt8) (off : Nat) : Int × Core :=
  (((c.img ip).uwritei c.sb (c.inodes ip).inum src off).1,
    c.setImg ip ((c.img ip).uwritei c.sb (c.inodes ip).inum src off).2)

/-- The write of an entry into the directory `dp`. -/
def Core.link (c : Core) (dp : Nat) (bytes name : List UInt8) (inum : Nat) :
    Int × Core :=
  c.wrote dp (newEntry name inum) (16 * freeEntry bytes)

/-- The name is not in the directory, or its inode cannot be had. -/
def Core.Misses (c : Core) (bytes name : List UInt8) : Prop :=
  ∀ x, lookup bytes name = some x → (c.get x).1 = none

/-- How `dirlink` ends, if it does. -/
def Core.Linked (c : Core) (dp : Nat) (bytes name : List UInt8) (inum : Nat) (r : Int)
    (c' : Core) : Prop :=
  (r = -1 ∧ ∃ x ip, lookup bytes name = some x ∧ (c.get x).1 = some ip
      ∧ c' = (c.get x).2.put ip)
    ∨ (r = 0 ∧ c.Misses bytes name ∧ (c.link dp bytes name inum).1 = 16
      ∧ c' = (c.link dp bytes name inum).2)

/-- `dirlink` gives up if it finds the name and can have its inode; it does
not return if the entry cannot be written. -/
theorem dirlink_spec (hdir : IsDir s.core dp bytes) (h : BufOk s H)
    (hlen : H.length + 1 < nbuf) (hname : ∀ a ∈ name, a ≠ 0) (inum : Nat) :
    Leaves (fun _ => (s.core.link dp bytes name inum).1 ≠ 16 ∧ s.core.Misses bytes name)
      (dirlink dp name inum) s
      fun r t => BufOk t H ∧ s.core.Linked dp bytes name inum r t.core := by
  -- the name was not found
  have hwrite : ∀ {t : Srv}, BufOk t H → t.core = s.core → s.core.Misses bytes name →
      Leaves (fun _ => (s.core.link dp bytes name inum).1 ≠ 16
          ∧ s.core.Misses bytes name)
        (do
          let s ← get
          let off ← dirlinkLoop dp ((s.inodes dp).d.size / 16 + 1) 0
          let r ← uwritei dp (mkDirent inum (strncpy name dirsiz)) off
          if r ≠ 16 then throw Fault.exit else pure 0 : Op Int) t
        fun r t => BufOk t H ∧ s.core.Linked dp bytes name inum r t.core := by
    intro t hbuf hcore hnone
    have hdir' : IsDir t.core dp bytes := hcore ▸ hdir
    apply get_bind
    rw [hdir'.size]
    refine (dirlinkLoop_spec hdir' hbuf hlen _ 0 (Nat.zero_le _)
      (by omega)).lift.seq fun off u ⟨hbuf2, hcore2, hoff⟩ => ?_
    have hu : u.core = s.core := hcore2.trans hcore
    have hdev : (u.inodes dp).dev = rootDev := by
      have := hdir.dev
      rw [← hu] at this
      exact this
    refine ((uwritei_spec hbuf2 hlen hdev
      (mkDirent inum (strncpy name dirsiz)) off).lift).seq
      fun r v ⟨hbuf3, hr, hcore3⟩ => ?_
    have hlink : u.core.wrote dp (mkDirent inum (strncpy name dirsiz)) off
        = s.core.link dp bytes name inum := by
      rw [hoff, hu]
      rfl
    have hr : r = (s.core.link dp bytes name inum).1 := by
      rw [← hlink]
      exact hr
    have hcore3 : v.core = (s.core.link dp bytes name inum).2 := by
      rw [← hlink]
      exact hcore3
    split
    next hne => exact fault ⟨hr ▸ hne, hnone⟩
    next heq =>
      have heq : r = 16 := not_not.mp heq
      exact ret ⟨hbuf3, Or.inr ⟨rfl, hnone, hr ▸ heq, hcore3⟩⟩
  unfold dirlink
  refine (dirlookup_spec hdir h hlen hname).lift.seq fun r t ⟨hbuf, ht⟩ => ?_
  cases hl : lookup bytes name with
  | none =>
    rw [hl] at ht
    obtain ⟨rfl, hcore⟩ := ht
    exact hwrite hbuf hcore fun x hx => by cases hl.symm.trans hx
  | some x =>
    rw [hl] at ht
    obtain ⟨hr, hcore⟩ := ht
    cases hget : (s.core.get x).1 with
    | none =>
      rw [hget] at hr
      subst hr
      rw [s.core.get_none hget] at hcore
      exact hwrite hbuf hcore fun y hy => by
        cases hl.symm.trans hy
        exact hget
    | some ip =>
      rw [hget] at hr
      subst hr
      refine (uiput_spec hbuf ip).lift.seq fun _ u ⟨hbuf2, hcore2⟩ => ?_
      rw [hcore] at hcore2
      exact ret ⟨hbuf2, Or.inl ⟨rfl, x, ip, hl, hget, hcore2⟩⟩

end Xv6FsServer.Server
