/-
The kernel's inode cache over a disk with exact accounts.

`Sound base held s` is what holds between any two statements of a call: the
references are those others have and those the code holds (`Refs`), the
accounts on the disk are exact, no inode is in the cache twice, and what is
loaded is what is on the disk. `Stays base held s t` is what the holders of
these references can rely on: their slot has the file it had, loaded if it
was, of the type it had.

Each function that takes or gives back an inode, or writes one, has its
specification here, with what it does to the files on the disk
(`KFs.files`).
-/
import Xv6FsServer.Lib.Tally
import Xv6FsServer.Kfs.Proofs.References
import Xv6FsServer.Kfs.Proofs.Freeing

namespace Xv6FsServer.Kfs

open Lib Fs Function Meets

variable {s t u : KFs} {base : Nat → Nat} {held held' : List Nat} {ip i : Nat}
variable {a b inum type : Nat} {disk' : Disk} {z : Img}

/-- The files on the disk. -/
def KFs.files (s : KFs) : Nat → Option Node := nodes s.sb s.disk

/-- The entries of a directory name inode numbers below `n`. -/
def EntriesBelow (n : Nat) (bytes : List UInt8) : Prop :=
  ∀ k, 16 * k + 16 ≤ bytes.length → entryInum bytes k < n

/-- An entry is written. -/
theorem EntriesBelow.overlay {n k : Nat} {bytes de : List UInt8}
    (h : EntriesBelow n bytes) (hde : de.length = 16) (hk : 16 * k ≤ bytes.length)
    (hinum : direntInum de < n) : EntriesBelow n (Lib.overlay bytes (16 * k) de) := by
  intro l hl
  unfold entryInum
  rw [dirent_overlay hde hk hl]
  split
  next => exact hinum
  next hne =>
    refine h l ?_
    rw [length_overlay hk, hde] at hl
    omega

/-- Directories name inode numbers that exist. -/
def InRange (n : Nat) (files : Nat → Option Node) : Prop :=
  ∀ j node, files j = some node → node.type = tDir → EntriesBelow n node.bytes

theorem InRange.none {n : Nat} {files : Nat → Option Node} (h : InRange n files)
    (i : Nat) : InRange n (update files i none) := by
  intro j node hj
  rcases update_some hj with ⟨-, hj⟩ | ⟨-, hj⟩
  · cases hj
  · exact h j node hj

theorem InRange.some {n : Nat} {files : Nat → Option Node} (h : InRange n files)
    {node : Node} (hnode : node.type = tDir → EntriesBelow n node.bytes) :
    InRange n (update files i (some node)) := by
  intro j m hj
  rcases update_some hj with ⟨-, hj⟩ | ⟨-, hj⟩
  · cases hj
    exact hnode
  · exact h j m hj

structure Sound (base : Nat → Nat) (held : List Nat) (s : KFs) : Prop where
  refs : Refs base held s
  account : Exact s.sb s.disk
  super : getSuperblock (s.disk 1) = s.sb
  slot : ∀ ip, 0 < (s.inodes ip).ref →
    ip < ninode ∧ (s.inodes ip).dev = rootDev ∧ (s.inodes ip).inum < s.sb.ninodes
  once : ∀ ip jp, 0 < (s.inodes ip).ref → 0 < (s.inodes jp).ref →
    (s.inodes ip).inum = (s.inodes jp).inum → ip = jp
  loaded : ∀ ip, 0 < (s.inodes ip).ref → (s.inodes ip).valid = true →
    (s.inodes ip).d = dinode s.sb s.disk (s.inodes ip).inum
      ∧ (s.inodes ip).d.type ≠ 0
  named : InRange s.sb.ninodes s.files

structure Stays (base : Nat → Nat) (held : List Nat) (s t : KFs) : Prop where
  sb : t.sb = s.sb
  inum : ∀ ip, 0 < base ip + held.count ip → (t.inodes ip).inum = (s.inodes ip).inum
  valid : ∀ ip, 0 < base ip + held.count ip → (s.inodes ip).valid = true →
    (t.inodes ip).valid = true ∧ (t.inodes ip).d.type = (s.inodes ip).d.type

theorem Stays.refl (s : KFs) : Stays base held s s :=
  ⟨rfl, fun _ _ => rfl, fun _ _ h => ⟨h, rfl⟩⟩

theorem Stays.trans (h : Stays base held s t) (h' : Stays base held t u) :
    Stays base held s u := by
  refine ⟨h'.sb.trans h.sb, fun ip hp => (h'.inum ip hp).trans (h.inum ip hp),
    fun ip hp hv => ?_⟩
  obtain ⟨h1, h2⟩ := h.valid ip hp hv
  obtain ⟨h3, h4⟩ := h'.valid ip hp h1
  exact ⟨h3, h4.trans h2⟩

/-- Fewer references, fewer promises. -/
theorem Stays.mono (h : Stays base held s t)
    (hsub : ∀ ip, held'.count ip ≤ held.count ip) : Stays base held' s t := by
  have hle : ∀ ip, 0 < base ip + held'.count ip → 0 < base ip + held.count ip := by
    intro ip hp
    have := hsub ip
    omega
  exact ⟨h.sb, fun ip hp => h.inum ip (hle ip hp), fun ip hp => h.valid ip (hle ip hp)⟩

theorem Stays.tail (h : Stays base (ip :: held) s t) : Stays base held s t :=
  h.mono fun _ => List.count_le_count_cons ..

-- ==== changes of one slot

/-- A reference that is held is a reference. -/
theorem Sound.ref_pos (h : Sound base held s) (hp : 0 < base ip + held.count ip) :
    0 < (s.inodes ip).ref := by
  rw [h.refs ip]
  exact hp

theorem Sound.ref_head (h : Sound base (ip :: held) s) : 0 < (s.inodes ip).ref := by
  refine h.ref_pos ?_
  rw [List.count_cons_self]
  omega

/-- One slot of the cache changes. -/
theorem Sound.setInode (h : Sound base held s) {n : Inode}
    (hrefs : Refs base held' { s with inodes := update s.inodes ip n })
    (hslot : 0 < n.ref → ip < ninode ∧ n.dev = rootDev ∧ n.inum < s.sb.ninodes)
    (honce : 0 < n.ref → ∀ jp, jp ≠ ip → 0 < (s.inodes jp).ref →
      (s.inodes jp).inum ≠ n.inum)
    (hloaded : 0 < n.ref → n.valid = true →
      n.d = dinode s.sb s.disk n.inum ∧ n.d.type ≠ 0) :
    Sound base held' { s with inodes := update s.inodes ip n } where
  refs := hrefs
  account := h.account
  super := h.super
  slot := by
    intro jp
    dsimp only
    by_cases hj : jp = ip
    · subst hj
      rw [update_self]
      exact hslot
    · rw [update_of_ne hj]
      exact h.slot jp
  once := by
    intro jp kp
    dsimp only
    by_cases hj : jp = ip
    · by_cases hk : kp = ip
      · exact fun _ _ _ => hj.trans hk.symm
      · subst hj
        rw [update_self, update_of_ne hk]
        exact fun h1 h2 h3 => absurd h3.symm (honce h1 kp hk h2)
    · by_cases hk : kp = ip
      · subst hk
        rw [update_self, update_of_ne hj]
        exact fun h1 h2 h3 => absurd h3 (honce h2 jp hj h1)
      · rw [update_of_ne hj, update_of_ne hk]
        exact h.once jp kp
  loaded := by
    intro jp
    dsimp only
    by_cases hj : jp = ip
    · subst hj
      rw [update_self]
      exact hloaded
    · rw [update_of_ne hj]
      exact h.loaded jp
  named := h.named

/-- The slot keeps its file and its references. -/
theorem Sound.retouch (h : Sound base held s) (ip : Nat) {n : Inode}
    (href : n.ref = (s.inodes ip).ref) (hdev : n.dev = (s.inodes ip).dev)
    (hinum : n.inum = (s.inodes ip).inum) (hloaded : 0 < n.ref → n.valid = true →
      n.d = dinode s.sb s.disk n.inum ∧ n.d.type ≠ 0) :
    Sound base held { s with inodes := update s.inodes ip n } := by
  refine h.setInode (h.refs.same (update_proj Inode.ref href)) (fun hp => ?_)
    (fun hp jp hj hjp he => ?_) hloaded
  · rw [hdev, hinum]
    exact h.slot ip (href ▸ hp)
  · exact hj (h.once jp ip hjp (href ▸ hp) (he.trans hinum))

/-- The disk changes, at an inode that is not loaded. -/
theorem Sound.redisk (h : Sound base held s)
    (haccount : Exact s.sb disk') (hsuper : disk' 1 = s.disk 1)
    (hothers : ∀ j, j < s.sb.ninodes → j ≠ i →
      dinode s.sb disk' j = dinode s.sb s.disk j)
    (hnamed : InRange s.sb.ninodes (nodes s.sb disk'))
    (hnone : ∀ jp, 0 < (s.inodes jp).ref → (s.inodes jp).valid = true →
      (s.inodes jp).inum ≠ i) :
    Sound base held { s with disk := disk' } where
  refs := h.refs
  account := haccount
  super := (congrArg _ hsuper).trans h.super
  slot := h.slot
  once := h.once
  loaded := by
    intro jp hp hv
    obtain ⟨h1, h2⟩ := h.loaded jp hp hv
    refine ⟨?_, h2⟩
    show (s.inodes jp).d = dinode s.sb disk' (s.inodes jp).inum
    rw [hothers _ (h.slot jp hp).2.2 (hnone jp hp hv)]
    exact h1
  named := hnamed

-- ==== a loaded inode

/-- A slot with references whose inode is loaded. -/
structure Locked (s : KFs) (ip : Nat) : Prop where
  ref_pos : 0 < (s.inodes ip).ref
  valid : (s.inodes ip).valid = true

/-- The file in a slot. -/
def KFs.node (s : KFs) (ip : Nat) : Node :=
  ⟨(s.inodes ip).d.type, (s.inodes ip).d.nlink, (s.img ip).content⟩

section

variable (hl : Locked s ip)
include hl

section

variable (h : Sound base held s)
include h

theorem Locked.alloc : Allocated s.sb (dinode s.sb s.disk) (s.inodes ip).inum := by
  obtain ⟨hd, htype⟩ := h.loaded ip hl.ref_pos hl.valid
  exact ⟨(h.slot ip hl.ref_pos).2.2, hd ▸ htype⟩

theorem Locked.d : (s.inodes ip).d = dinode s.sb s.disk (s.inodes ip).inum :=
  (h.loaded ip hl.ref_pos hl.valid).1

theorem Locked.ok : (s.inodes ip).d.Ok := by
  rw [hl.d h]
  exact getDInode_ok ..

theorem Locked.img : s.img ip = onDisk s.sb s.disk (s.inodes ip).inum := by
  unfold KFs.img onDisk
  rw [← hl.d h]

theorem Locked.mapped : (s.img ip).Mapped := by
  rw [hl.img h]
  exact h.account.mapped _ (hl.alloc h)

theorem Locked.files : s.files (s.inodes ip).inum = some (s.node ip) := by
  unfold KFs.files KFs.node
  rw [nodes_of_allocated (hl.alloc h), hl.img h, hl.d h]
  rfl

theorem Locked.entries (htype : (s.inodes ip).d.type = tDir) :
    EntriesBelow s.sb.ninodes (s.img ip).content :=
  h.named _ _ (hl.files h) htype

end

end

/-- The file in a slot is another one now, on the disk too. -/
theorem Sound.rewrite (h : Sound base held s) (hl : Locked s ip) {node : Node}
    (hz : Rewrites s.sb s.disk (s.inodes ip).inum z node)
    (hnode : node.type = tDir → EntriesBelow s.sb.ninodes node.bytes) :
    Sound base held (s.setImg ip z) := by
  -- with the slot's inode unloaded nothing else speaks of the file
  have h1 := h.retouch ip (n := { s.inodes ip with valid := false }) rfl rfl rfl
    (fun _ hv => nomatch hv)
  have h2 := h1.redisk (i := (s.inodes ip).inum) hz.account hz.super hz.others (by
      rw [hz.nodes]
      exact h.named.some hnode)
    (by
      intro jp hp hv heq
      dsimp only at hp hv heq
      by_cases hj : jp = ip
      · rw [hj, update_self] at hv
        cases hv
      · rw [update_of_ne hj] at hp heq
        exact hj (h.once jp ip hp hl.ref_pos heq))
  have h3 := h2.retouch ip (n := { s.inodes ip with d := z.d })
    (by dsimp only; rw [update_self]) (by dsimp only; rw [update_self])
    (by dsimp only; rw [update_self])
    (fun _ _ => ⟨hz.flushed.symm, by
      show z.d.type ≠ 0
      rw [hz.type]
      exact (hl.alloc h).2⟩)
  rw [update_idem] at h3
  exact h3

/-- One slot changes and keeps its file, if anybody relies on it. -/
theorem Stays.setInode {n : Inode}
    (hinum : 0 < base ip + held.count ip → n.inum = (s.inodes ip).inum)
    (hvalid : 0 < base ip + held.count ip → (s.inodes ip).valid = true →
      n.valid = true ∧ n.d.type = (s.inodes ip).d.type) :
    Stays base held s { s with inodes := update s.inodes ip n } := by
  refine ⟨rfl, fun jp hp => ?_, fun jp hp hv => ?_⟩
  · dsimp only
    by_cases hj : jp = ip
    · subst hj
      rw [update_self]
      exact hinum hp
    · rw [update_of_ne hj]
  · dsimp only
    by_cases hj : jp = ip
    · subst hj
      rw [update_self]
      exact hvalid hp hv
    · rw [update_of_ne hj]
      exact ⟨hv, rfl⟩

theorem Rewrites.stays {node : Node} (h : Sound base held s)
    (hl : Locked s ip) (hz : Rewrites s.sb s.disk (s.inodes ip).inum z node) :
    Stays base held s (s.setImg ip z) := by
  have hst : Stays base held s { s with
      inodes := update s.inodes ip { s.inodes ip with d := z.d } } :=
    .setInode (fun _ => rfl) fun _ hv => ⟨hv, hz.type.trans (by rw [hl.d h])⟩
  exact ⟨rfl, hst.inum, hst.valid⟩

/-- `readi` of a file without holes changes nothing. -/
theorem readi_unchanged (h : (s.img ip).Mapped) (off n : Nat) :
    Ends (readi ip off n) s fun r t => t = s
      ∧ ∀ bytes, r = some bytes → bytes = ((s.img ip).content.drop off).take n := by
  have hsz : (s.inodes ip).d.size = (s.img ip).d.size := rfl
  apply get_bind
  dsimp only
  rw [hsz]
  split
  next => exact ret ⟨rfl, fun _ hr => nomatch hr⟩
  next =>
    apply map
    generalize hm : (if (s.img ip).d.size < off + n then (s.img ip).d.size - off else n) = m
    have hend : off + m ≤ (s.img ip).d.size := by
      split at hm <;> omega
    refine (readiLoop_mapped m (Nat.le_refl _) fun o _ h2 => h o (by omega)).mono
      fun r t ht => ⟨ht.2, fun _ hr => ?_⟩
    cases hr
    have hcut : ((s.img ip).content.drop off).take m
        = ((s.img ip).content.drop off).take n := by
      split at hm
      next hlt =>
        rw [List.take_of_length_le, List.take_of_length_le]
        · rw [List.length_drop, Img.length_content]
          omega
        · rw [List.length_drop, Img.length_content]
          omega
      next => rw [hm]
    rw [ht.1, ← Img.content_slice hend, hcut]

/-- What is read of a directory, entry by entry, are numbers that exist. -/
theorem readi_sound (h : Sound base held s) (hl : Locked s ip) (off n : Nat) :
    Careful (readi ip off n) s fun r t => t = s
      ∧ ((s.inodes ip).d.type = tDir → 16 ∣ off → n = 16 → ∀ de, r = some de →
        de.length = 16 → direntInum de < s.sb.ninodes) := by
  refine (readi_unchanged (hl.mapped h) off n).lift.mono fun r t ht => ⟨ht.1, ?_⟩
  rintro htype ⟨k, rfl⟩ rfl de hr hlen
  have hde : de = dirent (s.img ip).content k := ht.2 de hr
  rw [hde, length_dirent_min] at hlen
  rw [hde]
  exact hl.entries h htype k (by omega)

theorem writei_sound (h : Sound base held s) (hl : Locked s ip) (src : List UInt8)
    (off : Nat)
    (hnode : (s.inodes ip).d.type = tDir → off ≤ (s.img ip).content.length →
      EntriesBelow s.sb.ninodes (overlay (s.img ip).content off src)) :
    Careful (writei ip src off) s fun _ t =>
      Sound base held t ∧ Stays base held s t := by
  have himg := hl.img h
  refine (writei_careful h.account (hl.alloc h) rfl (hl.d h) src off).mono
    fun r t ht => ?_
  rcases ht with ⟨-, rfl⟩ | ⟨-, hoff, z, rfl, hz⟩
  · exact ⟨h, .refl t⟩
  · have hlen : off ≤ (s.img ip).content.length := by
      rw [himg, Img.length_content]
      exact hoff
    rw [← hl.d h, ← himg] at hz
    exact ⟨h.rewrite hl hz fun htype => hnode htype hlen, hz.stays h hl⟩

/-- The inode is written back with other fields. -/
theorem updateFields_sound {f : DInode → DInode} (h : Sound base held s)
    (hl : Locked s ip) (hf : ∀ d : DInode, d.Ok → OtherFields d (f d)) :
    Careful (do setD ip f; iupdate ip) s fun _ t =>
      Sound base held t ∧ Stays base held s t := by
  have hd := hl.d h
  have halloc := hl.alloc h
  have he := hf (s.inodes ip).d (hl.ok h)
  have htype := he.type
  obtain ⟨haccount, hnodes⟩ := h.account.putFields halloc he.ok
    (by rw [htype, hd]; exact halloc.2) (by rw [he.addrs, hd]) (by rw [he.size, hd])
  have hz : Rewrites s.sb s.disk (s.inodes ip).inum
      ⟨putInode s.sb s.disk (s.inodes ip).inum (f (s.inodes ip).d), f (s.inodes ip).d⟩
      ⟨(f (s.inodes ip).d).type, (f (s.inodes ip).d).nlink, (s.img ip).content⟩ := by
    refine ⟨haccount, ?_, dinode_putInode he.ok, fun j _ hj => dinode_putInode_of_ne hj,
      putInode_of_ne (h.account.layout.super.2 _), by rw [htype, hd]⟩
    rw [hnodes, ← hl.img h]
  rw [← setImg_img s ip]
  apply Meets.bind
  apply setD_careful
  apply iupdate_careful rfl
  refine ⟨h.rewrite hl hz fun hdir => hl.entries h ?_, ?_⟩
  · rw [← htype]
    exact hdir
  · rw [setImg_img]
    exact hz.stays h hl

-- ==== taking and giving back

/-- A reference more, to a slot that has some. -/
theorem Sound.share (h : Sound base held s) (hp : 0 < (s.inodes ip).ref) :
    Sound base (ip :: held) { s with
      inodes := update s.inodes ip
        { s.inodes ip with ref := (s.inodes ip).ref + 1 } } :=
  h.setInode (h.refs.take rfl) (fun _ => h.slot ip hp)
    (fun _ jp hj hjp he => hj (h.once jp ip hjp hp he)) (fun _ => h.loaded ip hp)

theorem iget_sound (h : Sound base held s) (hi : inum < s.sb.ninodes) :
    Careful (iget rootDev inum) s fun ip t => Sound base (ip :: held) t
      ∧ Stays base held s t ∧ t.disk = s.disk ∧ (t.inodes ip).inum = inum := by
  apply get_bind
  split
  next ip hfind =>
    obtain ⟨-, -, htest, -⟩ := first_some hfind
    simp only [Bool.and_eq_true, decide_eq_true_eq, beq_iff_eq] at htest
    obtain ⟨⟨hp, -⟩, hinum⟩ := htest
    apply modify_bind
    apply ret
    refine ⟨h.share hp, Stays.setInode (fun _ => rfl) fun _ hv => ⟨hv, rfl⟩, rfl, ?_⟩
    dsimp only
    rw [update_self]
    exact hinum
  next hfind =>
    split
    next ip hfree =>
      obtain ⟨-, hlt, h0, -⟩ := first_some hfree
      rw [beq_iff_eq] at h0
      have hnobody : ¬ 0 < base ip + held.count ip := by
        rw [← h.refs ip, h0]
        exact Nat.lt_irrefl 0
      apply modify_bind
      apply ret
      refine ⟨h.setInode (h.refs.take ?_) (fun _ => ⟨by omega, rfl, hi⟩)
        (fun _ jp _ hjp he => ?_) (fun _ hv => nomatch hv),
        Stays.setInode (fun hp => absurd hp hnobody) (fun hp => absurd hp hnobody),
        rfl, ?_⟩
      · show 1 = _
        rw [h0]
      · -- the first search would have found it
        obtain ⟨h1, h2, -⟩ := h.slot jp hjp
        have hmiss := first_none hfind jp (Nat.zero_le _) (by omega)
        simp [hjp, h2, he] at hmiss
      · dsimp only
        rw [update_self]
    next => exact fault (by nofun)

theorem idup_sound (h : Sound base held s) (hp : 0 < (s.inodes ip).ref) :
    Careful (idup ip) s fun r t => r = ip ∧ Sound base (ip :: held) t
      ∧ Stays base held s t ∧ t.disk = s.disk
      ∧ (t.inodes ip).inum = (s.inodes ip).inum := by
  apply modify_bind
  apply ret
  refine ⟨rfl, h.share hp, Stays.setInode (fun _ => rfl) fun _ hv => ⟨hv, rfl⟩, rfl, ?_⟩
  dsimp only
  rw [update_self]

theorem ilock_sound (h : Sound base held s) (hp : 0 < (s.inodes ip).ref) :
    Careful (ilock ip) s fun _ t => Sound base held t ∧ Stays base held s t
      ∧ t.disk = s.disk ∧ Locked t ip
      ∧ ∀ jp, (t.inodes jp).inum = (s.inodes jp).inum := by
  apply get_bind
  split
  next => exact fault (by nofun)
  next =>
    split
    next hv => exact ret ⟨h, .refl s, rfl, ⟨hp, hv⟩, fun _ => rfl⟩
    next hv =>
      apply modify_bind
      split
      next => exact fault (by nofun)
      next htype =>
        apply ret
        refine ⟨h.retouch ip rfl rfl rfl fun _ _ => ⟨rfl, htype⟩,
          Stays.setInode (fun _ => rfl) (fun _ hv' => absurd hv' hv), rfl, ⟨?_, ?_⟩,
          fun jp => ?_⟩
        · dsimp only
          rw [update_self]
          exact hp
        · dsimp only
          rw [update_self]
        · exact update_proj Inode.inum (by rfl) jp

/-- The last reference to the file is gone, and so is the file. -/
theorem Sound.drop (h : Sound base (ip :: held) s) (hl : Locked s ip)
    (hlast : base ip + held.count ip = 0) {n : Inode} (hn : n.ref = 0)
    (hexact : Exact s.sb disk')
    (hfiles : nodes s.sb disk' = update s.files (s.inodes ip).inum none)
    (hothers : ∀ j, j < s.sb.ninodes → j ≠ (s.inodes ip).inum →
      dinode s.sb disk' j = dinode s.sb s.disk j) (hsuper : disk' 1 = s.disk 1) :
    Sound base held { s with disk := disk', inodes := update s.inodes ip n }
      ∧ Stays base held s { s with disk := disk', inodes := update s.inodes ip n } := by
  have href := h.refs ip
  rw [List.count_cons_self] at href
  have hno : ¬ 0 < n.ref := by omega
  have h1 : Sound base held { s with inodes := update s.inodes ip n } :=
    h.setInode (h.refs.put (by omega)) (fun hp => absurd hp hno)
      (fun hp => absurd hp hno) (fun hp => absurd hp hno)
  have hst : Stays base held s { s with inodes := update s.inodes ip n } :=
    Stays.setInode (fun hp => by omega) (fun hp => by omega)
  refine ⟨h1.redisk (i := (s.inodes ip).inum) hexact hsuper hothers ?_ ?_,
    hst.sb, hst.inum, hst.valid⟩
  · rw [hfiles]
    exact h.named.none _
  · intro jp hp _ heq
    dsimp only at hp heq
    by_cases hj : jp = ip
    · rw [hj, update_self] at hp
      exact hno hp
    · rw [update_of_ne hj] at hp heq
      exact hj (h.once jp ip hp hl.ref_pos heq)

theorem iput_sound (h : Sound base (ip :: held) s) :
    Careful (iput ip) s fun _ t => Sound base held t ∧ Stays base held s t := by
  have hp := h.ref_head
  have href := h.refs ip
  rw [List.count_cons_self] at href
  apply get_bind
  split
  next hfree =>
    obtain ⟨h1, hv, -⟩ := hfree
    have hl : Locked s ip := ⟨hp, hv⟩
    have hlast : base ip + held.count ip = 0 := by omega
    refine (itrunc_careful h.account h.super (hl.alloc h) rfl (hl.d h)).seq ?_
    rintro _ t ⟨disk', rfl, hrel⟩
    obtain ⟨hexact, hfiles, hothers, hsuper⟩ :=
      hrel.freed h.account (hl.alloc h) (hl.d h) rfl
    apply Meets.bind
    apply setD_careful
    apply Meets.bind
    apply iupdate_careful rfl
    apply modify_bind
    apply change
    unfold KFs.setImg
    dsimp only
    rw [update_self, update_idem, update_self, update_idem]
    exact h.drop hl hlast (by dsimp only; omega) hexact hfiles hothers hsuper
  next hkeep =>
    apply change
    exact ⟨h.setInode (h.refs.put rfl) (fun _ => h.slot ip hp)
      (fun _ jp hj hjp he => hj (h.once jp ip hjp hp he)) (fun _ => h.loaded ip hp),
      Stays.setInode (fun _ => rfl) fun _ hv => ⟨hv, rfl⟩⟩

/-- A free inode has been taken. -/
structure Born (base : Nat → Nat) (held : List Nat) (s : KFs) (type ip : Nat) (t : KFs) :
    Prop where
  sound : Sound base (ip :: held) t
  stays : Stays base held s t
  type : (dinode t.sb t.disk (t.inodes ip).inum).type = type

theorem iallocLoop_sound (h : Sound base held s) (htype : type ≠ 0)
    (hlt : type < 65536) (n : Nat) (hn : inum + n ≤ s.sb.ninodes) :
    Careful (iallocLoop type n inum) s fun ip t => Born base held s type ip t := by
  induction n generalizing inum with
  | zero => exact fault (by nofun)
  | succ n ih =>
    apply get_bind
    split
    next hfree =>
      have hi : inum < s.sb.ninodes := by omega
      obtain ⟨hexact, hnodes⟩ := h.account.putNew (d := .fresh type) hi hfree
        (DInode.fresh_ok hlt) htype (fun _ => rfl) rfl
      have h1 : Sound base held
          { s with disk := putInode s.sb s.disk inum (.fresh type) } := by
        refine h.redisk (i := inum) hexact (putInode_of_ne (h.account.layout.super.2 _))
          (fun j _ hj => dinode_putInode_of_ne hj) ?_ fun jp hp hv he => ?_
        · rw [hnodes]
          refine h.named.some fun _ k hk => ?_
          rw [List.length_nil] at hk
          omega
        · obtain ⟨hd, ht⟩ := h.loaded jp hp hv
          rw [hd, he] at ht
          exact ht hfree
      apply modify_bind
      refine (iget_sound h1 hi).mono fun ip t ht => ?_
      obtain ⟨hsound, hstays, hdisk, hinum⟩ := ht
      refine ⟨hsound, ⟨hstays.sb, hstays.inum, hstays.valid⟩, ?_⟩
      rw [hdisk, hstays.sb, hinum]
      exact congrArg DInode.type (dinode_putInode (DInode.fresh_ok hlt))
    next => exact ih (by omega)

/-- `ialloc` and `ilock`. -/
theorem new_sound (h : Sound base held s) (htype : type ≠ 0) (hlt : type < 65536) :
    Careful (do let ip ← ialloc type; ilock ip; pure ip) s fun ip t =>
      Sound base (ip :: held) t ∧ Stays base held s t ∧ Locked t ip
        ∧ (t.inodes ip).d.type = type := by
  have := h.account.layout.ninodes
  apply Meets.bind
  apply get_bind
  refine (iallocLoop_sound h htype hlt _ (by omega)).mono fun ip t ht => ?_
  refine (ilock_sound ht.sound ht.sound.ref_head).seq ?_
  rintro _ u ⟨h2, hst2, hdisk, hl, hinum⟩
  refine ret ⟨h2, ht.stays.trans hst2.tail, hl, ?_⟩
  rw [hl.d h2, hst2.sb, hdisk, hinum]
  exact ht.type

end Xv6FsServer.Kfs
