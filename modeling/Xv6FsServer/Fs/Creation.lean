/-
What the creation of a file does to the disk.

An inode is written back with other fields than its blocks
(`Consistent.putInode`): a free one becomes an empty file, a new one gets
its link. Then the root directory gets an entry (`addEntry`), in the first
unused place or at its end, and every other entry stays (`dirent_addEntry`).
Seen as files (`view`), the first step adds an empty file, the second writes
16 bytes into the root; a sound set of files stays sound (`FilesOk.newFile`,
`FilesOk.addEntry`) and the names in a directory stay apart
(`DistinctNames.addEntry`).
-/
import Xv6FsServer.Fs.Directory

namespace Xv6FsServer.Fs

open Lib Function

variable {sb : Superblock} {tab : Nat → DInode} {disk : Disk} {d : DInode}
variable {i j k b : Nat}

-- ==== writing an inode back

theorem putInode_of_ne (h : b ≠ iblock i sb) : putInode sb disk i d b = disk b :=
  update_of_ne h ..

/-- The blocks behind the inodes are not touched. -/
theorem Layout.putInode_behind (hl : Layout sb) (hi : i < sb.ninodes)
    (hb : sb.bmapstart ≤ b) : putInode sb disk i d b = disk b := by
  have := hl.inodeArea i hi
  exact putInode_of_ne (by omega)

theorem Layout.used_putInode (hl : Layout sb) (hi : i < sb.ninodes) (b : Nat) :
    used sb (putInode sb disk i d) b = used sb disk b :=
  used_congr (hl.putInode_behind hi (Nat.le_add_left ..))

/-- An inode whose blocks are in the data area keeps them. -/
theorem Layout.slot_putInode (hl : Layout sb) (hi : i < sb.ninodes) {d' : DInode}
    (h : d'.addrs ndirect ≠ 0 → dataStart sb ≤ d'.addrs ndirect) (k : Nat) :
    (Img.mk (putInode sb disk i d) d').slot k = (Img.mk disk d').slot k := by
  refine slot_congr (fun h0 => ?_) k
  have := hl.bmapstart_lt
  have := h h0
  exact hl.putInode_behind hi (by omega)

/-- The indirect block of a file is in the data area. -/
theorem Consistent.indirect (h : Consistent sb disk tab) (hj : Allocated sb tab j)
    (h0 : (tab j).addrs ndirect ≠ 0) : dataStart sb ≤ (tab j).addrs ndirect := by
  have hlt := lt_nslots_of_le (Nat.le_refl ndirect)
  have hslot := Img.slot_direct (Img.mk disk (tab j)) (Nat.le_refl ndirect)
  exact (h.area ⟨hj, hlt, hslot, h0⟩).1

theorem slot_addrs {d' : DInode} (h : d'.addrs = d.addrs) (k : Nat) :
    (Img.mk disk d').slot k = (Img.mk disk d).slot k := by
  unfold Img.slot
  rw [h]

/-- The inode `i` is written back with the blocks it had, or without any:
no file comes to hold a block. -/
theorem Consistent.holds_putInode (h : Consistent sb disk tab) (hl : Layout sb)
    (hi : i < sb.ninodes)
    (hd : (∀ k, d.addrs k = 0) ∨ (Allocated sb tab i ∧ d.addrs = (tab i).addrs))
    (hh : Holds sb (putInode sb disk i d) (update tab i d) j k b) :
    Holds sb disk tab j k b := by
  obtain ⟨halloc, hk, hslot, h0⟩ := hh
  by_cases hj : j = i
  · subst hj
    rw [update_self] at hslot
    rcases hd with hd | ⟨halloc', hd⟩
    · have hz : (Img.mk (putInode sb disk j d) d).slot k = 0 := by
        unfold Img.slot
        rw [hd ndirect, hd k]
        simp
      exact absurd (hslot.symm.trans hz) h0
    · have hind : d.addrs ndirect ≠ 0 → dataStart sb ≤ d.addrs ndirect := by
        rw [hd]
        exact h.indirect halloc'
      rw [hl.slot_putInode hi hind, slot_addrs hd] at hslot
      exact ⟨halloc', hk, hslot, h0⟩
  · rw [update_of_ne hj] at hslot
    have halloc' : Allocated sb tab j := by
      unfold Allocated at halloc ⊢
      rw [update_of_ne hj] at halloc
      exact halloc
    rw [hl.slot_putInode hi (h.indirect halloc')] at hslot
    exact ⟨halloc', hk, hslot, h0⟩

theorem Consistent.putInode (h : Consistent sb disk tab) (hl : Layout sb)
    (hi : i < sb.ninodes)
    (hd : (∀ k, d.addrs k = 0) ∨ (Allocated sb tab i ∧ d.addrs = (tab i).addrs)) :
    Consistent sb (putInode sb disk i d) (update tab i d) := by
  refine ⟨fun hh => h.area (h.holds_putInode hl hi hd hh), fun hh => ?_,
    fun hh hh' => h.once (h.holds_putInode hl hi hd hh)
      (h.holds_putInode hl hi hd hh'), fun b hb => ?_⟩
  · rw [hl.used_putInode hi]
    exact h.marked (h.holds_putInode hl hi hd hh)
  · rw [hl.used_putInode hi]
    exact h.metadata b hb

theorem Consistent.content_putInode (h : Consistent sb disk tab) (hl : Layout sb)
    (hi : i < sb.ninodes) (hj : Allocated sb tab j) :
    (Img.mk (Fs.putInode sb disk i d) (tab j)).content
      = (Img.mk disk (tab j)).content := by
  have hslot : ∀ k, (Img.mk (Fs.putInode sb disk i d) (tab j)).slot k
      = (Img.mk disk (tab j)).slot k := hl.slot_putInode hi (h.indirect hj)
  refine Img.content_congr rfl (fun k _ => hslot k) fun k hk h0 => ?_
  have hdata := (h.area ⟨hj, hk, rfl, h0⟩).1
  have := hl.bmapstart_lt
  exact hl.putInode_behind hi (by omega)

-- ==== a new file

theorem view_putInode_of_ne (h : Consistent sb disk (dinode sb disk)) (hl : Layout sb)
    (hi : i < sb.ninodes) (hne : j ≠ i) :
    view sb (putInode sb disk i d) j = view sb disk j := by
  refine view_congr (dinode_putInode_of_ne hne) fun hj => ?_
  unfold onDisk
  rw [dinode_putInode_of_ne hne]
  exact h.content_putInode hl hi hj

/-- An inode that is written back without blocks and bytes. -/
theorem view_putInode_empty (hi : i < sb.ninodes) (hok : d.Ok) (htype : d.type ≠ 0)
    (hsize : d.size = 0) :
    view sb (putInode sb disk i d) i = some (d.type, []) := by
  have hd : dinode sb (putInode sb disk i d) i = d := dinode_putInode hok
  have halloc : Allocated sb (dinode sb (putInode sb disk i d)) i := by
    refine ⟨hi, ?_⟩
    rw [hd]
    exact htype
  rw [view_of_allocated halloc, hd]
  unfold onDisk Img.content
  rw [hd, hsize]
  rfl

theorem view_newFile (h : Consistent sb disk (dinode sb disk)) (hl : Layout sb)
    (hi : i < sb.ninodes) (hok : d.Ok) (htype : d.type ≠ 0) (hsize : d.size = 0) :
    view sb (putInode sb disk i d) = update (view sb disk) i (some (d.type, [])) := by
  funext j
  by_cases hj : j = i
  · subst hj
    rw [update_self]
    exact view_putInode_empty hi hok htype hsize
  · rw [update_of_ne hj]
    exact view_putInode_of_ne h hl hi hj

variable {files : Nat → Option (Nat × List UInt8)} {bytes : List UInt8} {type : Nat}

/-- A free inode becomes an empty file. -/
theorem FilesOk.newFile (h : FilesOk files) (hfree : files i = none)
    (htype : type ≠ tDir) : FilesOk (update files i (some (type, []))) := by
  have hne : ∀ {j bytes}, update files i (some (type, [])) j = some (tDir, bytes) →
      j ≠ i ∧ files j = some (tDir, bytes) := by
    intro j bytes hj
    by_cases he : j = i
    · subst he
      rw [update_self] at hj
      cases hj
      exact absurd rfl htype
    · rw [update_of_ne he] at hj
      exact ⟨he, hj⟩
  obtain ⟨bytes, hroot⟩ := h.root
  refine ⟨⟨bytes, ?_⟩, fun hj => h.whole (hne hj).2, fun {j bytes} hj k hk h0 => ?_⟩
  · rw [update_of_ne]
    · exact hroot
    · intro he
      rw [he, hfree] at hroot
      cases hroot
  · have hold := h.named (hne hj).2 k hk h0
    by_cases he : direntInum (dirent bytes k) = i
    · rw [he, update_self]
      rfl
    · rw [update_of_ne he]
      exact hold

theorem dinode_putInode_eq (hok : d.Ok) :
    dinode sb (putInode sb disk i d) = update (dinode sb disk) i d := by
  funext j
  by_cases hj : j = i
  · subst hj
    rw [update_self, dinode_putInode hok]
  · rw [update_of_ne hj, dinode_putInode_of_ne hj]

/-- A free inode becomes an empty file, or an empty file gets other
fields. -/
theorem Image.putEmpty (h : Image sb disk) (hi : i < sb.ninodes) (hok : d.Ok)
    (htype : d.type ≠ 0) (hdir : d.type ≠ tDir) (hsize : d.size = 0)
    (haddrs : ∀ k, d.addrs k = 0)
    (hwas : view sb disk i = none ∨ view sb disk i = some (d.type, [])) :
    Image sb (putInode sb disk i d)
      ∧ view sb (putInode sb disk i d)
        = update (view sb disk) i (some (d.type, [])) := by
  have hview := view_newFile h.owns h.layout hi hok htype hsize
  refine ⟨⟨h.layout, ?_, ?_, ?_⟩, hview⟩
  · rw [dinode_putInode_eq hok]
    exact h.owns.putInode h.layout hi (Or.inl haddrs)
  · intro j hj o ho
    rw [dinode_putInode_eq hok] at hj
    unfold onDisk at ho ⊢
    rw [dinode_putInode_eq hok] at ho ⊢
    by_cases he : j = i
    · rw [he, update_self] at ho
      dsimp only at ho
      omega
    · unfold Allocated at hj
      rw [update_of_ne he] at hj ho ⊢
      rw [h.layout.slot_putInode hi (h.owns.indirect hj)]
      exact h.mapped j hj o ho
  · rw [hview]
    rcases hwas with hwas | hwas
    · exact h.files.newFile hwas hdir
    · rw [← hwas, update_eq_self]
      exact h.files

/-- Free blocks stay as fit for an indirect block as they are. -/
theorem Harmless.putInode (h : Harmless sb disk tab b) (hown : Consistent sb disk tab)
    (hl : Layout sb) (hi : i < sb.ninodes) (haddrs : ∀ k, d.addrs k = 0)
    (hb : dataStart sb ≤ b) : Harmless sb (putInode sb disk i d) (update tab i d) b := by
  have hstart := hl.bmapstart_lt
  have hentry : ∀ e, entry (Fs.putInode sb disk i d) b e = entry disk b e := by
    intro e
    unfold entry
    rw [hl.putInode_behind hi (by omega)]
  intro e he h0
  rw [hentry] at h0 ⊢
  obtain ⟨h1, h2, h3, h4⟩ := h e he h0
  refine ⟨h1, ?_, fun j k hh => h3 j k (hown.holds_putInode hl hi (Or.inl haddrs) hh),
    fun f hf hef => ?_⟩
  · rw [hl.used_putInode hi]
    exact h2
  · rw [hentry] at hef
    exact h4 f hf hef

theorem Layout.freeBlocks_putInode (hl : Layout sb) (hi : i < sb.ninodes) :
    freeBlocks sb (putInode sb disk i d) = freeBlocks sb disk :=
  freeBlocks_congr fun b _ => hl.used_putInode hi b

/-- A write into another file is as safe as before. -/
theorem IndirectOk.putInode {off n : Nat}
    (h : IndirectOk sb tab j ⟨disk, tab j⟩ off n) (hown : Consistent sb disk tab)
    (hl : Layout sb) (hi : i < sb.ninodes) (haddrs : ∀ k, d.addrs k = 0)
    (hne : j ≠ i) :
    IndirectOk sb (update tab i d) j ⟨putInode sb disk i d, tab j⟩ off n := by
  intro h0 hn hlt hlast b hb
  rw [hl.freeBlocks_putInode hi] at hb
  have hsafe := h h0 hn hlt hlast b hb
  rw [update_eq_self] at hsafe
  have hself : update (update tab i d) j (tab j) = update tab i d := by
    have he : tab j = update tab i d j := (update_of_ne hne ..).symm
    rw [he, update_eq_self]
  rw [hself]
  obtain ⟨-, hfree⟩ := mem_freeBlocks.mp (List.mem_of_getElem? hb)
  exact hsafe.putInode hown hl hi haddrs (hown.free hfree).1

theorem unmapped_congr {x y : Img} (h : ∀ k, y.slot k = x.slot k) (bn n : Nat) :
    y.unmapped bn n = x.unmapped bn n := by
  induction n generalizing bn with
  | zero => rfl
  | succ n ih =>
    unfold Img.unmapped
    rw [h, ih]

/-- A file other than a directory gets other bytes. -/
theorem FilesOk.rewrite (h : FilesOk files) (hfile : files i = some (type, bytes))
    (htype : type ≠ tDir) (bytes' : List UInt8) :
    FilesOk (update files i (some (type, bytes'))) := by
  have hsome : ∀ j, (files j).isSome = true →
      (update files i (some (type, bytes')) j).isSome = true := by
    intro j hj
    by_cases he : j = i
    · rw [he, update_self]
      rfl
    · rw [update_of_ne he]
      exact hj
  have hdir : ∀ {j b}, update files i (some (type, bytes')) j = some (tDir, b) →
      files j = some (tDir, b) := by
    intro j b hj
    by_cases he : j = i
    · rw [he, update_self] at hj
      cases hj
      exact absurd rfl htype
    · rw [update_of_ne he] at hj
      exact hj
  obtain ⟨b, hroot⟩ := h.root
  refine ⟨⟨b, ?_⟩, fun hj => h.whole (hdir hj),
    fun hj k hk h0 => hsome _ (h.named (hdir hj) k hk h0)⟩
  rw [update_of_ne]
  · exact hroot
  · intro he
    rw [he, hfile] at hroot
    cases hroot
    exact htype rfl

-- ==== a new entry

/-- The directory with the entry `de` in its first unused place, or at its
end. -/
def addEntry (bytes de : List UInt8) : List UInt8 :=
  overlay bytes (16 * freeEntry bytes) de

variable {de name : List UInt8}

theorem freeEntry_mul_le : 16 * freeEntry bytes ≤ bytes.length := by
  have := freeEntry_le bytes
  omega

theorem length_addEntry (hde : de.length = 16) :
    (addEntry bytes de).length = max bytes.length (16 * freeEntry bytes + 16) := by
  unfold addEntry
  rw [length_overlay freeEntry_mul_le, hde]

theorem length_dirent_min : (dirent bytes k).length = min 16 (bytes.length - 16 * k) := by
  unfold dirent
  rw [List.length_take, List.length_drop]

theorem getD_dirent {o : Nat} (ho : o < 16) :
    (dirent bytes k).getD o 0 = bytes.getD (16 * k + o) 0 := by
  unfold dirent
  rw [List.getD_eq_getElem?_getD, List.getD_eq_getElem?_getD,
    List.getElem?_take_of_lt ho, List.getElem?_drop]

/-- A directory in which entry `k` is written: the others stay as they
are. -/
theorem dirent_overlay {l : Nat} (hde : de.length = 16) (hk : 16 * k ≤ bytes.length)
    (hl : 16 * l + 16 ≤ (overlay bytes (16 * k) de).length) :
    dirent (overlay bytes (16 * k) de) l = if l = k then de else dirent bytes l := by
  rw [length_overlay hk, hde] at hl
  refine list_eq_of_getD ?_ fun o ho => ?_
  · rw [length_dirent_min, length_overlay hk]
    split
    · omega
    · rw [length_dirent_min]
      omega
  · rw [length_dirent_min] at ho
    rw [getD_dirent (by omega), getD_overlay hk, hde]
    by_cases he : l = k
    · subst he
      rw [if_pos (by omega), if_pos rfl, Nat.add_sub_cancel_left]
    · rw [if_neg (by omega), if_neg he, getD_dirent (by omega)]

theorem dirent_addEntry (hwhole : bytes.length % 16 = 0) (hde : de.length = 16)
    (hk : 16 * k < (addEntry bytes de).length) :
    dirent (addEntry bytes de) k = if k = freeEntry bytes then de else dirent bytes k := by
  refine dirent_overlay hde freeEntry_mul_le ?_
  have hlen : (addEntry bytes de).length = _ := length_addEntry hde
  unfold addEntry at hlen hk
  omega

theorem FilesOk.addEntry (h : FilesOk files) (hfile : files i = some (tDir, bytes))
    (hde : de.length = 16) (hnamed : (files (direntInum de)).isSome = true) :
    FilesOk (update files i (some (tDir, addEntry bytes de))) := by
  have hwhole := h.whole hfile
  have hsome : ∀ j, (files j).isSome = true →
      (update files i (some (tDir, Fs.addEntry bytes de)) j).isSome = true := by
    intro j hj
    by_cases he : j = i
    · rw [he, update_self]
      rfl
    · rw [update_of_ne he]
      exact hj
  refine ⟨?_, fun {j bytes'} hj => ?_, fun {j bytes'} hj k hk h0 => hsome _ ?_⟩
  · by_cases he : rootIno = i
    · exact ⟨_, by rw [he, update_self]⟩
    · rw [update_of_ne he]
      exact h.root
  · by_cases he : j = i
    · rw [he, update_self] at hj
      cases hj
      rw [length_addEntry hde]
      omega
    · rw [update_of_ne he] at hj
      exact h.whole hj
  · by_cases he : j = i
    · rw [he, update_self] at hj
      cases hj
      rw [dirent_addEntry hwhole hde hk] at h0 ⊢
      split at h0
      next hk' =>
        rw [if_pos hk']
        exact hnamed
      next hk' =>
        rw [if_neg hk']
        refine h.named hfile k ?_ h0
        rw [length_addEntry hde] at hk
        have := freeEntry_le bytes
        omega
    · rw [update_of_ne he] at hj
      exact h.named hj k hk h0

/-- No two entries in use have the same name. -/
def DistinctNames (bytes : List UInt8) : Prop :=
  ∀ k l, 16 * k < bytes.length → 16 * l < bytes.length →
    entryInum bytes k ≠ 0 → entryInum bytes l ≠ 0 →
    entryName bytes k = entryName bytes l → k = l

theorem DistinctNames.addEntry (h : DistinctNames bytes)
    (hwhole : bytes.length % 16 = 0) (hde : de.length = 16)
    (hnew : lookup bytes (cstr (direntName de)) = none) :
    DistinctNames (addEntry bytes de) := by
  have hle := freeEntry_le bytes
  -- an entry in use is the new one, or an old one by another name
  have hcases : ∀ k, 16 * k < (Fs.addEntry bytes de).length →
      entryInum (Fs.addEntry bytes de) k ≠ 0 →
      (k = freeEntry bytes ∧ entryName (Fs.addEntry bytes de) k = cstr (direntName de))
      ∨ (k ≠ freeEntry bytes ∧ 16 * k < bytes.length ∧ entryInum bytes k ≠ 0
        ∧ entryName (Fs.addEntry bytes de) k = entryName bytes k
        ∧ entryName bytes k ≠ cstr (direntName de)) := by
    intro k hk h0
    unfold entryInum at h0
    unfold entryName
    rw [dirent_addEntry hwhole hde hk] at h0 ⊢
    by_cases he : k = freeEntry bytes
    · exact Or.inl ⟨he, by rw [if_pos he]⟩
    · rw [if_neg he] at h0 ⊢
      rw [length_addEntry hde] at hk
      have hk' : 16 * k < bytes.length := by omega
      exact Or.inr ⟨he, hk', h0, rfl, lookup_none hnew (by omega) h0⟩
  intro k l hk hl hk0 hl0 hname
  rcases hcases k hk hk0 with ⟨hke, hkn⟩ | ⟨-, hk1, hk2, hk3, hk4⟩
  · rcases hcases l hl hl0 with ⟨hle', -⟩ | ⟨-, -, -, hl3, hl4⟩
    · rw [hke, hle']
    · exact absurd (hl3.symm.trans (hname.symm.trans hkn)) hl4
  · rcases hcases l hl hl0 with ⟨-, hln⟩ | ⟨-, hl1, hl2, hl3, -⟩
    · exact absurd (hk3.symm.trans (hname.trans hln)) hk4
    · exact h k l hk1 hl1 hk2 hl2 (hk3.symm.trans (hname.trans hl3))

end Xv6FsServer.Fs
