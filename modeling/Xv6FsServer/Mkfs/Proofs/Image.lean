/-
The image that mkfs leaves.

Its last two steps round the size of the root directory up, always by some
bytes, and write the bitmap. When the entries fill their blocks exactly, the
rounding adds a whole block, and no block is allocated for it. Names are cut
before they are stored, and nobody looks whether two of them become one. And
inode numbers are counted on past the inode table. These are the only ways in
which a finished image is not consistent (`finished_wellMade_iff`).
-/
import Xv6FsServer.Mkfs.Proofs.Making

namespace Xv6FsServer.Mkfs

open Lib Fs Function List Meets

variable {s t : Mk} {fs : List File} {k : Nat}

-- ==== the entries

variable {e : Nat × List UInt8}

/-- The root directory with the zeros behind its entries. -/
def rootOf (fs : List File) : List UInt8 :=
  directory fs ++ List.replicate
    (((directory fs).length / bsize + 1) * bsize - (directory fs).length) 0

/-- The names in the root directory. -/
def storedNames (fs : List File) : List (List UInt8) :=
  [46] :: [46, 46] :: fs.map File.stored

theorem length_entries (fs : List File) : (entries fs).length = fs.length + 2 := by
  unfold entries
  rw [length_cons, length_cons, length_mapIdx]

theorem map_entries (fs : List File) : (entries fs).map Prod.snd = storedNames fs := by
  unfold entries storedNames
  rw [map_cons, map_cons]
  congr 2
  apply ext_getElem?
  intro j
  simp [Function.comp_def]

theorem mem_skip {a : UInt8} {name : List UInt8} (h : a ∈ skip name) : a ∈ name := by
  unfold skip at h
  split at h
  next => exact mem_cons_of_mem _ h
  next => exact h

theorem entry_ok (he : e ∈ entries fs) :
    e.1 ≠ 0 ∧ e.1 < fs.length + 2 ∧ ∀ a ∈ e.2, a ≠ 0 := by
  unfold entries at he
  rw [mem_cons, mem_cons, mem_mapIdx] at he
  rcases he with rfl | rfl | ⟨j, hj, rfl⟩
  · exact ⟨by decide, by show 1 < _; omega, by simp⟩
  · exact ⟨by decide, by show 1 < _; omega, by simp⟩
  refine ⟨by dsimp only; omega, by dsimp only; omega, fun a ha h0 => ?_⟩
  -- a stored name is a part of the argument
  have hname := mem_skip (mem_of_mem_take ha)
  rw [h0] at hname
  exact fs[j].name_ok hname

theorem root_entry (hlen : fs.length + 2 ≤ ninodes) (he : (entries fs)[k]? = some e) :
    entryInum (rootOf fs) k = e.1 ∧ entryName (rootOf fs) k = e.2 := by
  have hmem := mem_of_getElem? he
  obtain ⟨-, hlt, hnul⟩ := entry_ok hmem
  have hninodes : ninodes = 200 := rfl
  unfold entryInum entryName rootOf
  rw [show directory fs = dirBytes (entries fs) from rfl,
    dirent_dirBytes (fun _ => length_name) he]
  refine ⟨direntInum_mkDirent (by omega) _, ?_⟩
  rw [direntName_mkDirent]
  exact cstr_append_replicate hnul _

/-- Behind the entries there are zeros. -/
theorem root_behind (hk : fs.length + 2 ≤ k) : entryInum (rootOf fs) k = 0 := by
  have hlen := length_directory fs
  have hzero : ∀ m n : Nat, (replicate m (0 : UInt8)).getD n 0 = 0 := by
    intro m n
    rw [getD_eq_getElem?_getD, getElem?_replicate]
    split <;> rfl
  unfold entryInum direntInum dirent rootOf
  rw [drop_append, drop_of_length_le (by omega), nil_append,
    drop_replicate, take_replicate, hzero, hzero]
  rfl

/-- The names in the directory are the stored ones. -/
theorem distinctNames_iff (hlen : fs.length + 2 ≤ ninodes) :
    DistinctNames (rootOf fs) ↔ (storedNames fs).Nodup := by
  have hdir := length_directory fs
  have hlong : (directory fs).length ≤ (rootOf fs).length := by
    unfold rootOf
    rw [length_append]
    omega
  have hentries := length_entries fs
  rw [← map_entries, nodup_iff_getElem?_ne_getElem?]
  constructor
  · intro h i j hij hj heq
    rw [length_map] at hj
    rw [getElem?_map, getElem?_map,
      getElem?_eq_getElem (show i < (entries fs).length by omega),
      getElem?_eq_getElem hj, Option.map_some, Option.map_some] at heq
    obtain ⟨hi1, hi2⟩ := root_entry hlen (getElem?_eq_getElem
      (show i < (entries fs).length by omega))
    obtain ⟨hj1, hj2⟩ := root_entry hlen (getElem?_eq_getElem hj)
    have hsame := h i j (by omega) (by omega)
      (by rw [hi1]; exact (entry_ok (getElem_mem _)).1)
      (by rw [hj1]; exact (entry_ok (getElem_mem _)).1)
      (by rw [hi2, hj2]; exact Option.some.inj heq)
    omega
  · intro h i j _ _ hi0 hj0 heq
    have hin : ∀ l, entryInum (rootOf fs) l ≠ 0 → l < (entries fs).length := by
      intro l hl
      by_contra hge
      exact hl (root_behind (by omega))
    have hi := hin i hi0
    have hj := hin j hj0
    have hi2 := (root_entry hlen (getElem?_eq_getElem hi)).2
    have hj2 := (root_entry hlen (getElem?_eq_getElem hj)).2
    have hnames : ((entries fs).map Prod.snd)[i]? = ((entries fs).map Prod.snd)[j]? := by
      rw [getElem?_map, getElem?_map, getElem?_eq_getElem hi,
        getElem?_eq_getElem hj, Option.map_some, Option.map_some, ← hi2, ← hj2, heq]
    rw [length_map] at h
    rcases Nat.lt_trichotomy i j with hlt | rfl | hgt
    · exact absurd hnames (h i j hlt hj)
    · rfl
    · exact absurd hnames.symm (h j i hgt hi)

-- ==== the last steps

/-- The image with the root directory's size rounded up and its bitmap. -/
def Mk.finish (s : Mk) : Disk :=
  putInode sb s.seal rootIno (rounded (dinode sb s.seal rootIno))

/-- A larger size shows what is behind the end. -/
theorem content_padded {x y : Img} (hbyte : y.byte = x.byte)
    (hclear : ∀ o, x.d.size ≤ o → x.byte o = 0) (hle : x.d.size ≤ y.d.size) :
    y.content = x.content ++ List.replicate (y.d.size - x.d.size) 0 := by
  obtain ⟨m, hm⟩ := Nat.exists_eq_add_of_le hle
  have hzeros : (range m).map (fun o => x.byte (x.d.size + o))
      = replicate m 0 := by
    rw [map_congr_left (g := fun _ => 0) fun o _ => hclear _ (Nat.le_add_right ..),
      map_const', length_range]
  unfold Img.content
  rw [hbyte, hm, range_add, map_append, map_map, Nat.add_sub_cancel_left,
    ← hzeros]
  rfl

theorem Made.root (h : Made s fs) :
    Allocated sb (dinode sb s.seal) rootIno
      ∧ (onDisk sb s.seal rootIno).content = directory fs
      ∧ (dinode sb s.seal rootIno).type = tDir
      ∧ (dinode sb s.seal rootIno).size = 16 * (fs.length + 2) := by
  have hnode : nodesOf (directory fs) fs rootIno = some ⟨tDir, 1, directory fs⟩ := rfl
  obtain ⟨halloc, hn⟩ := h.image.file hnode
  have hsize := h.image.size hnode
  refine ⟨halloc, (congrArg Node.bytes hn).symm, (congrArg Node.type hn).symm, ?_⟩
  rw [hsize]
  exact length_directory fs

section

variable (h : Made s fs) (hlen : fs.length + 2 ≤ ninodes)

include h hlen

theorem Made.rounded_ok : (rounded (dinode sb s.seal rootIno)).Ok := by
  obtain ⟨-, -, -, hsize⟩ := h.root
  have hold : (dinode sb s.seal rootIno).Ok := getDInode_ok ..
  have hninodes : ninodes = 200 := rfl
  refine ⟨hold.type, hold.major, hold.minor, hold.nlink, ?_, hold.addrs, hold.past⟩
  show ((dinode sb s.seal rootIno).size / 512 + 1) * 512 < _
  omega

theorem Made.dinode_finish :
    dinode sb s.finish
      = update (dinode sb s.seal) rootIno (rounded (dinode sb s.seal rootIno)) :=
  dinode_putInode_eq (h.rounded_ok hlen)

theorem Made.root_content : (onDisk sb s.finish rootIno).content = rootOf fs := by
  obtain ⟨halloc, hcont, -, hsize⟩ := h.root
  have hx := Kfs.isFile_onDisk h.image.account halloc
  have htidy := h.image.tidy rootIno halloc
  have haddrs : (rounded (dinode sb s.seal rootIno)).addrs
      = (onDisk sb s.seal rootIno).d.addrs := rfl
  have hbyte : (onDisk sb s.finish rootIno).byte = (onDisk sb s.seal rootIno).byte := by
    unfold onDisk
    rw [h.dinode_finish hlen, update_self]
    funext o
    exact (hx.byte_putInode haddrs o).2
  have hlong : (onDisk sb s.finish rootIno).d.size
      = ((directory fs).length / bsize + 1) * bsize := by
    unfold onDisk
    rw [h.dinode_finish hlen, update_self, length_directory, ← hsize]
    rfl
  have hshort : (onDisk sb s.seal rootIno).d.size = (directory fs).length := by
    rw [length_directory]
    exact hsize
  rw [content_padded hbyte htidy.clear (by rw [hlong, hshort]; unfold bsize; omega), hcont,
    hlong, hshort]
  rfl

/-- The accounts of the finished image are exact, unless the root directory
ends where a block ends. -/
theorem Made.exact_iff : Exact sb s.finish ↔ (fs.length + 2) % 32 ≠ 0 := by
  obtain ⟨halloc, -, htype, hsize⟩ := h.root
  have hfull := (h.image.tidy rootIno halloc).full
  have hninodes : ninodes = 200 := rfl
  have hblock : ∀ bn, bn < maxFile →
      ((onDisk sb s.seal rootIno).slot (slotOf bn) ≠ 0 ↔ bn * 512 < 16 * (fs.length + 2)) := by
    intro bn hbn
    rw [← hsize]
    exact hfull.block bn hbn
  have hmax : maxFile = 140 := rfl
  have hrsize : (rounded (dinode sb s.seal rootIno)).size
      = (16 * (fs.length + 2) / 512 + 1) * 512 := by
    rw [← hsize]
    rfl
  have haddrs : (rounded (dinode sb s.seal rootIno)).addrs
      = (onDisk sb s.seal rootIno).d.addrs := rfl
  constructor
  · intro hexact hround
    -- the block behind the entries
    have hmapped := hexact.mapped rootIno (by
      unfold Allocated
      rw [h.dinode_finish hlen, update_self]
      exact halloc)
    have hx := Kfs.isFile_onDisk h.image.account halloc
    have hlast := hmapped (16 * (fs.length + 2)) (by
      unfold onDisk
      rw [h.dinode_finish hlen, update_self]
      dsimp only
      omega)
    unfold onDisk at hlast
    rw [h.dinode_finish hlen, update_self] at hlast
    have hslot := hx.slot_putInode haddrs (slotOf (16 * (fs.length + 2) / bsize))
    have hlast : (onDisk sb s.seal rootIno).slot (slotOf (16 * (fs.length + 2) / 512)) ≠ 0 :=
      fun h0 => hlast (hslot.trans h0)
    have := (hblock _ (by omega)).mp hlast
    omega
  · intro hround
    refine (h.image.account.pendSize halloc (h.rounded_ok hlen) ?_ haddrs
      fun o ho => ?_).put.1
    · show (dinode sb s.seal rootIno).type ≠ 0
      rw [htype]
      decide
    · have ho : o < (16 * (fs.length + 2) / 512 + 1) * 512 := hrsize ▸ ho
      rw [slot_addrs haddrs]
      refine (hblock (o / bsize) ?_).mpr ?_
      · show o / 512 < _
        omega
      · show o / 512 * 512 < _
        omega

end

theorem Made.super (h : Made s fs) : getSuperblock (s.finish 1) = sb := by
  unfold Mk.finish
  rw [putInode_of_ne (layout.super.2 rootIno), seal_of_ne (by decide), h.image.super]
  rfl

-- ==== inode numbers

/-- The inode counter is where it was. -/
def SameInodes (s t : Mk) : Prop := t.freeinode = s.freeinode

instance : Std.Refl SameInodes := ⟨fun _ => rfl⟩

instance : IsTrans Mk SameInodes := ⟨fun _ _ _ hst htu => htu.trans hst⟩

theorem wsect_within (sec : Nat) (buf : Block) : Within SameInodes (wsect sec buf) :=
  Within.change fun _ => rfl

theorem rsect_within (sec : Nat) : Within SameInodes (rsect sec) := by
  refine Within.bind .read fun s => ?_
  split
  next => exact .fault _
  next => exact .ret _

theorem winode_within (inum : Nat) (d : DInode) : Within SameInodes (winode inum d) :=
  (rsect_within _).bind fun _ => wsect_within ..

theorem rinode_within (inum : Nat) : Within SameInodes (rinode inum) :=
  (rsect_within _).bind fun _ => .ret _

theorem nextBlock_within : Within SameInodes nextBlock := by
  refine Within.bind .read fun s => Within.bind ?_ fun _ => .ret _
  exact Within.change fun _ => rfl

theorem slotFor_within (d : DInode) (k : Nat) : Within SameInodes (slotFor d k) := by
  unfold slotFor
  split
  next => exact nextBlock_within.map
  next => exact .ret _

theorem blockFor_within (d : DInode) (bn : Nat) : Within SameInodes (blockFor d bn) := by
  unfold blockFor
  split
  next => exact (slotFor_within d bn).bind fun _ => .ret _
  next =>
    refine (slotFor_within d ndirect).bind fun d' => (rsect_within _).bind fun ind => ?_
    split
    next => exact nextBlock_within.bind fun b => (wsect_within ..).bind fun _ => .ret _
    next => exact .ret _

theorem iappendLoop_within (n : Nat) (off : Nat) (p : List UInt8) (d : DInode) :
    Within SameInodes (iappendLoop n off p d) := by
  induction n generalizing off p d with
  | zero => exact .ret _
  | succ n ih =>
    unfold iappendLoop
    split
    next => exact .ret _
    next =>
      dsimp only
      split
      next => exact .fault _
      next =>
        exact (blockFor_within ..).bind fun r => (rsect_within _).bind fun buf =>
          (wsect_within ..).bind fun _ => ih ..

theorem iappend_within (inum : Nat) (p : List UInt8) : Within SameInodes (iappend inum p) :=
  (rinode_within inum).bind fun _ => (iappendLoop_within ..).bind fun _ => winode_within ..

theorem appendAll_within (inum : Nat) (cs : List (List UInt8)) :
    Within SameInodes (appendAll inum cs) := by
  induction cs with
  | nil => exact .ret _
  | cons c cs ih => exact (iappend_within inum c).bind fun _ => ih

/-- A run that returns has moved the inode counter by `n`. -/
abbrev Counts {α : Type} (n : Nat) (x : Op α) : Prop :=
  ∀ s, Leaves (fun _ => True) x s fun _ t => t.freeinode = s.freeinode + n

theorem counts_zero {α : Type} {x : Op α} (h : Within SameInodes x) : Counts 0 x :=
  fun s => (h.leaves s).weaken fun _ _ _ => trivial

theorem Counts.bind {α β : Type} {m n : Nat} {x : Op α} {f : α → Op β}
    (hx : Counts m x) (hf : ∀ a, Counts n (f a)) : Counts (m + n) (x >>= f) := by
  intro s
  apply Meets.bind
  refine (hx s).mono fun a t ht => (hf a t).mono fun b u hu => ?_
  rw [hu, ht, Nat.add_assoc]

theorem ialloc_counts (type : Nat) : Counts 1 (ialloc type) := by
  intro s
  apply get_bind
  apply modify_bind
  refine (counts_zero (winode_within ..) _).seq fun _ t ht => ?_
  exact ret ht

theorem addFile_counts (f : File) : Counts 1 (addFile f) := by
  unfold addFile
  split
  next => exact fun _ => fault trivial
  next =>
    exact (ialloc_counts tFile).bind fun inum =>
      counts_zero ((iappend_within ..).bind fun _ => appendAll_within ..)

theorem addFiles_counts (fs : List File) : Counts fs.length (addFiles fs) := by
  induction fs with
  | nil => exact fun _ => ret rfl
  | cons f fs ih =>
    rw [length_cons, Nat.add_comm]
    exact (addFile_counts f).bind fun _ => ih

theorem makeRoot_counts : Counts 1 makeRoot := by
  refine (ialloc_counts tDir).bind (n := 0) fun inum => ?_
  split
  next => exact fun _ => fault trivial
  next =>
    exact counts_zero ((iappend_within ..).bind fun _ => iappend_within ..)

theorem balloc_within (u : Nat) : Within SameInodes (balloc u) := by
  unfold balloc
  split
  next => exact .fault _
  next => exact wsect_within ..

theorem main_counts (fs : List File) : Counts (fs.length + 1) (main fs) := by
  have hfix : Within SameInodes fixRoot :=
    (rinode_within rootIno).bind fun _ => winode_within ..
  have hrest := hfix.bind fun _ => Within.bind .read fun s : Mk => balloc_within s.freeblock
  rw [show fs.length + 1 = 0 + (1 + (fs.length + 0)) by omega]
  exact (counts_zero (wsect_within ..)).bind fun _ => makeRoot_counts.bind fun _ =>
    (addFiles_counts fs).bind fun _ => counts_zero hrest

-- ==== the finished image

/-- The image is consistent: with the superblock that mkfs laid out, no inode
number beyond the table, exact accounts, and one entry for each name. -/
structure WellMade (t : Mk) : Prop where
  super : getSuperblock (t.disk 1) = sb
  inodes : ∀ i, rootIno ≤ i → i < t.freeinode → i < sb.ninodes
  account : Exact sb t.disk
  names : DistinctNames (onDisk sb t.disk rootIno).content

theorem Made.consistent_iff (h : Made s fs) (hlen : fs.length + 2 ≤ ninodes)
    (hino : t.freeinode = fs.length + 2) (hdisk : t.disk = s.finish) :
    WellMade t ↔ (fs.length + 2) % 32 ≠ 0 ∧ (storedNames fs).Nodup := by
  rw [← h.exact_iff hlen, ← distinctNames_iff hlen, ← h.root_content hlen, ← hdisk]
  constructor
  · intro hw
    exact ⟨hw.account, hw.names⟩
  · intro hc
    refine ⟨?_, fun i _ hi => ?_, hc.1, hc.2⟩
    · rw [hdisk]
      exact h.super
    · show i < ninodes
      omega

/-- mkfs ends on files that fit. -/
theorem exists_made (fs : List File) (hlen : fs.length + 2 ≤ ninodes) (hfits : Fits fs) :
    ∃ t s, exec (main fs) start = (.ok (), t) ∧ Made s fs
      ∧ t.freeinode = fs.length + 2 ∧ t.disk = s.finish := by
  have hspec := main_spec (P := False) fs hlen fun _ => hfits
  cases hrun : exec (main fs) start with
  | mk r t =>
    cases r with
    | ok u =>
      obtain ⟨hino, s, hmade, hdisk⟩ := hspec.elim hrun
      exact ⟨t, s, rfl, hmade, hino, hdisk⟩
    | error e => exact (hspec.elim_fault hrun).elim

theorem nul_notMem (name : List UInt8) : 0 ∉ name.filter (· != 0) := by simp

/-- A file without bytes. -/
def emptyFile (name : List UInt8) : File where
  name := name.filter (· != 0)
  chunks := []
  name_ok := nul_notMem name
  chunks_ok := nofun

/-- When mkfs exits with 0, the image is consistent exactly when there were
inodes for all the files, their entries do not end where a block ends, and the
names stay apart when they are stored. -/
theorem finished_wellMade_iff (fs : List File) (hrun : exec (main fs) start = (.ok (), t)) :
    WellMade t ↔ fs.length ≤ ninodes - 2 ∧ (fs.length + 2) % 32 ≠ 0
      ∧ (storedNames fs).Nodup := by
  have hninodes : ninodes = 200 := rfl
  by_cases hlen : fs.length + 2 ≤ ninodes
  · have hspec := main_spec (P := True) fs hlen (fun hno => absurd trivial hno)
    obtain ⟨hino, s, hmade, hdisk⟩ := hspec.elim hrun
    rw [hmade.consistent_iff hlen hino hdisk]
    exact (and_iff_right (by omega)).symm
  · have hino : t.freeinode = 1 + (fs.length + 1) := (main_counts fs start).elim hrun
    constructor
    · intro hw
      have hlt : 200 < ninodes := hw.inodes 200 (by decide) (by omega)
      omega
    · intro hc
      omega

/-- A file of one byte. -/
def oneByte (name : List UInt8) : File where
  name := name.filter (· != 0)
  chunks := [[120]]
  name_ok := nul_notMem name
  chunks_ok := by simp [bsize]

/-- A file of one byte, and one of thirteen blocks, for which it takes the
indirect block. -/
def twoFiles : List File :=
  [oneByte [97],
    { emptyFile [98] with
      chunks := .replicate 13 (.replicate bsize 121)
      chunks_ok := by
        intro c hc
        rw [List.eq_of_mem_replicate hc, List.length_replicate]
        decide }]

theorem finished_wellMade_twoFiles :
    ∃ t, exec (main twoFiles) start = (.ok (), t) ∧ WellMade t := by
  obtain ⟨t, s, hrun, -⟩ := exists_made twoFiles (by decide)
    ⟨by decide, by decide +kernel, by decide +kernel⟩
  exact ⟨t, hrun, (finished_wellMade_iff _ hrun).mpr ⟨by decide, by decide, by decide⟩⟩

/-- Thirty files, whose entries fill the first block of the root directory
together with `.` and `..`. -/
def thirtyFiles : List File :=
  (List.range 30).map fun k => emptyFile [UInt8.ofNat (k + 65)]

/-- Two files, of which the first loses the `_` in front of its name. -/
def twinNames : List File := [emptyFile [95, 97], emptyFile [97]]

theorem not_wellMade_thirtyFiles_twinNames :
    (∃ t, exec (main thirtyFiles) start = (.ok (), t) ∧ ¬ WellMade t)
      ∧ ∃ t, exec (main twinNames) start = (.ok (), t) ∧ ¬ WellMade t := by
  constructor
  · obtain ⟨t, s, hrun, hmade, hino, hdisk⟩ := exists_made thirtyFiles (by decide)
      ⟨by decide, by decide, by decide⟩
    refine ⟨t, hrun, fun hw => ?_⟩
    exact ((hmade.consistent_iff (by decide) hino hdisk).mp hw).1 rfl
  · obtain ⟨t, s, hrun, hmade, hino, hdisk⟩ := exists_made twinNames (by decide)
      ⟨by decide, by decide, by decide⟩
    refine ⟨t, hrun, fun hw => ?_⟩
    have hnodup := ((hmade.consistent_iff (by decide) hino hdisk).mp hw).2
    exact absurd hnodup (by decide)

end Xv6FsServer.Mkfs
