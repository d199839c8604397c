/-
Directories and paths.

A directory is a file of 16-byte entries. Both file systems search it the
same way, from the first entry on (`lookup`), and both put a new entry into
the first unused one or at the end (`freeEntry`). A path is the list of its
components; the files named by the entries met on the way make up the walk
(`walk`), in which every component is cut to so many bytes: how many is
where the two file systems differ.
-/
import Xv6FsServer.Fs.Image

namespace Xv6FsServer.Fs

open Lib Function List

variable {bytes name : List UInt8}
variable {k j : Nat}

-- ==== entries

theorem length_dirent (hk : 16 * k + 16 ≤ bytes.length) :
    (dirent bytes k).length = 16 := by
  unfold dirent
  rw [length_take, length_drop]
  omega

/-- The C string in an array: it ends at the first NUL, or with the
array. -/
def cstr (bs : List UInt8) : List UInt8 := bs.takeWhile (· != 0)

theorem cstr_append_replicate {l : List UInt8} (h : ∀ a ∈ l, a ≠ 0) (n : Nat) :
    cstr (l ++ List.replicate n 0) = l := by
  unfold cstr
  rw [takeWhile_append_of_pos fun a ha => bne_iff_ne.mpr (h a ha)]
  cases n with
  | zero => simp
  | succ n => simp [replicate_succ]

def entryInum (bytes : List UInt8) (k : Nat) : Nat := direntInum (dirent bytes k)

def entryName (bytes : List UInt8) (k : Nat) : List UInt8 :=
  cstr (direntName (dirent bytes k))

/-- Entry `k` is in use and has this name. -/
def entryIs (bytes name : List UInt8) (k : Nat) : Bool :=
  decide (entryInum bytes k ≠ 0) && entryName bytes k == name

/-- The file a directory has under a name. -/
def lookup (bytes name : List UInt8) : Option Nat :=
  (first (entryIs bytes name) 0 (bytes.length / 16)).map (entryInum bytes)

/-- Where a new entry goes. -/
def freeEntry (bytes : List UInt8) : Nat :=
  (first (fun k => entryInum bytes k == 0) 0 (bytes.length / 16)).getD
    (bytes.length / 16)

theorem entryIs_iff : entryIs bytes name k = true
    ↔ entryInum bytes k ≠ 0 ∧ entryName bytes k = name := by
  unfold entryIs
  rw [Bool.and_eq_true, decide_eq_true_eq, beq_iff_eq]

theorem lookup_some {i : Nat} (h : lookup bytes name = some i) :
    ∃ k, 16 * k < bytes.length ∧ entryInum bytes k = i ∧ i ≠ 0
      ∧ entryName bytes k = name := by
  unfold lookup at h
  rw [Option.map_eq_some_iff] at h
  obtain ⟨k, hk, hi⟩ := h
  obtain ⟨-, hlt, htest, -⟩ := first_some hk
  obtain ⟨h1, h2⟩ := entryIs_iff.mp htest
  exact ⟨k, by omega, hi, hi ▸ h1, h2⟩

theorem lookup_none (h : lookup bytes name = none) (hk : 16 * k + 16 ≤ bytes.length)
    (hi : entryInum bytes k ≠ 0) :
    entryName bytes k ≠ name := by
  unfold lookup at h
  rw [Option.map_eq_none_iff] at h
  intro hn
  have htest := first_none h k (by omega) (by omega)
  rw [entryIs_iff.mpr ⟨hi, hn⟩] at htest
  cases htest

theorem freeEntry_le (bytes : List UInt8) : freeEntry bytes ≤ bytes.length / 16 := by
  unfold freeEntry
  cases h : first (fun k => entryInum bytes k == 0) 0 (bytes.length / 16) with
  | none => exact Nat.le_refl _
  | some k =>
    obtain ⟨-, hlt, -, -⟩ := first_some h
    show k ≤ _
    omega

-- ==== paths

/-- The names between the slashes of a path. -/
def components (path : List UInt8) : List (List UInt8) :=
  (path.splitOn 47).filter (!·.isEmpty)

@[simp] theorem components_slash (p : List UInt8) :
    components (47 :: p) = components p := by
  unfold components splitOn
  rw [splitOnP_cons_eq_if_modifyHead, if_pos (by rfl), filter_cons]
  rfl

theorem components_skip (p : List UInt8) :
    components (p.dropWhile (· == 47)) = components p := by
  induction p with
  | nil => rfl
  | cons c p ih =>
    rw [dropWhile_cons]
    split
    next h =>
      rw [ih, beq_iff_eq.mp h, components_slash]
    next => rfl

/-- A path that does not start with a slash. -/
theorem components_cons {c : UInt8} {p : List UInt8} (hc : c ≠ 47) :
    components (c :: p) = (c :: p).takeWhile (· != 47)
      :: components ((c :: p).dropWhile (· != 47)) := by
  have hhead : ((c :: p).takeWhile (· != 47)).isEmpty = false := by
    rw [takeWhile_cons, if_pos (bne_iff_ne.mpr hc)]
    rfl
  have hname : ∀ x ∈ (c :: p).takeWhile (· != 47), (x == 47) = false := by
    intro x hx
    have hne := all_eq_true.mp all_takeWhile x hx
    simpa using hne
  generalize hname' : (c :: p).takeWhile (· != 47) = n at hhead hname
  generalize hrest : (c :: p).dropWhile (· != 47) = r
  have hsplit : c :: p = n ++ r := by
    rw [← hname', ← hrest, takeWhile_append_dropWhile]
  rw [hsplit]
  cases r with
  | nil =>
    unfold components splitOn
    rw [append_nil, splitOnP_eq_singleton hname]
    simp [hhead]
  | cons d r =>
    have hd : d = 47 := by
      have h1 := head?_dropWhile_not (· != 47) (c :: p)
      rw [hrest] at h1
      simpa using h1
    subst hd
    rw [components_slash]
    unfold components splitOn
    rw [splitOnP_append_cons_of_forall_mem hname 47 (by rfl)]
    simp [hhead]

-- ==== walks

/-- The file that the directory `i` has under a name, cut to `cut` bytes. -/
def child (files : Nat → Option (Nat × List UInt8)) (cut i : Nat)
    (name : List UInt8) : Option Nat :=
  match files i with
  | none => none
  | some (type, bytes) =>
    if type = tDir then lookup bytes (name.take cut) else none

/-- The file that a path leads to from the file `i`, when every component
is cut to `cut` bytes. -/
def walk (files : Nat → Option (Nat × List UInt8)) (cut : Nat) :
    Nat → List (List UInt8) → Option Nat
  | i, [] => some i
  | i, c :: cs =>
    match child files cut i c with
    | none => none
    | some j => walk files cut j cs

variable {files : Nat → Option (Nat × List UInt8)} {cut i : Nat}
variable {cs : List (List UInt8)} {c : List UInt8}

theorem child_file {type : Nat} (h : files i = some (type, bytes))
    (ht : type ≠ tDir) : child files cut i c = none := by
  unfold child
  rw [h]
  exact if_neg ht

theorem child_dir (h : files i = some (tDir, bytes)) :
    child files cut i c = lookup bytes (c.take cut) := by
  unfold child
  rw [h]
  exact if_pos rfl

theorem walk_none (h : child files cut i c = none) :
    walk files cut i (c :: cs) = none := by
  unfold walk
  rw [h]

theorem walk_some (h : child files cut i c = some j) :
    walk files cut i (c :: cs) = walk files cut j cs := by
  rw [walk, h]

/-- In a sound file system the entries of a directory name files. -/
theorem FilesOk.of_lookup (h : FilesOk files) (hd : files i = some (tDir, bytes))
    (hl : lookup bytes name = some j) : (files j).isSome = true := by
  obtain ⟨k, hk, rfl, h0, -⟩ := lookup_some hl
  exact h.named hd k hk h0

-- ==== an image with a root directory

/-- The bytes of a directory with these entries: inode numbers and names. -/
def dirBytes (es : List (Nat × List UInt8)) : List UInt8 :=
  es.flatMap fun e => mkDirent e.1 (paddedName e.2)

variable {es : List (Nat × List UInt8)} {e : Nat × List UInt8}

theorem length_paddedName (h : name.length ≤ dirsiz) :
    (paddedName name).length = dirsiz := by
  unfold paddedName
  rw [length_append, length_replicate]
  omega

theorem length_dirBytes (hes : ∀ e ∈ es, e.2.length ≤ dirsiz) :
    (dirBytes es).length = 16 * es.length := by
  unfold dirBytes
  rw [length_flatMap, map_congr_left (g := fun _ => 16) fun e he => ?_, Nat.mul_comm]
  · simp
  · rw [length_mkDirent, length_paddedName (hes e he)]
    rfl

theorem dirent_dirBytes (hes : ∀ e ∈ es, e.2.length ≤ dirsiz) (he : es[k]? = some e)
    (tail : List UInt8) :
    dirent (dirBytes es ++ tail) k = mkDirent e.1 (paddedName e.2) := by
  induction es generalizing k with
  | nil => cases he
  | cons d es ih =>
    have hlen : (mkDirent d.1 (paddedName d.2)).length = 16 := by
      rw [length_mkDirent, length_paddedName (hes d mem_cons_self)]
      rfl
    unfold dirBytes dirent at ih ⊢
    rw [flatMap_cons, append_assoc]
    cases k with
    | zero =>
      cases he
      rw [Nat.mul_zero, drop_zero, take_append_of_le_length (by omega),
        take_of_length_le (by omega)]
    | succ k =>
      rw [show 16 * (k + 1) = (mkDirent d.1 (paddedName d.2)).length + 16 * k by omega,
        ← drop_drop, drop_left]
      exact ih (fun d hd => hes d (mem_cons_of_mem _ hd)) he

def smallSb : Superblock := getSuperblock (smallImage 1)

/-- `smallImage` with another root directory. -/
def rootImage (es : List (Nat × List UInt8)) : Disk :=
  update (putInode smallSb smallImage rootIno
    { dinode smallSb smallImage rootIno with size := 16 * es.length }) 4
    (Bytes.zero.blit 0 (dirBytes es))

/-- Entries that the root of `rootImage` may have: they fit into a block and name
its two files. -/
structure SmallDir (es : List (Nat × List UInt8)) : Prop where
  few : es.length ≤ 32
  names : ∀ e ∈ es, e.2.length ≤ dirsiz
  inums : ∀ e ∈ es, e.1 = 1 ∨ e.1 = 2

theorem smallImage_inodes : ∀ j, j < 8 →
    ((dinode smallSb smallImage j).type ≠ 0 ↔ j = 1 ∨ j = 2)
    ∧ ∀ k, k ≤ ndirect → (dinode smallSb smallImage j).addrs k
      = if k = 0 ∧ (j = 1 ∨ j = 2) then j + 3 else 0 := by
  decide +kernel

theorem smallImage_root : (dinode smallSb smallImage 1).type = tDir
    ∧ (dinode smallSb smallImage 1).size = 48
    ∧ (dinode smallSb smallImage 1).nlink = 1
    ∧ (dinode smallSb smallImage 2).type = tFile
    ∧ (dinode smallSb smallImage 2).size = 2
    ∧ (dinode smallSb smallImage 2).nlink = 1 := by
  decide +kernel

theorem smallImage_used : ∀ b, b < 16 →
    used smallSb smallImage b = decide (b < 6) := by
  decide +kernel

theorem rootImage_of_ne {b : Nat} (h2 : b ≠ 2) (h4 : b ≠ 4) :
    rootImage es b = smallImage b := by
  unfold rootImage putInode
  rw [update_of_ne h4]
  exact update_of_ne h2 ..

theorem rootImage_used {b : Nat} (hb : b < 16) :
    used smallSb (rootImage es) b = decide (b < 6) := by
  rw [← smallImage_used b hb]
  apply used_congr
  have h3 : bblock b smallSb = 3 := by
    show b / 4096 + 3 = 3
    omega
  rw [h3]
  exact rootImage_of_ne (by decide) (by decide)

section

variable (hes : SmallDir es)

include hes

/-- The inodes are those of `smallImage`, but for the size of the root. -/
theorem rootImage_dinode (hj : j < 8) : dinode smallSb (rootImage es) j
    = { dinode smallSb smallImage j with
        size := if j = 1 then 16 * es.length else (dinode smallSb smallImage j).size } := by
  have hb : iblock j smallSb ≠ 4 := by
    show j / 8 + 2 ≠ 4
    omega
  have hput : dinode smallSb (rootImage es) j = dinode smallSb (putInode smallSb smallImage
      rootIno { dinode smallSb smallImage rootIno with size := 16 * es.length }) j := by
    unfold rootImage
    conv_lhs => unfold dinode
    rw [update_of_ne hb]
    rfl
  rw [hput]
  split
  next h1 =>
    subst h1
    have hfew := hes.few
    have hsize : 16 * es.length < 4294967296 := by omega
    exact dinode_putInode { getDInode_ok _ _ with size := hsize }
  next h1 => exact dinode_putInode_of_ne h1

theorem rootImage_slot (hj : j < 8) : (onDisk smallSb (rootImage es) j).slot k
      = if k = 0 ∧ (j = 1 ∨ j = 2) then j + 3 else 0 := by
  obtain ⟨-, haddrs⟩ := smallImage_inodes j hj
  unfold onDisk Img.slot
  rw [rootImage_dinode hes hj]
  dsimp only
  by_cases hk : k ≤ ndirect
  · rw [if_pos hk, haddrs k hk]
  · have h0 : (dinode smallSb smallImage j).addrs ndirect = 0 := by
      rw [haddrs ndirect (Nat.le_refl _)]
      exact if_neg (fun h => absurd h.1 (by decide))
    rw [if_neg hk, if_pos h0, if_neg (fun h => hk (by omega))]

theorem rootImage_holds {b : Nat}
    (h : Holds smallSb (rootImage es) (dinode smallSb (rootImage es)) i k b) :
    (i = 1 ∨ i = 2) ∧ k = 0 ∧ b = i + 3 := by
  have hs : (onDisk smallSb (rootImage es) i).slot k = b := h.slot
  rw [rootImage_slot hes h.alloc.1] at hs
  split at hs
  next hki => exact ⟨hki.2, hki.1, hs.symm⟩
  next => exact absurd hs.symm h.ne_zero

theorem rootImage_allocated :
    Allocated smallSb (dinode smallSb (rootImage es)) j ↔ j = 1 ∨ j = 2 := by
  constructor
  · intro ⟨hj, htype⟩
    rw [rootImage_dinode hes hj] at htype
    exact (smallImage_inodes j hj).1.mp htype
  · intro hj
    have hlt : j < 8 := by omega
    refine ⟨hlt, ?_⟩
    rw [rootImage_dinode hes hlt]
    exact (smallImage_inodes j hlt).1.mpr hj

theorem rootImage_root :
    view smallSb (rootImage es) rootIno = some (tDir, dirBytes es) := by
  have hfew := hes.few
  have hdinode := rootImage_dinode hes (j := 1) (by decide)
  have hsz : (onDisk smallSb (rootImage es) rootIno).d.size = 16 * es.length :=
    congrArg DInode.size hdinode
  rw [view_of_allocated ((rootImage_allocated hes (j := rootIno)).mpr (Or.inl rfl)),
    show (dinode smallSb (rootImage es) rootIno).type = tDir from
      (congrArg DInode.type hdinode).trans smallImage_root.1]
  congr 2
  refine list_eq_of_getD ?_ fun o ho => ?_
  · rw [Img.length_content, hsz, length_dirBytes hes.names]
  rw [Img.length_content, hsz] at ho
  have hslot : (onDisk smallSb (rootImage es) rootIno).slot (slotOf (o / bsize)) = 4 := by
    have hdiv : o / bsize = 0 := by
      show o / 512 = 0
      omega
    rw [hdiv, rootImage_slot hes (by decide)]
    rfl
  have hmod : o % bsize = o := by
    show o % 512 = o
    omega
  have hblock : (onDisk smallSb (rootImage es) rootIno).disk 4
      = Bytes.zero.blit 0 (dirBytes es) := by
    show rootImage es 4 = _
    exact update_self ..
  rw [Img.getD_content (by omega), Img.byte_of_mapped (by omega), hslot, hmod, hblock,
    Bytes.get_blit, length_dirBytes hes.names,
    if_pos ⟨by show o < 512; omega, by omega, by omega⟩, Nat.sub_zero]

/-- The root is its only directory. -/
theorem rootImage_dir (hv : view smallSb (rootImage es) j = some (tDir, bytes)) :
    bytes = dirBytes es := by
  have halloc := isSome_view.mp (by rw [hv]; rfl)
  rcases (rootImage_allocated hes).mp halloc with rfl | rfl
  · rw [show (1 : Nat) = rootIno from rfl, rootImage_root hes] at hv
    cases hv
    rfl
  · rw [view_of_allocated halloc, rootImage_dinode hes (by decide), smallImage_root.2.2.2.1]
      at hv
    cases hv

theorem rootImage_inum (hk : 16 * k < (dirBytes es).length) :
    ∃ e ∈ es, dirent (dirBytes es) k = mkDirent e.1 (paddedName e.2)
      ∧ entryInum (dirBytes es) k = e.1 := by
  rw [length_dirBytes hes.names] at hk
  have he := getElem?_eq_getElem (show k < es.length by omega)
  have hmem := mem_of_getElem? he
  have hd := dirent_dirBytes hes.names he []
  rw [append_nil] at hd
  refine ⟨_, hmem, hd, ?_⟩
  unfold entryInum
  rw [hd]
  exact direntInum_mkDirent (by have := hes.inums _ hmem; omega) _

theorem rootImage_ok : Image smallSb (rootImage es) := by
  have hfew := hes.few
  refine ⟨⟨by decide, by decide, ?_, ?_, by decide, by decide⟩, ?_, ?_, ?_⟩
  · intro i hi
    have hi : i < 8 := hi
    show i / 8 + 2 < 3
    omega
  · intro b hb
    have hb : b < 16 := hb
    show b / 4096 + 3 < 4
    omega
  · refine ⟨fun {i k b} hh => ?_, fun {i k b} hh => ?_, fun {i k j l b} hh hh' => ?_,
      fun b hb => ?_⟩
    · obtain ⟨hi, -, rfl⟩ := rootImage_holds hes hh
      show 4 ≤ i + 3 ∧ i + 3 < 16
      omega
    · obtain ⟨hi, -, rfl⟩ := rootImage_holds hes hh
      rw [rootImage_used (by omega)]
      exact decide_eq_true (by omega)
    · obtain ⟨-, rfl, rfl⟩ := rootImage_holds hes hh
      obtain ⟨-, rfl, he⟩ := rootImage_holds hes hh'
      exact ⟨by omega, rfl⟩
    · have hb : b < 4 := hb
      rw [rootImage_used (by omega)]
      exact decide_eq_true (by omega)
  · intro j hj o ho
    have hj2 := (rootImage_allocated hes).mp hj
    have ho : o < (dinode smallSb (rootImage es) j).size := ho
    rw [rootImage_dinode hes hj.1] at ho
    have hlt : o < 512 := by
      rcases hj2 with rfl | rfl
      · exact Nat.lt_of_lt_of_le ho (by show 16 * es.length ≤ 512; omega)
      · exact Nat.lt_trans ho (by rw [if_neg (by decide), smallImage_root.2.2.2.2.1]; decide)
    have hdiv : o / bsize = 0 := by
      show o / 512 = 0
      omega
    rw [hdiv, rootImage_slot hes hj.1, if_pos ⟨rfl, hj2⟩]
    omega
  · refine ⟨⟨_, rootImage_root hes⟩, fun {j bytes} hv => ?_, fun {j bytes} hv k hk h0 => ?_⟩
    · rw [rootImage_dir hes hv, length_dirBytes hes.names]
      omega
    · cases rootImage_dir hes hv
      obtain ⟨e, he, -, hinum⟩ := rootImage_inum hes hk
      rw [isSome_view, rootImage_allocated hes]
      rw [show direntInum _ = e.1 from hinum]
      exact hes.inums e he

end

-- ==== a root directory with one name

/-- The root directory of `smallImage`, its file called `name`. -/
def rootBytes (name : List UInt8) : List UInt8 :=
  mkDirent rootIno (paddedName [46]) ++ mkDirent rootIno (paddedName [46, 46])
    ++ mkDirent 2 (paddedName name)

def namedImage (name : List UInt8) : Disk :=
  update smallImage 4 (Bytes.zero.blit 0 (rootBytes name))

def namedEntries (name : List UInt8) : List (Nat × List UInt8) :=
  [(rootIno, [46]), (rootIno, [46, 46]), (2, name)]

theorem namedEntries_ok (h : name.length ≤ dirsiz) : SmallDir (namedEntries name) := by
  refine ⟨Nat.le_of_ble_eq_true rfl, ?_, ?_⟩
  · simpa [namedEntries, dirsiz] using h
  · simp [namedEntries, rootIno]

theorem dirBytes_named (name : List UInt8) :
    dirBytes (namedEntries name) = rootBytes name := by
  simp [dirBytes, namedEntries, rootBytes]

theorem namedImage_eq (name : List UInt8) :
    namedImage name = rootImage (namedEntries name) := by
  have hsame : putInode smallSb smallImage rootIno
      { dinode smallSb smallImage rootIno with size := 48 } = smallImage := by
    refine update_eq_self_iff.mpr (Bytes.ext ?_)
    decide +kernel
  unfold namedImage rootImage
  rw [dirBytes_named]
  exact congrArg (update · 4 _) hsame.symm

/-- A disk with one file, as mkfs makes it. -/
theorem namedImage_ok (h : name.length ≤ dirsiz) : Image smallSb (namedImage name) := by
  rw [namedImage_eq]
  exact rootImage_ok (namedEntries_ok h)

theorem namedImage_dir (h : name.length ≤ dirsiz)
    (hv : view smallSb (namedImage name) j = some (tDir, bytes)) :
    bytes = rootBytes name := by
  rw [namedImage_eq] at hv
  rw [rootImage_dir (namedEntries_ok h) hv, dirBytes_named]

end Xv6FsServer.Fs
