/-
What mkfs writes, the kernel and the server read.

The three programs have the format each in its own words. Here they meet in
`Img.content`: mkfs leaves a file whose content is that of the input
(`Made.file`), and the readers' own specifications say that on a mapped file
they return what is in it.
-/
import Xv6FsServer.Mkfs.Proofs.Image
import Xv6FsServer.Server.Proofs.Unbuffered

namespace Xv6FsServer.Mkfs

open Lib Fs Function

variable {s : Mk} {fs : List File} {k : Nat} {f : File}

-- ==== the files

/-- The input `k` is the file two behind. -/
theorem Made.file (h : Made s fs) (hlen : fs.length + 2 ≤ ninodes)
    (hf : fs[k]? = some f) :
    (onDisk sb s.finish (k + 2)).content = f.bytes
      ∧ (onDisk sb s.finish (k + 2)).Mapped := by
  have hnode : nodesOf (directory fs) fs (k + 2) = some ⟨tFile, 1, f.bytes⟩ := by
    show fs[k]?.map _ = _
    rw [hf]
    rfl
  obtain ⟨halloc, hn⟩ := h.image.file hnode
  obtain ⟨hroot, -⟩ := h.root
  have hne : k + 2 ≠ rootIno := by
    unfold rootIno
    omega
  have hdata : ∀ c, dataStart sb ≤ c → s.finish c = s.seal c := by
    intro c hc
    have := layout.bmapstart_lt
    exact layout.putInode_behind hroot.1 (by omega)
  have howns := h.image.account.owns
  unfold onDisk
  rw [h.dinode_finish hlen, update_of_ne hne]
  refine ⟨?_, fun o ho => ?_⟩
  · rw [howns.content_same halloc hdata]
    exact (congrArg Node.bytes hn).symm
  · rw [howns.slot_same halloc hdata]
    exact h.image.account.mapped _ halloc o ho

/-- The root directory gives the file for its stored name. -/
theorem Made.lookup_stored (h : Made s fs) (hlen : fs.length + 2 ≤ ninodes)
    (hnames : (storedNames fs).Nodup) (hf : fs[k]? = some f) :
    lookup (onDisk sb s.finish rootIno).content f.stored = some (k + 2) := by
  have he : (entries fs)[k + 2]? = some (k + 2, f.stored) := by
    unfold entries
    rw [List.getElem?_cons_succ, List.getElem?_cons_succ, List.getElem?_mapIdx, hf]
    rfl
  obtain ⟨hinum, hname⟩ := root_entry hlen he
  have hk : k < fs.length := (List.getElem?_eq_some_iff.mp hf).1
  have hlong : 16 * (fs.length + 2) ≤ (rootOf fs).length := by
    unfold rootOf
    rw [List.length_append, length_directory]
    omega
  have h0 : entryInum (rootOf fs) (k + 2) ≠ 0 := by
    rw [hinum]
    exact Nat.succ_ne_zero _
  rw [h.root_content hlen]
  cases hlook : lookup (rootOf fs) f.stored with
  | none => exact absurd hname (lookup_none hlook (by omega) h0)
  | some i =>
    obtain ⟨j, hj, hji, hi0, hjname⟩ := lookup_some hlook
    have hsame := (distinctNames_iff hlen).mpr hnames j (k + 2) hj (by omega)
      (by rw [hji]; exact hi0) h0 (hjname.trans hname.symm)
    rw [← hji, hsame, hinum]

-- ==== the readers

/-- Both readers, in any state in which they have the inode, return the bytes
of every range of the file. -/
structure Reads (disk : Disk) (i : Nat) (bytes : List UInt8) : Prop where
  size : (dinode sb disk i).size = bytes.length
  kernel : ∀ (ks : Kfs.KFs) (ip : Nat), ks.img ip = onDisk sb disk i →
    ∀ off n, off + n ≤ bytes.length →
      Ends (Kfs.readi ip off n) ks fun r u => r = some ((bytes.drop off).take n) ∧ u = ks
  server : ∀ (srv : Server.Srv) (H : List (Nat × Nat)) (ip : Nat),
    Server.BufOk srv H → H.length + 1 < Server.nbuf →
    srv.core.img ip = onDisk sb disk i → ∀ off n, off + n ≤ bytes.length →
      Ends (Server.ureadi ip off n) srv fun r u => r = some ((bytes.drop off).take n)
        ∧ u.core = srv.core

/-- Reading no bytes within a mapped file. -/
theorem ureadi_none {x : Img} (h : x.Mapped) {sb : Superblock} {off : Nat} :
    x.ureadi sb off 0 = (some [], x) := by
  have hsize := h.size_le
  have hsmall : maxFile * bsize < 4294967296 := by decide
  unfold Img.ureadi
  split
  next => rfl
  next =>
    rw [Nat.add_zero, Nat.mod_eq_of_lt (by omega), if_neg (by omega)]
    rfl

/-- A mapped file is read by both. -/
theorem reads_of_mapped {disk : Disk} {i : Nat} (h : (onDisk sb disk i).Mapped) :
    Reads disk i (onDisk sb disk i).content := by
  refine ⟨(Img.length_content (onDisk sb disk i)).symm, fun ks ip hip off n hn => ?_,
    fun srv H ip hbuf hheld hip off n hn => ?_⟩
  · rw [Img.length_content] at hn
    have hmapped : (ks.img ip).Mapped := hip ▸ h
    have hread := Kfs.readi_mapped hmapped (show off + n ≤ (ks.img ip).d.size by
      rw [hip]
      exact hn)
    rw [hip] at hread
    exact hread
  · rw [Img.length_content] at hn
    refine (Server.ureadi_spec hbuf hheld off n).mono fun r u hu => ?_
    obtain ⟨-, hr, hcore⟩ := hu
    have hpure : (srv.core.img ip).ureadi srv.sb off n
        = (some (((onDisk sb disk i).content.drop off).take n), srv.core.img ip) := by
      rw [hip]
      rcases Nat.eq_zero_or_pos n with rfl | hpos
      · rw [List.take_zero]
        exact ureadi_none h
      · exact Img.ureadi_mapped h hpos hn
    rw [hpure] at hr hcore
    exact ⟨hr, hcore.trans (Server.Core.setImg_img ..)⟩

/-- mkfs makes an image of files that fit and have no slash in their names, and
on every image that it makes of files that fit, a file is found under its
stored name and read as it was, by the kernel and by the server, when the names
stay apart as they are stored. -/
theorem stored_files_read (fs : List File) (hlen : fs.length ≤ ninodes - 2)
    (hsizes : ∀ f ∈ fs, f.bytes.length ≤ maxFile * bsize) (hspace : spaceFor fs ≤ fsSize)
    (hnames : (storedNames fs).Nodup) :
    ((∀ f ∈ fs, 47 ∉ f.name) → ∃ t, exec (main fs) start = (.ok (), t))
      ∧ ∀ t, exec (main fs) start = (.ok (), t) → ∀ f ∈ fs,
        ∃ i, lookup (onDisk sb t.disk rootIno).content f.stored = some i
          ∧ Reads t.disk i f.bytes := by
  have hninodes : ninodes = 200 := rfl
  have hlen : fs.length + 2 ≤ ninodes := by omega
  constructor
  · intro hslash
    obtain ⟨t, -, hrun, -⟩ := exists_made fs hlen ⟨hslash, hsizes, hspace⟩
    exact ⟨t, hrun⟩
  · intro t hrun f hf
    have hspec := main_spec (P := True) fs hlen (fun hno => absurd trivial hno)
    obtain ⟨-, s, hmade, hdisk⟩ := hspec.elim hrun
    obtain ⟨k, hk⟩ := List.getElem?_of_mem hf
    obtain ⟨hcont, hmapped⟩ := hmade.file hlen hk
    rw [hdisk]
    refine ⟨k + 2, hmade.lookup_stored hlen hnames hk, ?_⟩
    rw [← hcont]
    exact reads_of_mapped hmapped

theorem stored_files_read_twoFiles :
    ∃ t, exec (main twoFiles) start = (.ok (), t) ∧ ∀ f ∈ twoFiles,
      ∃ i, lookup (onDisk sb t.disk rootIno).content f.stored = some i
        ∧ Reads t.disk i f.bytes := by
  obtain ⟨hends, hread⟩ := stored_files_read twoFiles (by decide) (by decide +kernel)
    (by decide +kernel) (by decide)
  obtain ⟨t, hrun⟩ := hends (by decide)
  exact ⟨t, hrun, hread t hrun⟩

/-- Two names that become one: the second file is not the one that is found
under its name. -/
theorem twin_name_not_read :
    ([emptyFile [95, 97], oneByte [97]].map File.name).Nodup
      ∧ ∃ t, exec (main [emptyFile [95, 97], oneByte [97]]) start = (.ok (), t)
        ∧ lookup (onDisk sb t.disk rootIno).content (oneByte [97]).stored = some 2
        ∧ ¬ Reads t.disk 2 (oneByte [97]).bytes := by
  refine ⟨by decide, ?_⟩
  obtain ⟨t, s, hrun, hmade, -, hdisk⟩ :=
    exists_made [emptyFile [95, 97], oneByte [97]] (by decide)
      ⟨by decide, by decide, by decide⟩
  refine ⟨t, hrun, ?_, fun hreads => ?_⟩
  · rw [hdisk, hmade.root_content (by decide)]
    decide +kernel
  · have hfirst : [emptyFile [95, 97], oneByte [97]][0]? = some (emptyFile [95, 97]) := rfl
    obtain ⟨hcont, -⟩ := hmade.file (by decide) hfirst
    have hlen := Img.length_content (onDisk sb s.finish (0 + 2))
    have hsize := hreads.size
    rw [hcont] at hlen
    rw [hdisk] at hsize
    have hsame : (emptyFile [95, 97]).bytes.length = (oneByte [97]).bytes.length :=
      hlen.trans hsize
    cases hsame

end Xv6FsServer.Mkfs
