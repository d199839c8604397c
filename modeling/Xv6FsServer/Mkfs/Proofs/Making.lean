/-
The image as mkfs goes along.

`Sealed s N`: with its bitmap in place the image would be an exact account of
the files `N`, each with the blocks of its bytes and no others, and zeros
behind its end. `ialloc` adds an empty file, `iappend` adds bytes to one, and
from these two the files come out one after the other: after the inputs `fs`
the image has the root directory with their entries (`rootBytes`) and each of
them in the inode two behind its place in the list.
-/
import Xv6FsServer.Mkfs.Proofs.Appending

namespace Xv6FsServer.Mkfs

open Lib Fs Function List Meets

variable {s t : Mk} {N : Nat → Option Node} {i : Nat} {P : Prop}
variable {d : DInode} {disk disk' : Disk} {fs : List File}

-- ==== the invariant

/-- The blocks are those of the bytes, and behind the end there are zeros. -/
structure Tidy (x : Img) : Prop where
  full : Full x x.d.size
  clear : ∀ o, x.d.size ≤ o → x.byte o = 0

structure Sealed (s : Mk) (N : Nat → Option Node) : Prop where
  ready : Ready s
  account : Exact sb s.seal
  nodes : nodes sb s.seal = N
  super : s.disk 1 = putSuperblock sb
  tidy : ∀ j, Allocated sb (dinode sb s.seal) j → Tidy (onDisk sb s.seal j)

-- ==== the inodes

theorem iblock_ne (hi : i < ninodes) : iblock i sb ≠ sb.bmapstart :=
  Nat.ne_of_lt (iblock_lt hi)

theorem iblock_taken (hr : Ready s) (hi : i < ninodes) : iblock i sb < s.freeblock := by
  have h1 := iblock_lt hi
  have h2 := hr.low
  have hmeta : nmeta = 59 := rfl
  have hbmap : sb.bmapstart = 58 := rfl
  omega

theorem rinode_spec {Q : DInode → Mk → Prop} (hr : Ready s) (hi : i < ninodes)
    (h : Q (dinode sb s.seal i) s) : Safe (fun _ => P) (rinode i) s Q := by
  have hlt := iblock_taken hr hi
  have hhigh := hr.high
  apply Meets.bind
  refine rsect_spec hr.sectors (fun hle => by omega) fun _ => ?_
  apply ret
  unfold dinode at h
  rw [seal_of_ne (iblock_ne hi)] at h
  exact h

theorem winode_spec {Q : Unit → Mk → Prop} (hr : Ready s) (hi : i < ninodes)
    (h : ∀ t : Mk, Ready t → t.seal = putInode sb s.seal i d → t.disk 1 = s.disk 1 →
      t.freeinode = s.freeinode → t.freeblock = s.freeblock → Q () t) :
    Safe (fun _ => P) (winode i d) s Q := by
  have hlt := iblock_taken hr hi
  have hhigh := hr.high
  apply Meets.bind
  refine rsect_spec hr.sectors (fun hle => by omega) fun _ => ?_
  apply Meets.change
  refine h (s.put _ _) (hr.put hlt _) ?_ ?_ rfl rfl
  · unfold putInode
    rw [seal_write (iblock_ne hi), seal_of_ne (iblock_ne hi)]
    rfl
  · exact put_of_ne (layout.super.2 i) _

-- ==== ialloc

/-- An inode without bytes has no blocks. -/
theorem tidy_empty (hd : ∀ k, d.addrs k = 0)
    (hsize : d.size = 0) : Tidy ⟨disk, d⟩ := by
  refine ⟨⟨fun bn _ => ?_, ?_⟩, fun o _ => ?_⟩
  · rw [slot_empty hd]
    dsimp only
    rw [hsize]
    exact ⟨fun h => absurd rfl h, fun h => by omega⟩
  · dsimp only
    rw [hd, hsize]
    exact ⟨fun h => absurd rfl h, fun h => by omega⟩
  · unfold Img.byte
    rw [slot_empty hd, if_pos rfl]

/-- Writing an inode leaves the blocks and bytes of a file. -/
theorem Tidy.of_same (h : Tidy ⟨disk, d⟩)
    (hslot : ∀ k, (Img.mk disk' d).slot k = (Img.mk disk d).slot k)
    (hbyte : (Img.mk disk' d).byte = (Img.mk disk d).byte) : Tidy ⟨disk', d⟩ := by
  refine ⟨h.full.congr hslot, fun o ho => ?_⟩
  rw [hbyte]
  exact h.clear o ho

theorem Consistent.byte_same {sb : Superblock}
    {tab : Nat → DInode} {j : Nat} (h : Consistent sb disk tab) (hj : Allocated sb tab j)
    (hdata : ∀ c, dataStart sb ≤ c → disk' c = disk c) :
    (Img.mk disk' (tab j)).byte = (Img.mk disk (tab j)).byte :=
  Img.byte_congr (fun k _ => h.slot_same hj hdata k)
    fun _ hk h0 => hdata _ (h.area ⟨hj, hk, rfl, h0⟩).1

theorem ialloc_spec (h : Sealed s N) (hi : s.freeinode < ninodes)
    (hfree : N s.freeinode = none) {type : Nat} (htype : type ≠ 0) (hlt : type < 65536) :
    Safe (fun _ => P) (ialloc type) s fun r t => r = s.freeinode
      ∧ t.freeinode = s.freeinode + 1 ∧ t.freeblock = s.freeblock
      ∧ Sealed t (update N s.freeinode (some ⟨type, 1, []⟩)) := by
  have hnone : (dinode sb s.seal s.freeinode).type = 0 := by
    rw [← h.nodes, nodes_eq_none] at hfree
    by_contra hne
    exact hfree ⟨hi, hne⟩
  generalize hd : { DInode.fresh type with nlink := 1 } = d
  have hdtype : d.type = type := by rw [← hd]; rfl
  have hdlink : d.nlink = 1 := by rw [← hd]
  have haddrs : ∀ k, d.addrs k = 0 := by
    intro k
    rw [← hd]
    rfl
  have hsize : d.size = 0 := by rw [← hd]; rfl
  have hok : d.Ok := by
    have hfresh := DInode.fresh_ok hlt
    rw [← hd]
    exact ⟨hfresh.type, hfresh.major, hfresh.minor, by show 1 < 65536; omega,
      hfresh.size, hfresh.addrs, hfresh.past⟩
  obtain ⟨hexact, hnodes⟩ := h.account.putNew hi hnone hok (by rw [hdtype]; exact htype)
    haddrs hsize
  apply get_bind
  apply modify_bind
  apply Meets.bind
  rw [hd]
  have hready : Ready { s with freeinode := s.freeinode + 1 } :=
    ⟨h.ready.sectors, h.ready.low, h.ready.high, h.ready.zero⟩
  refine winode_spec hready hi fun t hr hseal hsuper hino hblk => ?_
  apply ret
  have hseal : t.seal = putInode sb s.seal s.freeinode d := hseal
  refine ⟨rfl, hino, hblk, hr, ?_, ?_, hsuper.trans h.super, fun j hj => ?_⟩
  · rw [hseal]
    exact hexact
  · rw [hseal, hnodes, h.nodes, hdtype, hdlink]
  · rw [hseal] at hj ⊢
    unfold onDisk
    rw [dinode_putInode_eq hok] at hj ⊢
    by_cases hji : j = s.freeinode
    · rw [hji, update_self]
      exact tidy_empty haddrs hsize
    · unfold Allocated at hj
      rw [update_of_ne hji] at hj ⊢
      have hdata : ∀ c, dataStart sb ≤ c →
          putInode sb s.seal s.freeinode d c = s.seal c := by
        intro c hc
        have := layout.bmapstart_lt
        exact layout.putInode_behind hi (by omega)
      exact (h.tidy j hj).of_same (h.account.owns.slot_same hj hdata)
        (Consistent.byte_same h.account.owns hj hdata)

-- ==== iappend

theorem overlay_end (bs src : List UInt8) : overlay bs bs.length src = bs ++ src := by
  unfold overlay
  rw [take_length, drop_of_length_le (by omega), append_nil]

section

variable {n : Node} {p : List UInt8}

/-- A file of `N` is one of the disk. -/
theorem Sealed.file (h : Sealed s N) (hi : N i = some n) :
    Allocated sb (dinode sb s.seal) i ∧ n = nodeOf s.seal (dinode sb s.seal i) := by
  rw [← h.nodes] at hi
  exact nodes_eq_some hi

theorem Sealed.size (h : Sealed s N) (hi : N i = some n) :
    (dinode sb s.seal i).size = n.bytes.length := by
  obtain ⟨-, hn⟩ := h.file hi
  rw [hn]
  exact (Img.length_content ⟨s.seal, dinode sb s.seal i⟩).symm

/-- The tidy files after an append and with the inode written back. -/
theorem Appended.tidy {d' : DInode} (h : Sealed s N)
    (hi : Allocated sb (dinode sb s.seal) i) {off : Nat}
    (hoff : off = (dinode sb s.seal i).size)
    (happ : Appended (dinode sb s.seal) i s (dinode sb s.seal i) off p d t)
    (hmax : off + p.length ≤ maxFile * bsize)
    (hd : d' = { d with size := off + p.length })
    (hrew : Kfs.Rewrites sb s.seal i ⟨putInode sb t.seal i d', d'⟩ n)
    (j : Nat) (hj : Allocated sb (dinode sb (putInode sb t.seal i d')) j) :
    Tidy (onDisk sb (putInode sb t.seal i d') j) := by
  have hx := Kfs.isFile_onDisk h.account hi
  have htouch := happ.laid.spends.touch.trans hx (happ.laid.flushed h.account hi hmax hd)
  have haddrs : d'.addrs = d.addrs := by rw [hd]
  by_cases hji : j = i
  · unfold onDisk
    rw [hji, hrew.flushed]
    have hsize : d'.size = off + p.length := by rw [hd]
    have hy := hx.touch happ.laid.spends.touch
    refine ⟨?_, fun o ho => ?_⟩
    · rw [hsize]
      exact happ.full.congr (hy.slot_putInode haddrs)
    · have ho : off + p.length ≤ o := hsize ▸ ho
      rw [(hy.byte_putInode haddrs o).2, happ.byte o, if_neg (by omega)]
      exact (h.tidy i hi).clear o (by show (dinode sb s.seal i).size ≤ o; omega)
  · have hold := hrew.others j hj.1 hji
    have hjold : Allocated sb (dinode sb s.seal) j := by
      unfold Allocated at hj ⊢
      rw [← hold]
      exact hj
    unfold onDisk
    rw [hold]
    exact (h.tidy j hjold).of_same (htouch.other_slot hx hjold hji)
      (htouch.other_byte hx hjold hji)

theorem iappend_spec (h : Sealed s N) (hi : N i = some n) (hp : 0 < p.length)
    (hP : ¬ P → n.bytes.length + p.length ≤ maxFile * bsize
      ∧ s.freeblock + blocksFor (n.bytes.length + p.length)
        ≤ fsSize + blocksFor n.bytes.length) :
    Safe (fun _ => P) (iappend i p) s fun _ t => t.freeinode = s.freeinode
      ∧ t.freeblock + blocksFor n.bytes.length
        = s.freeblock + blocksFor (n.bytes.length + p.length)
      ∧ Sealed t (update N i (some { n with bytes := n.bytes ++ p })) := by
  obtain ⟨halloc, hn⟩ := h.file hi
  have hsize := h.size hi
  have hlt : i < ninodes := halloc.1
  have hx := Kfs.isFile_onDisk h.account halloc
  have hfull := (h.tidy i halloc).full
  apply Meets.bind
  apply rinode_spec h.ready hlt
  apply Meets.bind
  have hfull : Full ⟨s.seal, dinode sb s.seal i⟩ (dinode sb s.seal i).size := hfull
  rw [← hsize] at hP
  refine (iappendLoop_spec (P := P) _ h.ready hx hfull (Nat.le_refl _) hP).mono
    fun r t ht => ?_
  obtain ⟨hoff, happ⟩ := ht
  -- the last byte of the range has a block
  have hmax : (dinode sb s.seal i).size + p.length ≤ maxFile * bsize := by
    have hlast := (happ.laid.bytes ((dinode sb s.seal i).size + p.length - 1)
      (Or.inr (by omega))).1
    have hlt := slotOf_lt_of_slot hlast
    have hb : bsize = 512 := rfl
    rw [hb] at hlt ⊢
    omega
  generalize hd : { r.2 with size := r.1 } = d'
  have hd : d' = { r.2 with size := (dinode sb s.seal i).size + p.length } := by
    rw [← hd, hoff]
  have hrew := happ.laid.beyond h.account halloc (Nat.le_refl _) (by omega) hmax hd
  refine winode_spec happ.ready hlt fun u hr hseal hsuper hino hblk => ?_
  refine ⟨hino.trans happ.freeinode, ?_, hr, ?_, ?_, ?_, fun j hj => ?_⟩
  · rw [hblk, ← hsize]
    exact happ.freeblock
  · rw [hseal]
    exact hrew.account
  · have hover : overlay (onDisk sb s.seal i).content (dinode sb s.seal i).size p
        = (onDisk sb s.seal i).content ++ p := by
      have hend := overlay_end (onDisk sb s.seal i).content p
      rw [Img.length_content] at hend
      exact hend
    rw [hseal, hrew.nodes, h.nodes, hover, hn]
    rfl
  · rw [hsuper]
    have hlow : t.seal 1 = s.seal 1 := happ.laid.spends.low 1 layout.super.1
    rw [seal_of_ne (by decide), seal_of_ne (by decide)] at hlow
    exact hlow.trans h.super
  · rw [hseal] at hj ⊢
    exact happ.tidy h halloc rfl hmax hd hrew j hj

theorem appendAll_spec (cs : List (List UInt8)) (h : Sealed s N) (hi : N i = some n)
    (hcs : ∀ c ∈ cs, 0 < c.length)
    (hP : ¬ P → n.bytes.length + cs.flatten.length ≤ maxFile * bsize
      ∧ s.freeblock + blocksFor (n.bytes.length + cs.flatten.length)
        ≤ fsSize + blocksFor n.bytes.length) :
    Safe (fun _ => P) (appendAll i cs) s fun _ t => t.freeinode = s.freeinode
      ∧ t.freeblock + blocksFor n.bytes.length
        = s.freeblock + blocksFor (n.bytes.length + cs.flatten.length)
      ∧ Sealed t (update N i (some { n with bytes := n.bytes ++ cs.flatten })) := by
  induction cs generalizing s N n with
  | nil =>
    apply ret
    refine ⟨rfl, rfl, ?_⟩
    rw [flatten_nil, append_nil, update_eq_self_iff.mpr hi.symm]
    exact h
  | cons c cs ih =>
    have hlen : (c :: cs).flatten.length = c.length + cs.flatten.length := by
      rw [flatten_cons, length_append]
    have hcat : (n.bytes ++ c).length = n.bytes.length + c.length := length_append
    rw [hlen] at hP ⊢
    have hmono := blocksFor_mono
      (show n.bytes.length + c.length ≤ n.bytes.length + (c.length + cs.flatten.length)
        by omega)
    refine (iappend_spec h hi (hcs c mem_cons_self) fun hno => ?_).seq
      fun _ t ht => ?_
    · have := hP hno
      omega
    · obtain ⟨hino, hblk, hmid⟩ := ht
      have hself : update N i (some { n with bytes := n.bytes ++ c }) i
          = some { n with bytes := n.bytes ++ c } := update_self ..
      refine (ih hmid hself (fun d hd => hcs d (mem_cons_of_mem _ hd))
        fun hno => ?_).mono fun _ u hu => ?_
      · have := hP hno
        dsimp only
        rw [hcat, Nat.add_assoc]
        omega
      · obtain ⟨hino', hblk', hend⟩ := hu
        dsimp only at hblk' hend
        rw [hcat, Nat.add_assoc] at hblk'
        rw [update_idem, append_assoc, ← flatten_cons] at hend
        exact ⟨hino'.trans hino, by omega, hend⟩

end

-- ==== the files

/-- The entries of the root directory: inode numbers and names. -/
def entries (fs : List File) : List (Nat × List UInt8) :=
  (rootIno, [46]) :: (rootIno, [46, 46]) :: fs.mapIdx fun k f => (k + 2, f.stored)

/-- The bytes of the root directory. -/
def directory (fs : List File) : List UInt8 :=
  (entries fs).flatMap fun e => entryBytes e.1 e.2

/-- The files of the image, with the root directory's bytes. -/
def nodesOf (root : List UInt8) (fs : List File) : Nat → Option Node
  | 0 => none
  | 1 => some ⟨tDir, 1, root⟩
  | k + 2 => fs[k]?.map fun f => ⟨tFile, 1, f.bytes⟩

/-- The blocks the image needs. -/
def spaceFor (fs : List File) : Nat :=
  nmeta + blocksFor (16 * (fs.length + 2))
    + (fs.map fun f => blocksFor f.bytes.length).sum

/-- The image after the inputs `fs`. -/
structure Made (s : Mk) (fs : List File) : Prop where
  image : Sealed s (nodesOf (directory fs) fs)
  freeinode : s.freeinode = fs.length + 2
  freeblock : s.freeblock = spaceFor fs

theorem length_stored (f : File) : f.stored.length ≤ dirsiz := by
  unfold File.stored
  rw [length_take]
  omega

theorem length_entryBytes {inum : Nat} {name : List UInt8} (h : name.length ≤ dirsiz) :
    (entryBytes inum name).length = 16 := by
  unfold entryBytes
  rw [length_mkDirent, length_paddedName h]
  rfl

theorem length_name {e : Nat × List UInt8} (he : e ∈ entries fs) :
    e.2.length ≤ dirsiz := by
  unfold entries at he
  rw [mem_cons, mem_cons, mem_mapIdx] at he
  rcases he with rfl | rfl | ⟨k, hk, rfl⟩
  · decide
  · decide
  · exact length_stored _

theorem length_directory (fs : List File) :
    (directory fs).length = 16 * (fs.length + 2) := by
  have hlen : (entries fs).length = fs.length + 2 := by
    unfold entries
    rw [length_cons, length_cons, length_mapIdx]
  rw [← hlen]
  exact length_dirBytes fun _ => length_name

theorem entries_concat (fs : List File) (f : File) :
    entries (fs ++ [f]) = entries fs ++ [(fs.length + 2, f.stored)] := by
  unfold entries
  rw [mapIdx_concat]
  rfl

theorem directory_concat (fs : List File) (f : File) :
    directory (fs ++ [f]) = directory fs ++ entryBytes (fs.length + 2) f.stored := by
  unfold directory
  rw [entries_concat, flatMap_append, flatMap_singleton]

/-- A new file and its entry. -/
theorem nodesOf_concat (fs : List File) (f : File) (root root' : List UInt8) :
    update (update (nodesOf root fs) (fs.length + 2) (some ⟨tFile, 1, f.bytes⟩)) rootIno
        (some ⟨tDir, 1, root'⟩)
      = nodesOf root' (fs ++ [f]) := by
  funext j
  match j with
  | 0 => rfl
  | 1 => exact update_self ..
  | k + 2 =>
    rw [update_of_ne (by unfold rootIno; omega)]
    by_cases hk : k = fs.length
    · rw [hk, update_self]
      show _ = (fs ++ [f])[fs.length]?.map _
      rw [getElem?_append_right (Nat.le_refl _), Nat.sub_self]
      rfl
    · rw [update_of_ne (by omega)]
      show fs[k]?.map _ = (fs ++ [f])[k]?.map _
      rcases Nat.lt_or_ge k fs.length with hlt | hge
      · rw [getElem?_append_left hlt]
      · rw [getElem?_eq_none hge, getElem?_eq_none (by simp; omega)]

theorem spaceFor_concat (fs : List File) (f : File) :
    spaceFor (fs ++ [f]) + blocksFor (16 * (fs.length + 2))
      = spaceFor fs + blocksFor (16 * (fs.length + 3)) + blocksFor f.bytes.length := by
  unfold spaceFor
  rw [map_append, sum_append, length_append]
  show nmeta + blocksFor (16 * (fs.length + 3)) + (_ + (blocksFor f.bytes.length + 0))
    + _ = _
  omega

/-- The files fit the image, and so do their names. -/
structure Fits (fs : List File) : Prop where
  names : ∀ f ∈ fs, 47 ∉ f.name
  sizes : ∀ f ∈ fs, f.bytes.length ≤ maxFile * bsize
  space : spaceFor fs ≤ fsSize

theorem addFile_spec {f : File} (h : Made s fs)
    (hlen : fs.length + 2 < ninodes) (hP : ¬ P → Fits (fs ++ [f])) :
    Safe (fun _ => P) (addFile f) s fun _ t => Made t (fs ++ [f]) := by
  have hspace := spaceFor_concat fs f
  have hdir := length_directory fs
  have hentry : (entryBytes (fs.length + 2) f.stored).length = 16 :=
    length_entryBytes (length_stored f)
  have hzero : blocksFor 0 = 0 := by decide
  unfold addFile
  split
  next hslash =>
    apply fault
    by_contra hno
    exact (hP hno).names f (by simp) hslash
  next hslash =>
    apply Meets.bind
    have hfree : nodesOf (directory fs) fs s.freeinode = none := by
      rw [h.freeinode]
      show fs[fs.length]?.map _ = none
      rw [getElem?_eq_none (Nat.le_refl _)]
      rfl
    refine (ialloc_spec (P := P) h.image (by rw [h.freeinode]; exact hlen) hfree
      (show tFile ≠ 0 by decide) (by decide)).mono fun inum t ht => ?_
    obtain ⟨hr, hino, hblk, himg⟩ := ht
    rw [h.freeinode] at hr hino himg
    subst hr
    have hroot : update (nodesOf (directory fs) fs) (fs.length + 2)
        (some ⟨tFile, 1, []⟩) rootIno = some ⟨tDir, 1, directory fs⟩ := by
      rw [update_of_ne (by unfold rootIno; omega)]
      rfl
    refine (iappend_spec (P := P) himg hroot (by omega) fun hno => ?_).seq
      fun _ u hu => ?_
    · have hfine := (hP hno).space
      have hmax : maxFile * bsize = 71680 := rfl
      have hninodes : ninodes = 200 := rfl
      dsimp only
      rw [hdir, hentry, hblk, h.freeblock,
        show 16 * (fs.length + 2) + 16 = 16 * (fs.length + 3) by omega]
      omega
    · obtain ⟨hino', hblk', himg'⟩ := hu
      dsimp only at hblk' himg'
      rw [hdir, hentry, hblk, h.freeblock,
        show 16 * (fs.length + 2) + 16 = 16 * (fs.length + 3) by omega] at hblk'
      rw [← directory_concat] at himg'
      have hself : update (update (nodesOf (directory fs) fs) (fs.length + 2)
          (some ⟨tFile, 1, []⟩)) rootIno (some ⟨tDir, 1, directory (fs ++ [f])⟩)
          (fs.length + 2) = some ⟨tFile, 1, []⟩ := by
        rw [update_of_ne (by unfold rootIno; omega), update_self]
      refine (appendAll_spec (P := P) f.chunks himg' hself
        (fun c hc => (f.chunks_ok c hc).1) fun hno => ?_).mono fun _ v hv => ?_
      · have hfine := hP hno
        have h1 := hfine.sizes f (by simp)
        have h2 := hfine.space
        show 0 + f.bytes.length ≤ _ ∧ _ + blocksFor (0 + f.bytes.length) ≤ _ + blocksFor 0
        rw [Nat.zero_add]
        omega
      · obtain ⟨hino'', hblk'', himg''⟩ := hv
        have hblk'' : v.freeblock + blocksFor 0
            = u.freeblock + blocksFor (0 + f.bytes.length) := hblk''
        rw [Nat.zero_add] at hblk''
        refine ⟨?_, ?_, by omega⟩
        · rw [update_comm (by unfold rootIno; omega), update_idem] at himg''
          rw [← nodesOf_concat fs f (directory fs)]
          exact himg''
        · rw [length_append, hino'', hino', hino]
          rfl

theorem Fits.of_append {gs : List File} (h : Fits (fs ++ gs)) : Fits fs := by
  refine ⟨fun f hf => h.names f (mem_append_left _ hf),
    fun f hf => h.sizes f (mem_append_left _ hf), ?_⟩
  have hspace := h.space
  have hmono := blocksFor_mono
    (show 16 * (fs.length + 2) ≤ 16 * ((fs ++ gs).length + 2) by
      rw [length_append]
      omega)
  unfold spaceFor at hspace ⊢
  rw [map_append, sum_append] at hspace
  omega

theorem addFiles_spec (gs : List File) (h : Made s fs)
    (hlen : fs.length + gs.length + 2 ≤ ninodes) (hP : ¬ P → Fits (fs ++ gs)) :
    Safe (fun _ => P) (addFiles gs) s fun _ t => Made t (fs ++ gs) := by
  induction gs generalizing s fs with
  | nil =>
    apply ret
    rw [append_nil]
    exact h
  | cons g gs ih =>
    rw [length_cons] at hlen
    rw [append_cons] at hP ⊢
    refine (addFile_spec h (by omega) fun hno => (hP hno).of_append).seq
      fun _ t ht => ?_
    refine ih ht ?_ hP
    rw [length_append, length_singleton]
    omega

-- ==== the root

/-- The image with its superblock and nothing else. -/
theorem sealed_start : Sealed (start.put 1 (putSuperblock sb)) fun _ => none := by
  have hseal : ∀ b, b ≠ 1 → b ≠ sb.bmapstart →
      (start.put 1 (putSuperblock sb)).seal b = Bytes.zero := by
    intro b h1 h2
    rw [seal_of_ne h2, put_of_ne h1]
    rfl
  have hfree : ∀ j, j < ninodes →
      (dinode sb (start.put 1 (putSuperblock sb)).seal j).type = 0 := by
    intro j hj
    unfold dinode
    rw [hseal _ (Ne.symm (layout.super.2 j)) (iblock_ne hj)]
    exact Bytes.le16_zero _
  have hnone : ∀ j, ¬ Allocated sb (dinode sb (start.put 1 (putSuperblock sb)).seal) j :=
    fun j hj => hj.2 (hfree j hj.1)
  have hready : Ready (start.put 1 (putSuperblock sb)) := by
    refine Ready.put ⟨rfl, Nat.le_refl _, by decide, fun _ _ _ => rfl⟩ (by decide) _
  have hlow : (start.put 1 (putSuperblock sb)).freeblock = dataStart sb := rfl
  refine ⟨hready, ⟨layout, ⟨fun hh => absurd hh.alloc (hnone _),
    fun hh => absurd hh.alloc (hnone _), fun hh => absurd hh.alloc (hnone _),
    fun b hb => ?_⟩, fun b hb hused => ?_, fun j hj => absurd hj (hnone j)⟩, ?_, ?_,
    fun j hj => absurd hj (hnone j)⟩
  · have hsize : dataStart sb < fsSize := by decide
    rw [used_seal hready.high (by omega), decide_eq_true_eq, hlow]
    exact hb
  · rw [used_seal hready.high hb, decide_eq_true_eq, hlow] at hused
    exact Or.inl hused
  · funext j
    exact nodes_eq_none.mpr (hnone j)
  · exact put_self ..

theorem makeRoot_spec :
    Safe (fun _ => P) makeRoot (start.put 1 (putSuperblock sb)) fun _ t => Made t [] := by
  generalize hdot : entryBytes rootIno [46] = dot
  generalize hdots : entryBytes rootIno [46, 46] = dots
  have hone : dot.length = 16 := by
    rw [← hdot]
    exact length_entryBytes (by decide)
  have htwo : dots.length = 16 := by
    rw [← hdots]
    exact length_entryBytes (by decide)
  have hmax : 16 + 16 ≤ maxFile * bsize := by decide
  have h0 : blocksFor 0 = 0 := by decide
  have h1 : blocksFor (0 + 16) = 1 := by decide
  have h1' : blocksFor 16 = 1 := by decide
  have h2 : blocksFor (16 + 16) = 1 := by decide
  have hsize : fsSize = 1000 := rfl
  refine (ialloc_spec (P := P) sealed_start (by decide) rfl (show tDir ≠ 0 by decide)
    (by decide)).seq fun inum t ⟨hr, hino, hblk, himg⟩ => ?_
  have hr : inum = rootIno := hr
  have hino : t.freeinode = 2 := hino
  have hblk : t.freeblock = 59 := hblk
  have himg : Sealed t (update (fun _ => none) rootIno (some ⟨tDir, 1, []⟩)) := himg
  rw [if_neg (fun hne => hne hr), hr, hdot, hdots]
  refine (iappend_spec (P := P) himg (update_self ..) (by omega) fun _ => ?_).seq
    fun _ u hu => ?_
  · show 0 + dot.length ≤ _ ∧ t.freeblock + blocksFor (0 + dot.length) ≤ fsSize + blocksFor 0
    rw [hone]
    omega
  · obtain ⟨hino', hblk', himg'⟩ := hu
    have hblk' : u.freeblock + blocksFor 0 = t.freeblock + blocksFor (0 + dot.length) :=
      hblk'
    rw [hone] at hblk'
    rw [update_idem] at himg'
    have himg' : Sealed u (update (fun _ => none) rootIno (some ⟨tDir, 1, dot⟩)) := himg'
    refine (iappend_spec (P := P) himg' (update_self ..) (by omega) fun _ => ?_).mono
      fun _ v hv => ?_
    · show dot.length + dots.length ≤ _
        ∧ u.freeblock + blocksFor (dot.length + dots.length) ≤ fsSize + blocksFor dot.length
      rw [hone, htwo]
      omega
    · obtain ⟨hino'', hblk'', himg''⟩ := hv
      have hblk'' : v.freeblock + blocksFor dot.length
          = u.freeblock + blocksFor (dot.length + dots.length) := hblk''
      rw [hone, htwo] at hblk''
      rw [update_idem] at himg''
      refine ⟨?_, by rw [hino'', hino', hino]; rfl, ?_⟩
      · have hdir : directory [] = dot ++ dots := by
          rw [← hdot, ← hdots]
          rfl
        have hnodes : nodesOf (directory []) []
            = update (fun _ => none) rootIno (some ⟨tDir, 1, dot ++ dots⟩) := by
          rw [hdir]
          funext j
          match j with
          | 0 => rfl
          | 1 => rfl
          | k + 2 => rfl
        rw [hnodes]
        exact himg''
      · have hspace : spaceFor [] = nmeta + blocksFor (16 + 16) + 0 := rfl
        have hmeta : nmeta = 59 := rfl
        omega

-- ==== main

/-- The root directory's inode with its size rounded up. -/
def rounded (d : DInode) : DInode := { d with size := (d.size / bsize + 1) * bsize }

theorem main_spec (fs : List File) (hlen : fs.length + 2 ≤ ninodes) (hP : ¬ P → Fits fs) :
    Safe (fun _ => P) (main fs) start fun _ t => t.freeinode = fs.length + 2
      ∧ ∃ s, Made s fs
        ∧ t.disk = putInode sb s.seal rootIno (rounded (dinode sb s.seal rootIno)) := by
  apply modify_bind
  apply Meets.bind
  refine makeRoot_spec.mono fun _ s hs => ?_
  refine (addFiles_spec (P := P) fs hs (by rw [length_nil]; omega) hP).seq
    fun _ t ht => ?_
  rw [nil_append] at ht
  have hready := ht.image.ready
  apply Meets.bind
  apply Meets.bind
  apply rinode_spec hready (by decide)
  refine winode_spec hready (by decide) fun u hr hseal _ hino _ => ?_
  apply get_bind
  have hhigh := hr.high
  have hsize : fsSize < bpb := by decide
  unfold balloc
  rw [if_neg (by omega)]
  apply Meets.change
  exact ⟨hino.trans ht.freeinode, t, ht, hseal⟩

end Xv6FsServer.Mkfs
