/-
The server's `namei`.

The loop holds one inode at a time, and a second one while it changes over.
With room for two in the inode cache it ends at the file the path leads to
in the directory tree (`nameiLoop_spec`), every component cut to 13 bytes.
Without room it may find nothing, but it never loses a reference, and it
leaves the files and the open descriptors' inodes as they are (`Settled`).
-/
import Xv6FsServer.Server.Proofs.Directories

namespace Xv6FsServer.Server

open Lib Fs Function Meets

variable {c c' c'' : Core} {s t : Srv} {K R : List Nat} {i j ip inum : Nat}
variable {ns : List (List UInt8)} {p : List UInt8}
variable {n path : List UInt8} {a : UInt8}

-- ==== what stays in place

/-- Only the inode cache may have changed, and in it neither the inodes
open through a descriptor nor those in `K`. -/
structure Settled (K : List Nat) (c c' : Core) : Prop where
  files : SameFiles c c'
  node : ∀ i, 0 < c.opens i ∨ i ∈ K → SameNode (c.inodes i) (c'.inodes i)

theorem Settled.refl (K : List Nat) (c : Core) : Settled K c c :=
  ⟨.refl c, fun _ _ => .refl _⟩

theorem SameFiles.opens (h : SameFiles c c') (i : Nat) : c'.opens i = c.opens i := by
  unfold Core.opens
  rw [h.fdInodes]

theorem Settled.trans (h : Settled K c c') (h' : Settled K c' c'') :
    Settled K c c'' := by
  refine ⟨h.files.trans h'.files, fun i hi => (h.node i hi).trans (h'.node i ?_)⟩
  rw [h.files.opens]
  exact hi

theorem CacheOk.perm {R' : List Nat} (h : CacheOk c R) (hp : R.Perm R') :
    CacheOk c R' where
  vol := h.vol
  dev := h.dev
  alloc := h.alloc
  refs := fun i hi => by rw [← hp.count_eq]; exact h.refs i hi
  held := fun i hi => h.held i (hp.mem_iff.mpr hi)
  fds := h.fds

/-- A slot with a descriptor or a pointer of the handler is in use. -/
theorem CacheOk.live_of (h : CacheOk c R) (hi : 0 < c.opens i ∨ i ∈ R) :
    (c.inodes i).Live := by
  rcases hi with hi | hi
  · obtain ⟨hlt, -⟩ := h.opens_valid hi
    refine h.live hlt ?_
    have := h.refs i hlt
    omega
  · exact h.held_live hi

theorem CacheOk.settled_get (h : CacheOk c R) (hK : K ⊆ R) (inum : Nat) :
    Settled K c (c.get inum).2 :=
  ⟨c.get_sameFiles inum, fun _ hi =>
    c.get_sameNode inum (h.live_of (hi.imp id fun hi => hK hi))⟩

theorem CacheOk.settled_lock (h : CacheOk c R)
    (hK : ∀ i ∈ K, (c.inodes i).valid = true) (ip : Nat) :
    Settled K c (c.lock ip) := by
  refine ⟨c.lock_sameFiles ip, fun i hi => c.lock_sameNode ip ?_⟩
  rcases hi with hi | hi
  · exact (h.opens_valid hi).2
  · exact hK i hi

theorem CacheOk.settled_put (h : CacheOk c (ip :: R)) (hK : K ⊆ R) :
    Settled K c (c.put ip) := by
  refine ⟨c.put_sameFiles ip, fun i hi => c.put_sameNode ip ?_⟩
  refine h.put.live_of (hi.imp (fun hi => ?_) fun hi => hK hi)
  rw [(c.put_sameFiles ip).opens]
  exact hi

/-- `uiput` of a reference that is held. -/
theorem uiput_settled {H : List (Nat × Nat)} (h : BufOk s H)
    (hc : CacheOk s.core (ip :: R)) (hK : K ⊆ R) :
    Ends (uiput ip) s fun _ t => BufOk t H ∧ CacheOk t.core R
      ∧ Settled K s.core t.core := by
  refine (uiput_spec h ip).mono fun _ t ht => ?_
  rw [ht.2]
  exact ⟨ht.1, hc.put, hc.settled_put hK⟩

theorem uilock_settled (h : BufOk s []) (hc : CacheOk s.core R) (hi : ip ∈ R)
    (hK : ∀ i ∈ K, (s.inodes i).valid = true) :
    Ends (uilock ip) s fun _ t => BufOk t [] ∧ CacheOk t.core R
      ∧ Loaded t.core ip (s.inodes ip).inum ∧ Settled K s.core t.core
      ∧ t.core = s.core.lock ip := by
  refine (uilock_spec h (by decide) (hc.held_live hi).2).mono fun _ t ht => ?_
  rw [ht.2]
  exact ⟨ht.1, (hc.lock hi).1, (hc.lock hi).2, hc.settled_lock hK ip, rfl⟩

theorem CacheOk.loaded_allocated (h : CacheOk c R) (hip : Loaded c ip inum) :
    Allocated c.sb (dinode c.sb c.disk) inum := by
  rw [← hip.inum]
  exact h.allocated hip.lt hip.live.1

theorem CacheOk.loaded_older (h : CacheOk c R) (hip : Loaded c ip inum) :
    Older (dinode c.sb c.disk inum) (c.inodes ip).d := by
  rw [← hip.inum]
  exact h.vol.older ip hip.lt hip.live hip.valid

/-- A loaded inode has the bytes of its file. -/
theorem CacheOk.content_loaded (h : CacheOk c R) (himg : Image c.sb c.disk)
    (hip : Loaded c ip inum) :
    view c.sb c.disk inum = some ((c.inodes ip).d.type, (c.img ip).content)
      ∧ (c.img ip).Mapped ∧ (c.img ip).content.length = (c.inodes ip).d.size := by
  have halloc := h.loaded_allocated hip
  have hold := h.loaded_older hip
  have hmap := himg.mapped inum halloc
  have hcontent : (c.img ip).content = (onDisk c.sb c.disk inum).content :=
    hold.content hmap
  refine ⟨?_, hold.mapped hmap, Img.length_content _⟩
  rw [view_of_allocated halloc, hold.type, hcontent]

/-- A loaded inode of a sound image that is a directory. -/
theorem CacheOk.isDir (h : CacheOk c R) (himg : Image c.sb c.disk)
    (hip : Loaded c ip inum) (htype : (c.inodes ip).d.type = tDir) :
    ∃ bytes, IsDir c ip bytes ∧ view c.sb c.disk inum = some (tDir, bytes) := by
  obtain ⟨hview, hmap, -⟩ := h.content_loaded himg hip
  rw [htype] at hview
  exact ⟨_, ⟨htype, hip.live.2, rfl, hmap, himg.files.whole hview⟩, hview⟩

theorem CacheOk.view_loaded (h : CacheOk c R) (hip : Loaded c ip inum) :
    ∃ bytes, view c.sb c.disk inum = some ((c.inodes ip).d.type, bytes) := by
  have hview := view_of_allocated (h.loaded_allocated hip)
  rw [(h.loaded_older hip).type] at hview
  exact ⟨_, hview⟩

theorem Core.get_none (h : (c.get inum).1 = none) : (c.get inum).2 = c := by
  have hcases := c.get_cases inum
  generalize c.get inum = g at h hcases
  cases hcases with
  | found => cases h
  | fresh => cases h
  | full => rfl

-- ==== room

/-- The cache has a place for the inode `j` while `i` is held. -/
def Core.Fits (c : Core) (i j : Nat) : Prop :=
  (insert j (insert i c.openInums)).card ≤ ninode

instance (c : Core) (i j : Nat) : Decidable (c.Fits i j) :=
  inferInstanceAs (Decidable (_ ≤ _))

theorem Core.Fits.root (h : c.Fits i j) : c.Fits i i := by
  refine Nat.le_trans (Finset.card_le_card ?_) h
  rw [Finset.insert_idem]
  exact Finset.subset_insert ..

theorem Settled.openInums (hst : Settled K c c') :
    c'.openInums = c.openInums := by
  refine openInums_congr hst.files.fdInodes fun f hf i hi => ?_
  exact (hst.node i (Or.inl (opens_pos hf hi))).inum

theorem CacheOk.get_fits (h : CacheOk c [ip]) (j : Nat) :
    (c.get j).1.isSome = true ↔ c.Fits (c.inodes ip).inum j := by
  rw [h.get_isSome, h.inUse, Finset.union_comm]
  rfl

theorem CacheOk.get_root (h : CacheOk c []) :
    (c.get rootIno).1.isSome = true ↔ c.Fits rootIno rootIno := by
  rw [h.get_isSome, h.inUse]
  unfold Core.Fits
  rw [Finset.insert_idem]
  simp

theorem Settled.fits (hst : Settled K c c') (i j : Nat) :
    c'.Fits i j ↔ c.Fits i j := by
  unfold Core.Fits
  rw [hst.openInums]

theorem Settled.view (hst : Settled K c c') :
    Fs.view c'.sb c'.disk = Fs.view c.sb c.disk := by
  rw [hst.files.sb, hst.files.disk]

theorem Settled.image (hst : Settled K c c') (h : Image c.sb c.disk) :
    Image c'.sb c'.disk := by
  rw [hst.files.sb, hst.files.disk]
  exact h

-- ==== namei

/-- The file that a path leads the server to from the file `i`: names are
cut to one byte less than they have on the disk, and a file that finds no
place in the cache counts as absent. -/
def Core.walk (c : Core) : Nat → List (List UInt8) → Option Nat
  | i, [] => some i
  | i, n :: ns =>
    match child (view c.sb c.disk) (dirsiz - 1) i n with
    | none => none
    | some j => if c.Fits i j then c.walk j ns else none

theorem Core.walk_none (h : child (view c.sb c.disk) (dirsiz - 1) i n = none) :
    c.walk i (n :: ns) = none := by
  unfold Core.walk
  rw [h]

theorem Core.walk_full
    (h : child (view c.sb c.disk) (dirsiz - 1) i n = some j) (hfit : ¬ c.Fits i j) :
    c.walk i (n :: ns) = none := by
  unfold Core.walk
  rw [h]
  exact if_neg hfit

theorem Core.walk_some
    (h : child (view c.sb c.disk) (dirsiz - 1) i n = some j) (hfit : c.Fits i j) :
    c.walk i (n :: ns) = c.walk j ns := by
  rw [Core.walk, h]
  exact if_pos hfit

theorem Settled.walk (hst : Settled K c c') (i : Nat) (ns : List (List UInt8)) :
    c'.walk i ns = c.walk i ns := by
  induction ns generalizing i with
  | nil => rfl
  | cons n ns ih =>
    unfold Core.walk
    rw [hst.view]
    cases child (Fs.view c.sb c.disk) (dirsiz - 1) i n with
    | none => rfl
    | some j =>
      dsimp only
      rw [ih j]
      exact if_congr (hst.fits i j) rfl rfl

/-- Where a walk from the file `i` ends: with a reference to the file the
path leads to, or with none. -/
def Walked (c : Core) (i : Nat) (p : List UInt8) (r : Option Nat) (c' : Core) :
    Prop :=
  match r with
  | some j => CacheOk c' [j]
      ∧ c.walk i (components p) = some (c'.inodes j).inum
  | none => CacheOk c' [] ∧ c.walk i (components p) = none

/-- The rest of a walk after a step. -/
theorem Walked.of_settled {c₁ : Core} {q : List UInt8} {r : Option Nat}
    (h : Walked c₁ j q r c') (hst : Settled [] c c₁)
    (hwalk : c.walk i (components p) = c.walk j (components q)) :
    Walked c i p r c' := by
  unfold Walked at h ⊢
  rw [hst.walk] at h
  rw [hwalk]
  exact h

theorem afterComponent_components (ha : a ≠ slash) :
    components (a :: p) = (a :: p).takeWhile (· != slash)
      :: components (afterComponent (a :: p)) := by
  have hskip : components (afterComponent (a :: p))
      = components ((a :: p).dropWhile (· != slash)) := components_skip _
  rw [hskip]
  exact components_cons ha

theorem length_afterComponent (ha : a ≠ slash) :
    (afterComponent (a :: p)).length ≤ p.length := by
  unfold afterComponent skipSlashes
  rw [List.dropWhile_cons, if_pos (bne_iff_ne.mpr ha)]
  exact Nat.le_trans (List.dropWhile_sublist _).length_le
    (List.dropWhile_sublist _).length_le

theorem head_skipSlashes (p : List UInt8) : (skipSlashes p).head? ≠ some slash := by
  intro h
  have hnot := List.head?_dropWhile_not (· == slash) p
  unfold skipSlashes at h
  rw [h] at hnot
  cases hnot

theorem mem_afterComponent (h : a ∈ afterComponent p) : a ∈ p :=
  (List.dropWhile_sublist _).subset ((List.dropWhile_sublist _).subset h)

theorem mem_component (h : a ∈ component p) : a ∈ p :=
  (List.takeWhile_sublist _).subset (List.mem_of_mem_take h)

theorem nameiLoop_spec (n : Nat) (hn : p.length ≤ n) (hhead : p.head? ≠ some slash)
    (hnul : ∀ a ∈ p, a ≠ 0) (h : BufOk s []) (hc : CacheOk s.core [ip])
    (himg : Image s.sb s.disk) :
    Ends (nameiLoop (n + 1) (some ip) p) s fun r t => BufOk t []
      ∧ Settled [] s.core t.core
      ∧ Walked s.core (s.inodes ip).inum p r t.core := by
  induction n generalizing p s ip with
  | zero =>
    cases List.eq_nil_of_length_eq_zero (Nat.le_zero.mp hn)
    exact ret ⟨h, .refl _ _, hc, rfl⟩
  | succ n ih =>
    cases p with
    | nil => exact ret ⟨h, .refl _ _, hc, rfl⟩
    | cons a p =>
      have ha : a ≠ slash := fun e => hhead (by rw [e]; rfl)
      unfold nameiLoop
      rw [if_neg (by simp)]
      refine (uilock_settled (K := []) h hc List.mem_cons_self (by simp)).seq
        fun _ t ⟨hbuf, hc1, hload, hst1, _⟩ => ?_
      have hview : view t.sb t.disk = view s.sb s.disk := hst1.view
      have himg1 : Image t.sb t.disk := hst1.image himg
      have hput : ∀ {u : Srv}, BufOk u [] → CacheOk u.core [ip] →
          Settled [] s.core u.core →
          s.core.walk (s.inodes ip).inum (components (a :: p)) = none →
          Ends (do uiput ip; pure none) u fun r t => BufOk t []
            ∧ Settled [] s.core t.core
            ∧ Walked s.core (s.inodes ip).inum (a :: p) r t.core := by
        intro u hu hcu hst hwalk
        refine (uiput_settled (K := []) hu hcu (by simp)).seq
          fun _ v ⟨hbuf, hcv, hst'⟩ => ?_
        exact ret ⟨hbuf, hst.trans hst', hcv, hwalk⟩
      apply get_bind
      split
      next htype =>
        -- a file on the way
        refine hput hbuf hc1 hst1 ?_
        obtain ⟨bytes, hfile⟩ := hc1.view_loaded hload
        rw [afterComponent_components ha]
        exact Core.walk_none (child_file (hview ▸ hfile) htype)
      next htype =>
        obtain ⟨bytes, hdir, hfile⟩ := hc1.isDir himg1 hload (not_not.mp htype)
        have hchild : child (view s.sb s.disk) (dirsiz - 1) (s.inodes ip).inum
            ((a :: p).takeWhile (· != slash))
            = lookup bytes (component (a :: p)) := child_dir (hview ▸ hfile)
        have hinum : (t.inodes ip).inum = (s.inodes ip).inum := hload.inum
        refine (dirlookup_spec hdir hbuf (by decide)
          fun x hx => hnul x (mem_component hx)).seq fun r u ⟨hbuf2, hu⟩ => ?_
        cases hl : lookup bytes (component (a :: p)) with
        | none =>
          rw [hl] at hu hchild
          obtain ⟨rfl, hcore2⟩ := hu
          rw [← hcore2] at hc1 hst1
          refine hput hbuf2 hc1 hst1 ?_
          rw [afterComponent_components ha]
          exact Core.walk_none hchild
        | some j =>
          rw [hl] at hu hchild
          obtain ⟨hr, hcore2⟩ := hu
          have hfits : (t.core.get j).1.isSome = true
              ↔ s.core.Fits (s.inodes ip).inum j := by
            rw [hc1.get_fits, hst1.fits]
            exact iff_of_eq (congrArg (s.core.Fits · j) hinum)
          have hst2 : Settled [] s.core u.core := by
            refine hst1.trans ?_
            rw [hcore2]
            exact hc1.settled_get (by simp) j
          cases hget : (t.core.get j).1 with
          | none =>
            -- the name is there, but the cache is full
            have hsame := t.core.get_none hget
            rw [hget] at hr
            subst hr
            rw [hsame] at hcore2
            refine hput hbuf2 (hcore2 ▸ hc1) hst2 ?_
            rw [afterComponent_components ha]
            refine Core.walk_full hchild fun hfit => ?_
            have h1 := hfits.mpr hfit
            rw [hget] at h1
            cases h1
          | some jp =>
            have halloc : Allocated t.sb (dinode t.sb t.disk) j :=
              isSome_view.mp (himg1.files.of_lookup hfile hl)
            obtain ⟨hc2, hjp⟩ : CacheOk u.core [jp, ip]
                ∧ (u.core.inodes jp).inum = j := by
              rw [hcore2]
              exact hc1.get halloc (Prod.ext hget rfl)
            rw [hget] at hr
            subst hr
            refine (uiput_settled (K := [jp]) hbuf2 (hc2.perm (.swap ..))
              (by simp)).seq fun _ v ⟨hbuf3, hc3, hst3⟩ => ?_
            have hjv : (v.inodes jp).inum = j :=
              (hst3.node jp (Or.inr (by simp))).inum.trans hjp
            have hst3 : Settled [] u.core v.core := ⟨hst3.files,
              fun i hi => hst3.node i (hi.imp_right (by simp))⟩
            have hst := hst2.trans hst3
            have hshort : (afterComponent (a :: p)).length ≤ n :=
              Nat.le_trans (length_afterComponent ha) (Nat.le_of_succ_le_succ hn)
            refine (ih hshort (head_skipSlashes _) (fun x hx =>
              hnul x (mem_afterComponent hx)) hbuf3 hc3
              (hst.image himg)).mono fun r x hx => ?_
            obtain ⟨hbuf4, hst4, hend⟩ := hx
            refine ⟨hbuf4, hst.trans hst4, ?_⟩
            rw [hjv] at hend
            refine hend.of_settled hst ?_
            rw [afterComponent_components ha]
            exact Core.walk_some hchild (hfits.mp (by rw [hget]; rfl))

/-- `namei`. It dereferences a null pointer when the root itself cannot be
had. -/
theorem namei_spec (hnul : ∀ a ∈ path, a ≠ 0) (h : BufOk s [])
    (hc : CacheOk s.core []) (himg : Image s.sb s.disk)
    (hroot : (s.core.get rootIno).1.isSome = true) :
    Ends (namei path) s fun r t => BufOk t [] ∧ Settled [] s.core t.core
      ∧ Walked s.core rootIno path r t.core := by
  obtain ⟨ip, hip⟩ := Option.isSome_iff_exists.mp hroot
  unfold namei
  refine (uiget_spec h rootIno).seq fun r t ⟨hbuf, hr, hcore⟩ => ?_
  have hst : Settled [] s.core t.core := by
    rw [hcore]
    exact hc.settled_get (by simp) rootIno
  obtain ⟨bytes, hfile⟩ := himg.files.root
  have halloc : Allocated s.sb (dinode s.sb s.disk) rootIno :=
    isSome_view.mp (by rw [hfile]; rfl)
  obtain ⟨hc1, hinum⟩ : CacheOk t.core [ip] ∧ (t.core.inodes ip).inum = rootIno := by
    rw [hcore]
    exact hc.get halloc (Prod.ext hip rfl)
  rw [hr, hip]
  refine (nameiLoop_spec path.length (p := skipSlashes path)
    (List.dropWhile_sublist _).length_le (head_skipSlashes path)
    (fun a ha => hnul a ((List.dropWhile_sublist _).subset ha)) hbuf hc1
    (hst.image himg)).mono fun r u hu => ?_
  obtain ⟨hbuf', hst', hend⟩ := hu
  refine ⟨hbuf', hst.trans hst', ?_⟩
  have hinum : (t.inodes ip).inum = rootIno := hinum
  rw [hinum] at hend
  refine hend.of_settled hst ?_
  rw [show components (skipSlashes path) = components path from components_skip path]

/-- `namei` when the root cannot be had: it comes back only if there is
nothing to look up. -/
theorem namei_rootless (h : BufOk s []) (hc : CacheOk s.core [])
    (hroot : ¬ s.core.Fits rootIno rootIno) :
    Leaves (fun _ => components path ≠ []) (namei path) s fun r t =>
      r = none ∧ components path = [] ∧ BufOk t [] ∧ t.core = s.core := by
  have hget : (s.core.get rootIno).1 = none := by
    by_contra hne
    exact hroot (hc.get_root.mp (Option.isSome_iff_ne_none.mpr hne))
  unfold namei
  rw [← show components (skipSlashes path) = components path from
    components_skip path]
  have hhead := head_skipSlashes path
  refine (uiget_spec h rootIno).lift.seq fun r t ⟨hbuf, hr, hcore⟩ => ?_
  rw [hget] at hr
  rw [s.core.get_none hget] at hcore
  subst hr
  cases hp : skipSlashes path with
  | nil => exact ret ⟨rfl, rfl, hbuf, hcore⟩
  | cons a p =>
    rw [hp] at hhead
    have ha : a ≠ slash := fun e => hhead (by rw [e]; rfl)
    refine fault ?_
    rw [afterComponent_components ha]
    exact List.cons_ne_nil _ _

-- ==== the start

theorem zero_buf (disk : Disk) : BufOk (.zero disk fun _ => true) [] where
  io := fun _ => rfl
  uniq := by
    intro i j _ _ h
    cases h
  coherent := by
    intro i _ h
    cases h
  refs := fun _ _ => rfl
  held := by
    intro e he
    cases he

/-- The state when the loop is entered: nothing is open. -/
def Core.start (disk : Disk) : Core :=
  { (Srv.zero disk fun _ => true).core with sb := getSuperblock (disk 1) }

theorem boot_spec (disk : Disk) : BufOk (Srv.boot disk fun _ => true) []
    ∧ (Srv.boot disk fun _ => true).core = .start disk := by
  have hends : Ends readsb (.zero disk fun _ => true) fun _ t =>
      BufOk t [] ∧ t.core = .start disk := by
    unfold readsb
    refine (ubread_spec (zero_buf disk) (by decide) 1).seq ?_
    rintro r t ⟨i, rfl, hbuf, hcore⟩
    apply modify_bind
    have hdata : (t.bufs i).data = t.disk 1 := hbuf.data List.mem_cons_self
    have hdisk : t.disk = disk := congrArg Core.disk hcore
    have hread : BufOk { t with sb := getSuperblock (t.bufs i).data } [(i, 1)] :=
      hbuf.congr rfl rfl rfl
    refine (ubrelse_spec hread).mono fun _ u hu => ⟨hu.1, ?_⟩
    rw [hu.2]
    show { t.core with sb := getSuperblock (t.bufs i).data } = Core.start disk
    rw [hdata, hdisk, hcore]
    rfl
  obtain ⟨_, t, hexec, h⟩ := hends.run
  have hboot : Srv.boot disk (fun _ => true) = t := congrArg Prod.snd hexec
  rw [hboot]
  exact h

/-- On a fresh server nothing takes the place of a file. -/
theorem start_fits (disk : Disk) (i j : Nat) : (Core.start disk).Fits i j := by
  have hclosed : (Core.start disk).openInums = ∅ :=
    Finset.subset_empty.mp (Finset.biUnion_subset.mpr fun _ _ => Finset.Subset.refl _)
  unfold Core.Fits
  rw [hclosed]
  exact Nat.le_trans Finset.card_le_two (by decide)

theorem start_cache {disk : Disk} (himg : Image (getSuperblock (disk 1)) disk) :
    CacheOk (.start disk) [] := by
  have hdead : ∀ i, ¬ ((Core.start disk).inodes i).Live := by
    intro i h
    cases h.1
  have htab : (Core.start disk).tab = dinode (getSuperblock (disk 1)) disk :=
    funext fun inum => Core.tab_of_none fun i _ h => absurd h (hdead i)
  have hopens : ∀ i, (Core.start disk).opens i = 0 := by
    intro i
    unfold Core.opens
    rw [Finset.card_eq_zero, Finset.filter_eq_empty_iff]
    intro f _ hf
    cases hf
  refine ⟨⟨himg.layout, fun i j _ _ h => absurd h (hdead i),
    fun i _ h => absurd h (hdead i), fun i _ h => absurd h (hdead i),
    fun i _ h => absurd h (hdead i), ?_⟩, ?_, ?_, ?_, ?_, ?_⟩
  · rw [htab]
    exact himg.owns
  · intro i _ h
    cases h
  · intro i _ h
    cases h
  · intro i _
    rw [hopens]
    rfl
  · intro i hi
    cases hi
  · intro f _ i hi
    cases hi

end Xv6FsServer.Server
