/-
`OPEN`, and with it the whole loop, as a step of the file store.

`fsOpen_store` lists all that an `OPEN` can come to (`Opened`): a
descriptor for the file the path leads to, a failure, a new file with a
descriptor, or a new file that is left without a name. It does not return
in two cases (`Srv.Stops`): the root finds no place in a full inode cache,
and `namei` dereferences the null pointer; or the root directory cannot
take the entry of a new file, and `dirlink` calls `exit`.
-/
import Xv6FsServer.Server.Proofs.Store

namespace Xv6FsServer.Server

open Lib Fs Function Meets
open Ipc (IpcMsg IpcMsgType Answer)

variable {c c' : Core} {s t : Srv} {R K : List Nat}
variable {i j ip inum f : Nat} {bytes name path : List UInt8} {type : Nat}

-- ==== the path

/-- The name that is entered for a new file: the first component of the
path, cut short. -/
def newName (path : List UInt8) : List UInt8 := component (skipSlashes path)

theorem mem_cString {req : IpcMsg} (h : cString req = some path) :
    ∀ a ∈ path, a ≠ 0 := by
  unfold cString at h
  dsimp only at h
  split at h
  next =>
    cases h
    intro a ha
    exact bne_iff_ne.mp (List.all_eq_true.mp List.all_takeWhile a ha)
  next => cases h

theorem mem_newName {a : UInt8} (h : a ∈ newName path) : a ∈ path :=
  (List.dropWhile_sublist _).subset (mem_component h)

-- ==== the open

/-- The search for the path fails, and a file is to be created. -/
structure Srv.Creates (s : Srv) (flags : Int) (path : List UInt8) : Prop where
  missing : s.core.walk rootIno (components path) = none
  create : oCreate flags = true

/-- The handler does not return. -/
def Srv.Stops (s : Srv) (flags : Int) (bytes path : List UInt8) : Prop :=
  (¬ s.core.Fits rootIno rootIno ∧ components path ≠ [])
  ∨ s.Creates flags path ∧ s.core.NoPlace bytes (newName path)

/-- What an `OPEN` does. -/
inductive Opened (s : Srv) (pid flags : Int) (bytes path : List UInt8) :
    Store × Answer → Prop
  | found (i : Nat) (hwalk : s.core.walk rootIno (components path) = some i) :
      Opened s pid flags bytes path (s.store.grant pid flags i)
  | refused (hmiss : s.core.walk rootIno (components path) = none
        ∨ ¬ s.core.Fits rootIno rootIno)
      (hwhy : oCreate flags = true → ¬ s.core.Fits rootIno rootIno
        ∨ freeInode s.sb s.disk = none) :
      Opened s pid flags bytes path (s.store, failed (-1))
  | leaked (i : Nat) (hnew : s.Creates flags path)
      (hi : freeInode s.sb s.disk = some i)
      (hwhy : ¬ s.core.Fits rootIno i ∨ s.core.Finds bytes (newName path) i) :
      Opened s pid flags bytes path
        ({ s.store with files := update s.store.files i (some (tFile, [])) },
          failed (-1))
  | made (i : Nat) (hnew : s.Creates flags path)
      (hi : freeInode s.sb s.disk = some i) (hfits : s.core.Fits rootIno i)
      (hwhy : ¬ s.core.Finds bytes (newName path) i) :
      Opened s pid flags bytes path (Store.grant
        { s.store with files := withFile s.store.files bytes (newName path) i }
        pid flags i)

/-- The end of an `OPEN`. -/
theorem grant_store (pid flags : Int) (h : Mid s [ip]) :
    Ends (do uilock ip; openFd pid flags ip) s fun ans t => Inv t
      ∧ (t.disk = s.disk ∧ t.sb = s.sb)
      ∧ (t.store, ans) = s.store.grant pid flags (s.inodes ip).inum := by
  refine (uilock_settled (K := []) h.buf h.cache List.mem_cons_self (by simp)).seq
    fun _ t ⟨hbuf, hc, hload, hst, _⟩ => ?_
  obtain ⟨hmid, hstore⟩ := h.settled hbuf hc hst
  refine (openFd_store pid flags hmid hload).mono fun ans u hu => ?_
  obtain ⟨hinv, ⟨hdisk, hsb⟩, heq⟩ := hu
  refine ⟨hinv, ⟨hdisk.trans hst.files.disk, hsb.trans hst.files.sb⟩, ?_⟩
  rw [heq, hstore]

/-- A file that is not there is not an open one's. -/
theorem freeInode_view (hi : freeInode s.sb s.disk = some i) :
    s.store.files i = none := by
  obtain ⟨-, -, hfree⟩ := freeInode_some hi
  show view s.sb s.disk i = none
  rw [← Option.not_isSome_iff_eq_none, isSome_view]
  exact fun halloc => halloc.2 hfree

/-- A new file without a name. -/
theorem Inv.leaked (h : Inv s) (hbuf : BufOk t [])
    (hi : freeInode s.sb s.disk = some i) (hp : Placed s.core t.core i []) :
    Inv t ∧ t.store
      = { s.store with files := update s.store.files i (some (tFile, [])) } := by
  have hview : view t.sb t.disk = update s.store.files i (some (tFile, [])) := hp.view
  obtain ⟨hinv, hstore⟩ := h.grown hbuf hp.cache hp.steady hp.image
    fun j type bytes hj => by
      have hne : j ≠ i := by
        intro he
        rw [he, freeInode_view hi] at hj
        cases hj
      refine ⟨bytes, ?_, Nat.le_refl _⟩
      show view t.sb t.disk j = _
      rw [hview, update_of_ne hne, hj]
  exact ⟨hinv, by rw [hstore, hview]⟩

/-- A new file in the root. -/
theorem Inv.made (h : Inv s) (hbuf : BufOk t [])
    (hi : freeInode s.sb s.disk = some i) (hc : CacheOk t.core R)
    (hsteady : Steady s.core t.core) (himg : Image t.sb t.disk)
    (hroot : s.store.files rootIno = some (tDir, bytes))
    (hview : view t.sb t.disk = withFile s.store.files bytes name i) :
    Mid t R ∧ t.store
      = { s.store with files := withFile s.store.files bytes name i } := by
  obtain ⟨hmid, hstore⟩ := h.grown hbuf hc hsteady himg fun j type old hj => by
    show ∃ bytes', view t.sb t.disk j = _ ∧ _
    rw [hview]
    unfold withFile
    by_cases hr : j = rootIno
    · subst hr
      rw [hroot] at hj
      cases hj
      refine ⟨_, update_self .., ?_⟩
      rw [length_addEntry (length_newEntry ..)]
      exact Nat.le_max_left ..
    · have hne : j ≠ i := by
        intro he
        rw [he, freeInode_view hi] at hj
        cases hj
      rw [update_of_ne hr, update_of_ne hne]
      exact ⟨old, hj, Nat.le_refl _⟩
  exact ⟨hmid, by rw [hstore, hview]⟩

theorem FreeKept.of_disk {u : Srv} (h : FreeKept c u.core) (hdisk : t.disk = u.disk)
    (hsb : t.sb = u.sb) : FreeKept c t.core := by
  obtain ⟨hsb', hblocks⟩ := h
  refine ⟨hsb.trans hsb', ?_⟩
  have hdisk : t.core.disk = u.core.disk := hdisk
  rw [hdisk]
  exact hblocks

/-- What is known of a server state does not change when only inodes out of
use have. -/
theorem Settled.created (hst : Settled [] s.core t.core) {r : Option Nat}
    (h : Created t.core bytes name r c) : Created s.core bytes name r c := by
  have hsb : t.core.sb = s.core.sb := hst.files.sb
  have hdisk : t.core.disk = s.core.disk := hst.files.disk
  have hfree : ∀ {i}, freeInode t.core.sb t.core.disk = i →
      freeInode s.core.sb s.core.disk = i := by
    rw [hsb, hdisk]
    exact id
  have hfinds : ∀ {i}, s.core.Finds bytes name i ↔ t.core.Finds bytes name i := by
    intro i
    unfold Core.Finds Core.FitsThird
    rw [hst.openInums]
  have hview : Fs.view t.core.sb t.core.disk = Fs.view s.core.sb s.core.disk :=
    hst.view
  cases h with
  | kept c hc hst' hwhy =>
    refine .kept c hc (hst.trans hst') (hwhy.imp (fun hf => ?_) hfree)
    rwa [hst.fits] at hf
  | leaked c i hfit hi hp hwhy =>
    refine .leaked c i ((hst.fits ..).mp hfit) (hfree hi) ⟨hp.cache,
      hst.steady.trans hp.steady,
      hst.files.freeKept.trans hp.free, hp.image, hview ▸ hp.view⟩
      (hwhy.imp (fun hf => ?_) hfinds.mpr)
    rwa [hst.fits] at hf
  | made c i ip hfit hi hc hload hsteady hfk himg hv hwhy =>
    exact .made c i ip ((hst.fits ..).mp hfit) (hfree hi) hc hload (hst.steady.trans hsteady)
      (hst.files.freeKept.trans hfk) himg (hview ▸ hv) (hfinds.not.mpr hwhy)

theorem Settled.noPlace (hst : Settled [] s.core t.core) (hs : CacheOk s.core [])
    (ht : CacheOk t.core []) (h : t.core.NoPlace bytes name) :
    s.core.NoPlace bytes name := by
  have hkept : RootKept s.core t.core := .of_tab hst.files (hst.tab hs ht)
  obtain ⟨i, hi, hfits, hfinds, hentry⟩ := h
  have hsb : t.core.sb = s.core.sb := hst.files.sb
  have hdisk : t.core.disk = s.core.disk := hst.files.disk
  rw [hsb, hdisk] at hi
  refine ⟨i, hi, (hst.fits ..).mp hfits, ?_, fun hf => hentry (hkept.entryFits hf)⟩
  unfold Core.Finds Core.FitsThird at hfinds ⊢
  rwa [hst.openInums] at hfinds

/-- The creation of a file that the search has not found, and the reply. -/
theorem createFd_store (pid flags : Int) (h : Inv s) (hbuf : BufOk t [])
    (hc : CacheOk t.core []) (hst : Settled [] s.core t.core)
    (hroot : s.store.files rootIno = some (tDir, bytes)) (hnul : ∀ a ∈ path, a ≠ 0)
    (hcreate : oCreate flags = true)
    (hmiss : s.core.walk rootIno (components path) = none
      ∨ ¬ s.core.Fits rootIno rootIno)
    (hsafe : s.Creates flags path → s.core.EntrySafe bytes) :
    Leaves (fun _ => s.Stops flags bytes path)
      (do
        match ← create path with
        | none => pure (failed (-1))
        | some ip => do
          uilock ip
          openFd pid flags ip) t
      fun ans u => Inv u ∧ FreeKept s.core u.core
        ∧ Opened s pid flags bytes path (u.store, ans) := by
  have hkept : RootKept s.core t.core := .of_tab hst.files (hst.tab h.cache hc)
  have hcreates : s.core.Fits rootIno rootIno → s.Creates flags path := fun hfit =>
    ⟨hmiss.resolve_right (not_not.mpr hfit), hcreate⟩
  have hfile : view t.sb t.disk rootIno = some (tDir, bytes) := by
    have hview : view t.sb t.disk = view s.sb s.disk := hst.view
    rw [hview]
    exact hroot
  refine ((create_spec hbuf hc (hst.image h.image) hfile
    (fun a ha => hnul a (mem_newName ha)) fun hfit => ?_).weaken ?_).seq ?_
  · exact hkept.entrySafe (hsafe (hcreates ((hst.fits ..).mp hfit)))
  · intro _ _ hno
    have hno := hst.noPlace h.cache hc hno
    obtain ⟨i, -, hfits, -⟩ := id hno
    exact Or.inr ⟨hcreates hfits.root, hno⟩
  · intro r u hu
    obtain ⟨hbufu, hcr⟩ := hu
    have hcr := hst.created hcr
    generalize hcu : u.core = cu at hcr
    cases hcr with
    | kept _ hcache hst' hwhy =>
      subst hcu
      obtain ⟨hinv, hstore⟩ := h.settled hbufu hcache hst'
      refine ret ⟨hinv, hst'.files.freeKept, ?_⟩
      rw [hstore]
      exact .refused hmiss fun _ => hwhy
    | leaked _ i hfit hi hp hwhy =>
      subst hcu
      obtain ⟨hinv, hstore⟩ := h.leaked hbufu hi hp
      refine ret ⟨hinv, hp.free, ?_⟩
      rw [hstore]
      exact .leaked i (hcreates hfit) hi hwhy
    | made _ i ip hfit hi hcache hload hsteady hfree himg hview hwhy =>
      subst hcu
      obtain ⟨hmid, hstore⟩ := h.made hbufu hi hcache hsteady himg hroot hview
      refine ((grant_store pid flags hmid).lift).mono fun ans v hv => ?_
      obtain ⟨hinv, hsame, hans⟩ := hv
      have hinum : (u.inodes ip).inum = i := hload.inum
      refine ⟨hinv, hfree.of_disk hsame.1 hsame.2, ?_⟩
      rw [hans, hstore, hinum]
      exact .made i (hcreates hfit.root) hi hfit hwhy

theorem fsOpen_store (req : IpcMsg) (h : Inv s) (hpath : cString req = some path)
    (hroot : s.store.files rootIno = some (tDir, bytes))
    (hsafe : s.Creates req.flags path → s.core.EntrySafe bytes) :
    Leaves (fun _ => s.Stops req.flags bytes path) (fsOpen req) s fun ans t => Inv t
      ∧ FreeKept s.core t.core
      ∧ Opened s req.senderPid req.flags bytes path (t.store, ans) := by
  have hnul := mem_cString hpath
  unfold fsOpen openInode
  rw [hpath]
  dsimp only
  rw [bind_assoc]
  apply Meets.bind
  -- after a search that found nothing
  have hnone : ∀ {t : Srv}, BufOk t [] → CacheOk t.core [] → Settled [] s.core t.core →
      (s.core.walk rootIno (components path) = none
        ∨ ¬ s.core.Fits rootIno rootIno) →
      Leaves (fun _ => s.Stops req.flags bytes path)
        (do
          match ← (if oCreate req.flags then create path else pure none : Op _) with
          | none => pure (failed (-1))
          | some ip => do
            uilock ip
            openFd req.senderPid req.flags ip) t
        fun ans u => Inv u ∧ FreeKept s.core u.core
          ∧ Opened s req.senderPid req.flags bytes path (u.store, ans) := by
    intro t hbuf hc hst hmiss
    split
    next hcreate =>
      exact createFd_store req.senderPid req.flags h hbuf hc hst hroot hnul hcreate
        hmiss hsafe
    next hcreate =>
      obtain ⟨hinv, hstore⟩ := h.settled hbuf hc hst
      refine ret ⟨hinv, hst.files.freeKept, ?_⟩
      rw [hstore]
      exact .refused hmiss fun hyes => absurd hyes hcreate
  by_cases hfit : s.core.Fits rootIno rootIno
  · refine ((namei_spec hnul h.buf h.cache h.image
      (h.cache.get_root.mpr hfit)).lift).mono fun r t ht => ?_
    obtain ⟨hbuf, hst, hwalk⟩ := ht
    cases r with
    | none => exact hnone hbuf hwalk.1 hst (Or.inl hwalk.2)
    | some ip =>
      obtain ⟨hc, hwalk⟩ := hwalk
      obtain ⟨hmid, hstore⟩ := h.settled hbuf hc hst
      refine ((grant_store req.senderPid req.flags hmid).lift).mono fun ans u hu => ?_
      obtain ⟨hinv, hsame, hans⟩ := hu
      refine ⟨hinv, hst.files.freeKept.of_disk hsame.1 hsame.2, ?_⟩
      rw [hans, hstore]
      exact .found _ hwalk
  · refine ((namei_rootless h.buf h.cache hfit).weaken fun _ _ hne =>
      Or.inl ⟨hfit, hne⟩).mono fun r t ht => ?_
    obtain ⟨rfl, -, hbuf, hcore⟩ := ht
    exact hnone hbuf (hcore ▸ h.cache) (hcore ▸ .refl ..) (Or.inr hfit)

-- ==== the loop

/-- A `WRITE` is not through a descriptor of a directory, and neither a
`WRITE` nor the entry of a new file takes a block with harmful contents for
an indirect block. -/
structure Srv.Tame (s : Srv) (req : IpcMsg) : Prop where
  write : req.type = IpcMsgType.fsWrite.code → ∀ f d, s.store.target req = some (f, d) →
    (∀ type bytes, s.store.files d.file = some (type, bytes) → type ≠ tDir)
      ∧ s.WriteSafe d (clampLen req)
  entry : req.type = IpcMsgType.fsOpen.code → ∀ path bytes, cString req = some path →
    s.store.files rootIno = some (tDir, bytes) → s.Creates req.flags path →
    s.core.EntrySafe bytes

/-- The requests that the server does not survive. -/
def Srv.Dies (s : Srv) (req : IpcMsg) : Prop :=
  req.type = IpcMsgType.fsOpen.code
    ∧ ∀ path, cString req = some path → ∀ bytes,
      s.store.files rootIno = some (tDir, bytes) → s.Stops req.flags bytes path

/-- What a request does. -/
inductive Handled (s : Srv) (req : IpcMsg) : Store × Option Answer → Prop
  | served (hopen : req.type ≠ IpcMsgType.fsOpen.code)
      (hdir : req.type = IpcMsgType.fsWrite.code → ∀ f d,
        s.store.target req = some (f, d) → ∀ type bytes,
        s.store.files d.file = some (type, bytes) → type ≠ tDir) :
      Handled s req (s.store.serve req)
  | opened (path bytes : List UInt8) (r : Store × Answer)
      (htype : req.type = IpcMsgType.fsOpen.code) (hpath : cString req = some path)
      (hroot : s.store.files rootIno = some (tDir, bytes))
      (hr : Opened s req.senderPid req.flags bytes path r) :
      Handled s req (r.1, some r.2)
  | short (f : Nat) (d : Fd) (type : Nat) (bytes bytes' : List UInt8)
      (hwrite : req.type = IpcMsgType.fsWrite.code)
      (htarget : s.store.target req = some (f, d))
      (hfile : s.store.files d.file = some (type, bytes)) (htype : type ≠ tDir)
      (hlen : bytes'.length = bytes.length)
      (hfits : ¬ s.WriteFits d (clampLen req)) :
      Handled s req ({ s.store with
        files := update s.store.files d.file (some (type, bytes')) },
        some (failed req.fd))

theorem handle_store (req : IpcMsg) (h : Inv s) (htame : s.Tame req) :
    Leaves (fun _ => s.Dies req) (handle req) s fun r t => Inv t
      ∧ FreeKept s.core t.core ∧ Handled s req (t.store, r) := by
  have hself : FreeKept s.core s.core := (SameFiles.refl _).freeKept
  -- the handlers that do what the store does
  have hdone : ∀ {r : Option Answer} {t : Srv}, Inv t → FreeKept s.core t.core →
      req.type ≠ IpcMsgType.fsOpen.code → (t.store, r) = s.store.serve req →
      Inv t ∧ FreeKept s.core t.core ∧ Handled s req (t.store, r) := by
    intro r t hinv hfree hopen heq
    rw [heq]
    exact ⟨hinv, hfree, .served hopen fun hw f d ht => (htame.write hw f d ht).1⟩
  unfold handle
  by_cases h1 : req.type = IpcMsgType.fsShutdown.code
  · rw [if_pos h1]
    refine (closeAllForOwner_store req.senderPid h).lift.seq
      fun _ t ⟨hinv, hsame, hstore⟩ => ?_
    refine ret (hdone hinv (hself.of_disk hsame.1 hsame.2)
      (by rw [h1]; decide) ?_)
    unfold Store.serve
    rw [if_pos h1, hstore]
  rw [if_neg h1]
  by_cases h2 : req.type = IpcMsgType.fsClientExit.code
  · rw [if_pos h2]
    refine (closeAllForOwner_store req.senderPid h).lift.seq
      fun _ t ⟨hinv, hsame, hstore⟩ => ?_
    refine ret (hdone hinv (hself.of_disk hsame.1 hsame.2)
      (by rw [h2]; decide) ?_)
    unfold Store.serve
    rw [if_neg h1, if_pos h2, hstore]
  rw [if_neg h2]
  by_cases h3 : req.type = IpcMsgType.fsOpen.code
  · rw [if_pos h3]
    apply map
    obtain ⟨bytes, hroot⟩ := h.image.files.root
    cases hpath : cString req with
    | none =>
      unfold fsOpen
      rw [hpath]
      refine fault ⟨h3, fun path hp => ?_⟩
      rw [hpath] at hp
      cases hp
    | some path =>
      refine ((fsOpen_store req h hpath hroot (htame.entry h3 path bytes hpath
        hroot)).weaken ?_).mono fun ans t ht => ?_
      · intro _ _ hstop
        refine ⟨h3, fun p hp b hb => ?_⟩
        have hb : view s.sb s.disk rootIno = some (tDir, b) := hb
        rw [hpath] at hp
        rw [hroot] at hb
        cases hp
        cases hb
        exact hstop
      · exact ⟨ht.1, ht.2.1, .opened path bytes (t.store, ans) h3 hpath hroot ht.2.2⟩
  rw [if_neg h3]
  by_cases h4 : req.type = IpcMsgType.fsRead.code
  · rw [if_pos h4]
    apply map
    refine ((fsRead_store req h).lift).mono fun ans t ht => ?_
    obtain ⟨hinv, hsame, hstore⟩ := ht
    refine hdone hinv (hself.of_disk hsame.1 hsame.2) h3 ?_
    unfold Store.serve
    rw [if_neg h1, if_neg h2, if_neg h3, if_pos h4, ← hstore]
  rw [if_neg h4]
  by_cases h5 : req.type = IpcMsgType.fsWrite.code
  · rw [if_pos h5]
    apply map
    refine ((fsWrite_store req h (htame.write h5)).lift).mono fun ans t ht => ?_
    obtain ⟨hinv, hfree, hstore | ⟨f, d, type, bytes, bytes', htarget, hfile, hlen,
      hfits, rfl, hstore⟩⟩ := ht
    · refine hdone hinv hfree h3 ?_
      unfold Store.serve
      rw [if_neg h1, if_neg h2, if_neg h3, if_neg h4, if_pos h5, ← hstore]
    · rw [hstore]
      exact ⟨hinv, hfree, .short f d type bytes bytes' h5 htarget hfile
        ((htame.write h5 f d htarget).1 _ _ hfile) hlen hfits⟩
  rw [if_neg h5]
  by_cases h6 : req.type = IpcMsgType.fsClose.code
  · rw [if_pos h6]
    apply map
    refine ((fsClose_store req h).lift).mono fun ans t ht => ?_
    obtain ⟨hinv, hsame, hstore⟩ := ht
    refine hdone hinv (hself.of_disk hsame.1 hsame.2) h3 ?_
    unfold Store.serve
    rw [if_neg h1, if_neg h2, if_neg h3, if_neg h4, if_neg h5, if_pos h6, ← hstore]
  rw [if_neg h6]
  refine ret (hdone h hself h3 ?_)
  unfold Store.serve
  rw [if_neg h1, if_neg h2, if_neg h3, if_neg h4, if_neg h5, if_neg h6]

/-- A request that is answered. -/
theorem serve_store {req : IpcMsg} (h : Inv s) (htame : s.Tame req)
    (hstep : s.serve req = some t) :
    Inv t ∧ FreeKept s.core t.core ∧ ∃ r, Handled s req (t.store, r) := by
  obtain ⟨r, hexec⟩ := Srv.serve_some hstep
  obtain ⟨hinv, hfree, hr⟩ := (handle_store req h htame).elim hexec
  exact ⟨hinv, hfree, r, hr⟩

theorem Inv.boot {disk : Disk} (himg : Image (getSuperblock (disk 1)) disk) :
    Inv (Srv.boot disk fun _ => true) := by
  obtain ⟨hbuf, hcore⟩ := boot_spec disk
  have hfds : (Srv.boot disk fun _ => true).fdInodes = fun _ => none :=
    congrArg Core.fdInodes hcore
  have htable : (Srv.boot disk fun _ => true).fdTable = fun _ => .zero :=
    congrArg Core.fdTable hcore
  have hdisk : (Srv.boot disk fun _ => true).disk = disk := congrArg Core.disk hcore
  have hsb : (Srv.boot disk fun _ => true).sb = getSuperblock (disk 1) :=
    congrArg Core.sb hcore
  refine ⟨hbuf, hcore ▸ start_cache himg, ?_, fun fd _ => ?_, fun f d hd => ?_⟩
  · rw [hdisk, hsb]
    exact himg
  · rw [htable, hfds]
    constructor
    · intro h
      cases h
    · intro h
      cases h
  · have hnone : (Srv.boot disk fun _ => true).fds f = none :=
      fds_unused (by rw [htable]; rfl)
    have hd : (Srv.boot disk fun _ => true).fds f = some d := hd
    rw [hnone] at hd
    cases hd

end Xv6FsServer.Server
