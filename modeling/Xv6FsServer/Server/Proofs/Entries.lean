/-
Directories change only by creation.

A request leaves every directory as it is, except that an `OPEN` with
`O_CREATE` of a name that the root does not have may add one entry to the
root, and this entry names a file that the request has made (`DirStep`). So
names stay unique and entries go on naming files (`DirsOk`), in every run
whose requests are `Tame` and add no second entry for a name (`NoTwin`).

The server does not see to either. It opens a directory for writing like
any other file. And `dirlink` takes a name for missing when the inode
behind it finds no place in the inode cache.
-/
import Xv6FsServer.Server.Proofs.Opening
import Xv6FsServer.Files.Model

namespace Xv6FsServer.Server

open Lib Fs Function
open Ipc (IpcMsg IpcMsgType Answer)

variable {s t : Srv} {req : IpcMsg} {i : Nat} {bytes name path : List UInt8}

-- ==== one new entry

/-- What a request may do to the directories among the files. -/
inductive DirStep (req : IpcMsg) (files files' : Nat → Option (Nat × List UInt8)) :
    Prop
  | same (h : ∀ j b, files' j = some (tDir, b) ↔ files j = some (tDir, b))
  | entered (dir new : Nat) (bytes path : List UInt8)
      (hopen : req.type = IpcMsgType.fsOpen.code) (hcreate : oCreate req.flags = true)
      (hpath : cString req = some path) (hdir : files dir = some (tDir, bytes))
      (hmissing : lookup bytes (newName path) = none) (hfree : files new = none)
      (hmade : files' new = some (tFile, []))
      (hentry : files' dir
        = some (tDir, addEntry bytes (newEntry (newName path) new)))
      (hsame : ∀ j b, j ≠ dir →
        (files' j = some (tDir, b) ↔ files j = some (tDir, b)))

/-- Names are unique, and entries name files. -/
structure DirsOk (files : Nat → Option (Nat × List UInt8)) : Prop where
  distinct : ∀ j bytes, files j = some (tDir, bytes) → DistinctNames bytes
  named : ∀ j bytes, files j = some (tDir, bytes) → ∀ k, 16 * k < bytes.length →
    entryInum bytes k ≠ 0 → (files (entryInum bytes k)).isSome = true

/-- The entry has the name it is made for. -/
theorem cstr_newEntry (hnul : ∀ a ∈ name, a ≠ 0) (hlen : name.length ≤ dirsiz)
    (i : Nat) : cstr (direntName (newEntry name i)) = name := by
  have hname : direntName (newEntry name i) = strncpy name dirsiz := by
    unfold newEntry direntName mkDirent
    simp
  rw [hname]
  unfold strncpy
  rw [List.take_of_length_le hlen]
  exact cstr_append_replicate hnul _

theorem length_newName (path : List UInt8) : (newName path).length ≤ dirsiz := by
  unfold newName component
  rw [List.length_take]
  unfold dirsiz
  omega

/-- The invariant over a step. -/
theorem DirStep.dirsOk {files files' : Nat → Option (Nat × List UInt8)}
    (h : DirStep req files files') (hok : FilesOk files) (hok' : FilesOk files')
    (hd : ∀ j b, files j = some (tDir, b) → DistinctNames b) :
    DirsOk files' := by
  refine ⟨fun j b hj => ?_, fun j b hj k => hok'.named hj k⟩
  cases h with
  | same h => exact hd j b ((h j b).mp hj)
  | entered dir new bytes path _ _ hpath hdir hmissing _ _ hentry hsame =>
    by_cases he : j = dir
    · subst he
      rw [hentry] at hj
      cases hj
      refine (hd j bytes hdir).addEntry (hok.whole hdir) (length_newEntry ..) ?_
      rw [cstr_newEntry (fun a ha => mem_cString hpath a (mem_newName ha))
        (length_newName path)]
      exact hmissing
    · exact hd j b ((hsame j b he).mp hj)

-- ==== one request

/-- A creation is not stopped from finding the name it creates: if the root
has it, there is a place in the cache for its inode, besides the root and
the new inode. -/
def Srv.NoTwin (s : Srv) (req : IpcMsg) : Prop :=
  req.type = IpcMsgType.fsOpen.code → ∀ path bytes, cString req = some path →
    s.store.files rootIno = some (tDir, bytes) → s.Creates req.flags path →
    ∀ i x, freeInode s.sb s.disk = some i → lookup bytes (newName path) = some x →
      s.core.Fits rootIno i → s.core.FitsThird i x

/-- Another file in the place of one that is no directory. -/
theorem dirs_update {files : Nat → Option (Nat × List UInt8)} {type : Nat}
    (hold : ∀ b, files i ≠ some (tDir, b)) (htype : type ≠ tDir) (j : Nat)
    (b : List UInt8) :
    update files i (some (type, bytes)) j = some (tDir, b)
      ↔ files j = some (tDir, b) := by
  by_cases he : j = i
  · subst he
    rw [update_self]
    refine ⟨fun h => ?_, fun h => absurd h (hold b)⟩
    cases h
    exact absurd rfl htype
  · rw [update_of_ne he]

theorem files_grant (st : Store) (pid flags : Int) (i : Nat) :
    (st.grant pid flags i).1.files = st.files := by
  unfold Store.grant
  split
  next => rfl
  next => rfl

/-- The requests of the store that leave the files alone. -/
theorem files_serve (st : Store) (hopen : req.type ≠ IpcMsgType.fsOpen.code)
    (hwrite : req.type ≠ IpcMsgType.fsWrite.code) :
    (st.serve req).1.files = st.files := by
  have hread : (st.read req).1.files = st.files := by
    unfold Store.read
    split
    next => rfl
    split
    next => rfl
    split
    next => rfl
    next => rfl
  have hclose : (st.close req).1.files = st.files := by
    unfold Store.close
    split
    next => rfl
    next => rfl
  unfold Store.serve
  rw [if_neg hopen, if_neg hwrite]
  split
  next => rfl
  split
  next => rfl
  split
  next => exact hread
  split
  next => exact hclose
  next => rfl

theorem files_write (st : Store) (req : IpcMsg) :
    (st.write req).1.files = st.files ∨ ∃ f d type bytes bytes',
      st.target req = some (f, d) ∧ st.files d.file = some (type, bytes)
      ∧ (st.write req).1.files = update st.files d.file (some (type, bytes')) := by
  unfold Store.write Store.target
  cases hheld : st.held req.senderPid req.fd with
  | none => exact Or.inl rfl
  | some r =>
    obtain ⟨f, d⟩ := r
    dsimp only
    split
    next => exact Or.inl rfl
    next hmode =>
      cases hfile : st.files d.file with
      | none => exact Or.inl rfl
      | some r => exact Or.inr ⟨f, d, r.1, r.2, _, rfl, hfile, rfl⟩

theorem serve_write (st : Store) (h : req.type = IpcMsgType.fsWrite.code) :
    (st.serve req).1 = (st.write req).1 := by
  unfold Store.serve
  rw [h]
  rfl

theorem Opened.dirStep {st : Store} {ans : Answer} {pid : Int}
    (h : Opened s pid req.flags bytes path (st, ans))
    (htype : req.type = IpcMsgType.fsOpen.code) (hpath : cString req = some path)
    (hroot : s.store.files rootIno = some (tDir, bytes)) (hno : s.NoTwin req) :
    DirStep req s.store.files st.files := by
  have hfile : tFile ≠ tDir := by decide
  have hnone : ∀ {i}, freeInode s.sb s.disk = some i → ∀ b,
      s.store.files i ≠ some (tDir, b) := by
    intro i hi b hb
    rw [freeInode_view hi] at hb
    cases hb
  generalize hp : (st, ans) = p at h
  cases h with
  | found i =>
    refine .same fun j b => ?_
    rw [show st = _ from congrArg Prod.fst hp, files_grant]
  | refused =>
    cases hp
    exact .same fun j b => Iff.rfl
  | leaked i _ hi =>
    cases hp
    exact .same (dirs_update (hnone hi) hfile)
  | made i hnew hi hfits hwhy =>
    have hne : i ≠ rootIno := by
      intro he
      exact hnone hi _ (he ▸ hroot)
    have hfiles : st.files = withFile s.store.files bytes (newName path) i := by
      rw [show st = _ from congrArg Prod.fst hp, files_grant]
    refine .entered rootIno i bytes path htype hnew.create hpath hroot ?_
      (freeInode_view hi) ?_ ?_ ?_
    · cases hl : lookup bytes (newName path) with
      | none => rfl
      | some x =>
        have hthird := hno htype path bytes hpath hroot hnew i x hi hl hfits
        exact absurd (⟨x, hl, hthird⟩ : s.core.Finds ..) hwhy
    · rw [hfiles]
      unfold withFile
      rw [update_of_ne hne, update_self]
    · rw [hfiles]
      exact update_self ..
    · intro j b hj
      rw [hfiles]
      unfold withFile
      rw [update_of_ne hj]
      exact dirs_update (hnone hi) hfile j b

theorem Handled.dirStep {st : Store} {r : Option Answer}
    (h : Handled s req (st, r)) (hno : s.NoTwin req) :
    DirStep req s.store.files st.files := by
  generalize hp : (st, r) = p at h
  cases h with
  | served hopen hdir =>
    have hst : st = (s.store.serve req).1 := congrArg Prod.fst hp
    rw [hst]
    by_cases hwrite : req.type = IpcMsgType.fsWrite.code
    · rw [serve_write _ hwrite]
      rcases files_write s.store req with hsame | ⟨f, d, type, b, b', ht, hf, hnew⟩
      · rw [hsame]
        exact .same fun j b => Iff.rfl
      have htype := hdir hwrite f d ht type b hf
      rw [hnew]
      refine .same (dirs_update (fun b' hb => ?_) htype)
      rw [hf] at hb
      cases hb
      exact htype rfl
    · rw [files_serve _ hopen hwrite]
      exact .same fun j b => Iff.rfl
  | opened path bytes r htype hpath hroot hr =>
    cases hp
    exact hr.dirStep htype hpath hroot hno
  | short f d type bytes bytes' _ _ hfile htype =>
    cases hp
    refine .same (dirs_update (fun b hb => ?_) htype)
    rw [hfile] at hb
    cases hb
    exact htype rfl

-- ==== a run

/-- In every run whose requests write to no directory, take no block with
harmful contents for an indirect block and enter no name twice, names stay
unique and entries name files; and the next such request changes no
directory except by the entry of a new file. -/
theorem directories_change_by_creation {disk : Disk}
    (himg : Image (getSuperblock (disk 1)) disk)
    (hdirs : DirsOk (view (getSuperblock (disk 1)) disk)) {reqs : List IpcMsg}
    (hok : Along Srv.serve (fun s req => s.Tame req ∧ s.NoTwin req)
      (Srv.boot disk fun _ => true) reqs)
    (hrun : runs Srv.serve (Srv.boot disk fun _ => true) reqs = some s) :
    DirsOk s.store.files
      ∧ ∀ req t, s.Tame req → s.NoTwin req → s.serve req = some t →
        DirStep req s.store.files t.store.files := by
  have hboot : (Srv.boot disk fun _ => true).store.files
      = view (getSuperblock (disk 1)) disk := by
    have hcore := (boot_spec disk).2
    show view (Srv.boot disk fun _ => true).core.sb
      (Srv.boot disk fun _ => true).core.disk = _
    rw [hcore]
    rfl
  have hinv : Inv s ∧ DirsOk s.store.files := by
    refine Along.invariant (I := fun s => Inv s ∧ DirsOk s.store.files) ?_
      ⟨.boot himg, hboot ▸ hdirs⟩ hok hrun
    intro s req t hs hreq hstep
    obtain ⟨ht, -, r, hr⟩ := serve_store hs.1 hreq.1 hstep
    exact ⟨ht, (hr.dirStep hreq.2).dirsOk hs.1.image.files ht.image.files
      hs.2.distinct⟩
  refine ⟨hinv.2, fun req t htame hno hstep => ?_⟩
  obtain ⟨-, -, r, hr⟩ := serve_store hinv.1 htame hstep
  exact hr.dirStep hno

/-- `O_CREATE | O_RDWR` of "b", for process 3. -/
def createB : IpcMsg := (Files.openReq [98] 514).from 3

theorem distinctNames_rootBytes : DistinctNames (rootBytes [97]) := by
  intro k l hk hl _ _ hname
  rw [show (rootBytes [97]).length = 48 from rfl] at hk hl
  have hall : ∀ k, k < 3 → ∀ l, l < 3 →
      entryName (rootBytes [97]) k = entryName (rootBytes [97]) l → k = l := by
    decide +kernel
  exact hall k (by omega) l (by omega) hname

theorem directories_change_by_creation_createB :
    ∃ s, runs Srv.serve (Srv.boot (namedImage [97]) fun _ => true) [createB] = some s
      ∧ DirsOk s.store.files := by
  have hname : [97].length ≤ dirsiz := by decide
  have himg : Image (getSuperblock (namedImage [97] 1)) (namedImage [97]) :=
    namedImage_ok hname
  have hdirs : DirsOk (view (getSuperblock (namedImage [97] 1)) (namedImage [97])) :=
    ⟨fun j b hj => namedImage_dir hname hj ▸ distinctNames_rootBytes,
      fun j b hj k => himg.files.named hj k⟩
  have hsome : (runs Srv.serve (Srv.boot (namedImage [97]) fun _ => true)
      [createB]).isSome = true := by
    decide +kernel
  obtain ⟨s, hs⟩ := Option.isSome_iff_exists.mp hsome
  have hcore := (boot_spec (namedImage [97])).2
  have hpath : cString createB = some [98] := by decide +kernel
  have hroot : ∀ {b}, (Srv.boot (namedImage [97]) fun _ => true).store.files rootIno
      = some (tDir, b) → b = rootBytes [97] := by
    intro b hb
    have hb : view (Srv.boot (namedImage [97]) fun _ => true).core.sb
      (Srv.boot (namedImage [97]) fun _ => true).core.disk rootIno = some (tDir, b) := hb
    rw [hcore] at hb
    exact namedImage_dir hname hb
  refine ⟨s, hs, (directories_change_by_creation himg hdirs ?_ hs).1⟩
  unfold Along
  refine ⟨⟨⟨?_, ?_⟩, ?_⟩, ?_⟩
  · intro h
    cases h
  · intro _ path bytes _ hb _
    refine IndirectOk.direct ?_
    rw [hroot hb]
    decide +kernel
  · intro _ path bytes hp hb _ i x _ hl
    rw [hpath] at hp
    cases hp
    rw [hroot hb] at hl
    have hnone : lookup (rootBytes [97]) (newName [98]) = none := by decide +kernel
    rw [hnone] at hl
    cases hl
  · split
    next => trivial
    next => trivial

/-- `O_RDWR` of "/", for process 3. -/
def openSlash : IpcMsg := (Files.openReq [47] 2).from 3

/-- A `WRITE` of two bytes through descriptor 0, by process 3. -/
def writeTwo : IpcMsg := (Files.writeReq 0 [7, 7]).from 3

/-- A client opens the root for writing and overwrites its first entry. -/
theorem directory_overwritten :
    ∃ s t, runs Srv.serve (Srv.boot (namedImage [97]) fun _ => true) [openSlash]
        = some s
      ∧ s.serve writeTwo = some t
      ∧ ¬ DirStep writeTwo s.store.files t.store.files := by
  have hbefore : (runs Srv.serve (Srv.boot (namedImage [97]) fun _ => true)
      [openSlash]).map (fun s => decide (view s.sb s.disk rootIno
        = some (tDir, rootBytes [97]))) = some true := by
    decide +kernel
  have hafter : (runs Srv.serve (Srv.boot (namedImage [97]) fun _ => true)
      [openSlash, writeTwo]).map (fun s => decide (view s.sb s.disk rootIno
        = some (tDir, rootBytes [97]))) = some false := by
    decide +kernel
  obtain ⟨s, hs, hroot⟩ := Option.map_eq_some_iff.mp hbefore
  obtain ⟨t, ht, hroot'⟩ := Option.map_eq_some_iff.mp hafter
  obtain ⟨u, hu, hrest⟩ := runs_cons ht
  cases (show runs _ _ [openSlash] = some u from runs_step hu).symm.trans hs
  obtain ⟨v, hv, hend⟩ := runs_cons hrest
  cases hend
  refine ⟨s, t, hs, hv, fun hstep => ?_⟩
  cases hstep with
  | same h => exact of_decide_eq_false hroot' ((h ..).mpr (of_decide_eq_true hroot))
  | entered _ _ _ _ hopen => cases hopen

end Xv6FsServer.Server
