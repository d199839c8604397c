/-
How far an `OPEN` reads.

Nobody asks for a NUL in the path field, and `namei` and the creation look
for one byte by byte. Here their scans are written out over the bytes of the
message, `data` behind `path`, with a record of the furthest byte of `path`
that was read and of `name` that was written (`Reach`). But for the record
this is the open of the model (`fsOpenAt_tracks`). With a NUL in the field
the scans stay in it and `data` has no say; without one there is a file
system on which they go on into `data` (`open_insidePath_iff`): a root
directory whose every entry leads back to it.
-/
import Xv6FsServer.Server.Proofs.Opening

namespace Xv6FsServer.Server

open Lib Fs Function
open Ipc (IpcMsg IpcMsgType Answer ipcPathSize ipcDataSize validIpcMsg)

variable {α β : Type} {s : Srv} {req : IpcMsg} {n m k : Nat}
variable {p q rest path : List UInt8}

-- ==== the scans

/-- The furthest index of `path` that was read, and of `name` that was
written. -/
structure Reach where
  path : Nat
  name : Nat

abbrev Scan (α : Type) : Type := Prog (Srv × Reach) Fault α

/-- A step that reads no path. -/
def aside (x : Op α) : Scan α := fun σ => ((exec x σ.1).1, (exec x σ.1).2, σ.2)

/-- The bytes of `path`. -/
def pathBytes (req : IpcMsg) : List UInt8 := req.path.slice 0 ipcPathSize

/-- The message from `path` on. A pointer into it is what is left of it
there. -/
def message (req : IpcMsg) : List UInt8 := pathBytes req ++ req.data.slice 0 ipcDataSize

def index (p : List UInt8) : Nat := ipcPathSize + ipcDataSize - p.length

/-- `*p`. -/
def look (p : List UInt8) : Scan Unit := do
  modify fun σ => (σ.1, { σ.2 with path := max σ.2.path (index p) })
  if p.isEmpty then throw .overrun

/-- `*p && *p != '/'`. -/
def inName (a : UInt8) : Bool := a != 0 && a != slash

/-- `while(*p && *p != '/') p++;`. -/
def endOfName (p : List UInt8) : List UInt8 := p.dropWhile inName

/-- What is put into `char name[DIRSIZ]` then. -/
def nameAt (p : List UInt8) : List UInt8 := (p.takeWhile inName).take (dirsiz - 1)

/-- The scan of a component, and its copy: to `name[DIRSIZ-1]` if it is long, to
the NUL behind it otherwise. -/
def copyName (p : List UInt8) : Scan Unit := do
  look (endOfName p)
  let len := (p.takeWhile inName).length
  modify fun σ => (σ.1, { σ.2 with
    name := max σ.2.name (if dirsiz ≤ len then dirsiz - 1 else len) })

/-- `namei`'s loop, between its scans. -/
def nameiStep (ip : Nat) (name : List UInt8) : Op (Option Nat) := do
  uilock ip
  let s ← get
  if (s.inodes ip).d.type ≠ tDir then do
    uiput ip
    pure none
  else do
    let next ← dirlookup ip name
    uiput ip
    pure next

def nameiLoopAt : Nat → Option Nat → List UInt8 → Scan (Option Nat)
  | 0, ip, _ => pure ip
  | k + 1, ip, p =>
    if p.headD 0 = 0 then pure ip
    else do
      copyName p
      look (skipSlashes (endOfName p))
      match ip with
      | none => throw .nullDeref
      | some ip => do
        match ← aside (nameiStep ip (nameAt p)) with
        | none => pure none
        | some next => nameiLoopAt k (some next) (skipSlashes (endOfName p))

def nameiAt (path : List UInt8) : Scan (Option Nat) := do
  let ip ← aside (uiget rootDev rootIno)
  look (skipSlashes path)
  nameiLoopAt (path.length + 1) ip (skipSlashes path)

/-- Behind the scan, the creation knows the path by its first component. -/
def createAt (path : List UInt8) : Scan (Option Nat) := do
  look (skipSlashes path)
  copyName (skipSlashes path)
  aside (create (nameAt (skipSlashes path)))

def openInodeAt (path : List UInt8) (flags : Int) : Scan (Option Nat) := do
  match ← nameiAt path with
  | some ip => pure (some ip)
  | none => if oCreate flags then createAt path else pure none

def fsOpenAt (req : IpcMsg) : Scan Answer := do
  match ← openInodeAt (message req) req.flags with
  | none => pure (failed (-1))
  | some ip => aside (do uilock ip; openFd req.senderPid req.flags ip)

-- ==== scans and the model

/-- `x` does what `y` does, its reach stays within `path[n]` and `name`, and from
the byte `m` on it gets to the byte `far a` if it returns `a`. -/
def Tracks (n m : Nat) (x : Scan α) (y : Op α) (far : α → Nat) : Prop :=
  ∀ s r, r.path ≤ n → r.name < dirsiz → m ≤ r.path →
    ∃ r', exec x (s, r) = ((exec y s).1, (exec y s).2, r') ∧ r'.path ≤ n
      ∧ r'.name < dirsiz ∧ ∀ a, (exec y s).1 = .ok a → far a ≤ r'.path

variable {x : Scan α} {y : Op α} {f : α → Scan β} {g : α → Op β}
variable {far : α → Nat} {far' : β → Nat}

theorem Tracks.bind (hx : Tracks n m x y far) (hf : ∀ a, Tracks n (far a) (f a) (g a) far') :
    Tracks n m (x >>= f) (y >>= g) far' := by
  intro s r hn hname hm
  obtain ⟨r₁, he, hn₁, hname₁, hto⟩ := hx s r hn hname hm
  rw [exec_bind, exec_bind, he]
  generalize exec y s = out at hto ⊢
  obtain ⟨res, t⟩ := out
  cases res with
  | ok a => exact hf a t r₁ hn₁ hname₁ (hto a rfl)
  | error e => exact ⟨r₁, rfl, hn₁, hname₁, by simp⟩

theorem Tracks.aside (y : Op α) (h : ∀ a, far a ≤ m) : Tracks n m (aside y) y far :=
  fun _ r hn hname hm => ⟨r, rfl, hn, hname, fun a _ => Nat.le_trans (h a) hm⟩

theorem Tracks.ret (a : α) (h : far a ≤ m) : Tracks n m (pure a) (pure a) far := by
  intro s r hn hname hm
  refine ⟨r, rfl, hn, hname, fun b hb => ?_⟩
  cases hb
  exact Nat.le_trans h hm

theorem Tracks.look {f : Unit → Scan α} (hp : p ≠ []) (hi : index p ≤ n)
    (hf : Tracks n (index p) (f ()) y far) : Tracks n m (Server.look p >>= f) y far := by
  intro s r hn hname _
  cases p with
  | nil => exact absurd rfl hp
  | cons a p => exact hf s _ (Nat.max_le.mpr ⟨hn, hi⟩) hname (Nat.le_max_right ..)

theorem Tracks.copyName {f : Unit → Scan α} (hp : endOfName p ≠ [])
    (hi : index (endOfName p) ≤ n) (hf : Tracks n (index (endOfName p)) (f ()) y far) :
    Tracks n m (Server.copyName p >>= f) y far := by
  unfold Server.copyName
  rw [bind_assoc]
  refine Tracks.look hp hi fun s r hn hname hm => ?_
  refine hf s _ hn (Nat.max_lt.mpr ⟨hname, ?_⟩) hm
  split
  · decide
  · omega

/-- In front of the NUL that ends them, the scans are those of the model. -/
theorem scan_append {f g : UInt8 → Bool} (rest : List UInt8) (h0 : f 0 = false)
    (hq : ∀ a ∈ q, f a = g a) :
    (q ++ 0 :: rest).dropWhile f = q.dropWhile g ++ 0 :: rest
      ∧ (q ++ 0 :: rest).takeWhile f = q.takeWhile g := by
  induction q with
  | nil => simp [h0]
  | cons a q ih =>
    obtain ⟨h1, h2⟩ := ih fun b hb => hq b (List.mem_cons_of_mem _ hb)
    rw [List.cons_append, List.dropWhile_cons, List.takeWhile_cons, List.dropWhile_cons,
      List.takeWhile_cons, hq a List.mem_cons_self]
    split
    · exact ⟨h1, congrArg _ h2⟩
    · exact ⟨rfl, rfl⟩

theorem skipSlashes_append : skipSlashes (q ++ 0 :: rest) = skipSlashes q ++ 0 :: rest :=
  (scan_append rest rfl fun _ _ => rfl).1

theorem name_append (rest : List UInt8) (hnul : ∀ a ∈ q, a ≠ 0) :
    endOfName (q ++ 0 :: rest) = q.dropWhile (· != slash) ++ 0 :: rest
      ∧ nameAt (q ++ 0 :: rest) = component q := by
  have hname : ∀ a ∈ q, inName a = (a != slash) := by
    intro a ha
    unfold inName
    rw [bne_iff_ne.mpr (hnul a ha), Bool.true_and]
  obtain ⟨h1, h2⟩ := scan_append rest rfl hname
  exact ⟨h1, congrArg (List.take _) h2⟩

theorem create_name (path : List UInt8) :
    create path = create (component (skipSlashes path)) := by
  have hname : ∀ a ∈ component (skipSlashes path), (a != slash) = true :=
    fun a ha => List.all_eq_true.mp List.all_takeWhile a (List.mem_of_mem_take ha)
  have hlen : (component (skipSlashes path)).length ≤ dirsiz - 1 := List.length_take_le ..
  have hsame : component (skipSlashes (component (skipSlashes path)))
      = component (skipSlashes path) := by
    generalize component (skipSlashes path) = c at hname hlen
    have hskip : skipSlashes c = c := by
      cases c with
      | nil => rfl
      | cons a c =>
        refine List.dropWhile_cons_of_neg ?_
        simpa using hname a List.mem_cons_self
    have htake : (c ++ []).takeWhile (· != slash) = c ++ [].takeWhile (· != slash) :=
      List.takeWhile_append_of_pos hname
    unfold component
    rw [List.append_nil, List.takeWhile_nil, List.append_nil] at htake
    rw [hskip, htake, List.take_of_length_le hlen]
  unfold create
  rw [hsame]

theorem nameiLoop_step (ip : Nat) {a : UInt8} : nameiLoop (k + 1) (some ip) (a :: q)
    = (do
      match ← nameiStep ip (component (a :: q)) with
      | none => pure none
      | some next => nameiLoop k (some next) (afterComponent (a :: q))) := by
  rw [nameiLoop]
  unfold nameiStep
  simp only [List.isEmpty_cons, Bool.false_eq_true, if_false, bind_assoc]
  refine bind_congr fun _ => bind_congr fun s => ?_
  split
  · simp
  · rw [bind_assoc]
    refine bind_congr fun r => ?_
    cases r with
    | none => simp
    | some next => simp

/-- What is looked for. -/
def found (n : Nat) (r : Option Nat) : Nat := if r.isSome then n else 0

section

variable (hrest : n + 1 + rest.length = ipcPathSize + ipcDataSize)

include hrest

theorem index_append (h : q.length ≤ n) : index (q ++ 0 :: rest) = n - q.length := by
  unfold index
  rw [List.length_append, List.length_cons]
  omega

theorem nameiLoopAt_tracks (k k' : Nat) {ip : Option Nat} (hq : q.length ≤ n)
    (hk : q.length < k) (hk' : q.length < k') (hnul : ∀ a ∈ q, a ≠ 0)
    (hhead : q.head? ≠ some slash) :
    Tracks n (n - q.length) (nameiLoopAt k ip (q ++ 0 :: rest)) (nameiLoop k' ip q)
      (found n) := by
  induction k generalizing q ip k' with
  | zero => omega
  | succ k ih =>
    obtain ⟨k', rfl⟩ : ∃ l, k' = l + 1 := ⟨k' - 1, by omega⟩
    cases q with
    | nil =>
      refine Tracks.ret ip ?_
      unfold found
      split <;> simp
    | cons a q =>
      have ha : a ≠ slash := fun e => hhead (by rw [e]; rfl)
      have hshort := length_afterComponent (p := q) ha
      obtain ⟨hend, hname⟩ := name_append rest hnul
      have hafter : skipSlashes (endOfName (a :: q ++ 0 :: rest))
          = afterComponent (a :: q) ++ 0 :: rest := by
        rw [hend, skipSlashes_append]
        rfl
      have hlen := ((a :: q).dropWhile_sublist (· != slash)).length_le
      rw [List.length_cons] at hq hk hk' hlen
      have hstop : index (endOfName (a :: q ++ 0 :: rest)) ≤ n := by
        rw [hend, index_append hrest (by omega)]
        omega
      have hnext := index_append hrest (q := afterComponent (a :: q)) (by omega)
      have h0 : (a :: q ++ 0 :: rest).headD 0 ≠ 0 := hnul a List.mem_cons_self
      unfold nameiLoopAt
      rw [if_neg h0]
      refine Tracks.copyName (by rw [hend]; simp) hstop ?_
      rw [hafter]
      refine Tracks.look (by simp) (by omega) ?_
      rw [hnext]
      cases ip with
      | none => exact fun s r hn hname _ => ⟨r, rfl, hn, hname, fun b hb => by cases hb⟩
      | some ip =>
        rw [nameiLoop_step, hname]
        refine Tracks.bind (Tracks.aside _ fun _ => Nat.le_refl _) fun r => ?_
        cases r with
        | none => exact Tracks.ret none (Nat.zero_le _)
        | some next =>
          exact ih k' (by omega) (by omega) (by omega)
            (fun b hb => hnul b (mem_afterComponent hb)) (head_skipSlashes _)

variable (hpath : path.length = n) (hnul : ∀ a ∈ path, a ≠ 0)

include hpath hnul

theorem nameiAt_tracks :
    Tracks n 0 (nameiAt (path ++ 0 :: rest)) (namei path) (found n) := by
  have hlen := (path.dropWhile_sublist (· == slash)).length_le
  have hskip : (skipSlashes path).length ≤ path.length := hlen
  have hi := index_append hrest (q := skipSlashes path) (by omega)
  unfold nameiAt namei
  have hget : Tracks n 0 (aside (uiget rootDev rootIno)) (uiget rootDev rootIno)
      fun _ => 0 := Tracks.aside _ fun _ => Nat.le_refl _
  refine Tracks.bind hget fun ip => ?_
  rw [skipSlashes_append]
  refine Tracks.look (by simp) (by omega) ?_
  rw [hi]
  refine nameiLoopAt_tracks hrest _ _ (by omega) ?_ (by omega)
    (fun a ha => hnul a ((List.dropWhile_sublist _).subset ha)) (head_skipSlashes path)
  rw [List.length_append]
  omega

theorem createAt_tracks :
    Tracks n m (createAt (path ++ 0 :: rest)) (create path) fun _ => 0 := by
  have hskip : (skipSlashes path).length ≤ path.length :=
    (path.dropWhile_sublist (· == slash)).length_le
  obtain ⟨hend, hname⟩ := name_append rest (q := skipSlashes path)
    fun a ha => hnul a ((List.dropWhile_sublist _).subset ha)
  have hlen := ((skipSlashes path).dropWhile_sublist (· != slash)).length_le
  unfold createAt
  rw [skipSlashes_append]
  refine Tracks.look (by simp) (by rw [index_append hrest (by omega)]; omega) ?_
  refine Tracks.copyName (by rw [hend]; simp)
    (by rw [hend, index_append hrest (by omega)]; omega) ?_
  rw [hname, ← create_name path]
  exact Tracks.aside _ fun _ => Nat.zero_le _

/-- The open with its scans is the open of the model. -/
theorem fsOpenAt_tracks (hmsg : message req = path ++ 0 :: rest)
    (hstr : cString req = some path) :
    Tracks n 0 (fsOpenAt req) (fsOpen req) fun _ => 0 := by
  unfold fsOpenAt fsOpen
  rw [hmsg, hstr]
  have hopen : Tracks n 0 (openInodeAt (path ++ 0 :: rest) req.flags)
      (openInode path req.flags) fun _ => 0 := by
    unfold openInodeAt openInode
    refine Tracks.bind (nameiAt_tracks hrest hpath hnul) fun r => ?_
    cases r with
    | some ip => exact Tracks.ret _ (Nat.zero_le _)
    | none =>
      dsimp only
      split
      · exact createAt_tracks hrest hpath hnul
      · exact Tracks.ret _ (Nat.zero_le _)
  refine Tracks.bind hopen fun r => ?_
  cases r with
  | none => exact Tracks.ret _ (Nat.zero_le _)
  | some ip => exact Tracks.aside _ fun _ => Nat.le_refl _

end

theorem cString_split (h : message req = path ++ 0 :: rest) (hnul : ∀ a ∈ path, a ≠ 0) :
    cString req = some path := by
  show (if (message req).contains 0 then some ((message req).takeWhile (· != 0)) else none) = _
  rw [h, if_pos (by simp), List.takeWhile_append_of_pos fun a ha => bne_iff_ne.mpr (hnul a ha)]
  exact congrArg some (List.append_nil path)

-- ==== the path field

/-- An `OPEN` on its own: how it ends, the server then, and how far it read. -/
def opened (req : IpcMsg) (s : Srv) : Except Fault Answer × Srv × Reach :=
  exec (fsOpenAt req) (s, ⟨0, 0⟩)

/-- Whatever `data` holds, the scans of an `OPEN` stay inside `path` and `name`, and
what comes of it is the same. -/
structure InsidePath (req : IpcMsg) (s : Srv) : Prop where
  path : ∀ data, (opened { req with data := data } s).2.2.path < ipcPathSize
  name : ∀ data, (opened { req with data := data } s).2.2.name < dirsiz
  data : ∀ data, (opened { req with data := data } s).1 = (opened req s).1
    ∧ (opened { req with data := data } s).2.1 = (opened req s).2.1

theorem insidePath_of_nul (h : 0 ∈ pathBytes req) (s : Srv) : InsidePath req s := by
  obtain ⟨as, bs, heq, hno⟩ := List.eq_append_cons_of_mem h
  have hnul : ∀ a ∈ as, a ≠ 0 := fun a ha e => hno (e ▸ ha)
  have hlen : as.length + (bs.length + 1) = ipcPathSize := by
    rw [← List.length_cons, ← List.length_append, ← heq]
    exact Bytes.length_slice ..
  have hmsg (data : Bytes ipcDataSize) : message { req with data := data }
      = as ++ 0 :: (bs ++ data.slice 0 ipcDataSize) := by
    show pathBytes req ++ _ = _
    rw [heq]
    simp
  have hstr (data : Bytes ipcDataSize) := cString_split (hmsg data) hnul
  have hrun (data : Bytes ipcDataSize) : ∃ r, opened { req with data := data } s
      = ((exec (fsOpen req) s).1, (exec (fsOpen req) s).2, r)
        ∧ r.path ≤ as.length ∧ r.name < dirsiz := by
    have hsame : fsOpen { req with data := data } = fsOpen req := by
      unfold fsOpen
      rw [hstr data, show cString req = some as from hstr req.data]
    have hrest : as.length + 1 + (bs ++ data.slice 0 ipcDataSize).length
        = ipcPathSize + ipcDataSize := by
      rw [List.length_append, Bytes.length_slice]
      omega
    obtain ⟨r, hr, hn, hname, -⟩ := fsOpenAt_tracks hrest rfl hnul (hmsg data) (hstr data)
      s ⟨0, 0⟩ (Nat.zero_le _) (by decide) (Nat.le_refl _)
    exact ⟨r, hsame ▸ hr, hn, hname⟩
  obtain ⟨r₀, h₀, -⟩ : ∃ r, opened req s = (_, _, r) ∧ _ := hrun req.data
  refine ⟨fun data => ?_, fun data => ?_, fun data => ?_⟩
  all_goals obtain ⟨r, hr, hn, hname⟩ := hrun data; rw [hr]
  · exact Nat.lt_of_le_of_lt hn (by omega)
  · exact hname
  · rw [h₀]
    exact ⟨rfl, rfl⟩

-- ==== a file system that sends the scan on

/-- A path has at most half as many components as bytes, and they are made of
its bytes. -/
theorem components_spec (path : List UInt8) :
    2 * (components path).length ≤ path.length + 1
      ∧ ∀ c ∈ components path, ∀ a ∈ c, a ∈ path := by
  induction hn : path.length using Nat.strong_induction_on generalizing path with
  | h n ih =>
    cases path with
    | nil => exact ⟨Nat.zero_le _, by simp [components]⟩
    | cons a p =>
      rw [List.length_cons] at hn
      by_cases ha : a = 47
      · obtain ⟨hlen, hmem⟩ := ih p.length (by omega) p rfl
        rw [ha, components_slash]
        exact ⟨by omega, fun c hc x hx => List.mem_cons_of_mem _ (hmem c hc x hx)⟩
      have hsub := p.dropWhile_sublist (· != 47)
      have hhead := List.head?_dropWhile_not (· != 47) p
      have htake : ∀ x ∈ (a :: p).takeWhile (· != 47), x ∈ a :: p :=
        fun x hx => (List.takeWhile_sublist _).subset hx
      rw [components_cons ha, List.dropWhile_cons, if_pos (bne_iff_ne.mpr ha)]
      generalize p.dropWhile (· != 47) = q at hsub hhead ⊢
      cases q with
      | nil => exact ⟨by show 2 ≤ _; omega, by simpa [components] using htake⟩
      | cons b q =>
        have hb : b = 47 := by simpa using hhead
        have hle := hsub.length_le
        rw [List.length_cons] at hle
        obtain ⟨hlen, hmem⟩ := ih q.length (by omega) q rfl
        rw [hb, components_slash, List.length_cons]
        refine ⟨by omega, fun c hc x hx => ?_⟩
        rcases List.mem_cons.mp hc with rfl | hc
        · exact htake x hx
        · exact List.mem_cons_of_mem _
            (hsub.subset (List.mem_cons_of_mem _ (hmem c hc x hx)))

theorem lookup_dirBytes {es : List (Nat × List UInt8)} {e : Nat × List UInt8}
    (hes : SmallDir es) (hroot : ∀ e ∈ es, e.1 = rootIno) (he : e ∈ es)
    (hnul : ∀ a ∈ e.2, a ≠ 0) : lookup (dirBytes es) e.2 = some rootIno := by
  obtain ⟨k, hk⟩ := List.getElem?_of_mem he
  have hlen := length_dirBytes hes.names
  have hlt := (List.getElem?_eq_some_iff.mp hk).1
  have hd := dirent_dirBytes hes.names hk []
  rw [List.append_nil] at hd
  have hinum : entryInum (dirBytes es) k ≠ 0 := by
    obtain ⟨e', he', -, h'⟩ := rootImage_inum hes (k := k) (by omega)
    rw [h', hroot e' he']
    decide
  cases hl : lookup (dirBytes es) e.2 with
  | none =>
    refine absurd ?_ (lookup_none hl (k := k) (by omega) hinum)
    unfold entryName
    rw [hd, direntName_mkDirent]
    exact cstr_append_replicate hnul _
  | some i =>
    obtain ⟨j, hj, rfl, -⟩ := lookup_some hl
    obtain ⟨e', he', -, h'⟩ := rootImage_inum hes hj
    rw [h', hroot e' he']

/-- The entries that lead every component of a path back to the root. -/
def loops (path : List UInt8) : List (Nat × List UInt8) :=
  (components path).map fun c => (rootIno, c.take (dirsiz - 1))

section

variable (hlen : path.length = ipcPathSize) (hnul : ∀ a ∈ path, a ≠ 0)

include hlen

theorem loops_ok : SmallDir (loops path) := by
  have hhalf := (components_spec path).1
  have hpath : ipcPathSize = 64 := rfl
  unfold loops
  refine ⟨?_, fun e he => ?_, fun e he => ?_⟩
  · rw [List.length_map]
    omega
  all_goals obtain ⟨c, -, rfl⟩ := List.mem_map.mp he
  · exact Nat.le_trans (List.length_take_le ..) (by decide)
  · exact Or.inl rfl

include hnul

theorem walk_loops (cs : List (List UInt8)) (hcs : ∀ c ∈ cs, c ∈ components path) :
    (Core.start (rootImage (loops path))).walk rootIno cs = some rootIno := by
  induction cs with
  | nil => rfl
  | cons c cs ih =>
    have hmem : (rootIno, c.take (dirsiz - 1)) ∈ loops path :=
      List.mem_map.mpr ⟨c, hcs c List.mem_cons_self, rfl⟩
    have hroot : view smallSb (rootImage (loops path)) rootIno
        = some (tDir, dirBytes (loops path)) := rootImage_root (loops_ok hlen)
    refine (Core.walk_some (j := rootIno) ?_ (start_fits ..)).trans
      (ih fun d hd => hcs d (List.mem_cons_of_mem _ hd))
    refine (child_dir hroot).trans (lookup_dirBytes (loops_ok hlen) ?_ hmem ?_)
    · intro e he
      obtain ⟨c, -, rfl⟩ := List.mem_map.mp he
      rfl
    · exact fun a ha => hnul a ((components_spec path).2 c (hcs c List.mem_cons_self) a
        (List.mem_of_mem_take ha))

end

/-- An `OPEN` stays inside the path field in every state exactly if there is a NUL
in it. -/
theorem open_insidePath_iff (req : IpcMsg) :
    (∀ s, InsidePath req s) ↔ 0 ∈ pathBytes req := by
  refine ⟨fun h => ?_, insidePath_of_nul⟩
  by_contra hno
  have hnul : ∀ a ∈ pathBytes req, a ≠ 0 := fun a ha e => hno (e ▸ ha)
  have hlen : (pathBytes req).length = ipcPathSize := Bytes.length_slice ..
  have hes := loops_ok hlen
  have hmsg : message { req with data := Bytes.zero }
      = pathBytes req ++ 0 :: (Bytes.zero : Bytes ipcDataSize).slice 1 127 := rfl
  obtain ⟨hbuf, hcore⟩ := boot_spec (rootImage (loops (pathBytes req)))
  have himg : Image (getSuperblock (rootImage (loops (pathBytes req)) 1))
      (rootImage (loops (pathBytes req))) := by
    rw [rootImage_of_ne (by decide) (by decide)]
    exact rootImage_ok (loops_ok hlen)
  have hcache := start_cache himg
  have hwalk := walk_loops hlen hnul _ fun _ hc => hc
  have hp := (h (Srv.boot (rootImage (loops (pathBytes req))) fun _ => true)).path Bytes.zero
  rw [← hcore] at hcache hwalk
  generalize Srv.boot (rootImage (loops (pathBytes req))) (fun _ => true) = s
    at hbuf hcore hcache hwalk hp
  have himage : Image s.core.sb s.core.disk := by
    rw [hcore]
    exact himg
  have hfits : s.core.Fits rootIno rootIno := hcore ▸ start_fits ..
  obtain ⟨r, t, hexec, -, -, hwalked⟩ :=
    (namei_spec hnul hbuf hcache himage (hcache.get_root.mpr hfits)).run
  have hrest : ipcPathSize + 1 + ((Bytes.zero : Bytes ipcDataSize).slice 1 127).length
      = ipcPathSize + ipcDataSize := by
    rw [Bytes.length_slice]
    rfl
  obtain ⟨r', hr', -, -, hfar⟩ := nameiAt_tracks hrest hlen hnul s ⟨0, 0⟩ (Nat.zero_le _)
    (by decide) (Nat.le_refl _)
  rw [hexec] at hr' hfar
  cases r with
  | none => cases hwalk.symm.trans hwalked.2
  | some ip =>
    -- `namei` came to the NUL behind the field
    have hreach : ipcPathSize ≤ r'.path := hfar _ rfl
    unfold opened fsOpenAt openInodeAt at hp
    rw [hmsg, exec_bind, exec_bind, hr'] at hp
    exact absurd hp (Nat.not_lt.mpr hreach)

/-- An `OPEN` of 64 slashes, with `tail` behind them. -/
def slashes (tail : List UInt8) : IpcMsg :=
  { IpcMsg.zero with
    type := IpcMsgType.fsOpen.code
    path := Bytes.ofFn fun _ => slash
    data := Bytes.ofFn fun i => tail.getD i 0 }

/-- The scan goes on in `data`, and the answer is the root directory or a failure,
by what it finds there. -/
theorem open_reads_data :
    validIpcMsg (slashes []) = true ∧ validIpcMsg (slashes [98]) = true
      ∧ (opened (slashes []) (Srv.boot smallImage fun _ => true)).2.2.path = 64
      ∧ (opened (slashes [98]) (Srv.boot smallImage fun _ => true)).2.2.path = 65
      ∧ (opened (slashes []) (Srv.boot smallImage fun _ => true)).1.toOption.map
          (·.result) = some 0
      ∧ (opened (slashes [98]) (Srv.boot smallImage fun _ => true)).1.toOption.map
          (·.result) = some (-1) := by
  decide +kernel

end Xv6FsServer.Server
