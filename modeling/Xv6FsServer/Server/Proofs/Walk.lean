/-
The file code, walked through once.

A `Discipline` is a statement about the server that the changes made by
the file code keep: new data in a buffer, a reference taken or given back,
a slot of the inode cache filled. `H` and `R` list the buffers and the
inode slots that the running code holds. Each function below comes with
the references it returns with, on every way out and with every outcome of
the disk requests on the way; a function that returns a pointer returns
one reference with it, a null pointer none. `I` is what is left of the
statement where the code stops with a fault.
-/
import Xv6FsServer.Server.Model

namespace Xv6FsServer.Server

open Lib Fs Function Meets

variable {s t : Srv} {H R : List Nat}

/-- The changes the file code makes to the server's memory, one rule for each. -/
structure Discipline (I : Srv → Prop) (P : Srv → List Nat → List Nat → Prop) :
    Prop where
  stop : ∀ {s H R}, P s H R → I s
  congr : ∀ {s t H R}, P s H R → t.bufs = s.bufs → t.inodes = s.inodes →
    t.fdTable = s.fdTable → t.fdInodes = s.fdInodes → P t H R
  hold : ∀ {s H R i} {f : UBuf → UBuf}, P s H R →
    (f (s.bufs i)).refcnt = (s.bufs i).refcnt + 1 → P (s.setBuf i f) (i :: H) R
  setData : ∀ {s H R i} {f : UBuf → UBuf}, P s H R →
    (f (s.bufs i)).refcnt = (s.bufs i).refcnt → P (s.setBuf i f) H R
  release : ∀ {s H R i}, P s (i :: H) R →
    P (s.setBuf i fun b => { b with refcnt := b.refcnt - 1 }) H R
  share : ∀ {s H R i}, P s H R → 0 < (s.inodes i).ref →
    P (s.setInode i fun n => { n with ref := n.ref + 1 }) H (i :: R)
  enter : ∀ {s H R i} {f : UInode → UInode}, P s H R → i < ninode →
    (s.inodes i).ref = 0 → (f (s.inodes i)).ref = 1 →
    (∀ j, j < ninode → 0 < (s.inodes j).ref →
      (s.inodes j).dev = (f (s.inodes i)).dev →
      (s.inodes j).inum ≠ (f (s.inodes i)).inum) →
    P (s.setInode i f) H (i :: R)
  setFields : ∀ {s H R i} {f : UInode → UInode}, P s H R →
    (f (s.inodes i)).dev = (s.inodes i).dev →
    (f (s.inodes i)).inum = (s.inodes i).inum →
    (f (s.inodes i)).ref = (s.inodes i).ref → P (s.setInode i f) H R
  put : ∀ {s H R i}, P s H (i :: R) →
    P (s.setInode i fun n =>
      { n with
        ref := n.ref - 1
        valid := if n.ref - 1 = 0 then false else n.valid }) H R
  perm : ∀ {s H R R'}, P s H R → R.Perm R' → P s H R'

variable {I : Srv → Prop} {P : Srv → List Nat → List Nat → Prop}

-- ==== buffers

section

variable (d : Discipline I P)
include d

/-- The buffer comes with a reference of the caller's, if there is one. -/
theorem ubufGet_keeps (h : P s H R) (dev b : Nat) :
    Leaves I (ubufGet dev b) s fun r t => P t (r.toList ++ H) R := by
  unfold ubufGet
  apply get_bind
  split
  next i _ =>
    apply modify_bind
    exact ret (d.hold h rfl)
  next =>
    split
    next i hfree =>
      obtain ⟨-, -, h0, -⟩ := first_some hfree
      rw [beq_iff_eq] at h0
      apply modify_bind
      exact ret (d.hold h (by rw [h0]; rfl))
    next => exact ret h

/-- A read that fails gives its buffer back. -/
theorem ubread_keeps (h : P s H R) (dev b : Nat) :
    Leaves I (ubread dev b) s fun r t => P t (r.toList ++ H) R := by
  unfold ubread
  refine (ubufGet_keeps d h dev b).seq fun r t ht => ?_
  split
  next => exact ret ht
  next i =>
    apply get_bind
    split
    next => exact ret ht
    apply Meets.bind
    unfold diskRead
    apply get_bind
    apply modify_bind
    apply ret
    have ht' : P { t with io := t.io + 1 } (i :: H) R := d.congr ht rfl rfl rfl rfl
    split
    next =>
      apply modify_bind
      exact ret (d.release ht')
    next =>
      apply modify_bind
      exact ret (d.setData ht' rfl)

/-- Write-through: memory stays as it is. -/
theorem ubwrite_keeps (h : P s H R) (i : Nat) :
    Leaves I (ubwrite i) s fun _ t => P t H R := by
  apply get_bind
  apply change
  exact d.congr h rfl rfl rfl rfl

theorem ubrelse_keeps {i : Nat} (h : P s (i :: H) R) :
    Leaves I (ubrelse i) s fun _ t => P t H R := by
  apply change
  exact d.release h

/-- The end of every change of a block: new data, `ubwrite`, `ubrelse`. -/
theorem writeBack_keeps {i : Nat} (h : P s (i :: H) R)
    (f : UBuf → UBuf) (hf : ∀ b, (f b).refcnt = b.refcnt) {α : Type} {x : Op α}
    {Q : α → Srv → Prop} (hx : ∀ t, P t H R → Leaves I x t Q) :
    Leaves I (do setBuf i f; ubwrite i; ubrelse i; x) s Q := by
  apply modify_bind
  refine (ubwrite_keeps d (d.setData h (hf _)) i).seq fun _ t ht => ?_
  exact (ubrelse_keeps d ht).seq fun _ u hu => hx u hu

-- ==== inodes

/-- The slot that has the inode is shared; only if none has it is one filled. -/
theorem uiget_keeps (h : P s H R) (dev inum : Nat) :
    Leaves I (uiget dev inum) s fun r t => P t H (r.toList ++ R) := by
  unfold uiget
  apply get_bind
  split
  next i hfound =>
    obtain ⟨-, -, htest, -⟩ := first_some hfound
    rw [Bool.and_eq_true, Bool.and_eq_true, decide_eq_true_eq] at htest
    apply modify_bind
    exact ret (d.share h htest.1.1)
  next hnone =>
    split
    next i hfree =>
      obtain ⟨-, hlt, h0, -⟩ := first_some hfree
      rw [beq_iff_eq] at h0
      apply modify_bind
      refine ret (d.enter h (by omega) h0 rfl fun j hj hjref hdev hinum => ?_)
      have hno := first_none hnone j (Nat.zero_le _) (by omega)
      rw [hdev, hinum, decide_eq_true hjref] at hno
      simp at hno
    next => exact ret h

theorem uiput_keeps {i : Nat} (h : P s H (i :: R)) :
    Leaves I (uiput i) s fun _ t => P t H R := by
  apply change
  exact d.put h

/-- Loading changes an inode's fields, not which inode it is. -/
theorem uilock_keeps (h : P s H R) (ip : Nat) :
    Leaves I (uilock ip) s fun _ t => P t H R := by
  unfold uilock
  apply get_bind
  split
  next => exact ret h
  refine (ubread_keeps d h _ _).seq fun r t ht => ?_
  split
  next => exact ret ht
  next bp =>
    apply get_bind
    apply modify_bind
    refine (ubrelse_keeps d (d.setFields ht rfl rfl rfl)).seq fun _ u hu => ?_
    apply change
    exact d.setFields hu rfl rfl rfl

theorem uiupdate_keeps (h : P s H R) (ip : Nat) :
    Leaves I (uiupdate ip) s fun _ t => P t H R := by
  unfold uiupdate
  apply get_bind
  refine (ubread_keeps d h _ _).seq fun r t ht => ?_
  split
  next => exact ret ht
  next bp =>
    apply modify_bind
    refine (ubwrite_keeps d (d.setData ht rfl) bp).seq fun _ u hu => ?_
    exact ubrelse_keeps d hu

theorem readsb_keeps (h : P s H R) : Leaves I readsb s fun _ t => P t H R := by
  unfold readsb
  refine (ubread_keeps d h _ _).seq fun r t ht => ?_
  split
  next => exact ret ht
  next bp =>
    apply modify_bind
    exact ubrelse_keeps d (d.congr ht rfl rfl rfl rfl)

-- ==== blocks and files

/-- One bitmap block is held at a time. -/
theorem balloc_keeps (h : P s H R) : Leaves I balloc s fun _ t => P t H R := by
  have hloop : ∀ n b s, P s H R →
      Leaves I (ballocLoop n b) s fun _ t => P t H R := by
    intro n
    induction n with
    | zero => exact fun _ _ hs => ret hs
    | succ n ih =>
      intro b s hs
      unfold ballocLoop
      apply get_bind
      refine (ubread_keeps d hs _ _).seq fun r t ht => ?_
      split
      next => exact ih _ t ht
      next bp =>
        apply get_bind
        split
        next bi _ =>
          apply writeBack_keeps d (H := H) ht
          · exact fun _ => rfl
          · exact fun u hu => ret hu
        next =>
          exact (ubrelse_keeps d ht).seq fun _ u hu => ih _ u hu
  apply get_bind
  exact hloop _ _ s h

/-- A block that the inode itself lists. -/
theorem bmapAddr_keeps (h : P s H R) (ip k : Nat) :
    Leaves I (bmapAddr ip k) s fun _ t => P t H R := by
  unfold bmapAddr
  apply get_bind
  split
  next =>
    refine (balloc_keeps d h).seq fun addr t ht => ?_
    split
    next => exact ret ht
    next =>
      apply modify_bind
      exact ret (d.setFields ht rfl rfl rfl)
  next => exact ret h

/-- A block that the indirect block lists, which is held across `balloc`. -/
theorem bmapEntry_keeps (h : P s H R) (ind k : Nat) :
    Leaves I (bmapEntry ind k) s fun _ t => P t H R := by
  unfold bmapEntry
  refine (ubread_keeps d h _ _).seq fun r t ht => ?_
  split
  next => exact ret ht
  next bp =>
    apply get_bind
    split
    next =>
      refine (balloc_keeps d ht).seq fun addr u hu => ?_
      split
      next =>
        exact (ubrelse_keeps d hu).seq fun _ v hv => ret hv
      apply writeBack_keeps d (H := H) hu
      · exact fun _ => rfl
      · exact fun v hv => ret hv
    next =>
      exact (ubrelse_keeps d ht).seq fun _ u hu => ret hu

theorem bmap_keeps (h : P s H R) (ip bn : Nat) :
    Leaves I (bmap ip bn) s fun _ t => P t H R := by
  unfold bmap
  split
  next => exact bmapAddr_keeps d h ip bn
  split
  next =>
    refine (bmapAddr_keeps d h ip ndirect).seq fun ind t ht => ?_
    split
    next => exact ret ht
    next => exact bmapEntry_keeps d ht ind _
  next => exact ret h

/-- By induction on the rounds: each gets, fills and releases one block. -/
theorem uwriteiLoop_keeps (ip k off : Nat) (src : List UInt8) (h : P s H R) :
    Leaves I (uwriteiLoop ip k off src) s fun _ t => P t H R := by
  induction k generalizing off src s with
  | zero => exact ret h
  | succ k ih =>
    unfold uwriteiLoop
    split
    next => exact ret h
    refine (bmap_keeps d h ip _).seq fun addr t ht => ?_
    split
    next => exact ret ht
    refine (ubread_keeps d ht _ _).seq fun r u hu => ?_
    split
    next => exact ret hu
    next bp =>
      apply writeBack_keeps d (H := H) hu
      · exact fun _ => rfl
      · exact fun v hv => ih _ _ hv

theorem uwritei_keeps (h : P s H R) (ip : Nat) (src : List UInt8) (off : Nat) :
    Leaves I (uwritei ip src off) s fun _ t => P t H R := by
  unfold uwritei
  dsimp only
  split
  next => exact ret h
  refine (uwriteiLoop_keeps d ip _ off src h).seq fun r t ht => ?_
  split
  next => exact ret ht
  apply get_bind
  split
  next =>
    apply modify_bind
    exact (uiupdate_keeps d (d.setFields ht rfl rfl rfl) ip).seq
      fun _ u hu => ret hu
  next => exact ret ht

/-- Reading goes through `bmap` too, and may allocate. -/
theorem ureadiLoop_keeps (ip k off n : Nat) (h : P s H R) :
    Leaves I (ureadiLoop ip k off n) s fun _ t => P t H R := by
  induction k generalizing off n s with
  | zero => exact ret h
  | succ k ih =>
    unfold ureadiLoop
    split
    next => exact ret h
    refine (bmap_keeps d h ip _).seq fun addr t ht => ?_
    split
    next => exact ret ht
    refine (ubread_keeps d ht _ _).seq fun r u hu => ?_
    split
    next => exact ret hu
    next bp =>
      apply get_bind
      refine (ubrelse_keeps d hu).seq fun _ v hv => ?_
      refine (ih _ _ hv).seq fun rest w hw => ?_
      split <;> exact ret hw

theorem ureadi_keeps (h : P s H R) (ip off n : Nat) :
    Leaves I (ureadi ip off n) s fun _ t => P t H R := by
  unfold ureadi
  apply get_bind
  dsimp only
  split
  next => exact ret h
  next => exact ureadiLoop_keeps d ip _ off _ h

-- ==== directories, paths

/-- An entry that is found comes back as a reference. -/
theorem dirlookup_keeps (h : P s H R) (dp : Nat) (name : List UInt8) :
    Leaves I (dirlookup dp name) s fun r t => P t H (r.toList ++ R) := by
  have hloop : ∀ k off s, P s H R → Leaves I (dirlookupLoop dp name k off) s
      fun r t => P t H (r.toList ++ R) := by
    intro k
    induction k with
    | zero => exact fun _ _ hs => ret hs
    | succ k ih =>
      intro off s hs
      unfold dirlookupLoop
      apply get_bind
      split
      next =>
        refine (ureadi_keeps d hs dp off 16).seq fun r t ht => ?_
        split
        next => exact ret ht
        next de =>
          split
          next => exact ret ht
          split
          next => exact ih _ t ht
          split
          next =>
            apply get_bind
            exact uiget_keeps d ht _ _
          next => exact ih _ t ht
      next => exact ret hs
  unfold dirlookup
  apply get_bind
  split
  next => exact ret h
  next => exact hloop _ _ s h

/-- A name that exists is looked up and put back; a directory that cannot be
read is a fault. -/
theorem dirlink_keeps (h : P s H R) (dp : Nat) (name : List UInt8) (inum : Nat) :
    Leaves I (dirlink dp name inum) s fun _ t => P t H R := by
  have hloop : ∀ k off s, P s H R →
      Leaves I (dirlinkLoop dp k off) s fun _ t => P t H R := by
    intro k
    induction k with
    | zero => exact fun _ _ hs => ret hs
    | succ k ih =>
      intro off s hs
      unfold dirlinkLoop
      apply get_bind
      split
      next =>
        refine (ureadi_keeps d hs dp off 16).seq fun r t ht => ?_
        split
        next => exact fault (d.stop ht)
        next de =>
          split
          next => exact fault (d.stop ht)
          split
          next => exact ret ht
          next => exact ih _ t ht
      next => exact ret hs
  unfold dirlink
  refine (dirlookup_keeps d h dp name).seq fun r t ht => ?_
  split
  next ip =>
    exact (uiput_keeps d ht).seq fun _ u hu => ret hu
  apply get_bind
  refine (hloop _ _ t ht).seq fun off u hu => ?_
  refine (uwritei_keeps d hu dp _ off).seq fun n v hv => ?_
  split
  next => exact fault (d.stop hv)
  next => exact ret hv

/-- The next inode is looked up before the last one is put, so two are held
for a moment. -/
theorem namei_keeps (h : P s H R) (path : List UInt8) :
    Leaves I (namei path) s fun r t => P t H (r.toList ++ R) := by
  have hloop : ∀ k ip p s, P s H (ip.toList ++ R) →
      Leaves I (nameiLoop k ip p) s fun r t => P t H (r.toList ++ R) := by
    intro k
    induction k with
    | zero => exact fun _ _ _ hs => ret hs
    | succ k ih =>
      intro ip p s hs
      unfold nameiLoop
      split
      next => exact ret hs
      split
      next => exact fault (d.stop hs)
      next ip =>
        refine (uilock_keeps d hs ip).seq fun _ t ht => ?_
        apply get_bind
        split
        next =>
          exact (uiput_keeps d ht).seq fun _ u hu => ret hu
        refine (dirlookup_keeps d ht ip _).seq fun r u hu => ?_
        split
        next =>
          exact (uiput_keeps d hu).seq fun _ v hv => ret hv
        next next =>
          exact (uiput_keeps d (d.perm hu (.swap ..))).seq
            fun _ v hv => ih _ _ v hv
  exact (uiget_keeps d h _ _).seq fun r t ht => hloop _ r _ t ht

/-- The inode is marked on disk first and entered in the cache then. -/
theorem ialloc_keeps (h : P s H R) (type : Nat) :
    Leaves I (ialloc type) s fun r t => P t H (r.toList ++ R) := by
  have hloop : ∀ n inum s, P s H R → Leaves I (iallocLoop type n inum) s
      fun r t => P t H (r.toList ++ R) := by
    intro n
    induction n with
    | zero => exact fun _ _ hs => ret hs
    | succ n ih =>
      intro inum s hs
      unfold iallocLoop
      apply get_bind
      refine (ubread_keeps d hs _ _).seq fun r t ht => ?_
      split
      next => exact ih _ t ht
      next bp =>
        apply get_bind
        split
        next =>
          apply writeBack_keeps d (H := H) ht
          · exact fun _ => rfl
          · exact fun u hu => uiget_keeps d hu _ _
        next =>
          exact (ubrelse_keeps d ht).seq fun _ u hu => ih _ u hu
  apply get_bind
  exact hloop _ _ s h

/-- The parent is put on every way out, the new inode only if it could not be
linked. -/
theorem create_keeps (h : P s H R) (path : List UInt8) :
    Leaves I (create path) s fun r t => P t H (r.toList ++ R) := by
  unfold create
  refine (uiget_keeps d h _ _).seq fun r t ht => ?_
  split
  next => exact ret ht
  next dp =>
    refine (uilock_keeps d ht dp).seq fun _ t ht => ?_
    refine (ialloc_keeps d ht _).seq fun r t ht => ?_
    split
    next =>
      exact (uiput_keeps d ht).seq fun _ u hu => ret hu
    next ip =>
      refine (uilock_keeps d ht ip).seq fun _ t ht => ?_
      apply modify_bind
      refine (uiupdate_keeps d (d.setFields ht rfl rfl rfl) ip).seq fun _ t ht => ?_
      apply get_bind
      refine (dirlink_keeps d ht dp _ _).seq fun r t ht => ?_
      split
      next =>
        apply modify_bind
        refine (uiupdate_keeps d (d.setFields ht rfl rfl rfl) ip).seq
          fun _ t ht => ?_
        refine (uiput_keeps d ht).seq fun _ t ht => ?_
        exact (uiput_keeps d ht).seq fun _ t ht => ret ht
      next =>
        exact (uiput_keeps d (d.perm ht (.swap ..))).seq fun _ t ht => ret ht

/-- `fs_open` up to its inode: the path's, or a new one. -/
theorem openInode_keeps (h : P s H R) (path : List UInt8) (flags : Int) :
    Leaves I (openInode path flags) s fun r t => P t H (r.toList ++ R) := by
  unfold openInode
  refine (namei_keeps d h path).seq fun r t ht => ?_
  split
  next => exact ret ht
  split
  next => exact create_keeps d ht path
  next => exact ret ht

end

end Xv6FsServer.Server
