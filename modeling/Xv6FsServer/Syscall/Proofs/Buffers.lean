/-
What becomes of a bad buffer.

No call refuses a buffer because of `argptr`: the test of its result never
holds (`withBuffer_eq`). So a call rejects a bad buffer exactly when it has
another reason to refuse (`Refuses`), and a good one it uses as it is
(`buffers_rejected`). The check itself lets page 0 through and all addresses
that agree with a good one in their low 32 bits.
-/
import Xv6FsServer.Syscall.Model

namespace Xv6FsServer.Syscall

open Outcome

variable {c : Caller} {f : File} {p : UInt64} {n size : Int32}

-- ==== the check

/-- Every byte of the buffer is in the process and not in its first page. -/
def Good (c : Caller) (size : Int32) : Prop :=
  0 ≤ size ∧ ∀ b : Nat, c.arg.toNat ≤ b → b < c.arg.toNat + size.toInt.toNat →
    pgSize.toNat ≤ b ∧ b < c.sz.toNat

/-- A bad buffer makes the call return -1 before it goes to memory, and a good
one is the one it uses. -/
def Checked (c : Caller) (a : Call) : Prop :=
  (¬ Good c a.size → call c a = .returns (-1))
    ∧ (Good c a.size → ∀ p, (call c a).used = some p → p = c.arg)

/-- No `addr_t` is negative. -/
theorem withBuffer_eq (c : Caller) (size : Int32) (rest : UInt64 → Outcome) :
    withBuffer c size rest = rest (argptr c size).2 := by
  unfold withBuffer
  exact if_neg fun h => UInt64.not_lt_zero h

theorem toInt_eq (n : Int32) : n.toInt = if 2 * n.toUInt32.toNat < 2 ^ 32
    then (n.toUInt32.toNat : Int) else n.toUInt32.toNat - (2 ^ 32 : Nat) :=
  BitVec.toInt_eq_toNat_cond n.toBitVec

theorem pos_iff : 0 < n ↔ 0 < n.toInt := Int32.lt_iff_toInt_lt

theorem neg_iff : n < 0 ↔ n.toInt < 0 := Int32.lt_iff_toInt_lt

/-- The pointer a call goes on with: its argument if the low 32 bits of it
and of its end lie in the process, and what was on the stack if not. -/
def Caller.pointer (c : Caller) (size : Int32) : UInt64 :=
  if c.arg.toNat % 2 ^ 32 < c.sz.toNat
      ∧ (c.arg.toNat + size.toInt.toNat) % 2 ^ 32 ≤ c.sz.toNat then c.arg
  else c.stack

theorem argptr_pointer (h : 0 < size) : (argptr c size).2 = c.pointer size := by
  rw [pos_iff] at h
  have hcut : c.arg.toUInt32.toUInt64.toNat = c.arg.toNat % 2 ^ 32 := by simp
  have hsum : (c.arg.toUInt32 + size.toUInt32).toUInt64.toNat
      = (c.arg.toNat + size.toInt.toNat) % 2 ^ 32 := by
    have hsize := toInt_eq size
    have hadd : (c.arg.toUInt32 + size.toUInt32).toUInt64.toNat
        = (c.arg.toNat % 2 ^ 32 + size.toUInt32.toNat) % 2 ^ 32 := by simp
    rw [hadd]
    split at hsize
    next => omega
    next => omega
  unfold argptr Caller.pointer
  split
  next hbad =>
    rw [if_neg]
    rw [UInt64.le_iff_toNat_le, UInt64.lt_iff_toNat_lt, hcut, hsum, neg_iff] at hbad
    omega
  next hok =>
    rw [if_pos]
    rw [UInt64.le_iff_toNat_le, UInt64.lt_iff_toNat_lt, hcut, hsum, neg_iff] at hok
    omega

theorem argptr_good (h : Good c size) (hpos : 0 < size) : (argptr c size).2 = c.arg := by
  rw [argptr_pointer hpos]
  rw [pos_iff] at hpos
  have hlast := h.2 (c.arg.toNat + size.toInt.toNat - 1) (by omega) (by omega)
  exact if_pos (by omega)

-- ==== other reasons

/-- `fileread` returns -1 without the buffer. -/
def File.refusesRead (f : File) (n : Int32) : Prop :=
  match f.target with
  | .remote reply => 0 < n ∧ (∀ r b, reply = some (r, b) → r < 0 ∨ r < b)
  | .pipe wait => f.readable = false ∨ wait = .abandoned
  | .inode off size => f.readable = false ∨ size < off ∨ off + n.toUInt32 < off
  | .console wait => f.readable = false ∨ 0 < n ∧ wait = .abandoned
  | .nodev => True

/-- The bytes `filewrite` tries first. -/
def firstChunk (n : Int32) : UInt32 := (if maxChunk < n then maxChunk else n).toUInt32

/-- `filewrite` returns -1 without the buffer; of a negative length too, and
of `-1` when it is a pipe's. -/
def File.refusesWrite (f : File) (n : Int32) : Prop :=
  match f.target with
  | .remote _ => False
  | .pipe wait => f.writable = false ∨ 0 < n ∧ wait = .abandoned ∨ n = -1
  | .inode off size => f.writable = false ∨ n < 0 ∨ 0 < n
      ∧ (size < off ∨ off + firstChunk n < off ∨ maxBytes < off + firstChunk n)
  | .console _ => f.writable = false ∨ n < 0
  | .nodev => f.writable = false ∨ n ≠ 0

/-- The page behind the pointer is not there, or not the process's. -/
def Caller.refusesPage (c : Caller) (va : UInt64) : Prop :=
  ∃ present user, c.pages va = .entry present user ∧ (present && user) = false

/-- The call has a reason of its own to return -1 before it uses its
buffer. -/
def Refuses (c : Caller) : Call → Prop
  | .sysRead file n => ∀ f, file = some f → f.refusesRead n
  | .sysWrite file n => ∀ f, file = some f → f.refusesWrite n
  | .sysFstat file => ∀ f, file = some f →
      (∃ r, f.target = .remote r) ∨ ∃ w, f.target = .pipe w
  | .sysPipe alloc slots => alloc = false ∨ slots = false
  | .sysSend =>
    c.refusesPage (pgRoundDown (c.pointer ipcMsgSize)).toUInt32.toUInt64
  | .sysRecv killed =>
    killed = true ∨ c.refusesPage (pgRoundDown (c.pointer ipcMsgSize))
  | .sysDiskRequest server operation =>
    server = false ∨ operation ≠ 0 ∧ operation ≠ 1

@[simp] theorem copies_ne_returns (c : Caller) (p : UInt64) (r : Int) :
    c.copies p ≠ .returns r := by
  intro h
  cases congrArg used h

@[simp] theorem returns_inj (r v : Int) : Outcome.returns r = .returns v ↔ r = v := by
  refine ⟨fun h => ?_, fun h => h ▸ rfl⟩
  exact Option.some.inj (congrArg ret h)

@[simp] theorem stops_ne_returns (r : Int) : Outcome.stops ≠ .returns r := by
  intro h
  cases congrArg ret h

theorem readi_refuses {off size n : UInt32} :
    readi c p off size n = .returns (-1) ↔ size < off ∨ off + n < off := by
  unfold readi
  split
  next hbad => exact iff_of_true rfl hbad
  next hok =>
    refine iff_of_false ?_ hok
    generalize (if size < off + n then size - off else n) = m
    by_cases hm : m = 0 <;> simp [hm]

theorem writei_refuses {off size n : UInt32} : writei c p off size n = .returns (-1)
    ↔ size < off ∨ off + n < off ∨ maxBytes < off + n := by
  rw [← or_assoc]
  unfold writei
  split
  next hbad => exact iff_of_true rfl (.inl hbad)
  next hok =>
    split
    next hbig => exact iff_of_true rfl (.inr hbig)
    next hfit => exact iff_of_false (copies_ne_returns c p _) (not_or.mpr ⟨hok, hfit⟩)

theorem sysRead_refuses :
    sysRead c (some f) n = .returns (-1) ↔ f.refusesRead n := by
  unfold sysRead File.refusesRead
  dsimp only
  rw [withBuffer_eq]
  generalize (argptr c n).2 = p
  cases htarget : f.target with
  | remote reply =>
    unfold readRemote
    cases reply with
    | none => by_cases h : 0 < n <;> simp [h]
    | some r =>
      obtain ⟨r, b⟩ := r
      by_cases h : 0 < n
      · by_cases h1 : r < 0
        · simp [h, h1]
        by_cases h2 : r < b
        · simp [h, h1, h2]
        by_cases h3 : r = 0
        · subst h3
          simp [h, h2]
        · simp [h, h1, h2, h3]
      · simp [h]
  | pipe wait =>
    unfold fileread
    cases hr : f.readable with
    | false => simp
    | true =>
      cases wait with
      | abandoned => simp [htarget]
      | ready count => by_cases h : 0 < n ∧ 0 < count <;> simp [htarget, h]
  | inode off size =>
    unfold fileread
    cases hr : f.readable with
    | false => simp
    | true => simp [htarget, readi_refuses]
  | console wait =>
    unfold fileread
    cases hr : f.readable with
    | false => simp
    | true =>
      by_cases h : 0 < n
      · cases wait with
        | abandoned | eof | char => simp [htarget, h]
      · simp [htarget, h]
  | nodev =>
    unfold fileread
    cases hr : f.readable with
    | false => simp
    | true => simp [htarget]

theorem sysWrite_refuses (hn : n ≠ 0) :
    sysWrite c (some f) n = .returns (-1) ↔ f.refusesWrite n := by
  have hcases : 0 < n ∨ n < 0 := by
    rw [pos_iff, neg_iff]
    have hne : n.toInt ≠ 0 := fun h => hn (Int32.toInt_inj.mp h)
    omega
  unfold sysWrite File.refusesWrite
  dsimp only
  rw [withBuffer_eq]
  generalize (argptr c n).2 = p
  cases htarget : f.target with
  | remote reply => by_cases h : 0 < n <;> simp [h]
  | pipe wait =>
    unfold filewrite
    cases hw : f.writable with
    | false => simp
    | true =>
      by_cases h : 0 < n
      · have hone : n ≠ -1 := by
          intro hone
          subst hone
          exact absurd h (by decide)
        cases wait with
        | abandoned => simp [htarget, h]
        | ready count => simp [htarget, h, hone]
      · simp [htarget, h, ← Int32.toInt_inj]
  | inode off size =>
    unfold filewrite
    cases hw : f.writable with
    | false => simp
    | true =>
      rcases hcases with h | h
      · have hneg : ¬ n < 0 := by
          rw [pos_iff] at h
          rw [neg_iff]
          omega
        simp [htarget, h, hneg, writei_refuses, firstChunk]
      · have hpos : ¬ 0 < n := by
          rw [neg_iff] at h
          rw [pos_iff]
          omega
        simp [htarget, h, hpos, hn]
  | console wait =>
    unfold filewrite
    cases hw : f.writable with
    | false => simp
    | true =>
      rcases hcases with h | h
      · have hneg : ¬ n < 0 := by
          rw [pos_iff] at h
          rw [neg_iff]
          omega
        simp [htarget, h, hneg]
      · have hpos : ¬ 0 < n := by
          rw [neg_iff] at h
          rw [pos_iff]
          omega
        simp [htarget, h, hpos, hn]
  | nodev =>
    unfold filewrite
    cases hw : f.writable with
    | false => simp
    | true => simp [htarget, hn]

theorem uva2ka_refuses {va : UInt64} :
    uva2ka c va (c.copies p) = .returns (-1) ↔ c.refusesPage va := by
  unfold uva2ka Caller.refusesPage
  cases hwalk : c.pages va with
  | noTable => simp
  | entry present user =>
    cases present with
    | false => simp
    | true => cases user <;> simp

theorem call_refuses {a : Call} (h : ¬ Good c a.size) :
    call c a = .returns (-1) ↔ Refuses c a := by
  -- an empty buffer is good
  have hne : a.size ≠ 0 := by
    intro hzero
    refine h (hzero ▸ ⟨by decide, fun b hlo hhi => ?_⟩)
    have hnone : (0 : Int32).toInt.toNat = 0 := by decide
    omega
  cases a with
  | sysRead file n =>
    cases file with
    | none => exact iff_of_true rfl nofun
    | some f =>
      refine sysRead_refuses.trans ⟨fun hr g hg => ?_, fun hr => hr f rfl⟩
      cases hg
      exact hr
  | sysWrite file n =>
    cases file with
    | none => exact iff_of_true rfl nofun
    | some f =>
      refine (sysWrite_refuses hne).trans ⟨fun hr g hg => ?_, fun hr => hr f rfl⟩
      cases hg
      exact hr
  | sysFstat file =>
    cases file with
    | none => exact iff_of_true rfl nofun
    | some f =>
      unfold call sysFstat Refuses
      dsimp only
      rw [withBuffer_eq]
      cases htarget : f.target <;> simp [htarget]
  | sysPipe alloc slots =>
    unfold call sysPipe Refuses
    dsimp only
    rw [withBuffer_eq]
    cases alloc <;> cases slots <;> simp
  | sysSend =>
    unfold call sysSend Refuses
    rw [withBuffer_eq, argptr_pointer (by decide)]
    exact uva2ka_refuses
  | sysRecv killed =>
    unfold call sysRecv Refuses
    dsimp only
    rw [withBuffer_eq, argptr_pointer (by decide)]
    cases killed with
    | false => simpa using uva2ka_refuses
    | true => simp
  | sysDiskRequest server operation =>
    unfold call sysDiskRequest Refuses
    dsimp only
    rw [withBuffer_eq]
    cases server with
    | false => simp
    | true =>
      by_cases h0 : operation = 0
      · simp [h0]
      · by_cases h1 : operation = 1 <;> simp [h0, h1]

-- ==== the pointer used

/-- If the outcome has gone to memory, then through `p` and for some bytes. -/
def Outcome.Through (o : Outcome) (p : UInt64) (n : Int32) : Prop :=
  ∀ q, o.used = some q → q = p ∧ n ≠ 0

theorem Outcome.through_returns (r : Int) : (Outcome.returns r).Through p n := nofun

theorem through_copies (c : Caller) (p : UInt64) (h : n ≠ 0) :
    (c.copies p).Through p n := by
  intro q hq
  cases hq
  exact ⟨rfl, h⟩

theorem ne_zero_of_pos (h : 0 < n) : n ≠ 0 := by
  intro hzero
  subst hzero
  exact absurd h (by decide)

theorem readi_through {off size : UInt32} :
    (readi c p off size n.toUInt32).Through p n := by
  unfold readi
  split
  next => exact through_returns _
  next hok =>
    dsimp only
    generalize hm : (if size < off + n.toUInt32 then size - off else n.toUInt32) = m
    split
    next => exact through_returns _
    next hsome =>
      refine through_copies c p fun hzero => hsome ?_
      have hoff : off + (0 : Int32).toUInt32 = off := UInt32.add_zero off
      rw [← hm, hzero, hoff, if_neg fun hlt => hok (.inl hlt)]
      rfl

theorem readRemote_through {reply : Option (Int × Int)} :
    (readRemote c reply p n).Through p n := by
  unfold readRemote
  split
  next h =>
    split
    next => exact through_returns _
    split
    next => exact through_returns _
    split
    next => exact through_returns _
    split
    next => exact through_returns _
    next => exact through_copies c _ (ne_zero_of_pos h)
  next => exact through_returns _

theorem fileread_through : (fileread c f p n).Through p n := by
  unfold fileread
  split
  next => exact through_returns _
  split
  next => nofun
  next => exact through_returns _
  next =>
    split
    next h => exact through_copies c p (ne_zero_of_pos h.1)
    next => exact through_returns _
  next => exact readi_through
  next =>
    split
    next h =>
      split
      next => exact through_returns _
      next => exact through_returns _
      next => exact through_copies c p (ne_zero_of_pos h)
    next => exact through_returns _
  next => exact through_returns _

theorem filewrite_through : (filewrite c f p n).Through p n := by
  have hwritei : ∀ {off size m : UInt32}, 0 < n → (writei c p off size m).Through p n := by
    intro off size m h
    unfold writei
    split
    next => exact through_returns _
    split
    next => exact through_returns _
    next => exact through_copies c p (ne_zero_of_pos h)
  unfold filewrite
  split
  next => exact through_returns _
  split
  next => nofun
  next =>
    split
    next h =>
      split
      next => exact through_returns _
      next => exact through_copies c p (ne_zero_of_pos h)
    next => exact through_returns _
  next =>
    split
    next h => exact hwritei h
    next => exact through_returns _
  next =>
    split
    next h => exact through_copies c p (ne_zero_of_pos h)
    next => exact through_returns _
  next =>
    split
    next => exact through_returns _
    next => exact through_returns _

theorem call_through (c : Caller) (a : Call) :
    (call c a).Through (argptr c a.size).2 a.size := by
  have hpage : ∀ {va p : UInt64}, (uva2ka c va (c.copies p)).Through p ipcMsgSize := by
    intro va p
    unfold uva2ka
    split
    next => nofun
    split
    next => exact through_returns _
    split
    next => exact through_returns _
    next => exact through_copies c p (by decide)
  cases a with
  | sysRead file n =>
    cases file with
    | none => exact through_returns _
    | some f =>
      unfold call sysRead
      dsimp only
      rw [withBuffer_eq]
      split
      next => exact readRemote_through
      next => exact fileread_through
  | sysWrite file n =>
    cases file with
    | none => exact through_returns _
    | some f =>
      unfold call sysWrite
      dsimp only
      rw [withBuffer_eq]
      split
      next =>
        split
        next h => exact through_copies c _ (ne_zero_of_pos h)
        next => exact through_returns _
      next => exact filewrite_through
  | sysFstat file =>
    cases file with
    | none => exact through_returns _
    | some f =>
      unfold call sysFstat
      dsimp only
      rw [withBuffer_eq]
      split
      next => exact through_returns _
      next => exact through_returns _
      next => exact through_copies c _ (show statSize ≠ 0 by decide)
  | sysPipe alloc slots =>
    unfold call sysPipe
    dsimp only
    rw [withBuffer_eq]
    split
    next => exact through_returns _
    split
    next => exact through_returns _
    next => exact through_copies c _ (show (8 : Int32) ≠ 0 by decide)
  | sysSend =>
    unfold call sysSend
    rw [withBuffer_eq]
    exact hpage
  | sysRecv killed =>
    unfold call sysRecv
    dsimp only
    rw [withBuffer_eq]
    split
    next => exact through_returns _
    next => exact hpage
  | sysDiskRequest server operation =>
    unfold call sysDiskRequest
    dsimp only
    rw [withBuffer_eq]
    split
    next => exact through_returns _
    split
    next => exact through_copies c _ (show (512 : Int32) ≠ 0 by decide)
    split
    next => exact through_copies c _ (show (512 : Int32) ≠ 0 by decide)
    next => exact through_returns _

/-- A call rejects bad buffers if it is given a good one, or refuses for
another reason; and in no other case. -/
theorem buffers_rejected (c : Caller) (a : Call) :
    Checked c a ↔ Good c a.size ∨ Refuses c a := by
  constructor
  · intro h
    by_cases hgood : Good c a.size
    · exact .inl hgood
    · exact .inr ((call_refuses hgood).mp (h.1 hgood))
  · intro h
    refine ⟨fun hbad => (call_refuses hbad).mpr (h.resolve_left hbad), ?_⟩
    intro hgood p hp
    obtain ⟨rfl, hne⟩ := call_through c a p hp
    exact argptr_good hgood (Int32.lt_of_le_of_ne hgood.1 hne.symm)

/-- A process of four pages asks for eight bytes of an open file, to be put
where the kernel is. -/
def intoKernel : Caller where
  arg := 0xFFFF800000002000
  sz := 0x4000
  stack := 0
  pages := fun _ => .noTable
  transfer := some 8

theorem kernel_overwritten :
    ¬ Checked intoKernel (.sysRead (some ⟨true, false, .inode 0 100⟩) 8)
      ∧ call intoKernel (.sysRead (some ⟨true, false, .inode 0 100⟩) 8)
        = ⟨some 8, some 0xFFFF800000002000⟩ := by
  have hcall : call intoKernel (.sysRead (some ⟨true, false, .inode 0 100⟩) 8)
      = ⟨some 8, some 0xFFFF800000002000⟩ := by
    decide
  refine ⟨fun h => ?_, hcall⟩
  have hbad : ¬ Good intoKernel 8 := by
    intro hgood
    have hlast := (hgood.2 intoKernel.arg.toNat (Nat.le_refl _) (by decide)).2
    exact absurd hlast (by decide)
  rw [h.1 hbad] at hcall
  cases congrArg used hcall

end Xv6FsServer.Syscall
