/-
Fixed-size byte arrays, read and written at natural-number offsets.

`Bytes n` is a C array `uchar a[n]`. The type is a function out of
`Fin n`, so two arrays are equal exactly when their bytes are; the API
indexes with plain naturals (`get`, out of range reads as zero) and
builds with `ofFn`, so that every proof about a `memmove` or a field
store is a case split on one index, with no bound carried in the terms.

# Integers

`le16`/`le32` read a little-endian integer, `put16`/`put32` store one.
The two facts that all record layouts rest on are the round trip
(`le32_put32`) and the frame rule (`le32_put32_of_disjoint`); a layout
proof then only has to show that its field offsets are disjoint, which
is linear arithmetic.
-/
import Mathlib.Data.Fin.Basic
import Mathlib.Tactic.Ring
import Mathlib.Tactic.Linarith

namespace Xv6FsServer.Lib

variable {m y : Nat} {ws : List Nat} {bs src : List UInt8}

/-- A C byte array of `n` bytes. -/
def Bytes (n : Nat) : Type := Fin n → UInt8

namespace Bytes

variable {n : Nat}
variable {x off v : Nat}

/-- The byte at offset `i`; zero past the end. -/
def get (b : Bytes n) (i : Nat) : UInt8 :=
  if h : i < n then b ⟨i, h⟩ else 0

/-- The array whose byte at offset `i` is `f i`. -/
def ofFn (f : Nat → UInt8) : Bytes n := fun i => f i

/-- The all-zero array (`memset(a, 0, n)`). -/
def zero : Bytes n := fun _ => 0

instance : Inhabited (Bytes n) := ⟨zero⟩

@[simp] theorem get_ofFn (f : Nat → UInt8) (i : Nat) :
    (ofFn f : Bytes n).get i = if i < n then f i else 0 := by
  unfold get ofFn
  split <;> simp_all

@[simp] theorem get_zero (i : Nat) : (zero : Bytes n).get i = 0 := by
  unfold get zero
  split <;> rfl

theorem get_of_le {b : Bytes n} {i : Nat} (h : n ≤ i) : b.get i = 0 := by
  unfold get
  rw [dif_neg (by omega)]

/-- Arrays with equal bytes are equal. -/
@[ext] theorem ext {a b : Bytes n} (h : ∀ i, i < n → a.get i = b.get i) :
    a = b := by
  funext ⟨i, hi⟩
  have := h i hi
  unfold get at this
  rwa [dif_pos hi, dif_pos hi] at this

-- ==== regions

/-- `memmove(b + off, src, src.length)`. -/
def blit (b : Bytes n) (off : Nat) (src : List UInt8) : Bytes n :=
  ofFn fun i =>
    if off ≤ i ∧ i < off + src.length then src.getD (i - off) 0 else b.get i

/-- The `len` bytes at `off`, as `memmove(dst, b + off, len)` copies
them out. -/
def slice (b : Bytes n) (off len : Nat) : List UInt8 :=
  (List.range len).map fun i => b.get (off + i)

@[simp] theorem length_slice (b : Bytes n) (off len : Nat) :
    (b.slice off len).length = len := by
  simp [slice]

theorem get_blit (b : Bytes n) (off : Nat) (src : List UInt8) (i : Nat) :
    (b.blit off src).get i
      = if i < n ∧ off ≤ i ∧ i < off + src.length then src.getD (i - off) 0
        else b.get i := by
  unfold blit
  rw [get_ofFn]
  by_cases hi : i < n
  · simp [hi]
  · simp [hi, get_of_le (Nat.le_of_not_lt hi)]

-- ==== 16- and 32-bit fields

/-- The 16-bit little-endian integer at offset `off`. -/
def le16 (b : Bytes n) (off : Nat) : Nat :=
  (b.get off).toNat + 256 * (b.get (off + 1)).toNat

/-- The 32-bit little-endian integer at offset `off`. -/
def le32 (b : Bytes n) (off : Nat) : Nat :=
  (b.get off).toNat + 256 * (b.get (off + 1)).toNat
    + 65536 * (b.get (off + 2)).toNat + 16777216 * (b.get (off + 3)).toNat

/-- Byte `k` of the little-endian representation of `v`. -/
def byteOf (v k : Nat) : UInt8 := UInt8.ofNat (v / 256 ^ k)

/-- Store the low 16 bits of `v` at `off`. -/
def put16 (b : Bytes n) (off v : Nat) : Bytes n :=
  ofFn fun i => if off ≤ i ∧ i < off + 2 then byteOf v (i - off) else b.get i

/-- Store the low 32 bits of `v` at `off`. -/
def put32 (b : Bytes n) (off v : Nat) : Bytes n :=
  ofFn fun i => if off ≤ i ∧ i < off + 4 then byteOf v (i - off) else b.get i

theorem toNat_byteOf (v k : Nat) : (byteOf v k).toNat = v / 256 ^ k % 256 := by
  unfold byteOf
  exact UInt8.toNat_ofNat

theorem le16_lt (b : Bytes n) (off : Nat) : b.le16 off < 65536 := by
  have h0 := (b.get off).toNat_lt
  have h1 := (b.get (off + 1)).toNat_lt
  unfold le16
  omega

theorem le32_lt (b : Bytes n) (off : Nat) : b.le32 off < 4294967296 := by
  have h0 := (b.get off).toNat_lt
  have h1 := (b.get (off + 1)).toNat_lt
  have h2 := (b.get (off + 2)).toNat_lt
  have h3 := (b.get (off + 3)).toNat_lt
  unfold le32
  omega

/-- Integers whose bytes agree agree. -/
theorem le16_congr {a : Bytes n} {b : Bytes m}
    (h : ∀ k, k < 2 → a.get (x + k) = b.get (y + k)) : a.le16 x = b.le16 y := by
  have h0 := h 0 (by omega)
  have h1 := h 1 (by omega)
  unfold le16
  rw [Nat.add_zero, Nat.add_zero] at h0
  rw [h0, h1]

/-- Integers whose bytes agree agree. -/
theorem le32_congr {a : Bytes n} {b : Bytes m}
    (h : ∀ k, k < 4 → a.get (x + k) = b.get (y + k)) : a.le32 x = b.le32 y := by
  have h0 := h 0 (by omega)
  have h1 := h 1 (by omega)
  have h2 := h 2 (by omega)
  have h3 := h 3 (by omega)
  unfold le32
  rw [Nat.add_zero, Nat.add_zero] at h0
  rw [h0, h1, h2, h3]

@[simp] theorem le32_zero (off : Nat) : (zero : Bytes n).le32 off = 0 := by
  simp [le32]

@[simp] theorem le16_zero (off : Nat) : (zero : Bytes n).le16 off = 0 := by
  simp [le16]

theorem get_put16 (b : Bytes n) (off v i : Nat) :
    (b.put16 off v).get i
      = if i < n ∧ off ≤ i ∧ i < off + 2 then byteOf v (i - off)
        else b.get i := by
  unfold put16
  rw [get_ofFn]
  by_cases hi : i < n
  · simp [hi]
  · simp [hi, get_of_le (Nat.le_of_not_lt hi)]

theorem get_put32 (b : Bytes n) (off v i : Nat) :
    (b.put32 off v).get i
      = if i < n ∧ off ≤ i ∧ i < off + 4 then byteOf v (i - off)
        else b.get i := by
  unfold put32
  rw [get_ofFn]
  by_cases hi : i < n
  · simp [hi]
  · simp [hi, get_of_le (Nat.le_of_not_lt hi)]

/-- A stored 32-bit integer reads back. -/
theorem le32_put32 (b : Bytes n) (ho : off + 4 ≤ n) (hv : v < 4294967296) :
    (b.put32 off v).le32 off = v := by
  have hk : ∀ k, k < 4 → (b.put32 off v).get (off + k) = byteOf v k := by
    intro k hk
    rw [get_put32, if_pos (by omega), Nat.add_sub_cancel_left]
  have h0 := hk 0 (by omega)
  rw [Nat.add_zero] at h0
  unfold le32
  rw [h0, hk 1 (by omega), hk 2 (by omega), hk 3 (by omega)]
  simp only [toNat_byteOf]
  omega

/-- A stored 16-bit integer reads back. -/
theorem le16_put16 (b : Bytes n) (ho : off + 2 ≤ n) (hv : v < 65536) :
    (b.put16 off v).le16 off = v := by
  have hk : ∀ k, k < 2 → (b.put16 off v).get (off + k) = byteOf v k := by
    intro k hk
    rw [get_put16, if_pos (by omega), Nat.add_sub_cancel_left]
  have h0 := hk 0 (by omega)
  rw [Nat.add_zero] at h0
  unfold le16
  rw [h0, hk 1 (by omega)]
  simp only [toNat_byteOf]
  omega

-- The four frame rules: a store leaves every field alone that shares no
-- byte with it.

theorem le32_put32_of_disjoint (b : Bytes n) (h : x + 4 ≤ off ∨ off + 4 ≤ x) :
    (b.put32 off v).le32 x = b.le32 x :=
  le32_congr fun k hk => by rw [get_put32, if_neg (by omega)]

theorem le16_put32_of_disjoint (b : Bytes n) (h : x + 2 ≤ off ∨ off + 4 ≤ x) :
    (b.put32 off v).le16 x = b.le16 x :=
  le16_congr fun k hk => by rw [get_put32, if_neg (by omega)]

theorem le16_put16_of_disjoint (b : Bytes n) (h : x + 2 ≤ off ∨ off + 2 ≤ x) :
    (b.put16 off v).le16 x = b.le16 x :=
  le16_congr fun k hk => by rw [get_put16, if_neg (by omega)]

-- ==== arrays of words

/-- Store the words `ws` at `off`, `off + 4`, …: the loop
`for(i = 0; i < n; i++) a[i] = ws[i]` over an `int` array. -/
def putWords (b : Bytes n) (off : Nat) (ws : List Nat) : Bytes n :=
  ofFn fun i =>
    if off ≤ i ∧ i < off + 4 * ws.length
    then byteOf (ws.getD ((i - off) / 4) 0) ((i - off) % 4) else b.get i

/-- The `k` words at `off`, `off + 4`, …. -/
def words (b : Bytes n) (off k : Nat) : List Nat :=
  (List.range k).map fun i => b.le32 (off + 4 * i)

theorem get_putWords (b : Bytes n) (off : Nat) (ws : List Nat) (i : Nat) :
    (b.putWords off ws).get i
      = if i < n ∧ off ≤ i ∧ i < off + 4 * ws.length
        then byteOf (ws.getD ((i - off) / 4) 0) ((i - off) % 4)
        else b.get i := by
  unfold putWords
  rw [get_ofFn]
  by_cases hi : i < n
  · simp [hi]
  · simp [hi, get_of_le (Nat.le_of_not_lt hi)]

/-- Word `j` of a stored array reads back. -/
theorem le32_putWords (b : Bytes n) {j : Nat}
    (hn : off + 4 * ws.length ≤ n) (hj : j < ws.length) (hv : ws.getD j 0 < 4294967296) :
    (b.putWords off ws).le32 (off + 4 * j) = ws.getD j 0 := by
  have hk : ∀ k, k < 4 →
      (b.putWords off ws).get (off + 4 * j + k) = byteOf (ws.getD j 0) k := by
    intro k hk
    rw [get_putWords, if_pos (by omega)]
    rw [show (off + 4 * j + k - off) / 4 = j by omega,
      show (off + 4 * j + k - off) % 4 = k by omega]
  have h0 := hk 0 (by omega)
  rw [Nat.add_zero] at h0
  unfold le32
  rw [h0, hk 1 (by omega), hk 2 (by omega), hk 3 (by omega)]
  simp only [toNat_byteOf]
  omega

/-- A stored array of words reads back. -/
theorem words_putWords (b : Bytes n) (hn : off + 4 * ws.length ≤ n)
    (hv : ∀ w ∈ ws, w < 4294967296) :
    (b.putWords off ws).words off ws.length = ws := by
  unfold words
  refine List.ext_getElem (by simp) fun j hj hj' => ?_
  have hget : ws.getD j 0 = ws[j] := by
    rw [List.getD_eq_getElem?_getD, List.getElem?_eq_getElem hj']
    rfl
  rw [List.getElem_map, List.getElem_range,
    le32_putWords b hn hj' (by rw [hget]; exact hv _ (List.getElem_mem hj')),
    hget]

end Bytes

-- ==== byte lists

/-- `src` laid over `bs` at `off`, beyond its end if it reaches there. -/
def overlay (bs : List UInt8) (off : Nat) (src : List UInt8) : List UInt8 :=
  bs.take off ++ src ++ bs.drop (off + src.length)

theorem length_overlay (h : off ≤ bs.length) :
    (overlay bs off src).length = max bs.length (off + src.length) := by
  unfold overlay
  rw [List.length_append, List.length_append, List.length_take, List.length_drop]
  omega

theorem getD_overlay (h : off ≤ bs.length) (o : Nat) :
    (overlay bs off src).getD o 0
      = if off ≤ o ∧ o < off + src.length then src.getD (o - off) 0
        else bs.getD o 0 := by
  have htake : (bs.take off).length = off := by
    rw [List.length_take]
    omega
  unfold overlay
  simp only [List.getD_eq_getElem?_getD]
  by_cases hlo : o < off
  · rw [if_neg (by omega), List.append_assoc,
      List.getElem?_append_left (by omega), List.getElem?_take_of_lt hlo]
  · by_cases hhi : o < off + src.length
    · rw [if_pos ⟨by omega, hhi⟩, List.append_assoc,
        List.getElem?_append_right (by omega), htake,
        List.getElem?_append_left (by omega)]
    · rw [if_neg (by omega),
        List.getElem?_append_right (by rw [List.length_append]; omega),
        List.length_append, htake, List.getElem?_drop]
      congr 2
      omega

/-- Lists of bytes with the same length and the same bytes. -/
theorem list_eq_of_getD {as : List UInt8} (hlen : as.length = bs.length)
    (h : ∀ o, o < as.length → as.getD o 0 = bs.getD o 0) : as = bs := by
  refine List.ext_getElem hlen fun o h1 h2 => ?_
  have := h o h1
  rw [List.getD_eq_getElem?_getD, List.getD_eq_getElem?_getD,
    List.getElem?_eq_getElem h1, List.getElem?_eq_getElem h2] at this
  exact this

end Xv6FsServer.Lib
