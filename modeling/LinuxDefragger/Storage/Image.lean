import Mathlib.Data.List.Basic
import Mathlib.Data.Nat.Bitwise
import Mathlib.Tactic.IntervalCases
import Mathlib.Tactic.Linarith

/-!
# Byte images and little-endian words

The contents of a storage device as a total function from addresses to bytes, with reads and writes
of byte ranges, and the little-endian words every on-disk structure is made of.

Nothing here depends on a file system. A buffer that was read from a device is an `Image` as well:
the view `fun i ↦ m (off + i)`, of which only the first bytes are meant.
-/

open List

namespace Storage

/-- The contents of a device, or of a buffer: one byte per address. -/
abbrev Image := ℕ → UInt8

variable {o : ℕ}

namespace Image

variable {m m' : Image} {off n a : ℕ} {data : List UInt8}

/-! ### Reading and writing byte ranges -/

/-- The `n` bytes from address `off` on. -/
def read (m : Image) (off n : ℕ) : List UInt8 :=
  (List.range n).map fun i ↦ m (off + i)

/-- The image with `data` stored from address `off` on. -/
def write (m : Image) (off : ℕ) (data : List UInt8) : Image := fun a ↦
  if off ≤ a then (data[a - off]?).getD (m a) else m a

/-- The image seen from address `off` on, which is what a buffer filled from there holds. -/
def view (m : Image) (off : ℕ) : Image := fun i ↦ m (off + i)

@[simp] theorem view_apply (m : Image) (off i : ℕ) : m.view off i = m (off + i) := rfl

theorem view_view (m : Image) (off o : ℕ) : (m.view off).view o = m.view (off + o) := by
  funext i
  simp only [view_apply, Nat.add_assoc]

@[simp] theorem read_length (m : Image) (off n : ℕ) : (m.read off n).length = n := by
  simp [read]

theorem read_eq_map_range' (m : Image) (off n : ℕ) : m.read off n = (range' off n).map m := by
  rw [read, range'_eq_map_range, map_map]
  rfl

@[simp] theorem getElem_read {i : ℕ} (h : i < (m.read off n).length) :
    (m.read off n)[i] = m (off + i) := by
  simp [read]

theorem read_congr (h : ∀ i < n, m (off + i) = m' (off + i)) : m.read off n = m'.read off n :=
  map_congr_left fun i hi ↦ h i (mem_range.1 hi)

/-- Inside the written range the image holds the written byte. -/
theorem write_apply_of_mem (h₁ : off ≤ a) (h₂ : a - off < data.length) :
    m.write off data a = data[a - off] := by
  rw [write, if_pos h₁, getElem?_eq_getElem h₂, Option.getD_some]

/-- **Frame.** Outside the written range nothing changes. -/
theorem write_apply_of_not_mem (h : a < off ∨ off + data.length ≤ a) :
    m.write off data a = m a := by
  rw [write]
  split_ifs with h₁
  · rw [getElem?_eq_none (by omega), Option.getD_none]
  · rfl

theorem write_apply_add (m : Image) (off : ℕ) (data : List UInt8) {i : ℕ} (h : i < data.length) :
    m.write off data (off + i) = data[i] := by
  rw [write_apply_of_mem (by omega) (by omega)]
  simp only [Nat.add_sub_cancel_left]

/-- Writes with the same range and data agree wherever the images below them do. -/
theorem write_congr (h : m a = m' a) : m.write off data a = m'.write off data a := by
  simp only [write, h]

theorem read_write_self : (m.write off data).read off data.length = data := by
  refine ext_getElem (by simp) fun i h₁ h₂ ↦ ?_
  rw [getElem_read, write_apply_add m off data h₂]

/-- A read away from the written range sees the old image. -/
theorem read_write_of_disjoint (h : o + n ≤ off ∨ off + data.length ≤ o) :
    (m.write off data).read o n = m.read o n :=
  read_congr fun _ _ ↦ write_apply_of_not_mem (by omega)

/-- A write inside a viewed range is a write to the view. -/
theorem view_write_add (m : Image) (off o : ℕ) (data : List UInt8) :
    (m.write (off + o) data).view off = (m.view off).write o data := by
  funext i
  simp only [view_apply, write, Nat.add_le_add_iff_left, Nat.add_sub_add_left]

end Image

/-! ### Little-endian words -/

/-- The 16-bit word with low byte `b₀`. -/
def le16 (b₀ b₁ : UInt8) : ℕ := b₀.toNat + 256 * b₁.toNat

/-- The 32-bit word with lowest byte `b₀`. -/
def le32 (b₀ b₁ b₂ b₃ : UInt8) : ℕ := le16 b₀ b₁ + 65536 * le16 b₂ b₃

/-- The 16-bit word at offset `o` of a buffer. -/
def rd16 (p : Image) (o : ℕ) : ℕ := le16 (p o) (p (o + 1))

/-- The 32-bit word at offset `o` of a buffer. -/
def rd32 (p : Image) (o : ℕ) : ℕ := le32 (p o) (p (o + 1)) (p (o + 2)) (p (o + 3))

/-- The 64-bit word at offset `o` of a buffer. -/
def rd64 (p : Image) (o : ℕ) : ℕ := rd32 p o + 4294967296 * rd32 p (o + 4)

/-- The two bytes of a 16-bit word; higher bits are dropped. -/
def wr16 (v : ℕ) : List UInt8 := [UInt8.ofNat v, UInt8.ofNat (v / 256)]

/-- The four bytes of a 32-bit word; higher bits are dropped. -/
def wr32 (v : ℕ) : List UInt8 :=
  [UInt8.ofNat v, UInt8.ofNat (v / 256), UInt8.ofNat (v / 65536), UInt8.ofNat (v / 16777216)]

@[simp] theorem wr16_length (v : ℕ) : (wr16 v).length = 2 := rfl

@[simp] theorem wr32_length (v : ℕ) : (wr32 v).length = 4 := rfl

theorem le16_lt (b₀ b₁ : UInt8) : le16 b₀ b₁ < 65536 := by
  have h₀ := b₀.toNat_lt
  have h₁ := b₁.toNat_lt
  simp only [le16]
  omega

theorem le32_lt (b₀ b₁ b₂ b₃ : UInt8) : le32 b₀ b₁ b₂ b₃ < 4294967296 := by
  have h₀ := le16_lt b₀ b₁
  have h₁ := le16_lt b₂ b₃
  simp only [le32]
  omega

theorem rd16_lt (p : Image) (o : ℕ) : rd16 p o < 65536 := le16_lt _ _

theorem rd32_lt (p : Image) (o : ℕ) : rd32 p o < 4294967296 := le32_lt _ _ _ _

theorem toNat_ofNat_byte (v : ℕ) : (UInt8.ofNat v).toNat = v % 256 := by
  simp [UInt8.toNat_ofNat']

/-- **Round trip, modulo the word size.** -/
theorem le16_wr16 (v : ℕ) : le16 (UInt8.ofNat v) (UInt8.ofNat (v / 256)) = v % 65536 := by
  simp only [le16, toNat_ofNat_byte]
  omega

/-- **Round trip, modulo the word size.** -/
theorem le32_wr32 (v : ℕ) : le32 (UInt8.ofNat v) (UInt8.ofNat (v / 256))
    (UInt8.ofNat (v / 65536)) (UInt8.ofNat (v / 16777216)) = v % 4294967296 := by
  simp only [le32, le16, toNat_ofNat_byte]
  omega

/-- A 16-bit word determines its two bytes. -/
theorem le16_inj {b₀ b₁ c₀ c₁ : UInt8} (h : le16 b₀ b₁ = le16 c₀ c₁) : b₀ = c₀ ∧ b₁ = c₁ := by
  have hb₀ := b₀.toNat_lt
  have hb₁ := b₁.toNat_lt
  have hc₀ := c₀.toNat_lt
  have hc₁ := c₁.toNat_lt
  simp only [le16] at h
  exact ⟨UInt8.toNat_inj.1 (by omega), UInt8.toNat_inj.1 (by omega)⟩

/-- A 32-bit word determines its four bytes. -/
theorem le32_inj {b₀ b₁ b₂ b₃ c₀ c₁ c₂ c₃ : UInt8} (h : le32 b₀ b₁ b₂ b₃ = le32 c₀ c₁ c₂ c₃) :
    (b₀ = c₀ ∧ b₁ = c₁) ∧ b₂ = c₂ ∧ b₃ = c₃ := by
  have hb := le16_lt b₀ b₁
  have hc := le16_lt c₀ c₁
  simp only [le32] at h
  exact ⟨le16_inj (by omega), le16_inj (by omega)⟩

variable {p q : Image}

/-- A 16-bit word depends on its own two bytes only. -/
theorem rd16_congr {o' : ℕ} (h₀ : p o = q o') (h₁ : p (o + 1) = q (o' + 1)) :
    rd16 p o = rd16 q o' := by
  simp only [rd16, h₀, h₁]

/-- A 32-bit word depends on its own four bytes only. -/
theorem rd32_congr {o' : ℕ} (h : ∀ i < 4, p (o + i) = q (o' + i)) : rd32 p o = rd32 q o' := by
  have h₀ := h 0 (by omega)
  have h₁ := h 1 (by omega)
  have h₂ := h 2 (by omega)
  have h₃ := h 3 (by omega)
  simp only [Nat.add_zero] at h₀
  simp only [rd32, h₀, h₁, h₂, h₃]

theorem rd64_congr {o' : ℕ} (h : ∀ i < 8, p (o + i) = q (o' + i)) : rd64 p o = rd64 q o' := by
  have hlow : rd32 p o = rd32 q o' := rd32_congr fun i hi ↦ h i (by omega)
  have hhigh : rd32 p (o + 4) = rd32 q (o' + 4) := rd32_congr fun i hi ↦ by
    rw [Nat.add_assoc, Nat.add_assoc]
    exact h (4 + i) (by omega)
  rw [rd64, rd64, hlow, hhigh]

theorem write_wr16_low (m : Image) (o v : ℕ) : m.write o (wr16 v) o = UInt8.ofNat v :=
  Image.write_apply_add m o (wr16 v) (show 0 < _ by simp)

theorem write_wr16_high (m : Image) (o v : ℕ) : m.write o (wr16 v)
    (o + 1) = UInt8.ofNat (v / 256) :=
  Image.write_apply_add m o (wr16 v) (show 1 < _ by simp)

/-- A 32-bit word determines its four bytes. -/
theorem rd32_eq_iff : rd32 p o = rd32 q o ↔ ∀ i < 4, p (o + i) = q (o + i) := by
  refine ⟨fun h i hi ↦ ?_, rd32_congr⟩
  obtain ⟨⟨h₀, h₁⟩, h₂, h₃⟩ := le32_inj h
  interval_cases i
  · exact h₀
  · exact h₁
  · exact h₂
  · exact h₃

/-- Reading a 16-bit word just written gives it back, truncated. -/
theorem rd16_write_wr16 (m : Image) (o v : ℕ) : rd16 (m.write o (wr16 v)) o = v % 65536 := by
  rw [rd16, write_wr16_low, write_wr16_high, le16_wr16]

/-- Reading a 32-bit word just written gives it back, truncated. -/
theorem rd32_write_wr32 (m : Image) (o v : ℕ) : rd32 (m.write o (wr32 v)) o = v % 4294967296 := by
  have h₀ := Image.write_apply_add m o (wr32 v) (show 0 < _ by simp)
  have h₁ := Image.write_apply_add m o (wr32 v) (show 1 < _ by simp)
  have h₂ := Image.write_apply_add m o (wr32 v) (show 2 < _ by simp)
  have h₃ := Image.write_apply_add m o (wr32 v) (show 3 < _ by simp)
  simp only [Nat.add_zero] at h₀
  rw [rd32, h₀, h₁, h₂, h₃]
  exact le32_wr32 v

/-! ### Arrays of words -/

/-- Byte `i` of an array of 32-bit words. -/
def wordsByte (w : ℕ → ℕ) (i : ℕ) : UInt8 := UInt8.ofNat (w (i / 4) / 256 ^ (i % 4))

theorem wr32_getElem (v : ℕ) {k : ℕ} (h : k < (wr32 v).length) :
    (wr32 v)[k] = UInt8.ofNat (v / 256 ^ k) := by
  rw [wr32_length] at h
  interval_cases k <;> simp [wr32]

theorem wr32s_length (w : ℕ → ℕ) (first n : ℕ) :
    ((range' first n).flatMap fun e ↦ wr32 (w e)).length = 4 * n := by
  induction n generalizing first with
  | zero => rfl
  | succ n ih =>
    rw [range'_succ, flatMap_cons, length_append, ih, wr32_length]
    omega

theorem wr32s_getElem (w : ℕ → ℕ) (first n : ℕ) {j : ℕ}
    (h : j < ((range' first n).flatMap fun e ↦ wr32 (w e)).length) :
    ((range' first n).flatMap fun e ↦ wr32 (w e))[j] = wordsByte w (first * 4 + j) := by
  induction n generalizing first j with
  | zero => simp at h
  | succ n ih =>
    simp only [range'_succ, flatMap_cons] at h ⊢
    rw [getElem_append]
    split_ifs with hj
    · rw [wr32_getElem, wordsByte]
      rw [wr32_length] at hj
      rw [show (first * 4 + j) / 4 = first by omega, show (first * 4 + j) % 4 = j by omega]
    · rw [ih, wordsByte, wordsByte, wr32_length]
      rw [wr32_length] at hj
      rw [show (first + 1) * 4 + (j - 4) = first * 4 + j by omega]

/-- Reading word `e` out of the bytes of an array. -/
theorem rd32_of_wordsByte (w : ℕ → ℕ) (e : ℕ) (h : ∀ k < 4, p (o + k) = wordsByte w (e * 4 + k)) :
    rd32 p o = w e % 4294967296 := by
  have hbyte : ∀ k < 4, p (o + k) = UInt8.ofNat (w e / 256 ^ k) := by
    intro k hk
    rw [h k hk, wordsByte, show (e * 4 + k) / 4 = e by omega, show (e * 4 + k) % 4 = k by omega]
  have h₀ := hbyte 0 (by omega)
  have h₁ := hbyte 1 (by omega)
  have h₂ := hbyte 2 (by omega)
  have h₃ := hbyte 3 (by omega)
  simp only [Nat.add_zero, pow_zero, Nat.div_one] at h₀
  rw [rd32, h₀, h₁, h₂, h₃]
  exact le32_wr32 (w e)

/-! ### Masks

The engines mask words with constants of the form `2 ^ k - 1`, or with the complement of such a
constant inside the word; both are remainders and quotients. -/

theorem and_mask (v k : ℕ) : v &&& (2 ^ k - 1) = v % 2 ^ k := Nat.and_two_pow_sub_one_eq_mod v k

/-- Keeping the bits from `k` on of an `n`-bit word. -/
theorem and_high {x n k : ℕ} (hx : x < 2 ^ n) (hk : k ≤ n) :
    x &&& (2 ^ (n - k) - 1) <<< k = x / 2 ^ k * 2 ^ k := by
  refine Nat.eq_of_testBit_eq fun i ↦ ?_
  rw [Nat.testBit_and, Nat.testBit_shiftLeft, Nat.testBit_two_pow_sub_one, Nat.testBit_mul_two_pow,
    Nat.testBit_div_two_pow]
  by_cases hik : k ≤ i
  · rw [Nat.sub_add_cancel hik]
    by_cases hin : i < n
    · simp [hik, show i - k < n - k by omega]
    · -- above the word there are no bits on either side
      have hbit : x.testBit i = false :=
        Nat.testBit_lt_two_pow (lt_of_lt_of_le hx (Nat.pow_le_pow_right (by norm_num) (by omega)))
      simp [hbit]
  · simp [hik]

/-- Keeping the top bits of one word and the low bits of another. -/
theorem high_or_low (a b k : ℕ) :
    (a / 2 ^ k * 2 ^ k) ||| (b % 2 ^ k) = a / 2 ^ k * 2 ^ k + b % 2 ^ k := by
  rw [Nat.mul_comm, Nat.two_pow_add_eq_or_of_lt (Nat.mod_lt _ (Nat.two_pow_pos k))]

end Storage
