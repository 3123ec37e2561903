import LinuxDefragger.Storage.Image

/-!
# Bit maps in byte strings

Bit `c` of a byte string is bit `c % 8` of byte `c / 8`. A program with byte-wide fast paths changes
one bit or overwrites whole bytes.
-/

open List

namespace Storage

/-- Bit `k` of a byte. -/
def byteBit (b : UInt8) (k : ℕ) : Bool := b.toBitVec.getLsbD k

/-- Bit `c` of a byte string; outside the string there are no bits set. -/
def bitAt (bm : List UInt8) (c : ℕ) : Bool := byteBit (bm.getD (c / 8) 0) (c % 8)

/-- The byte with only bit `k`. -/
def bitMask (k : ℕ) : UInt8 := UInt8.ofNat (2 ^ k)

/-- A byte with bit `k` replaced. -/
def putByteBit (b : UInt8) (k : ℕ) (v : Bool) : UInt8 :=
  if v then b ||| bitMask k else b &&& ~~~bitMask k

/-- A byte string with bit `c` replaced. -/
def setBitAt (bm : List UInt8) (c : ℕ) (v : Bool) : List UInt8 :=
  bm.modify (c / 8) fun b ↦ putByteBit b (c % 8) v

/-- The byte all of whose bits are `v`. -/
def fillByte (v : Bool) : UInt8 := if v then 0xFF else 0x00

/-! ### Bits of a byte -/

theorem byteBit_bitMask {k : ℕ} (hk : k < 8) (j : ℕ) : byteBit (bitMask k) j = decide (j = k) := by
  rw [byteBit, bitMask, UInt8.toBitVec_ofNat', BitVec.getLsbD_ofNat, Nat.testBit_two_pow]
  by_cases h : j = k
  · simp [h, hk]
  · simp [h, Ne.symm h]

theorem byteBit_putByteBit (b : UInt8) {k : ℕ} (hk : k < 8) (v : Bool) {j : ℕ} (hj : j < 8) :
    byteBit (putByteBit b k v) j = if j = k then v else byteBit b j := by
  have hmask := byteBit_bitMask hk j
  rw [byteBit] at hmask ⊢
  cases v with
  | true =>
    rw [putByteBit, if_pos rfl, UInt8.toBitVec_or, BitVec.getLsbD_or, hmask]
    by_cases h : j = k <;> simp [h, byteBit]
  | false =>
    rw [putByteBit, if_neg Bool.false_ne_true, UInt8.toBitVec_and, UInt8.toBitVec_not,
      BitVec.getLsbD_and, BitVec.getLsbD_not, hmask]
    by_cases h : j = k <;> simp [h, hj, byteBit]

theorem byteBit_fillByte (v : Bool) {j : ℕ} (hj : j < 8) : byteBit (fillByte v) j = v := by
  cases v with
  | true => interval_cases j <;> rfl
  | false => interval_cases j <;> rfl

theorem byteBit_zero (j : ℕ) : byteBit 0 j = false := by simp [byteBit]

/-- Bytes with the same bits are the same. -/
theorem byteBit_ext {a b : UInt8} (h : ∀ j < 8, byteBit a j = byteBit b j) : a = b := by
  refine UInt8.toBitVec_inj.1 (BitVec.eq_of_getLsbD_eq fun j hj ↦ ?_)
  exact h j hj

/-- The highest bit of a byte, in Python's `bit_length`. -/
theorem byteBit_log2 {b : UInt8} (h : b ≠ 0) :
    byteBit b (Nat.log2 b.toNat) = true ∧ Nat.log2 b.toNat < 8 ∧
      ∀ j, Nat.log2 b.toNat < j → byteBit b j = false := by
  have hne : b.toNat ≠ 0 := fun h' ↦ h (UInt8.toNat.inj h')
  have hbit : ∀ j, byteBit b j = b.toNat.testBit j := fun _ ↦ rfl
  refine ⟨?_, (Nat.log2_lt hne).2 b.toNat_lt, fun j hj ↦ ?_⟩
  · rw [hbit, Nat.testBit_log2 hne]
  · rw [hbit]
    exact Nat.testBit_lt_two_pow
      (lt_of_lt_of_le Nat.lt_log2_self (Nat.pow_le_pow_right (by decide) hj))

/-! ### Bits of a byte string -/

@[simp] theorem length_setBitAt (bm : List UInt8) (c : ℕ) (v : Bool) :
    (setBitAt bm c v).length = bm.length :=
  length_modify ..

/-- **Changing one bit changes no other.** -/
theorem bitAt_setBitAt {bm : List UInt8} {c : ℕ} (hc : c / 8 < bm.length) (v : Bool) (d : ℕ) :
    bitAt (setBitAt bm c v) d = if d = c then v else bitAt bm d := by
  rw [bitAt, setBitAt, bitAt, getD_eq_getElem?_getD, getD_eq_getElem?_getD, getElem?_modify]
  by_cases hbyte : c / 8 = d / 8
  · have hd : d / 8 < bm.length := hbyte ▸ hc
    simp only [hbyte, if_true, getElem?_eq_getElem hd, Option.map_eq_map, Option.map_some,
      Option.getD_some]
    rw [byteBit_putByteBit _ (Nat.mod_lt _ (by decide)) _ (Nat.mod_lt _ (by decide))]
    exact if_congr (by omega) rfl rfl
  · have hne : d ≠ c := by
      rintro rfl
      exact hbyte rfl
    simp [hbyte, hne]

/-- **Overwriting the bytes from `a` up to `b`** sets the bits of these bytes. -/
theorem bitAt_fill {bm : List UInt8} {a b : ℕ} (hab : a ≤ b) (hb : b ≤ bm.length)
    (v : Bool) (d : ℕ) :
    bitAt (bm.take a ++ replicate (b - a) (fillByte v) ++ bm.drop b) d =
      if 8 * a ≤ d ∧ d < 8 * b then v else bitAt bm d := by
  have hlen : (bm.take a).length = a := by rw [length_take]; omega
  rw [bitAt, getD_eq_getElem?_getD, append_assoc, getElem?_append, hlen]
  by_cases hlow : d / 8 < a
  · rw [if_pos hlow, if_neg (by omega), getElem?_take_of_lt hlow, ← getD_eq_getElem?_getD]
    rfl
  rw [if_neg hlow, getElem?_append, length_replicate]
  by_cases hin : d / 8 < b
  · rw [if_pos (by omega), if_pos (by omega), getElem?_replicate, if_pos (by omega),
      Option.getD_some, byteBit_fillByte _ (Nat.mod_lt _ (by decide))]
  · rw [if_neg (by omega), if_neg (by omega), getElem?_drop, bitAt, getD_eq_getElem?_getD]
    congr 3
    omega

end Storage
