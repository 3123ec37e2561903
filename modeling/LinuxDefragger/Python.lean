import LinuxDefragger.Storage.Checked
import LinuxDefragger.Storage.Image

/-!
# Python data

The engines written in Python work on `bytes` and unbounded integers. Byte strings are lists here;
`struct` accesses and index accesses that Python would refuse return the exception it would raise,
because the engines catch some exceptions and not others.
-/

open List Storage

namespace LinuxDefragger

/-- An exception. -/
inductive PyError
  /-- The engine's own exception class, with the numbers formatted into the message. -/
  | engine (message : String) (args : List ℕ)
  | structError
  | indexError
  | overflowError
  | typeError
  | valueError
  deriving DecidableEq, Repr

/-- `if c: raise EngineError(message)` -/
def raiseIf (c : Prop) [Decidable c] (message : String) (args : List ℕ) : Except PyError Unit :=
  if c then throw (.engine message args) else pure ()

section RaiseIf

variable {α : Type} {c : Prop} [Decidable c] {message : String} {args : List ℕ}
  {k : Unit → Except PyError α}

theorem raiseIf_bind_eq_ok {r : α} :
    (raiseIf c message args >>= k) = .ok r ↔ ¬c ∧ k () = .ok r := by
  unfold raiseIf
  by_cases hc : c <;> simp [hc, bind, Except.bind, throw, throwThe, MonadExceptOf.throw, pure,
    Except.pure]

theorem raiseIf_bind_of_not (h : ¬c) : (raiseIf c message args >>= k) = k () := by
  rw [raiseIf, if_neg h]
  rfl

end RaiseIf

/-! ### Byte strings -/

/-- A byte string seen as an image. -/
def bytesImage (data : List UInt8) : Image := fun i ↦ data.getD i 0

/-- `data[a:b]` -/
def slice (data : List UInt8) (a b : ℕ) : List UInt8 := (data.take b).drop a

/-- `data[a:b] = new` -/
def putSlice (data : List UInt8) (a b : ℕ) (new : List UInt8) : List UInt8 :=
  data.take a ++ new ++ data.drop (max a b)

/-- `struct.unpack_from("<H", data, offset)` -/
def u16 (data : List UInt8) (offset : ℕ) : Except PyError ℕ :=
  if offset + 2 ≤ data.length then pure (rd16 (bytesImage data) offset) else throw .structError

/-- `struct.unpack_from("<I", data, offset)` -/
def u32 (data : List UInt8) (offset : ℕ) : Except PyError ℕ :=
  if offset + 4 ≤ data.length then pure (rd32 (bytesImage data) offset) else throw .structError

/-- `struct.unpack_from("<Q", data, offset)` -/
def u64 (data : List UInt8) (offset : ℕ) : Except PyError ℕ :=
  if offset + 8 ≤ data.length then pure (rd64 (bytesImage data) offset) else throw .structError

/-- `data[offset]` -/
def byteAt (data : List UInt8) (offset : ℕ) : Except PyError UInt8 :=
  if offset < data.length then pure (data.getD offset 0) else throw .indexError

/-- `struct.pack_into("<H", data, offset, v)` -/
def packU16 (data : List UInt8) (offset v : ℕ) : Except PyError (List UInt8) :=
  if offset + 2 ≤ data.length ∧ v < 65536 then pure (putSlice data offset (offset + 2) (wr16 v))
  else throw .structError

/-- `struct.pack_into("<I", data, offset, v)` -/
def packU32 (data : List UInt8) (offset v : ℕ) : Except PyError (List UInt8) :=
  if offset + 4 ≤ data.length ∧ v < 4294967296 then
    pure (putSlice data offset (offset + 4) (wr32 v))
  else throw .structError

/-! ### Byte strings as images -/

variable {v : ℕ}

section Bytes

variable {data new : List UInt8} {a b n offset : ℕ}

theorem length_putSlice (hab : a + new.length = b) (hb : b ≤ data.length) :
    (putSlice data a b new).length = data.length := by
  simp only [putSlice, length_append, length_take, length_drop]
  omega

/-- Assigning to a slice is writing to the image. -/
theorem bytesImage_putSlice (hab : a + new.length = b) (hb : b ≤ data.length) :
    bytesImage (putSlice data a b new) = (bytesImage data).write a new := by
  have htake : (data.take a).length = a := length_take_of_le (by omega)
  funext i
  rw [bytesImage, putSlice, getD_eq_getElem?_getD]
  rcases lt_or_ge i a with hi | hi
  · rw [Image.write_apply_of_not_mem (.inl hi), append_assoc,
      getElem?_append_left (by omega), getElem?_take_of_lt hi]
    rfl
  rcases lt_or_ge i b with hib | hib
  · rw [Image.write_apply_of_mem hi (by omega), append_assoc,
      getElem?_append_right (by omega), htake, getElem?_append_left (by omega),
      getElem?_eq_getElem (by omega), Option.getD_some]
  · rw [Image.write_apply_of_not_mem (.inr (by omega)), getElem?_append_right (by simp; omega),
      getElem?_drop, length_append, htake,
      show max a b + (i - (a + new.length)) = i by omega]
    rfl

/-- A slice is what the image holds there. -/
theorem slice_eq_read (hab : a + n = b) (hb : b ≤ data.length) :
    slice data a b = (bytesImage data).read a n := by
  have hlen : (slice data a b).length = n := by
    rw [slice, length_drop, length_take]
    omega
  refine ext_getElem (by rw [hlen, Image.read_length]) fun i hi hi' ↦ ?_
  rw [hlen] at hi
  rw [Image.getElem_read, bytesImage, getD_eq_getElem _ _ (by omega)]
  simp only [slice, getElem_drop, getElem_take]

theorem u16_eq_ok :
    u16 data offset = .ok v ↔ offset + 2 ≤ data.length ∧ rd16 (bytesImage data) offset = v := by
  unfold u16
  split_ifs with h <;> simp [h, pure, Except.pure]

theorem u32_eq_ok :
    u32 data offset = .ok v ↔ offset + 4 ≤ data.length ∧ rd32 (bytesImage data) offset = v := by
  unfold u32
  split_ifs with h <;> simp [h, pure, Except.pure]

theorem u64_eq_ok :
    u64 data offset = .ok v ↔ offset + 8 ≤ data.length ∧ rd64 (bytesImage data) offset = v := by
  unfold u64
  split_ifs with h <;> simp [h, pure, Except.pure]

theorem byteAt_eq_ok {v : UInt8} :
    byteAt data offset = .ok v ↔ offset < data.length ∧ bytesImage data offset = v := by
  unfold byteAt bytesImage
  split_ifs with h <;> simp [h, pure, Except.pure]

theorem packU16_eq_ok {r : List UInt8} : packU16 data offset v = .ok r ↔
    (offset + 2 ≤ data.length ∧ v < 65536) ∧ putSlice data offset (offset + 2) (wr16 v) = r := by
  unfold packU16
  split_ifs with h <;> simp [h, pure, Except.pure]

theorem packU32_eq_ok {r : List UInt8} : packU32 data offset v = .ok r ↔
    (offset + 4 ≤ data.length ∧ v < 4294967296) ∧ putSlice data offset (offset + 4)
      (wr32 v) = r := by
  unfold packU32
  split_ifs with h <;> simp [h, pure, Except.pure]

/-- Storing a 16-bit word that fits. -/
theorem packU16_spec (h : offset + 2 ≤ data.length) (hv : v < 65536) :
    ∃ r, packU16 data offset v = .ok r ∧ r.length = data.length ∧
      bytesImage r = (bytesImage data).write offset (wr16 v) :=
  ⟨_, packU16_eq_ok.2 ⟨⟨h, hv⟩, rfl⟩, length_putSlice rfl h, bytesImage_putSlice rfl h⟩

/-- Storing a 32-bit word that fits. -/
theorem packU32_spec (h : offset + 4 ≤ data.length) (hv : v < 4294967296) :
    ∃ r, packU32 data offset v = .ok r ∧ r.length = data.length ∧
      bytesImage r = (bytesImage data).write offset (wr32 v) :=
  ⟨_, packU32_eq_ok.2 ⟨⟨h, hv⟩, rfl⟩, length_putSlice rfl h, bytesImage_putSlice rfl h⟩

end Bytes

/-! ### Integers as bytes -/

/-- `int.from_bytes(data, "little")` -/
def leNat : List UInt8 → ℕ
  | [] => 0
  | b :: rest => b.toNat + 256 * leNat rest

/-- `int.from_bytes(data, "little", signed=True)` -/
def leInt (data : List UInt8) : ℤ :=
  if 2 * leNat data < 256 ^ data.length then leNat data else leNat data - 256 ^ data.length

/-- The `n` low bytes of a number, lowest first. -/
def leBytes : ℕ → ℕ → List UInt8
  | 0, _ => []
  | n + 1, v => UInt8.ofNat v :: leBytes n (v / 256)

/-- `value.to_bytes(n, "little", signed=True)` -/
def toSignedBytes (n : ℕ) (value : ℤ) : Except PyError (List UInt8) :=
  if -(256 ^ n : ℤ) ≤ 2 * value ∧ 2 * value < 256 ^ n then
    pure (leBytes n (value % 256 ^ n).toNat)
  else throw .overflowError

@[simp] theorem leBytes_length (n v : ℕ) : (leBytes n v).length = n := by
  induction n generalizing v with
  | zero => rfl
  | succ n ih => rw [leBytes, length_cons, ih]

theorem leNat_lt (data : List UInt8) : leNat data < 256 ^ data.length := by
  induction data with
  | nil => exact Nat.one_pos
  | cons b rest ih =>
    have := b.toNat_lt
    rw [leNat, length_cons, pow_succ]
    omega

theorem leNat_leBytes (n v : ℕ) : leNat (leBytes n v) = v % 256 ^ n := by
  induction n generalizing v with
  | zero => rw [leBytes, leNat, pow_zero, Nat.mod_one]
  | succ n ih =>
    rw [leBytes, leNat, ih, toNat_ofNat_byte, pow_succ', Nat.mod_mul]

/-- **Signed integers survive their byte form.** -/
theorem leInt_toSignedBytes {n : ℕ} {value : ℤ} {data : List UInt8}
    (h : toSignedBytes n value = .ok data) : leInt data = value ∧ data.length = n := by
  rw [toSignedBytes] at h
  split_ifs at h with hfit
  obtain rfl := Except.ok.inj h
  have hpos : (0 : ℤ) < 256 ^ n := by positivity
  have hmod := Int.emod_nonneg value hpos.ne'
  have hlt := Int.emod_lt_of_pos value hpos
  have hnat : (((value % 256 ^ n).toNat % 256 ^ n : ℕ) : ℤ) = value % 256 ^ n := by
    rw [Nat.mod_eq_of_lt, Int.toNat_of_nonneg hmod]
    zify
    rwa [Int.toNat_of_nonneg hmod]
  refine ⟨?_, leBytes_length _ _⟩
  rw [leInt, leBytes_length, leNat_leBytes]
  generalize (value % 256 ^ n).toNat % 256 ^ n = x at hnat ⊢
  have hsign : (2 * x < 256 ^ n) ↔ 2 * (x : ℤ) < 256 ^ n := by exact_mod_cast Iff.rfl
  rw [hnat] at hsign ⊢
  generalize (256 : ℤ) ^ n = bound at *
  rcases le_or_gt 0 value with hge | hneg
  · have hval : value % bound = value := Int.emod_eq_of_lt hge (by omega)
    rw [hval] at hsign ⊢
    rw [if_pos (hsign.2 (by omega))]
  · have hval : value % bound = value + bound := by
      rw [← Int.add_emod_right]
      exact Int.emod_eq_of_lt (by omega) (by omega)
    rw [hval] at hsign ⊢
    rw [if_neg (fun h ↦ by have := hsign.1 h; omega)]
    omega

end LinuxDefragger
