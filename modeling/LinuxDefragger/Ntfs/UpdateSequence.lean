import LinuxDefragger.Ntfs.Record

/-!
# Update sequences, there and back

`prepareFixups` moves the last two bytes of every sector into the update sequence array and puts the
check number in their place; `applyFixups` checks the number and moves the bytes back. When no
sector ends inside the array (`Spaced`), the two loops touch every byte at most once, and applying
what was prepared gives the record back everywhere outside the array.
-/

open Except List Storage

namespace LinuxDefragger.Ntfs

/-- An update sequence array at `usaOff` for the `n` sectors of a record with `size` bytes, none of
which has its check bytes in the array. -/
structure Spaced (sectorSize usaOff n size : ℕ) : Prop where
  two_le : 2 ≤ sectorSize
  inside : usaOff + 2 * (n + 1) ≤ size
  sectors : n * sectorSize ≤ size
  apart : ∀ i, 0 < i → i ≤ n →
    i * sectorSize ≤ usaOff ∨ usaOff + 2 * (n + 1) + 2 ≤ i * sectorSize

variable {i k : ℕ} {fixed : List UInt8}

section RoundTrip

variable {sectorSize usaOff n size : ℕ} {usn record : List UInt8} {m p q : Image}

/-- The address `a` is one of the two check bytes of sector `i`. -/
def IsCheck (sectorSize i a : ℕ) : Prop := i * sectorSize ≤ a + 2 ∧ a < i * sectorSize

variable (h : Spaced sectorSize usaOff n size)
include h

theorem Spaced.two_le_mul (hi : 0 < i) : 2 ≤ i * sectorSize :=
  h.two_le.trans (Nat.le_mul_of_pos_left _ hi)

theorem Spaced.mul_le (hi : i ≤ n) : i * sectorSize ≤ size :=
  (Nat.mul_le_mul_right _ hi).trans h.sectors

/-- Sectors end at different places. -/
theorem Spaced.mul_add_two_le {j : ℕ} (hij : i < j) : i * sectorSize + 2 ≤ j * sectorSize := by
  have hmul : (i + 1) * sectorSize ≤ j * sectorSize := Nat.mul_le_mul_right _ hij
  have := h.two_le
  rw [Nat.succ_mul] at hmul
  omega

omit h in
theorem length_prepareFixup (husn : usn.length = 2) (hlow : 2 ≤ i * sectorSize)
    (hhigh : i * sectorSize ≤ record.length) (hslot : usaOff + i * 2 + 2 ≤ record.length) :
    (prepareFixup sectorSize usaOff usn record i).length = record.length := by
  have hread : (slice record (i * sectorSize - 2) (i * sectorSize)).length = 2 := by
    rw [slice_eq_read (n := 2) (by omega) (by omega), Image.read_length]
  rw [prepareFixup]
  rw [length_putSlice (by omega), length_putSlice (by omega) hslot]
  rw [length_putSlice (by omega) hslot]
  omega

theorem bytesImage_prepareFixup (husn : usn.length = 2) (hlen : record.length = size) (hi : 0 < i)
    (hin : i ≤ n) :
    bytesImage (prepareFixup sectorSize usaOff usn record i) =
      ((bytesImage record).write (usaOff + i * 2)
        ((bytesImage record).read (i * sectorSize - 2) 2)).write (i * sectorSize - 2) usn := by
  have hlow := h.two_le_mul hi
  have hhigh := h.mul_le hin
  have hinside := h.inside
  have hread : slice record (i * sectorSize - 2) (i * sectorSize) =
      (bytesImage record).read (i * sectorSize - 2) 2 :=
    slice_eq_read (by omega) (by omega)
  have hlen₂ : ((bytesImage record).read (i * sectorSize - 2) 2).length = 2 := Image.read_length ..
  rw [prepareFixup, hread]
  rw [bytesImage_putSlice (by omega), bytesImage_putSlice (by omega) (by omega)]
  rw [length_putSlice (by omega) (by omega)]
  omega

/-- What the loop of `_prepare_fixups` has made of the image `m` after `k` rounds. -/
structure Prepared (sectorSize usaOff : ℕ) (usn : List UInt8) (m : Image) (k : ℕ) (p : Image) :
    Prop where
  rest : ∀ a, a < usaOff ∨ usaOff + 2 * (k + 1) ≤ a →
    (∀ i, 0 < i → i ≤ k → ¬IsCheck sectorSize i a) → p a = m a
  first : p.read usaOff 2 = usn
  check : ∀ i, 0 < i → i ≤ k → p.read (i * sectorSize - 2) 2 = usn
  slot : ∀ i, 0 < i → i ≤ k → p.read (usaOff + i * 2) 2 = m.read (i * sectorSize - 2) 2

omit h in
theorem Prepared.zero (husn : usn.length = 2) :
    Prepared sectorSize usaOff usn m 0 (m.write usaOff usn) where
  rest a ha _ := Image.write_apply_of_not_mem (by omega)
  first := by rw [← husn, Image.read_write_self]
  check i hi hk := by omega
  slot i hi hk := by omega

/-- One more round. -/
theorem Prepared.succ (husn : usn.length = 2) (hk : k + 1 ≤ n)
    (hp : Prepared sectorSize usaOff usn m k p) :
    Prepared sectorSize usaOff usn m (k + 1)
      ((p.write (usaOff + (k + 1) * 2) (p.read ((k + 1) * sectorSize - 2) 2)).write
        ((k + 1) * sectorSize - 2) usn) := by
  have hpos : 0 < k + 1 := Nat.succ_pos k
  have hlow := h.two_le_mul hpos
  have hlast {i : ℕ} (hi : i ≤ k) := h.mul_add_two_le (show i < k + 1 by omega)
  have hread : p.read ((k + 1) * sectorSize - 2) 2 = m.read ((k + 1) * sectorSize - 2) 2 := by
    -- this sector's check bytes are untouched: they are neither in the array nor in a sector before
    refine Image.read_congr fun j hj ↦ hp.rest _ ?_ fun i hi hik hcheck ↦ ?_
    · have := h.apart (k + 1) hpos hk
      omega
    · have := hlast hik
      have := hcheck.2
      omega
  have hapart := h.apart (k + 1) hpos hk
  rw [hread]
  have hlen₂ : (m.read ((k + 1) * sectorSize - 2) 2).length = 2 := Image.read_length ..
  refine ⟨fun a ha hchecks ↦ ?_, ?_, fun i hi hik ↦ ?_, fun i hi hik ↦ ?_⟩
  · have hnot : a < (k + 1) * sectorSize - 2 ∨ (k + 1) * sectorSize - 2 + usn.length ≤ a := by
      have := hchecks (k + 1) hpos le_rfl
      rw [IsCheck] at this
      omega
    rw [Image.write_apply_of_not_mem hnot, Image.write_apply_of_not_mem (by omega)]
    exact hp.rest a (by omega) fun i hi hik ↦ hchecks i hi (by omega)
  · rw [Image.read_write_of_disjoint (by omega), Image.read_write_of_disjoint (by omega), hp.first]
  · rcases Nat.lt_or_ge k i with hki | hki
    · obtain rfl : i = k + 1 := by omega
      rw [show (2 : ℕ) = usn.length from husn.symm]
      exact Image.read_write_self
    · have := hlast hki
      have := h.apart i hi (by omega)
      have := h.two_le_mul hi
      rw [Image.read_write_of_disjoint (by omega), Image.read_write_of_disjoint (by omega),
        hp.check i hi hki]
  · rw [Image.read_write_of_disjoint (by omega)]
    rcases Nat.lt_or_ge k i with hki | hki
    · obtain rfl : i = k + 1 := by omega
      have := @Image.read_write_self p (usaOff + (k + 1) * 2) (m.read ((k + 1) * sectorSize - 2) 2)
      rwa [hlen₂] at this
    · rw [Image.read_write_of_disjoint (by omega), hp.slot i hi hki]

/-- The whole loop of `_prepare_fixups`. -/
theorem prepared_foldl (husn : usn.length = 2) (hlen : record.length = size)
    (hstart : Prepared sectorSize usaOff usn m 0 (bytesImage record)) (hk : k ≤ n) :
    ((range' 1 k).foldl (prepareFixup sectorSize usaOff usn) record).length = size ∧
      Prepared sectorSize usaOff usn m k
        (bytesImage ((range' 1 k).foldl (prepareFixup sectorSize usaOff usn) record)) := by
  induction k with
  | zero => exact ⟨hlen, hstart⟩
  | succ k ih =>
    obtain ⟨hlength, hprepared⟩ := ih (by omega)
    rw [range'_concat, foldl_append, foldl_cons, foldl_nil, Nat.one_mul, Nat.add_comm 1 k]
    have hinside := h.inside
    refine ⟨?_, ?_⟩
    · rw [length_prepareFixup husn (h.two_le_mul (Nat.succ_pos k)) (hlength ▸ h.mul_le hk)
        (by omega),
        hlength]
    · rw [bytesImage_prepareFixup h husn hlength (Nat.succ_pos k) hk]
      exact hprepared.succ h husn hk

/-- What the loop of `_apply_fixups` has made of the prepared image `p` of `m` after `k` rounds. -/
structure Restored (sectorSize : ℕ) (m p : Image) (k : ℕ) (q : Image) : Prop where
  rest : ∀ a, (∀ i, 0 < i → i ≤ k → ¬IsCheck sectorSize i a) → q a = p a
  check : ∀ i, 0 < i → i ≤ k → q.read (i * sectorSize - 2) 2 = m.read (i * sectorSize - 2) 2

/-- One more round, which finds the check number. -/
theorem Restored.succ (hp : Prepared sectorSize usaOff usn m n p) (hk : k + 1 ≤ n)
    (hq : Restored sectorSize m p k q) :
    q.read ((k + 1) * sectorSize - 2) 2 = usn ∧ Restored sectorSize m p (k + 1)
        (q.write ((k + 1) * sectorSize - 2) (q.read (usaOff + (k + 1) * 2) 2)) := by
  have hpos : 0 < k + 1 := Nat.succ_pos k
  have hlow := h.two_le_mul hpos
  have hlast {i : ℕ} (hi : i ≤ k) := h.mul_add_two_le (show i < k + 1 by omega)
  have hcheck : q.read ((k + 1) * sectorSize - 2) 2 = p.read ((k + 1) * sectorSize - 2) 2 := by
    refine Image.read_congr fun j hj ↦ hq.rest _ fun i hi hik hcheck ↦ ?_
    have := hlast hik
    have := hcheck.2
    omega
  have hslot : q.read (usaOff + (k + 1) * 2) 2 = p.read (usaOff + (k + 1) * 2) 2 := by
    refine Image.read_congr fun j hj ↦ hq.rest _ fun i hi hik hcheck ↦ ?_
    have := h.apart i hi (by omega)
    have := hcheck.1
    have := hcheck.2
    omega
  refine ⟨by rw [hcheck, hp.check _ hpos hk], ?_⟩
  rw [hslot, hp.slot _ hpos hk]
  have hlen₂ : (m.read ((k + 1) * sectorSize - 2) 2).length = 2 := Image.read_length ..
  refine ⟨fun a hchecks ↦ ?_, fun i hi hik ↦ ?_⟩
  · have := hchecks (k + 1) hpos le_rfl
    rw [IsCheck] at this
    rw [Image.write_apply_of_not_mem (by omega)]
    exact hq.rest a fun i hi hik ↦ hchecks i hi (by omega)
  · rcases Nat.lt_or_ge k i with hki | hki
    · obtain rfl : i = k + 1 := by omega
      have := @Image.read_write_self q ((k + 1) * sectorSize - 2)
        (m.read ((k + 1) * sectorSize - 2) 2)
      rwa [hlen₂] at this
    · have := hlast hki
      have := h.two_le_mul hi
      rw [Image.read_write_of_disjoint (by omega), hq.check i hi hki]

/-- The whole loop of `_apply_fixups`. -/
theorem restored_foldlM (hlen : record.length = size)
    (hp : Prepared sectorSize usaOff usn m n (bytesImage record)) (hk : k ≤ n) :
    ∃ fixed, (range' 1 k).foldlM (applyFixup sectorSize usaOff usn) record = .ok fixed ∧
      fixed.length = size ∧ Restored sectorSize m (bytesImage record) k (bytesImage fixed) := by
  induction k with
  | zero => exact ⟨record, rfl, hlen, fun _ _ ↦ rfl, fun i hi hik ↦ by omega⟩
  | succ k ih =>
    obtain ⟨fixed, hfold, hlength, hrestored⟩ := ih (by omega)
    obtain ⟨hcheck, hnext⟩ := hrestored.succ h hp hk
    have hlow := h.two_le_mul (show 0 < k + 1 by omega)
    have hhigh := h.mul_le hk
    have hinside := h.inside
    have hsector : slice fixed ((k + 1) * sectorSize - 2) ((k + 1) * sectorSize) = usn := by
      rw [slice_eq_read (n := 2) (by omega) (by omega), hcheck]
    have hslot : slice fixed (usaOff + (k + 1) * 2) (usaOff + (k + 1) * 2 + 2) =
        (bytesImage fixed).read (usaOff + (k + 1) * 2) 2 := slice_eq_read rfl (by omega)
    have hlen₂ : ((bytesImage fixed).read (usaOff + (k + 1) * 2) 2).length = 2 :=
      Image.read_length ..
    refine ⟨putSlice fixed ((k + 1) * sectorSize - 2) ((k + 1) * sectorSize)
      ((bytesImage fixed).read (usaOff + (k + 1) * 2) 2), ?_, ?_, ?_⟩
    · rw [range'_concat, foldlM_append, hfold, ok_bind, foldlM_cons, Nat.one_mul,
        Nat.add_comm 1 k, applyFixup, raiseIf_bind_of_not (not_not.2 hsector), hslot]
      rfl
    · rw [length_putSlice (by omega) (by omega), hlength]
    · rwa [bytesImage_putSlice (by omega) (by omega)]

/-- Outside the array the restored image is the original one. -/
theorem Restored.eq (hp : Prepared sectorSize usaOff usn m n p) (hq : Restored sectorSize m p n q)
    {a : ℕ} (ha : a < usaOff ∨ usaOff + 2 * (n + 1) ≤ a) : q a = m a := by
  by_cases hcheck : ∃ i, 0 < i ∧ i ≤ n ∧ IsCheck sectorSize i a
  · obtain ⟨i, hi, hin, hlow, hhigh⟩ := hcheck
    have hread := hq.check i hi hin
    have := h.two_le_mul hi
    rw [Image.read, Image.read, map_inj_left] at hread
    have := hread (a - (i * sectorSize - 2)) (mem_range.2 (by omega))
    rwa [show i * sectorSize - 2 + (a - (i * sectorSize - 2)) = a by omega] at this
  · push Not at hcheck
    rw [hq.rest a hcheck, hp.rest a ha hcheck]

end RoundTrip

/-- **Applying prepared fixups gives the record back** outside the update sequence array. -/
theorem applyFixups_prepareFixups {record : List UInt8} {sectorSize usaOff usaCount : ℕ}
    (hoff : rd16 (bytesImage fixed) 4 = usaOff) (hcount : rd16 (bytesImage fixed) 6 = usaCount)
    (hheader : 8 ≤ usaOff) (hsector : 10 ≤ sectorSize)
    (hchecks : ∀ i, 0 < i → i * sectorSize ≤ fixed.length →
      i * sectorSize ≤ usaOff ∨ usaOff + 2 * usaCount + 2 ≤ i * sectorSize)
    (h : prepareFixups fixed sectorSize = .ok record) :
    ∃ restored, applyFixups record sectorSize = .ok restored ∧ restored.length = fixed.length ∧
      ∀ a, a < usaOff ∨ usaOff + 2 * usaCount ≤ a → bytesImage restored a = bytesImage fixed a := by
  rw [prepareFixups] at h
  obtain ⟨_, hoff', h⟩ := bind_eq_ok.1 h
  obtain ⟨_, hcount', h⟩ := bind_eq_ok.1 h
  obtain ⟨hvalid, h⟩ := raiseIf_bind_eq_ok.1 h
  obtain ⟨old, -, h⟩ := bind_eq_ok.1 h
  obtain ⟨-, rfl⟩ := u16_eq_ok.1 hoff'
  obtain ⟨-, rfl⟩ := u16_eq_ok.1 hcount'
  rw [hoff, hcount] at hvalid h
  obtain ⟨n, rfl⟩ : ∃ n, usaCount = n + 1 := ⟨fixed.length / sectorSize, by omega⟩
  have hn : n = fixed.length / sectorSize := by omega
  have hmul : n * sectorSize ≤ fixed.length := hn ▸ Nat.div_mul_le_self _ _
  have hspaced : Spaced sectorSize usaOff n fixed.length :=
    ⟨by omega, by omega, hmul, fun i hi hin ↦
      hchecks i hi ((Nat.mul_le_mul_right _ hin).trans hmul)⟩
  set usn := wr16 (nextUsn old) with husn
  have hlen₂ : usn.length = 2 := wr16_length _
  have hzero : Prepared sectorSize usaOff usn (bytesImage fixed) 0
      (bytesImage (putSlice fixed usaOff (usaOff + 2) usn)) := by
    rw [bytesImage_putSlice (by omega) (by omega)]
    exact Prepared.zero hlen₂
  obtain ⟨hlength, hprepared⟩ := prepared_foldl hspaced hlen₂
    (length_putSlice (by omega) (by omega)) hzero le_rfl
  rw [Nat.add_sub_cancel] at h
  obtain rfl := ok.inj h
  set record := (range' 1 n).foldl (prepareFixup sectorSize usaOff usn)
    (putSlice fixed usaOff (usaOff + 2) usn)
  -- the words that say where the array is are no check bytes and lie in front of the array
  have hsame : ∀ a < 8, bytesImage record a = bytesImage fixed a := fun a ha ↦ by
    refine hprepared.rest a (by omega) fun i hi hin hcheck ↦ ?_
    have hlow : sectorSize ≤ i * sectorSize := Nat.le_mul_of_pos_left _ hi
    have := hcheck.1
    omega
  obtain ⟨restored, hfold, hrestoredLen, hrestored⟩ :=
    restored_foldlM hspaced hlength hprepared le_rfl
  refine ⟨restored, ?_, hrestoredLen, fun a ha ↦ hrestored.eq hspaced hprepared ha⟩
  have hoff₁ : u16 record 4 = .ok usaOff := u16_eq_ok.2
    ⟨by omega, by rw [rd16_congr (hsame 4 (by omega)) (hsame 5 (by omega)), hoff]⟩
  have hcount₁ : u16 record 6 = .ok (n + 1) := u16_eq_ok.2
    ⟨by omega, by rw [rd16_congr (hsame 6 (by omega)) (hsame 7 (by omega)), hcount]⟩
  have hfirst : slice record usaOff (usaOff + 2) = usn := by
    rw [slice_eq_read rfl (by omega), hprepared.first]
  rw [applyFixups, hoff₁, ok_bind, hcount₁, ok_bind, raiseIf_bind_of_not (by rwa [hlength]), hfirst]
  exact hfold

/-- A record whose fixups were applied has its size and the two words that locate the array, and the
array has a word for every sector. -/
theorem applyFixups_eq_ok {raw : List UInt8} {sectorSize : ℕ} (hsector : 10 ≤ sectorSize)
    (h : applyFixups raw sectorSize = .ok fixed) :
    fixed.length = raw.length ∧ (∀ a < 8, bytesImage fixed a = bytesImage raw a) ∧
      rd16 (bytesImage raw) 6 = raw.length / sectorSize + 1 ∧
      rd16 (bytesImage raw) 4 + rd16 (bytesImage raw) 6 * 2 ≤ raw.length := by
  rw [applyFixups] at h
  obtain ⟨usaOff, hoff, h⟩ := bind_eq_ok.1 h
  obtain ⟨usaCount, hcount, h⟩ := bind_eq_ok.1 h
  obtain ⟨hvalid, h⟩ := raiseIf_bind_eq_ok.1 h
  obtain ⟨-, rfl⟩ := u16_eq_ok.1 hoff
  obtain ⟨-, rfl⟩ := u16_eq_ok.1 hcount
  push Not at hvalid
  have hinv := foldlM_invariant
    (P := fun record ↦ record.length = raw.length ∧ ∀ a < 8, bytesImage record a = bytesImage raw a)
    (fun index hindex record record' hround ⟨hlen, hsame⟩ ↦ ?_) h ⟨rfl, fun _ _ ↦ rfl⟩
  · exact ⟨hinv.1, hinv.2, hvalid.1, hvalid.2⟩
  · obtain ⟨-, hround⟩ := raiseIf_bind_eq_ok.1 hround
    obtain rfl := ok.inj hround
    obtain ⟨hlow, hhigh⟩ := mem_range'_1.1 hindex
    have hstop : index * sectorSize ≤ raw.length :=
      (Nat.mul_le_mul_right _ (by omega)).trans (Nat.div_mul_le_self raw.length sectorSize)
    have hstart : sectorSize ≤ index * sectorSize := Nat.le_mul_of_pos_left _ hlow
    have hslot : (slice record (rd16 (bytesImage raw) 4 + index * 2)
        (rd16 (bytesImage raw) 4 + index * 2 + 2)).length = 2 := by
      rw [slice_eq_read rfl (by omega), Image.read_length]
    refine ⟨by rw [length_putSlice (by omega) (by omega), hlen], fun a ha ↦ ?_⟩
    rw [bytesImage_putSlice (by omega) (by omega), Image.write_apply_of_not_mem (by omega),
      hsame a ha]

/-- Fixups can be prepared for a record whose array has a word for every sector. -/
theorem prepareFixups_eq_ok {sectorSize : ℕ} (hsize : 8 ≤ fixed.length)
    (hcount : rd16 (bytesImage fixed) 6 = fixed.length / sectorSize + 1)
    (hinside : rd16 (bytesImage fixed) 4 + rd16 (bytesImage fixed) 6 * 2 ≤ fixed.length) :
    ∃ record, prepareFixups fixed sectorSize = .ok record := by
  have hone : 1 ≤ rd16 (bytesImage fixed) 6 := hcount ▸ Nat.le_add_left 1 _
  rw [prepareFixups, u16_eq_ok.2 ⟨by omega, rfl⟩, ok_bind, u16_eq_ok.2 ⟨by omega, rfl⟩, ok_bind,
    raiseIf_bind_of_not (by omega), u16_eq_ok.2 ⟨by omega, rfl⟩, ok_bind]
  exact ⟨_, rfl⟩

/-- Preparing fixups keeps the size of a record. -/
theorem length_prepareFixups {record : List UInt8} {sectorSize : ℕ} (hsector : 2 ≤ sectorSize)
    (h : prepareFixups fixed sectorSize = .ok record) : record.length = fixed.length := by
  rw [prepareFixups] at h
  obtain ⟨usaOff, -, h⟩ := bind_eq_ok.1 h
  obtain ⟨usaCount, -, h⟩ := bind_eq_ok.1 h
  obtain ⟨hvalid, h⟩ := raiseIf_bind_eq_ok.1 h
  obtain ⟨old, hold, h⟩ := bind_eq_ok.1 h
  obtain rfl := ok.inj h
  push Not at hvalid
  obtain ⟨hcount, hinside⟩ := hvalid
  have hrounds : ∀ k ≤ usaCount - 1, ((range' 1 k).foldl
      (prepareFixup sectorSize usaOff (wr16 (nextUsn old)))
      (putSlice fixed usaOff (usaOff + 2) (wr16 (nextUsn old)))).length = fixed.length := by
    intro k hk
    induction k with
    | zero => exact length_putSlice rfl (u16_eq_ok.1 hold).1
    | succ k ih =>
      have hlength := ih (by omega)
      have hstop : (k + 1) * sectorSize ≤ fixed.length :=
        (Nat.mul_le_mul_right _ (by omega)).trans (Nat.div_mul_le_self fixed.length sectorSize)
      have hstart : sectorSize ≤ (k + 1) * sectorSize := Nat.le_mul_of_pos_left _ (Nat.succ_pos k)
      rw [range'_concat, foldl_append, foldl_cons, foldl_nil, Nat.one_mul,
        Nat.add_comm 1 k, length_prepareFixup rfl (by omega) (by omega) (by omega), hlength]
  exact hrounds _ le_rfl

end LinuxDefragger.Ntfs
