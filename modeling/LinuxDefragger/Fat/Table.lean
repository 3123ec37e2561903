import LinuxDefragger.Fat.Loaded
import Mathlib.Data.List.Destutter
import Mathlib.Data.List.Sort

/-!
# Updating the FAT

The two ways the engine changes table entries: `fat32WriteEntry`, a read-modify-write of one entry
in every maintained copy, and `fat32ApplyUpdates`, which on FAT32 rebuilds whole runs of sectors
from the table in memory.

`FatType.putEntry` is one read-modify-write on a raw table. It replaces the entry
(`decodeRaw_putEntry_self`) and **no other** (`decodeRaw_putEntry_of_ne`), which for FAT12 is a
statement about the two halves of a shared byte.
-/

open Function List Storage

namespace LinuxDefragger.Fat

variable {raw' : Image} {i copy : ℕ} {sectors : List ℕ}

namespace FatType

/-! ### One entry of a raw table -/

/-- The bytes `fat32_write_entry` stores over an entry whose old bytes are at the start of `raw`. -/
def encodeEntry : FatType → Image → ℕ → ℕ → List UInt8
  | fat12, raw, cluster, newValue =>
    let pair := rd16 raw 0
    let value := newValue &&& 0x0FFF
    wr16 (if cluster &&& 1 = 1 then (pair &&& 0x000F) ||| value <<<
      4 else (pair &&& 0xF000) ||| value)
  | fat16, _, _, newValue => wr16 newValue
  | fat32, raw, _, newValue => wr32 ((rd32 raw 0 &&& 0xF0000000) ||| (newValue &&& 0x0FFFFFFF))

/-- The table with one entry replaced by read-modify-write. -/
def putEntry (t : FatType) (raw : Image) (cluster newValue : ℕ) : Image :=
  raw.write (t.entryByteOffset cluster)
    (t.encodeEntry (raw.view (t.entryByteOffset cluster)) cluster newValue)

@[simp] theorem encodeEntry_length (t : FatType) (raw : Image) (cluster v : ℕ) :
    (t.encodeEntry raw cluster v).length = t.span := by
  cases t <;> rfl

/-- An entry is stored from its own bytes only. -/
theorem encodeEntry_congr (t : FatType) {raw : Image} (cluster v : ℕ)
    (h : ∀ i < t.span, raw i = raw' i) :
    t.encodeEntry raw cluster v = t.encodeEntry raw' cluster v := by
  cases t with
  | fat12 =>
    have h16 : rd16 raw 0 = rd16 raw' 0 := rd16_congr (h 0 (by decide)) (h 1 (by decide))
    simp only [encodeEntry, h16]
  | fat16 => rfl
  | fat32 =>
    have h32 : rd32 raw 0 = rd32 raw' 0 := rd32_congr fun i hi ↦ by
      rw [Nat.zero_add]
      exact h i hi
    simp only [encodeEntry, h32]

/-- An entry is decoded from its own bytes only. -/
theorem decodeRaw_congr (t : FatType) {raw : Image} {cluster : ℕ}
    (h : ∀ i < t.span, raw (t.entryByteOffset cluster + i) = raw' (t.entryByteOffset cluster + i)) :
    t.decodeRaw raw cluster = t.decodeRaw raw' cluster := by
  cases t with
  | fat12 =>
    have h16 := rd16_congr (h 0 (by decide)) (h 1 (by decide))
    simp only [Nat.add_zero] at h16
    simp only [decodeRaw, h16]
  | fat16 => exact rd16_congr (h 0 (by decide)) (h 1 (by decide))
  | fat32 =>
    have h32 := rd32_congr (p := raw) h
    simp only [decodeRaw, h32]

theorem decodeRaw_lt (t : FatType) (raw : Image) (cluster : ℕ) :
    t.decodeRaw raw cluster < 2 ^ t.bits := by
  cases t with
  | fat12 =>
    have := rd16_lt raw (entryByteOffset fat12 cluster)
    simp only [decodeRaw, bits]
    split_ifs
    · rw [Nat.shiftRight_eq_div_pow]
      omega
    · exact (fat12.and_mask_lt _)
  | fat16 => exact rd16_lt _ _
  | fat32 => exact fat32.and_mask_lt _

theorem putEntry_of_not_mem (t : FatType) (raw : Image) {cluster a : ℕ} (v : ℕ)
    (h : a < t.entryByteOffset cluster ∨ t.entryByteOffset cluster + t.span ≤ a) :
    t.putEntry raw cluster v a = raw a :=
  Image.write_apply_of_not_mem (by rwa [encodeEntry_length])

/-! ### FAT12: two entries in three bytes -/

section Fat12

variable (raw : Image) {cluster : ℕ} (v : ℕ)

theorem decodeRaw_fat12_odd (h : cluster % 2 = 1) : fat12.decodeRaw raw cluster =
    (raw (cluster + cluster / 2)).toNat / 16 + 16 * (raw (cluster + cluster / 2 + 1)).toNat := by
  have hodd : cluster &&& 1 = 1 := by rw [Nat.and_one_is_mod, h]
  simp only [decodeRaw, hodd, if_true, Nat.shiftRight_eq_div_pow, rd16, le16, entryByteOffset]
  omega

theorem decodeRaw_fat12_even (h : cluster % 2 = 0) : fat12.decodeRaw raw cluster =
    (raw (cluster + cluster / 2)).toNat + 256 * ((raw (cluster + cluster / 2 + 1)).toNat % 16) := by
  have heven : ¬cluster &&& 1 = 1 := by rw [Nat.and_one_is_mod, h]; decide
  have hmask := Storage.and_mask (rd16 raw (cluster + cluster / 2)) 12
  have hlow := (raw (cluster + cluster / 2)).toNat_lt
  simp only [decodeRaw, if_neg heven, entryByteOffset]
  rw [show (0x0FFF : ℕ) = 2 ^ 12 - 1 from rfl, hmask]
  simp only [rd16, le16]
  omega

/-- Storing an odd entry keeps the low half of the byte it shares with its neighbour. -/
theorem encodeEntry_fat12_odd (h : cluster % 2 = 1) : fat12.encodeEntry raw cluster v =
    wr16 ((raw 0).toNat % 16 + 16 * (v % 4096)) := by
  have hodd : cluster &&& 1 = 1 := by rw [Nat.and_one_is_mod, h]
  have hhi : (v % 2 ^ 12) <<< 4 = 2 ^ 4 * (v % 2 ^ 12) := by rw [Nat.shiftLeft_eq, Nat.mul_comm]
  simp only [encodeEntry, hodd, if_true]
  rw [show (0x0FFF : ℕ) = 2 ^ 12 - 1 from rfl, show (0x000F : ℕ) = 2 ^ 4 - 1 from rfl,
    Storage.and_mask, Storage.and_mask, hhi, Nat.lor_comm,
    ← Nat.two_pow_add_eq_or_of_lt (Nat.mod_lt _ (by norm_num))]
  refine congrArg wr16 ?_
  simp only [rd16, le16]
  omega

/-- Storing an even entry keeps the high half of the byte it shares with its neighbour. -/
theorem encodeEntry_fat12_even (h : cluster % 2 = 0) : fat12.encodeEntry raw cluster v =
    wr16 ((raw 1).toNat / 16 * 4096 + v % 4096) := by
  have heven : ¬cluster &&& 1 = 1 := by rw [Nat.and_one_is_mod, h]; decide
  have hhigh := Storage.and_high (n := 16) (k := 12) (rd16_lt raw 0) (by norm_num)
  have hlow := (raw 0).toNat_lt
  simp only [encodeEntry, if_neg heven]
  rw [show (0xF000 : ℕ) = (2 ^ (16 - 12) - 1) <<< 12 from rfl, hhigh,
    show (0x0FFF : ℕ) = 2 ^ 12 - 1 from rfl, Storage.and_mask, high_or_low]
  refine congrArg wr16 ?_
  simp only [rd16, le16, Nat.zero_add]
  omega

end Fat12

/-! ### What storing an entry does to the table -/

theorem encodeEntry_fat32 (raw : Image) (cluster v : ℕ) : fat32.encodeEntry raw cluster v =
    wr32 (rd32 raw 0 / 2 ^ 28 * 2 ^ 28 + v % 2 ^ 28) := by
  have hhigh := Storage.and_high (n := 32) (k := 28) (rd32_lt raw 0) (by norm_num)
  rw [encodeEntry, show (0xF0000000 : ℕ) = (2 ^ (32 - 28) - 1) <<< 28 from rfl, hhigh,
    show (0x0FFFFFFF : ℕ) = 2 ^ 28 - 1 from rfl, Storage.and_mask, high_or_low]

/-- **The stored entry decodes to the new value**, cut to the width of the table. -/
theorem decodeRaw_putEntry_self (t : FatType) (raw : Image) (cluster v : ℕ) :
    t.decodeRaw (t.putEntry raw cluster v) cluster = v &&& t.mask := by
  rw [and_mask]
  cases t with
  | fat12 =>
    have hhigh := (raw (cluster + cluster / 2 + 1)).toNat_lt
    rcases Nat.mod_two_eq_zero_or_one cluster with h | h
    · rw [decodeRaw_fat12_even _ h, putEntry, encodeEntry_fat12_even _ _ h]
      simp only [entryByteOffset, Image.view_apply, bits, write_wr16_low, write_wr16_high,
        toNat_ofNat_byte]
      omega
    · rw [decodeRaw_fat12_odd _ h, putEntry, encodeEntry_fat12_odd _ _ h]
      simp only [entryByteOffset, Image.view_apply, bits, Nat.add_zero, write_wr16_low,
        write_wr16_high, toNat_ofNat_byte]
      omega
  | fat16 => exact rd16_write_wr16 raw _ v
  | fat32 =>
    have hlt := rd32_lt (raw.view (entryByteOffset fat32 cluster)) 0
    rw [decodeRaw, putEntry, encodeEntry_fat32, rd32_write_wr32,
      show (0x0FFFFFFF : ℕ) = 2 ^ 28 - 1 from rfl, Storage.and_mask]
    simp only [bits]
    omega

/-- At the two wider formats, and between entries of different FAT12 pairs, the bytes of two entries
are disjoint. -/
theorem entryBytes_disjoint (t : FatType) {cluster : ℕ} (h : i ≠ cluster)
    (hpair : t = fat12 → i / 2 ≠ cluster / 2) :
    t.entryByteOffset i + t.span ≤ t.entryByteOffset cluster ∨
      t.entryByteOffset cluster + t.span ≤ t.entryByteOffset i := by
  cases t with
  | fat12 =>
    have := hpair rfl
    simp only [entryByteOffset, span]
    omega
  | fat16 | fat32 =>
    simp only [entryByteOffset, span]
    omega

/-- **No other entry changes.** -/
theorem decodeRaw_putEntry_of_ne (t : FatType) (raw : Image) {cluster : ℕ} (v : ℕ)
    (h : i ≠ cluster) :
    t.decodeRaw (t.putEntry raw cluster v) i = t.decodeRaw raw i := by
  by_cases hpair : t = fat12 → i / 2 ≠ cluster / 2
  · refine t.decodeRaw_congr fun k hk ↦ t.putEntry_of_not_mem raw v ?_
    have := t.entryBytes_disjoint h hpair
    omega
  · -- the two entries of one FAT12 pair share their middle byte, of which each owns one half
    push Not at hpair
    obtain ⟨rfl, hpair⟩ := hpair
    have hout : ∀ a, a < cluster + cluster / 2 ∨ cluster + cluster / 2 + 2 ≤ a →
        fat12.putEntry raw cluster v a = raw a := fun a ↦ fat12.putEntry_of_not_mem raw v
    rcases Nat.mod_two_eq_zero_or_one cluster with hc | hc
    · have hi : i = cluster + 1 := by omega
      have hhigh := (raw (cluster + cluster / 2 + 1)).toNat_lt
      rw [decodeRaw_fat12_odd _ (by omega), decodeRaw_fat12_odd _ (by omega),
        hout (i + i / 2 + 1) (by omega),
        show i + i / 2 = cluster + cluster / 2 + 1 by omega, putEntry,
        encodeEntry_fat12_even _ _ hc]
      simp only [entryByteOffset, Image.view_apply, write_wr16_high, toNat_ofNat_byte]
      omega
    · have hi : cluster = i + 1 := by omega
      rw [decodeRaw_fat12_even _ (by omega), decodeRaw_fat12_even _ (by omega),
        hout (i + i / 2) (by omega),
        show i + i / 2 + 1 = cluster + cluster / 2 by omega, putEntry,
        encodeEntry_fat12_odd _ _ hc]
      simp only [entryByteOffset, Image.view_apply, Nat.add_zero, write_wr16_low, toNat_ofNat_byte]
      omega

end FatType

/-! ### The volume after a list of writes -/

namespace Fat32

/-- FAT copy `copy`, as a buffer. -/
def copyView (fs : Fat32) (copy : ℕ) : Image := fs.dev.image.view (fs.fatCopyOffset copy)

/-- The volume with another table in memory. -/
def withFat (fs : Fat32) (fat : ℕ → ℕ) : Fat32 := { fs with fat }

/-- The volume after the engine has issued `ws` and set its table to `fat`. -/
def after (fs : Fat32) (ws : List Write) (fat : ℕ → ℕ) : Fat32 :=
  { fs with dev := fs.dev.issue ws, fat }

section After

variable (fs : Fat32) (ws : List Write) (fat : ℕ → ℕ)

theorem after_nil : fs.after [] fs.fat = fs := by
  simp [after]

theorem after_after (ws' : List Write) (fat' : ℕ → ℕ) :
    (fs.after ws fat).after ws' fat' = fs.after (ws ++ ws') fat' := by
  simp [after, Device.issue_issue]

variable {fs}

theorem Layout.withFat (h : fs.Layout) : (fs.withFat fat).Layout := { h with }

theorem Layout.after (h : fs.Layout) : (fs.after ws fat).Layout := { h with }

end After

/-- The write stays inside one maintained copy of the FAT. -/
def InFat (fs : Fat32) (w : Write) : Prop :=
  ∃ copy ∈ fs.maintainedCopies, fs.fatCopyOffset copy ≤ w.offset ∧
    w.offset + w.data.length ≤ fs.fatCopyOffset copy + fs.fatBytes

end Fat32

/-! ### `fat32_write_entry` -/

/-- One round of the copy loop of `fat32_write_entry`. -/
def writeEntryCopy (fs : Fat32) (cluster newValue : ℕ) (dev : Device) (copy : ℕ) :
    Except Halt Device := do
  let off := fs.fatCopyOffset copy + fs.fatType.entryByteOffset cluster
  let raw ← dev.fullPread fs.fatType.span off "read FAT entry before update"
  return dev.fullPwrite (fs.fatType.encodeEntry raw cluster newValue) off

/-- `fat32_write_entry` -/
def fat32WriteEntry (fs : Fat32) (cluster newValue : ℕ) : Except Halt Fat32 := do
  dieIf (fs.dev.writable = false) "internal error: attempted write on read-only target"
  dieIf (cluster ≥ fs.fatEntryCount) "attempted FAT write outside table"
  let dev ← fs.maintainedCopies.foldlM (writeEntryCopy fs cluster newValue) fs.dev
  return { fs with dev, fat := Function.update fs.fat cluster (newValue &&& fs.fatType.mask) }

/-- The write that `fat32_write_entry` issues to one copy of the FAT. -/
def entryWrite (fs : Fat32) (m : Image) (cluster newValue copy : ℕ) : Write where
  offset := fs.fatCopyOffset copy + fs.fatType.entryByteOffset cluster
  data := fs.fatType.encodeEntry
    (m.view (fs.fatCopyOffset copy + fs.fatType.entryByteOffset cluster)) cluster newValue

section WriteEntry

variable {fs : Fat32} {cluster : ℕ} (h : fs.Layout) (hc : cluster < fs.fatEntryCount) (v : ℕ)
include h hc

/-- Copies do not share bytes, so what is read for one copy is what was there at the start. -/
theorem entryWrite_after_write {k l : ℕ} (hkl : k ≠ l) (m : Image) :
    entryWrite fs ((entryWrite fs m cluster v k).apply m) cluster v l =
      entryWrite fs m cluster v l := by
  have hin := h.entry_in_copy hc
  refine congrArg (Write.mk _) (fs.fatType.encodeEntry_congr _ _ fun i hi ↦ ?_)
  refine Write.apply_of_not_covers m fun hcov ↦ ?_
  simp only [Write.Covers, entryWrite, FatType.encodeEntry_length] at hcov
  obtain ⟨j, hj⟩ := Nat.exists_eq_add_of_le hcov.1
  refine fs.fatCopy_ne hkl (i := fs.fatType.entryByteOffset cluster + j)
    (j := fs.fatType.entryByteOffset cluster + i) (by omega) (by omega) ?_
  omega

theorem foldlM_writeEntryCopy {copies : List ℕ} (hnd : copies.Nodup)
    (hlt : ∀ copy ∈ copies, copy < fs.fatCount) (dev : Device)
    (hsize : dev.sizeBytes = fs.dev.sizeBytes) :
    copies.foldlM (writeEntryCopy fs cluster v) dev =
      .ok (dev.issue (copies.map (entryWrite fs dev.image cluster v))) := by
  induction copies generalizing dev with
  | nil => simp
  | cons copy copies ih =>
    have hin := h.entry_in_copy hc
    have hcopy := h.fatCopy_le_size (hlt copy mem_cons_self)
    rw [nodup_cons] at hnd
    have hstep : writeEntryCopy fs cluster v dev copy =
        .ok (dev.issue [entryWrite fs dev.image cluster v copy]) := by
      rw [writeEntryCopy, dev.fullPread_of_le _ (by omega), ok_bind]
      rfl
    have htail : copies.map (entryWrite fs (dev.issue
        [entryWrite fs dev.image cluster v copy]).image cluster v) =
        copies.map (entryWrite fs dev.image cluster v) := by
      refine map_congr_left fun l hl ↦ entryWrite_after_write h hc v ?_ _
      rintro rfl
      exact hnd.1 hl
    have hrest := ih hnd.2 (fun k hk ↦ hlt k (mem_cons_of_mem _ hk))
      (dev.issue [entryWrite fs dev.image cluster v copy]) hsize
    rw [foldlM_cons, hstep, ok_bind, hrest, htail, Device.issue_issue]
    rfl

/-- The writes of one `fat32_write_entry`. -/
theorem fat32WriteEntry_eq_ok (hw : fs.dev.writable = true) : fat32WriteEntry fs cluster v =
    .ok (fs.after (fs.maintainedCopies.map (entryWrite fs fs.dev.image cluster v))
      (update fs.fat cluster (v &&& fs.fatType.mask))) := by
  rw [fat32WriteEntry, dieIf_bind_of_not (by simp [hw]), dieIf_bind_of_not (by omega),
    foldlM_writeEntryCopy h hc v Fat32.Layout.maintainedCopies_nodup
      (fun _ hk ↦ h.lt_of_mem_maintainedCopies hk) fs.dev rfl]
  rfl

theorem inFat_entryWrite {m : Image} (hcopy : copy ∈ fs.maintainedCopies) :
    fs.InFat (entryWrite fs m cluster v copy) := by
  have := h.entry_in_copy hc
  refine ⟨copy, hcopy, Nat.le_add_right _ _, ?_⟩
  simp only [entryWrite, FatType.encodeEntry_length]
  omega

/-- **In each maintained copy the entry is put, and nothing else changes.** -/
theorem applyAll_entryWrites (m : Image) (hcopy : copy ∈ fs.maintainedCopies)
    (hi : i < fs.fatBytes) :
    applyAll m (fs.maintainedCopies.map (entryWrite fs m cluster v)) (fs.fatCopyOffset copy + i) =
      fs.fatType.putEntry (m.view (fs.fatCopyOffset copy)) cluster v i := by
  have hput : fs.fatType.putEntry (m.view (fs.fatCopyOffset copy)) cluster v i =
      (entryWrite fs m cluster v copy).apply m (fs.fatCopyOffset copy + i) := by
    rw [FatType.putEntry, Image.view_view, ← Image.view_write_add]
    rfl
  have hin := h.entry_in_copy hc
  rw [hput, applyAll_of_consistent (g := (entryWrite fs m cluster v copy).apply m)]
  · split_ifs with hcov
    · rfl
    · exact (Write.apply_of_not_covers m fun hc' ↦ hcov ⟨_, mem_map_of_mem hcopy, hc'⟩).symm
  · -- only this copy's write reaches the address
    intro w hw m' hcov
    obtain ⟨l, -, rfl⟩ := mem_map.1 hw
    obtain rfl : l = copy := by
      by_contra hne
      simp only [Write.Covers, entryWrite, FatType.encodeEntry_length] at hcov
      obtain ⟨j, hj⟩ := Nat.exists_eq_add_of_le hcov.1
      refine fs.fatCopy_ne hne (i := fs.fatType.entryByteOffset cluster + j)
        (j := i) (by omega) hi (by omega)
    exact Write.apply_of_covers _ _ hcov

end WriteEntry

/-! ### `fat32_apply_updates` -/

/-- `FatUpdate` -/
structure FatUpdate where
  cluster : ℕ
  value : ℕ
  deriving DecidableEq, Repr

/-- Updates applied one by one with `fat32_write_entry`, in order. -/
def writeEntries (fs : Fat32) (updates : List FatUpdate) : Except Halt Fat32 :=
  updates.foldlM (fun fs u ↦ fat32WriteEntry fs u.cluster u.value) fs

/-- One round of the first loop of the bulk path: the table in memory takes the value at once. -/
def storeUpdate (fs : Fat32) (u : FatUpdate) : Except Halt Fat32 := do
  dieIf (u.cluster ≥ fs.fatEntryCount) "attempted bulk FAT write outside table"
  return fs.withFat (Function.update fs.fat u.cluster
    ((fs.fat u.cluster &&& 0xF0000000) ||| (u.value &&& 0x0FFFFFFF)))

/-- The FAT sectors that hold an updated entry, sorted and without repetitions. -/
def touchedSectors (fs : Fat32) (updates : List FatUpdate) : List ℕ :=
  ((updates.map fun u ↦ u.cluster * 4 / fs.bytesPerSector).insertionSort (· ≤ ·)).destutter (· ≠ ·)

/-- Consecutive sectors are merged into runs of a first sector and a count. -/
def sectorRuns : List ℕ → List (ℕ × ℕ)
  | [] => []
  | s :: rest =>
    match sectorRuns rest with
    | (first, count) :: runs =>
      if first = s + 1 then (s, count + 1) :: runs else (s, 1) :: (first, count) :: runs
    | [] => [(s, 1)]

/-- The sectors of a run, rebuilt from the table in memory. -/
def encodeRun (fs : Fat32) (first count : ℕ) : List UInt8 :=
  (List.range' (first * fs.bytesPerSector / 4) (count * fs.bytesPerSector / 4)).flatMap fun e ↦
    wr32 (fs.fat e)

/-- The writes of the second loop of the bulk path: each run goes to each maintained copy. -/
def bulkWrites (fs : Fat32) (sectors : List ℕ) : List Write :=
  (sectorRuns sectors).flatMap fun run ↦ fs.maintainedCopies.map fun copy ↦
    ⟨fs.fatCopyOffset copy + run.1 * fs.bytesPerSector, encodeRun fs run.1 run.2⟩

/-- `fat32_apply_updates` -/
def fat32ApplyUpdates (fs : Fat32) (updates : List FatUpdate) : Except Halt Fat32 := do
  if updates = [] then return fs
  dieIf (fs.dev.writable = false) "internal error: attempted bulk FAT write on read-only target"
  if fs.fatType ≠ .fat32 ∨ (fs.recoveryMode ∧ fs.fatMirroring) then
    writeEntries fs updates
  else
    let fs ← updates.foldlM storeUpdate fs
    return { fs with dev := fs.dev.issue (bulkWrites fs (touchedSectors fs updates)) }

/-- The table in memory after updates. -/
def updateTable (t : FatType) (fat : ℕ → ℕ) (updates : List FatUpdate) : ℕ → ℕ :=
  updates.foldl (fun fat u ↦ Function.update fat u.cluster (u.value &&& t.mask)) fat

/-- A raw table after updates, entry by entry. -/
def FatType.putEntries (t : FatType) (raw : Image) (updates : List FatUpdate) : Image :=
  updates.foldl (fun raw u ↦ t.putEntry raw u.cluster u.value) raw

@[simp] theorem updateTable_cons (t : FatType) (fat : ℕ → ℕ) (u : FatUpdate) (us : List FatUpdate) :
    updateTable t fat (u :: us) = updateTable t (update fat u.cluster (u.value &&& t.mask)) us :=
      rfl

@[simp] theorem FatType.putEntries_cons (t : FatType) (raw : Image) (u : FatUpdate)
    (us : List FatUpdate) :
    t.putEntries raw (u :: us) = t.putEntries (t.putEntry raw u.cluster u.value) us := rfl

theorem updateTable_of_not_mem (t : FatType) (fat : ℕ → ℕ) {updates : List FatUpdate}
    (h : i ∉ updates.map FatUpdate.cluster) : updateTable t fat updates i = fat i := by
  induction updates generalizing fat with
  | nil => rfl
  | cons u us ih =>
    rw [map_cons, mem_cons, not_or] at h
    rw [updateTable_cons, ih _ h.2, update_of_ne h.1]

theorem updateTable_lt (t : FatType) {fat : ℕ → ℕ} (h : ∀ i, fat i < 2 ^ t.bits)
    (updates : List FatUpdate) (i : ℕ) : updateTable t fat updates i < 2 ^ t.bits := by
  induction updates generalizing fat with
  | nil => exact h i
  | cons u us ih =>
    rw [updateTable_cons]
    refine ih fun j ↦ ?_
    by_cases hj : j = u.cluster
    · rw [hj, update_self]
      exact t.and_mask_lt _
    · rw [update_of_ne hj]
      exact h j

/-- **Entry by entry, a raw table and the table in memory take the same updates.** -/
theorem FatType.decodeRaw_putEntries (t : FatType) (raw : Image) (fat : ℕ → ℕ)
    (updates : List FatUpdate) (h : i ∉ updates.map FatUpdate.cluster → t.decodeRaw raw i = fat i) :
    t.decodeRaw (t.putEntries raw updates) i = updateTable t fat updates i := by
  induction updates generalizing raw fat with
  | nil => exact h (by simp)
  | cons u us ih =>
    rw [updateTable_cons, t.putEntries_cons]
    refine ih _ _ fun hi ↦ ?_
    by_cases hu : i = u.cluster
    · rw [hu, t.decodeRaw_putEntry_self, update_self]
    · rw [t.decodeRaw_putEntry_of_ne _ _ hu, update_of_ne hu]
      exact h (by simp [hu, hi])

/-! ### What the entry path does -/

theorem FatType.putEntry_congr (t : FatType) {raw : Image} {n cluster : ℕ} (v : ℕ)
    (h : ∀ i < n, raw i = raw' i) (hn : t.entryByteOffset cluster + t.span ≤ n) (hi : i < n) :
    t.putEntry raw cluster v i = t.putEntry raw' cluster v i := by
  have hdata : t.encodeEntry (raw.view (t.entryByteOffset cluster)) cluster v =
      t.encodeEntry (raw'.view (t.entryByteOffset cluster)) cluster v :=
    t.encodeEntry_congr cluster v fun j hj ↦ h _ (by omega)
  rw [putEntry, hdata]
  exact Image.write_congr (h i hi)

theorem FatType.putEntries_congr (t : FatType) {n : ℕ} {us : List FatUpdate}
    (hn : ∀ u ∈ us, t.entryByteOffset u.cluster + t.span ≤ n) {raw : Image}
    (h : ∀ i < n, raw i = raw' i) (hi : i < n) :
    t.putEntries raw us i = t.putEntries raw' us i := by
  induction us generalizing raw raw' with
  | nil => exact h i hi
  | cons u us ih =>
    refine ih (fun w hw ↦ hn w (mem_cons_of_mem _ hw)) fun j hj ↦ ?_
    exact t.putEntry_congr u.value h (hn u mem_cons_self) hj

/-- **The entry path, as writes.** It never dies on updates inside the table, and leaves in each
maintained copy the copy's own old contents with the entries put in order. -/
theorem writeEntries_spec {fs : Fat32} (h : fs.Layout) (hw : fs.dev.writable = true)
    {us : List FatUpdate} (hin : ∀ u ∈ us, u.cluster < fs.fatEntryCount) :
    ∃ ws, writeEntries fs us = .ok (fs.after ws (updateTable fs.fatType fs.fat us)) ∧
      (∀ w ∈ ws, fs.InFat w) ∧
      ∀ copy ∈ fs.maintainedCopies, ∀ i < fs.fatBytes,
        applyAll fs.dev.image ws (fs.fatCopyOffset copy + i) =
          fs.fatType.putEntries (fs.copyView copy) us i := by
  induction us generalizing fs with
  | nil =>
    refine ⟨[], ?_, by simp, fun copy _ i _ ↦ rfl⟩
    rw [show updateTable fs.fatType fs.fat [] = fs.fat from rfl, fs.after_nil]
    rfl
  | cons u us ih =>
    have hu := hin u mem_cons_self
    have htail := fun w hw ↦ hin w (mem_cons_of_mem u hw)
    set ws₁ := fs.maintainedCopies.map (entryWrite fs fs.dev.image u.cluster u.value) with hws₁
    set fat₁ := update fs.fat u.cluster (u.value &&& fs.fatType.mask) with hfat₁
    obtain ⟨ws₂, hrun, hfat, hbytes⟩ := ih (h.after ws₁ fat₁) hw htail
    refine ⟨ws₁ ++ ws₂, ?_, ?_, ?_⟩
    · rw [writeEntries, foldlM_cons, fat32WriteEntry_eq_ok h hu u.value hw, ok_bind]
      rw [Fat32.after_after] at hrun
      exact hrun
    · intro w hmem
      rcases mem_append.1 hmem with hmem | hmem
      · obtain ⟨copy, hcopy, rfl⟩ := mem_map.1 hmem
        exact inFat_entryWrite h hu u.value hcopy
      · exact hfat w hmem
    · intro copy hcopy i hi
      rw [applyAll_append, FatType.putEntries_cons]
      refine (hbytes copy hcopy i hi).trans ?_
      refine fs.fatType.putEntries_congr (fun w hw ↦ h.entry_in_copy (htail w hw)) ?_ hi
      exact fun j hj ↦ applyAll_entryWrites h hu u.value fs.dev.image hcopy hj

/-! ### What the bulk path does -/

theorem mem_destutter_ne {α : Type} [DecidableEq α] {l : List α} {x : α} :
    x ∈ l.destutter (· ≠ ·) ↔ x ∈ l := by
  cases l with
  | nil => rfl
  | cons a l =>
    rw [destutter_cons']
    induction l generalizing a with
    | nil => simp
    | cons b l ih =>
      by_cases hab : a ≠ b
      · rw [destutter'_cons_pos l hab, mem_cons, ih, mem_cons (a := x) (b := a)]
      · obtain rfl : a = b := by simpa using hab
        rw [destutter'_cons_neg l hab, ih]
        simp

theorem mem_touchedSectors {fs : Fat32} {us : List FatUpdate} {s : ℕ} :
    s ∈ touchedSectors fs us ↔ ∃ u ∈ us, u.cluster * 4 / fs.bytesPerSector = s := by
  rw [touchedSectors, mem_destutter_ne, mem_insertionSort, mem_map]

/-- Runs cover exactly the sectors they were merged from. -/
theorem mem_sectorRuns {s : ℕ} :
    s ∈ sectors ↔ ∃ run ∈ sectorRuns sectors, run.1 ≤ s ∧ s < run.1 + run.2 := by
  induction sectors with
  | nil => simp [sectorRuns]
  | cons a rest ih =>
    rw [mem_cons, ih, sectorRuns]
    rcases hrest : sectorRuns rest with _ | ⟨⟨first, count⟩, runs⟩
    · simp only [not_mem_nil, false_and, exists_false, or_false, mem_singleton, exists_eq_left]
      omega
    · by_cases hnext : first = a + 1
      · simp only [hnext, if_true, mem_cons, exists_eq_or_imp]
        rw [← or_assoc]
        refine or_congr_left ?_
        omega
      · simp only [hnext, if_false, mem_cons, exists_eq_or_imp]
        refine or_congr_left ?_
        omega

theorem sectorRuns_pos {run : ℕ × ℕ} (h : run ∈ sectorRuns sectors) : 0 < run.2 := by
  induction sectors generalizing run with
  | nil => simp [sectorRuns] at h
  | cons a rest ih =>
    rw [sectorRuns] at h
    rcases hrest : sectorRuns rest with _ | ⟨⟨first, count⟩, runs⟩
    · rw [hrest] at h
      obtain rfl := mem_singleton.1 h
      exact Nat.one_pos
    · rw [hrest] at h ih
      simp only at h
      split_ifs at h with hnext
      · rcases mem_cons.1 h with rfl | h
        · exact Nat.succ_pos _
        · exact ih (mem_cons_of_mem _ h)
      · rcases mem_cons.1 h with rfl | h
        · exact Nat.one_pos
        · exact ih h

section Bulk

variable {fs : Fat32} (h : fs.Layout)
include h

theorem encodeRun_length (first count : ℕ) :
    (encodeRun fs first count).length = count * fs.bytesPerSector := by
  obtain ⟨k, hk⟩ := h.thirtyTwo_dvd
  rw [encodeRun, wr32s_length, hk, show count * (32 * k) = 4 * (count * (8 * k)) by ring]
  omega

theorem encodeRun_getElem {first count j : ℕ} (hj : j < (encodeRun fs first count).length) :
    (encodeRun fs first count)[j] = wordsByte fs.fat (first * fs.bytesPerSector + j) := by
  obtain ⟨k, hk⟩ := h.thirtyTwo_dvd
  have hfirst : first * fs.bytesPerSector / 4 * 4 = first * fs.bytesPerSector := by
    rw [hk, show first * (32 * k) = 4 * (first * (8 * k)) by ring]
    omega
  simp only [encodeRun]
  rw [wr32s_getElem, hfirst]

omit h in
/-- The last sector of a run is one of the sectors it was merged from. -/
theorem run_le (hin : ∀ s ∈ sectors, s < fs.sectorsPerFat) {run : ℕ × ℕ}
    (hrun : run ∈ sectorRuns sectors) :
    run.1 * fs.bytesPerSector + run.2 * fs.bytesPerSector ≤ fs.fatBytes := by
  have hpos := sectorRuns_pos hrun
  have hlast : run.1 + run.2 - 1 ∈ sectors := mem_sectorRuns.2 ⟨run, hrun, by omega, by omega⟩
  have hlt := hin _ hlast
  rw [← Nat.add_mul, Fat32.fatBytes]
  exact Nat.mul_le_mul_right _ (by omega)

/-- A write of the bulk path reaches a byte of a copy just if it is for that copy and the byte's
sector is in its run. -/
theorem bulkWrite_covers_iff (hin : ∀ s ∈ sectors, s < fs.sectorsPerFat) {run : ℕ × ℕ}
    (hrun : run ∈ sectorRuns sectors) {k : ℕ} (hi : i < fs.fatBytes) :
    Write.Covers ⟨fs.fatCopyOffset k + run.1 * fs.bytesPerSector, encodeRun fs run.1 run.2⟩
        (fs.fatCopyOffset copy + i) ↔
      k = copy ∧ run.1 ≤ i / fs.bytesPerSector ∧ i / fs.bytesPerSector < run.1 + run.2 := by
  have hle := run_le hin hrun
  rw [Nat.le_div_iff_mul_le h.bytesPerSector_pos, Nat.div_lt_iff_lt_mul h.bytesPerSector_pos,
    Nat.add_mul]
  simp only [Write.Covers, encodeRun_length h]
  constructor
  · intro hcov
    obtain ⟨j, hj⟩ := Nat.exists_eq_add_of_le hcov.1
    obtain rfl : k = copy := by
      by_contra hne
      exact fs.fatCopy_ne hne (i := run.1 * fs.bytesPerSector + j) (j := i) (by omega) hi (by omega)
    omega
  · rintro ⟨rfl, h₁, h₂⟩
    omega

/-- **The bulk path, byte by byte.** A touched sector of a maintained copy holds the table in
memory; every other byte of the copy is as before. -/
theorem applyAll_bulkWrites (hin : ∀ s ∈ sectors, s < fs.sectorsPerFat) (m : Image)
    (hcopy : copy ∈ fs.maintainedCopies) (hi : i < fs.fatBytes) :
    applyAll m (bulkWrites fs sectors) (fs.fatCopyOffset copy + i) =
      if i / fs.bytesPerSector ∈ sectors then wordsByte fs.fat i
      else m (fs.fatCopyOffset copy + i) := by
  rw [applyAll_of_consistent (g := fun _ ↦ wordsByte fs.fat i)]
  · refine if_congr ?_ rfl rfl
    rw [mem_sectorRuns]
    constructor
    · rintro ⟨w, hw, hcov⟩
      obtain ⟨run, hrun, hw⟩ := mem_flatMap.1 hw
      obtain ⟨k, -, rfl⟩ := mem_map.1 hw
      exact ⟨run, hrun, ((bulkWrite_covers_iff h hin hrun hi).1 hcov).2⟩
    · rintro ⟨run, hrun, hmem⟩
      exact ⟨_, mem_flatMap.2 ⟨run, hrun, mem_map_of_mem hcopy⟩,
        (bulkWrite_covers_iff h hin hrun hi).2 ⟨rfl, hmem⟩⟩
  · intro w hw m' hcov
    obtain ⟨run, hrun, hw⟩ := mem_flatMap.1 hw
    obtain ⟨k, -, rfl⟩ := mem_map.1 hw
    obtain ⟨rfl, -, -⟩ := (bulkWrite_covers_iff h hin hrun hi).1 hcov
    have hlt := hcov.2
    have hoff := hcov.1
    simp only at hlt hoff
    rw [Write.apply, Image.write_apply_of_mem hoff (by simp only; omega), encodeRun_getElem h]
    congr 1
    omega

end Bulk

/-! ### `fat32_apply_updates` as a whole -/

theorem Fat32.Loaded.fat_lt {fs : Fat32} (h : fs.Loaded) (i : ℕ) :
    fs.fat i < 2 ^ fs.fatType.bits := by
  rw [h.fat, decodeTable]
  split_ifs
  · exact fs.fatType.decodeRaw_lt _ _
  · exact Nat.two_pow_pos _

/-- The first loop of the bulk path. Decoded entries have no reserved bits to keep, so it stores
what the entry path stores. -/
theorem foldlM_storeUpdate {fs : Fat32} (ht : fs.fatType = .fat32) (hfat : ∀ i, fs.fat i < 2 ^ 28)
    {us : List FatUpdate} (hin : ∀ u ∈ us, u.cluster < fs.fatEntryCount) :
    us.foldlM storeUpdate fs = .ok (fs.withFat (updateTable fs.fatType fs.fat us)) := by
  induction us generalizing fs with
  | nil => rfl
  | cons u us ih =>
    have hzero : fs.fat u.cluster &&& 0xF0000000 = 0 := by
      have hlt : fs.fat u.cluster < 2 ^ 32 := (hfat _).trans (by norm_num)
      rw [show (0xF0000000 : ℕ) = (2 ^ (32 - 28) - 1) <<< 28 from rfl,
        and_high hlt (by norm_num), Nat.div_eq_of_lt (hfat _), Nat.zero_mul]
    have hstep : storeUpdate fs u = .ok (fs.withFat
        (update fs.fat u.cluster (u.value &&& fs.fatType.mask))) := by
      rw [storeUpdate, dieIf_bind_of_not (Nat.not_le.2 (hin u mem_cons_self)), hzero,
        Nat.zero_or, ht]
      rfl
    have hlt : ∀ i, update fs.fat u.cluster (u.value &&& fs.fatType.mask) i < 2 ^ 28 := by
      intro i
      by_cases hi : i = u.cluster
      · rw [hi, update_self, ht]
        exact FatType.and_mask_lt .fat32 _
      · rw [update_of_ne hi]
        exact hfat i
    rw [foldlM_cons, hstep, ok_bind]
    exact ih ht hlt fun w hw ↦ hin w (mem_cons_of_mem _ hw)

/-- `fat32_apply_updates` goes by single entries. -/
def Fat32.UsesEntryPath (fs : Fat32) (us : List FatUpdate) : Prop :=
  us = [] ∨ fs.fatType ≠ .fat32 ∨ (fs.recoveryMode = true ∧ fs.fatMirroring = true)

instance (fs : Fat32) (us : List FatUpdate) : Decidable (fs.UsesEntryPath us) :=
  inferInstanceAs (Decidable (_ ∨ _))

theorem touched_lt {fs : Fat32} (h : fs.Layout) (ht : fs.fatType = .fat32) {us : List FatUpdate}
    (hin : ∀ u ∈ us, u.cluster < fs.fatEntryCount) {s : ℕ} (hs : s ∈ touchedSectors fs us) :
    s < fs.sectorsPerFat := by
  obtain ⟨u, hu, rfl⟩ := mem_touchedSectors.1 hs
  have hentry := h.entry_in_copy (hin u hu)
  rw [ht, Fat32.fatBytes] at hentry
  simp only [FatType.entryByteOffset, FatType.span] at hentry
  rw [Nat.div_lt_iff_lt_mul h.bytesPerSector_pos]
  omega

/-- The table in memory ends with a sector, so a touched sector is in it as a whole. -/
theorem lt_fatEntryCount_of_sector {fs : Fat32} (h : fs.Layout) (ht : fs.fatType = .fat32)
    {c e : ℕ} (hc : c < fs.fatEntryCount)
    (hs : e * 4 / fs.bytesPerSector = c * 4 / fs.bytesPerSector) : e < fs.fatEntryCount := by
  rw [h.fatEntryCount, ht, FatType.entryCount, Fat32.fatBytes] at hc ⊢
  rcases h.bytesPerSector with hb | hb | hb | hb <;> rw [hb] at hs hc ⊢ <;> omega

section Apply

variable {fs : Fat32} (h : fs.Loaded) (hw : fs.dev.writable = true) {us : List FatUpdate}
  (hin : ∀ u ∈ us, u.cluster < fs.fatEntryCount)
include hw

theorem fat32ApplyUpdates_of_entryPath (hpath : fs.UsesEntryPath us) :
    fat32ApplyUpdates fs us = writeEntries fs us := by
  rw [fat32ApplyUpdates]
  by_cases hnil : us = []
  · subst hnil
    rfl
  · rw [if_neg hnil]
    refine (dieIf_bind_of_not (by simp [hw]) _ _).trans ?_
    exact if_pos (hpath.resolve_left hnil)

include h hin

theorem fat32ApplyUpdates_of_bulkPath (hpath : ¬fs.UsesEntryPath us) :
    fat32ApplyUpdates fs us = .ok (fs.after
      (bulkWrites (fs.withFat (updateTable fs.fatType fs.fat us)) (touchedSectors fs us))
      (updateTable fs.fatType fs.fat us)) := by
  rw [Fat32.UsesEntryPath, not_or] at hpath
  have ht : fs.fatType = .fat32 := by
    by_contra hne
    exact hpath.2 (.inl hne)
  have hlt : ∀ i, fs.fat i < 2 ^ 28 := fun i ↦ by
    have := h.fat_lt i
    rwa [ht] at this
  rw [fat32ApplyUpdates, if_neg hpath.1]
  refine (dieIf_bind_of_not (by simp [hw]) _ _).trans ?_
  refine (if_neg hpath.2).trans ?_
  rw [foldlM_storeUpdate ht hlt hin]
  rfl

end Apply

end LinuxDefragger.Fat
