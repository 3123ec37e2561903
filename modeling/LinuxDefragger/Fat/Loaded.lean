import LinuxDefragger.Fat.Volume
import Mathlib.Tactic.Ring

/-!
# What loading establishes

`Fat32.Layout` collects what the boot-sector checks of `fat32Load` guarantee about the regions of a
volume: reserved area, FAT copies, fixed root directory and data clusters follow each other without
overlap and end inside the device. `Fat32.Loaded` adds that the in-memory table is the decoded
active FAT, which every update keeps.
-/

open Except Storage

namespace LinuxDefragger.Fat

variable {cluster copy : ℕ} {allow : Bool} {boot : Image} {dev : Device}

namespace FatType

/-- **Every entry of the table lies inside it**, at all three widths. -/
theorem entry_in_table (t : FatType) {fatBytes : ℕ} (h : cluster < t.entryCount fatBytes) :
    t.entryByteOffset cluster + t.span ≤ fatBytes := by
  cases t <;> simp only [entryCount, entryByteOffset, span] at h ⊢ <;> omega

/-- So no decode of an entry below `fat_entry_count` dies. -/
theorem decodeFatEntry_eq_ok (t : FatType) (raw : Image) {fatBytes : ℕ}
    (h : cluster < t.entryCount fatBytes) :
    t.decodeFatEntry raw fatBytes cluster = .ok (t.decodeRaw raw cluster) := by
  have hin := t.entry_in_table h
  cases t <;> simp only [span] at hin <;>
    exact dieIf_bind_of_not (by omega) _ _

end FatType

theorem Fat32.clusterOffset_eq_ok_iff {fs : Fat32} {offset : ℕ} :
    fs.clusterOffset cluster = .ok offset ↔
      (2 ≤ cluster ∧ cluster ≤ fs.maxCluster) ∧ offset = fs.clusterStart cluster := by
  simp only [Fat32.clusterOffset, dieIf_bind_eq_ok, pure_eq_ok, ok.injEq, not_or, not_lt, gt_iff_lt]
  exact and_congr_right fun _ ↦ eq_comm

/-- The regions of a volume, as the checks of `fat32_load` leave them. -/
structure Fat32.Layout (fs : Fat32) : Prop where
  bytesPerSector : fs.bytesPerSector = 512 ∨ fs.bytesPerSector = 1024 ∨
    fs.bytesPerSector = 2048 ∨ fs.bytesPerSector = 4096
  sectorsPerCluster_pos : 0 < fs.sectorsPerCluster
  reservedSectors_pos : 0 < fs.reservedSectors
  fatCount_pos : 0 < fs.fatCount
  fatCount_lt : fs.fatCount < 256
  activeFat_lt : fs.activeFat < fs.fatCount
  activeFat_of_mirroring : fs.fatMirroring = true → fs.activeFat = 0
  fat0Offset : fs.fat0Offset = fs.reservedSectors * fs.bytesPerSector
  rootDirOffset : fs.rootDirOffset = fs.fat0Offset + fs.fatCount * fs.fatBytes
  rootDirSize : ∃ sectors, fs.rootDirSize = sectors * fs.bytesPerSector
  dataOffset : fs.dataOffset = fs.rootDirOffset + fs.rootDirSize
  clusterSize : fs.clusterSize = fs.bytesPerSector * fs.sectorsPerCluster
  maxCluster : fs.maxCluster = fs.clusterCount + 1
  data_le_total : fs.dataOffset + fs.clusterCount * fs.clusterSize ≤
    fs.totalSectors * fs.bytesPerSector
  total_le : fs.totalSectors * fs.bytesPerSector ≤ fs.dev.sizeBytes
  totalSectors_lt : fs.totalSectors < 2 ^ 32
  volumeId_lt : fs.volumeId < 2 ^ 32
  fatEntryCount : fs.fatEntryCount = fs.fatType.entryCount fs.fatBytes % 4294967296
  maxCluster_lt : fs.maxCluster < fs.fatEntryCount
  fatType : fs.fatType =
    if fs.clusterCount < 4085 then .fat12 else if fs.clusterCount < 65525 then .fat16 else .fat32
  rootIsFixed : fs.rootIsFixed = !decide (fs.fatType = .fat32)
  rootCluster : if fs.fatType = .fat32 then 2 ≤ fs.rootCluster ∧ fs.rootCluster ≤ fs.maxCluster
    else fs.rootCluster = 0

/-- A volume in use: its regions are laid out, and the table in memory is the decoded active FAT. -/
structure Fat32.Loaded (fs : Fat32) : Prop extends Fat32.Layout fs where
  fat : fs.fat = decodeTable fs.fatType (fs.dev.image.view (fs.fatCopyOffset fs.activeFat))
    fs.fatEntryCount

/-- Addresses of different copies differ. -/
theorem Fat32.fatCopy_ne (fs : Fat32) {k l i j : ℕ} (hkl : k ≠ l) (hi : i < fs.fatBytes)
    (hj : j < fs.fatBytes) :
    fs.fatCopyOffset k + i ≠ fs.fatCopyOffset l + j := by
  simp only [Fat32.fatCopyOffset]
  rcases Nat.lt_or_gt_of_ne hkl with hlt | hlt
  · have := Nat.mul_le_mul_right fs.fatBytes (Nat.succ_le_of_lt hlt)
    rw [Nat.succ_mul] at this
    omega
  · have := Nat.mul_le_mul_right fs.fatBytes (Nat.succ_le_of_lt hlt)
    rw [Nat.succ_mul] at this
    omega

namespace Fat32.Layout

variable {fs : Fat32} (h : fs.Layout)
include h

theorem data_le : fs.dataOffset + fs.clusterCount * fs.clusterSize ≤ fs.dev.sizeBytes :=
  h.data_le_total.trans h.total_le

theorem bytesPerSector_pos : 0 < fs.bytesPerSector := by
  rcases h.bytesPerSector with h | h | h | h <;> omega

/-- Sectors hold whole table words and whole directory entries. -/
theorem thirtyTwo_dvd : 32 ∣ fs.bytesPerSector := by
  rcases h.bytesPerSector with h | h | h | h <;> rw [h] <;> decide

theorem clusterSize_pos : 0 < fs.clusterSize := by
  rw [h.clusterSize]
  exact Nat.mul_pos h.bytesPerSector_pos h.sectorsPerCluster_pos

theorem fatEntryCount_le : fs.fatEntryCount ≤ fs.fatType.entryCount fs.fatBytes := by
  rw [h.fatEntryCount]
  exact Nat.mod_le _ _

/-- A table entry the engine may touch lies inside each copy. -/
theorem entry_in_copy (hc : cluster < fs.fatEntryCount) :
    fs.fatType.entryByteOffset cluster + fs.fatType.span ≤ fs.fatBytes :=
  fs.fatType.entry_in_table (lt_of_lt_of_le hc h.fatEntryCount_le)

/-- The copies lie between the reserved area and the root directory. -/
theorem fatCopy_le (hc : copy < fs.fatCount) :
    fs.fatCopyOffset copy + fs.fatBytes ≤ fs.rootDirOffset := by
  have hle : (copy + 1) * fs.fatBytes ≤ fs.fatCount * fs.fatBytes := Nat.mul_le_mul_right _ hc
  rw [h.rootDirOffset, Fat32.fatCopyOffset]
  linarith [Nat.succ_mul copy fs.fatBytes]

theorem rootDirOffset_le : fs.rootDirOffset ≤ fs.dev.sizeBytes := by
  have h₁ := h.dataOffset
  have h₂ := h.data_le
  omega

theorem fatCopy_le_size (hc : copy < fs.fatCount) :
    fs.fatCopyOffset copy + fs.fatBytes ≤ fs.dev.sizeBytes :=
  (h.fatCopy_le hc).trans h.rootDirOffset_le

theorem mem_maintainedCopies_iff : copy ∈ fs.maintainedCopies ↔
    copy < fs.fatCount ∧ (fs.fatMirroring = true ∨ copy = fs.activeFat) := by
  have hlt := h.activeFat_lt
  simp only [Fat32.maintainedCopies, Fat32.firstCopy, Fat32.endCopy, List.mem_range'_1]
  cases hm : fs.fatMirroring
  · simp only [Bool.false_eq_true, if_false, false_or]
    omega
  · simp only [if_true, true_or, and_true]
    omega

theorem lt_of_mem_maintainedCopies (hc : copy ∈ fs.maintainedCopies) : copy < fs.fatCount :=
  (h.mem_maintainedCopies_iff.1 hc).1

/-- The copy the table was loaded from is one of those that are kept up to date. -/
theorem activeFat_mem : fs.activeFat ∈ fs.maintainedCopies :=
  h.mem_maintainedCopies_iff.2 ⟨h.activeFat_lt, .inr rfl⟩

omit h in
theorem maintainedCopies_nodup : fs.maintainedCopies.Nodup := List.nodup_range'

omit h in
theorem clusterOffset_eq_ok (h₂ : 2 ≤ cluster) (hmax : cluster ≤ fs.maxCluster) :
    fs.clusterOffset cluster = .ok (fs.clusterStart cluster) :=
  dieIf_bind_of_not (by omega) _ _

theorem fatValue_eq_ok (hc : cluster ≤ fs.maxCluster) :
    fs.fatValue cluster = .ok (fs.value cluster) :=
  dieIf_bind_of_not (by have := h.maxCluster_lt; omega) _ _

end Fat32.Layout

/-! ### From `fat32Load` -/

theorem bootFields_activeFat (h : (bootFields boot dev allow).fatMirroring = true) :
    (bootFields boot dev allow).activeFat = 0 :=
  if_pos h

section

variable (h : (bootFields boot dev allow).fatType ≠ .fat32)
include h

theorem bootFields_mirroring : (bootFields boot dev allow).fatMirroring = true :=
  if_neg fun h32 ↦ h (of_decide_eq_true h32)

theorem bootFields_rootCluster : (bootFields boot dev allow).rootCluster = 0 :=
  if_neg fun h32 ↦ h (of_decide_eq_true h32)

end

/-- The data clusters end where the volume does, or before. -/
theorem bootFields_data_le
    (h : (bootFields boot dev allow).reservedSectors + (bootFields boot dev allow).fatCount *
      (bootFields boot dev allow).sectorsPerFat + rootDirSectors boot <
        (bootFields boot dev allow).totalSectors) :
    (bootFields boot dev allow).dataOffset + (bootFields boot dev allow).clusterCount *
      (bootFields boot dev allow).clusterSize ≤
        (bootFields boot dev allow).totalSectors * (bootFields boot dev allow).bytesPerSector := by
  set fs := bootFields boot dev allow with hfs
  have hcount : fs.clusterCount = (fs.totalSectors - fs.reservedSectors -
      fs.fatCount * fs.sectorsPerFat - rootDirSectors boot) / fs.sectorsPerCluster := rfl
  have hdata : fs.dataOffset = (fs.reservedSectors + fs.fatCount * fs.sectorsPerFat) *
      fs.bytesPerSector + rootDirSectors boot * fs.bytesPerSector := rfl
  have hsize : fs.clusterSize = fs.bytesPerSector * fs.sectorsPerCluster := rfl
  have hle : fs.clusterCount * fs.sectorsPerCluster ≤ fs.totalSectors - fs.reservedSectors -
      fs.fatCount * fs.sectorsPerFat - rootDirSectors boot := hcount ▸ Nat.div_mul_le_self _ _
  calc fs.dataOffset + fs.clusterCount * fs.clusterSize
      = (fs.reservedSectors + fs.fatCount * fs.sectorsPerFat + rootDirSectors boot +
          fs.clusterCount * fs.sectorsPerCluster) * fs.bytesPerSector := by
        rw [hdata, hsize]
        ring
    _ ≤ fs.totalSectors * fs.bytesPerSector := Nat.mul_le_mul_right _ (by omega)

/-- **The boot-sector checks give the layout.** -/
theorem readBoot_layout {fs : Fat32} (h : readBoot dev allow = .ok fs) :
    fs.Layout ∧ fs.dev = dev ∧ fs.recoveryMode = allow := by
  rw [readBoot, bind_eq_ok] at h
  obtain ⟨boot, hboot, h⟩ := h
  simp only [dieIf_bind_eq_ok] at h
  obtain ⟨-, hbps, hspc, hpos, hspf, hlay, h⟩ := h
  rw [bind_eq_ok] at h
  obtain ⟨_, htype, h⟩ := h
  simp only [dieIf_bind_eq_ok, pure_eq_ok, ok.injEq] at h
  obtain ⟨hsize, hcount, rfl⟩ := h
  push Not at hbps hspc hpos hlay
  -- the type-specific checks, read once for each kind of volume
  have hkind : (bootFields boot dev allow).activeFat < (bootFields boot dev allow).fatCount ∧
      if (bootFields boot dev allow).fatType = .fat32 then
        2 ≤ (bootFields boot dev allow).rootCluster ∧
          (bootFields boot dev allow).rootCluster ≤ (bootFields boot dev allow).maxCluster
      else (bootFields boot dev allow).rootCluster = 0 := by
    by_cases h32 : (bootFields boot dev allow).fatType = .fat32
    · unfold checkTypeFields at htype
      rw [if_pos h32] at htype
      simp only [dieIf_bind_eq_ok] at htype
      obtain ⟨-, hactive, -, hroot⟩ := htype
      rw [dieIf] at hroot
      split_ifs at hroot with hr
      rw [if_pos h32]
      omega
    · rw [bootFields_activeFat (bootFields_mirroring h32), if_neg h32]
      exact ⟨by omega, bootFields_rootCluster h32⟩
  have htotal : (bootFields boot dev allow).totalSectors < 2 ^ 32 := by
    show (if _ then _ else _) < _
    split_ifs
    · exact (rd16_lt _ _).trans (by decide)
    · exact rd32_lt _ _
  have hvolume : (bootFields boot dev allow).volumeId < 2 ^ 32 := by
    show (if _ then _ else _) < _
    split_ifs <;> exact rd32_lt _ _
  refine ⟨⟨hbps, by omega, by omega, by omega, UInt8.toNat_lt _, hkind.1, bootFields_activeFat,
    rfl, ?_, ⟨_, rfl⟩, rfl, rfl, rfl, bootFields_data_le hlay, not_lt.1 hsize, htotal, hvolume, rfl,
    by omega, rfl, rfl, hkind.2⟩, rfl, rfl⟩
  · show (_ + _) * _ = _ * _ + _ * (_ * _)
    rw [Nat.add_mul, Nat.mul_assoc]
    rfl

/-- **A loaded volume is laid out and its table is the decoded active FAT.** -/
theorem fat32Load_loaded {fuel : ℕ} {fs : Fat32} (h : fat32Load fuel dev allow = .ok fs) :
    fs.Loaded ∧ fs.dev = dev ∧ fs.recoveryMode = allow ∧ checkTable fuel fs = .ok () := by
  rw [fat32Load, bind_eq_ok] at h
  obtain ⟨geometry, hboot, h⟩ := h
  obtain ⟨hlayout, hdev, hmode⟩ := readBoot_layout hboot
  rw [bind_eq_ok] at h
  obtain ⟨raw, hraw, h⟩ := h
  dsimp only at h
  rw [bind_eq_ok] at h
  obtain ⟨_, hcheck, h⟩ := h
  rw [pure_eq_ok, ok.injEq] at h
  subst h
  subst hdev
  rw [geometry.dev.fullPread_of_le _ (hlayout.fatCopy_le_size hlayout.activeFat_lt),
    ok.injEq] at hraw
  subst hraw
  exact ⟨{ hlayout with fat := rfl }, rfl, hmode, hcheck⟩

end LinuxDefragger.Fat
