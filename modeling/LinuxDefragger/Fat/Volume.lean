import LinuxDefragger.Storage.Checked
import LinuxDefragger.Storage.Crash

/-!
# FAT volumes: the device, the boot sector and the loaded table

The data model of the FAT engine and `fat32Load`, which reads the boot sector, checks the layout and
decodes the active FAT.

A function that may end in `die_msg` returns in `Except Halt`; the message is kept. An array access
outside its allocation has no meaning in C, so a function that could make one returns
`Halt.outOfBounds` there instead of a made-up value. A loop whose termination is in question takes
fuel and returns `Halt.outOfFuel`.

Buffers are images: a buffer filled from offset `off` is the view of the device from there. Cluster
numbers and table values are naturals; the code's masks and 32-bit fields are written out where they
matter.

`Fat32` has the fields of the C structure that the modelled functions read. Its scratch arrays are
state of the scan.
-/

open Storage

namespace LinuxDefragger.Fat

/-! ### Ends of a run -/

/-- How a run can end other than by returning. -/
inductive Halt
  /-- `die_msg` with its message. -/
  | dieMsg (msg : String)
  /-- `fprintf` of a format with a cluster and a path, then `exit`. -/
  | exitMsg (format : String) (cluster : Option ℕ) (path : List UInt8)
  /-- A read fell short. -/
  | dieErrno (what : String)
  /-- An access outside the named array's allocation, which C leaves undefined. -/
  | outOfBounds (array : String)
  /-- The loop did not finish within the given fuel. -/
  | outOfFuel
  deriving DecidableEq, Repr

/-- `if (c) die_msg(msg);` -/
def dieIf (c : Prop) [Decidable c] (msg : String) : Except Halt Unit :=
  if c then throw (.dieMsg msg) else pure ()

section Except

variable {α : Type}

@[simp] theorem dieIf_bind_eq_ok {c : Prop} [Decidable c] {msg : String}
    {k : Unit → Except Halt α} {r : α} :
    (dieIf c msg >>= k) = .ok r ↔ ¬c ∧ k () = .ok r := by
  unfold dieIf
  by_cases hc : c <;> simp [hc, bind, Except.bind, throw, throwThe, MonadExceptOf.throw, pure,
    Except.pure]

theorem dieIf_bind_of_not {c : Prop} [Decidable c] (h : ¬c) (msg : String)
    (k : Unit → Except Halt α) : (dieIf c msg >>= k) = k () := by
  rw [dieIf, if_neg h]
  rfl

end Except

/-! ### The device -/

/-- An open target. `log` is everything written and synced so far, oldest first. -/
structure Device where
  path : List Char
  writable : Bool
  sizeBytes : ℕ
  /-- Current contents, as the process sees them. -/
  image : Image
  log : List Event

namespace Device

/-- `full_pread` of exactly `count` bytes: a buffer, or the caller's `die_errno` on a short read. -/
def fullPread (d : Device) (count offset : ℕ) (what : String) : Except Halt Image :=
  if offset + count ≤ d.sizeBytes then pure (d.image.view offset) else throw (.dieErrno what)

/-- `full_pwrite`. -/
def fullPwrite (d : Device) (data : List UInt8) (offset : ℕ) : Device :=
  { d with
    image := d.image.write offset data
    log := d.log ++ [.write ⟨offset, data⟩] }

/-- `fsync`. -/
def fsync (d : Device) : Device := { d with log := d.log ++ [.sync] }

variable (d : Device) (data : List UInt8) (offset : ℕ)

/-- A list of writes issued one after the other. -/
def issue (ws : List Write) : Device :=
  { d with image := applyAll d.image ws, log := d.log ++ ws.map .write }

@[simp] theorem issue_nil : d.issue [] = d := by
  simp [issue, applyAll]

theorem issue_issue (ws ws' : List Write) : (d.issue ws).issue ws' = d.issue (ws ++ ws') := by
  simp [issue, applyAll_append]

theorem fullPread_of_le {count : ℕ} (h : offset + count ≤ d.sizeBytes) (what : String) :
    d.fullPread count offset what = .ok (d.image.view offset) := by
  rw [fullPread, if_pos h]
  rfl

end Device

/-! ### Table geometry by FAT type -/

/-- FAT entry width and root-directory layout vary by filesystem generation. -/
inductive FatType
  | fat12
  | fat16
  | fat32
  deriving DecidableEq, Repr

namespace FatType

/-- The number of value bits of a table entry. -/
def bits : FatType → ℕ
  | fat12 => 12
  | fat16 => 16
  | fat32 => 28

/-- `fat_mask` -/
def mask : FatType → ℕ
  | fat12 => 0x0FFF
  | fat16 => 0xFFFF
  | fat32 => 0x0FFFFFFF

/-- `fat_eoc_min`: the least end-of-chain value. -/
def eocMin : FatType → ℕ
  | fat12 => 0x0FF8
  | fat16 => 0xFFF8
  | fat32 => 0x0FFFFFF8

/-- `fat_bad_value` -/
def badValue : FatType → ℕ
  | fat12 => 0x0FF7
  | fat16 => 0xFFF7
  | fat32 => 0x0FFFFFF7

/-- `fat_reserved_min` -/
def reservedMin : FatType → ℕ
  | fat12 => 0x0FF0
  | fat16 => 0xFFF0
  | fat32 => 0x0FFFFFF0

/-- `fat_eoc_value` -/
def eocValue (t : FatType) : ℕ := t.mask

/-- `fat_entry_byte_offset`: FAT12 packs two entries into three bytes. -/
def entryByteOffset : FatType → ℕ → ℕ
  | fat12, cluster => cluster + cluster / 2
  | fat16, cluster => cluster * 2
  | fat32, cluster => cluster * 4

/-- The bytes read and written to update one entry. -/
def span : FatType → ℕ
  | fat32 => 4
  | _ => 2

/-- The number of entries in a table of `fatBytes` bytes. -/
def entryCount : FatType → ℕ → ℕ
  | fat12, fatBytes => fatBytes * 2 / 3
  | fat16, fatBytes => fatBytes / 2
  | fat32, fatBytes => fatBytes / 4

/-- What `decode_fat_entry` computes from a raw table once its bound check has passed. -/
def decodeRaw : FatType → Image → ℕ → ℕ
  | fat12, raw, cluster =>
    let pair := rd16 raw (entryByteOffset fat12 cluster)
    if cluster &&& 1 = 1 then pair >>> 4 else pair &&& 0x0FFF
  | fat16, raw, cluster => rd16 raw (entryByteOffset fat16 cluster)
  | fat32, raw, cluster => rd32 raw (entryByteOffset fat32 cluster) &&& 0x0FFFFFFF

/-- `decode_fat_entry` -/
def decodeFatEntry (t : FatType) (raw : Image) (fatBytes cluster : ℕ) : Except Halt ℕ := do
  match t with
  | fat12 => dieIf (t.entryByteOffset cluster + 1 ≥ fatBytes) "FAT12 entry outside loaded table"
  | fat16 => dieIf (t.entryByteOffset cluster + 1 ≥ fatBytes) "FAT16 entry outside loaded table"
  | fat32 => dieIf (t.entryByteOffset cluster + 3 ≥ fatBytes) "FAT32 entry outside loaded table"
  return t.decodeRaw raw cluster

theorem mask_eq (t : FatType) : t.mask = 2 ^ t.bits - 1 := by cases t <;> rfl

theorem and_mask (t : FatType) (v : ℕ) : v &&& t.mask = v % 2 ^ t.bits := by
  rw [mask_eq, Storage.and_mask]

theorem and_mask_lt (t : FatType) (v : ℕ) : v &&& t.mask < 2 ^ t.bits := by
  rw [and_mask]
  exact Nat.mod_lt _ (Nat.two_pow_pos _)

end FatType

/-! ### The loaded volume -/

/-- The engine's view of an open volume. -/
structure Fat32 where
  dev : Device
  /-- FAT12, FAT16 or FAT32, decided by the cluster count. -/
  fatType : FatType
  bytesPerSector : ℕ
  sectorsPerCluster : ℕ
  reservedSectors : ℕ
  /-- Number of FAT copies, one byte in the boot sector. -/
  fatCount : ℕ
  /-- Every copy is maintained; otherwise only `activeFat` is. -/
  fatMirroring : Bool
  activeFat : ℕ
  sectorsPerFat : ℕ
  totalSectors : ℕ
  /-- First cluster of the root directory; `0` where the root is a fixed region. -/
  rootCluster : ℕ
  rootDirOffset : ℕ
  rootDirSize : ℕ
  rootIsFixed : Bool
  fsinfoSector : ℕ
  backupBootSector : ℕ
  volumeId : ℕ
  fat0Offset : ℕ
  dataOffset : ℕ
  clusterSize : ℕ
  clusterCount : ℕ
  maxCluster : ℕ
  fatEntryCount : ℕ
  /-- The decoded active FAT, zero beyond `fatEntryCount`. -/
  fat : ℕ → ℕ
  /-- Loaded by `recover`, which accepts disagreeing mirrors. -/
  recoveryMode : Bool

namespace Fat32

variable (fs : Fat32)

/-- Bytes of one FAT copy. -/
def fatBytes : ℕ := fs.sectorsPerFat * fs.bytesPerSector

/-- Byte offset of FAT copy `copy`. -/
def fatCopyOffset (copy : ℕ) : ℕ := fs.fat0Offset + copy * fs.fatBytes

/-- First copy that updates are written to. -/
def firstCopy : ℕ := if fs.fatMirroring then 0 else fs.activeFat

/-- One past the last copy that updates are written to. -/
def endCopy : ℕ := if fs.fatMirroring then fs.fatCount else fs.activeFat + 1

/-- The copies that updates are written to. -/
def maintainedCopies : List ℕ := List.range' fs.firstCopy (fs.endCopy - fs.firstCopy)

/-- `cluster_offset` once its range check has passed. -/
def clusterStart (cluster : ℕ) : ℕ := fs.dataOffset + (cluster - 2) * fs.clusterSize

/-- `cluster_offset` -/
def clusterOffset (cluster : ℕ) : Except Halt ℕ := do
  dieIf (cluster < 2 ∨ cluster > fs.maxCluster) "cluster number outside data region"
  return fs.clusterStart cluster

/-- What `fat_value` returns once its bound check has passed. -/
def value (cluster : ℕ) : ℕ := fs.fat cluster &&& fs.fatType.mask

/-- `fat_value` -/
def fatValue (cluster : ℕ) : Except Halt ℕ := do
  dieIf (cluster ≥ fs.fatEntryCount) "FAT entry outside loaded table"
  return fs.value cluster

/-- `fat_is_eoc_for` -/
def fatIsEocFor (v : ℕ) : Bool := (v &&& fs.fatType.mask) ≥ fs.fatType.eocMin

/-- `fat_is_free`, on the clusters the engine asks it about. -/
def fatIsFree (cluster : ℕ) : Bool := fs.value cluster = 0

/-- `fat_value_is_cluster` -/
def fatValueIsCluster (v : ℕ) : Bool :=
  2 ≤ (v &&& fs.fatType.mask) ∧ (v &&& fs.fatType.mask) ≤ fs.maxCluster

/-- `cluster_is_movable_allocation` -/
def clusterIsMovableAllocation (cluster : ℕ) : Bool :=
  fs.value cluster ≠ 0 ∧ fs.value cluster ≠ fs.fatType.badValue

end Fat32

/-! ### Loading -/

/-- The mirror comparison of `fat32_load`. `copy` is a `uint8_t`, so the assignment
`copy = fat_count` that is meant to leave the loop is followed by an increment modulo 256. -/
def mirrorLoop (agrees : ℕ → Bool) (fatCount activeFat : ℕ) (strict : Bool) :
    ℕ → ℕ → Except Halt Unit
  | 0, _ => throw .outOfFuel
  | fuel + 1, copy =>
    if copy < fatCount then
      if copy = activeFat then mirrorLoop agrees fatCount activeFat strict fuel ((copy + 1) % 256)
      else if agrees copy then
        mirrorLoop agrees fatCount activeFat strict fuel ((copy + 1) % 256)
      else if strict then
        throw (.dieMsg
          "mirrored FAT copies disagree; repair the filesystem before defragmenting")
      else mirrorLoop agrees fatCount activeFat strict fuel ((fatCount + 1) % 256)
    else pure ()

/-- Sectors of the fixed root directory. -/
def rootDirSectors (boot : Image) : ℕ := (rd16 boot 17 * 32 + rd16 boot 11 - 1) / rd16 boot 11

/-- Every layout field that `fat32_load` computes from the boot sector. The checks that make sense
of them are in `readBoot`; the table is not read yet. -/
def bootFields (boot : Image) (dev : Device) (allowMirrorMismatch : Bool) : Fat32 :=
  let bytesPerSector := rd16 boot 11
  let sectorsPerCluster := (boot 13).toNat
  let reservedSectors := rd16 boot 14
  let fatCount := (boot 16).toNat
  let totalSectors := if rd16 boot 19 ≠ 0 then rd16 boot 19 else rd32 boot 32
  let sectorsPerFat := if rd16 boot 22 ≠ 0 then rd16 boot 22 else rd32 boot 36
  let fatSectorsTotal := fatCount * sectorsPerFat
  let dataSectors := totalSectors - reservedSectors - fatSectorsTotal - rootDirSectors boot
  let clusterCount := dataSectors / sectorsPerCluster
  let fatType : FatType :=
    if clusterCount < 4085 then .fat12 else if clusterCount < 65525 then .fat16 else .fat32
  let isFat32 : Bool := fatType = .fat32
  let extFlags := rd16 boot 40
  let fatMirroring : Bool := if isFat32 then extFlags &&& 0x0080 = 0 else true
  let rootDirOffset := (reservedSectors + fatSectorsTotal) * bytesPerSector
  { dev, fatType, bytesPerSector, sectorsPerCluster, reservedSectors, fatCount, fatMirroring
    activeFat := if fatMirroring then 0 else extFlags &&& 0x000F
    sectorsPerFat, totalSectors
    rootCluster := if isFat32 then rd32 boot 44 &&& 0x0FFFFFFF else 0
    rootDirOffset
    rootDirSize := rootDirSectors boot * bytesPerSector
    rootIsFixed := !isFat32
    fsinfoSector := if isFat32 then rd16 boot 48 else 0
    backupBootSector := if isFat32 then rd16 boot 50 else 0
    volumeId := if isFat32 then rd32 boot 67 else rd32 boot 39
    fat0Offset := reservedSectors * bytesPerSector
    dataOffset := rootDirOffset + rootDirSectors boot * bytesPerSector
    clusterSize := bytesPerSector * sectorsPerCluster
    clusterCount
    maxCluster := clusterCount + 1
    -- stored in a `uint32_t`
    fatEntryCount := fatType.entryCount (sectorsPerFat * bytesPerSector) % 4294967296
    fat := fun _ ↦ 0
    recoveryMode := allowMirrorMismatch }

/-- The type-specific checks of `fat32_load`. -/
def checkTypeFields (boot : Image) (fs : Fat32) : Except Halt Unit :=
  if fs.fatType = .fat32 then do
    dieIf (rd16 boot 42 ≠ 0) "unsupported nonzero FAT32 filesystem version"
    dieIf (fs.activeFat ≥ fs.fatCount) "active FAT index is outside the FAT count"
    dieIf (rd16 boot 17 ≠ 0 ∨ rd16 boot 22 ≠ 0) "FAT32 layout fields are inconsistent"
    dieIf (fs.rootCluster < 2 ∨ fs.rootCluster > fs.maxCluster) "invalid root cluster"
  else
    dieIf (rd16 boot 17 = 0 ∨ rd16 boot 22 = 0) "FAT12/FAT16 layout fields are inconsistent"

/-- The boot-sector half of `fat32_load`: the layout fields, with the checks in the code's order. -/
def readBoot (dev : Device) (allowMirrorMismatch : Bool) : Except Halt Fat32 := do
  let boot ← dev.fullPread 512 0 "read boot sector"
  dieIf (boot 510 ≠ 0x55 ∨ boot 511 ≠ 0xAA) "invalid boot-sector signature"
  let fs := bootFields boot dev allowMirrorMismatch
  dieIf (¬(fs.bytesPerSector = 512 ∨ fs.bytesPerSector = 1024 ∨ fs.bytesPerSector = 2048 ∨
    fs.bytesPerSector = 4096)) "unsupported bytes-per-sector value"
  dieIf (fs.sectorsPerCluster = 0 ∨ fs.sectorsPerCluster &&& (fs.sectorsPerCluster - 1) ≠ 0)
    "invalid sectors-per-cluster value"
  dieIf (fs.reservedSectors = 0 ∨ fs.fatCount = 0 ∨ fs.totalSectors = 0) "invalid FAT layout fields"
  dieIf (fs.sectorsPerFat = 0) "invalid FAT size"
  dieIf (fs.reservedSectors + fs.fatCount * fs.sectorsPerFat + rootDirSectors boot ≥
    fs.totalSectors) "invalid FAT/data layout"
  checkTypeFields boot fs
  dieIf (fs.totalSectors * fs.bytesPerSector > dev.sizeBytes)
    "filesystem extends beyond target size"
  dieIf (fs.fatEntryCount ≤ fs.maxCluster) "FAT is too small for the data region"
  return fs

/-- The clean-shutdown and hard-error bits that a writable volume must have set in `fat[1]`. -/
def checkCleanBits (fs : Fat32) : Except Halt Unit :=
  match fs.fatType with
  | .fat32 => do
    dieIf (fs.fat 1 &&& 0x08000000 = 0)
      "FAT32 clean-shutdown bit is clear; repair or cleanly unmount the volume first"
    dieIf (fs.fat 1 &&& 0x04000000 = 0)
      "FAT32 hard-error bit is clear; repair the volume before defragmenting"
  | .fat16 => do
    dieIf (fs.fat 1 &&& 0x8000 = 0)
      "FAT16 clean-shutdown bit is clear; repair or cleanly unmount the volume first"
    dieIf (fs.fat 1 &&& 0x4000 = 0)
      "FAT16 hard-error bit is clear; repair the volume before defragmenting"
  | .fat12 => pure ()

/-- The table `fat32_load` decodes from one raw FAT copy. Every index below `fat_entry_count` lies
inside the copy (`FatType.entry_in_table`), so no decode here can die. -/
def decodeTable (t : FatType) (raw : Image) (entryCount : ℕ) : ℕ → ℕ := fun i ↦
  if i < entryCount then t.decodeRaw raw i else 0

/-- Copy `copy` decodes to the loaded table on every cluster of the volume. -/
def mirrorAgrees (fs : Fat32) (copy : ℕ) : Bool :=
  (List.range (fs.maxCluster + 1)).all fun i ↦
    fs.fatType.decodeRaw (fs.dev.image.view (fs.fatCopyOffset copy)) i = fs.value i

/-- The checks `fat32_load` makes on the decoded table: the clean bits of a writable volume, and the
mirrors against the active copy. -/
def checkTable (fuel : ℕ) (fs : Fat32) : Except Halt Unit := do
  if fs.dev.writable then checkCleanBits fs
  if fs.fatMirroring then
    mirrorLoop (mirrorAgrees fs) fs.fatCount fs.activeFat (!fs.recoveryMode && fs.dev.writable)
      fuel 0

/-- `fat32_load` -/
def fat32Load (fuel : ℕ) (dev : Device) (allowMirrorMismatch : Bool) : Except Halt Fat32 := do
  let geometry ← readBoot dev allowMirrorMismatch
  let raw ← dev.fullPread geometry.fatBytes (geometry.fatCopyOffset geometry.activeFat)
    "read active FAT"
  let fs := { geometry with fat := decodeTable geometry.fatType raw geometry.fatEntryCount }
  checkTable fuel fs
  return fs

end LinuxDefragger.Fat
