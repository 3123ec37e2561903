import LinuxDefragger.Ntfs.Bitmap
import LinuxDefragger.Ntfs.Record
import LinuxDefragger.Storage.Disk

/-!
# NTFS volumes: the boot sector, metadata streams and their layout

`openVolume` checks the boot sector, `readLayout` finds `$MFT` and `$Bitmap` and reads the bitmap.
The disk is passed explicitly; everything else about a volume is fixed once it is open, except the
bitmap, of which the layout holds the engine's copy.
-/

open Except Storage

namespace LinuxDefragger.Ntfs

variable {J : Type}

/-- `Volume`, without the open file. -/
structure Volume where
  path : String
  deviceSize : ℕ
  bytesPerSector : ℕ
  sectorsPerCluster : ℕ
  clusterSize : ℕ
  totalClusters : ℕ
  mftLcn : ℕ
  mftmirrLcn : ℕ
  mftRecordSize : ℕ
  serial : List UInt8
  deriving DecidableEq, Repr

/-- `NtfsLayout` -/
structure NtfsLayout where
  volume : Volume
  mftRuns : List Run
  mftDataSize : ℕ
  bitmapRuns : List Run
  bitmapDataSize : ℕ
  bitmap : List UInt8
  deriving DecidableEq, Repr

/-- `_pread_exact` -/
def preadExact (disk : Disk J) (length offset : ℕ) : Except PyError (List UInt8) :=
  let data := disk.pread length offset
  if data.length ≠ length then
    throw (.engine "short read at byte %d: wanted %d, got %d" [offset, length, data.length])
  else pure data

/-- Zero, or more than one bit set. -/
def notPowerOfTwo (x : ℕ) : Bool := x = 0 ∨ x &&& (x - 1) ≠ 0

/-- The MFT record size that byte 64 of the boot sector encodes. -/
def recordSizeOf (recRaw : ℤ) (clusterSize : ℕ) : ℕ :=
  if recRaw < 0 then 2 ^ recRaw.natAbs else recRaw.toNat * clusterSize

/-- `_open_volume`, once the file is open and locked. -/
def openVolume (disk : Disk J) (path : String) : Except PyError Volume := do
  let boot := disk.pread 512 0
  raiseIf (boot.length ≠ 512 ∨ slice boot 3 11 ≠ "NTFS    ".toUTF8.toList ∨
    slice boot 510 512 ≠ [0x55, 0xAA]) "target does not contain a valid NTFS boot sector" []
  let bps ← u16 boot 11
  let spc := (boot.getD 13 0).toNat
  raiseIf (bps < 256 ∨ bps > 4096 ∨ notPowerOfTwo bps) "invalid NTFS bytes-per-sector value" []
  raiseIf (notPowerOfTwo spc) "invalid NTFS sectors-per-cluster value" []
  let clusterSize := bps * spc
  raiseIf (clusterSize > 64 * 1024) "unsupported NTFS cluster size" []
  let totalSectors ← u64 boot 40
  raiseIf (totalSectors * bps > disk.size) "NTFS volume boundary exceeds the target device" []
  let mftLcn ← u64 boot 48
  let mftmirrLcn ← u64 boot 56
  let recordSize := recordSizeOf (leInt (slice boot 64 65)) clusterSize
  raiseIf (recordSize < 512 ∨ recordSize > 1024 * 1024 ∨ recordSize % bps ≠ 0)
    "invalid NTFS MFT record size" []
  return {
    path, deviceSize := disk.size, bytesPerSector := bps, sectorsPerCluster := spc, clusterSize
    totalClusters := totalSectors / spc, mftLcn, mftmirrLcn, mftRecordSize := recordSize
    serial := slice boot 72 80 }

variable {disk : Disk J} {volume : Volume}

/-- What the checks of the boot sector guarantee. -/
theorem openVolume_eq_ok {path : String} (h : openVolume disk path = .ok volume) :
    256 ≤ volume.bytesPerSector ∧ 512 ≤ volume.mftRecordSize ∧ 0 < volume.clusterSize := by
  rw [openVolume] at h
  obtain ⟨-, h⟩ := raiseIf_bind_eq_ok.1 h
  obtain ⟨bps, -, h⟩ := bind_eq_ok.1 h
  obtain ⟨hbps, h⟩ := raiseIf_bind_eq_ok.1 h
  obtain ⟨hspc, h⟩ := raiseIf_bind_eq_ok.1 h
  obtain ⟨-, h⟩ := raiseIf_bind_eq_ok.1 h
  obtain ⟨totalSectors, -, h⟩ := bind_eq_ok.1 h
  obtain ⟨-, h⟩ := raiseIf_bind_eq_ok.1 h
  obtain ⟨mftLcn, -, h⟩ := bind_eq_ok.1 h
  obtain ⟨mftmirrLcn, -, h⟩ := bind_eq_ok.1 h
  obtain ⟨hsize, h⟩ := raiseIf_bind_eq_ok.1 h
  obtain rfl := ok.inj h
  push Not at hbps hsize
  refine ⟨hbps.1, hsize.1, Nat.mul_pos (by omega) (Nat.pos_of_ne_zero fun hzero ↦ hspc ?_)⟩
  rw [hzero]
  rfl

/-! ### Streams -/

/-- `_read_stream` -/
def readStream (disk : Disk J) (volume : Volume) (runs : List Run) (logicalOffset length : ℕ) :
    Except PyError (List UInt8) := do
  let segments ← streamSegments runs volume.clusterSize logicalOffset length
  let pieces ← segments.mapM fun (physical, take) ↦ preadExact disk take physical
  return pieces.flatten

/-- The writes of data over physical segments, one per segment. -/
def segmentWrites : List (ℕ × ℕ) → List UInt8 → List Write
  | [], _ => []
  | (physical, take) :: rest, data => ⟨physical, data.take take⟩ :: segmentWrites rest
    (data.drop take)

/-- `_write_stream`. Its last check, that all of the data was consumed, repeats the one that
`_stream_segments` ends with. -/
def writeStream (disk : Disk J) (volume : Volume) (runs : List Run) (logicalOffset : ℕ)
    (data : List UInt8) : Except PyError (Disk J) := do
  let segments ← streamSegments runs volume.clusterSize logicalOffset data.length
  return disk.issue (segmentWrites segments data)

/-- The four bytes that start a record. -/
def fileSignature : List UInt8 := "FILE".toUTF8.toList

/-- `_record_zero`, as far as its result is used: the data attribute of `$MFT`. -/
def recordZero (disk : Disk J) (volume : Volume) : Except PyError Attribute := do
  let raw ← preadExact disk volume.mftRecordSize (volume.mftLcn * volume.clusterSize)
  raiseIf (slice raw 0 4 ≠ fileSignature) "NTFS $MFT record zero was not found" []
  let fixed ← applyFixups raw volume.bytesPerSector
  let attrs ← attributeList fixed
  match attrs.filter isUnnamedData with
  | [attr] => do
    raiseIf (attr.lowestVcn ≠ 0) "unsupported split $MFT data attribute" []
    return attr
  | _ => throw (.engine "unsupported split $MFT data attribute" [])

/-- `_read_mft_record` -/
def readMftRecord (disk : Disk J) (volume : Volume) (mftRuns : List Run) (recordNumber : ℕ) :
    Except PyError (ℕ × List UInt8 × List UInt8) := do
  let logical := recordNumber * volume.mftRecordSize
  let raw ← readStream disk volume mftRuns logical volume.mftRecordSize
  let fixed ← applyFixups raw volume.bytesPerSector
  let segments ← streamSegments mftRuns volume.clusterSize logical 1
  return ((segments.headD (0, 0)).1, raw, fixed)

/-- `_write_mft_record` -/
def writeMftRecord (disk : Disk J) (volume : Volume) (mftRuns : List Run) (recordNumber : ℕ)
    (raw : List UInt8) : Except PyError (Disk J) :=
  writeStream disk volume mftRuns (recordNumber * volume.mftRecordSize) raw

/-! ### Volume flags -/

/-- `VOLUME_UNSAFE_WRITE_MASK` -/
def volumeUnsafeWriteMask : ℕ := 0xC037

/-- `VOLUME_ACCEPTED_MASK` -/
def volumeAcceptedMask : ℕ := 0xC0BF

/-- The flags are 16 bits wide. -/
def validateVolumeFlags (flags : ℕ) (allowDirty : Bool) : Except PyError Unit := do
  let unsupported := flags &&& (0xFFFF ^^^ volumeAcceptedMask)
  raiseIf (unsupported ≠ 0) "unsupported NTFS volume flags are set (0x%04x; unknown mask 0x%04x)"
    [flags, unsupported]
  raiseIf (flags &&& 0x0001 ≠ 0 ∧ allowDirty = false)
    "NTFS dirty flag is set (0x%04x); run Windows chkdsk first" [flags]
  let unsafeFlags := flags &&& volumeUnsafeWriteMask
  let unsafeFlags := if allowDirty then unsafeFlags &&& 0xFFFE else unsafeFlags
  raiseIf (unsafeFlags ≠ 0)
    "NTFS volume has an active maintenance state (0x%04x); complete it in Windows before compacting"
    [flags]

/-- The volume-information attribute. -/
def isVolumeInformation (attr : Attribute) : Bool :=
  attr.atype = 0x70 ∧ attr.nonresident = false

/-- The flags of a decoded `$Volume` record and where they are. -/
def volumeFlagsOf (fixed : List UInt8) (attr : Attribute) : Except PyError (ℕ × ℕ) := do
  let valueLen ← u32 fixed (attr.offset + 16)
  let valueOff ← u16 fixed (attr.offset + 20)
  raiseIf (valueLen < 12 ∨ valueOff + valueLen > attr.length)
    "invalid NTFS volume-information attribute" []
  let flagsOffset := attr.offset + valueOff + 10
  return (flagsOffset, ← u16 fixed flagsOffset)

/-! ### The layout -/

/-- The check of `$Volume` in `_read_layout`. -/
def checkVolumeRecord (disk : Disk J) (volume : Volume) (mftRuns : List Run) (allowDirty : Bool) :
    Except PyError Unit := do
  let (_, _, fixed) ← readMftRecord disk volume mftRuns 3
  match ← firstAttribute fixed isVolumeInformation with
  | none => throw (.engine "NTFS volume-information attribute was not found" [])
  | some attr => do
    let (_, flags) ← volumeFlagsOf fixed attr
    validateVolumeFlags flags allowDirty

/-- `_read_layout` -/
def readLayout (disk : Disk J) (volume : Volume) (allowDirty checkVolume : Bool) :
    Except PyError NtfsLayout := do
  let mftAttr ← recordZero disk volume
  let _ ← (if checkVolume then checkVolumeRecord disk volume mftAttr.runs allowDirty else pure () :
    Except PyError Unit)
  let (_, _, fixed6) ← readMftRecord disk volume mftAttr.runs 6
  let attrs ← attributeList fixed6
  match attrs.filter isUnnamedData with
  | [bitmapAttr] => do
    raiseIf (bitmapAttr.lowestVcn ≠ 0) "unsupported split or resident NTFS $Bitmap stream" []
    let bitmap ← readStream disk volume bitmapAttr.runs 0 bitmapAttr.dataSize
    raiseIf (bitmap.length * 8 < volume.totalClusters) "NTFS $Bitmap is shorter than the volume" []
    return ⟨volume, mftAttr.runs, mftAttr.dataSize, bitmapAttr.runs, bitmapAttr.dataSize, bitmap⟩
  | _ => throw (.engine "unsupported split or resident NTFS $Bitmap stream" [])

/-- The layout from what the parts of `_read_layout` return. -/
theorem readLayout_of_parts {mftAttr bitmapAttr : Attribute} {bitmap : List UInt8}
    (hzero : recordZero disk volume = .ok mftAttr)
    (hcheck : checkVolumeRecord disk volume mftAttr.runs false = .ok ())
    (hattrs : (readMftRecord disk volume mftAttr.runs 6 >>= fun record ↦
      attributeList record.2.2 >>= fun attrs ↦ pure (attrs.filter isUnnamedData)) =
        .ok [bitmapAttr])
    (hlowest : bitmapAttr.lowestVcn = 0)
    (hbitmap : readStream disk volume bitmapAttr.runs 0 bitmapAttr.dataSize = .ok bitmap)
    (hlength : volume.totalClusters ≤ bitmap.length * 8) :
    readLayout disk volume false true = .ok
      ⟨volume, mftAttr.runs, mftAttr.dataSize, bitmapAttr.runs, bitmapAttr.dataSize, bitmap⟩ := by
  obtain ⟨⟨offset, raw, fixed⟩, hrecord, hattrs⟩ := bind_eq_ok.1 hattrs
  obtain ⟨attrs, hlist, hattrs⟩ := bind_eq_ok.1 hattrs
  have hfilter : attrs.filter isUnnamedData = [bitmapAttr] := ok.inj hattrs
  rw [readLayout, hzero, ok_bind, if_pos rfl, hcheck, ok_bind, hrecord, ok_bind]
  dsimp only
  rw [hlist, ok_bind, hfilter]
  dsimp only
  rw [raiseIf_bind_of_not (not_not.2 hlowest), hbitmap, ok_bind,
    raiseIf_bind_of_not (not_lt.2 hlength)]
  rfl

/-- The bitmap of a layout covers the volume. -/
theorem readLayout_eq_ok {allowDirty checkVolume : Bool} {layout : NtfsLayout}
    (h : readLayout disk volume allowDirty checkVolume = .ok layout) :
    layout.volume = volume ∧ volume.totalClusters ≤ layout.bitmap.length * 8 := by
  rw [readLayout] at h
  obtain ⟨mftAttr, -, h⟩ := bind_eq_ok.1 h
  obtain ⟨-, -, h⟩ := bind_eq_ok.1 h
  obtain ⟨⟨offset, raw, fixed⟩, -, h⟩ := bind_eq_ok.1 h
  obtain ⟨attrs, -, h⟩ := bind_eq_ok.1 h
  split at h
  · obtain ⟨-, h⟩ := raiseIf_bind_eq_ok.1 h
    obtain ⟨bitmap, -, h⟩ := bind_eq_ok.1 h
    obtain ⟨hshort, h⟩ := raiseIf_bind_eq_ok.1 h
    obtain rfl := ok.inj h
    exact ⟨rfl, not_lt.1 hshort⟩
  · cases h

end LinuxDefragger.Ntfs
