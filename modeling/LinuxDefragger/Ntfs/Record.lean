import LinuxDefragger.Ntfs.Runs

/-!
# MFT records

An MFT record is read through its *update sequence*: the last two bytes of every sector hold a check
number, and the bytes that belong there are kept in an array in the record. `applyFixups` puts them
back, `prepareFixups` is its inverse with the next check number. Behind the header a record is a
sequence of attributes; `attributes` decodes them one after the other.

`_attributes` is a generator, and some of its consumers stop at the first attribute they look for.
So `attributes` returns the attributes it yields together with how it ends; `attributeList` is
`list(…)` of it.
-/

open Storage

namespace LinuxDefragger.Ntfs

/-! ### Update sequences -/

/-- One round of the loop of `_apply_fixups`. -/
def applyFixup (sectorSize usaOff : ℕ) (usn : List UInt8) (record : List UInt8) (index : ℕ) :
    Except PyError (List UInt8) := do
  let stop := index * sectorSize
  raiseIf (slice record (stop - 2) stop ≠ usn) "NTFS MFT update-sequence mismatch" []
  return putSlice record (stop - 2) stop
    (slice record (usaOff + index * 2) (usaOff + index * 2 + 2))

/-- `_apply_fixups` -/
def applyFixups (raw : List UInt8) (sectorSize : ℕ) : Except PyError (List UInt8) := do
  let usaOff ← u16 raw 4
  let usaCount ← u16 raw 6
  raiseIf (usaCount ≠ raw.length / sectorSize + 1 ∨ usaOff + usaCount * 2 > raw.length)
    "invalid NTFS update-sequence array" []
  (List.range' 1 (usaCount - 1)).foldlM
    (applyFixup sectorSize usaOff (slice raw usaOff (usaOff + 2))) raw

/-- One round of the loop of `_prepare_fixups`. -/
def prepareFixup (sectorSize usaOff : ℕ) (usn : List UInt8) (record : List UInt8) (index : ℕ) :
    List UInt8 :=
  let stop := index * sectorSize
  let record := putSlice record (usaOff + index * 2) (usaOff + index * 2 + 2)
    (slice record (stop - 2) stop)
  putSlice record (stop - 2) stop usn

/-- The check number after `old`. -/
def nextUsn (old : ℕ) : ℕ := if (old + 1) % 65536 = 0 then 1 else (old + 1) % 65536

/-- `_prepare_fixups` -/
def prepareFixups (fixed : List UInt8) (sectorSize : ℕ) : Except PyError (List UInt8) := do
  let usaOff ← u16 fixed 4
  let usaCount ← u16 fixed 6
  raiseIf (usaCount ≠ fixed.length / sectorSize + 1 ∨ usaOff + usaCount * 2 > fixed.length)
    "invalid NTFS update-sequence array" []
  let old ← u16 fixed usaOff
  let usn := wr16 (nextUsn old)
  return (List.range' 1 (usaCount - 1)).foldl (prepareFixup sectorSize usaOff usn)
    (putSlice fixed usaOff (usaOff + 2) usn)

/-! ### Attributes -/

/-- `Attribute`, without the two sizes that nothing reads. -/
structure Attribute where
  offset : ℕ
  length : ℕ
  atype : ℕ
  name : List UInt8
  flags : ℕ
  nonresident : Bool
  lowestVcn : ℕ := 0
  highestVcn : ℕ := 0
  runOffset : ℕ := 0
  runs : List Run := []
  dataSize : ℕ := 0
  deriving DecidableEq, Repr

/-- The name of the attribute at `pos`. -/
def attributeName (record : List UInt8) (pos length nameLen nameOff : ℕ) :
    Except PyError (List UInt8) :=
  if nameLen ≠ 0 then do
    raiseIf (nameOff < 16 ∨ nameOff + nameLen * 2 > length) "invalid NTFS attribute name" []
    return slice record (pos + nameOff) (pos + (nameOff + nameLen * 2))
  else pure []

/-- The attribute at `pos`; `none` at the end marker. -/
def attributeAt (record : List UInt8) (inUse pos : ℕ) : Except PyError (Option Attribute) := do
  let atype ← u32 record pos
  if atype = 0xFFFFFFFF then return none
  let length ← u32 record (pos + 4)
  raiseIf (length < 24 ∨ pos + length > inUse) "invalid NTFS attribute record" []
  let nonresident ← byteAt record (pos + 8)
  let nameLen ← byteAt record (pos + 9)
  let nameOff ← u16 record (pos + 10)
  let flags ← u16 record (pos + 12)
  let name ← attributeName record pos length nameLen.toNat nameOff
  if nonresident ≠ 0 then
    raiseIf (length < 64) "truncated NTFS non-resident attribute" []
    let lowestVcn ← u64 record (pos + 16)
    let highestVcn ← u64 record (pos + 24)
    let runOffset ← u16 record (pos + 32)
    raiseIf (runOffset < 64 ∨ runOffset ≥ length) "invalid NTFS mapping-pairs offset" []
    let runs ← decodeRunlist (slice record (pos + runOffset) (pos + length))
    raiseIf ((runsLength runs : ℤ) ≠ highestVcn - lowestVcn + 1)
      "NTFS runlist length does not match its VCN range" []
    let dataSize ← u64 record (pos + 48)
    return some { offset := pos, length, atype, name, flags, nonresident := true
                  lowestVcn, highestVcn, runOffset, runs, dataSize }
  else return some { offset := pos, length, atype, name, flags, nonresident := false }

/-- The loop of `_attributes`: the attributes yielded, and how the generator ends. Attributes have
at least 24 bytes, so as many rounds as the record has bytes are enough. -/
def attributesFrom (record : List UInt8) (inUse : ℕ) :
    ℕ → ℕ → List Attribute × Except PyError Unit
  | 0, _ => ([], pure ())
  | fuel + 1, pos =>
    if pos + 16 ≤ inUse then
      match attributeAt record inUse pos with
      | .error e => ([], .error e)
      | .ok none => ([], pure ())
      | .ok (some attr) =>
        let (attrs, ending) := attributesFrom record inUse fuel (pos + attr.length)
        (attr :: attrs, ending)
    else ([], pure ())

/-- `_attributes` -/
def attributes (record : List UInt8) : Except PyError (List Attribute × Except PyError Unit) := do
  let pos ← u16 record 20
  let inUse ← u32 record 24
  return attributesFrom record (min record.length inUse) record.length pos

/-- `list(_attributes(record))` -/
def attributeList (record : List UInt8) : Except PyError (List Attribute) := do
  let (attrs, ending) ← attributes record
  ending
  return attrs

/-- A loop over `_attributes` that stops at the first attribute with a property. -/
def firstAttribute (record : List UInt8) (p : Attribute → Bool) :
    Except PyError (Option Attribute) := do
  let (attrs, ending) ← attributes record
  match attrs.find? p with
  | some attr => return some attr
  | none => do
    ending
    return none

/-- `_resident_value` -/
def residentValue (record : List UInt8) (attr : Attribute) : Except PyError (List UInt8) := do
  raiseIf (attr.nonresident = true) "attribute is not resident" []
  let valueLen ← u32 record (attr.offset + 16)
  let valueOff ← u16 record (attr.offset + 20)
  raiseIf (valueOff < 24 ∨ valueOff + valueLen > attr.length)
    "invalid resident NTFS attribute value" []
  return slice record (attr.offset + valueOff) (attr.offset + valueOff + valueLen)

/-! ### The stream of a record that may be moved -/

/-- `FIRST_USER_RECORD` -/
def firstUserRecord : ℕ := 24

/-- The unnamed nonresident data attributes. -/
def isUnnamedData (attr : Attribute) : Bool :=
  attr.atype = 0x80 ∧ attr.name = [] ∧ attr.nonresident = true

/-- `_select_movable_attribute` -/
def selectMovableAttribute (recordNumber : ℕ) (fixed : List UInt8) (attrs : List Attribute) :
    Except PyError (Option Attribute) := do
  let flags ← u16 fixed 22
  if recordNumber < firstUserRecord ∨ flags &&& 0x0001 = 0 then return none
  let base ← u64 fixed 32
  if base &&& (2 ^ 48 - 1) ≠ 0 then return none
  if attrs.any fun attr ↦ attr.atype = 0x20 then return none
  let candidates :=
    if flags &&& 0x0002 ≠ 0 then attrs.filter fun attr ↦ attr.atype = 0xA0 ∧ attr.nonresident = true
    else attrs.filter isUnnamedData
  match candidates with
  | [attr] =>
    -- compressed, encrypted or sparse
    if attr.lowestVcn ≠ 0 ∨ attr.flags &&& 0xC001 ≠ 0 then return none
    if attr.runs.any fun run ↦ run.lcn = none then return none
    if attr.runs = [] ∨ attr.dataSize = 0 then return none
    return some attr
  | _ => return none

/-- Bytes by which the mapping pairs of an attribute could grow, and those they have. -/
def mappingRoom (inUse allocated : ℕ) (attr : Attribute) : ℕ :=
  attr.length - attr.runOffset + (allocated - inUse) / 8 * 8

/-- `_mapping_capacity_from_record` -/
def mappingCapacityFromRecord (fixed : List UInt8) (attr : Attribute) : Except PyError ℕ := do
  let inUse ← u32 fixed 24
  let allocated := min fixed.length (← u32 fixed 28)
  if inUse > allocated ∨ attr.offset + attr.length > inUse then return 0
  return mappingRoom inUse allocated attr

/-! ### Rewriting the mapping pairs -/

/-- A record with the stream to move. -/
structure Candidate where
  recordNumber : ℕ
  recordOffset : ℕ
  recordRaw : List UInt8
  recordFixed : List UInt8
  attr : Attribute
  deriving DecidableEq, Repr

/-- `_maximum_mapping_capacity` -/
def maximumMappingCapacity (candidate : Candidate) : Except PyError ℕ := do
  let attr := candidate.attr
  let inUse ← u32 candidate.recordFixed 24
  let allocated := min candidate.recordFixed.length (← u32 candidate.recordFixed 28)
  raiseIf (inUse > allocated ∨ attr.offset + attr.length > inUse)
    "invalid MFT record free-space accounting" []
  return mappingRoom inUse allocated attr

/-- The mapping pairs of a run list fit the record of a candidate. -/
def MappingFits (candidate : Candidate) (newRuns : List Run) : Prop :=
  ∃ encoded capacity, encodeRunlist newRuns = .ok encoded ∧
    maximumMappingCapacity candidate = .ok capacity ∧ encoded.length ≤ capacity

/-- Room for `growth` more bytes at the end of an attribute: what follows it moves up. -/
def growAttribute (fixed : List UInt8) (attr : Attribute) (inUse growth : ℕ) :
    Except PyError (List UInt8) :=
  if growth ≠ 0 then do
    let oldEnd := attr.offset + attr.length
    let fixed := putSlice fixed (oldEnd + growth) (inUse + growth) (slice fixed oldEnd inUse)
    let fixed := putSlice fixed oldEnd (oldEnd + growth) (List.replicate growth 0)
    let fixed ← packU32 fixed (attr.offset + 4) (attr.length + growth)
    packU32 fixed 24 (inUse + growth)
  else pure fixed

/-- `_updated_record_runs` -/
def updatedRecordRuns (candidate : Candidate) (newRuns : List Run) (sectorSize : ℕ) :
    Except PyError (List UInt8) := do
  let fixed := candidate.recordFixed
  let attr := candidate.attr
  let normalized := coalesceRuns newRuns
  raiseIf ((runsLength normalized : ℤ) ≠ attr.highestVcn - attr.lowestVcn + 1)
    "replacement NTFS runlist changes the attribute VCN length" []
  let encoded ← encodeRunlist normalized
  let requiredLength := (attr.runOffset + encoded.length + 7) / 8 * 8
  let growth := requiredLength - attr.length
  let inUse ← u32 fixed 24
  let allocated := min fixed.length (← u32 fixed 28)
  raiseIf (inUse > allocated ∨ attr.offset + attr.length > inUse)
    "invalid MFT record free-space accounting" []
  raiseIf (inUse + growth > allocated)
    "replacement NTFS mapping pairs do not fit the existing MFT record" []
  let fixed ← growAttribute fixed attr inUse growth
  let capacity := attr.length + growth - attr.runOffset
  let start := attr.offset + attr.runOffset
  prepareFixups (putSlice fixed start (start + capacity)
    (encoded ++ List.replicate (capacity - encoded.length) 0)) sectorSize

end LinuxDefragger.Ntfs
