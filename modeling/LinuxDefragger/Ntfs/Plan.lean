import LinuxDefragger.Ntfs.Transaction

/-!
# Scanning the MFT

`scanAllocationPlan` decodes every MFT record in use and lists the streams that own clusters.
Records that do not decode are skipped, but only if the engine's own exception says so.

File names matter for one thing only: a volume with an active hibernation file is refused. The
comparison folds case, which is a table of the Python library, so `casefold` is a parameter. Names,
blocker texts and counters that are only printed are left out, and so are the two heaps that
`compact` and `defragment` maintain without reading them.
-/

open List Storage

namespace LinuxDefragger.Ntfs

/-- `StreamInfo`, as far as the planners read it. -/
structure StreamInfo where
  recordNumber : ℕ
  attributeOffset : ℕ
  runs : List Run
  movable : Bool
  mappingCapacity : ℕ
  deriving DecidableEq, Repr

/-- The property `key`. -/
def StreamInfo.key (info : StreamInfo) : ℕ × ℕ := (info.recordNumber, info.attributeOffset)

/-- The streams in the order of the dictionary. -/
structure AllocationPlan where
  streams : List StreamInfo
  hibernationActive : Bool
  deriving DecidableEq, Repr

/-! ### File names -/

/-- `bytes.decode("utf-16le", errors="replace")` of whole units: code points. -/
def decodeUtf16 : List ℕ → List ℕ
  | [] => []
  | [u] => if 0xD800 ≤ u ∧ u < 0xE000 then [0xFFFD] else [u]
  | u :: v :: rest =>
    if 0xD800 ≤ u ∧ u < 0xDC00 ∧ 0xDC00 ≤ v ∧ v < 0xE000 then
      (0x10000 + (u - 0xD800) * 0x400 + (v - 0xDC00)) :: decodeUtf16 rest
    else if 0xD800 ≤ u ∧ u < 0xE000 then 0xFFFD :: decodeUtf16 (v :: rest)
    else u :: decodeUtf16 (v :: rest)

/-- The 16-bit units of a byte string. -/
def utf16Units (data : List UInt8) : List ℕ :=
  (List.range (data.length / 2)).map fun i ↦ rd16 (bytesImage data) (2 * i)

/-- The code points of an ASCII text. -/
def codePoints (s : String) : List ℕ := s.toList.map Char.toNat

/-- `SYSTEM_RECORD_NAMES` -/
def systemRecordNames : List String :=
  ["$MFT", "$MFTMirr", "$LogFile", "$Volume", "$AttrDef", "$Root", "$Bitmap", "$Boot", "$BadClus",
    "$Secure", "$UpCase", "$Extend"]

/-- The name in a `$FILE_NAME` value with its preference, if it is well formed and not empty. -/
def fileNameChoice (value : List UInt8) : Option (ℕ × List ℕ) :=
  if value.length < 66 then none
  else
    let stop := 66 + (value.getD 64 0).toNat * 2
    if stop > value.length then none
    else
      let name := decodeUtf16 (utf16Units (slice value 66 stop))
      let space := (value.getD 65 0).toNat
      if name = [] then none
      else some (if space = 1 ∨ space = 3 then 3 else if space = 0 then 2 else 1, name)

/-- `a > b` for the pairs of `_best_file_name`. -/
def choiceGt (a b : ℕ × List ℕ) : Bool := a.1 > b.1 ∨ (a.1 = b.1 ∧ b.2 < a.2)

/-- `_best_file_name` -/
def bestFileName (record : List UInt8) (attrs : List Attribute) (recordNumber : ℕ) : List ℕ :=
  match systemRecordNames[recordNumber]? with
  | some name => codePoints name
  | none =>
    let choices := attrs.filterMap fun attr ↦
      if attr.atype = 0x30 ∧ attr.nonresident = false then
        match residentValue record attr with
        | .ok value => fileNameChoice value
        | .error _ => none
      else none
    (choices.foldl (fun best c ↦ if choiceGt c best then c else best) (0, [])).2

section Scan

variable (casefold : List ℕ → List ℕ)

/-- `_record_hibernation_active` -/
def recordHibernationActive (disk : NtfsDisk) (layout : NtfsLayout) (fixed : List UInt8)
    (attrs : List Attribute) (fileName : List ℕ) : Except PyError Bool :=
  if casefold fileName ≠ codePoints "hiberfil.sys" then pure false
  else match attrs.filter fun attr ↦ attr.atype = 0x80 ∧ attr.name = [] with
    | [] => pure false
    | attr :: _ =>
      if attr.nonresident then
        if attr.runs = [] ∨ attr.dataSize = 0 then pure false
        else do
          let header ← readStream disk layout.volume attr.runs 0 (min 4096 attr.dataSize)
          return (slice header 0 4).any (· ≠ 0)
      else do
        let header ← residentValue fixed attr
        return (slice header 0 4).any (· ≠ 0)

/-- A decoded record in use; `none` for one that is not in use. -/
def decodeRecord (layout : NtfsLayout) (raw : List UInt8) :
    Except PyError (Option (List UInt8 × List Attribute)) := do
  let fixed ← applyFixups raw layout.volume.bytesPerSector
  let flags ← u16 fixed 22
  if flags &&& 0x0001 = 0 then return none
  let attrs ← attributeList fixed
  return some (fixed, attrs)

/-- The field `mapping_capacity` of a stream. -/
def streamCapacity (movable : Bool) (fixed : List UInt8) (attr : Attribute) : Except PyError ℕ :=
  if movable then mappingCapacityFromRecord fixed attr else pure 0

/-- The stream of one attribute, if it owns clusters. -/
def scanAttribute (layout : NtfsLayout) (number : ℕ) (fixed : List UInt8)
    (movableAttr : Option Attribute) (streams : List StreamInfo) (attr : Attribute) :
    Except PyError (List StreamInfo) := do
  let physical := attr.runs.filter fun run ↦ run.lcn ≠ none
  if attr.nonresident = false ∨ physical = [] then return streams
  raiseIf (∃ run ∈ physical, run.lcn.getD 0 + run.length > layout.volume.totalClusters)
    "MFT record %d describes clusters outside the NTFS volume" [number]
  let movable : Bool := movableAttr.any fun m ↦ attr.offset = m.offset
  let mappingCapacity ← streamCapacity movable fixed attr
  return streams ++ [⟨number, attr.offset, attr.runs, movable, mappingCapacity⟩]

/-- The flag `hibernation` after a record: it stays set. -/
def hibernationSeen (disk : NtfsDisk) (layout : NtfsLayout) (plan : AllocationPlan)
    (fixed : List UInt8) (attrs : List Attribute) (fileName : List ℕ) : Except PyError Bool :=
  if plan.hibernationActive then pure true
  else recordHibernationActive casefold disk layout fixed attrs fileName

/-- One round of the record loop of `_scan_allocation_plan`. -/
def scanRecord (disk : NtfsDisk) (layout : NtfsLayout) (plan : AllocationPlan) (number : ℕ)
    (raw : List UInt8) : Except PyError AllocationPlan :=
  if slice raw 0 4 ≠ fileSignature then pure plan
  else match decodeRecord layout raw with
    | .error (.engine _ _) => pure plan
    | .error e => throw e
    | .ok none => pure plan
    | .ok (some (fixed, attrs)) => do
      let hibernation ← hibernationSeen casefold disk layout plan fixed attrs
        (bestFileName fixed attrs number)
      let movableAttr ← selectMovableAttribute number fixed attrs
      let streams ← attrs.foldlM (scanAttribute layout number fixed movableAttr) plan.streams
      return ⟨streams, hibernation⟩

/-- `MFT_RECORD_CHUNK` -/
def mftRecordChunk : ℕ := 16 * 1024 * 1024

/-- The chunk loop of `_iter_mft_records` with the body of the scan. Every chunk has a record. -/
def scanChunks (disk : NtfsDisk) (layout : NtfsLayout) (recordCount : ℕ) :
    ℕ → ℕ → AllocationPlan → Except PyError AllocationPlan
  | 0, _, plan => pure plan
  | fuel + 1, first, plan =>
    if first < recordCount then do
      let size := layout.volume.mftRecordSize
      let count := min (max 1 (mftRecordChunk / size)) (recordCount - first)
      let raw ← readStream disk layout.volume layout.mftRuns (first * size) (count * size)
      let plan ← (List.range count).foldlM (fun plan i ↦
        scanRecord casefold disk layout plan (first + i)
          (slice raw (i * size) (i * size + size))) plan
      scanChunks disk layout recordCount fuel (first + count) plan
    else pure plan

/-- `_scan_allocation_plan` -/
def scanAllocationPlan (disk : NtfsDisk) (layout : NtfsLayout) : Except PyError AllocationPlan :=
  let recordCount := min (layout.mftDataSize / layout.volume.mftRecordSize) 0xFFFFFFFF
  scanChunks casefold disk layout recordCount recordCount 0 ⟨[], false⟩

end Scan

/-! ### Scanning record by record -/

section ScanEach

variable {casefold : List ℕ → List ℕ} {disk : NtfsDisk} {layout : NtfsLayout}

/-- Reading a record of the MFT and scanning it. -/
def scanRecordAt (casefold : List ℕ → List ℕ) (disk : NtfsDisk) (layout : NtfsLayout)
    (plan : AllocationPlan) (number : ℕ) : Except PyError AllocationPlan := do
  let raw ← readStream disk layout.volume layout.mftRuns (number * layout.volume.mftRecordSize)
    layout.volume.mftRecordSize
  scanRecord casefold disk layout plan number raw

/-- An MFT that fits one chunk is scanned record by record. -/
theorem scanAllocationPlan_eq_foldlM {count : ℕ} {raw : List UInt8}
    (hcount : min (layout.mftDataSize / layout.volume.mftRecordSize) 0xFFFFFFFF = count)
    (hsize : 0 < layout.volume.mftRecordSize)
    (hchunk : count ≤ max 1 (mftRecordChunk / layout.volume.mftRecordSize))
    (hread : readStream disk layout.volume layout.mftRuns 0 (count * layout.volume.mftRecordSize) =
      .ok raw) :
    scanAllocationPlan casefold disk layout =
      (range count).foldlM (scanRecordAt casefold disk layout) ⟨[], false⟩ := by
  rw [scanAllocationPlan, hcount]
  cases count with
  | zero => rfl
  | succ count =>
    have hfirst : min (max 1 (mftRecordChunk / layout.volume.mftRecordSize)) (count + 1 - 0) =
        count + 1 := by omega
    rw [scanChunks, if_pos (Nat.succ_pos count)]
    dsimp only
    rw [hfirst, Nat.zero_mul, hread, ok_bind]
    have hround : ∀ plan, ∀ i ∈ range (count + 1),
        scanRecord casefold disk layout plan (0 + i) (slice raw (i * layout.volume.mftRecordSize)
          (i * layout.volume.mftRecordSize + layout.volume.mftRecordSize)) =
        scanRecordAt casefold disk layout plan i := by
      intro plan i hi
      have hle :
          (i + 1) * layout.volume.mftRecordSize ≤ (count + 1) * layout.volume.mftRecordSize :=
        Nat.mul_le_mul_right _ (List.mem_range.1 hi)
      rw [Nat.succ_mul] at hle
      have hslice := readStream_slice hread hsize hle
      rw [Nat.zero_add] at hslice ⊢
      rw [scanRecordAt, hslice, ok_bind]
    rw [foldlM_congr hround]
    cases (range (count + 1)).foldlM (scanRecordAt casefold disk layout) ⟨[], false⟩ with
    | error e => rfl
    | ok plan =>
      rw [ok_bind]
      cases count with
      | zero => rfl
      | succ count => rw [scanChunks, if_neg (by omega)]; rfl

end ScanEach

/-! ### Candidates -/

/-- `_load_candidate` -/
def loadCandidate (disk : NtfsDisk) (layout : NtfsLayout) (info : StreamInfo) :
    Except PyError Candidate := do
  let (recordOffset, raw, fixed) ← readMftRecord disk layout.volume layout.mftRuns info.recordNumber
  let flags ← u16 fixed 22
  raiseIf (slice fixed 0 4 ≠ fileSignature ∨ flags &&& 0x0001 = 0)
    "MFT record %d changed during offline compaction" [info.recordNumber]
  let attrs ← attributeList fixed
  match ← selectMovableAttribute info.recordNumber fixed attrs with
  | none =>
    throw (.engine "MFT record %d is no longer a supported movable stream" [info.recordNumber])
  | some attr => do
    raiseIf (attr.offset ≠ info.attributeOffset)
      "MFT record %d is no longer a supported movable stream" [info.recordNumber]
    return ⟨info.recordNumber, recordOffset, raw, fixed, attr⟩

/-- The entry of the dictionary is replaced in place. -/
def updateMovedStream (streams : List StreamInfo) (info : StreamInfo) (newRuns : List Run) :
    List StreamInfo :=
  streams.map fun other ↦
    if other.key = info.key then { info with runs := coalesceRuns newRuns, movable := true }
    else other

/-! ### Sources for a gap -/

/-- The reasons against a move are only printed. -/
def planCompactExtentInfo (info : StreamInfo) (gap : Run) : Except PyError (Option ExtentMove) :=
  match gap.lcn with
  | none => pure none
  | some gapStart =>
    let clusters := physicalClusters info.runs
    let physical := info.runs.filter fun run ↦ run.lcn ≠ none ∧ run.length > 0
    if gap.length = 0 ∨ clusters = 0 ∨ clusters > gap.length ∨ physical = [] ∨
        (∃ run ∈ physical, run.lcn.getD 0 < gapStart + gap.length) ∨ info.mappingCapacity = 0 then
      pure none
    else do
      let newRuns := [⟨some gapStart, clusters⟩]
      let encoded ← encodeRunlist newRuns
      if encoded.length > info.mappingCapacity then return none
      return some ⟨physical, newRuns, newRuns⟩

/-- `(a.clusters, a.highest_lcn) > (b.clusters, b.highest_lcn)` -/
def betterSource (a b : StreamInfo) : Bool :=
  physicalClusters a.runs > physicalClusters b.runs ∨
    (physicalClusters a.runs = physicalClusters b.runs ∧ highestLcn a.runs > highestLcn b.runs)

/-- One round of the loop of `_select_compact_source`. -/
def selectRound (gap : Run) (best : Option (StreamInfo × ExtentMove)) (info : StreamInfo) :
    Except PyError (Option (StreamInfo × ExtentMove)) :=
  if info.movable = false then pure best
  else do
    match ← planCompactExtentInfo info gap with
    | none => return best
    | some move =>
      match best with
      | none => return some (info, move)
      | some (bestInfo, _) =>
        if betterSource info bestInfo then return some (info, move) else return best

/-- `_select_compact_source` -/
def selectCompactSource (disk : NtfsDisk) (layout : NtfsLayout) (streams : List StreamInfo)
    (gap : Run) : Except PyError (Option (StreamInfo × Candidate × ExtentMove)) := do
  match ← streams.foldlM (selectRound gap) none with
  | none => return none
  | some (info, move) => do
    let candidate ← loadCandidate disk layout info
    raiseIf (candidate.attr.runs ≠ info.runs)
      "MFT record %d runlist changed during offline compaction" [info.recordNumber]
    let encoded ← encodeRunlist move.newRuns
    if encoded.length > (← maximumMappingCapacity candidate) then return none
    return some (info, candidate, move)

end LinuxDefragger.Ntfs
