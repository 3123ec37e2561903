import LinuxDefragger.Ntfs.Stream
import Mathlib.Data.List.Sort

/-!
# Transactions: moving a stream, and recovery

`moveExtent` copies the clusters of a stream, records what it is about to do in the journal, and
then changes `$Volume`, `$Bitmap` and the MFT record in five more steps, each durable before the
next. `recoverLoaded` looks at the MFT record to decide whether an interrupted move is finished or
undone.

The journal is a JSON file with the byte strings in base64; both are inverted by their readers, so
the journal is the record itself here. Its fields for diagnostics (`source_runs`, `destination`,
`clusters`) are left out: recovery reads them only from journals that lack the exact runs.
-/

open Storage

namespace LinuxDefragger.Ntfs

/-- `ExtentMove` -/
structure ExtentMove where
  sourceRuns : List Run
  destinationRuns : List Run
  newRuns : List Run
  deriving DecidableEq, Repr

/-! ### Bitmap snapshots -/

/-- The bytes of the bitmap that a physical run touches. -/
def byteRange (run : Run) : Option (ℕ × ℕ) :=
  match run.lcn with
  | none => none
  | some lcn =>
    if run.length = 0 then none else some (lcn / 8, (lcn + run.length - 1) / 8 + 1)

/-- Order of pairs. -/
def pairLe (a b : ℕ × ℕ) : Bool := a.1 < b.1 ∨ (a.1 = b.1 ∧ a.2 ≤ b.2)

/-- One round of merging sorted ranges; the last merged range comes first. -/
def mergeStep (merged : List (ℕ × ℕ)) (range : ℕ × ℕ) : List (ℕ × ℕ) :=
  match merged with
  | [] => [range]
  | last :: rest =>
    if range.1 ≤ last.2 then (last.1, max last.2 range.2) :: rest else range :: merged

/-- The disjoint byte ranges that physical runs touch. -/
def mergedRanges (runs : List Run) : List (ℕ × ℕ) :=
  (((runs.filterMap byteRange).insertionSort fun a b ↦ pairLe a b).foldl mergeStep []).reverse

/-- `_bitmap_patches_for_runs` -/
def bitmapPatchesForRuns (layout : NtfsLayout) (runs : List Run) : List (ℕ × List UInt8) :=
  (mergedRanges runs).map fun (start, stop) ↦ (start, slice layout.bitmap start stop)

/-- `_current_bitmap_patches` -/
def currentBitmapPatches (layout : NtfsLayout) (snapshots : List (ℕ × List UInt8)) :
    List (ℕ × List UInt8) :=
  snapshots.map fun (offset, original) ↦
    (offset, slice layout.bitmap offset (offset + original.length))

/-! ### The journal -/

/-- The `stage` of a journal. -/
inductive Stage
  | copied
  | volumeDirty
  | destinationAllocated
  | metadataSwitched
  | oldReleased
  | volumeClean
  deriving DecidableEq, Repr

/-- What `_journal_state` returns. -/
structure JournalState where
  stage : Stage
  device : String
  deviceSize : ℕ
  serial : List UInt8
  recordNumber : ℕ
  recordRawBefore : List UInt8
  recordRawAfter : List UInt8
  releasedRuns : List Run
  destinationRuns : List Run
  bitmapBefore : List (ℕ × List UInt8)
  volumeRecordBefore : List UInt8
  volumeRecordDirty : List UInt8
  mirrorRecordBefore : List UInt8
  mirrorRecordDirty : List UInt8
  deriving DecidableEq, Repr

/-- A disk with an NTFS journal beside it. -/
abbrev NtfsDisk := Disk JournalState

/-- `_write_bitmap_patches` -/
def writeBitmapPatches (disk : NtfsDisk) (layout : NtfsLayout)
    (patches : List (ℕ × List UInt8)) : Except PyError NtfsDisk :=
  patches.foldlM (fun disk (offset, data) ↦
    writeStream disk layout.volume layout.bitmapRuns offset data) disk

/-- The four images of `$Volume` and its mirror: clean and dirty. -/
structure VolumeRecords where
  clean : List UInt8
  dirty : List UInt8
  mirrorClean : List UInt8
  mirrorDirty : List UInt8

/-- Where the mirror of the `$Volume` record is. -/
def Volume.mirrorOffset (volume : Volume) : ℕ :=
  volume.mftmirrLcn * volume.clusterSize + 3 * volume.mftRecordSize

/-- `_volume_record_state` -/
def volumeRecordState (disk : NtfsDisk) (layout : NtfsLayout) : Except PyError VolumeRecords := do
  let volume := layout.volume
  let (_, raw, fixed) ← readMftRecord disk volume layout.mftRuns 3
  match ← firstAttribute fixed isVolumeInformation with
  | none => throw (.engine "NTFS volume-information attribute was not found" [])
  | some info => do
    let (flagsOffset, flags) ← volumeFlagsOf fixed info
    validateVolumeFlags flags false
    let dirtyFixed ← packU16 fixed flagsOffset (flags ||| 0x0001)
    let dirtyRaw ← prepareFixups dirtyFixed volume.bytesPerSector
    let mirrorRaw ← preadExact disk volume.mftRecordSize volume.mirrorOffset
    let mirrorFixed ← applyFixups mirrorRaw volume.bytesPerSector
    match ← firstAttribute mirrorFixed isVolumeInformation with
    | none => throw (.engine "NTFS $MFTMirr does not contain a valid $Volume record" [])
    | some mirrorInfo => do
      let valueOff ← u16 mirrorFixed (mirrorInfo.offset + 20)
      let mirrorFlagsOffset := mirrorInfo.offset + valueOff + 10
      let mirrorFlags ← u16 mirrorFixed mirrorFlagsOffset
      raiseIf (mirrorFlags ≠ flags) "NTFS $Volume and $MFTMirr flags disagree" []
      let mirrorDirtyFixed ← packU16 mirrorFixed mirrorFlagsOffset (flags ||| 0x0001)
      let mirrorDirtyRaw ← prepareFixups mirrorDirtyFixed volume.bytesPerSector
      return ⟨raw, dirtyRaw, mirrorRaw, mirrorDirtyRaw⟩

/-- `_write_volume_records` -/
def writeVolumeRecords (disk : NtfsDisk) (layout : NtfsLayout) (mftRaw mirrorRaw : List UInt8) :
    Except PyError NtfsDisk := do
  let disk ← writeMftRecord disk layout.volume layout.mftRuns 3 mftRaw
  return disk.pwrite mirrorRaw layout.volume.mirrorOffset

/-! ### Copying -/

/-- `COPY_CHUNK` -/
def copyChunk : ℕ := 8 * 1024 * 1024

/-- The loop of `_copy_run_sequences` over the runs that are left, with the offsets in the first
source and destination. Every round copies at least a byte. -/
def copyLoop (clusterSize chunk : ℕ) :
    ℕ → List Run → ℕ → List Run → ℕ → ℕ → NtfsDisk → Except PyError NtfsDisk
  | 0, _, _, _, _, _, disk => pure disk
  | fuel + 1, sources, sourceOffset, destinations, destinationOffset, remaining, disk =>
    if remaining = 0 then pure disk
    else match sources, destinations with
      | source :: sources, destination :: destinations => do
        let sourceLeft := source.length * clusterSize - sourceOffset
        let destinationLeft := destination.length * clusterSize - destinationOffset
        let take := min (min chunk sourceLeft) (min destinationLeft remaining)
        let data ← preadExact disk take (source.lcn.getD 0 * clusterSize + sourceOffset)
        let disk := disk.pwrite data (destination.lcn.getD 0 * clusterSize + destinationOffset)
        let (sources, sourceOffset) :=
          if sourceOffset + take = source.length * clusterSize then (sources, 0)
          else (source :: sources, sourceOffset + take)
        let (destinations, destinationOffset) :=
          if destinationOffset + take = destination.length * clusterSize then (destinations, 0)
          else (destination :: destinations, destinationOffset + take)
        copyLoop clusterSize chunk fuel sources sourceOffset destinations destinationOffset
          (remaining - take) disk
      | _, _ => throw .indexError

/-- `_copy_run_sequences` -/
def copyRunSequences (chunk : ℕ) (disk : NtfsDisk) (volume : Volume)
    (sourceRuns destinationRuns : List Run) : Except PyError NtfsDisk := do
  let sources := sourceRuns.filter fun run ↦ run.length ≠ 0
  let destinations := destinationRuns.filter fun run ↦ run.length ≠ 0
  raiseIf (∃ run ∈ sources, run.lcn = none) "sparse source stream cannot be compacted" []
  raiseIf (∃ run ∈ destinations, run.lcn = none) "sparse destination stream is invalid" []
  raiseIf (runsLength sources ≠ runsLength destinations)
    "source and destination extent lengths differ" []
  let remaining := runsLength sources * volume.clusterSize
  let disk ← copyLoop volume.clusterSize chunk remaining sources 0 destinations 0 remaining disk
  return disk.fsync

/-! ### The move -/

/-- Mark the clusters of runs. -/
def setRuns (bitmap : List UInt8) (runs : List Run) (value : Bool) : Except PyError (List UInt8) :=
  runs.foldlM (fun bitmap run ↦ setRange bitmap (run.lcn.getD 0) run.length value) bitmap

/-- `runs[0]` -/
def headRun : List Run → Except PyError Run
  | [] => throw .indexError
  | run :: _ => pure run

/-- `_journal_state`, which checks that the two lengths agree. -/
def journalState (layout : NtfsLayout) (candidate : Candidate) (newRecord : List UInt8)
    (bitmapBefore : List (ℕ × List UInt8)) (records : VolumeRecords) (move : ExtentMove) :
    Except PyError JournalState := do
  raiseIf (runsLength move.sourceRuns ≠ runsLength move.destinationRuns)
    "journal source and destination lengths differ" []
  return {
    stage := .copied
    device := layout.volume.path
    deviceSize := layout.volume.deviceSize
    serial := layout.volume.serial
    recordNumber := candidate.recordNumber
    recordRawBefore := candidate.recordRaw
    recordRawAfter := newRecord
    releasedRuns := move.sourceRuns
    destinationRuns := move.destinationRuns
    bitmapBefore
    volumeRecordBefore := records.clean
    volumeRecordDirty := records.dirty
    mirrorRecordBefore := records.mirrorClean
    mirrorRecordDirty := records.mirrorDirty }

/-- The end of a step: everything is made durable, then the journal names the stage. -/
def endStage (disk : NtfsDisk) (state : JournalState) (stage : Stage) : NtfsDisk :=
  disk.fsync.setJournal (some { state with stage })

/-- `_move_extent` -/
def moveExtent (disk : NtfsDisk) (layout : NtfsLayout) (candidate : Candidate)
    (move : ExtentMove) : Except PyError (NtfsDisk × NtfsLayout) := do
  let volume := layout.volume
  let newRecord ← updatedRecordRuns candidate move.newRuns volume.bytesPerSector
  let bitmapBefore := bitmapPatchesForRuns layout (move.sourceRuns ++ move.destinationRuns)
  let records ← volumeRecordState disk layout
  let disk ← copyRunSequences copyChunk disk volume move.sourceRuns move.destinationRuns
  let _ ← headRun move.destinationRuns
  let state ← journalState layout candidate newRecord bitmapBefore records move
  let disk := disk.setJournal (some state)
  let disk ← writeVolumeRecords disk layout records.dirty records.mirrorDirty
  let disk := endStage disk state .volumeDirty
  let layout := { layout with bitmap := ← setRuns layout.bitmap move.destinationRuns true }
  let disk ← writeBitmapPatches disk layout (currentBitmapPatches layout bitmapBefore)
  let disk := endStage disk state .destinationAllocated
  let disk ← writeMftRecord disk volume layout.mftRuns candidate.recordNumber newRecord
  let disk := endStage disk state .metadataSwitched
  let layout := { layout with bitmap := ← setRuns layout.bitmap move.sourceRuns false }
  let disk ← writeBitmapPatches disk layout (currentBitmapPatches layout bitmapBefore)
  let disk := endStage disk state .oldReleased
  let disk ← writeVolumeRecords disk layout records.clean records.mirrorClean
  let disk := endStage disk state .volumeClean
  return (disk.setJournal none, layout)

/-! ### Recovery -/

/-- `_validate_identity` -/
def validateIdentity (layout : NtfsLayout) (state : JournalState) : Except PyError Unit := do
  raiseIf (state.device ≠ layout.volume.path) "recovery journal names a different NTFS target" []
  raiseIf (state.deviceSize ≠ layout.volume.deviceSize)
    "NTFS target size changed after the interrupted operation" []
  raiseIf (state.serial ≠ layout.volume.serial) "NTFS serial does not match the recovery journal" []

/-- The checks of `_affected_runs`. -/
def checkAffectedRuns (state : JournalState) : Except PyError Unit := do
  raiseIf (∃ run ∈ state.releasedRuns, run.lcn = none)
    "journal contains an unsupported sparse source run" []
  raiseIf (∃ run ∈ state.destinationRuns, run.lcn = none)
    "journal contains an invalid sparse destination run" []
  raiseIf (runsLength state.releasedRuns ≠ runsLength state.destinationRuns)
    "recovery journal extent lengths disagree" []

/-- `_recover_loaded` -/
def recoverLoaded (disk : NtfsDisk) (layout : NtfsLayout) (state : JournalState) :
    Except PyError (NtfsDisk × NtfsLayout) := do
  validateIdentity layout state
  let volume := layout.volume
  raiseIf (state.recordRawBefore.length ≠ volume.mftRecordSize ∨
    state.recordRawAfter.length ≠ volume.mftRecordSize)
    "recovery journal contains an invalid MFT record image" []
  let current ← readStream disk volume layout.mftRuns (state.recordNumber * volume.mftRecordSize)
    volume.mftRecordSize
  checkAffectedRuns state
  raiseIf (state.bitmapBefore = []) "recovery journal does not contain bitmap snapshots" []
  let (disk, layout) ←
    if current = state.recordRawAfter then do
      -- metadata points at the copied destination: complete forward
      let bitmap ← setRuns layout.bitmap state.destinationRuns true
      let bitmap ← setRuns bitmap state.releasedRuns false
      let layout := { layout with bitmap }
      let disk ← writeBitmapPatches disk layout (currentBitmapPatches layout state.bitmapBefore)
      pure (disk.fsync, layout)
    else do
      -- metadata is old or torn: restore the record and the saved bitmap bytes
      let disk ← writeMftRecord disk volume layout.mftRuns state.recordNumber state.recordRawBefore
      let disk ← writeBitmapPatches disk layout state.bitmapBefore
      pure (disk.fsync, layout)
  raiseIf (state.volumeRecordBefore.length ≠ volume.mftRecordSize ∨
    state.mirrorRecordBefore.length ≠ volume.mftRecordSize)
    "recovery journal contains invalid $Volume record images" []
  let disk ← writeVolumeRecords disk layout state.volumeRecordBefore state.mirrorRecordBefore
  return (disk.fsync.setJournal none, layout)

/-- `recover`, once the journal was read and the volume opened. -/
def recover (disk : NtfsDisk) (volume : Volume) (state : JournalState) :
    Except PyError (NtfsDisk × NtfsLayout) := do
  let layout ← readLayout disk volume true false
  recoverLoaded disk layout state

/-! ### What a move does to the bitmap -/

section Bitmap

variable {bitmap bitmap' : List UInt8} {value : Bool} {runs : List Run}

/-- Every run is stored below a limit. -/
def RunsBelow (limit : ℕ) (runs : List Run) : Prop :=
  ∀ run ∈ runs, ∃ lcn, run.lcn = some lcn ∧ lcn + run.length ≤ limit

theorem Run.mem_clusters {run : Run} {c : ℕ} :
    c ∈ run.clusters ↔ ∃ lcn, run.lcn = some lcn ∧ lcn ≤ c ∧ c < lcn + run.length := by
  rw [Run.clusters]
  cases run.lcn with
  | none => simp
  | some lcn => simp [List.mem_range'_1]

theorem mem_runClusters {c : ℕ} : c ∈ runClusters runs ↔
      ∃ run ∈ runs, ∃ lcn, run.lcn = some lcn ∧ lcn ≤ c ∧ c < lcn + run.length := by
  simp only [runClusters, List.mem_flatMap, Run.mem_clusters]

/-- `bitmap'` is `bitmap` with the clusters of the runs set to `value`. -/
structure RunsSet (value : Bool) (runs : List Run) (bitmap bitmap' : List UInt8) : Prop where
  length : bitmap'.length = bitmap.length
  bit : ∀ c, bit bitmap' c = if c ∈ runClusters runs then value else bit bitmap c

/-- **Marking runs changes their clusters and nothing else.** -/
theorem setRuns_eq_ok (value : Bool) (h : RunsBelow (bitmap.length * 8) runs) :
    ∃ bitmap', setRuns bitmap runs value = .ok bitmap' ∧ RunsSet value runs bitmap bitmap' := by
  induction runs generalizing bitmap with
  | nil => exact ⟨bitmap, rfl, rfl, fun c ↦ by simp [runClusters]⟩
  | cons run runs ih =>
    obtain ⟨⟨lcn, hlcn, hle⟩, hrest⟩ := List.forall_mem_cons.1 h
    obtain ⟨bm₁, h₁, hset₁⟩ := setRange_eq_ok value hle
    obtain ⟨bm₂, h₂, hset₂⟩ := ih (show RunsBelow (bm₁.length * 8) runs by rwa [hset₁.length])
    refine ⟨bm₂, ?_, hset₂.length.trans hset₁.length, fun c ↦ ?_⟩
    · rw [setRuns, List.foldlM_cons, hlcn, Option.getD_some, h₁]
      exact h₂
    · have hmem : c ∈ runClusters (run :: runs) ↔
          (lcn ≤ c ∧ c < lcn + run.length) ∨ c ∈ runClusters runs := by
        simp [runClusters, Run.mem_clusters, hlcn]
      rw [hset₂.bit, hset₁.bit]
      by_cases hin : c ∈ runClusters runs
      · rw [if_pos hin, if_pos (hmem.2 (.inr hin))]
      · rw [if_neg hin]
        exact if_congr (by rw [hmem]; exact (or_iff_left hin).symm) rfl rfl

theorem RunsSet.of_ok (hbelow : RunsBelow (bitmap.length * 8) runs)
    (h : setRuns bitmap runs value = .ok bitmap') : RunsSet value runs bitmap bitmap' := by
  obtain ⟨bm, hbm, hset⟩ := setRuns_eq_ok value hbelow
  obtain rfl := Except.ok.inj (h.symm.trans hbm)
  exact hset

end Bitmap

/-- A move marks the destination, then frees the source, and changes nothing else of the layout. -/
theorem moveExtent_layout {disk disk' : NtfsDisk} {layout layout' : NtfsLayout}
    {candidate : Candidate} {move : ExtentMove}
    (h : moveExtent disk layout candidate move = .ok (disk', layout')) :
    ∃ bm₁ bm₂, setRuns layout.bitmap move.destinationRuns true = .ok bm₁ ∧
      setRuns bm₁ move.sourceRuns false = .ok bm₂ ∧ layout' = { layout with bitmap := bm₂ } := by
  unfold moveExtent at h
  obtain ⟨newRecord, -, h⟩ := bind_eq_ok.1 h
  obtain ⟨records, -, h⟩ := bind_eq_ok.1 h
  obtain ⟨disk₁, -, h⟩ := bind_eq_ok.1 h
  obtain ⟨-, -, h⟩ := bind_eq_ok.1 h
  obtain ⟨state, -, h⟩ := bind_eq_ok.1 h
  obtain ⟨disk₂, -, h⟩ := bind_eq_ok.1 h
  obtain ⟨bm₁, hbm₁, h⟩ := bind_eq_ok.1 h
  obtain ⟨disk₃, -, h⟩ := bind_eq_ok.1 h
  obtain ⟨disk₄, -, h⟩ := bind_eq_ok.1 h
  obtain ⟨bm₂, hbm₂, h⟩ := bind_eq_ok.1 h
  obtain ⟨disk₅, -, h⟩ := bind_eq_ok.1 h
  obtain ⟨disk₆, -, h⟩ := bind_eq_ok.1 h
  exact ⟨bm₁, bm₂, hbm₁, hbm₂, (congrArg Prod.snd (Except.ok.inj h)).symm⟩

end LinuxDefragger.Ntfs
