import LinuxDefragger.Ntfs.Plan

/-!
# Compact and Defragment as state machines

The loops of `compact` and `defragment`, one transaction a step. A stop request and a printed text
change nothing on the volume: a run may end after any step, so the states of a run are the states
that are *reachable*. `_emit_live_move` cannot fail, as both run lists of a move have the same
length.

`compact` is deterministic: `compactNext` picks the next gap and the stream for it. `defragment`
goes over sets of keys, so a pass takes the pending streams in any order that its sort allows; its
steps are a relation, and each body of the two inner loops is a function.
-/

open List Storage

namespace LinuxDefragger.Ntfs

variable (casefold : List ℕ → List ℕ)

/-- How both commands start: no journal, a supported volume, a layout and the streams. -/
def openAndScan (disk : NtfsDisk) (path : String) :
    Except PyError (NtfsLayout × List StreamInfo) := do
  raiseIf (disk.journal.isSome) "an unfinished NTFS transaction exists; run Recover first" []
  let volume ← openVolume disk path
  let layout ← readLayout disk volume false true
  let plan ← scanAllocationPlan casefold disk layout
  raiseIf plan.hibernationActive
    "Windows hibernation is active on this NTFS volume; perform a full Windows shutdown first" []
  return (layout, plan.streams)

/-! ### `compact` -/

/-- The local variables of the main loop of `compact`. -/
structure CompactState where
  disk : NtfsDisk
  layout : NtfsLayout
  streams : List StreamInfo
  packedCursor : ℕ
  currentHigh : ℕ

/-- Cluster 0 holds the boot sector. -/
def packingStart : ℕ := 1

/-- `compact` up to its main loop. -/
def compactStart (disk : NtfsDisk) (path : String) : Except PyError CompactState := do
  let (layout, streams) ← openAndScan casefold disk path
  let beforeHigh := highestUsedBefore layout.bitmap layout.volume.totalClusters
  -- `_bit(layout.bitmap, 0)`
  let _ ← byteAt layout.bitmap 0
  let (_, _, initialFirstGap) := freeGapStats layout.bitmap beforeHigh packingStart
  return ⟨disk, layout, streams, initialFirstGap.getD beforeHigh, beforeHigh⟩

/-- What a round of the main loop does. -/
inductive CompactAction
  | finished
  | skip (hole : Run)
  | move (owner : StreamInfo) (candidate : Candidate) (move : ExtentMove) (hole : Run)
  deriving DecidableEq

/-- A round of the main loop up to the transaction. -/
def compactNext (s : CompactState) : Except PyError CompactAction :=
  match nextFreeRun s.layout.bitmap (max packingStart s.packedCursor) s.currentHigh with
  | none => pure .finished
  | some hole => do
    match ← selectCompactSource s.disk s.layout s.streams hole with
    | none => return .skip hole
    | some (owner, candidate, move) => return .move owner candidate move hole

/-- `current_high` after a move: recomputed only if the source touched the boundary. -/
def highAfter (bitmap : List UInt8) (oldHigh : ℕ) (sourceRuns : List Run) : ℕ :=
  if ∃ run ∈ sourceRuns, run.lcn.getD 0 + run.length ≥ oldHigh then highestUsedBefore bitmap oldHigh
  else oldHigh

/-- A whole round; `none` when the loop ends. -/
def compactStep (s : CompactState) : Except PyError (Option CompactState) := do
  match ← compactNext s with
  | .finished => return none
  | .skip hole => return some { s with packedCursor := hole.lcn.getD 0 + hole.length }
  | .move owner candidate move hole => do
    let (disk, layout) ← moveExtent s.disk s.layout candidate move
    return some {
      disk, layout
      streams := updateMovedStream s.streams owner move.newRuns
      packedCursor := hole.lcn.getD 0
      currentHigh := highAfter layout.bitmap s.currentHigh move.sourceRuns }

/-- The states of the runs of `compact`. -/
inductive CompactReachable (disk : NtfsDisk) (path : String) : CompactState → Prop
  | start {s : CompactState} (h : compactStart casefold disk path = .ok s) :
      CompactReachable disk path s
  | step {s s' : CompactState} (hs : CompactReachable disk path s)
      (h : compactStep s = .ok (some s')) : CompactReachable disk path s'

/-- The transaction that `compact` starts in a state. -/
def CompactIssues (s : CompactState) (candidate : Candidate) (move : ExtentMove) : Prop :=
  ∃ owner hole, compactNext s = .ok (.move owner candidate move hole)

/-! ### `defragment` -/

/-- `(a.clusters, a.lowest_lcn) ≥ (b.clusters, b.lowest_lcn)` -/
def passBefore (a b : StreamInfo) : Prop :=
  physicalClusters a.runs > physicalClusters b.runs ∨
    (physicalClusters a.runs = physicalClusters b.runs ∧ lowestLcn a.runs ≥ lowestLcn b.runs)

/-- Where `defragment` is: before a pass, or in one with the streams that are left and the number of
streams moved in it. -/
inductive DefragPhase
  | placementPass (pass : ℕ)
  | placement (pass : ℕ) (queue : List StreamInfo) (passMoved : ℕ)
  | settlingPass (pass : ℕ)
  | settling (pass : ℕ) (queue : List StreamInfo) (passMoved : ℕ)
  | finished

/-- The local variables of `defragment`. -/
structure DefragState where
  disk : NtfsDisk
  layout : NtfsLayout
  streams : List StreamInfo
  pending : List (ℕ × ℕ)
  movedKeys : List (ℕ × ℕ)
  phase : DefragPhase

/-- `max_placement_passes` and `max_settling_passes` -/
def maxPasses : ℕ := 8

/-- `defragment` up to its first pass. -/
def defragStart (disk : NtfsDisk) (path : String) : Except PyError DefragState := do
  let (layout, streams) ← openAndScan casefold disk path
  let supported := streams.filter fun info ↦ info.movable ∧ physicalFragmentCount info.runs > 1
  return ⟨disk, layout, streams, supported.map StreamInfo.key, [], .placementPass 1⟩

/-- A list that `current` may be: the streams of the keys, sorted downward. -/
def IsPass (streams : List StreamInfo) (keys : List (ℕ × ℕ)) (current : List StreamInfo) : Prop :=
  current.Perm (streams.filter fun info ↦ info.key ∈ keys) ∧ current.Pairwise passBefore

/-- What the body of a pass does with a stream. -/
inductive PassAction
  | contiguous
  | noRun
  | move (candidate : Candidate) (move : ExtentMove)
  deriving DecidableEq

/-- The move of a whole stream to one run. -/
def wholeStreamMove (candidate : Candidate) (destination : ℕ) : ExtentMove :=
  let target := [⟨some destination, physicalClusters candidate.attr.runs⟩]
  ⟨candidate.attr.runs, target, target⟩

/-- The destination for a whole stream below a bound. -/
def moveBelow (layout : NtfsLayout) (candidate : Candidate) (before : ℕ) : PassAction :=
  match findFreeRun layout.bitmap (physicalClusters candidate.attr.runs) before with
  | none => .noRun
  | some destination => .move candidate (wholeStreamMove candidate destination)

/-- The body of a placement pass up to the transaction. -/
def placementAction (disk : NtfsDisk) (layout : NtfsLayout) (info : StreamInfo) :
    Except PyError PassAction := do
  let candidate ← loadCandidate disk layout info
  if physicalFragmentCount candidate.attr.runs ≤ 1 then return .contiguous
  return moveBelow layout candidate (max 1 (layout.volume.totalClusters - 1))

/-- The body of a settling pass up to the transaction. -/
def settlingAction (disk : NtfsDisk) (layout : NtfsLayout) (info : StreamInfo) :
    Except PyError PassAction := do
  let candidate ← loadCandidate disk layout info
  raiseIf (physicalFragmentCount candidate.attr.runs ≠ 1)
    "MFT record %d was not contiguous after Defragment" [info.recordNumber]
  return moveBelow layout candidate (lowestLcn candidate.attr.runs)

/-- `_move_extent` and `_update_moved_stream` in a pass. -/
def DefragState.moved (s : DefragState) (info : StreamInfo) (move : ExtentMove)
    (result : NtfsDisk × NtfsLayout) (phase : DefragPhase) : DefragState :=
  { s with
    disk := result.1
    layout := result.2
    streams := updateMovedStream s.streams info move.newRuns
    phase }

/-- The steps of `defragment`. -/
inductive DefragStep : DefragState → DefragState → Prop
  | beginPlacement {s : DefragState} {pass : ℕ} {current : List StreamInfo}
      (hphase : s.phase = .placementPass pass) (hpass : pass ≤ maxPasses)
      (hpending : s.pending ≠ [])
      (hcurrent : IsPass s.streams s.pending current) :
      DefragStep s { s with phase := .placement pass current 0 }
  | endPlacement {s : DefragState} {pass : ℕ} (hphase : s.phase = .placementPass pass)
      (hend : maxPasses < pass ∨ s.pending = []) : DefragStep s { s with phase := .settlingPass 1 }
  | placeContiguous {s : DefragState} {pass passMoved : ℕ} {info : StreamInfo}
      {queue : List StreamInfo} (hphase : s.phase = .placement pass (info :: queue) passMoved)
      (h : placementAction s.disk s.layout info = .ok .contiguous) :
      DefragStep s { s with
        pending := s.pending.filter (· ≠ info.key), phase := .placement pass queue passMoved }
  | placeNoRun {s : DefragState} {pass passMoved : ℕ} {info : StreamInfo}
      {queue : List StreamInfo} (hphase : s.phase = .placement pass (info :: queue) passMoved)
      (h : placementAction s.disk s.layout info = .ok .noRun) :
      DefragStep s { s with phase := .placement pass queue passMoved }
  | placeMove {s : DefragState} {pass passMoved : ℕ} {info : StreamInfo}
      {queue : List StreamInfo} {candidate : Candidate} {move : ExtentMove}
      {result : NtfsDisk × NtfsLayout}
      (hphase : s.phase = .placement pass (info :: queue) passMoved)
      (h : placementAction s.disk s.layout info = .ok (.move candidate move))
      (hmove : moveExtent s.disk s.layout candidate move = .ok result) :
      DefragStep s { s.moved info move result (.placement pass queue (passMoved + 1)) with
        pending := s.pending.filter (· ≠ info.key), movedKeys := s.movedKeys.insert info.key }
  | nextPlacement {s : DefragState} {pass passMoved : ℕ}
      (hphase : s.phase = .placement pass [] passMoved) :
      DefragStep s { s with
        phase := if passMoved = 0 then .settlingPass 1 else .placementPass (pass + 1) }
  | beginSettling {s : DefragState} {pass : ℕ} {current : List StreamInfo}
      (hphase : s.phase = .settlingPass pass) (hpass : pass ≤ maxPasses) (hmoved : s.movedKeys ≠ [])
      (hcurrent : IsPass s.streams s.movedKeys current) :
      DefragStep s { s with phase := .settling pass current 0 }
  | endSettling {s : DefragState} {pass : ℕ} (hphase : s.phase = .settlingPass pass)
      (hend : maxPasses < pass ∨ s.movedKeys = []) : DefragStep s { s with phase := .finished }
  | settleNoRun {s : DefragState} {pass passMoved : ℕ} {info : StreamInfo}
      {queue : List StreamInfo} (hphase : s.phase = .settling pass (info :: queue) passMoved)
      (h : settlingAction s.disk s.layout info = .ok .noRun) :
      DefragStep s { s with phase := .settling pass queue passMoved }
  | settleMove {s : DefragState} {pass passMoved : ℕ} {info : StreamInfo}
      {queue : List StreamInfo} {candidate : Candidate} {move : ExtentMove}
      {result : NtfsDisk × NtfsLayout} (hphase : s.phase = .settling pass (info :: queue) passMoved)
      (h : settlingAction s.disk s.layout info = .ok (.move candidate move))
      (hmove : moveExtent s.disk s.layout candidate move = .ok result) :
      DefragStep s (s.moved info move result (.settling pass queue (passMoved + 1)))
  | nextSettling {s : DefragState} {pass passMoved : ℕ}
      (hphase : s.phase = .settling pass [] passMoved) :
      DefragStep s { s with
        phase := if passMoved = 0 then .finished else .settlingPass (pass + 1) }

/-- The states of the runs of `defragment`. -/
inductive DefragReachable (disk : NtfsDisk) (path : String) : DefragState → Prop
  | start {s : DefragState} (h : defragStart casefold disk path = .ok s) :
      DefragReachable disk path s
  | step {s s' : DefragState} (hs : DefragReachable disk path s) (h : DefragStep s s') :
      DefragReachable disk path s'

/-- The transaction that `defragment` starts in a state, in a placement or a settling pass. -/
def DefragIssues (s : DefragState) (candidate : Candidate) (move : ExtentMove) : Prop :=
  (∃ pass info queue passMoved, s.phase = .placement pass (info :: queue) passMoved ∧
    placementAction s.disk s.layout info = .ok (.move candidate move)) ∨
  ∃ pass info queue passMoved, s.phase = .settling pass (info :: queue) passMoved ∧
    settlingAction s.disk s.layout info = .ok (.move candidate move)

/-! ### Starting on a volume with one run of small records -/

/-- Opening and scanning a volume with clusters and records of 512 bytes and an MFT of `count`
records in one run, from what the parts return. -/
theorem openAndScan_of_records {casefold : List ℕ → List ℕ} {disk : NtfsDisk} {path : String}
    {layout : NtfsLayout} {streams : List StreamInfo} {lcn count : ℕ}
    (hjournal : disk.journal = none)
    (hopen : openVolume disk path = .ok layout.volume)
    (hlayout : readLayout disk layout.volume false true = .ok layout)
    (hcluster : layout.volume.clusterSize = 512) (hrecord : layout.volume.mftRecordSize = 512)
    (hruns : layout.mftRuns = [⟨some lcn, count⟩]) (hdata : layout.mftDataSize = count * 512)
    (hcount : 0 < count ∧ count ≤ 32768) (hsize : (lcn + count) * 512 ≤ disk.size)
    (hscan : (range count).foldlM (scanRecordAt casefold disk layout) ⟨[], false⟩ =
      .ok ⟨streams, false⟩) :
    openAndScan casefold disk path = .ok (layout, streams) := by
  have haddrs : IsAddrs layout.volume.clusterSize layout.mftRuns 0
      (count * layout.volume.mftRecordSize) (range' (lcn * 512 + 0) (count * 512)) := by
    rw [hcluster, hrecord, hruns, IsAddrs, map_byteAddr_head rfl (by dsimp only; omega)]
  have hinside : ∀ a ∈ range' (lcn * 512 + 0) (count * 512), a < disk.size := by
    intro a ha
    have hlt := (List.mem_range'_1.1 ha).2
    omega
  have hread : readStream disk layout.volume layout.mftRuns 0
      (count * layout.volume.mftRecordSize) = .ok _ :=
    readStream_of_addrs (by rw [hrecord]; omega) haddrs hinside
  have hnumber : min (layout.mftDataSize / layout.volume.mftRecordSize) 0xFFFFFFFF = count := by
    rw [hdata, hrecord, Nat.mul_div_cancel _ (by decide)]
    omega
  have hchunk : mftRecordChunk / 512 = 32768 := by decide
  rw [openAndScan, raiseIf_bind_of_not (by simp [hjournal]), hopen, ok_bind, hlayout, ok_bind,
    scanAllocationPlan_eq_foldlM hnumber (by omega) (by rw [hrecord, hchunk]; omega) hread,
    hscan, ok_bind, raiseIf_bind_of_not (by simp)]
  rfl

/-! ### A small volume

Clusters and records of 512 bytes, 64 clusters: `$Bitmap` at cluster 2, `$MFT` with 25 records from
cluster 4 on, its mirror at cluster 30, and a file of two clusters in the last record. -/

/-- The header of a small record. -/
def smallHeader (inUse : UInt8) : List UInt8 :=
  fileSignature ++
    [48, 0, 2, 0] ++ List.replicate 12 0 ++ [56, 0, 1, 0, inUse, 0, 0, 0, 0, 2, 0, 0] ++
    List.replicate 16 0 ++ [1, 0, 0, 0] ++ List.replicate 4 0

/-- An unnamed data attribute with eight bytes of mapping pairs. -/
def smallStream (clusters dataSize : ℕ) (pairs : List UInt8) : List UInt8 :=
  [0x80, 0, 0, 0, 72, 0, 0, 0, 1, 0, 64, 0, 0, 0, 0, 0] ++ leBytes 8 0 ++
    leBytes 8 (clusters - 1) ++
    leBytes 8 64 ++ leBytes 8 (512 * clusters) ++ leBytes 8 dataSize ++ leBytes 8 dataSize ++ pairs

/-- A volume-information attribute without flags. -/
def smallVolumeInformation : List UInt8 :=
  [0x70, 0, 0, 0, 40, 0, 0, 0, 0, 0, 24, 0, 0, 0, 0, 0, 12, 0, 0, 0, 24, 0, 0, 0] ++
    List.replicate 16 0

/-- A sector with a record, byte by byte. -/
def recordSector (inUse : UInt8) (attr : List UInt8) (k : ℕ) : UInt8 :=
  if k = 510 then 1 else (smallHeader inUse ++ attr).getD k 0

/-- The boot sector, byte by byte. -/
def bootSector (k : ℕ) : UInt8 :=
  if k = 510 then 0x55 else if k = 511 then 0xAA
  else (List.replicate 3 0 ++ "NTFS    ".toUTF8.toList ++ [0, 2, 1] ++ List.replicate 26 0 ++
    leBytes 8 64 ++ leBytes 8 4 ++ leBytes 8 30 ++ [0xF7]).getD k 0

/-- The sectors of the volume that are not empty. -/
def smallSectors (bitmap pairs : List UInt8) : List (ℕ × (ℕ → UInt8)) :=
  [(0, bootSector), (2, fun k ↦ bitmap.getD k 0),
    (4, recordSector 136 (smallStream 25 12800 [0x11, 25, 4, 0, 0, 0, 0, 0])),
    (7, recordSector 104 smallVolumeInformation),
    (10, recordSector 136 (smallStream 1 8 [0x11, 1, 2, 0, 0, 0, 0, 0])),
    (28, recordSector 136 (smallStream 2 1024 pairs)),
    (33, recordSector 104 smallVolumeInformation)]

/-- The volume, given its bitmap and the mapping pairs of the file. -/
def smallVolume (bitmap pairs : List UInt8) : NtfsDisk where
  size := 64 * 512
  image a := ((smallSectors bitmap pairs).lookup (a / 512)).elim 0 (· (a % 512))
  journal := none
  log := []

/-- Case folding of ASCII. -/
def asciiFold (name : List ℕ) : List ℕ := name.map fun c ↦ if 65 ≤ c ∧ c ≤ 90 then c + 32 else c

end LinuxDefragger.Ntfs
