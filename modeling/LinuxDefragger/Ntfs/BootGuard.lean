import LinuxDefragger.Ntfs.Reachable

/-!
# The first and the last cluster

Cluster 0 holds the boot sector and the last cluster may hold its copy, whatever `$Bitmap` says.
`compact` keeps off both on every volume: it packs from cluster 1 on, and always below a cluster
that is in use. `defragment` searches from cluster 0 on, so it keeps off cluster 0 only if the free
run there is too short for the stream.
-/

open Storage

namespace LinuxDefragger.Ntfs

/-- No destination cluster of a move is the first or the last one of the volume. -/
def GuardsBoot (volume : Volume) (move : ExtentMove) : Prop :=
  ∀ c ∈ runClusters move.destinationRuns, c ≠ 0 ∧ c + 1 ≠ volume.totalClusters

section Compact

variable {volume : Volume} {s : CompactState} {candidate : Candidate} {move : ExtentMove}

theorem CompactInv.guardsBoot (hinv : CompactInv volume s) (h : CompactIssues s candidate move) :
    GuardsBoot volume move := by
  obtain ⟨owner, hole, h⟩ := h
  obtain ⟨start, n, hdest, -, hone, hlt⟩ := hinv.destination h
  have hle := hinv.high_le
  intro c hc
  rw [hdest, mem_runClusters_single] at hc
  omega

end Compact

section Defragment

variable {volume : Volume} {s : DefragState} {candidate : Candidate} {move : ExtentMove}

/-- A destination below the last cluster is fine, unless it is cluster 0. -/
theorem guardsBoot_of_findFreeRun {bitmap : List UInt8} {before destination : ℕ}
    (h : findFreeRun bitmap (physicalClusters candidate.attr.runs) before = some destination)
    (hlead : ¬FreeRange bitmap 0 (physicalClusters candidate.attr.runs))
    (hbefore : 1 < before → before < volume.totalClusters) :
    GuardsBoot volume (wholeStreamMove candidate destination) := by
  obtain ⟨hpos, hle, hfree⟩ := findFreeRun_eq_some h
  have hdest : destination ≠ 0 := by
    rintro rfl
    exact hlead (by rwa [Nat.zero_add] at hfree)
  have hlt := hbefore (by omega)
  intro c hc
  obtain ⟨hlow, hhigh⟩ := mem_runClusters_single.1 hc
  omega

/-- The stream that a pass takes next. -/
def DefragPhase.next : DefragPhase → Option StreamInfo
  | .placement _ queue _ | .settling _ queue _ => queue.head?
  | _ => none

/-- What keeps `defragment` off the first and the last cluster: the free run at cluster 0, if there
is one, is too short for the next stream, and a stream to settle starts inside the volume. -/
structure BootShielded (s : DefragState) : Prop where
  leading : ∀ info ∈ s.phase.next, ∀ candidate, loadCandidate s.disk s.layout info = .ok candidate →
    ¬FreeRange s.layout.bitmap 0 (physicalClusters candidate.attr.runs)
  inside : ∀ pass queue moved, s.phase = .settling pass queue moved → ∀ info ∈ queue.head?,
    ∀ candidate, loadCandidate s.disk s.layout info = .ok candidate →
      lowestLcn candidate.attr.runs < s.layout.volume.totalClusters

theorem BootShielded.guardsBoot (hs : BootShielded s) (h : DefragIssues s candidate move) :
    GuardsBoot s.layout.volume move := by
  rcases h with ⟨pass, info, queue, moved, hphase, h⟩ | ⟨pass, info, queue, moved, hphase, h⟩
  · obtain ⟨hload, -, destination, hfind, rfl⟩ := placementAction_eq_move h
    refine guardsBoot_of_findFreeRun hfind (hs.leading info ?_ _ hload) (by omega)
    rw [hphase]
    rfl
  · obtain ⟨hload, -, destination, hfind, rfl⟩ := settlingAction_eq_move h
    refine guardsBoot_of_findFreeRun hfind (hs.leading info ?_ _ hload)
      fun _ ↦ hs.inside pass _ moved hphase info rfl _ hload
    rw [hphase]
    rfl

end Defragment

/-- **The boot-cluster guard.** On every volume and with every bitmap, no transaction of `compact`
writes the first or the last cluster. A transaction of `defragment` does not either, if the state it
starts in is shielded. -/
theorem boot_clusters_guarded (casefold : List ℕ → List ℕ) (disk : NtfsDisk) (path : String)
    (volume : Volume) (hvolume : openVolume disk path = .ok volume) :
    (∀ s candidate move, CompactReachable casefold disk path s → CompactIssues s candidate move →
      GuardsBoot volume move) ∧
    ∀ s candidate move, DefragReachable casefold disk path s → BootShielded s →
      DefragIssues s candidate move → GuardsBoot volume move := by
  refine ⟨fun s candidate move hs h ↦ (hs.inv hvolume).guardsBoot h,
    fun s candidate move hs hb h ↦ ?_⟩
  rw [← hs.volume_eq hvolume]
  exact hb.guardsBoot h

/-! ### A volume whose bitmap leaves the boot sector free -/

/-- What `openVolume` finds on the small volume. -/
def smallBoot : Volume where
  path := "/dev/sdx1"
  deviceSize := 32768
  bytesPerSector := 512
  sectorsPerCluster := 1
  clusterSize := 512
  totalClusters := 64
  mftLcn := 4
  mftmirrLcn := 30
  mftRecordSize := 512
  serial := List.replicate 8 0

/-- The layout of the small volume. -/
def smallLayout (bitmap : List UInt8) : NtfsLayout :=
  ⟨smallBoot, [⟨some 4, 25⟩], 12800, [⟨some 2, 1⟩], 8, bitmap⟩

/-- The stream of the file on the small volume. -/
def smallFile (runs : List Run) : StreamInfo := ⟨24, 56, runs, true, 384⟩

/-- The streams of the small volume. -/
def smallStreams (runs : List Run) : List StreamInfo :=
  [⟨0, 56, [⟨some 4, 25⟩], false, 0⟩, ⟨6, 56, [⟨some 2, 1⟩], false, 0⟩, smallFile runs]

/-- A bitmap in which clusters 0 and 1 are free. -/
def unreservedBitmap : List UInt8 := [0xF4, 0xFF, 0xFF, 0xDF, 0x03, 0x05, 0, 0]

/-- The mapping pairs of clusters 40 and 42. -/
def splitPairs : List UInt8 := [0x11, 1, 40, 0x11, 1, 2, 0, 0]

/-- The runs of `splitPairs`. -/
def splitRuns : List Run := [⟨some 40, 1⟩, ⟨some 42, 1⟩]

/-- What `openAndScan` reads on the small volume. -/
abbrev ScansSmall (bitmap pairs : List UInt8) (runs : List Run) : Prop :=
  openVolume (smallVolume bitmap pairs) "/dev/sdx1" = .ok smallBoot ∧
  readLayout (smallVolume bitmap pairs) smallBoot false true = .ok (smallLayout bitmap) ∧
  (List.range 25).foldlM (scanRecordAt asciiFold (smallVolume bitmap pairs) (smallLayout bitmap))
    ⟨[], false⟩ = .ok ⟨smallStreams runs, false⟩

theorem openAndScan_small {bitmap pairs : List UInt8} {runs : List Run}
    (h : ScansSmall bitmap pairs runs) :
    openAndScan asciiFold (smallVolume bitmap pairs) "/dev/sdx1" =
      .ok (smallLayout bitmap, smallStreams runs) :=
  openAndScan_of_records rfl h.1 h.2.1 rfl rfl rfl rfl (by decide)
    (show (4 + 25) * 512 ≤ 64 * 512 by decide) h.2.2

/-- The move of an action. -/
def PassAction.plannedMove : PassAction → Option ExtentMove
  | .move _ planned => some planned
  | _ => none

theorem exists_of_plannedMove {result : Except PyError PassAction} {move : ExtentMove}
    (h : result.toOption.bind PassAction.plannedMove = some move) :
    ∃ candidate, result = .ok (.move candidate move) := by
  obtain ⟨action, hresult, hmove⟩ := Option.bind_eq_some_iff.1 h
  cases result with
  | error e => cases hresult
  | ok value =>
    obtain rfl := Option.some.inj hresult
    cases value with
    | move candidate found => exact ⟨candidate, by rw [Option.some.inj hmove]⟩
    | contiguous | noRun => cases hmove

/-- The bitmap with everything up to cluster 33 in use. -/
def reservedBitmap : List UInt8 := [0xFF, 0xFF, 0xFF, 0xFF, 0x03, 0x05, 0, 0]

/-- What `defragment` does with the file, by evaluation. -/
theorem split_file_placed : (ScansSmall unreservedBitmap splitPairs splitRuns ∧
      (placementAction (smallVolume unreservedBitmap splitPairs) (smallLayout unreservedBitmap)
        (smallFile splitRuns)).toOption.bind PassAction.plannedMove =
          some ⟨splitRuns, [⟨some 0, 2⟩], [⟨some 0, 2⟩]⟩) ∧
    ScansSmall reservedBitmap splitPairs splitRuns ∧
      (placementAction (smallVolume reservedBitmap splitPairs) (smallLayout reservedBitmap)
        (smallFile splitRuns)).toOption.bind PassAction.plannedMove =
          some ⟨splitRuns, [⟨some 34, 2⟩], [⟨some 34, 2⟩]⟩ := by
  refine ⟨⟨⟨?_, ?_, ?_⟩, ?_⟩, ⟨?_, ?_, ?_⟩, ?_⟩ <;> decide +kernel

/-- `defragment` before the transaction for the file. -/
def smallPlacement (bitmap pairs : List UInt8) (runs : List Run) : DefragState :=
  ⟨smallVolume bitmap pairs, smallLayout bitmap, smallStreams runs, [(24, 56)], [],
    .placement 1 [smallFile runs] 0⟩

/-- A fragmented file is the first stream that `defragment` takes. -/
theorem smallPlacement_reachable {bitmap pairs : List UInt8} {runs : List Run}
    (hopen : openAndScan asciiFold (smallVolume bitmap pairs) "/dev/sdx1" =
      .ok (smallLayout bitmap, smallStreams runs)) (hfragments : 1 < physicalFragmentCount runs) :
    DefragReachable asciiFold (smallVolume bitmap pairs) "/dev/sdx1"
      (smallPlacement bitmap pairs runs) := by
  have hstart : defragStart asciiFold (smallVolume bitmap pairs) "/dev/sdx1" =
      .ok ⟨smallVolume bitmap pairs, smallLayout bitmap, smallStreams runs, [(24, 56)], [],
        .placementPass 1⟩ := by
    rw [defragStart, hopen, ok_bind]
    simp [smallStreams, smallFile, StreamInfo.key, hfragments]
  refine .step (.start hstart) (.beginPlacement rfl (by decide) (by simp) ⟨?_, ?_⟩)
  · simp [smallStreams, smallFile, StreamInfo.key]
  · exact List.pairwise_singleton _ _

/-- **`defragment` may overwrite the boot sector.** Clusters 0 and 1 are free in the bitmap, and the
file of two clusters is placed there. -/
theorem defragment_takes_boot_cluster :
    ∃ s candidate move,
      DefragReachable asciiFold (smallVolume unreservedBitmap splitPairs) "/dev/sdx1" s ∧
      DefragIssues s candidate move ∧ 0 ∈ runClusters move.destinationRuns := by
  obtain ⟨hscans, hmove⟩ := split_file_placed.1
  obtain ⟨candidate, haction⟩ := exists_of_plannedMove hmove
  exact ⟨_, candidate, _, smallPlacement_reachable (openAndScan_small hscans) (by decide),
    .inl ⟨1, _, [], 0, rfl, haction⟩, by decide⟩

theorem openAndScan_reserved :
    openAndScan asciiFold (smallVolume reservedBitmap splitPairs) "/dev/sdx1" =
      .ok (smallLayout reservedBitmap, smallStreams splitRuns) :=
  openAndScan_small split_file_placed.2.1

theorem placementAction_reserved :
    ∃ candidate, placementAction (smallVolume reservedBitmap splitPairs)
      (smallLayout reservedBitmap)
      (smallFile splitRuns) = .ok (.move candidate ⟨splitRuns, [⟨some 34, 2⟩], [⟨some 34, 2⟩]⟩) :=
  exists_of_plannedMove split_file_placed.2.2

/-- With the boot sector reserved, `defragment` moves the file to cluster 34, and the guard
holds. -/
theorem boot_clusters_guarded_small :
    ∃ s candidate, DefragReachable asciiFold (smallVolume reservedBitmap splitPairs) "/dev/sdx1" s ∧
      BootShielded s ∧
      DefragIssues s candidate ⟨splitRuns, [⟨some 34, 2⟩], [⟨some 34, 2⟩]⟩ ∧
      GuardsBoot smallBoot ⟨splitRuns, [⟨some 34, 2⟩], [⟨some 34, 2⟩]⟩ := by
  obtain ⟨candidate, haction⟩ := placementAction_reserved
  have hreach := smallPlacement_reachable openAndScan_reserved (by decide)
  have hissues : DefragIssues (smallPlacement reservedBitmap splitPairs splitRuns) candidate _ :=
    .inl ⟨1, _, [], 0, rfl, haction⟩
  have hshield : BootShielded (smallPlacement reservedBitmap splitPairs splitRuns) := by
    refine ⟨fun info hinfo loaded hload hfree ↦ ?_, fun pass queue moved hphase ↦ by cases hphase⟩
    -- cluster 0 is in use, so only an empty stream would fit there
    obtain rfl := Option.some.inj hinfo
    obtain ⟨hload', -, destination, hfind, -⟩ := placementAction_eq_move haction
    obtain rfl := Except.ok.inj (hload.symm.trans hload')
    exact absurd (hfree 0 le_rfl (findFreeRun_eq_some hfind).1) (by decide)
  exact ⟨_, candidate, hreach, hshield, hissues,
    (boot_clusters_guarded asciiFold _ _ smallBoot split_file_placed.2.1.1).2 _ candidate _ hreach
      hshield hissues⟩

end LinuxDefragger.Ntfs
