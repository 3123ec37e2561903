import LinuxDefragger.Fat.GrowthVerdict
import LinuxDefragger.Storage.Tally

/-!
# The two maps of a FAT volume

`print_map_json` writes the map of a volume that is not being changed, `build_live_map_cells` the
one that is sent while it is. Both mark the clusters, count them cell by cell, and summarise the
volume.

The cells are the same and tile the clusters of the volume (`maps_agree_iff`). The summaries are the
same except for one number: only the live map counts the root directory among the fragmented
directories.
-/

open List Storage

namespace LinuxDefragger.Fat

/-! ### Marks of clusters -/

/-- The flags `MAP_CLUSTER_…` of a cluster. -/
structure ClusterFlags where
  used : Bool := false
  fragmented : Bool := false
  directory : Bool := false
  bad : Bool := false
  deriving DecidableEq, Repr

/-- `|=` -/
def ClusterFlags.or (f g : ClusterFlags) : ClusterFlags :=
  ⟨f.used || g.used, f.fragmented || g.fragmented, f.directory || g.directory, f.bad || g.bad⟩

/-- The loop of both maps over the table. -/
def tableFlags (fs : Fat32) (c : ℕ) : ClusterFlags :=
  if 2 ≤ c ∧ c ≤ fs.maxCluster ∧
    fs.value c ≠ 0 then { used := true, bad := fs.isBadLink (fs.value c) } else {}

/-- `mark_map_chain` -/
def markMapChain (flags : ℕ → ClusterFlags) (chain : List ℕ) (directory fragmented : Bool) :
    ℕ → ClusterFlags :=
  chain.foldl (fun flags c ↦
    Function.update flags c ((flags c).or { used := true, directory, fragmented })) flags

/-! ### Cells -/

/-- `LiveMapCell`, and the cells of `print_map_json`. -/
structure MapCell where
  start : ℕ
  stop : ℕ
  freeCount : ℕ := 0
  usedCount : ℕ := 0
  fragmentedCount : ℕ := 0
  directoryCount : ℕ := 0
  badCount : ℕ := 0
  deriving DecidableEq, Repr

/-- The number of cells: as many as asked for, but not more than clusters, and at least one. -/
def mapCellCount (fs : Fat32) (requestedCells : ℕ) : ℕ :=
  let cells := if requestedCells = 0 then 4096 else requestedCells
  let cells := if cells > fs.clusterCount then fs.clusterCount else cells
  if cells = 0 then 1 else cells

/-- First and last cluster of a cell. -/
def mapCellBounds (fs : Fat32) (cells i : ℕ) : ℕ × ℕ :=
  let firstIndex := i * fs.clusterCount / cells
  let endIndex := (i + 1) * fs.clusterCount / cells
  let endIndex := if endIndex ≤ firstIndex then firstIndex + 1 else endIndex
  let start := firstIndex + 2
  let stop := endIndex + 1
  (start, if stop > fs.maxCluster then fs.maxCluster else stop)

/-- A cluster is counted. -/
def MapCell.count (cell : MapCell) (state : ClusterFlags) : MapCell where
  start := cell.start
  stop := cell.stop
  freeCount := if state.used then cell.freeCount else cell.freeCount + 1
  usedCount := if state.used then cell.usedCount + 1 else cell.usedCount
  fragmentedCount := if state.fragmented then cell.fragmentedCount + 1 else cell.fragmentedCount
  directoryCount := if state.directory then cell.directoryCount + 1 else cell.directoryCount
  badCount := if state.bad then cell.badCount + 1 else cell.badCount

/-- The clusters of a cell, one after the other. -/
def mapCell (fs : Fat32) (flags : ℕ → ClusterFlags) (cells i : ℕ) : MapCell :=
  let bounds := mapCellBounds fs cells i
  (List.range' bounds.1 (bounds.2 + 1 - bounds.1)).foldl (fun cell c ↦ cell.count (flags c))
    { start := bounds.1, stop := bounds.2 }

/-! ### Numbers for the volume -/

/-- The fragments of a file record. -/
def FileRecord.fragments (f : FileRecord) : ℕ := chainFragments f.chain

/-- `filesystem_root_fragments` -/
def filesystemRootFragments (fs : Fat32) : Except Halt ℕ :=
  if fs.rootIsFixed then pure 1 else do return chainFragments (← fat32ReadChain fs fs.rootCluster)

/-- The clusters of the volume. -/
def Fat32.clusters (fs : Fat32) : List ℕ := List.range' 2 (fs.maxCluster - 1)

/-- `count_free_clusters` -/
def countFreeClusters (fs : Fat32) : ℕ := fs.clusters.countP fs.fatIsFree

/-- `terminal_free_clusters` -/
def terminalFreeClusters (fs : Fat32) : ℕ := (fs.clusters.reverse.takeWhile fs.fatIsFree).length

/-- The holes and the highest movable cluster. -/
def holesBelowHighWater (fs : Fat32) : ℕ × ℕ :=
  let highest := (fs.clusters.reverse.find? fs.clusterIsMovableAllocation).getD 1
  (if 2 ≤ highest then (List.range' 2 (highest - 1)).countP fs.fatIsFree else 0, highest)

/-! ### The map that is printed -/

/-- The loop of `print_map_json` over the files: flags and counters. -/
structure PrintTally where
  flags : ℕ → ClusterFlags
  regular : ℕ := 0
  directories : ℕ := 1
  fragmentedFiles : ℕ := 0
  fragmentedDirs : ℕ := 0
  worstFragments : ℕ := 0
  worstPath : Option (List UInt8) := none

/-- One file of this loop. -/
def PrintTally.add (t : PrintTally) (f : FileRecord) : PrintTally :=
  let t := if f.isDir then
      { t with
        directories := t.directories + 1
        fragmentedDirs := if 1 < f.fragments then t.fragmentedDirs + 1 else t.fragmentedDirs }
    else
      { t with
        regular := t.regular + 1
        fragmentedFiles := if 1 < f.fragments then t.fragmentedFiles + 1 else t.fragmentedFiles }
  let t := { t with flags := markMapChain t.flags f.chain f.isDir (1 < f.fragments) }
  if t.worstFragments <
    f.fragments then { t with worstFragments := f.fragments, worstPath := some f.path } else t

/-- The fields of the printed map that depend on the files and the table. -/
structure PrintedMap where
  freeClusters : ℕ
  usedClusters : ℕ
  regularFiles : ℕ
  fragmentedFiles : ℕ
  directories : ℕ
  fragmentedDirectories : ℕ
  rootFragments : ℕ
  worstFragments : ℕ
  worstPath : Option (List UInt8)
  highestAllocatedCluster : ℕ
  freeGapsBelowHighest : ℕ
  terminalFreeClusters : ℕ
  growth10Satisfied : Bool
  cells : List MapCell
  deriving DecidableEq, Repr

/-- `print_map_json` -/
def printMapJson (fs : Fat32) (files : List FileRecord) (requestedCells : ℕ) :
    Except Halt PrintedMap := do
  let cells := mapCellCount fs requestedCells
  let rootChain ← filesystemRootChain fs
  let rootFragments ← filesystemRootFragments fs
  let tally : PrintTally :=
    { flags := markMapChain (tableFlags fs) rootChain true (1 < rootFragments) }
  let tally := if tally.worstFragments < rootFragments then
      { tally with
        worstFragments := rootFragments
        worstPath := some "<root directory>".toUTF8.toList }
    else tally
  let tally := files.foldl PrintTally.add tally
  let freeClusters := countFreeClusters fs
  let (gaps, highest) := holesBelowHighWater fs
  let growth10Satisfied ← growthLayoutSatisfiedForMap fs files 10
  return {
    freeClusters
    usedClusters := fs.clusterCount - freeClusters
    regularFiles := tally.regular
    fragmentedFiles := tally.fragmentedFiles
    directories := tally.directories
    fragmentedDirectories := tally.fragmentedDirs
    rootFragments
    worstFragments := tally.worstFragments
    worstPath := tally.worstPath
    highestAllocatedCluster := highest
    freeGapsBelowHighest := gaps
    terminalFreeClusters := terminalFreeClusters fs
    growth10Satisfied
    cells := (List.range cells).map (mapCell fs tally.flags cells) }

/-! ### The live map -/

/-- The loop of `build_live_map_cells` over the files. -/
structure LiveTally where
  flags : ℕ → ClusterFlags
  fragmentedFiles : ℕ := 0
  fragmentedDirs : ℕ := 0

/-- One file of this loop. -/
def LiveTally.add (t : LiveTally) (f : FileRecord) : LiveTally :=
  let t := if f.isDir then
      { t with fragmentedDirs := if 1 < f.fragments then t.fragmentedDirs +
        1 else t.fragmentedDirs }
    else { t with fragmentedFiles := if 1 < f.fragments then t.fragmentedFiles +
      1 else t.fragmentedFiles }
  { t with flags := markMapChain t.flags f.chain f.isDir (1 < f.fragments) }

/-- The results of `build_live_map_cells`. -/
structure LiveMap where
  cells : List MapCell
  fragmentedFiles : ℕ
  fragmentedDirs : ℕ
  freeClusters : ℕ
  freeGaps : ℕ
  deriving DecidableEq, Repr

/-- `build_live_map_cells` -/
def buildLiveMapCells (fs : Fat32) (files : List FileRecord) (requestedCells : ℕ) :
    Except Halt LiveMap := do
  let cells := mapCellCount fs requestedCells
  let rootChain ← filesystemRootChain fs
  let rootFragments ← filesystemRootFragments fs
  let tally : LiveTally :=
    { flags := markMapChain (tableFlags fs) rootChain true (1 < rootFragments) }
  let tally :=
    if 1 < rootFragments then { tally with fragmentedDirs := tally.fragmentedDirs + 1 } else tally
  let tally := files.foldl LiveTally.add tally
  return {
    cells := (List.range cells).map (mapCell fs tally.flags cells)
    fragmentedFiles := tally.fragmentedFiles
    fragmentedDirs := tally.fragmentedDirs
    freeClusters := countFreeClusters fs
    freeGaps := (holesBelowHighWater fs).1 }

/-! ### The cells tile the volume -/

section Cells

variable {fs : Fat32} (flags : ℕ → ClusterFlags)

theorem mapCellCount_le (fs : Fat32) (requestedCells : ℕ) :
    0 < mapCellCount fs requestedCells ∧ mapCellCount fs requestedCells ≤
      max 1 fs.clusterCount := by
  unfold mapCellCount
  dsimp only
  split_ifs <;> omega

/-- Where the clusters of a cell are. -/
theorem mapCellBounds_eq (hmax : fs.maxCluster = fs.clusterCount + 1) {cells i : ℕ}
    (hpos : 0 < cells)
    (hle : cells ≤ fs.clusterCount) (hi : i < cells) :
    mapCellBounds fs cells i =
      (i * fs.clusterCount / cells + 2, (i + 1) * fs.clusterCount / cells + 1) := by
  have hlt := proportional_lt hpos hle i
  have hend : (i + 1) * fs.clusterCount / cells ≤ fs.clusterCount := by
    refine Nat.div_le_of_le_mul ?_
    exact Nat.mul_le_mul_right _ hi
  unfold mapCellBounds
  dsimp only
  rw [if_neg (Nat.not_le.2 hlt), if_neg (by omega)]

/-- **The cells list the clusters of the volume once, in order.** -/
theorem flatMap_mapCellBounds (hmax : fs.maxCluster = fs.clusterCount + 1) (requestedCells : ℕ) :
    (range (mapCellCount fs requestedCells)).flatMap (fun i ↦
      let bounds := mapCellBounds fs (mapCellCount fs requestedCells) i
      range' bounds.1 (bounds.2 + 1 - bounds.1)) = fs.clusters := by
  obtain ⟨hpos, hle⟩ := mapCellCount_le fs requestedCells
  rcases Nat.eq_zero_or_pos fs.clusterCount with hzero | hcount
  · -- the only cell of a volume without clusters has none
    have hone : mapCellCount fs requestedCells = 1 := by omega
    have hbounds : mapCellBounds fs 1 0 = (2, 1) := by
      unfold mapCellBounds
      rw [hmax, hzero]
      rfl
    rw [hone, Fat32.clusters, hmax, hzero]
    simp [hbounds]
  · have htiles := (tiles_proportional hpos
      (by omega : mapCellCount fs requestedCells ≤ fs.clusterCount)).map_add 2
    have hall := htiles.flatMap_range'
    rw [map_map, flatMap_map] at hall
    rw [Fat32.clusters, hmax]
    refine Eq.trans (flatMap_congr fun i hi ↦ ?_) hall
    rw [mapCellBounds_eq hmax hpos (by omega) (mem_range.1 hi)]
    rfl

theorem count_start (cell : MapCell) (cs : List ℕ) :
    (cs.foldl (fun cell c ↦ cell.count (flags c)) cell).start = cell.start ∧
      (cs.foldl (fun cell c ↦ cell.count (flags c)) cell).stop = cell.stop ∧
      (cs.foldl (fun cell c ↦ cell.count (flags c)) cell).freeCount +
        (cs.foldl (fun cell c ↦ cell.count (flags c)) cell).usedCount =
          cell.freeCount + cell.usedCount + cs.length := by
  induction cs generalizing cell with
  | nil => exact ⟨rfl, rfl, rfl⟩
  | cons c cs ih =>
    obtain ⟨hstart, hstop, hsum⟩ := ih (cell.count (flags c))
    refine ⟨hstart, hstop, hsum.trans ?_⟩
    rw [length_cons]
    unfold MapCell.count
    dsimp only
    split_ifs <;> omega

/-- A cell has its bounds, and every cluster between them is free or used. -/
theorem mapCell_spec (cells i : ℕ) :
    ((mapCell fs flags cells i).start, (mapCell fs flags cells i).stop) = mapCellBounds fs cells i ∧
      (mapCell fs flags cells i).freeCount + (mapCell fs flags cells i).usedCount =
        (mapCell fs flags cells i).stop + 1 - (mapCell fs flags cells i).start := by
  obtain ⟨hstart, hstop, hsum⟩ := count_start flags
    { start := (mapCellBounds fs cells i).1, stop := (mapCellBounds fs cells i).2 }
    (range' (mapCellBounds fs cells i).1
      ((mapCellBounds fs cells i).2 + 1 - (mapCellBounds fs cells i).1))
  refine ⟨Prod.ext hstart hstop, hsum.trans ?_⟩
  rw [length_range', Nat.zero_add, Nat.zero_add]
  exact congrArg₂ (fun a b ↦ a + 1 - b) hstop.symm hstart.symm

end Cells

/-! ### The two loops over the files -/

/-- The two loops mark the same clusters and count the same files; the live one is `k` directories
ahead. -/
structure SameTally (k : ℕ) (t : PrintTally) (t' : LiveTally) : Prop where
  flags : t'.flags = t.flags
  fragmentedFiles : t'.fragmentedFiles = t.fragmentedFiles
  fragmentedDirs : t'.fragmentedDirs = t.fragmentedDirs + k

theorem SameTally.add {k : ℕ} {t : PrintTally} {t' : LiveTally} (h : SameTally k t t')
    (f : FileRecord) :
    SameTally k (t.add f) (t'.add f) := by
  obtain ⟨hflags, hfiles, hdirs⟩ := h
  unfold PrintTally.add LiveTally.add
  dsimp only
  rw [hflags, hfiles, hdirs]
  split_ifs <;> refine ⟨rfl, rfl, ?_⟩ <;> dsimp only <;> omega

theorem SameTally.foldl {k : ℕ} {t : PrintTally} {t' : LiveTally} (h : SameTally k t t')
    (files : List FileRecord) :
    SameTally k (files.foldl PrintTally.add t) (files.foldl LiveTally.add t') := by
  induction files generalizing t t' with
  | nil => exact h
  | cons f files ih => exact ih (h.add f)

/-! ### Agreement -/

/-- **The two maps agree**: the same cells, which tile the volume and hold each cluster as free or
used, and the same numbers of fragmented files and directories, free clusters and gaps. -/
structure MapsAgree (fs : Fat32) (printed : PrintedMap) (live : LiveMap) : Prop where
  cells : live.cells = printed.cells
  tiles : printed.cells.flatMap (fun cell ↦ List.range' cell.start (cell.stop + 1 - cell.start)) =
    fs.clusters
  width : ∀ cell ∈ printed.cells, cell.freeCount + cell.usedCount = cell.stop + 1 - cell.start
  fragmentedFiles : live.fragmentedFiles = printed.fragmentedFiles
  fragmentedDirs : live.fragmentedDirs = printed.fragmentedDirectories
  freeClusters : live.freeClusters = printed.freeClusters
  freeGaps : live.freeGaps = printed.freeGapsBelowHighest

theorem growthLayoutSatisfiedForMap_eq_ok {fs : Fat32} {root : List ℕ}
    (hroot : filesystemRootChain fs = .ok root)
    (files : List FileRecord) (percent : ℕ) :
    ∃ satisfied, growthLayoutSatisfiedForMap fs files percent = .ok satisfied := by
  obtain ⟨os, hos, -⟩ : ∃ os, buildGrowthObjects fs files = .ok os ∧ _ :=
    buildGrowthObjects_eq_ok hroot
  have hpre : ∃ r, growthLayoutPreflight fs files percent = .ok r := by
    rw [growthLayoutPreflight, hroot, ok_bind]
    dsimp only
    split_ifs
    all_goals exact ⟨_, rfl⟩
  obtain ⟨r, hr⟩ := hpre
  rw [growthLayoutSatisfiedForMap, hr, ok_bind, hos, ok_bind]
  split_ifs
  all_goals exact ⟨_, rfl⟩

theorem filesystemRootFragments_eq_ok {fs : Fat32} {root : List ℕ}
    (hroot : filesystemRootChain fs = .ok root) :
    filesystemRootFragments fs = .ok (if fs.rootIsFixed then 1 else chainFragments root) := by
  unfold filesystemRootChain at hroot
  unfold filesystemRootFragments
  split_ifs at hroot ⊢
  · rfl
  · rw [hroot, ok_bind]
    rfl

/-- **The two maps of a volume.** They differ at most in the directories: the live one counts the
root. -/
theorem maps_eq_ok {fs : Fat32} {root : List ℕ} (hroot : filesystemRootChain fs = .ok root)
    (files : List FileRecord)
    (requestedCells : ℕ) :
    ∃ printed live flags rootFragments, printMapJson fs files requestedCells = .ok printed ∧
      buildLiveMapCells fs files requestedCells = .ok live ∧
      filesystemRootFragments fs = .ok rootFragments ∧
      printed.cells = (range (mapCellCount fs requestedCells)).map
        (mapCell fs flags (mapCellCount fs requestedCells)) ∧
      live.cells = printed.cells ∧ live.fragmentedFiles = printed.fragmentedFiles ∧
      live.fragmentedDirs = printed.fragmentedDirectories + (if 1 < rootFragments then 1 else 0) ∧
      live.freeClusters = printed.freeClusters ∧ live.freeGaps = printed.freeGapsBelowHighest := by
  obtain ⟨satisfied, hsatisfied⟩ := growthLayoutSatisfiedForMap_eq_ok hroot files 10
  have hfragments := filesystemRootFragments_eq_ok hroot
  generalize (if fs.rootIsFixed then 1 else chainFragments root) = n at hfragments
  have hstart : SameTally (if 1 < n then 1 else 0)
      (if 0 < n then
        { flags := markMapChain (tableFlags fs) root true (1 < n), worstFragments := n
          worstPath := some "<root directory>".toUTF8.toList }
      else { flags := markMapChain (tableFlags fs) root true (1 < n) })
      (if 1 < n then
        { flags := markMapChain (tableFlags fs) root true (1 < n), fragmentedDirs := 0 + 1 }
      else { flags := markMapChain (tableFlags fs) root true (1 < n) }) := by
    split_ifs <;> exact ⟨rfl, rfl, rfl⟩
  obtain ⟨hflags, hfiles, hdirs⟩ := hstart.foldl files
  unfold printMapJson buildLiveMapCells
  rw [hroot, ok_bind, ok_bind, hfragments, ok_bind, ok_bind, hsatisfied]
  refine ⟨_, _, _, n, rfl, rfl, rfl, rfl, ?_, hfiles, hdirs, rfl, rfl⟩
  exact congrArg (fun flags ↦ (range (mapCellCount fs requestedCells)).map
    (mapCell fs flags (mapCellCount fs requestedCells))) hflags

/-- **When the maps of a volume agree.** -/
theorem maps_agree_iff {fuel : ℕ} {dev : Device} {allow : Bool} {fs : Fat32} {s : ScanState}
    (hload : fat32Load fuel dev allow = .ok fs) (hscan : scanFiles fs = .ok s)
    (requestedCells : ℕ) :
    ∃ printed live rootFragments, printMapJson fs s.files requestedCells = .ok printed ∧
      buildLiveMapCells fs s.files requestedCells = .ok live ∧
      filesystemRootFragments fs = .ok rootFragments ∧
      (MapsAgree fs printed live ↔ rootFragments ≤ 1) := by
  have hlayout := (fat32Load_loaded hload).1.toLayout
  obtain ⟨root, hroot, -⟩ := scanFiles_scanned hlayout hscan
  obtain ⟨printed, live, flags, n, hprinted, hlive, hn, hcells, hsame, hfiles, hdirs,
      hfree, hgaps⟩ :=
    maps_eq_ok hroot s.files requestedCells
  refine ⟨printed, live, n, hprinted, hlive, hn, fun h ↦ ?_, fun h ↦ ?_⟩
  · have := h.fragmentedDirs
    split_ifs at hdirs <;> omega
  · rw [if_neg (by omega), Nat.add_zero] at hdirs
    refine ⟨hsame, ?_, ?_, hfiles, hdirs, hfree, hgaps⟩
    · rw [hcells, flatMap_map, ← flatMap_mapCellBounds hlayout.maxCluster requestedCells]
      refine flatMap_congr fun i _ ↦ ?_
      rw [← (mapCell_spec flags _ i).1]
    · rw [hcells]
      intro cell hcell
      obtain ⟨i, -, rfl⟩ := mem_map.1 hcell
      exact (mapCell_spec flags _ i).2

/-! ### A root directory in two fragments -/

/-- A FAT32 volume with nothing in it. Its root directory is clusters 2 and 4. -/
def splitRootDevice : Device where
  path := "/dev/loop0".toList
  writable := false
  sizeBytes := 66038 * 512
  image := Image.write (Image.write (fun a ↦ if a < 512 then
    ([(12, 0x02), (13, 1), (14, 1), (16, 1), (32, 0xF6), (33, 0x01), (34, 0x01), (37, 0x02),
      (44, 2), (510, 0x55),
      (511, 0xAA)].lookup a).getD 0 else 0) 520 [4]) 528 [0xFF, 0xFF, 0xFF, 0x0F]
  log := []

/-- What loading it gives. -/
def splitRootVolume : Fat32 :=
  (bootFields splitRootDevice.image splitRootDevice false).withFat
    (decodeTable .fat32 (splitRootDevice.image.view 512) 65536)

theorem value_splitRootVolume {c : ℕ} (h₂ : c ≠ 2) (h₄ : c ≠ 4) : splitRootVolume.value c = 0 := by
  have hbyte : ∀ i < 4, splitRootDevice.image.view 512 (c * 4 + i) = 0 := by
    intro i hi
    unfold Image.view splitRootDevice
    dsimp only
    rw [Image.write_apply_of_not_mem, Image.write_apply_of_not_mem, if_neg (by omega)]
    · show _ ∨ 520 + 1 ≤ _
      omega
    · show _ ∨ 528 + 4 ≤ _
      omega
  have hzero : rd32 (splitRootDevice.image.view 512) (c * 4) = rd32 (fun _ ↦ 0) 0 :=
    rd32_congr hbyte
  show decodeTable .fat32 _ 65536 c &&& _ = 0
  unfold decodeTable
  split_ifs
  · show (rd32 _ (c * 4) &&& _) &&& _ = 0
    rw [hzero]
    rfl
  · exact Nat.zero_and _

theorem fat32Load_splitRootDevice : fat32Load 2 splitRootDevice false = .ok splitRootVolume := rfl

theorem filesystemRootChain_splitRootVolume : filesystemRootChain splitRootVolume = .ok [2, 4] := by
  decide +kernel

/-- Two clusters are in use, and the root directory has them. -/
theorem scanFiles_splitRootVolume : scanFiles splitRootVolume = .ok ⟨[], [], [2], [2, 4]⟩ := by
  have hwalk :
    scanDirectory splitRootVolume 129 splitRootVolume.rootCluster [] ⟨[], [], [], [2, 4]⟩ =
      .ok ⟨[], [], [2], [2, 4]⟩ := by
    decide +kernel
  have hcheck :
    forM (range' 2 (splitRootVolume.maxCluster - 1)) (checkCluster splitRootVolume [2, 4]) =
      .ok () := by
    refine forM_eq_ok.2 fun c hc ↦ ?_
    have hle := (mem_range'_1.1 hc).2
    by_cases hroot : c = 2 ∨ c = 4
    · rcases hroot with rfl | rfl <;> decide +kernel
    · push Not at hroot
      refine (checkCluster_eq_ok (fat32Load_loaded fat32Load_splitRootDevice).1.toLayout ?_).2
        (.inl ?_)
      · have : 2 ≤ splitRootVolume.maxCluster := by decide
        omega
      · exact value_splitRootVolume hroot.1 hroot.2
  have hclaim : claimChain [] [2, 4] "<root directory>".toUTF8.toList = .ok [2, 4] :=
    claimChain_eq_ok.2 (by decide)
  rw [scanFiles, filesystemRootChain_splitRootVolume, ok_bind, hclaim, ok_bind]
  show (do
    let s ← scanDirectory splitRootVolume 129 splitRootVolume.rootCluster [] ⟨[], [], [], [2, 4]⟩
    forM (range' 2 (splitRootVolume.maxCluster - 1)) (checkCluster splitRootVolume s.claimed)
    return s) = _
  rw [hwalk, ok_bind, hcheck, ok_bind]
  rfl

/-- **The printed map counts one fragmented directory less than the live one.** -/
theorem maps_split_root : ∃ printed live, fat32Load 2 splitRootDevice false = .ok splitRootVolume ∧
    scanFiles splitRootVolume = .ok ⟨[], [], [2], [2, 4]⟩ ∧
    printMapJson splitRootVolume [] 1 = .ok printed ∧ buildLiveMapCells splitRootVolume [] 1 =
      .ok live ∧
    printed.fragmentedDirectories = 0 ∧ live.fragmentedDirs = 1 := by
  have hprinted : (printMapJson splitRootVolume [] 1).toOption.any
      (fun m ↦ m.fragmentedDirectories = 0) = true := by
    decide +kernel
  have hlive : (buildLiveMapCells splitRootVolume [] 1).toOption.any
      (fun m ↦ m.fragmentedDirs = 1) = true := by
    decide +kernel
  obtain ⟨printed, hprinted, hnone⟩ := exists_ok_of_any hprinted
  obtain ⟨live, hlive, hone⟩ := exists_ok_of_any hlive
  exact ⟨printed, live, fat32Load_splitRootDevice, scanFiles_splitRootVolume, hprinted, hlive,
    of_decide_eq_true hnone, of_decide_eq_true hone⟩

/-- A file in two fragments; the root directory has no clusters. -/
theorem maps_agree_twoClusterDevice : ∃ printed live rootFragments,
    printMapJson (floppyVolume twoClusterDevice)
      [⟨[0x41], 1024, 2, 600, 0x20, false, [2, 4]⟩] 4 = .ok printed ∧
      buildLiveMapCells (floppyVolume twoClusterDevice)
        [⟨[0x41], 1024, 2, 600, 0x20, false, [2, 4]⟩] 4 = .ok live ∧
      filesystemRootFragments (floppyVolume twoClusterDevice) = .ok rootFragments ∧
      (MapsAgree (floppyVolume twoClusterDevice) printed live ↔ rootFragments ≤ 1) :=
  maps_agree_iff fat32Load_twoClusterDevice scanFiles_twoClusterDevice 4

end LinuxDefragger.Fat
