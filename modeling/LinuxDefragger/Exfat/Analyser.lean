import LinuxDefragger.Exfat.Growth
import LinuxDefragger.Gui.Ranges
import LinuxDefragger.Storage.Crash

/-!
# The exFAT analyser

The analyser draws the map of a volume and counts its files and directories. It has its own
functions to follow a FAT chain and to walk the tree, written apart from those of the engine, and it
tells whether the volume has the growth layout with ten percent.

Where both accept a volume, the two walks list the same objects (`walk_scanDirectory`). The verdicts
still differ: the analyser does not look at the pieces of a subdirectory.
-/

open Except List Storage

namespace LinuxDefragger.Exfat.Analyser

/-! ### Chains and streams -/

/-- `fat_next` -/
def fatNext (fat : List UInt8) (c : ℕ) : Except PyError ℕ :=
  if fat.length < c * 4 + 4 then throw (.engine "exFAT FAT chain exceeds FAT" [])
  else pure (rd32 (bytesImage fat) (c * 4))

/-- The loop of `chain`, as the engine's but for the test of the cluster. -/
def chainLoop (b : Boot) (fat : List UInt8) (count : Option ℕ) :
    ℕ → ℕ → List ℕ → Except PyError (List ℕ)
  | 0, _, _ => throw (.engine "exFAT FAT loop" [])
  | fuel + 1, c, out =>
    if c < 2 ∨ 0xFFFFFFF8 ≤ c then pure out
    else if c ∈ out then throw (.engine "exFAT FAT loop" [])
    else if b.cc + 2 ≤ c then throw (.engine "exFAT FAT chain exceeds the cluster heap" [])
    else if count.any fun n ↦ n ≤ out.length + 1 then pure (out ++ [c])
    else do
      let next ← fatNext fat c
      chainLoop b fat count fuel next (out ++ [c])

/-- `chain` -/
def chain (b : Boot) (fat : List UInt8) (first : ℕ) (count : Option ℕ) (contiguous : Bool) :
    Except PyError (List ℕ) :=
  if first = 0 then pure []
  else
    match count, contiguous with
    | none, true => throw (.engine "contiguous stream length is missing" [])
    | some n, true => do
      raiseIf (first < 2 ∨ b.cc + 2 < first + n) "contiguous exFAT stream exceeds the cluster heap"
        []
      return List.range' first n
    | some n, false => do
      let out ← chainLoop b fat count (fat.length / 4 + 2) first []
      raiseIf (out.length ≠ n) "short exFAT FAT chain" []
      return out
    | none, false => chainLoop b fat none (fat.length / 4 + 2) first []

/-- `cluster_off` -/
def clusterOff (b : Boot) (c : ℕ) : Except PyError ℕ :=
  if c < 2 ∨ b.cc + 2 ≤ c then throw (.engine "invalid exFAT cluster %u" [c])
  else pure ((b.heapOff + (c - 2) * b.spc) * b.bps)

/-- `read_stream` -/
def readStream (d : Device) (b : Boot) (clusters : List ℕ) (length : ℕ) :
    Except PyError (List UInt8) := do
  let chunks ← clusters.mapM fun c ↦ do d.read (← clusterOff b c) b.cs
  return chunks.flatten.take length

/-! ### The walk -/

/-- The variables that `scan_directory` shares with `map`. The two sets hold cluster indices. -/
structure Scan where
  regularFiles : ℕ
  directories : ℕ
  fragmentedFiles : ℕ
  fragmentedDirectories : ℕ
  growth10Satisfied : Bool
  fragmentedIndices : List ℕ
  directoryIndices : List ℕ
  visited : List ℕ

/-- `set.update(cluster - 2 for cluster in clusters)` -/
def addIndices (indices clusters : List ℕ) : List ℕ :=
    clusters.foldl (fun s c ↦ s.insert (c - 2)) indices

/-- The free clusters from `c` on, of which `reserve` are counted at most. -/
def availableAfter (b : Boot) (bitmap : List UInt8) : ℕ → ℕ → ℕ
  | 0, _ => 0
  | reserve + 1, c =>
    if c < b.cc + 2 ∧ bitAt bitmap (c - 2) = false then 1 + availableAfter b bitmap reserve (c + 1)
    else 0

/-- The file has its pieces in one and its room behind it. -/
def fileSatisfied (b : Boot) (bitmap : List UInt8) (clusters : List ℕ) : Bool :=
  fragments clusters ≤ 1 && (clusters = [] ||
    (clusters.length * 10 + 99) / 100 ≤
      availableAfter b bitmap ((clusters.length * 10 + 99) / 100) (clusters.getLastD 0 + 1))

/-- A regular file is counted. -/
def Scan.addFile (st : Scan) (b : Boot) (bitmap : List UInt8) (clusters : List ℕ) : Scan :=
  { st with
    regularFiles := st.regularFiles + 1
    fragmentedFiles := if fragments clusters > 1 then st.fragmentedFiles + 1 else st.fragmentedFiles
    fragmentedIndices :=
      if fragments clusters > 1 then addIndices st.fragmentedIndices clusters
        else st.fragmentedIndices
    growth10Satisfied := st.growth10Satisfied && fileSatisfied b bitmap clusters }

/-- A subdirectory is counted. -/
def Scan.addDirectory (st : Scan) (clusters : List ℕ) : Scan :=
  { st with
    directories := st.directories + 1
    directoryIndices := addIndices st.directoryIndices clusters
    fragmentedDirectories :=
      if fragments clusters > 1 then st.fragmentedDirectories + 1 else st.fragmentedDirectories
    fragmentedIndices :=
      if fragments clusters > 1 then addIndices st.fragmentedIndices clusters
        else st.fragmentedIndices }

section Walk

variable (d : Device) (b : Boot) (fat bitmap : List UInt8)

/-- `child_count` -/
def childCount (length : ℕ) : ℕ := if length = 0 then 0 else ceilDiv length b.cs

/-- `chain(child_first, child_count, contiguous=child_no_fat) if child_count else []` -/
def childClusters (s : FileSet) : Except PyError (List ℕ) :=
  if childCount b s.length = 0 then pure []
  else chain b fat s.first (some (childCount b s.length)) s.nofat

/-- `scan_directory` -/
def scanDirectory : ℕ → ℕ → ℕ → Bool → Scan → Except PyError Scan
  | 0, _, _, _, _ => throw (.engine "maximum recursion depth exceeded" [])
  | fuel + 1, first, length, nofat, st => do
    let clusters ← chain b fat first (some (if length = 0 then 1 else ceilDiv length b.cs)) nofat
    let data ← readStream d b clusters (clusters.length * b.cs)
    scanSets (fun _ _ ↦ pure ())
      (fun st s ↦ do
        let child ← childClusters b fat s
        if s.isDir then
          let st := st.addDirectory child
          if s.first ≠ 0 ∧ s.length ≠ 0 ∧ s.first ∉ st.visited then
            scanDirectory fuel s.first s.length s.nofat { st with visited := s.first :: st.visited }
          else pure st
        else pure (st.addFile b bitmap child))
      (bytesImage data) data.length (data.length / 32) 0 st

end Walk

/-! ### The map -/

/-- The loop for the bitmap entry in the root directory, from slot `o` on: first cluster and
length. -/
def lastBitmap (data : List UInt8) : List ℕ → Option (ℕ × ℕ) → Option (ℕ × ℕ)
  | [], found => found
  | o :: rest, found =>
    let p := bytesImage data
    if data.length < o + 32 ∨ p o = 0 then found
    else if p o = 0x81 then
      let found := some (rd32 p (o + 20), rd64 p (o + 24))
      if p (o + 1) &&& 1 ≠ 0 then found else lastBitmap data rest found
    else lastBitmap data rest found

/-- `result["cells"][cell_index][key] += 1` for every index, with `bump` for the key. -/
def overlay (bump : Gui.Cell → Gui.Cell) (clusterCount cellCount : ℕ) (cells : List Gui.Cell)
    (indices : List ℕ) : List Gui.Cell :=
  indices.foldl (fun cells i ↦
    if i < clusterCount then cells.modify (min (cellCount - 1) (i * cellCount / clusterCount)) bump
    else cells) cells

/-- What `map` returns. -/
structure Report where
  map : Gui.MapResult
  regularFiles : ℕ
  directories : ℕ
  fragmentedFiles : ℕ
  fragmentedDirectories : ℕ
  growth10Satisfied : Bool

/-- The result of `aggregate_bitmap`, whose exception is not handled. -/
def liftMap : Except Gui.MapError Gui.MapResult → Except PyError Gui.MapResult
  | .ok r => .ok r
  | .error (.backend message) => .error (.engine message [])
  | .error .indexError => .error .indexError

/-- The variables before the walk. -/
def Scan.start (root : ℕ) (rootClusters : List ℕ) : Scan where
  regularFiles := 0
  directories := 1
  fragmentedFiles := 0
  fragmentedDirectories := if fragments rootClusters > 1 then 1 else 0
  growth10Satisfied := fragments rootClusters = 1
  fragmentedIndices := if fragments rootClusters > 1 then addIndices [] rootClusters else []
  directoryIndices := addIndices [] rootClusters
  visited := [root]

/-- `ExfatBackend.map` up to the walk: the boot sector, the bitmap and the counters. -/
def survey (d : Device) : Except PyError (Boot × List UInt8 × Scan) := do
  let b ← Boot.ofSector (← d.read 0 512)
  raiseIf (b.cc < 1 ∨ b.root < 2) "invalid exFAT geometry" []
  let fat ← d.read (b.fatOff * b.bps) (b.fatLen * b.bps)
  let rootClusters ← chain b fat b.root none false
  let rootData ← readStream d b rootClusters (rootClusters.length * b.cs)
  match lastBitmap rootData (slots rootData) none with
  | none => throw (.engine "exFAT allocation bitmap entry not found" [])
  | some (bitmapCluster, bitmapLength) =>
    let bitmapClusters ← chain b fat bitmapCluster (some (ceilDiv bitmapLength b.cs)) false
    let bitmap ← readStream d b bitmapClusters bitmapLength
    raiseIf (bitmap.length * 8 < b.cc) "exFAT allocation bitmap is shorter than the cluster heap" []
    let scan ← scanDirectory d b fat bitmap (b.cc + 3) b.root (rootClusters.length * b.cs) false
      (.start b.root rootClusters)
    return (b, bitmap, scan)

/-- `ExfatBackend.map` -/
def map (d : Device) (cells : ℤ) : Except PyError Report := do
  let (b, bitmap, scan) ← survey d
  let result ← liftMap (Gui.aggregateBitmap bitmap b.cc cells b.cs "exfat" 0)
  let drawn := overlay (fun cell ↦ { cell with directory := cell.directory + 1 }) b.cc
    result.cellCount result.cells scan.directoryIndices
  let drawn := overlay (fun cell ↦ { cell with fragmented := cell.fragmented + 1 }) b.cc
    result.cellCount drawn scan.fragmentedIndices
  return {
    map := { result with cells := drawn }
    regularFiles := scan.regularFiles
    directories := scan.directories
    fragmentedFiles := scan.fragmentedFiles
    fragmentedDirectories := scan.fragmentedDirectories
    growth10Satisfied := scan.growth10Satisfied && 0 < scan.regularFiles }

/-! ### Both accept -/

section Agreement

variable {b : Boot} {fat : List UInt8} {d : Device} {clusters : List ℕ} {count : Option ℕ}

theorem fatNext_eq_ok {c n : ℕ} (h : fatNext fat c = .ok n) : fatget fat c = .ok n := by
  unfold fatNext at h
  split at h
  · cases h
  · rename_i hlen
    exact u32_eq_ok.2 ⟨not_lt.1 hlen, ok.inj h⟩

/-- What the analyser's loop lists, the engine's does, and it lies in the volume. -/
theorem chainLoop_eq_ok {fuel c : ℕ} {out : List ℕ}
    (h : chainLoop b fat count fuel c out = .ok clusters) :
    Exfat.chainLoop fat count fuel c out = .ok clusters ∧
      ((∀ x ∈ out, 2 ≤ x ∧ x < b.cc + 2) → ∀ x ∈ clusters, 2 ≤ x ∧ x < b.cc + 2) := by
  induction fuel generalizing c out with
  | zero => cases h
  | succ fuel ih =>
    rw [chainLoop] at h
    rw [Exfat.chainLoop]
    split at h
    · rename_i hend
      rw [if_pos hend]
      exact ⟨h, fun hout ↦ ok.inj h ▸ hout⟩
    rename_i hend
    rw [if_neg hend]
    split at h
    · cases h
    rename_i hseen
    rw [if_neg hseen]
    split at h
    · cases h
    rename_i hbound
    have happend : (∀ x ∈ out, 2 ≤ x ∧ x < b.cc + 2) → ∀ x ∈ out ++ [c], 2 ≤ x ∧ x < b.cc + 2 := by
      intro hout x hx
      rcases mem_append.1 hx with hx | hx
      · exact hout x hx
      · obtain rfl := mem_singleton.1 hx
        omega
    split at h
    · rename_i hfull
      rw [if_pos hfull]
      exact ⟨h, fun hout ↦ ok.inj h ▸ happend hout⟩
    · rename_i hfull
      rw [if_neg hfull]
      obtain ⟨next, hnext, h⟩ := bind_eq_ok.1 h
      obtain ⟨hloop, hbounds⟩ := ih h
      exact ⟨by rw [fatNext_eq_ok hnext]; exact hloop, fun hout ↦ hbounds (happend hout)⟩

theorem chain_eq_ok {first : ℕ} {contiguous : Bool}
    (h : chain b fat first count contiguous = .ok clusters) :
    Exfat.chain fat first count contiguous = .ok clusters ∧ ∀ x ∈ clusters, 2 ≤ x ∧
    x < b.cc + 2 := by
  unfold chain at h
  unfold Exfat.chain
  split at h
  · rename_i hzero
    rw [if_pos hzero]
    exact ⟨h, ok.inj h ▸ forall_mem_nil _⟩
  rename_i hzero
  rw [if_neg hzero]
  cases count with
  | none =>
    cases contiguous with
    | true => cases h
    | false => exact ⟨(chainLoop_eq_ok h).1, (chainLoop_eq_ok h).2 (forall_mem_nil _)⟩
  | some n =>
    cases contiguous with
    | true =>
      obtain ⟨hbounds, h⟩ := raiseIf_bind_eq_ok.1 h
      refine ⟨h, fun x hx ↦ ?_⟩
      rw [← ok.inj h, mem_range'_1] at hx
      omega
    | false =>
      obtain ⟨out, hout, h⟩ := bind_eq_ok.1 h
      obtain ⟨hlength, h⟩ := raiseIf_bind_eq_ok.1 h
      obtain rfl := ok.inj h
      obtain ⟨hloop, hbounds⟩ := chainLoop_eq_ok hout
      refine ⟨?_, hbounds (forall_mem_nil _)⟩
      dsimp only
      rw [hloop, ok_bind, raiseIf_bind_of_not hlength]
      rfl

theorem clusterOff_eq_ok {c o : ℕ} : clusterOff b c = .ok o ↔ b.coff c = .ok o := by
  unfold clusterOff Boot.coff
  split
  · exact ⟨nofun, nofun⟩
  · exact .rfl

theorem readStream_eq_ok {length : ℕ} {data : List UInt8} :
    readStream d b clusters length = .ok data ↔ Exfat.readStream d b clusters length =
      .ok data := by
  have hchunks : ∀ chunks, clusters.mapM (fun c ↦ do d.read (← clusterOff b c) b.cs) = .ok chunks ↔
      clusters.mapM (fun c ↦ do d.read (← b.coff c) b.cs) = .ok chunks := by
    intro chunks
    rw [mapM_eq_ok, mapM_eq_ok]
    refine Iff.of_eq (congrArg (fun R ↦ Forall₂ R clusters chunks) ?_)
    funext c chunk
    simp only [bind_eq_ok, clusterOff_eq_ok]
  rw [readStream, Exfat.readStream, readClusters]
  simp only [bind_eq_ok, hchunks, pure_eq_ok, ok.injEq]
  constructor
  · rintro ⟨chunks, h, rfl⟩
    exact ⟨_, ⟨chunks, h, rfl⟩, rfl⟩
  · rintro ⟨_, ⟨chunks, h, rfl⟩, rfl⟩
    exact ⟨chunks, h, rfl⟩

/-- The analyser counts all the clusters it wants just if they are free. -/
theorem availableAfter_eq_iff {v : Volume} (reserve c : ℕ) :
    reserve ≤ availableAfter v.boot v.bitmap reserve c ↔ v.FreeFrom c reserve := by
  induction reserve generalizing c with
  | zero => simp [Volume.FreeFrom]
  | succ reserve ih =>
    have hstep : v.FreeFrom c (reserve + 1) ↔
        (c < v.boot.cc + 2 ∧ bitAt v.bitmap (c - 2) = false) ∧ v.FreeFrom (c + 1) reserve := by
      constructor
      · refine fun h ↦ ⟨h 0 (by omega), fun i hi ↦ ?_⟩
        have := h (i + 1) (by omega)
        rwa [show c + (i + 1) = c + 1 + i by omega] at this
      · rintro ⟨hfirst, h⟩ i hi
        cases i with
        | zero => exact hfirst
        | succ i =>
          have := h i (by omega)
          rwa [show c + 1 + i = c + (i + 1) by omega] at this
    rw [availableAfter, hstep, ← ih]
    split
    · rename_i hfree
      rw [and_iff_right hfree]
      omega
    · rename_i hfree
      exact ⟨fun h ↦ by omega, fun h ↦ absurd h.1 hfree⟩

theorem fileSatisfied_iff {v : Volume} (e : Entry) :
    fileSatisfied v.boot v.bitmap e.clusters ↔ v.HasRoom 10 e := by
  rw [fileSatisfied, Bool.and_eq_true, decide_eq_true_iff, fragments_le_one_iff, Bool.or_eq_true,
    decide_eq_true_iff, decide_eq_true_iff, availableAfter_eq_iff, Volume.HasRoom]
  refine and_congr_right fun _ ↦ ?_
  by_cases hnil : e.clusters = []
  · simp [hnil, growthReserve, Volume.FreeFrom]
  · rw [growthReserve, if_neg hnil, or_iff_right hnil]

end Agreement

/-! ### The two walks -/

/-- The analyser has counted the entries that the engine has listed. -/
structure Counted (v : Volume) (root : Bool) (st : ParseState) (a : Scan) : Prop where
  visited : a.visited = st.visited
  regular : 0 < a.regularFiles ↔ ∃ e ∈ st.out, e.isDir = false
  growth : a.growth10Satisfied = true ↔
    root = true ∧ ∀ e ∈ st.out, e.isDir = false → v.HasRoom 10 e
  bounds : ∀ e ∈ st.out, ∀ c ∈ e.clusters, 2 ≤ c

section Walk

variable {v : Volume} {root : Bool} {st st' : ParseState} {a a' : Scan}

theorem Counted.addFile (h : Counted v root st a) {e : Entry} (he : e.isDir = false)
    (hbounds : ∀ c ∈ e.clusters, 2 ≤ c) :
    Counted v root { st with out := st.out ++ [e] } (a.addFile v.boot v.bitmap e.clusters) where
  visited := h.visited
  regular := ⟨fun _ ↦ ⟨e, by simp, he⟩, fun _ ↦ Nat.succ_pos _⟩
  growth := by
    simp only [Scan.addFile, Bool.and_eq_true, h.growth, fileSatisfied_iff, forall_mem_append,
      forall_mem_singleton, he, forall_const, and_assoc]
  bounds := by
    simpa only [forall_mem_append, forall_mem_singleton] using ⟨h.bounds, hbounds⟩

theorem Counted.addDirectory (h : Counted v root st a) {e : Entry} (he : e.isDir = true)
    (hbounds : ∀ c ∈ e.clusters, 2 ≤ c) :
    Counted v root { st with out := st.out ++ [e] } (a.addDirectory e.clusters) where
  visited := h.visited
  regular := by
    simp only [Scan.addDirectory, h.regular, mem_append, mem_singleton, or_and_right,
      exists_or, exists_eq_left, he, Bool.true_eq_false, or_false]
  growth := by
    simp only [Scan.addDirectory, h.growth, forall_mem_append, forall_mem_singleton, he,
      Bool.true_eq_false, false_imp_iff, and_true]
  bounds := by
    simpa only [forall_mem_append, forall_mem_singleton] using ⟨h.bounds, hbounds⟩

theorem childClusters_eq_ok {s : FileSet} {clusters : List ℕ}
    (h : childClusters v.boot v.fat s = .ok clusters) :
    v.fileClusters s.first s.length s.nofat = .ok clusters ∧ ∀ c ∈ clusters, 2 ≤ c := by
  unfold childClusters at h
  unfold Volume.fileClusters
  rw [show v.fileCount s.length = childCount v.boot s.length from rfl]
  split at h
  · rename_i hzero
    rw [if_pos hzero]
    exact ⟨h, ok.inj h ▸ nofun⟩
  · rename_i hzero
    rw [if_neg hzero]
    exact ⟨(chain_eq_ok h).1, fun c hc ↦ ((chain_eq_ok h).2 c hc).1⟩

/-- **The two walks** of a volume list the same objects. -/
theorem walk_scanDirectory {fuel : ℕ} {path : List (List UInt8)} {first length : ℕ} {nofat : Bool}
    (hwalk : v.walk fuel path first length nofat st = .ok st')
    (hscan : scanDirectory v.device v.boot v.fat v.bitmap fuel first length nofat a = .ok a')
    (hnew : first ∉ st.visited)
    (h : Counted v root { st with visited := first :: st.visited } a) : Counted v root st' a' := by
  induction fuel generalizing path first length nofat st st' a a' with
  | zero => cases hwalk
  | succ fuel ih =>
    rw [Volume.walk, if_neg hnew] at hwalk
    rw [scanDirectory] at hscan
    obtain ⟨clusters, hchain, hwalk⟩ := bind_eq_ok.1 hwalk
    obtain ⟨data, hdata, hwalk⟩ := bind_eq_ok.1 hwalk
    obtain ⟨clusters', hchain', hscan⟩ := bind_eq_ok.1 hscan
    obtain ⟨data', hdata', hscan⟩ := bind_eq_ok.1 hscan
    obtain rfl : clusters = clusters' := by
      have := (chain_eq_ok hchain').1
      rw [← Volume.dirCount, hchain] at this
      exact ok.inj this
    obtain rfl : data = data' := by
      have := readStream_eq_ok.1 hdata'
      rw [← Volume.dirData, hdata] at this
      exact ok.inj this
    obtain ⟨-, hfold⟩ := scanSets_eq_ok_iff.1 hwalk
    obtain ⟨-, hfold'⟩ := scanSets_eq_ok_iff.1 hscan
    refine foldlM_rel (R := Counted v root) ?_ hfold hfold' h
    -- one set, seen by both
    intro s _ st₁ a₁ st₂ a₂ hst hf hg
    obtain ⟨fcl, hfcl, hf⟩ := bind_eq_ok.1 hf
    obtain ⟨fcl', hfcl', hg⟩ := bind_eq_ok.1 hg
    obtain ⟨hsame, hbounds⟩ := childClusters_eq_ok hfcl'
    obtain rfl := ok.inj (hsame.symm.trans hfcl)
    cases hdir : s.isDir with
    | false =>
      rw [if_neg (by simp [hdir])] at hf
      rw [if_neg (by simp [hdir])] at hg
      obtain rfl := ok.inj hf
      obtain rfl := ok.inj hg
      exact hst.addFile (e := Volume.entryOf path clusters s fcl') hdir hbounds
    | true =>
      have hst' := hst.addDirectory (e := Volume.entryOf path clusters s fcl') hdir hbounds
      rw [if_pos hdir] at hg
      by_cases henter : s.first ≠ 0 ∧ s.length ≠ 0
      · rw [if_pos ⟨hdir, henter⟩] at hf
        by_cases hseen : s.first ∈ st₁.visited
        · -- both have been there
          rw [if_neg fun hc ↦ hc.2.2 (hst.visited ▸ hseen)] at hg
          obtain rfl := ok.inj hg
          cases fuel with
          | zero => cases hf
          | succ fuel =>
            rw [Volume.walk, if_pos hseen] at hf
            obtain rfl := ok.inj hf
            exact hst'
        · rw [if_pos ⟨henter.1, henter.2, fun hc ↦ hseen (hst.visited ▸ hc)⟩] at hg
          refine ih hf hg hseen ⟨?_, hst'.regular, hst'.growth, hst'.bounds⟩
          exact congrArg (s.first :: ·) hst.visited
      · rw [if_neg fun hc ↦ henter hc.2] at hf
        rw [if_neg fun hc ↦ henter ⟨hc.1, hc.2.1⟩] at hg
        obtain rfl := ok.inj hf
        obtain rfl := ok.inj hg
        exact hst'

end Walk

/-! ### The verdicts -/

/-- The slots of a root directory, up to its end, that describe an allocation bitmap. -/
def bitmapSlots (data : List UInt8) (offsets : List ℕ) : List ℕ :=
  (offsets.takeWhile fun o ↦ o + 32 ≤ data.length ∧ bytesImage data o ≠ 0).filter fun o ↦
    bytesImage data o = 0x81

/-- The volume has one allocation bitmap. -/
def OneBitmap (v : Volume) : Prop :=
  ∃ data, v.rootChain >>= v.dirData = .ok data ∧ (bitmapSlots data (slots data)).length = 1

section Verdict

variable {data : List UInt8} {offsets : List ℕ}

theorem bitmapSlots_cons (o : ℕ) (rest : List ℕ) : bitmapSlots data (o :: rest) =
    if data.length < o + 32 ∨ bytesImage data o = 0 then []
    else if bytesImage data o = 0x81 then o :: bitmapSlots data rest else bitmapSlots data
        rest := by
  simp only [bitmapSlots, takeWhile_cons, decide_eq_true_eq, ← not_lt, ne_eq, ← not_or]
  split_ifs with hend htype
  · rfl
  · exact filter_cons_of_pos (decide_eq_true htype)
  · exact filter_cons_of_neg (by simpa using htype)

theorem lastBitmap_of_nil (h : bitmapSlots data offsets = []) (found : Option (ℕ × ℕ)) :
    lastBitmap data offsets found = found := by
  induction offsets with
  | nil => rfl
  | cons o rest ih =>
    rw [bitmapSlots_cons] at h
    rw [lastBitmap]
    dsimp only
    by_cases hend : data.length < o + 32 ∨ bytesImage data o = 0
    · rw [if_pos hend]
    · rw [if_neg hend] at h ⊢
      by_cases htype : bytesImage data o = 0x81
      · rw [if_pos htype] at h
        cases h
      · rw [if_neg htype] at h ⊢
        exact ih h

/-- With one bitmap, both find it. -/
theorem lastBitmap_of_findBitmap {found : ℕ × ℕ} (hone : (bitmapSlots data offsets).length = 1)
    (h : findBitmap data offsets = .ok found) : lastBitmap data offsets none = some found := by
  induction offsets with
  | nil => cases h
  | cons o rest ih =>
    rw [bitmapSlots_cons] at hone
    rw [findBitmap] at h
    rw [lastBitmap]
    dsimp only
    by_cases hend : data.length < o + 32 ∨ bytesImage data o = 0
    · rw [if_pos hend] at hone
      cases hone
    rw [if_neg hend] at hone ⊢
    rw [if_neg fun hzero ↦ hend (.inr hzero)] at h
    by_cases htype : bytesImage data o = 0x81
    · rw [if_pos htype] at hone h ⊢
      obtain ⟨first, hfirst, h⟩ := bind_eq_ok.1 h
      obtain ⟨length, hlength, h⟩ := bind_eq_ok.1 h
      obtain rfl := ok.inj h
      have hrest : bitmapSlots data rest = [] := length_eq_zero_iff.1 (Nat.succ_injective hone)
      rw [(u32_eq_ok.1 hfirst).2, (u64_eq_ok.1 hlength).2, lastBitmap_of_nil hrest, ite_self]
    · rw [if_neg htype] at hone h ⊢
      exact ih hone h

variable {d : Device} {v : Volume} {writable : Bool}

/-- What the analyser has read of a volume with one FAT and one bitmap that the engine opens. -/
theorem survey_eq_ok (hopen : Volume.open d writable = .ok v) (hfats : v.boot.numberOfFats = 1)
    (hone : OneBitmap v) {b : Boot} {bitmap : List UInt8} {scan : Scan}
    (h : survey d = .ok (b, bitmap, scan)) :
    b = v.boot ∧ bitmap = v.bitmap ∧ v.boot.cc ≤ v.bitmap.length * 8 ∧
      ∃ root, v.rootChain = .ok root ∧ root ≠ [] ∧
        scanDirectory v.device v.boot v.fat v.bitmap (v.boot.cc + 3) v.boot.root
          (root.length * v.boot.cs) false (.start v.boot.root root) = .ok scan := by
  obtain ⟨rfl, -, hboot, -, hfat, root, data, found, hroot, hdata, hfound, hclusters, hbitmap⟩ :=
    Volume.open_eq_ok_iff.1 hopen
  have hne : root ≠ [] := by
    rintro rfl
    -- there is no bitmap in an empty directory
    have hnil : v.dirData [] = .ok [] := by simp [Volume.dirData, Exfat.readStream, readClusters]
    obtain rfl := ok.inj (hnil.symm.trans hdata)
    cases hfound
  unfold survey at h
  obtain ⟨sector, hsector, h⟩ := bind_eq_ok.1 h
  obtain ⟨b', hb', h⟩ := bind_eq_ok.1 h
  obtain rfl : b' = v.boot := by
    rw [hsector] at hboot
    exact ok.inj (hb'.symm.trans hboot)
  obtain ⟨hgeometry, h⟩ := raiseIf_bind_eq_ok.1 h
  obtain ⟨fat, hfat', h⟩ := bind_eq_ok.1 h
  obtain rfl : fat = v.fat := by
    rw [Boot.activeFatOffset, hfats, if_neg (by decide), Nat.zero_mul, Nat.add_zero] at hfat
    exact ok.inj (hfat'.symm.trans hfat)
  obtain ⟨root', hroot', h⟩ := bind_eq_ok.1 h
  obtain rfl : root' = root := ok.inj ((chain_eq_ok hroot').1.symm.trans hroot)
  obtain ⟨data', hdata', h⟩ := bind_eq_ok.1 h
  obtain rfl : data' = data := ok.inj ((readStream_eq_ok.1 hdata').symm.trans hdata)
  obtain ⟨data₁, hdata₁, hslots⟩ := hone
  rw [hroot, ok_bind, hdata] at hdata₁
  obtain rfl := ok.inj hdata₁
  rw [lastBitmap_of_findBitmap hslots hfound] at h
  obtain ⟨clusters', hclusters', h⟩ := bind_eq_ok.1 h
  obtain rfl := ok.inj ((chain_eq_ok hclusters').1.symm.trans hclusters)
  obtain ⟨bitmap', hbitmap', h⟩ := bind_eq_ok.1 h
  obtain rfl := ok.inj ((readStream_eq_ok.1 hbitmap').symm.trans hbitmap)
  obtain ⟨hlong, h⟩ := raiseIf_bind_eq_ok.1 h
  obtain ⟨scan', hscan, h⟩ := bind_eq_ok.1 h
  cases h
  exact ⟨rfl, rfl, not_lt.1 hlong, _, hroot, hne, hscan⟩

/-- The files of the volume have the growth layout with ten percent, and so has the root
directory. -/
def FilesReady (v : Volume) (root : List ℕ) (entries : List Entry) : Prop :=
  contiguous root = true ∧ ∀ e ∈ entries, e.isDir = false → v.HasRoom 10 e

/-- The counters of the analyser, for the entries that the engine lists. -/
theorem survey_counted (hopen : Volume.open d writable = .ok v) (hfats : v.boot.numberOfFats = 1)
    (hone : OneBitmap v) {entries : List Entry} (hparse : v.parse = .ok entries) {b : Boot}
    {bitmap : List UInt8} {scan : Scan} (h : survey d = .ok (b, bitmap, scan)) :
    ∃ root, v.rootChain = .ok root ∧ v.boot.cc ≤ v.bitmap.length * 8 ∧
      (∀ e ∈ entries, ∀ c ∈ e.clusters, 2 ≤ c) ∧
      (0 < scan.regularFiles ↔ ∃ e ∈ entries, e.isDir = false) ∧
      (scan.growth10Satisfied = true ↔ FilesReady v root entries) := by
  obtain ⟨rfl, rfl, hlong, root, hroot, hne, hscan⟩ := survey_eq_ok hopen hfats hone h
  unfold Volume.parse at hparse
  rw [hroot, ok_bind] at hparse
  obtain ⟨st, hwalk, hparse⟩ := bind_eq_ok.1 hparse
  obtain rfl := ok.inj hparse
  have hstart : Counted v (contiguous root) ⟨[], [v.boot.root]⟩ (.start v.boot.root root) := by
    refine ⟨rfl, by simp [Scan.start], ?_, nofun⟩
    simp [Scan.start, fragments_eq_one_iff hne]
  have hcounted := walk_scanDirectory hwalk hscan not_mem_nil hstart
  exact ⟨root, hroot, hlong, hcounted.bounds, hcounted.regular, hcounted.growth⟩

/-- The engine's verdict, for the entries that it lists. -/
theorem growthPreflight_ok_iff {root : List ℕ} {entries : List Entry}
    (hroot : v.rootChain = .ok root)
    (hlong : v.boot.cc ≤ v.bitmap.length * 8) (hparse : v.parse = .ok entries)
    (hbounds : ∀ e ∈ entries, ∀ c ∈ e.clusters, 2 ≤ c) :
    (∃ r, v.growthPreflight 10 = .ok r ∧ r.ok = true) ↔
      FilesReady v root entries ∧ ∀ e ∈ entries, e.isDir = true → contiguous e.clusters = true := by
  obtain ⟨r, hr, hok⟩ := Volume.preflightLoop_ok_iff hlong 10 entries
    (fun e he c hc ↦ (hbounds e he c hc).trans' (by decide)) 0 0 0
  have hready :
    (∀ e ∈ entries, v.EntryReady 10 e) ↔ (∀ e ∈ entries, e.isDir = false → v.HasRoom 10 e) ∧
      ∀ e ∈ entries, e.isDir = true → contiguous e.clusters = true := by
    simp only [← forall_and]
    refine forall₂_congr fun e _ ↦ ?_
    unfold Volume.EntryReady
    cases e.isDir <;> simp
  rw [Volume.growthPreflight, hroot, ok_bind]
  cases hcont : contiguous root with
  | false => simp [FilesReady, hcont, Preflight.ok, pure, Except.pure]
  | true =>
    simp only [Bool.true_eq_false, if_false, hparse, ok_bind, hr, ok.injEq,
      exists_eq_left', hok, hready, FilesReady, hcont, true_and]

/-- **When the verdicts agree.** On a volume with one FAT, one bitmap and a regular file that both
accept, the analyser reports the growth layout just if the engine's test succeeds, unless the root
directory and all files have the layout and some subdirectory is in several pieces. -/
theorem growth_verdicts_agree_iff {entries : List Entry} {cells : ℤ} {report : Report}
    (hopen : Volume.open d writable = .ok v) (hparse : v.parse = .ok entries)
    (hmap : map d cells = .ok report) (hfats : v.boot.numberOfFats = 1) (hone : OneBitmap v)
    (hfile : ∃ e ∈ entries, e.isDir = false) :
    (report.growth10Satisfied = true ↔ ∃ r, v.growthPreflight 10 = .ok r ∧ r.ok = true) ↔
      ¬((∃ root, v.rootChain = .ok root ∧ FilesReady v root entries) ∧
        ∃ e ∈ entries, e.isDir = true ∧ contiguous e.clusters = false) := by
  unfold map at hmap
  obtain ⟨⟨b, bitmap, scan⟩, hsurvey, hmap⟩ := bind_eq_ok.1 hmap
  obtain ⟨result, -, hmap⟩ := bind_eq_ok.1 hmap
  obtain rfl := ok.inj hmap
  obtain ⟨root, hroot, hlong, hbounds, hregular, hgrowth⟩ :=
    survey_counted hopen hfats hone hparse hsurvey
  have hfiles : (∃ root', v.rootChain = .ok root' ∧ FilesReady v root' entries) ↔
      FilesReady v root entries := by
    simp [hroot]
  have hdirs : (∃ e ∈ entries, e.isDir = true ∧ contiguous e.clusters = false) ↔
      ¬∀ e ∈ entries, e.isDir = true → contiguous e.clusters = true := by
    simp
  rw [growthPreflight_ok_iff hroot hlong hparse hbounds, hfiles, hdirs]
  simp only [Bool.and_eq_true, hgrowth, decide_eq_true_eq, hregular, hfile, and_true]
  tauto

end Verdict

/-! ### A small volume -/

/-- A set of three slots: attributes, one letter of name, flags, first cluster and length. -/
def smallSet (attributes letter flags : UInt8) (first length : ℕ) : List UInt8 :=
  let set : List UInt8 := [0x85, 2, 0, 0, attributes] ++ List.replicate 27 0 ++
    [0xC0, flags, 0, 1] ++ List.replicate 4 0 ++ wr32 length ++ List.replicate 8 0 ++ wr32 first ++
    wr32 length ++ List.replicate 4 0 ++ [0xC1, 0, letter] ++ List.replicate 29 0
  set.take 2 ++ wr16 (checksumSet (bytesImage set) 0 3) ++ set.drop 4

/-- Eight clusters of 512 bytes: the bitmap in 2, the root directory in 3, a subdirectory in 4 and
`next`, and a file in 7. -/
def smallDevice (next : ℕ) : Device where
  size := 5120
  image := applyAll (fun _ ↦ 0) [
    ⟨3, [0x45, 0x58, 0x46, 0x41, 0x54, 0x20, 0x20, 0x20]⟩,
    ⟨80, wr32 1 ++ wr32 1 ++ wr32 2 ++ wr32 8 ++ wr32 3⟩,
    ⟨108, [9, 0, 1]⟩,
    ⟨520, wr32 0xFFFFFFFF ++ wr32 0xFFFFFFFF ++ wr32 next⟩,
    ⟨512 + 4 * next, wr32 0xFFFFFFFF⟩,
    ⟨1024, [UInt8.ofNat (1 + 2 + 4 + 2 ^ (next - 2) + 32)]⟩,
    ⟨1536, [0x81] ++ List.replicate 19 0 ++ wr32 2 ++ [1] ++ List.replicate 7 0 ++
      smallSet 0x10 0x44 1 4 1024 ++ smallSet 0x20 0x66 3 7 512⟩]

/-- The analyser accepts the volume; its verdict. -/
def smallVerdict (next : ℕ) : Option Bool :=
  (map (smallDevice next) 8).toOption.map Report.growth10Satisfied

/-- The engine accepts the volume; whether it lists what is expected, and its verdict. -/
def smallPreflight (next : ℕ) : Option (List (Bool × List ℕ) × Bool) := do
  let v ← (Volume.open (smallDevice next) false).toOption
  let entries ← v.parse.toOption
  let r ← (v.growthPreflight 10).toOption
  return (entries.map fun e ↦ (e.isDir, e.clusters), r.ok)

/-- **The verdicts differ** on a volume with a subdirectory in two pieces. -/
theorem fragmented_subdirectory_overlooked :
    smallVerdict 6 = some true ∧
      smallPreflight 6 = some ([(true, [4, 6]), (false, [7])], false) := by
  decide +kernel

/-- With the subdirectory in one piece they agree. -/
theorem growth_verdicts_agree_small : ∃ v entries report,
    Volume.open (smallDevice 5) false = .ok v ∧ v.parse = .ok entries ∧
      map (smallDevice 5) 8 = .ok report ∧
      (report.growth10Satisfied = true ↔ ∃ r, v.growthPreflight 10 = .ok r ∧ r.ok = true) := by
  obtain ⟨v, hopen, hv⟩ := exists_ok_of_any (x := Volume.open (smallDevice 5) false)
    (p := fun v ↦ v.boot.numberOfFats = 1 &&
      ((v.rootChain >>= v.dirData).toOption.any fun data ↦
        (bitmapSlots data (slots data)).length = 1) &&
      v.parse.toOption.any fun entries ↦ entries.any (fun e ↦ !e.isDir) &&
        entries.all fun e ↦ contiguous e.clusters) (by decide +kernel)
  simp only [Bool.and_eq_true, decide_eq_true_eq] at hv
  obtain ⟨⟨hfats, hbitmap⟩, hentries⟩ := hv
  obtain ⟨data, hdata, hslots⟩ := exists_ok_of_any hbitmap
  obtain ⟨entries, hparse, hentries⟩ := exists_ok_of_any hentries
  obtain ⟨report, hmap, -⟩ := exists_ok_of_any (x := map (smallDevice 5) 8) (p := fun _ ↦ true)
    (by decide +kernel)
  rw [Bool.and_eq_true, any_eq_true, all_eq_true] at hentries
  obtain ⟨⟨file, hfile, hregular⟩, hall⟩ := hentries
  refine ⟨v, entries, report, hopen, hparse, hmap,
    (growth_verdicts_agree_iff hopen hparse hmap hfats
    ⟨data, hdata, of_decide_eq_true hslots⟩ ⟨file, hfile, by simpa using hregular⟩).2 ?_⟩
  rintro ⟨-, e, he, -, hbroken⟩
  exact absurd (hall e he) (by rw [hbroken]; decide)

end LinuxDefragger.Exfat.Analyser
