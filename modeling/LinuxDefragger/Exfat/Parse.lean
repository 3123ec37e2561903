import LinuxDefragger.Exfat.Directory

/-!
# Reading the tree

`Volume.parse` walks the directory tree from the root and lists every set that has a stream
extension, with the clusters of the object and those of the directory it was found in. A directory
is entered once: the walk keeps the first clusters of the directories it has come to.

The path of an entry is kept as the list of its names in UTF-16. What the engine shows, the decoded
names joined by slashes, is a function of it.
-/

open Storage

namespace LinuxDefragger.Exfat

/-- `Entry` -/
structure Entry where
  path : List (List UInt8)
  isDir : Bool
  first : ℕ
  length : ℕ
  validLength : ℕ
  nofat : Bool
  parentClusters : List ℕ
  entryOff : ℕ
  entryCount : ℕ
  clusters : List ℕ
  deriving DecidableEq, Repr

/-- The variables of `parse`. -/
structure ParseState where
  out : List Entry
  visited : List ℕ

namespace Volume

variable (v : Volume)

/-- The number of clusters of an object of this length. -/
def fileCount (length : ℕ) : ℕ := if length = 0 then 0 else ceilDiv length v.boot.cs

/-- The number of clusters of a directory of this length. -/
def dirCount (length : ℕ) : ℕ := if length = 0 then 1 else ceilDiv length v.boot.cs

/-- `self.chain(fc, count, allow_contig=nf) if count else []` -/
def fileClusters (first length : ℕ) (nofat : Bool) : Except PyError (List ℕ) :=
  if v.fileCount length = 0 then pure [] else chain v.fat first (some (v.fileCount length)) nofat

/-- The entry of a set found in a directory. -/
def entryOf (path : List (List UInt8)) (parents : List ℕ) (s : FileSet) (clusters : List ℕ) :
    Entry where
  path := path ++ [s.name]
  isDir := s.isDir
  first := s.first
  length := s.length
  validLength := s.validLength
  nofat := s.nofat
  parentClusters := parents
  entryOff := s.offset
  entryCount := s.total
  clusters := clusters

/-- The bytes of a directory. -/
def dirData (clusters : List ℕ) : Except PyError (List UInt8) :=
  readStream v.device v.boot clusters (clusters.length * v.boot.cs)

/-- `walk` in `parse`. The depth of a walk is bounded by the directories entered, which start at
different clusters of the volume. -/
def walk : ℕ → List (List UInt8) → ℕ → ℕ → Bool → ParseState → Except PyError ParseState
  | 0, _, _, _, _, _ => throw (.engine "maximum recursion depth exceeded" [])
  | fuel + 1, path, first, length, nofat, st =>
    if first ∈ st.visited then pure st
    else do
      let clusters ← chain v.fat first (some (v.dirCount length)) nofat
      let data ← v.dirData clusters
      scanSets (checksumCheck (bytesImage data))
        (fun st s ↦ do
          let fcl ← v.fileClusters s.first s.length s.nofat
          let st := { st with out := st.out ++ [entryOf path clusters s fcl] }
          if s.isDir ∧ s.first ≠ 0 ∧ s.length ≠ 0 then
            walk fuel (path ++ [s.name]) s.first s.length s.nofat st
          else pure st)
        (bytesImage data) data.length (data.length / 32) 0
          { st with visited := first :: st.visited }

/-- The clusters of the root directory. -/
def rootChain : Except PyError (List ℕ) := chain v.fat v.boot.root none false

/-- `parse` -/
def parse : Except PyError (List Entry) := do
  let rootcl ← v.rootChain
  let st ← v.walk (v.boot.cc + 3) [] v.boot.root (rootcl.length * v.boot.cs) false ⟨[], []⟩
  return st.out

end Volume

/-! ### Opening a device -/

/-- **What `Volume.open` has read**, and all it reads. -/
theorem Volume.open_eq_ok_iff {d : Device} {writable : Bool} {v : Volume} :
    Volume.open d writable = .ok v ↔
      v.device = d ∧ v.writable = writable ∧ (do Boot.ofSector (← d.read 0 512)) = .ok v.boot ∧
      v.boot.check = .ok () ∧ d.read v.boot.activeFatOffset (v.boot.fatLen * v.boot.bps) =
        .ok v.fat ∧
      ∃ root data found, v.rootChain = .ok root ∧ v.dirData root = .ok data ∧
        findBitmap data (slots data) = .ok found ∧
        chain v.fat found.1 (some (ceilDiv found.2 v.boot.cs)) false = .ok v.bitmapClusters ∧
        readStream d v.boot v.bitmapClusters found.2 = .ok v.bitmap := by
  constructor
  · intro h
    unfold Volume.open at h
    obtain ⟨sector, hsector, h⟩ := bind_eq_ok.1 h
    obtain ⟨b, hb, h⟩ := bind_eq_ok.1 h
    obtain ⟨_, hcheck, h⟩ := bind_eq_ok.1 h
    obtain ⟨fat, hfat, h⟩ := bind_eq_ok.1 h
    obtain ⟨root, hroot, h⟩ := bind_eq_ok.1 h
    obtain ⟨data, hdata, h⟩ := bind_eq_ok.1 h
    obtain ⟨found, hfound, h⟩ := bind_eq_ok.1 h
    obtain ⟨clusters, hclusters, h⟩ := bind_eq_ok.1 h
    obtain ⟨bitmap, hbitmap, h⟩ := bind_eq_ok.1 h
    obtain rfl := Except.ok.inj h
    refine ⟨rfl, rfl, ?_, hcheck, hfat, root, data, found, hroot, hdata, hfound, hclusters, hbitmap⟩
    rw [hsector]
    exact hb
  · rintro ⟨rfl, rfl, hboot, hcheck, hfat, root, data, found, hroot, hdata, hfound,
      hclusters, hbitmap⟩
    obtain ⟨sector, hsector, hboot⟩ := bind_eq_ok.1 hboot
    unfold rootChain at hroot
    unfold dirData at hdata
    rw [Volume.open, hsector, ok_bind, hboot, ok_bind, hcheck, ok_bind, hfat, ok_bind, hroot,
      ok_bind, hdata,
      ok_bind, hfound, ok_bind]
    dsimp only
    rw [hclusters, ok_bind, hbitmap]
    rfl

end LinuxDefragger.Exfat
