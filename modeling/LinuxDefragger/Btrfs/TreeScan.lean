import LinuxDefragger.Btrfs.ChunkMap
import LinuxDefragger.Btrfs.FileRuns

/-!
# Two scanners of the filesystem trees

The analyser reads the trees of a Btrfs volume from the device (`scanFilesystemTrees`) or through
the kernel (`kernelScanFilesystemTrees`). Both collect the inodes and the extents of every tree and
count fragmented files. They differ in what they make of an extent:

* the device scanner makes one run of it, at the first place of its translation; an extent that has
  no translation is left out;
* the kernel scanner makes a run of every range of the translation, one after the other; an extent
  that has no translation ends the work on its tree.

The two agree on trees whose extents all have a translation and whose regular files have only
extents that are stored once and in one piece (`Simple`). For any other kind of extent there are
trees on which they differ.
-/

open Except Function List Storage

namespace LinuxDefragger.Btrfs

/-! ### Items -/

/-- `_Key` -/
structure Key where
  objectid : ℕ
  type : ℕ
  offset : ℕ
  deriving DecidableEq, Repr

/-- `_TreeItem` -/
structure TreeItem where
  key : Key
  data : List UInt8
  deriving DecidableEq, Repr

/-- `_INODE_ITEM` -/
def inodeItem : ℕ := 1

/-- `_EXTENT_DATA` -/
def extentData : ℕ := 108

/-- `stat.S_IFREG` -/
def sIfreg : ℕ := 0o100000

/-- `stat.S_IFDIR` -/
def sIfdir : ℕ := 0o040000

/-- `stat.S_IFMT(u32le(data, 52))` -/
def inodeMode (data : List UInt8) : ℕ := rd32 (bytesImage data) 52 &&& 0o170000

/-- The fields of an extent with data. -/
structure FileExtent where
  diskBytenr : ℕ
  diskNumBytes : ℕ
  extentOffset : ℕ
  numBytes : ℕ
  encoded : Bool
  pos : 0 < numBytes

/-- What an item of type `_EXTENT_DATA` says. -/
inductive ExtentItem
  /-- Truncated, inline or a hole. -/
  | ignored
  | malformed
  | extent (e : FileExtent)

/-- The fields of an extent item, which both scanners read in the same way. -/
def parseExtent (data : List UInt8) : ExtentItem :=
  let image := bytesImage data
  if data.length < 21 then .ignored
  else if image 20 = 0 then .ignored
  else if (image 20 ≠ 1 ∧ image 20 ≠ 2) ∨ data.length < 53 then .malformed
  else if h : rd64 image 21 = 0 ∨ rd64 image 45 = 0 then .ignored
  else .extent
    { diskBytenr := rd64 image 21
      diskNumBytes := rd64 image 29
      extentOffset := rd64 image 37
      numBytes := rd64 image 45
      encoded := image 16 ≠ 0 || image 17 ≠ 0 || rd16 image 18 ≠ 0
      pos := Nat.pos_of_ne_zero fun h' ↦ h (.inr h') }

/-- The translation of an extent. An encoded one occupies its whole range on the disk. -/
def FileExtent.translate (e : FileExtent) (m : Mapper) : Except PyError (List (ℕ × ℕ)) :=
  if e.encoded then m.physicalRanges e.diskBytenr e.diskNumBytes
  else m.physicalRanges (e.diskBytenr + e.extentOffset) e.numBytes

/-! ### From items to runs -/

/-- What is known of a tree while its items are read. -/
structure TreeState where
  /-- `inode_modes`, in the order of insertion. -/
  modes : List (ℕ × ℕ)
  runs : ℕ → List FileRun
  malformed : ℕ

namespace TreeState

variable (st : TreeState)

/-- `inode_modes[inode] = mode` -/
def setMode (inode mode : ℕ) : TreeState :=
  { st with modes :=
      if st.modes.any fun entry ↦ entry.1 = inode then
        st.modes.map fun entry ↦ if entry.1 = inode then (inode, mode) else entry
      else st.modes ++ [(inode, mode)] }

/-- `file_runs.setdefault(inode, []).append(…)`, for some runs. -/
def addRuns (inode : ℕ) (runs : List FileRun) : TreeState :=
  { st with runs := Function.update st.runs inode (st.runs inode ++ runs) }

@[simp]
theorem addRuns_self (inode : ℕ) (runs : List FileRun) :
    (st.addRuns inode runs).runs inode = st.runs inode ++ runs :=
  update_self ..

@[simp]
theorem addRuns_of_ne {n inode : ℕ} (h : n ≠ inode) (runs : List FileRun) :
    (st.addRuns inode runs).runs n = st.runs n :=
  update_of_ne h ..

/-- `malformed_items += 1` -/
def skip : TreeState := { st with malformed := st.malformed + 1 }

end TreeState

section Scan

variable (m : Mapper)

/-- The run of an extent whose translation starts with the range `r`. -/
def firstRun (e : FileExtent) (offset : ℕ) (r : ℕ × ℕ) : FileRun :=
  ⟨offset, r.1, e.numBytes, r.1, if e.encoded then r.2 - r.1 else e.numBytes, e.encoded⟩

/-- The run that `_scan_filesystem_trees` makes of an extent. -/
def rawRun (offset : ℕ) (e : FileExtent) : Except PyError FileRun :=
  match e.translate m with
  | .error err => .error err
  | .ok [] => .error .indexError
  | .ok (r :: _) => .ok (firstRun e offset r)

/-- One item in `_scan_filesystem_trees`. -/
def rawItem (st : TreeState) (item : TreeItem) : Except PyError TreeState :=
  if item.key.type = inodeItem ∧ 56 ≤ item.data.length then
    .ok (st.setMode item.key.objectid (inodeMode item.data))
  else if item.key.type ≠ extentData then .ok st
  else
    match parseExtent item.data with
    | .ignored => .ok st
    | .malformed => .ok st.skip
    | .extent e =>
      match rawRun m item.key.offset e with
      | .ok run => .ok (st.addRuns item.key.objectid [run])
      | .error (.engine _ _) => .ok st.skip
      | .error err => .error err

/-- The runs of the ranges of a translation, one after the other in the file. -/
def layRuns (encoded : Bool) : ℕ → List (ℕ × ℕ) → List FileRun
  | _, [] => []
  | cursor, r :: rest =>
    ⟨cursor, r.1, r.2 - r.1, r.1, r.2 - r.1, encoded⟩ :: layRuns encoded (cursor + (r.2 - r.1)) rest

/-- One item in `_kernel_scan_filesystem_trees`. -/
def kernelItem (st : TreeState) (item : TreeItem) : Except PyError TreeState :=
  if item.key.type = inodeItem then
    .ok (if 56 ≤ item.data.length then st.setMode item.key.objectid (inodeMode item.data) else st)
  else
    match parseExtent item.data with
    | .ignored => .ok st
    | .malformed => .ok st.skip
    | .extent e =>
      match e.translate m with
      | .ok ranges => .ok (st.addRuns item.key.objectid (layRuns e.encoded item.key.offset ranges))
      | .error err => .error err

section Extent

variable {m} {st : TreeState} {item : TreeItem}

theorem rawItem_extent (h : item.key.type = extentData) :
    rawItem m st item = match parseExtent item.data with
      | .ignored => .ok st
      | .malformed => .ok st.skip
      | .extent e =>
        match rawRun m item.key.offset e with
        | .ok run => .ok (st.addRuns item.key.objectid [run])
        | .error (.engine _ _) => .ok st.skip
        | .error err => .error err := by
  have hinode : item.key.type ≠ inodeItem := by rw [h]; decide
  rw [rawItem, if_neg fun hc ↦ hinode hc.1, if_neg (not_not.2 h)]

theorem kernelItem_extent (h : item.key.type = extentData) :
    kernelItem m st item = match parseExtent item.data with
      | .ignored => .ok st
      | .malformed => .ok st.skip
      | .extent e =>
        match e.translate m with
        | .ok ranges =>
          .ok (st.addRuns item.key.objectid (layRuns e.encoded item.key.offset ranges))
        | .error err => .error err := by
  have hinode : item.key.type ≠ inodeItem := by rw [h]; decide
  rw [kernelItem, if_neg hinode]

end Extent

/-- The loop over the items in `_kernel_scan_filesystem_trees`, with the state that an exception
leaves. -/
def kernelItems : List TreeItem → TreeState → Option PyError × TreeState
  | [], st => (none, st)
  | item :: rest, st =>
    match kernelItem m st item with
    | .ok st => kernelItems rest st
    | .error err => (some err, st)

end Scan

/-! ### From runs to a report -/

/-- The counters of a scan. -/
structure Totals where
  regularFiles : ℕ := 0
  directories : ℕ := 0
  fragmentedFiles : ℕ := 0
  malformedItems : ℕ := 0
  fragmentedPhysical : List (ℕ × ℕ) := []

/-- One inode of the loop after the items. -/
def countInode (runs : ℕ → List FileRun) (t : Totals) (entry : ℕ × ℕ) : Totals :=
  if entry.2 = sIfreg then
    let coalesced := coalesceFileRuns (runs entry.1)
    let t := { t with regularFiles := t.regularFiles + 1 }
    if 1 < coalesced.length then
      { t with
        fragmentedFiles := t.fragmentedFiles + 1
        fragmentedPhysical := t.fragmentedPhysical ++ diskRanges coalesced }
    else t
  else if entry.2 = sIfdir then { t with directories := t.directories + 1 }
  else t

/-- The inodes of a tree are counted. -/
def countTree (t : Totals) (st : TreeState) : Totals :=
  st.modes.foldl (countInode st.runs) { t with malformedItems := t.malformedItems + st.malformed }

/-- The state before the items of a tree. -/
def TreeState.empty : TreeState := ⟨[], fun _ ↦ [], 0⟩

/-- `malformed_items += 1` after an exception that was caught. -/
def Totals.skip (t : Totals) : Totals := { t with malformedItems := t.malformedItems + 1 }

/-- One tree of `_scan_filesystem_trees`; a tree that cannot be read has no items. -/
def rawTree (m : Mapper) (t : Totals) : Option (List TreeItem) → Except PyError Totals
  | none => .ok t.skip
  | some items => do return countTree t (← items.foldlM (rawItem m) .empty)

/-- The items that `items_of_types` yields of those of a tree. -/
def wantedItems (items : List TreeItem) : List TreeItem :=
  items.filter fun item ↦ item.key.type = inodeItem ∨ item.key.type = extentData

/-- One tree of `_kernel_scan_filesystem_trees`. -/
def kernelTree (m : Mapper) (t : Totals) : Option (List TreeItem) → Except PyError Totals
  | none => .ok t.skip
  | some items =>
    match kernelItems m (wantedItems items) .empty with
    | (none, st) => .ok (countTree t st)
    | (some (.engine _ _), st) =>
      .ok { t with malformedItems := t.malformedItems + st.malformed }.skip
    | (some err, _) => .error err

/-- The trees that are scanned: those of the filesystem and of subvolumes that are referred to. The
roots are given as object id and number of references. -/
def rootIds (roots : List (ℕ × ℕ)) : List ℕ :=
  ((roots.filter fun r ↦ r.2 ≠ 0 ∧ (r.1 = 5 ∨ 256 ≤ r.1)).map Prod.fst).insertionSort (· ≤ ·)

/-- What a scan returns, without the percentage and the keys that are constants. -/
structure ScanReport where
  regularFiles : ℕ
  directories : ℕ
  fragmentedFiles : ℕ
  fragmentedRanges : List (ℕ × ℕ)
  filesystemRootsScanned : ℕ
  malformedItems : ℕ
  deriving DecidableEq, Repr

/-- The report of the counters. -/
def Totals.report (t : Totals) (rootsScanned : ℕ) : ScanReport where
  regularFiles := t.regularFiles
  directories := t.directories
  fragmentedFiles := t.fragmentedFiles
  fragmentedRanges := Gui.mergeRanges t.fragmentedPhysical
  filesystemRootsScanned := rootsScanned
  malformedItems := t.malformedItems

section Scans

variable (m : Mapper) (roots : List (ℕ × ℕ)) (items : ℕ → Option (List TreeItem))

/-- For the items of every tree. -/
def scanFilesystemTrees : Except PyError ScanReport := do
  let t ← (rootIds roots).foldlM (fun t id ↦ rawTree m t (items id)) {}
  return t.report (rootIds roots).length

/-- For the items of every tree. -/
def kernelScanFilesystemTrees : Except PyError ScanReport := do
  let t ← (rootIds roots).foldlM (fun t id ↦ kernelTree m t (items id)) {}
  return t.report (rootIds roots).length

/-- The scanners report the same files, directories, fragmented files and fragmented ranges. -/
def ScannersAgree : Prop :=
  ∃ raw kernel, scanFilesystemTrees m roots items = .ok raw ∧
    kernelScanFilesystemTrees m roots items = .ok kernel ∧
    raw.regularFiles = kernel.regularFiles ∧ raw.directories = kernel.directories ∧
    raw.fragmentedFiles = kernel.fragmentedFiles ∧ raw.fragmentedRanges = kernel.fragmentedRanges

end Scans

/-! ### Extents stored once and in one piece -/

/-- The number of bytes of some ranges. -/
def totalBytes (ranges : List (ℕ × ℕ)) : ℕ := (ranges.map fun r ↦ r.2 - r.1).sum

/-- The extent has a translation: one range if it is encoded, else ranges that continue each other
and have as many bytes as the extent. -/
def FileExtent.Simple (e : FileExtent) (m : Mapper) : Prop :=
  ∃ ranges, e.translate m = .ok ranges ∧
    if e.encoded then ranges.length = 1
    else ranges.IsChain (fun a b ↦ a.2 = b.1) ∧ totalBytes ranges = e.numBytes

variable {run : FileRun}

section Ranges

variable {m : Mapper} {e : FileExtent} {ranges : List (ℕ × ℕ)} {r : ℕ × ℕ} {encoded : Bool}

theorem FileExtent.translate_eq_ok (h : e.translate m = .ok ranges) :
    (∀ r ∈ ranges, r.1 < r.2) ∧ (e.encoded = false → ranges ≠ []) := by
  unfold FileExtent.translate at h
  split at h
  · rename_i henc
    exact ⟨(Mapper.rangesFrom_eq_ok h).1, fun hplain ↦ absurd henc (by rw [hplain]; decide)⟩
  · obtain ⟨hpos, hne⟩ := Mapper.rangesFrom_eq_ok h
    exact ⟨hpos, fun _ ↦ hne e.pos e.pos⟩

theorem FileExtent.translate_eq_error {err : PyError} (h : e.translate m = .error err) :
    ∃ message args, err = .engine message args := by
  unfold FileExtent.translate at h
  split at h <;> exact Mapper.rangesFrom_eq_error h

/-- Ranges that continue each other are one range. -/
theorem covers_of_isChain (h : (r :: ranges).IsChain fun a b ↦ a.2 = b.1)
    (hpos : ∀ s ∈ r :: ranges, s.1 < s.2) :
    (∀ s ∈ (r :: ranges).getLast?, s.2 = r.1 + totalBytes (r :: ranges)) ∧
      ∀ u, Covers (r :: ranges) u ↔ r.1 ≤ u ∧ u < r.1 + totalBytes (r :: ranges) := by
  have hr := hpos r mem_cons_self
  induction ranges generalizing r with
  | nil =>
    simp only [totalBytes, map_cons, map_nil, sum_singleton, covers_cons]
    refine ⟨fun s hs ↦ ?_, fun u ↦ ?_⟩
    · obtain rfl : r = s := Option.some.inj hs
      omega
    · rw [or_iff_left (not_covers_nil u)]
      omega
  | cons t ranges ih =>
    obtain ⟨hjoin, hchain⟩ := isChain_cons_cons.1 h
    have hpos' := (forall_mem_cons.1 hpos).2
    obtain ⟨hlast, hcovers⟩ := ih hchain hpos' (hpos' t mem_cons_self)
    have htotal : totalBytes (r :: t :: ranges) = (r.2 - r.1) + totalBytes (t :: ranges) := sum_cons
    refine ⟨fun s hs ↦ ?_, fun u ↦ ?_⟩
    · rw [getLast?_cons_cons] at hs
      rw [hlast s hs, htotal]
      omega
    · rw [covers_cons, hcovers, htotal]
      omega

theorem diskRanges_layRuns (cursor : ℕ) (hpos : ∀ s ∈ ranges, s.1 < s.2) :
    diskRanges (layRuns encoded cursor ranges) = ranges := by
  induction ranges generalizing cursor with
  | nil => rfl
  | cons r ranges ih =>
    obtain ⟨hr, hrest⟩ := forall_mem_cons.1 hpos
    have hend : r.1 + (r.2 - r.1) = r.2 := by omega
    rw [layRuns, diskRanges, map_cons, ← diskRanges, ih _ hrest, hend]

theorem mem_layRuns {cursor : ℕ} (hpos : ∀ s ∈ ranges, s.1 < s.2)
    (h : run ∈ layRuns encoded cursor ranges) : run.Plain ∧ run.encoded = encoded := by
  induction ranges generalizing cursor with
  | nil => cases h
  | cons r ranges ih =>
    obtain ⟨hr, hrest⟩ := forall_mem_cons.1 hpos
    rcases mem_cons.1 h with rfl | h
    · exact ⟨⟨Nat.sub_pos_of_lt hr, fun _ ↦ ⟨rfl, rfl⟩⟩, rfl⟩
    · exact ih hrest h

/-- The runs continue each other just if the ranges do. -/
theorem isChain_layRuns_iff (cursor : ℕ) (hpos : ∀ s ∈ ranges, s.1 < s.2) :
    (layRuns false cursor ranges).IsChain FileRun.Joins ↔ ranges.IsChain fun a b ↦ a.2 = b.1 := by
  induction ranges generalizing cursor with
  | nil => simp [layRuns]
  | cons r ranges ih =>
    obtain ⟨hr, hrest⟩ := forall_mem_cons.1 hpos
    cases ranges with
    | nil => simp [layRuns]
    | cons t ranges =>
      have hend : r.1 + (r.2 - r.1) = r.2 := by omega
      rw [isChain_cons_cons, ← ih (cursor + (r.2 - r.1)) hrest, layRuns, layRuns, isChain_cons_cons]
      simp [FileRun.Joins, hend]

theorem last_layRuns (cursor : ℕ) (h : run ∈ (layRuns encoded cursor ranges).getLast?) :
    run.logical + run.length = cursor + totalBytes ranges ∧
      ∃ s ∈ ranges.getLast?, run.physical = s.1 ∧ run.length = s.2 - s.1 := by
  induction ranges generalizing cursor with
  | nil => cases h
  | cons r ranges ih =>
    cases ranges with
    | nil =>
      obtain rfl := Option.some.inj h
      exact ⟨by simp [layRuns, totalBytes], r, rfl, rfl, rfl⟩
    | cons t ranges =>
      obtain ⟨hlogical, s, hs, hrun⟩ := ih (cursor + (r.2 - r.1)) h
      refine ⟨?_, s, by rwa [getLast?_cons_cons], hrun⟩
      have htotal : totalBytes (r :: t :: ranges) = (r.2 - r.1) + totalBytes (t :: ranges) :=
        sum_cons
      rw [hlogical, htotal, Nat.add_assoc]

theorem rawRun_eq (offset : ℕ) (h : e.translate m = .ok (r :: ranges)) :
    rawRun m offset e = .ok (firstRun e offset r) := by
  rw [rawRun, h]

/-- An encoded extent in one range. -/
theorem splits_encoded (henc : e.encoded = true) (offset : ℕ) (hr : r.1 < r.2) :
    Splits (firstRun e offset r) (layRuns e.encoded offset [r]) where
  plain := ⟨e.pos, fun hplain ↦ absurd henc (by rw [show e.encoded = false from hplain]; decide)⟩
  pieces_plain p hp := (mem_layRuns (by simpa using hr) hp).1
  encoded p hp := (mem_layRuns (by simpa using hr) hp).2
  chain := .singleton _
  first := ⟨_, _, rfl, rfl, rfl⟩
  last _ _ hplain := absurd henc (by rw [show e.encoded = false from hplain]; decide)
  covers u := by
    rw [diskRanges_layRuns offset (by simpa using hr)]
    have hend : r.1 + (r.2 - r.1) = r.2 := by omega
    simp [diskRanges, firstRun, henc, hend, covers_cons]

/-- An extent that is not encoded, in ranges that continue each other. -/
theorem splits_plain (henc : e.encoded = false) (offset : ℕ) (hpos : ∀ s ∈ r :: ranges, s.1 < s.2)
    (hchain : (r :: ranges).IsChain fun a b ↦ a.2 = b.1)
    (htotal : totalBytes (r :: ranges) = e.numBytes) :
    Splits (firstRun e offset r) (layRuns e.encoded offset (r :: ranges)) where
  plain := ⟨e.pos, fun _ ↦ ⟨rfl, by simp [firstRun, henc]⟩⟩
  pieces_plain p hp := (mem_layRuns hpos hp).1
  encoded p hp := (mem_layRuns hpos hp).2
  chain := by
    rw [henc]
    exact (isChain_layRuns_iff offset hpos).2 hchain
  first := ⟨_, _, rfl, rfl, rfl⟩
  last p hp _ := by
    obtain ⟨hlogical, s, hs, hphysical, hlength⟩ := last_layRuns offset hp
    have hend := (covers_of_isChain hchain hpos).1 s hs
    have hspos := hpos s (mem_of_getLast? hs)
    rw [htotal] at hlogical hend
    exact ⟨hlogical, by simp only [firstRun]; omega⟩
  covers u := by
    rw [diskRanges_layRuns offset hpos, (covers_of_isChain hchain hpos).2, htotal]
    simp [diskRanges, firstRun, henc, covers_cons, not_covers_nil]

/-- **A simple extent** gives the device scanner a run and the kernel scanner a finer cut of it. -/
theorem FileExtent.Simple.splits (h : e.Simple m) (htranslate : e.translate m = .ok (r :: ranges))
    (offset : ℕ) : Splits (firstRun e offset r) (layRuns e.encoded offset (r :: ranges)) := by
  obtain ⟨ranges', htranslate', hshape⟩ := h
  obtain rfl := ok.inj (htranslate.symm.trans htranslate')
  obtain ⟨hpos, -⟩ := FileExtent.translate_eq_ok htranslate
  cases henc : e.encoded with
  | true =>
    rw [henc, if_pos rfl] at hshape
    obtain rfl := length_eq_zero_iff.1 (Nat.succ.inj hshape)
    exact henc ▸ splits_encoded henc offset (hpos r mem_cons_self)
  | false =>
    rw [henc, if_neg Bool.false_ne_true] at hshape
    exact henc ▸ splits_plain henc offset hpos hshape.1 hshape.2

theorem FileExtent.Simple.translate (h : e.Simple m) :
    ∃ r ranges, e.translate m = .ok (r :: ranges) := by
  obtain ⟨ranges, htranslate, hshape⟩ := h
  cases ranges with
  | cons r ranges => exact ⟨r, ranges, htranslate⟩
  | nil =>
    cases henc : e.encoded with
    | true =>
      rw [henc, if_pos rfl] at hshape
      cases hshape
    | false => exact absurd rfl ((FileExtent.translate_eq_ok htranslate).2 henc)

end Ranges

/-! ### Agreement on simple extents -/

/-- The tree has an inode item that says that the inode is a regular file. -/
def RegularIn (tree : List TreeItem) (inode : ℕ) : Prop :=
  ∃ item ∈ tree, item.key.type = inodeItem ∧ 56 ≤ item.data.length ∧
    inodeMode item.data = sIfreg ∧ item.key.objectid = inode

/-- Every extent of the tree has a translation, and those of its regular files are simple. -/
def SimpleTree (m : Mapper) (tree : List TreeItem) : Prop :=
  ∀ item ∈ tree, item.key.type = extentData → ∀ e, parseExtent item.data = .extent e →
    (∃ r ranges, e.translate m = .ok (r :: ranges)) ∧
      (RegularIn tree item.key.objectid → e.Simple m)

/-- The scanners know the same of a tree: the same inodes, and of each regular file the same
extents; `P` holds of the regular files. -/
structure Alike (P : ℕ → Prop) (raw kernel : TreeState) : Prop where
  modes : raw.modes = kernel.modes
  regular : ∀ entry ∈ raw.modes, entry.2 = sIfreg → P entry.1
  runs : ∀ inode, P inode → ∃ cuts : List (FileRun × List FileRun), (∀ c ∈ cuts, Splits c.1 c.2) ∧
    raw.runs inode = cuts.map Prod.fst ∧ kernel.runs inode = cuts.flatMap Prod.snd

section Agreement

variable {m : Mapper} {raw kernel : TreeState} {P : ℕ → Prop}

/-- What the agreement needs of an item: an inode that it makes regular is in `P`, and its extent is
as in a simple tree. -/
def TreeItem.Simple (item : TreeItem) (m : Mapper) (P : ℕ → Prop) : Prop :=
  (item.key.type = inodeItem → 56 ≤ item.data.length → inodeMode item.data = sIfreg →
    P item.key.objectid) ∧
  (item.key.type = extentData → ∀ e, parseExtent item.data = .extent e →
    (∃ r ranges, e.translate m = .ok (r :: ranges)) ∧ (P item.key.objectid → e.Simple m))

section

variable (h : Alike P raw kernel)
include h

theorem Alike.setMode {inode mode : ℕ} (hmode : mode = sIfreg → P inode) :
    Alike P (raw.setMode inode mode) (kernel.setMode inode mode) := by
  refine ⟨by simp only [TreeState.setMode, h.modes], fun entry hentry heq ↦ ?_, h.runs⟩
  simp only [TreeState.setMode] at hentry
  split_ifs at hentry
  · obtain ⟨old, hold, rfl⟩ := mem_map.1 hentry
    split_ifs at heq ⊢
    · exact hmode heq
    · exact h.regular old hold heq
  · rcases mem_append.1 hentry with hentry | hentry
    · exact h.regular entry hentry heq
    · obtain rfl := mem_singleton.1 hentry
      exact hmode heq

theorem Alike.addRuns (inode : ℕ) {pieces : List FileRun} (hsplits : P inode → Splits run pieces) :
    Alike P (raw.addRuns inode [run]) (kernel.addRuns inode pieces) := by
  refine ⟨h.modes, h.regular, fun n hP ↦ ?_⟩
  obtain ⟨cuts, hcuts, hraw, hkernel⟩ := h.runs n hP
  by_cases hn : n = inode
  · subst hn
    refine ⟨cuts ++ [(run, pieces)], ?_, ?_, ?_⟩
    · intro c hc
      rcases mem_append.1 hc with hc | hc
      · exact hcuts c hc
      · obtain rfl := mem_singleton.1 hc
        exact hsplits hP
    · simp [hraw]
    · simp [hkernel]
  · refine ⟨cuts, hcuts, ?_, ?_⟩
    · rwa [TreeState.addRuns_of_ne _ hn]
    · rwa [TreeState.addRuns_of_ne _ hn]

/-- One item that both scanners look at. -/
theorem Alike.item {item : TreeItem} (hsimple : item.Simple m P)
    (hwanted : item.key.type = inodeItem ∨ item.key.type = extentData) :
    ∃ raw' kernel', rawItem m raw item = .ok raw' ∧ kernelItem m kernel item = .ok kernel' ∧
      Alike P raw' kernel' := by
  rcases hwanted with htype | htype
  · have hother : item.key.type ≠ extentData := by rw [htype]; decide
    rw [kernelItem, if_pos htype]
    by_cases hlength : 56 ≤ item.data.length
    · rw [rawItem, if_pos ⟨htype, hlength⟩, if_pos hlength]
      exact ⟨_, _, rfl, rfl, h.setMode (hsimple.1 htype hlength)⟩
    · rw [rawItem, if_neg fun hc ↦ hlength hc.2, if_pos hother, if_neg hlength]
      exact ⟨_, _, rfl, rfl, h⟩
  · rw [rawItem_extent htype, kernelItem_extent htype]
    cases hparse : parseExtent item.data with
    | ignored => exact ⟨_, _, rfl, rfl, h⟩
    | malformed => exact ⟨_, _, rfl, rfl, h.modes, h.regular, h.runs⟩
    | extent e =>
      obtain ⟨⟨r, ranges, htranslate⟩, he⟩ := hsimple.2 htype e hparse
      simp only [rawRun_eq item.key.offset htranslate, htranslate]
      exact ⟨_, _, rfl, rfl, h.addRuns _ fun hP ↦ (he hP).splits htranslate _⟩

/-- All items of a tree. -/
theorem Alike.items {items : List TreeItem} (hsimple : ∀ item ∈ items, item.Simple m P) :
    ∃ raw' kernel', items.foldlM (rawItem m) raw = .ok raw' ∧
      kernelItems m (wantedItems items) kernel = (none, kernel') ∧ Alike P raw' kernel' := by
  induction items generalizing raw kernel with
  | nil => exact ⟨raw, kernel, rfl, rfl, h⟩
  | cons item items ih =>
    obtain ⟨hitem, hitems⟩ := forall_mem_cons.1 hsimple
    rw [foldlM_cons]
    by_cases hwanted : item.key.type = inodeItem ∨ item.key.type = extentData
    · obtain ⟨raw', kernel', hraw, hkernel, h'⟩ := h.item hitem hwanted
      rw [hraw, ok_bind, wantedItems, filter_cons_of_pos (by simpa using hwanted), kernelItems,
        hkernel]
      exact ih h' hitems
    · have hraw : rawItem m raw item = .ok raw := by
        rw [not_or] at hwanted
        rw [rawItem, if_neg fun hc ↦ hwanted.1 hc.1, if_pos hwanted.2]
      rw [hraw, ok_bind, wantedItems, filter_cons_of_neg (by simpa using hwanted)]
      exact ih h hitems

end

/-- The counters of the scanners stand for the same findings. -/
structure SameTotals (a b : Totals) : Prop where
  regularFiles : a.regularFiles = b.regularFiles
  directories : a.directories = b.directories
  fragmentedFiles : a.fragmentedFiles = b.fragmentedFiles
  covers : ∀ u, Covers a.fragmentedPhysical u ↔ Covers b.fragmentedPhysical u

variable {a b : Totals}

theorem SameTotals.countInode (h : SameTotals a b) (halike : Alike P raw kernel) {entry : ℕ × ℕ}
    (hentry : entry ∈ raw.modes) : SameTotals (countInode raw.runs a entry)
      (countInode kernel.runs b entry) := by
  unfold Btrfs.countInode
  split
  · rename_i hregular
    obtain ⟨cuts, hcuts, hraw, hkernel⟩ :=
      halike.runs entry.1 (halike.regular entry hentry hregular)
    obtain ⟨hlength, hcovers⟩ := coalesce_splits hcuts
    rw [hraw, hkernel]
    by_cases hone : (coalesceFileRuns (cuts.map Prod.fst)).length ≤ 1
    · simp only [not_lt.2 hone, not_lt.2 (hlength.1 hone), if_false]
      exact ⟨congrArg (· + 1) h.regularFiles, h.directories, h.fragmentedFiles, h.covers⟩
    · simp only [not_le.1 hone, not_le.1 fun hk ↦ hone (hlength.2 hk), if_true]
      refine ⟨congrArg (· + 1) h.regularFiles, h.directories, congrArg (· + 1) h.fragmentedFiles,
        fun u ↦ ?_⟩
      simp only [covers_append, h.covers u, hcovers u]
  · split
    · exact ⟨h.regularFiles, congrArg (· + 1) h.directories, h.fragmentedFiles, h.covers⟩
    · exact h

theorem SameTotals.countTree (h : SameTotals a b) (halike : Alike P raw kernel) :
    SameTotals (countTree a raw) (countTree b kernel) := by
  unfold Btrfs.countTree
  rw [← halike.modes]
  have hrun : ∀ modes : List (ℕ × ℕ), (∀ entry ∈ modes, entry ∈ raw.modes) → ∀ a b,
      SameTotals a b → SameTotals (modes.foldl (Btrfs.countInode raw.runs) a)
        (modes.foldl (Btrfs.countInode kernel.runs) b) := by
    intro modes
    induction modes with
    | nil => exact fun _ a b h ↦ h
    | cons entry modes ih =>
      intro hmodes a b h
      obtain ⟨hentry, hrest⟩ := forall_mem_cons.1 hmodes
      exact ih hrest _ _ (h.countInode halike hentry)
  exact hrun _ (fun _ h ↦ h) _ _ ⟨h.regularFiles, h.directories, h.fragmentedFiles, h.covers⟩

theorem SameTotals.tree (h : SameTotals a b) {items : Option (List TreeItem)}
    (hsimple : ∀ tree ∈ items, SimpleTree m tree) :
    ∃ a' b', rawTree m a items = .ok a' ∧ kernelTree m b items = .ok b' ∧ SameTotals a' b' := by
  cases items with
  | none =>
    exact ⟨_, _, rfl, rfl, h.regularFiles, h.directories, h.fragmentedFiles, h.covers⟩
  | some tree =>
    have hempty : Alike (RegularIn tree) .empty .empty :=
      ⟨rfl, nofun, fun _ _ ↦ ⟨[], nofun, rfl, rfl⟩⟩
    obtain ⟨raw, kernel, hraw, hkernel, halike⟩ := hempty.items (m := m) fun item hitem ↦
      ⟨fun htype hlength hmode ↦ ⟨item, hitem, htype, hlength, hmode, rfl⟩,
        hsimple tree rfl item hitem⟩
    refine ⟨_, _, ?_, ?_, h.countTree halike⟩
    · rw [rawTree, hraw]
      rfl
    · rw [kernelTree, hkernel]

/-- **The scanners agree** where the trees they scan are simple. -/
theorem scannersAgree_of_simple {roots : List (ℕ × ℕ)} {items : ℕ → Option (List TreeItem)}
    (hsimple : ∀ id ∈ rootIds roots, ∀ tree ∈ items id, SimpleTree m tree) :
    ScannersAgree m roots items := by
  have hrun : ∀ ids : List ℕ, (∀ id ∈ ids, id ∈ rootIds roots) → ∀ a b, SameTotals a b → ∃ a' b',
      ids.foldlM (fun t id ↦ rawTree m t (items id)) a = .ok a' ∧
      ids.foldlM (fun t id ↦ kernelTree m t (items id)) b = .ok b' ∧ SameTotals a' b' := by
    intro ids
    induction ids with
    | nil => exact fun _ a b h ↦ ⟨a, b, rfl, rfl, h⟩
    | cons id ids ih =>
      intro hids a b h
      obtain ⟨hid, hrest⟩ := forall_mem_cons.1 hids
      obtain ⟨a', b', hraw, hkernel, h'⟩ := h.tree (hsimple id hid)
      rw [foldlM_cons, foldlM_cons, hraw, hkernel]
      exact ih hrest a' b' h'
  obtain ⟨a, b, hraw, hkernel, h⟩ := hrun (rootIds roots) (fun _ h ↦ h) {} {}
    ⟨rfl, rfl, rfl, fun _ ↦ .rfl⟩
  refine ⟨a.report (rootIds roots).length, b.report (rootIds roots).length, ?_, ?_, h.regularFiles,
    h.directories, h.fragmentedFiles, Gui.mergeRanges_eq_iff.2 h.covers⟩
  · rw [scanFilesystemTrees, hraw]
    rfl
  · rw [kernelScanFilesystemTrees, hkernel]
    rfl

end Agreement

/-! ### Disagreement on all others -/

/-- The inode of a regular file. -/
def regularInode : List UInt8 := List.replicate 52 0 ++ [0x00, 0x80, 0x00, 0x00]

/-- A tree with one file, whose extents are all described by the same data. -/
def oneFile (data : List UInt8) (offsets : List ℕ) : List TreeItem :=
  ⟨⟨257, inodeItem, 0⟩, regularInode⟩ :: offsets.map fun o ↦ ⟨⟨257, extentData, o⟩, data⟩

/-- The filesystem with this tree alone. -/
def OneFileAgrees (m : Mapper) (data : List UInt8) (offsets : List ℕ) : Prop :=
  ScannersAgree m [(5, 1)] fun _ ↦ some (oneFile data offsets)

section Disagreement

variable {m : Mapper} {e : FileExtent} {data : List UInt8} {r : ℕ × ℕ} {ranges : List (ℕ × ℕ)}

theorem wantedItems_oneFile (offsets : List ℕ) :
    wantedItems (oneFile data offsets) = oneFile data offsets := by
  refine filter_eq_self.2 fun item hitem ↦ ?_
  rcases mem_cons.1 hitem with rfl | hitem
  · rfl
  · obtain ⟨o, -, rfl⟩ := mem_map.1 hitem
    rfl

/-- The state after the inode, with some runs. -/
def oneFileState (runs : List FileRun) : TreeState :=
  (TreeState.empty.setMode 257 sIfreg).addRuns 257 runs

theorem oneFileState_addRuns (runs runs' : List FileRun) :
    (oneFileState runs).addRuns 257 runs' = oneFileState (runs ++ runs') := by
  simp [oneFileState, TreeState.addRuns, TreeState.setMode, TreeState.empty]

theorem oneFileState_nil : oneFileState [] = TreeState.empty.setMode 257 sIfreg := by
  simp [oneFileState, TreeState.addRuns, TreeState.setMode, TreeState.empty]

theorem inodeMode_regularInode : inodeMode regularInode = sIfreg := by decide

theorem rawItem_regularInode (m : Mapper) :
    rawItem m .empty ⟨⟨257, inodeItem, 0⟩, regularInode⟩ = .ok (oneFileState []) := by
  rw [rawItem, if_pos ⟨rfl, by decide⟩, inodeMode_regularInode, oneFileState_nil]

theorem kernelItem_regularInode (m : Mapper) :
    kernelItem m .empty ⟨⟨257, inodeItem, 0⟩, regularInode⟩ = .ok (oneFileState []) := by
  rw [kernelItem, if_pos rfl, if_pos (by decide), inodeMode_regularInode, oneFileState_nil]

theorem countTree_oneFile (runs : List FileRun) : countTree {} (oneFileState runs) =
    if 1 < (coalesceFileRuns runs).length then
      { regularFiles := 1, fragmentedFiles := 1, fragmentedPhysical :=
        diskRanges (coalesceFileRuns runs) }
    else { regularFiles := 1 } := by
  simp [countTree, oneFileState, TreeState.addRuns, TreeState.setMode, TreeState.empty, countInode]

theorem rootIds_one : rootIds [(5, 1)] = [5] := by decide

theorem pairwise_layRuns {encoded : Bool} (cursor : ℕ) (hpos : ∀ s ∈ ranges, s.1 < s.2) :
    (∀ run ∈ layRuns encoded cursor ranges, cursor ≤ run.logical) ∧
      (layRuns encoded cursor ranges).Pairwise fun a b ↦ a.logical < b.logical := by
  induction ranges generalizing cursor with
  | nil => exact ⟨nofun, .nil⟩
  | cons r ranges ih =>
    obtain ⟨hr, hrest⟩ := forall_mem_cons.1 hpos
    obtain ⟨hlow, hpairs⟩ := ih (cursor + (r.2 - r.1)) hrest
    refine ⟨forall_mem_cons.2 ⟨le_rfl, fun run hrun ↦ ?_⟩, pairwise_cons.2
      ⟨fun run hrun ↦ ?_, hpairs⟩⟩
    · exact (Nat.le_add_right _ _).trans (hlow run hrun)
    · have := hlow run hrun
      simp only
      omega

variable (hparse : parseExtent data = .extent e)
include hparse

theorem rawItems_oneFile (h : e.translate m = .ok (r :: ranges)) (offsets : List ℕ)
    (runs : List FileRun) :
    (offsets.map fun o ↦ (⟨⟨257, extentData, o⟩, data⟩ : TreeItem)).foldlM (rawItem m)
      (oneFileState runs) = .ok (oneFileState (runs ++ offsets.map fun o ↦ firstRun e o r)) := by
  induction offsets generalizing runs with
  | nil => simp [pure, Except.pure]
  | cons o offsets ih =>
    rw [map_cons, foldlM_cons, rawItem_extent rfl, hparse]
    simp only [rawRun_eq o h]
    rw [ok_bind, oneFileState_addRuns, ih]
    simp

theorem kernelItems_oneFile (h : e.translate m = .ok ranges) (offsets : List ℕ)
    (runs : List FileRun) :
    kernelItems m (offsets.map fun o ↦ ⟨⟨257, extentData, o⟩, data⟩) (oneFileState runs) =
      (none, oneFileState (runs ++ offsets.flatMap fun o ↦ layRuns e.encoded o ranges)) := by
  induction offsets generalizing runs with
  | nil => simp [kernelItems]
  | cons o offsets ih =>
    rw [map_cons, kernelItems, kernelItem_extent rfl, hparse]
    simp only [h]
    rw [oneFileState_addRuns, ih]
    simp

theorem scanFilesystemTrees_oneFile (h : e.translate m = .ok (r :: ranges)) (offsets : List ℕ) :
    scanFilesystemTrees m [(5, 1)] (fun _ ↦ some (oneFile data offsets)) =
      .ok ((countTree {} (oneFileState (offsets.map fun o ↦ firstRun e o r))).report 1) := by
  have hitems : (oneFile data offsets).foldlM (rawItem m) .empty =
      .ok (oneFileState (offsets.map fun o ↦ firstRun e o r)) := by
    rw [oneFile, foldlM_cons, rawItem_regularInode, ok_bind, rawItems_oneFile hparse h, nil_append]
  rw [scanFilesystemTrees, rootIds_one, foldlM_cons, rawTree, hitems]
  rfl

theorem kernelScanFilesystemTrees_oneFile (h : e.translate m = .ok ranges) (offsets : List ℕ) :
    kernelScanFilesystemTrees m [(5, 1)] (fun _ ↦ some (oneFile data offsets)) =
      .ok ((countTree {} (oneFileState (offsets.flatMap fun o ↦
        layRuns e.encoded o ranges))).report 1) := by
  have hitems : kernelItems m (wantedItems (oneFile data offsets)) .empty =
      (none, oneFileState (offsets.flatMap fun o ↦ layRuns e.encoded o ranges)) := by
    rw [wantedItems_oneFile, oneFile, kernelItems, kernelItem_regularInode]
    exact kernelItems_oneFile hparse h offsets []
  rw [kernelScanFilesystemTrees, rootIds_one, foldlM_cons, kernelTree, hitems]
  rfl

/-- What agreement on one file with a translation means. -/
theorem OneFileAgrees.imp (h : e.translate m = .ok (r :: ranges)) {offsets : List ℕ}
    (hagree : OneFileAgrees m data offsets) {raw kernel : List FileRun}
    (hraw : coalesceFileRuns (offsets.map fun o ↦ firstRun e o r) = raw)
    (hkernel : coalesceFileRuns (offsets.flatMap fun o ↦ layRuns e.encoded o (r :: ranges)) =
      kernel) :
    (raw.length ≤ 1 ↔ kernel.length ≤ 1) ∧
      (1 < raw.length → ∀ u, Covers (diskRanges raw) u ↔ Covers (diskRanges kernel) u) := by
  obtain ⟨a, b, ha, hb, -, -, hfragmented, hranges⟩ := hagree
  rw [scanFilesystemTrees_oneFile hparse h, countTree_oneFile, hraw] at ha
  rw [kernelScanFilesystemTrees_oneFile hparse h, countTree_oneFile, hkernel] at hb
  obtain rfl := ok.inj ha
  obtain rfl := ok.inj hb
  by_cases hr : 1 < raw.length <;> by_cases hk : 1 < kernel.length <;>
    simp only [hr, hk, if_true, if_false, Totals.report] at hfragmented hranges
  · exact ⟨by omega, fun _ ↦ Gui.mergeRanges_eq_iff.1 hranges⟩
  · cases hfragmented
  · cases hfragmented
  · exact ⟨by omega, fun h ↦ absurd h hr⟩

/-- Without a translation the file is missing from the kernel's report. -/
theorem not_oneFileAgrees_of_error {err : PyError} (h : e.translate m = .error err) :
    ¬OneFileAgrees m data [0] := by
  rintro ⟨a, b, ha, hb, hregular, -⟩
  obtain ⟨message, args, rfl⟩ := FileExtent.translate_eq_error h
  have hrun : rawRun m 0 e = .error (.engine message args) := by rw [rawRun, h]
  have hraw : (oneFile data [0]).foldlM (rawItem m) .empty = .ok (oneFileState []).skip := by
    rw [oneFile, foldlM_cons, rawItem_regularInode, ok_bind, map_cons, foldlM_cons,
      rawItem_extent rfl, hparse]
    simp only [hrun]
    rfl
  have hkernel : kernelItems m (wantedItems (oneFile data [0])) .empty =
      (some (.engine message args), oneFileState []) := by
    rw [wantedItems_oneFile, oneFile, kernelItems, kernelItem_regularInode, map_cons]
    simp only
    rw [kernelItems, kernelItem_extent rfl, hparse]
    simp only [h]
  rw [scanFilesystemTrees, rootIds_one, foldlM_cons, rawTree, hraw] at ha
  rw [kernelScanFilesystemTrees, rootIds_one, foldlM_cons, kernelTree, hkernel] at hb
  obtain rfl := ok.inj ha
  obtain rfl := ok.inj hb
  have hcount : (countTree {} (oneFileState []).skip).regularFiles = 1 := by decide
  exact absurd (hcount.symm.trans hregular) (by decide)

/-- An empty translation stops the device scanner. -/
theorem not_oneFileAgrees_of_nil (h : e.translate m = .ok []) : ¬OneFileAgrees m data [0] := by
  rintro ⟨a, b, ha, -⟩
  have hrun : rawRun m 0 e = .error .indexError := by rw [rawRun, h]
  have hraw : (oneFile data [0]).foldlM (rawItem m) .empty = .error .indexError := by
    rw [oneFile, foldlM_cons, rawItem_regularInode, ok_bind, map_cons, foldlM_cons,
      rawItem_extent rfl, hparse]
    simp only [hrun]
    rfl
  rw [scanFilesystemTrees, rootIds_one, foldlM_cons, rawTree, hraw] at ha
  cases ha

/-- One copy of the extent is one run for the device scanner, and for the kernel scanner if its
ranges continue each other. -/
theorem isChain_of_oneFileAgrees (h : e.translate m = .ok (r :: ranges))
    (hagree : OneFileAgrees m data [0]) :
    (layRuns e.encoded 0 (r :: ranges)).IsChain FileRun.Joins := by
  obtain ⟨hpos, -⟩ := FileExtent.translate_eq_ok h
  have hplain : (firstRun e 0 r).Plain := ⟨e.pos, fun hplain ↦ ⟨rfl, by
    simp only [firstRun, show e.encoded = false from hplain, if_neg Bool.false_ne_true]⟩⟩
  have hraw : coalesceFileRuns ([0].map fun o ↦ firstRun e o r) = [firstRun e 0 r] := by
    show ([firstRun e 0 r].foldl coalesceStep []).reverse = _
    rw [foldl_cons, coalesceStep_nil hplain]
    rfl
  have hone := (hagree.imp hparse h hraw rfl).1.1 le_rfl
  rw [flatMap_cons, flatMap_nil, append_nil,
    length_coalesceFileRuns_le fun run hrun ↦ (mem_layRuns hpos hrun).1,
    sortRuns_eq_of_perm (List.Perm.refl _) (pairwise_layRuns 0 hpos).2] at hone
  exact hone

/-- Two copies far apart are two runs; then the bytes they cover must be the same. -/
theorem totalBytes_of_oneFileAgrees (henc : e.encoded = false)
    (h : e.translate m = .ok (r :: ranges)) (hchain : (r :: ranges).IsChain fun a b ↦ a.2 = b.1)
    (hagree : OneFileAgrees m data [0, e.numBytes + 1]) :
    totalBytes (r :: ranges) = e.numBytes := by
  obtain ⟨hpos, -⟩ := FileExtent.translate_eq_ok h
  have hplain : ∀ o, (firstRun e o r).Plain :=
    fun o ↦ ⟨e.pos, fun _ ↦ ⟨rfl, by simp [firstRun, henc]⟩⟩
  have hraw : ∀ run ∈ [0, e.numBytes + 1].map fun o ↦ firstRun e o r, run.Plain := by
    intro run hrun
    obtain ⟨o, -, rfl⟩ := mem_map.1 hrun
    exact hplain o
  have hkernel : ∀ run ∈ [0, e.numBytes + 1].flatMap fun o ↦ layRuns e.encoded o (r :: ranges),
      run.Plain := by
    intro run hrun
    obtain ⟨o, -, hrun⟩ := mem_flatMap.1 hrun
    exact (mem_layRuns hpos hrun).1
  have htwo : 1 < (coalesceFileRuns ([0, e.numBytes + 1].map fun o ↦ firstRun e o r)).length := by
    rw [← not_le, length_coalesceFileRuns_le hraw, sortRuns_eq_of_perm (List.Perm.refl _)
      (by simp [firstRun])]
    simp only [map_cons, map_nil, isChain_pair, FileRun.Joins, firstRun]
    omega
  have hcovers := (hagree.imp hparse h rfl rfl).2 htwo
  -- both copies are stored at the same place
  have hsame : ∀ u, (r.1 ≤ u ∧ u < r.1 + e.numBytes) ↔
      (r.1 ≤ u ∧ u < r.1 + totalBytes (r :: ranges)) := by
    intro u
    have hu := hcovers u
    rw [covers_coalesceFileRuns hraw, covers_coalesceFileRuns hkernel] at hu
    have hflat :
      diskRanges ([0, e.numBytes + 1].flatMap fun o ↦ layRuns e.encoded o (r :: ranges)) =
        (r :: ranges) ++ (r :: ranges) := by
      rw [flatMap_cons, flatMap_cons, flatMap_nil, append_nil, diskRanges,
        map_append, ← diskRanges, ← diskRanges, diskRanges_layRuns _ hpos,
        diskRanges_layRuns _ hpos]
    rw [hflat, covers_append, or_self, (covers_of_isChain hchain hpos).2] at hu
    rw [← hu]
    simp [diskRanges, firstRun, henc, covers_cons, not_covers_nil]
  have hlow := hsame (r.1 + e.numBytes)
  have hhigh := hsame (r.1 + totalBytes (r :: ranges))
  omega

/-- Agreement on one or two copies of an extent makes it simple. -/
theorem FileExtent.simple_of_agree (hagree : ∀ offsets, OneFileAgrees m data offsets) :
    e.Simple m := by
  cases h : e.translate m with
  | error err => exact absurd (hagree [0]) (not_oneFileAgrees_of_error hparse h)
  | ok ranges =>
    cases ranges with
    | nil => exact absurd (hagree [0]) (not_oneFileAgrees_of_nil hparse h)
    | cons r ranges =>
      obtain ⟨hpos, -⟩ := FileExtent.translate_eq_ok h
      have hchain := isChain_of_oneFileAgrees hparse h (hagree [0])
      refine ⟨r :: ranges, h, ?_⟩
      cases henc : e.encoded with
      | true =>
        rw [if_pos rfl]
        cases ranges with
        | nil => rfl
        | cons t ranges =>
          rw [henc] at hchain
          exact absurd (isChain_cons_cons.1 hchain).1.1 (by simp)
      | false =>
        rw [henc] at hchain
        have hranges := (isChain_layRuns_iff 0 hpos).1 hchain
        rw [if_neg Bool.false_ne_true]
        exact ⟨hranges, totalBytes_of_oneFileAgrees hparse henc h hranges (hagree _)⟩

end Disagreement

/-- **On which trees and extents the scanners agree.** For every chunk map, all roots and all trees:
the scanners agree if every tree that is scanned is simple. And a condition on extents alone cannot
be weaker: for every set of extent items, they agree on all trees with extent items from the set
just if every extent in the set is simple. -/
theorem scanners_agree_iff (m : Mapper) :
    (∀ roots items, (∀ id ∈ rootIds roots, ∀ tree ∈ items id, SimpleTree m tree) →
      ScannersAgree m roots items) ∧
    ∀ X : Set (List UInt8), (∀ roots items, (∀ id ∈ rootIds roots, ∀ tree ∈ items id,
        ∀ item ∈ tree, item.key.type = extentData → item.data ∈ X) → ScannersAgree m roots items) ↔
      ∀ data ∈ X, ∀ e, parseExtent data = .extent e → e.Simple m := by
  refine ⟨fun roots items ↦ scannersAgree_of_simple, fun X ↦ ⟨?_, ?_⟩⟩
  · intro hagree data hdata e hparse
    refine FileExtent.simple_of_agree hparse fun offsets ↦
      hagree _ _ fun _ _ tree htree item hitem htype ↦ ?_
    obtain rfl := Option.some.inj htree
    rcases mem_cons.1 hitem with rfl | hitem
    · cases htype
    · obtain ⟨o, -, rfl⟩ := mem_map.1 hitem
      exact hdata
  · intro hsimple roots items hitems
    refine scannersAgree_of_simple fun id hid tree htree item hitem htype e hparse ↦ ?_
    have he := hsimple item.data (hitems id hid tree htree item hitem htype) e hparse
    exact ⟨he.translate, fun _ ↦ he⟩

/-- A data chunk with both of its copies on the device. -/
def dupChunk : Chunk := ⟨65536, 16384, 0x21, 65536, [(1, 0), (1, 32768)]⟩

/-- An extent of 4096 bytes at the start of the chunk. -/
def dupExtent : List UInt8 :=
  List.replicate 20 0 ++ [1] ++ [0, 0, 1, 0, 0, 0, 0, 0] ++ [0, 16, 0, 0, 0, 0, 0, 0] ++
    List.replicate 8 0 ++ [0, 16, 0, 0, 0, 0, 0, 0]

/-- **Two copies of one extent.** The kernel scanner reports a file with this one extent as
fragmented. -/
theorem dup_extent_fragmented_for_kernel : ∃ m, Mapper.ofChunks [dupChunk] 1 65536 = .ok m ∧
    scanFilesystemTrees m [(5, 1)] (fun _ ↦ some (oneFile dupExtent [0])) =
      .ok ⟨1, 0, 0, [], 1, 0⟩ ∧
    kernelScanFilesystemTrees m [(5, 1)] (fun _ ↦ some (oneFile dupExtent [0])) =
      .ok ⟨1, 0, 1, [(0, 4096), (32768, 36864)], 1, 0⟩ :=
  ⟨_, rfl, by decide +kernel, by decide +kernel⟩

end LinuxDefragger.Btrfs
