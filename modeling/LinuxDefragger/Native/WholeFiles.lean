import LinuxDefragger.Native.SourceScan
import Mathlib.Data.List.Sort

/-!
# Whole files on older XFS

On kernels without range exchange, `xfsLegacyCompactPass` moves whole files: it releases the next
bytes of a gap, has a donor file allocated there and swaps the extent maps of the two. A file is
chosen when it fits and its **last** extent ends above the range it is to have.

One bound for all extents is enough for a file that lies above the gap as a whole. A file that also
has an extent below the gap passes the same test, and that extent is moved up.
-/

open List

namespace LinuxDefragger.Native

/-! ### Files as candidates -/

/-- One step of the loop of `_logical_data_runs` on the runs so far, the last one first. -/
def addRun (runs : List (ℕ × ℕ)) (e : FiemapExtent) : List (ℕ × ℕ) :=
  match runs with
  | [] => [(e.logical, e.logical + e.length)]
  | (start, stop) :: rest =>
    if e.logical ≤ stop then (start, max stop (e.logical + e.length)) :: rest
    else (e.logical, e.logical + e.length) :: (start, stop) :: rest

/-- The ranges of the file that have data, as offset and length. -/
def logicalDataRuns (extents : List FiemapExtent) : List (ℕ × ℕ) :=
  (((extents.insertionSort fun a b ↦ a.logical ≤ b.logical).foldl addRun []).reverse).map
    fun run ↦ (run.1, run.2 - run.1)

/-- The scan admits no extent without length. -/
structure XfsWholeFile where
  path : Path
  size : ℕ
  extents : List FiemapExtent
  positive : ∀ e ∈ extents, 0 < e.length

namespace XfsWholeFile

variable (f : XfsWholeFile)

/-- `XfsWholeFile.allocated_bytes` -/
def allocatedBytes : ℕ := ((logicalDataRuns f.extents).map Prod.snd).sum

/-- The greatest end of an extent. -/
def physicalEnd : ℕ := (f.extents.map FiemapExtent.physicalEnd).foldl max 0

end XfsWholeFile

/-- What `_scan_xfs_whole_files` collects. -/
structure WholeScan where
  candidates : List XfsWholeFile
  files : ℕ
  skipped : ℕ
  /-- The inodes seen, by which a second name of a file is passed over. -/
  seen : List ℕ

/-- An extent that `_scan_xfs_whole_files` refuses, with the file it belongs to. -/
def isBadExtent (blockSize deviceBytes : ℕ) (e : FiemapExtent) : Bool :=
  e.flags &&& unmovableFiemapFlags ≠ 0 || e.logical % blockSize ≠ 0 || e.physical % blockSize ≠ 0 ||
    e.length % blockSize ≠ 0 || e.length = 0 || deviceBytes < e.physicalEnd

theorem positive_of_not_bad {blockSize deviceBytes : ℕ} {extents : List FiemapExtent}
    (h : ¬extents.any (isBadExtent blockSize deviceBytes)) : ∀ e ∈ extents, 0 < e.length := by
  intro e he
  refine Nat.pos_of_ne_zero fun hzero ↦ h (any_eq_true.2 ⟨e, he, ?_⟩)
  simp [isBadExtent, hzero]

/-- One opened file of the scan; `size` is `st_size` by inode. -/
def Mounted.scanWholeFile (m : Mounted) (size : ℕ → ℕ) (blockSize deviceBytes : ℕ)
    (scan : WholeScan)
    (file : Path × ℕ) : WholeScan :=
  if file.2 ∈ scan.seen then scan
  else
    let scan := { scan with files := scan.files + 1, seen := scan.seen ++ [file.2] }
    if size file.2 = 0 ∨ m.xflags file.2 &&& unmovableXflags ≠ 0 then
      { scan with skipped := scan.skipped + 1 }
    else if m.extents file.2 = [] then scan
    else if h : (m.extents file.2).any (isBadExtent blockSize deviceBytes) then
      { scan with skipped := scan.skipped + 1 }
    else
      let candidate : XfsWholeFile :=
        ⟨file.1, size file.2, m.extents file.2, positive_of_not_bad h⟩
      if candidate.allocatedBytes = 0 then scan
      else { scan with candidates := scan.candidates ++ [candidate] }

/-- The candidates that end highest come first, then the largest. -/
def Mounted.scanXfsWholeFiles (m : Mounted) (size : ℕ → ℕ) (blockSize deviceBytes : ℕ) :
    WholeScan :=
  let scan := (m.walk (1 + m.root.directories) [([], m.root)]).foldl
    (m.scanWholeFile size blockSize deviceBytes) ⟨[], 0, 0, []⟩
  { scan with candidates := scan.candidates.insertionSort fun a b ↦ b.physicalEnd < a.physicalEnd ∨
      (a.physicalEnd = b.physicalEnd ∧ b.allocatedBytes ≤ a.allocatedBytes) }

/-! ### The pass -/

/-- The calls of the pass beside those of `Kernel`. -/
structure XfsKernel (σ : Type) extends Kernel σ where
  /-- `fallocate` with `FALLOC_FL_PUNCH_HOLE`, then `fsync`. -/
  punchHole : ℕ → ℕ → ℕ → EStateM Fault σ Unit
  /-- `fallocate` of a range, then `fsync`. -/
  allocate : ℕ → ℕ → ℕ → EStateM Fault σ Unit
  bulkstat : ℕ → Sys σ Unit
  /-- `_xfs_create_legacy_donor` up to its `fiemap`: a temporary file is made, allocated like the
  source and filled with its data. -/
  buildDonor : ℕ → XfsWholeFile → Sys σ ℕ
  /-- `XFS_IOC_SWAPEXT` of the two files. -/
  swapExtents : ℕ → ℕ → ℕ → EStateM Errno σ Unit

/-- A file that the pass selected: the gap, the cursor in it and, once the swap is made, the extents
that the file has got. -/
structure Selection where
  gap : CollectorExtent
  cursor : ℕ
  file : XfsWholeFile
  swapped : Option (List FiemapExtent)

/-- The end of the range the file is to have. -/
def Selection.targetEnd (s : Selection) : ℕ := s.cursor + s.file.allocatedBytes

/-- What the pass works on. -/
structure WholeState (σ : Type) where
  world : σ
  remaining : List XfsWholeFile
  result : ExtentPassResult
  /-- The files selected, oldest first. -/
  selections : List Selection

/-- The test of the selection. -/
def fitsBelow (cursor available : ℕ) (f : XfsWholeFile) : Bool :=
  f.allocatedBytes ≤ available && cursor + f.allocatedBytes < f.physicalEnd

section Pass

variable {σ : Type} (K : XfsKernel σ)

/-- `SpaceCollector.release_slice` -/
def releaseSlice (gap : CollectorExtent) (logical physical length : ℕ) : Sys σ Unit := do
  verifySlice K.toKernel gap logical physical length
  call (K.punchHole gap.fd logical length)

/-- The checks of `_xfs_create_legacy_donor` on the extents of the donor. -/
def checkDonor (extents : List FiemapExtent) (source : XfsWholeFile) (targetStart targetEnd : ℕ) :
    Sys σ Unit :=
  if extents = [] then
    throw (.sourceNotMovable "temporary XFS donor received no physical allocation")
  else if extents.any fun e ↦ e.flags &&& unmovableFiemapFlags ≠ 0 then
    throw (.sourceNotMovable "temporary XFS donor has an unsupported extent type")
  else if extents.length > source.extents.length then
    throw (.sourceNotMovable
      "legacy XFS donor would increase the file's physical fragment count")
  else if (extents.map FiemapExtent.length).sum ≠ source.allocatedBytes then
    throw (.sourceNotMovable "legacy XFS donor allocation does not match the source allocation")
  else if extents.any fun e ↦ e.physical < targetStart || targetEnd < e.physicalEnd then
    throw (.sourceNotMovable
      "XFS allocated the temporary donor outside the released low collector range")
  else pure ()

/-- `_xfs_legacy_swapext` -/
def xfsLegacySwapext (sourceFd donorFd length : ℕ) : Sys σ Unit := fun w ↦
  match K.swapExtents sourceFd donorFd length w with
  | .error e w =>
    if e = .enotty ∨ e = .eopnotsupp ∨ e = .enosys then .error .legacySwapUnavailable w
    else if e = .einval ∨ e = .eperm ∨ e = .etxtbsy ∨ e = .ebusy ∨ e = .efault then
      .error (.sourceNotMovable "the XFS kernel refused to swap") w
    else .error (.fault (.osError e)) w
  | .ok _ w => .ok () w

/-- The `try` block of the pass for a selected file; it returns the extents of the donor. -/
def swapWholeFile (source : XfsWholeFile) (targetStart targetEnd : ℕ) :
    Sys σ (List FiemapExtent) := do
  let sourceFd ← call (K.openFile source.path)
  let current ← call (K.fiemap sourceFd 0 (2 ^ 64 - 1))
  if current.map (fun e ↦ (e.logical, e.physical, e.length)) ≠
      source.extents.map (fun e ↦ (e.logical, e.physical, e.length)) then
    throw (.sourceNotMovable "source extent map changed before legacy exchange")
  K.bulkstat sourceFd
  let donorFd ← K.buildDonor sourceFd source
  let donorExtents ← call (K.fiemap donorFd 0 (2 ^ 64 - 1))
  checkDonor donorExtents source targetStart targetEnd
  xfsLegacySwapext K sourceFd donorFd source.size
  call (K.fsync sourceFd)
  call (K.fsync donorFd)
  return donorExtents

/-- The selection is recorded. -/
def WholeState.select (st : WholeState σ) (w : σ) (s : Selection) : WholeState σ :=
  { st with world := w, selections := st.selections ++ [s] }

/-- `result.blocked_reason = …` -/
def WholeState.block (st : WholeState σ) (reason : String) : WholeState σ :=
  { st with result := { st.result with blockedReason := some (reason, []) } }

/-- The file counts as moved. -/
def WholeState.count (st : WholeState σ) (length : ℕ) : WholeState σ :=
  { st with result := { st.result with
    movedBytes := st.result.movedBytes + length
    transactions := st.result.transactions + 1 } }

/-- The file counts as skipped. -/
def WholeState.countSkipped (st : WholeState σ) : WholeState σ :=
  { st with result := { st.result with runtimeSkipped := st.result.runtimeSkipped + 1 } }

/-- What one round of the inner loop leads to. -/
inductive WholeRound
  | ends (e : Ending)
  | leaves
  /-- The file was not movable; the cursor stays. -/
  | skips
  | moves (length : ℕ)

/-- A selected file is released a target, swapped and, whatever came of it, the collector takes back
what is free. -/
def relocateFile (gap : CollectorExtent) (cursorLogical cursor : ℕ) (file : XfsWholeFile)
    (st : WholeState σ) : WholeRound × WholeState σ :=
  match releaseSlice K gap cursorLogical cursor file.allocatedBytes st.world with
  | .error e w => (.ends (.raised e), st.select w ⟨gap, cursor, file, none⟩)
  | .ok _ w =>
    match swapWholeFile K file cursor (cursor + file.allocatedBytes) w with
    | .ok donorExtents w =>
      match call (K.allocate gap.fd cursorLogical file.allocatedBytes) w with
      | .error e w => (.ends (.raised e), st.select w ⟨gap, cursor, file, some donorExtents⟩)
      | .ok _ w => (.moves file.allocatedBytes, (st.count file.allocatedBytes).select w
          ⟨gap, cursor, file, some donorExtents⟩)
    | .error e w =>
      match call (K.allocate gap.fd cursorLogical file.allocatedBytes) w with
      | .error e' w => (.ends (.raised e'), st.select w ⟨gap, cursor, file, none⟩)
      | .ok _ w =>
        match e with
        | .sourceNotMovable _ =>
          (if st.remaining.isEmpty then .leaves else .skips,
            st.countSkipped.select w ⟨gap, cursor, file, none⟩)
        | e => (.ends (.raised e), st.select w ⟨gap, cursor, file, none⟩)

/-- One round of the inner loop of `_xfs_legacy_compact_pass`, with the cursor inside the gap. -/
def wholeRound (gap : CollectorExtent) (cursor cursorLogical : ℕ) (st : WholeState σ) :
    WholeRound × WholeState σ :=
  if K.stopRequested st.world then
    (.ends .returned, { st with result := { st.result with
      stopped := true
      blockedReason := some ("stop requested between atomic XFS file exchanges", []) } })
  else
    let fits := fitsBelow cursor (gap.physicalEnd - cursor)
    match st.remaining.find? fits with
    | none => (.leaves, st)
    | some file => relocateFile K gap cursorLogical cursor file
        { st with remaining := st.remaining.eraseP fits }

/-- The inner loop. Every round takes a file from `remaining`, so one round more than there are
files is enough. -/
def fillWithFiles (gap : CollectorExtent) :
    ℕ → ℕ → ℕ → WholeState σ → Option Ending × WholeState σ
  | 0, _, _, st => (some .outOfFuel, st)
  | fuel + 1, cursor, cursorLogical, st =>
    if gap.physicalEnd ≤ cursor then (none, st)
    else
      match wholeRound K gap cursor cursorLogical st with
      | (.ends e, st) => (some e, st)
      | (.leaves, st) => (none, st)
      | (.skips, st) => fillWithFiles gap fuel cursor cursorLogical st
      | (.moves n, st) => fillWithFiles gap fuel (cursor + n) (cursorLogical + n) st

/-- The outer loop. -/
def fillGapsWithFiles : List CollectorExtent → WholeState σ → Ending × WholeState σ
  | [], st => (.returned, st)
  | gap :: gaps, st =>
    match fillWithFiles K gap (st.remaining.length + 1) gap.physical gap.logical st with
    | (some e, st) => (e, st)
    | (none, st) => fillGapsWithFiles gaps st

/-- The state of the pass after the scan. -/
def WholeState.start (w : σ) (scan : WholeScan) : WholeState σ where
  world := w
  remaining := scan.candidates
  result := { runtimeSkipped := scan.skipped }
  selections := []

/-- `_xfs_legacy_compact_pass`, from the collector's gaps and the scanned candidates on. -/
def xfsLegacyCompactPass (gaps : List CollectorExtent) (scan : WholeScan) (w : σ) :
    Ending × WholeState σ :=
  if gaps.isEmpty ∨ scan.candidates.isEmpty then
    (.returned, (WholeState.start w scan).block
      "no suitable whole-file source and low free range remain")
  else
    match fillGapsWithFiles K gaps (.start w scan) with
    | (.returned, st) =>
      (.returned, if st.result.movedBytes = 0 ∧ st.result.blockedReason = none then
        st.block ("no complete movable XFS file fits a lower collector range without increasing " ++
          "its fragment count")
        else st)
    | (e, st) => (e, st)

end Pass

/-! ### What a selection guarantees -/

/-- What holds of a selection: the range lies in the gap, the last extent of the file ends above the
range, and extents that were swapped in lie in the range. -/
structure Selection.Fits (s : Selection) : Prop where
  low : s.gap.physical ≤ s.cursor
  inside : s.cursor < s.gap.physicalEnd
  high : s.targetEnd ≤ s.gap.physicalEnd
  last : s.targetEnd < s.file.physicalEnd
  swapped : ∀ donor, s.swapped = some donor → donor ≠ [] ∧
    ∀ d ∈ donor, s.cursor ≤ d.physical ∧ d.physicalEnd ≤ s.targetEnd

section Pass

variable {σ : Type} {K : XfsKernel σ}

theorem checkDonor_eq_ok {extents : List FiemapExtent} {source : XfsWholeFile} {low high : ℕ}
    {w w' : σ} (h : checkDonor extents source low high w = .ok () w') :
    extents ≠ [] ∧ ∀ d ∈ extents, low ≤ d.physical ∧ d.physicalEnd ≤ high := by
  unfold checkDonor at h
  split at h
  · cases h
  rename_i hne
  split at h
  · cases h
  split at h
  · cases h
  split at h
  · cases h
  split at h
  · cases h
  rename_i hinside
  refine ⟨hne, fun d hd ↦ ?_⟩
  have hd' : ¬(decide (d.physical < low) || decide (high < d.physicalEnd)) = true :=
    fun hout ↦ hinside (any_eq_true.2 ⟨d, hd, hout⟩)
  simpa only [Bool.or_eq_true, decide_eq_true_eq, not_or, not_lt] using hd'

/-- A swap that was made passed the checks on the donor. -/
theorem swapWholeFile_eq_ok {source : XfsWholeFile} {low high : ℕ} {donor : List FiemapExtent}
    {w w' : σ} (h : swapWholeFile K source low high w = .ok donor w') :
    donor ≠ [] ∧ ∀ d ∈ donor, low ≤ d.physical ∧ d.physicalEnd ≤ high := by
  unfold swapWholeFile at h
  obtain ⟨fd, w₁, -, h⟩ := bind_eq_sysOk.1 h
  obtain ⟨current, w₂, -, h⟩ := bind_eq_sysOk.1 h
  split at h
  · obtain ⟨_, _, h, -⟩ := bind_eq_sysOk.1 h
    cases h
  obtain ⟨_, w₃, -, h⟩ := bind_eq_sysOk.1 h
  obtain ⟨donorFd, w₄, -, h⟩ := bind_eq_sysOk.1 h
  obtain ⟨extents, w₅, -, h⟩ := bind_eq_sysOk.1 h
  obtain ⟨_, w₆, hcheck, h⟩ := bind_eq_sysOk.1 h
  obtain ⟨_, w₇, -, h⟩ := bind_eq_sysOk.1 h
  obtain ⟨_, w₈, -, h⟩ := bind_eq_sysOk.1 h
  obtain ⟨_, w₉, -, h⟩ := bind_eq_sysOk.1 h
  cases h
  exact checkDonor_eq_ok hcheck

variable {gap : CollectorExtent} {cursor cursorLogical : ℕ} {file : XfsWholeFile}
  {st st' : WholeState σ} {round : WholeRound}

/-- What the work on a selected file can do: the selection is recorded, with the extents of a donor
that passed the checks if the swap was made. -/
theorem relocateFile_cases (h : relocateFile K gap cursorLogical cursor file st = (round, st')) :
    st'.remaining = st.remaining ∧ round ≠ .ends .outOfFuel ∧
      ∃ swapped, st'.selections = st.selections ++ [⟨gap, cursor, file, swapped⟩] ∧
        ∀ donor, swapped = some donor → donor ≠ [] ∧
          ∀ d ∈ donor, cursor ≤ d.physical ∧ d.physicalEnd ≤ cursor + file.allocatedBytes := by
  unfold relocateFile at h
  split at h
  · cases h
    exact ⟨rfl, nofun, none, rfl, nofun⟩
  split at h
  · rename_i donor w hswap
    have hdonor := swapWholeFile_eq_ok hswap
    split at h
    all_goals
      cases h
      exact ⟨rfl, nofun, some donor, rfl, fun _ hd ↦ Option.some.inj hd ▸ hdonor⟩
  · split at h
    · cases h
      exact ⟨rfl, nofun, none, rfl, nofun⟩
    split at h
    · obtain ⟨rfl, rfl⟩ := Prod.mk.inj h
      refine ⟨rfl, ?_, none, rfl, nofun⟩
      split <;> nofun
    · cases h
      exact ⟨rfl, nofun, none, rfl, nofun⟩

/-- **One round** selects nothing and leaves the gap, or selects the first file that fits. -/
theorem wholeRound_cases (h : wholeRound K gap cursor cursorLogical st = (round, st'))
    (hlow : gap.physical ≤ cursor) (hcursor : cursor < gap.physicalEnd) :
    (st'.remaining = st.remaining ∧ st'.selections = st.selections ∧
      (round = .leaves ∨ round = .ends .returned)) ∨
    round ≠ .ends .outOfFuel ∧ st'.remaining.length < st.remaining.length ∧
      (∀ f ∈ st'.remaining, f ∈ st.remaining) ∧
      ∃ s : Selection, s.Fits ∧ s.gap = gap ∧ s.file ∈ st.remaining ∧
        st'.selections = st.selections ++ [s] := by
  unfold wholeRound at h
  split at h
  · cases h
    exact .inl ⟨rfl, rfl, .inr rfl⟩
  simp only at h
  split at h
  · cases h
    exact .inl ⟨rfl, rfl, .inl rfl⟩
  rename_i file hfind
  have hmem : file ∈ st.remaining := mem_of_find?_eq_some hfind
  have hfits : fitsBelow cursor (gap.physicalEnd - cursor) file = true := find?_some hfind
  have hbounds := hfits
  simp only [fitsBelow, Bool.and_eq_true, decide_eq_true_eq] at hbounds
  obtain ⟨hremaining, hround, swapped, hselections, hdonor⟩ := relocateFile_cases h
  refine .inr ⟨hround, ?_, fun f hf ↦ ?_, ⟨gap, cursor, file, swapped⟩,
    ⟨hlow, hcursor, ?_, hbounds.2, hdonor⟩, rfl, hmem, hselections⟩
  · have hlength := length_eraseP_of_mem hmem hfits
    have hpos := length_pos_of_mem hmem
    rw [hremaining, hlength]
    omega
  · rw [hremaining] at hf
    exact mem_of_mem_eraseP hf
  · simp only [Selection.targetEnd]
    omega

/-! ### Whole passes -/

/-- What holds in every state of the pass. -/
structure Picked (gaps : List CollectorExtent) (candidates : List XfsWholeFile)
    (st : WholeState σ) : Prop where
  remaining : ∀ f ∈ st.remaining, f ∈ candidates
  selections : ∀ s ∈ st.selections, s.Fits ∧ s.gap ∈ gaps ∧ s.file ∈ candidates

variable {gaps : List CollectorExtent} {candidates : List XfsWholeFile}

section

variable (hst : Picked gaps candidates st)
include hst

/-- A round keeps the invariant, and the loop goes on only with fewer files. -/
theorem Picked.wholeRound (hgap : gap ∈ gaps)
    (h : Native.wholeRound K gap cursor cursorLogical st = (round, st'))
    (hlow : gap.physical ≤ cursor)
    (hcursor : cursor < gap.physicalEnd) :
    Picked gaps candidates st' ∧ round ≠ .ends .outOfFuel ∧
      (round = .leaves ∨ round = .ends .returned ∨ st'.remaining.length < st.remaining.length) := by
  rcases wholeRound_cases h hlow hcursor with ⟨hremaining, hselections, hround⟩ |
    ⟨hround, hlt, hsub, s, hfits, rfl, hfile, hselections⟩
  · refine ⟨⟨hremaining ▸ hst.remaining, hselections ▸ hst.selections⟩, ?_, ?_⟩
    · rcases hround with rfl | rfl <;> nofun
    · exact hround.imp_right .inl
  · refine ⟨⟨fun f hf ↦ hst.remaining f (hsub f hf), fun t ht ↦ ?_⟩, hround, .inr (.inr hlt)⟩
    rw [hselections] at ht
    rcases mem_append.1 ht with ht | ht
    · exact hst.selections t ht
    · obtain rfl := mem_singleton.1 ht
      exact ⟨hfits, hgap, hst.remaining _ hfile⟩

theorem fillWithFiles_picked {fuel : ℕ} {e : Option Ending}
    (hgap : gap ∈ gaps) (hlow : gap.physical ≤ cursor) (hfuel : st.remaining.length < fuel)
    (h : fillWithFiles K gap fuel cursor cursorLogical st = (e, st')) :
    Picked gaps candidates st' ∧ e ≠ some .outOfFuel := by
  induction fuel generalizing cursor cursorLogical st with
  | zero => omega
  | succ fuel ih =>
    rw [fillWithFiles] at h
    split at h
    · cases h
      exact ⟨hst, nofun⟩
    rename_i hcursor
    cases hround : wholeRound K gap cursor cursorLogical st with
    | mk round next =>
      obtain ⟨hnext, hne, hless⟩ := hst.wholeRound hgap hround hlow (not_le.1 hcursor)
      rw [hround] at h
      cases round with
      | ends e =>
        cases h
        exact ⟨hnext, fun he ↦ hne (congrArg WholeRound.ends (Option.some.inj he))⟩
      | leaves =>
        cases h
        exact ⟨hnext, nofun⟩
      | skips =>
        have hless : next.remaining.length < st.remaining.length := by simpa using hless
        exact ih hnext hlow (by omega) h
      | moves n =>
        have hless : next.remaining.length < st.remaining.length := by simpa using hless
        exact ih hnext (by omega) (by omega) h

theorem fillGapsWithFiles_picked {rest : List CollectorExtent} {e : Ending}
    (hrest : ∀ g ∈ rest, g ∈ gaps)
    (h : fillGapsWithFiles K rest st = (e, st')) :
    Picked gaps candidates st' ∧ e ≠ .outOfFuel := by
  induction rest generalizing st with
  | nil =>
    cases h
    exact ⟨hst, nofun⟩
  | cons gap rest ih =>
    rw [fillGapsWithFiles] at h
    cases hfill : fillWithFiles K gap (st.remaining.length + 1) gap.physical gap.logical st with
    | mk ending next =>
      obtain ⟨hnext, hne⟩ :=
        fillWithFiles_picked hst (hrest gap mem_cons_self) le_rfl (Nat.lt_succ_self _) hfill
      rw [hfill] at h
      cases ending with
      | none => exact ih hnext (fun g hg ↦ hrest g (mem_cons_of_mem _ hg)) h
      | some ending =>
        cases h
        exact ⟨hnext, fun he ↦ hne (congrArg some he)⟩

end

/-- **The pass ends**, and all it selects fits. -/
theorem xfsLegacyCompactPass_picked (K : XfsKernel σ) (gaps : List CollectorExtent)
    (scan : WholeScan) (w : σ) :
    Picked gaps scan.candidates (xfsLegacyCompactPass K gaps scan w).2 ∧
      (xfsLegacyCompactPass K gaps scan w).1 ≠ .outOfFuel := by
  have hstart : Picked gaps scan.candidates (WholeState.start w scan) := ⟨fun _ h ↦ h, nofun⟩
  unfold xfsLegacyCompactPass
  split
  · exact ⟨⟨hstart.remaining, hstart.selections⟩, nofun⟩
  · cases hfill : fillGapsWithFiles K gaps (.start w scan) with
    | mk e st =>
      obtain ⟨hst, hne⟩ := fillGapsWithFiles_picked hstart (fun _ h ↦ h) hfill
      cases e with
      | returned =>
        refine ⟨?_, nofun⟩
        dsimp only
        split
        · exact ⟨hst.remaining, hst.selections⟩
        · exact hst
      | raised e => exact ⟨hst, nofun⟩
      | outOfFuel => exact absurd rfl hne

end Pass

/-! ### Up or down -/

/-- The file moves down: all its extents lie above the range it is to have, and what it gets by the
swap lies below all of them. -/
def Selection.MovesDown (s : Selection) : Prop :=
  (∀ e ∈ s.file.extents, s.targetEnd ≤ e.physical) ∧
    ∀ donor, s.swapped = some donor → ∀ d ∈ donor, ∀ e ∈ s.file.extents, d.physicalEnd ≤ e.physical

/-- A selected file whose extents are apart from the gap moves down unless one of them lies below
it. -/
theorem Selection.Fits.movesDown_iff {s : Selection} (h : s.Fits)
    (hapart : ∀ e ∈ s.file.extents, Apart e.physical e.length s.gap.physical s.gap.length) :
    s.MovesDown ↔ ∀ e ∈ s.file.extents, s.gap.physical < e.physicalEnd := by
  have hlow := h.low
  have hinside := h.inside
  have hhigh := h.high
  have htarget : s.cursor ≤ s.targetEnd := Nat.le_add_right _ _
  constructor
  · intro hdown e he
    have hpos := s.file.positive e he
    have habove := hdown.1 e he
    unfold FiemapExtent.physicalEnd
    omega
  · intro hextents
    have habove : ∀ e ∈ s.file.extents, s.targetEnd ≤ e.physical := by
      intro e he
      have hpos := s.file.positive e he
      have hend := hextents e he
      have hgap := hapart e he
      unfold Apart at hgap
      unfold FiemapExtent.physicalEnd at hend
      unfold CollectorExtent.physicalEnd at hhigh hinside
      omega
    exact ⟨habove, fun donor hdonor d hd e he ↦
      ((h.swapped donor hdonor).2 d hd).2.trans (habove e he)⟩

/-- No candidate that passes the test of the pass at the start of a gap, that is, fits the gap and
ends above its place in it, has an extent below the gap. -/
def NoneStraddles (gaps : List CollectorExtent) (candidates : List XfsWholeFile) : Prop :=
  ∀ f ∈ candidates, ∀ g ∈ gaps, fitsBelow g.physical g.length f →
    ∀ e ∈ f.extents, g.physical < e.physicalEnd

instance (gaps : List CollectorExtent) (candidates : List XfsWholeFile) :
    Decidable (NoneStraddles gaps candidates) :=
  inferInstanceAs (Decidable (∀ f ∈ candidates, ∀ g ∈ gaps, fitsBelow g.physical g.length f →
    ∀ e ∈ f.extents, g.physical < e.physicalEnd))

/-- A selected file passes the test at the start of its gap, too. -/
theorem Selection.Fits.fitsBelow {s : Selection} (h : s.Fits) :
    fitsBelow s.gap.physical s.gap.length s.file = true := by
  have hlow := h.low
  have hhigh := h.high
  have hlast := h.last
  simp only [targetEnd, CollectorExtent.physicalEnd] at hhigh hlast
  simp only [Native.fitsBelow, Bool.and_eq_true, decide_eq_true_eq]
  omega

/-- **Which files go down.** If no candidate straddles a gap it fits, every file that the pass
selects moves down as a whole, whatever the kernel does; and in any run a selected file moves down
just if none of its extents lies below the gap it is selected for. -/
theorem selected_files_move_down {σ : Type} (K : XfsKernel σ) (gaps : List CollectorExtent)
    (scan : WholeScan) (w : σ)
    (hapart : ∀ f ∈ scan.candidates, ∀ e ∈ f.extents, ∀ g ∈ gaps,
      Apart e.physical e.length g.physical g.length) :
    (NoneStraddles gaps scan.candidates →
      ∀ s ∈ (xfsLegacyCompactPass K gaps scan w).2.selections, s.MovesDown) ∧
    ∀ s ∈ (xfsLegacyCompactPass K gaps scan w).2.selections,
      s.MovesDown ↔ ∀ e ∈ s.file.extents, s.gap.physical < e.physicalEnd := by
  have hpicked := (xfsLegacyCompactPass_picked K gaps scan w).1.selections
  have hiff : ∀ s ∈ (xfsLegacyCompactPass K gaps scan w).2.selections,
      s.MovesDown ↔ ∀ e ∈ s.file.extents, s.gap.physical < e.physicalEnd := by
    intro s hs
    obtain ⟨hfits, hgap, hfile⟩ := hpicked s hs
    exact hfits.movesDown_iff fun e he ↦ hapart s.file hfile e he s.gap hgap
  refine ⟨fun hnone s hs ↦ (hiff s hs).2 ?_, hiff⟩
  obtain ⟨hfits, hgap, hfile⟩ := hpicked s hs
  exact hnone s.file hfile s.gap hgap hfits.fitsBelow

/-- The free range `[8192, 16384)`, held by the collector. -/
def middleGap : CollectorExtent := ⟨100, 0, 8192, 8192, 0⟩

/-- A filesystem with one file, of two blocks, at these places. -/
def twoBlockMount (first second : ℕ) : Mounted where
  root := .file "a" 5 .nil
  lists := fun _ ↦ true
  opens := fun _ ↦ true
  excluded := ["workspace"]
  xflags := fun _ ↦ 0
  extents := fun _ ↦ [⟨0, first, 4096, 0⟩, ⟨4096, second, 4096, 0⟩]

/-- A kernel that does all it is asked for and allocates the donor in the range just released. -/
def obligingKernel (file : List FiemapExtent) : XfsKernel Unit where
  stopRequested := fun _ ↦ false
  openFile := fun _ w ↦ .ok 5 w
  fiemap := fun fd _ _ w ↦ .ok (if fd = 5 then file else [⟨0, 8192, 8192, 0⟩]) w
  copyRange := fun _ _ _ _ _ w ↦ .ok () w
  fsync := fun _ w ↦ .ok () w
  moveExtents := fun _ _ _ _ n w ↦ .ok n w
  exchangeRange := fun _ _ _ _ _ w ↦ .ok () w
  punchHole := fun _ _ _ w ↦ .ok () w
  allocate := fun _ _ _ w ↦ .ok () w
  bulkstat := fun _ w ↦ .ok () w
  buildDonor := fun _ _ w ↦ .ok 6 w
  swapExtents := fun _ _ _ w ↦ .ok () w

/-- The run on the file at these places. -/
def twoBlockRun (first second : ℕ) : WholeState Unit :=
  (xfsLegacyCompactPass (obligingKernel ((twoBlockMount first second).extents 5)) [middleGap]
    ((twoBlockMount first second).scanXfsWholeFiles (fun _ ↦ 8192) 4096 65536) ()).2

/-- The file with blocks at 16384 and 24576 is selected, and moves down. -/
theorem selected_files_move_down_high :
    (twoBlockRun 16384 24576).selections.length = 1 ∧
      ∀ s ∈ (twoBlockRun 16384 24576).selections, s.MovesDown :=
  ⟨by decide +kernel, (selected_files_move_down _ _ _ _ (by decide +kernel)).1 (by decide +kernel)⟩

/-- **A file may move up.** The block at 0 of a file whose other block is at 20480 goes to 8192. -/
theorem low_extent_moves_up :
    (∀ f ∈ ((twoBlockMount 0 20480).scanXfsWholeFiles (fun _ ↦ 8192) 4096 65536).candidates,
      ∀ e ∈ f.extents, Apart e.physical e.length middleGap.physical middleGap.length) ∧
    ((twoBlockRun 0 20480).selections.map fun s ↦ (s.cursor, s.file.extents, s.swapped)) =
      [(8192, [⟨0, 0, 4096, 0⟩, ⟨4096, 20480, 4096, 0⟩], some [⟨0, 8192, 8192, 0⟩])] ∧
    ¬∀ s ∈ (twoBlockRun 0 20480).selections, ∀ e ∈ s.file.extents, s.targetEnd ≤ e.physical := by
  refine ⟨by decide +kernel, by decide +kernel, by decide +kernel⟩

end LinuxDefragger.Native
