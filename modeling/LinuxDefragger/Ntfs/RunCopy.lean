import LinuxDefragger.Ntfs.Frame
import LinuxDefragger.Storage.Copy

/-!
# Copying a stream from run list to run list

`_copy_run_sequences` walks two run lists whose boundaries have nothing to do with each other, and
cuts what it copies once more at `COPY_CHUNK`. `_iter_physical_move_slices` walks the same two lists
again, for the live map.

Both are read off the same picture. A cursor in a run list stands for the units that are left,
`unitsFrom`, where a unit is a byte for the copy and a cluster for the slices. One round takes a
range off the front of both lists of units (`CursorIn.unitsFrom_advance`), so the ranges of all
rounds pair the two lists up in order.
-/

open List Storage

namespace LinuxDefragger.Ntfs

/-! ### Cursors -/

/-- The cursor after `take` units of the first run, which has `size` units. -/
def advance (size take : ℕ) (run : Run) (runs : List Run) (offset : ℕ) : List Run × ℕ :=
  if offset + take = size then (runs, 0) else (run :: runs, offset + take)

/-- The units a run list names, in order. A cluster is made of `unit` of them. -/
def runUnits (unit : ℕ) (runs : List Run) : List ℕ :=
  runs.flatMap fun run ↦ List.range' (run.lcn.getD 0 * unit) (run.length * unit)

/-- The units from `offset` on. -/
def unitsFrom (unit : ℕ) (runs : List Run) (offset : ℕ) : List ℕ := (runUnits unit runs).drop offset

/-- A cursor of one of the two loops: the runs are stored and not empty, and the offset is in the
first of them. -/
structure CursorIn (unit : ℕ) (runs : List Run) (offset : ℕ) : Prop where
  stored : ∀ run ∈ runs, run.lcn ≠ none
  pos : ∀ run ∈ runs, 0 < run.length * unit
  inside : ∀ run ∈ runs.head?, offset < run.length * unit

section Cursor

variable {unit offset : ℕ} {run : Run} {runs : List Run}

theorem unitsFrom_nil : unitsFrom unit [] offset = [] := drop_nil

theorem runUnits_cons : runUnits unit (run :: runs) =
    range' (run.lcn.getD 0 * unit) (run.length * unit) ++ runUnits unit runs :=
  flatMap_cons

section

variable (h : CursorIn unit (run :: runs) offset)
include h

/-- **What a round takes off a cursor.** -/
theorem CursorIn.unitsFrom_advance {take : ℕ} (htake : take ≤ run.length * unit - offset) :
    unitsFrom unit (run :: runs) offset = range' (run.lcn.getD 0 * unit + offset) take ++
        unitsFrom unit (advance (run.length * unit) take run runs offset).1
          (advance (run.length * unit) take run runs offset).2 := by
  have hin : offset < run.length * unit := h.inside run rfl
  have hdrop {n : ℕ} {xs ys : List ℕ} (hn : xs.length = n) : (xs ++ ys).drop n = ys := by
    rw [← hn, drop_left]
  have hleft : unitsFrom unit (run :: runs) offset = range' (run.lcn.getD 0 * unit + offset) take ++
        (range' (run.lcn.getD 0 * unit + offset + take) (run.length * unit - (offset + take)) ++
          runUnits unit runs) := by
    obtain ⟨rest, hrest⟩ : ∃ rest, run.length * unit = offset + (take + rest) :=
      ⟨run.length * unit - (offset + take), by omega⟩
    rw [unitsFrom, runUnits_cons, hrest, ← range'_append_1, ← range'_append_1,
      append_assoc, hdrop length_range', append_assoc,
      show offset + (take + rest) - (offset + take) = rest by omega]
  rw [Ntfs.advance]
  split_ifs with hend
  · -- nothing is left of the run
    rw [hleft, hend, Nat.sub_self, range'_zero, nil_append]
    rfl
  · rw [show unitsFrom unit (run :: runs) (offset + take) =
      (unitsFrom unit (run :: runs) offset).drop take from drop_drop.symm, hleft,
      hdrop length_range']

theorem CursorIn.unitsFrom_ne_nil : unitsFrom unit (run :: runs) offset ≠ [] := by
  have hin : offset < run.length * unit := h.inside run rfl
  intro hnil
  have hlen : (runUnits unit (run :: runs)).length ≤ offset := drop_eq_nil_iff.1 hnil
  rw [runUnits_cons, length_append, length_range'] at hlen
  omega

theorem CursorIn.advance {take : ℕ} (htake : take ≤ run.length * unit - offset) :
    CursorIn unit (advance (run.length * unit) take run runs offset).1
      (advance (run.length * unit) take run runs offset).2 := by
  have hin : offset < run.length * unit := h.inside run rfl
  unfold Ntfs.advance
  split_ifs with hend
  · refine ⟨fun r hr ↦ h.stored r (mem_cons_of_mem _ hr),
      fun r hr ↦ h.pos r (mem_cons_of_mem _ hr), fun r hr ↦ ?_⟩
    exact h.pos r (mem_cons_of_mem _ (mem_of_mem_head? hr))
  · refine ⟨h.stored, h.pos, fun r hr ↦ ?_⟩
    obtain rfl := Option.some.inj hr
    show offset + take < _
    omega

end

end Cursor

/-! ### The copy -/

section Copy

variable {cs chunk : ℕ}

theorem copyLoop_cons {fuel sourceOffset destinationOffset remaining : ℕ} {source destination : Run}
    {sources destinations : List Run} {disk : NtfsDisk} (hremaining : remaining ≠ 0) :
    copyLoop cs chunk (fuel + 1) (source :: sources) sourceOffset (destination :: destinations)
        destinationOffset remaining disk =
      let take := min (min chunk (source.length * cs - sourceOffset))
        (min (destination.length * cs - destinationOffset) remaining)
      let nextSource := advance (source.length * cs) take source sources sourceOffset
      let nextDestination :=
        advance (destination.length * cs) take destination destinations destinationOffset
      preadExact disk take (source.lcn.getD 0 * cs + sourceOffset) >>= fun data ↦
        copyLoop cs chunk fuel nextSource.1 nextSource.2 nextDestination.1 nextDestination.2
          (remaining - take)
          (disk.pwrite data (destination.lcn.getD 0 * cs + destinationOffset)) := by
  rw [copyLoop, if_neg hremaining]
  rfl

/-- **The loop copies everything that is left, byte for byte.** -/
theorem copyLoop_copies {fuel sourceOffset destinationOffset remaining : ℕ}
    {sources destinations : List Run} {disk : NtfsDisk} (hchunk : 0 < chunk)
    (hsource : CursorIn cs sources sourceOffset)
    (hdestination : CursorIn cs destinations destinationOffset)
    (hsources : (unitsFrom cs sources sourceOffset).length = remaining)
    (hdestinations : (unitsFrom cs destinations destinationOffset).length = remaining)
    (hfuel : remaining ≤ fuel) (hsize : ∀ a ∈ unitsFrom cs sources sourceOffset, a < disk.size)
    (hdisjoint : (unitsFrom cs sources sourceOffset).Disjoint
      (unitsFrom cs destinations destinationOffset))
    (hnodup : (unitsFrom cs destinations destinationOffset).Nodup) :
    ∃ disk', copyLoop cs chunk fuel sources sourceOffset destinations destinationOffset remaining
        disk = .ok disk' ∧
      Copied ((unitsFrom cs sources sourceOffset).zip (unitsFrom cs destinations destinationOffset))
        disk.image disk.image disk'.image := by
  induction fuel generalizing sources sourceOffset destinations destinationOffset
    remaining disk with
  | zero =>
    obtain rfl : remaining = 0 := by omega
    rw [length_eq_zero_iff.1 hsources]
    exact ⟨disk, rfl, .nil _ _⟩
  | succ fuel ih =>
    rcases Nat.eq_zero_or_pos remaining with rfl | hpos
    · rw [length_eq_zero_iff.1 hsources]
      exact ⟨disk, by simp [copyLoop, pure, Except.pure], .nil _ _⟩
    · obtain _ | ⟨source, sources⟩ := sources
      · rw [unitsFrom_nil] at hsources
        exact absurd hsources hpos.ne
      obtain _ | ⟨destination, destinations⟩ := destinations
      · rw [unitsFrom_nil] at hdestinations
        exact absurd hdestinations hpos.ne
      have hin := hsource.inside source rfl
      have hin' := hdestination.inside destination rfl
      rw [copyLoop_cons (by omega)]
      obtain ⟨take, htake⟩ : ∃ take, take = min (min chunk (source.length * cs - sourceOffset))
        (min (destination.length * cs - destinationOffset) remaining) := ⟨_, rfl⟩
      simp only [← htake]
      -- the round takes `take` bytes off both ends
      have hS := hsource.unitsFrom_advance (show take ≤ _ by omega)
      have hD := hdestination.unitsFrom_advance (show take ≤ _ by omega)
      rw [hS] at hsources hsize hdisjoint ⊢
      rw [hD] at hdestinations hdisjoint hnodup ⊢
      rw [length_append, length_range'] at hsources hdestinations
      rw [disjoint_append_left, disjoint_append_right, disjoint_append_right]
        at hdisjoint
      obtain ⟨-, hnodup', hapart⟩ := nodup_append'.1 hnodup
      rw [(preadExact_eq_ok (t := take)).2
        ⟨fun a ha ↦ hsize a (mem_append_left _ ha), rfl⟩, ok_bind, ← Image.read_eq_map_range']
      obtain ⟨disk', hrun, hcopied⟩ := @ih _ _ (remaining - take) _ _
        (disk.pwrite (disk.image.read (source.lcn.getD 0 * cs + sourceOffset) take)
          (destination.lcn.getD 0 * cs + destinationOffset))
        (hsource.advance (by omega)) (hdestination.advance (by omega)) (by omega) (by omega)
        (by omega) (fun a ha ↦ hsize a (mem_append_right _ ha)) hdisjoint.2.2 hnodup'
      refine ⟨disk', hrun, ?_⟩
      rw [zip_append (by rw [length_range', length_range'])]
      refine (Copied.write disk.image _ _ _ take).append_self hcopied (fun p hp q hq heq ↦ ?_)
        (fun p hp q hq heq ↦ ?_)
      · exact hdisjoint.2.1 (of_mem_zip hq).1 (heq ▸ (of_mem_zip hp).2)
      · exact hapart (of_mem_zip hp).2 (heq ▸ (of_mem_zip hq).2)

end Copy

/-! ### The slices -/

/-- The loop of `_iter_physical_move_slices` over the runs that are left, with the offsets in the
first source and destination: the slices, once all of them have been drawn. -/
def slicesFrom (sources : List Run) (sourceOffset : ℕ) (destinations : List Run)
    (destinationOffset : ℕ) : Except PyError (List (ℕ × ℕ × ℕ)) :=
  match sources, destinations with
  | source :: sources, destination :: destinations =>
    match source.lcn, destination.lcn with
    | some sourceLcn, some destinationLcn =>
      let take := min (source.length - sourceOffset) (destination.length - destinationOffset)
      if _ : take = 0 then throw (.engine "invalid zero-length NTFS live-map slice" [])
      else do
        let slices ← slicesFrom (advance source.length take source sources sourceOffset).1
          (advance source.length take source sources sourceOffset).2
          (advance destination.length take destination destinations destinationOffset).1
          (advance destination.length take destination destinations destinationOffset).2
        return (sourceLcn + sourceOffset, destinationLcn + destinationOffset, take) :: slices
    | _, _ => throw (.engine "live map cannot describe sparse NTFS move runs" [])
  | [], [] => pure []
  | _, _ => throw (.engine "NTFS live-map source and destination lengths disagree" [])
termination_by runsLength sources - sourceOffset
decreasing_by
  rw [advance]
  split_ifs
  · simp only [runsLength, List.map_cons, List.sum_cons]
    omega
  · simp only [runsLength, List.map_cons, List.sum_cons]
    omega

/-- `_iter_physical_move_slices` -/
def iterPhysicalMoveSlices (sourceRuns destinationRuns : List Run) :
    Except PyError (List (ℕ × ℕ × ℕ)) :=
  slicesFrom (sourceRuns.filter fun run ↦ run.length ≠ 0) 0
    (destinationRuns.filter fun run ↦ run.length ≠ 0) 0

/-- The cluster pairs that slices stand for. -/
def sliceClusters (slices : List (ℕ × ℕ × ℕ)) : List (ℕ × ℕ) :=
  slices.flatMap fun slice ↦
    (List.range' slice.1 slice.2.2).zip (List.range' slice.2.1 slice.2.2)

/-- **The slices pair the clusters that are left.** -/
theorem slicesFrom_pairs {sourceOffset destinationOffset : ℕ} {sources destinations : List Run}
    (hsource : CursorIn 1 sources sourceOffset)
    (hdestination : CursorIn 1 destinations destinationOffset)
    (hlength : (unitsFrom 1 sources sourceOffset).length =
      (unitsFrom 1 destinations destinationOffset).length) :
    ∃ slices, slicesFrom sources sourceOffset destinations destinationOffset = .ok slices ∧
      sliceClusters slices =
        (unitsFrom 1 sources sourceOffset).zip (unitsFrom 1 destinations destinationOffset) := by
  induction hn : (unitsFrom 1 sources sourceOffset).length using Nat.strong_induction_on
    generalizing sources sourceOffset destinations destinationOffset with
  | _ n ih =>
    rcases sources with _ | ⟨source, sources⟩ <;>
      rcases destinations with _ | ⟨destination, destinations⟩
    · refine ⟨[], by rw [slicesFrom]; rfl, ?_⟩
      rw [unitsFrom_nil]
      rfl
    · rw [unitsFrom_nil] at hlength
      exact absurd (length_eq_zero_iff.1 hlength.symm) hdestination.unitsFrom_ne_nil
    · rw [unitsFrom_nil] at hlength
      exact absurd (length_eq_zero_iff.1 hlength) hsource.unitsFrom_ne_nil
    · have hin := hsource.inside source rfl
      have hin' := hdestination.inside destination rfl
      obtain ⟨sourceLcn, hlcn⟩ := Option.ne_none_iff_exists'.1 (hsource.stored _ mem_cons_self)
      obtain ⟨destinationLcn, hlcn'⟩ :=
        Option.ne_none_iff_exists'.1 (hdestination.stored _ mem_cons_self)
      obtain ⟨take, htake⟩ : ∃ take, take =
        min (source.length - sourceOffset) (destination.length - destinationOffset) := ⟨_, rfl⟩
      have hS := hsource.unitsFrom_advance (show take ≤ _ by omega)
      have hD := hdestination.unitsFrom_advance (show take ≤ _ by omega)
      have hsource' := hsource.advance (show take ≤ _ by omega)
      have hdestination' := hdestination.advance (show take ≤ _ by omega)
      simp only [Nat.mul_one] at hin hin' hS hD hsource' hdestination'
      rw [hS, hD, length_append, length_append, length_range', length_range'] at hlength
      rw [hS, length_append, length_range'] at hn
      obtain ⟨slices, hslices, hpairs⟩ := ih _ (by omega) hsource' hdestination' (by omega) rfl
      refine ⟨(sourceLcn + sourceOffset, destinationLcn + destinationOffset, take) ::
        slices, ?_, ?_⟩
      · rw [slicesFrom]
        simp only [hlcn, hlcn', ← htake]
        rw [dif_neg (by omega), hslices]
        rfl
      · rw [hS, hD, zip_append (by rw [length_range', length_range']), ← hpairs, hlcn, hlcn']
        rfl

/-! ### Whole run lists -/

/-- The bytes of runs, read in order. -/
def runBytes (clusterSize : ℕ) (m : Image) (runs : List Run) : List UInt8 :=
  (runClusters runs).flatMap fun c ↦ m.read (c * clusterSize) clusterSize

/-- Runs of a volume that a stream can be read from or written to: all of them are stored, no
cluster is named twice, and every cluster is on the disk. -/
structure PhysicalRuns (disk : NtfsDisk) (clusterSize : ℕ) (runs : List Run) : Prop where
  stored : ∀ run ∈ runs, run.length ≠ 0 → run.lcn ≠ none
  nodup : (runClusters runs).Nodup
  onDisk : ∀ c ∈ runClusters runs, (c + 1) * clusterSize ≤ disk.size

section Whole

variable {unit : ℕ} {runs : List Run}

theorem blocksApart_mul (unit : ℕ) : BlocksApart (· * unit) unit Set.univ := by
  have hindex {a c : ℕ} (ha : a ∈ range' (c * unit) unit) : a / unit = c := by
    obtain ⟨hlow, hhigh⟩ := mem_range'_1.1 ha
    exact Nat.div_eq_of_lt_le hlow (by rwa [Nat.succ_mul])
  exact fun x _ y _ a hx hy ↦ (hindex hx).symm.trans (hindex hy)

theorem blockAddrs_one (clusters : List ℕ) : blockAddrs (· * 1) 1 clusters = clusters := by
  simp [blockAddrs]

/-- The units that both loops start with are those of the clusters. -/
theorem unitsFrom_filter (hstored : ∀ run ∈ runs, run.length ≠ 0 → run.lcn ≠ none) :
    unitsFrom unit (runs.filter fun run ↦ run.length ≠ 0) 0 =
      blockAddrs (· * unit) unit (runClusters runs) := by
  rw [unitsFrom, drop_zero]
  induction runs with
  | nil => rfl
  | cons run runs ih =>
    have ih := ih fun r hr ↦ hstored r (mem_cons_of_mem _ hr)
    rw [runClusters, flatMap_cons, blockAddrs_append, ← runClusters, ← ih]
    by_cases hzero : run.length = 0
    · have hnil : run.clusters = [] := by
        rw [Run.clusters, hzero]
        cases run.lcn <;> rfl
      rw [filter_cons_of_neg (by simpa using hzero), hnil]
      rfl
    · obtain ⟨lcn, hlcn⟩ := Option.ne_none_iff_exists'.1 (hstored run mem_cons_self hzero)
      have hrun : blockAddrs (· * unit) unit (range' lcn run.length) =
          range' (lcn * unit) (run.length * unit) :=
        blockAddrs_range' fun k _ ↦ Nat.add_mul lcn k unit
      rw [filter_cons_of_pos (by simpa using hzero), runUnits_cons, Run.clusters, hlcn]
      exact congrArg (· ++ _) hrun.symm

theorem runsLength_filter (runs : List Run) :
    runsLength (runs.filter fun run ↦ run.length ≠ 0) = runsLength runs := by
  induction runs with
  | nil => rfl
  | cons run runs ih =>
    by_cases hzero : run.length = 0
    · rw [filter_cons_of_neg (by simpa using hzero), ih]
      simp [runsLength, hzero]
    · rw [filter_cons_of_pos (by simpa using hzero)]
      exact congrArg (run.length + ·) ih

theorem length_unitsFrom_filter (runs : List Run) :
    (unitsFrom unit (runs.filter fun run ↦ run.length ≠ 0) 0).length = runsLength runs * unit := by
  rw [← runsLength_filter, unitsFrom, drop_zero]
  induction runs.filter fun run ↦ run.length ≠ 0 with
  | nil => simp [runUnits, runsLength]
  | cons run runs ih =>
    rw [runUnits_cons, length_append, length_range', ih, ← Nat.add_mul]
    rfl

/-- Both loops start inside the first run that is not empty. -/
theorem cursorIn_filter (hunit : 0 < unit)
    (hstored : ∀ run ∈ runs, run.length ≠ 0 → run.lcn ≠ none) :
    CursorIn unit (runs.filter fun run ↦ run.length ≠ 0) 0 := by
  have hpos : ∀ run ∈ runs.filter fun run ↦ run.length ≠ 0, 0 < run.length * unit := fun run hrun ↦
    Nat.mul_pos (Nat.pos_of_ne_zero (by simpa using (mem_filter.1 hrun).2)) hunit
  refine ⟨fun run hrun ↦ ?_, hpos, fun run hrun ↦ hpos run (mem_of_mem_head? hrun)⟩
  obtain ⟨hmem, hne⟩ := mem_filter.1 hrun
  exact hstored run hmem (by simpa using hne)

theorem runBytes_eq_map (m : Image) :
    runBytes unit m runs = (blockAddrs (· * unit) unit (runClusters runs)).map m := by
  rw [blockAddrs, map_flatMap, runBytes]
  simp only [Image.read_eq_map_range']

end Whole

section Exact

variable {chunk : ℕ} {disk : NtfsDisk} {volume : Volume} {sources destinations : List Run}

/-- The whole copy, as one simultaneous assignment. -/
theorem copyRunSequences_copies (hcs : 0 < volume.clusterSize) (hchunk : 0 < chunk)
    (hlength : runsLength sources = runsLength destinations)
    (hsource : PhysicalRuns disk volume.clusterSize sources)
    (hdestination : PhysicalRuns disk volume.clusterSize destinations)
    (hdisjoint : (runClusters sources).Disjoint (runClusters destinations)) :
    ∃ disk', copyRunSequences chunk disk volume sources destinations = .ok disk' ∧
      Copied ((blockAddrs (· * volume.clusterSize) volume.clusterSize (runClusters sources)).zip
        (blockAddrs (· * volume.clusterSize) volume.clusterSize (runClusters destinations)))
        disk.image disk.image disk'.image := by
  have hcursor := cursorIn_filter hcs hsource.stored
  have hcursor' := cursorIn_filter hcs hdestination.stored
  have hloop := @copyLoop_copies _ chunk _ 0 0 _ _ _ disk hchunk hcursor hcursor'
    (length_unitsFrom_filter sources) (hlength ▸ length_unitsFrom_filter destinations) le_rfl
  rw [unitsFrom_filter hsource.stored, unitsFrom_filter hdestination.stored] at hloop
  obtain ⟨disk', hrun, hcopied⟩ := hloop
    (fun a ha ↦ by
      obtain ⟨c, hc, hin⟩ := mem_flatMap.1 ha
      have hsize := hsource.onDisk c hc
      rw [Nat.succ_mul] at hsize
      exact (mem_range'_1.1 hin).2.trans_le hsize)
    ((blocksApart_mul _).disjoint (fun _ _ ↦ trivial) (fun _ _ ↦ trivial) hdisjoint)
    ((blocksApart_mul _).nodup (fun _ _ ↦ trivial) hdestination.nodup)
  refine ⟨disk'.fsync, ?_, hcopied⟩
  rw [copyRunSequences, raiseIf_bind_of_not, raiseIf_bind_of_not, raiseIf_bind_of_not]
  · simp only [runsLength_filter, hrun]
    rfl
  · rw [runsLength_filter, runsLength_filter, not_not]
    exact hlength
  · push Not
    exact hcursor'.stored
  · push Not
    exact hcursor.stored

/-- The slices of whole run lists. -/
theorem iterPhysicalMoveSlices_pairs (hlength : runsLength sources = runsLength destinations)
    (hsource : ∀ run ∈ sources, run.length ≠ 0 → run.lcn ≠ none)
    (hdestination : ∀ run ∈ destinations, run.length ≠ 0 → run.lcn ≠ none) :
    ∃ slices, iterPhysicalMoveSlices sources destinations = .ok slices ∧
      sliceClusters slices = (runClusters sources).zip (runClusters destinations) := by
  obtain ⟨slices, hslices, hpairs⟩ := slicesFrom_pairs (cursorIn_filter Nat.one_pos hsource)
    (cursorIn_filter Nat.one_pos hdestination)
    (by rw [length_unitsFrom_filter, length_unitsFrom_filter, hlength])
  rw [unitsFrom_filter hsource, unitsFrom_filter hdestination, blockAddrs_one, blockAddrs_one]
    at hpairs
  exact ⟨slices, hslices, hpairs⟩

theorem length_runClusters {runs : List Run}
    (hstored : ∀ run ∈ runs, run.length ≠ 0 → run.lcn ≠ none) :
    (runClusters runs).length = runsLength runs := by
  have h := @length_unitsFrom_filter 1 runs
  rwa [unitsFrom_filter hstored, Nat.mul_one, blockAddrs_one] at h

/-- **A stream survives its copy.** The loop ends, the destination runs read in order hold what the
source runs held, and nothing else changed. The slices drawn for the live map pair the clusters of
the two lists, one by one and each of them once, as they were copied. -/
theorem run_copy_exact (hcs : 0 < volume.clusterSize) (hchunk : 0 < chunk)
    (hlength : runsLength sources = runsLength destinations)
    (hsource : PhysicalRuns disk volume.clusterSize sources)
    (hdestination : PhysicalRuns disk volume.clusterSize destinations)
    (hdisjoint : (runClusters sources).Disjoint (runClusters destinations)) :
    ∃ disk' slices, copyRunSequences chunk disk volume sources destinations = .ok disk' ∧
      runBytes volume.clusterSize disk'.image destinations =
        runBytes volume.clusterSize disk.image sources ∧
      ChangesWithin (clusterAddrs volume.clusterSize destinations) disk disk' ∧
      iterPhysicalMoveSlices sources destinations = .ok slices ∧
      (sliceClusters slices).map Prod.fst = runClusters sources ∧
      (sliceClusters slices).map Prod.snd = runClusters destinations ∧
      ∀ p ∈ sliceClusters slices, disk'.image.read (p.2 * volume.clusterSize) volume.clusterSize =
        disk.image.read (p.1 * volume.clusterSize) volume.clusterSize := by
  obtain ⟨disk', hrun, hcopied⟩ :=
    copyRunSequences_copies hcs hchunk hlength hsource hdestination hdisjoint
  obtain ⟨slices, hslices, hpairs⟩ :=
    iterPhysicalMoveSlices_pairs hlength hsource.stored hdestination.stored
  have hclusters : (runClusters sources).length = (runClusters destinations).length := by
    rw [length_runClusters hsource.stored, length_runClusters hdestination.stored, hlength]
  refine ⟨disk', slices, hrun, ?_, copyRunSequences_changes hcs hrun, hslices, ?_, ?_, ?_⟩
  · rw [runBytes_eq_map, runBytes_eq_map]
    exact hcopied.map_eq (by rw [length_blockAddrs, length_blockAddrs, hclusters])
  · rw [hpairs, map_fst_zip hclusters.le]
  · rw [hpairs, map_snd_zip hclusters.ge]
  · rw [hpairs]
    exact fun p hp ↦ hcopied.read_eq hp

end Exact

/-- A disk of 64 clusters of 512 bytes, every byte its own address. -/
def countingDisk : NtfsDisk where
  size := 64 * 512
  image a := UInt8.ofNat a
  journal := none
  log := []

/-- The volume on it. -/
def countingVolume : Volume where
  path := "/dev/counting"
  deviceSize := 64 * 512
  bytesPerSector := 512
  sectorsPerCluster := 1
  clusterSize := 512
  totalClusters := 64
  mftLcn := 16
  mftmirrLcn := 32
  mftRecordSize := 1024
  serial := []

/-- Three clusters in two runs, to two runs that are cut elsewhere, 100 bytes at a time. -/
theorem run_copy_countingDisk : ∃ disk' slices,
    copyRunSequences 100 countingDisk countingVolume [⟨some 36, 2⟩, ⟨some 42, 1⟩]
      [⟨some 50, 1⟩, ⟨none, 0⟩, ⟨some 55, 2⟩] = .ok disk' ∧
    runBytes 512 disk'.image [⟨some 50, 1⟩, ⟨none, 0⟩, ⟨some 55, 2⟩] =
      runBytes 512 countingDisk.image [⟨some 36, 2⟩, ⟨some 42, 1⟩] ∧
    (sliceClusters slices).map Prod.snd = [50, 55, 56] := by
  obtain ⟨disk', slices, hrun, hbytes, -, -, -, hslices, -⟩ := @run_copy_exact 100 countingDisk
    countingVolume [⟨some 36, 2⟩, ⟨some 42, 1⟩] [⟨some 50, 1⟩, ⟨none, 0⟩, ⟨some 55, 2⟩] (by decide)
    (by decide) (by decide) ⟨by decide, by decide, by decide⟩ ⟨by decide, by decide, by decide⟩
    (disjoint_left.2 (by decide))
  exact ⟨disk', slices, hrun, hbytes, hslices⟩

end LinuxDefragger.Ntfs
