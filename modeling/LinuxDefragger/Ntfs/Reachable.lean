import LinuxDefragger.Ntfs.Planners

/-!
# Along the runs of `compact` and `defragment`

What is known about a volume once it was scanned, what a round of each command does, and what both
commands keep: the volume, and for `compact` that all streams lie in the volume and the cluster
below the boundary is in use.
-/

open Except List Storage

namespace LinuxDefragger.Ntfs

/-- The clusters of one run. -/
theorem mem_runClusters_single {lcn n c : ℕ} :
    c ∈ runClusters [⟨some lcn, n⟩] ↔ lcn ≤ c ∧ c < lcn + n := by
  simp [mem_runClusters]

/-! ### What a scan finds -/

/-- The stored runs of every stream are inside the volume. -/
def StreamsBelow (limit : ℕ) (streams : List StreamInfo) : Prop :=
  ∀ info ∈ streams, ∀ run ∈ info.runs, ∀ lcn, run.lcn = some lcn → lcn + run.length ≤ limit

/-- A decoded record in use and the attribute in it that may be moved. -/
structure RecordScan (disk : NtfsDisk) (layout : NtfsLayout) (number : ℕ) (attrs : List Attribute)
    (movable : Option Attribute) : Prop where
  scanned : ∃ raw fixed,
    readStream disk layout.volume layout.mftRuns (number * layout.volume.mftRecordSize)
      layout.volume.mftRecordSize = .ok raw ∧
    decodeRecord layout raw = .ok (some (fixed, attrs)) ∧
    selectMovableAttribute number fixed attrs = .ok movable

/-- A stream is the one of an attribute of its record. -/
structure StreamScan (disk : NtfsDisk) (layout : NtfsLayout) (info : StreamInfo) : Prop where
  below : ∀ run ∈ info.runs, ∀ lcn, run.lcn = some lcn →
    lcn + run.length ≤ layout.volume.totalClusters
  record : ∃ attrs movable attr, RecordScan disk layout info.recordNumber attrs movable ∧
    attr ∈ attrs ∧ attr.offset = info.attributeOffset ∧ attr.runs = info.runs ∧
    info.movable = movable.any fun m ↦ attr.offset = m.offset

variable {streams : List StreamInfo} {path : String} {info : StreamInfo}

section Scan

variable {casefold : List ℕ → List ℕ} {disk : NtfsDisk} {layout : NtfsLayout}

theorem scanAttribute_scan {number : ℕ} {fixed : List UInt8} {attrs : List Attribute}
    {movable : Option Attribute} {streams' : List StreamInfo} {attr : Attribute}
    (hrecord : RecordScan disk layout number attrs movable) (hattr : attr ∈ attrs)
    (h : scanAttribute layout number fixed movable streams attr = .ok streams')
    (hstreams : ∀ info ∈ streams, StreamScan disk layout info) :
    ∀ info ∈ streams', StreamScan disk layout info := by
  rw [scanAttribute] at h
  dsimp only at h
  split_ifs at h with hskip
  · obtain rfl := ok.inj h
    exact hstreams
  · obtain ⟨hrange, h⟩ := raiseIf_bind_eq_ok.1 h
    obtain ⟨capacity, -, h⟩ := bind_eq_ok.1 h
    obtain rfl := ok.inj h
    intro info hinfo
    rcases mem_append.1 hinfo with hold | hnew
    · exact hstreams info hold
    · obtain rfl := mem_singleton.1 hnew
      refine ⟨fun run hrun lcn hlcn ↦ ?_, attrs, movable, attr, hrecord, hattr, rfl, rfl, rfl⟩
      refine not_lt.1 fun hlt ↦ hrange ⟨run, ?_, by rwa [hlcn, Option.getD_some]⟩
      exact mem_filter.2 ⟨hrun, by simp [hlcn]⟩

theorem scanRecord_scan {plan plan' : AllocationPlan} {number : ℕ} {raw : List UInt8}
    (hraw : readStream disk layout.volume layout.mftRuns (number * layout.volume.mftRecordSize)
      layout.volume.mftRecordSize = .ok raw)
    (h : scanRecord casefold disk layout plan number raw = .ok plan')
    (hstreams : ∀ info ∈ plan.streams, StreamScan disk layout info) :
    ∀ info ∈ plan'.streams, StreamScan disk layout info := by
  rw [scanRecord] at h
  split_ifs at h with hsig
  · obtain rfl := ok.inj h
    exact hstreams
  · split at h
    · obtain rfl := ok.inj h
      exact hstreams
    · cases h
    · obtain rfl := ok.inj h
      exact hstreams
    · rename_i fixed attrs hdecode
      obtain ⟨hibernation, -, h⟩ := bind_eq_ok.1 h
      obtain ⟨movable, hmovable, h⟩ := bind_eq_ok.1 h
      obtain ⟨streams, hfold, h⟩ := bind_eq_ok.1 h
      obtain rfl := ok.inj h
      have hrecord : RecordScan disk layout number attrs movable :=
        ⟨raw, fixed, hraw, hdecode, hmovable⟩
      exact foldlM_invariant (fun _ hattr _ _ hround ↦ scanAttribute_scan hrecord hattr hround)
        hfold hstreams

theorem scanChunks_scan {count fuel first : ℕ} {plan plan' : AllocationPlan}
    (hsize : 0 < layout.volume.mftRecordSize)
    (h : scanChunks casefold disk layout count fuel first plan = .ok plan')
    (hstreams : ∀ info ∈ plan.streams, StreamScan disk layout info) :
    ∀ info ∈ plan'.streams, StreamScan disk layout info := by
  induction fuel generalizing first plan with
  | zero =>
    obtain rfl := ok.inj h
    exact hstreams
  | succ fuel ih =>
    rw [scanChunks] at h
    split_ifs at h
    · obtain ⟨raw, hraw, h⟩ := bind_eq_ok.1 h
      obtain ⟨next, hfold, h⟩ := bind_eq_ok.1 h
      refine ih h (foldlM_invariant
        (P := fun plan ↦ ∀ info ∈ plan.streams, StreamScan disk layout info)
        (fun i hi _ _ hround ↦ scanRecord_scan ?_ hround) hfold hstreams)
      -- the record is a part of the chunk
      have hle := Nat.mul_le_mul_right layout.volume.mftRecordSize
        (Nat.succ_le_of_lt (mem_range.1 hi))
      rw [Nat.succ_mul] at hle
      rw [Nat.add_mul]
      exact readStream_slice hraw hsize hle
    · obtain rfl := ok.inj h
      exact hstreams

section

variable (h : openAndScan casefold disk path = .ok (layout, streams))
include h

/-- **Every stream that a scan returns is the one of an attribute.** -/
theorem openAndScan_scan : openVolume disk path = .ok layout.volume ∧
      layout.volume.totalClusters ≤ layout.bitmap.length * 8 ∧
      ∀ info ∈ streams, StreamScan disk layout info := by
  rw [openAndScan] at h
  obtain ⟨-, h⟩ := raiseIf_bind_eq_ok.1 h
  obtain ⟨volume, hvolume, h⟩ := bind_eq_ok.1 h
  obtain ⟨layout', hlayout, h⟩ := bind_eq_ok.1 h
  obtain ⟨plan, hplan, h⟩ := bind_eq_ok.1 h
  obtain ⟨-, h⟩ := raiseIf_bind_eq_ok.1 h
  obtain ⟨rfl, rfl⟩ := Prod.mk.inj (ok.inj h)
  obtain ⟨rfl, hcover⟩ := readLayout_eq_ok hlayout
  have hsize := (openVolume_eq_ok hvolume).2.1
  exact ⟨hvolume, hcover, scanChunks_scan (by omega) hplan fun info hinfo ↦
    absurd hinfo not_mem_nil⟩

/-- What both commands know once they have scanned the volume. -/
theorem openAndScan_eq_ok : openVolume disk path = .ok layout.volume ∧
      layout.volume.totalClusters ≤ layout.bitmap.length * 8 ∧
      StreamsBelow layout.volume.totalClusters streams := by
  obtain ⟨hvolume, hcover, hscan⟩ := openAndScan_scan h
  exact ⟨hvolume, hcover, fun info hinfo ↦ (hscan info hinfo).below⟩

end

end Scan

/-! ### `compact` -/

section Compact

variable {volume : Volume} {s s' : CompactState} {owner : StreamInfo} {candidate : Candidate}
  {move : ExtentMove} {hole : Run}

theorem planCompactExtentInfo_eq_some {gap : Run}
    (h : planCompactExtentInfo owner gap = .ok (some move)) :
    ∃ start n, gap.lcn = some start ∧ n ≤ gap.length ∧
      move.destinationRuns = [⟨some start, n⟩] ∧ move.newRuns = [⟨some start, n⟩] ∧
      (move.sourceRuns = owner.runs.filter fun run ↦ run.lcn ≠ none ∧ run.length > 0) ∧
      n = physicalClusters owner.runs ∧ 0 < n := by
  rw [planCompactExtentInfo] at h
  split at h
  · cases h
  · rename_i start hstart
    dsimp only at h
    split_ifs at h with hskip
    · cases h
    · obtain ⟨encoded, -, h⟩ := bind_eq_ok.1 h
      split_ifs at h
      · cases h
      · obtain rfl := Option.some.inj (ok.inj h)
        exact ⟨start, _, hstart, not_lt.1 fun hlt ↦ hskip (.inr (.inr (.inl hlt))), rfl,
          rfl, rfl, rfl,
          Nat.pos_of_ne_zero fun hzero ↦ hskip (.inr (.inl hzero))⟩

theorem selectRound_mem {gap : Run} {best best' : _} (hinfo : info ∈ streams)
    (h : selectRound gap best info = .ok best')
    (hbest : ∀ p ∈ best, p.1 ∈ streams ∧ planCompactExtentInfo p.1 gap = .ok (some p.2)) :
    ∀ p ∈ best', p.1 ∈ streams ∧ planCompactExtentInfo p.1 gap = .ok (some p.2) := by
  rw [selectRound] at h
  split_ifs at h
  · obtain rfl := ok.inj h
    exact hbest
  · obtain ⟨found, hfound, h⟩ := bind_eq_ok.1 h
    have hnew : ∀ move, found = some move → ∀ p ∈ some (info, move),
        p.1 ∈ streams ∧ planCompactExtentInfo p.1 gap = .ok (some p.2) := by
      rintro move rfl p hp
      obtain rfl := Option.some.inj hp
      exact ⟨hinfo, hfound⟩
    cases found with
    | none =>
      obtain rfl := ok.inj h
      exact hbest
    | some move =>
      cases best with
      | none =>
        obtain rfl := ok.inj h
        exact hnew move rfl
      | some old =>
        dsimp only at h
        split_ifs at h
        · obtain rfl := ok.inj h
          exact hnew move rfl
        · obtain rfl := ok.inj h
          exact hbest

/-- A source that was selected is one of the streams, and the move was planned for it. -/
theorem selectCompactSource_eq_some {disk : NtfsDisk} {layout : NtfsLayout} {gap : Run}
    (h : selectCompactSource disk layout streams gap = .ok (some (owner, candidate, move))) :
    owner ∈ streams ∧ planCompactExtentInfo owner gap = .ok (some move) ∧
      loadCandidate disk layout owner = .ok candidate ∧ candidate.attr.runs = owner.runs ∧
      MappingFits candidate move.newRuns := by
  rw [selectCompactSource] at h
  obtain ⟨best, hbest, h⟩ := bind_eq_ok.1 h
  have hmem := foldlM_invariant
    (P := fun best : Option (StreamInfo × ExtentMove) ↦ ∀ p ∈ best,
      p.1 ∈ streams ∧ planCompactExtentInfo p.1 gap = .ok (some p.2))
    (fun info hinfo _ _ hround ↦ selectRound_mem hinfo hround) hbest (fun p hp ↦ by cases hp)
  split at h
  · cases h
  · rename_i info found
    obtain ⟨loaded, hload, h⟩ := bind_eq_ok.1 h
    obtain ⟨hruns, h⟩ := raiseIf_bind_eq_ok.1 h
    obtain ⟨encoded, hencoded, h⟩ := bind_eq_ok.1 h
    obtain ⟨capacity, hcapacity, h⟩ := bind_eq_ok.1 h
    split_ifs at h with hfits
    · cases h
    · obtain ⟨rfl, rfl, rfl⟩ : info = owner ∧ loaded = candidate ∧ found = move := by
        simpa using ok.inj h
      obtain ⟨howner, hplan⟩ := hmem (info, found) rfl
      exact ⟨howner, hplan, hload, not_not.1 hruns, encoded, capacity, hencoded, hcapacity,
        not_lt.1 hfits⟩

/-- What holds in every state of `compact`. The boundary is not above the volume, and the cluster
below it is in use. -/
structure CompactInv (volume : Volume) (s : CompactState) : Prop where
  volume_eq : s.layout.volume = volume
  covers : volume.totalClusters ≤ s.layout.bitmap.length * 8
  streams : StreamsBelow volume.totalClusters s.streams
  high_le : s.currentHigh ≤ volume.totalClusters
  high_used : s.currentHigh ≠ 0 → bit s.layout.bitmap (s.currentHigh - 1) = true

theorem compactStart_inv {casefold : List ℕ → List ℕ} {disk : NtfsDisk}
    (h : compactStart casefold disk path = .ok s) :
    openVolume disk path = .ok s.layout.volume ∧ CompactInv s.layout.volume s := by
  rw [compactStart] at h
  obtain ⟨⟨layout, streams⟩, hopen, h⟩ := bind_eq_ok.1 h
  obtain ⟨-, -, h⟩ := bind_eq_ok.1 h
  obtain rfl := ok.inj h
  obtain ⟨hvolume, hcover, hbelow⟩ := openAndScan_eq_ok hopen
  have hhigh := highestUsedBefore_spec layout.bitmap layout.volume.totalClusters
  exact ⟨hvolume, rfl, hcover, hbelow, hhigh.le.trans (min_le_left _ _), hhigh.used⟩

/-- What a round of `compact` does. -/
theorem compactNext_eq_move (h : compactNext s = .ok (.move owner candidate move hole)) :
    nextFreeRun s.layout.bitmap (max packingStart s.packedCursor) s.currentHigh = some hole ∧
      owner ∈ s.streams ∧ planCompactExtentInfo owner hole = .ok (some move) ∧
      loadCandidate s.disk s.layout owner = .ok candidate ∧ candidate.attr.runs = owner.runs ∧
      MappingFits candidate move.newRuns := by
  rw [compactNext] at h
  split at h
  · cases h
  · rename_i gap hgap
    obtain ⟨selected, hselected, h⟩ := bind_eq_ok.1 h
    split at h
    · cases h
    · rename_i info loaded found
      obtain ⟨rfl, rfl, rfl, rfl⟩ :
          info = owner ∧ loaded = candidate ∧ found = move ∧ gap = hole := by
        simpa using ok.inj h
      exact ⟨hgap, selectCompactSource_eq_some hselected⟩

/-- The destination of a move lies strictly between cluster 0 and the last cluster in use. -/
theorem CompactInv.destination (hinv : CompactInv volume s)
    (h : compactNext s = .ok (.move owner candidate move hole)) :
    ∃ start n, move.destinationRuns = [⟨some start, n⟩] ∧ move.newRuns = [⟨some start, n⟩] ∧
      1 ≤ start ∧ start + n < s.currentHigh := by
  obtain ⟨hgap, -, hplan, -⟩ := compactNext_eq_move h
  obtain ⟨start, n, hstart, hn, hdest, hnew, -⟩ := planCompactExtentInfo_eq_some hplan
  obtain ⟨⟨lcn, hlcn, hpos, hle, hfree⟩, hfrom⟩ := nextFreeRun_eq_some hgap
  obtain rfl : lcn = start := Option.some.inj (hlcn.symm.trans hstart)
  have hlow : max packingStart s.packedCursor ≤ lcn := hfrom lcn hlcn
  have hone : 1 ≤ lcn := (le_max_left packingStart _).trans hlow
  refine ⟨lcn, n, hdest, hnew, hone, ?_⟩
  -- the gap ends below the boundary, since the cluster under the boundary is in use
  have hhigh : lcn + hole.length ≠ s.currentHigh := by
    intro heq
    have hused := hinv.high_used (by omega)
    rw [hfree (s.currentHigh - 1) (by omega) (by omega)] at hused
    cases hused
  omega

/-- Replacing the runs of a stream keeps the streams inside the volume. -/
theorem StreamsBelow.update {limit : ℕ} {start n : ℕ} (h : StreamsBelow limit streams)
    (hle : start + n ≤ limit) (info : StreamInfo) :
    StreamsBelow limit (updateMovedStream streams info [⟨some start, n⟩]) := by
  intro other hother run hrun lcn hlcn
  obtain ⟨old, hold, rfl⟩ := mem_map.1 hother
  split_ifs at hrun with hkey
  · -- the new runs are the one run, or none if it is empty
    have hmem : run ∈ coalesceRuns [⟨some start, n⟩] := hrun
    rw [coalesceRuns_single] at hmem
    split_ifs at hmem
    · cases hmem
    · obtain rfl := mem_singleton.1 hmem
      obtain rfl := Option.some.inj hlcn
      exact hle
  · exact h old hold run hrun lcn hlcn

/-- A move keeps the invariant. -/
theorem CompactInv.afterMove (hinv : CompactInv volume s)
    (h : compactNext s = .ok (.move owner candidate move hole)) {disk : NtfsDisk}
    {layout : NtfsLayout} (hmove : moveExtent s.disk s.layout candidate move = .ok (disk, layout)) :
    CompactInv volume {
      disk, layout
      streams := updateMovedStream s.streams owner move.newRuns
      packedCursor := hole.lcn.getD 0
      currentHigh := highAfter layout.bitmap s.currentHigh move.sourceRuns } := by
  obtain ⟨start, n, hdest, hnew, hone, hlt⟩ := hinv.destination h
  obtain ⟨-, howner, hplan, -⟩ := compactNext_eq_move h
  obtain ⟨-, -, -, -, -, -, hsource, -⟩ := planCompactExtentInfo_eq_some hplan
  obtain ⟨bm₁, bm₂, h₁, h₂, rfl⟩ := moveExtent_layout hmove
  have hle := hinv.high_le
  have hcover := hinv.covers
  -- both run lists are inside the bitmap, so the bits change as they should
  have hdestBelow : RunsBelow (s.layout.bitmap.length * 8) move.destinationRuns := by
    rw [hdest]
    exact fun run hrun ↦ ⟨start, by rw [mem_singleton.1 hrun],
      by rw [mem_singleton.1 hrun]; dsimp only; omega⟩
  have hset₁ := RunsSet.of_ok hdestBelow h₁
  have hsourceBelow : RunsBelow (bm₁.length * 8) move.sourceRuns := by
    rw [hset₁.length, hsource]
    intro run hrun
    obtain ⟨hmem, hphys⟩ := mem_filter.1 hrun
    obtain ⟨lcn, hlcn⟩ := Option.ne_none_iff_exists'.1 (of_decide_eq_true hphys).1
    exact ⟨lcn, hlcn, (hinv.streams owner howner run hmem lcn hlcn).trans hcover⟩
  have hset₂ := RunsSet.of_ok hsourceBelow h₂
  have hlength : bm₂.length = s.layout.bitmap.length := hset₂.length.trans hset₁.length
  have hstreams : StreamsBelow volume.totalClusters
      (updateMovedStream s.streams owner move.newRuns) := by
    rw [hnew]
    exact hinv.streams.update (by omega) owner
  refine ⟨hinv.volume_eq, hlength ▸ hcover, hstreams, ?_, ?_⟩
  all_goals
    dsimp only
    rw [highAfter]
    split_ifs with htouch
  · exact ((highestUsedBefore_spec bm₂ _).le.trans (min_le_left _ _)).trans hle
  · exact hle
  · exact (highestUsedBefore_spec bm₂ _).used
  · -- no source run reaches the boundary, so the cluster under it stays in use
    intro hpos
    rw [hset₂.bit, if_neg, hset₁.bit]
    · split_ifs
      · rfl
      · exact hinv.high_used hpos
    · intro hin
      obtain ⟨run, hrun, lcn, hlcn, hlow, hhigh⟩ := mem_runClusters.1 hin
      exact htouch ⟨run, hrun, by rw [hlcn, Option.getD_some]; omega⟩

theorem CompactInv.step (hinv : CompactInv volume s) (h : compactStep s = .ok (some s')) :
    CompactInv volume s' := by
  rw [compactStep] at h
  obtain ⟨action, haction, h⟩ := bind_eq_ok.1 h
  cases action with
  | finished => cases h
  | skip hole =>
    obtain rfl := Option.some.inj (ok.inj h)
    exact ⟨hinv.volume_eq, hinv.covers, hinv.streams, hinv.high_le, hinv.high_used⟩
  | move owner candidate move hole =>
    obtain ⟨⟨disk, layout⟩, hmove, h⟩ := bind_eq_ok.1 h
    obtain rfl := Option.some.inj (ok.inj h)
    exact hinv.afterMove haction hmove

/-- **The states of `compact`.** -/
theorem CompactReachable.inv {casefold : List ℕ → List ℕ} {disk : NtfsDisk}
    (hvolume : openVolume disk path = .ok volume) (h : CompactReachable casefold disk path s) :
    CompactInv volume s := by
  induction h with
  | start h =>
    obtain ⟨hopen, hinv⟩ := compactStart_inv h
    obtain rfl := ok.inj (hvolume.symm.trans hopen)
    exact hinv
  | step _ h ih => exact ih.step h

/-- A state of `compact` has the volume that was opened. -/
theorem CompactReachable.openVolume_eq {casefold : List ℕ → List ℕ} {disk : NtfsDisk}
    (h : CompactReachable casefold disk path s) : openVolume disk path = .ok s.layout.volume := by
  have hopen : ∃ volume, openVolume disk path = .ok volume := by
    induction h with
    | start h => exact ⟨_, (compactStart_inv h).1⟩
    | step _ _ ih => exact ih
  obtain ⟨volume, hvolume⟩ := hopen
  rw [hvolume, (h.inv hvolume).volume_eq]

end Compact

/-! ### `defragment` -/

section Defragment

variable {volume : Volume} {s s' : DefragState} {candidate : Candidate} {move : ExtentMove}

theorem DefragStep.volume_eq (h : DefragStep s s') : s'.layout.volume = s.layout.volume := by
  cases h with
  | placeMove hphase haction hmove | settleMove hphase haction hmove =>
    obtain ⟨bm₁, bm₂, -, -, hlayout⟩ := moveExtent_layout hmove
    have hvolume := congrArg NtfsLayout.volume hlayout
    exact hvolume
  | _ => rfl

/-- A state of `defragment` has the volume that was opened. -/
theorem DefragReachable.openVolume_eq {casefold : List ℕ → List ℕ} {disk : NtfsDisk}
    (h : DefragReachable casefold disk path s) : openVolume disk path = .ok s.layout.volume := by
  induction h with
  | start h =>
    rw [defragStart] at h
    obtain ⟨⟨layout, streams⟩, hopen, h⟩ := bind_eq_ok.1 h
    obtain rfl := ok.inj h
    exact (openAndScan_eq_ok hopen).1
  | step _ h ih => rw [ih, h.volume_eq]

theorem DefragReachable.volume_eq {casefold : List ℕ → List ℕ} {disk : NtfsDisk}
    (hvolume : openVolume disk path = .ok volume) (h : DefragReachable casefold disk path s) :
    s.layout.volume = volume :=
  ok.inj (h.openVolume_eq.symm.trans hvolume)

theorem moveBelow_eq_move {layout : NtfsLayout} {loaded : Candidate} {before : ℕ}
    (h : moveBelow layout loaded before = .move candidate move) :
    candidate = loaded ∧ ∃ destination,
      findFreeRun layout.bitmap (physicalClusters loaded.attr.runs) before = some destination ∧
      move = wholeStreamMove loaded destination := by
  rw [moveBelow] at h
  split at h
  · cases h
  · rename_i destination hfind
    obtain ⟨rfl, rfl⟩ := PassAction.move.inj h
    exact ⟨rfl, destination, hfind, rfl⟩

/-- What a placement pass moves. -/
theorem placementAction_eq_move {disk : NtfsDisk} {layout : NtfsLayout}
    (h : placementAction disk layout info = .ok (.move candidate move)) :
    loadCandidate disk layout info = .ok candidate ∧
      1 < physicalFragmentCount candidate.attr.runs ∧ ∃ destination,
        findFreeRun layout.bitmap (physicalClusters candidate.attr.runs)
          (max 1 (layout.volume.totalClusters - 1)) = some destination ∧
        move = wholeStreamMove candidate destination := by
  rw [placementAction] at h
  obtain ⟨loaded, hload, h⟩ := bind_eq_ok.1 h
  split_ifs at h with hcontiguous
  · cases h
  · obtain ⟨rfl, hmove⟩ := moveBelow_eq_move (ok.inj h)
    exact ⟨hload, not_le.1 hcontiguous, hmove⟩

/-- What a settling pass moves. -/
theorem settlingAction_eq_move {disk : NtfsDisk} {layout : NtfsLayout}
    (h : settlingAction disk layout info = .ok (.move candidate move)) :
    loadCandidate disk layout info = .ok candidate ∧
      physicalFragmentCount candidate.attr.runs = 1 ∧ ∃ destination,
        findFreeRun layout.bitmap (physicalClusters candidate.attr.runs)
          (lowestLcn candidate.attr.runs) = some destination ∧
        move = wholeStreamMove candidate destination := by
  rw [settlingAction] at h
  obtain ⟨loaded, hload, h⟩ := bind_eq_ok.1 h
  obtain ⟨hcontiguous, h⟩ := raiseIf_bind_eq_ok.1 h
  obtain ⟨rfl, hmove⟩ := moveBelow_eq_move (ok.inj h)
  exact ⟨hload, not_not.1 hcontiguous, hmove⟩

theorem moveBelow_eq_noRun {layout : NtfsLayout} {loaded : Candidate} {before : ℕ}
    (h : moveBelow layout loaded before = .noRun) :
    findFreeRun layout.bitmap (physicalClusters loaded.attr.runs) before = none := by
  rw [moveBelow] at h
  split at h
  · assumption
  · cases h

/-- What a placement pass passes over: contiguous streams, and streams without a free run. -/
theorem placementAction_eq_contiguous {disk : NtfsDisk} {layout : NtfsLayout}
    (h : placementAction disk layout info = .ok .contiguous) :
    ∃ loaded, loadCandidate disk layout info = .ok loaded ∧
      physicalFragmentCount loaded.attr.runs ≤ 1 := by
  rw [placementAction] at h
  obtain ⟨loaded, hload, h⟩ := bind_eq_ok.1 h
  split_ifs at h with hcontiguous
  · exact ⟨loaded, hload, hcontiguous⟩
  · have hnot : ∀ before, moveBelow layout loaded before ≠ .contiguous := by
      intro before
      rw [moveBelow]
      split <;> exact nofun
    exact absurd (ok.inj h) (hnot _)

theorem placementAction_eq_noRun {disk : NtfsDisk} {layout : NtfsLayout}
    (h : placementAction disk layout info = .ok .noRun) :
    ∃ loaded, loadCandidate disk layout info = .ok loaded ∧
      findFreeRun layout.bitmap (physicalClusters loaded.attr.runs)
        (max 1 (layout.volume.totalClusters - 1)) = none := by
  rw [placementAction] at h
  obtain ⟨loaded, hload, h⟩ := bind_eq_ok.1 h
  split_ifs at h with hcontiguous
  · cases h
  · exact ⟨loaded, hload, moveBelow_eq_noRun (ok.inj h)⟩

/-- A settling pass passes over contiguous streams only. -/
theorem settlingAction_eq_noRun {disk : NtfsDisk} {layout : NtfsLayout}
    (h : settlingAction disk layout info = .ok .noRun) :
    ∃ loaded, loadCandidate disk layout info = .ok loaded ∧
      physicalFragmentCount loaded.attr.runs = 1 := by
  rw [settlingAction] at h
  obtain ⟨loaded, hload, h⟩ := bind_eq_ok.1 h
  obtain ⟨hcontiguous, -⟩ := raiseIf_bind_eq_ok.1 h
  exact ⟨loaded, hload, not_not.1 hcontiguous⟩

/-- A step from a state with a transaction to start is that transaction. -/
theorem DefragStep.moves (h : DefragStep s s') (hissues : DefragIssues s candidate move) :
    ∃ result, moveExtent s.disk s.layout candidate move = .ok result := by
  rcases hissues with ⟨pass, info, queue, moved, hphase, haction⟩ |
    ⟨pass, info, queue, moved, hphase, haction⟩
  · cases h with
    | placeContiguous hphase' haction' | placeNoRun hphase' haction' =>
      obtain ⟨-, ⟨rfl, -⟩, -⟩ := by simpa using hphase.symm.trans hphase'
      cases haction.symm.trans haction'
    | placeMove hphase' haction' hmove =>
      obtain ⟨-, ⟨rfl, -⟩, -⟩ := by simpa using hphase.symm.trans hphase'
      obtain ⟨rfl, rfl⟩ := by simpa using haction.symm.trans haction'
      exact ⟨_, hmove⟩
    | beginPlacement hphase' | endPlacement hphase' | nextPlacement hphase' | beginSettling hphase'
    | endSettling hphase' | settleNoRun hphase' | settleMove hphase' | nextSettling hphase' =>
      cases hphase.symm.trans hphase'
  · cases h with
    | settleNoRun hphase' haction' =>
      obtain ⟨-, ⟨rfl, -⟩, -⟩ := by simpa using hphase.symm.trans hphase'
      cases haction.symm.trans haction'
    | settleMove hphase' haction' hmove =>
      obtain ⟨-, ⟨rfl, -⟩, -⟩ := by simpa using hphase.symm.trans hphase'
      obtain ⟨rfl, rfl⟩ := by simpa using haction.symm.trans haction'
      exact ⟨_, hmove⟩
    | beginPlacement hphase' | endPlacement hphase' | nextPlacement hphase' | beginSettling hphase'
    | endSettling hphase' | placeContiguous hphase' | placeNoRun hphase' | placeMove hphase'
    | nextSettling hphase' =>
      cases hphase.symm.trans hphase'

end Defragment

end LinuxDefragger.Ntfs
