import LinuxDefragger.Ntfs.Candidates

/-!
# What a move leaves alone

`moveExtent` writes to the destination clusters, to `$Bitmap`, to the record of `$Volume` and its
mirror, and to the record of the stream. `moveExtent_changes` says so, and `loadCandidate_congr`
that loading a candidate looks at one record only.
-/

open Except List Storage

namespace LinuxDefragger.Ntfs

/-- The addresses in the clusters of runs. -/
def clusterAddrs (clusterSize : ℕ) (runs : List Run) : Set ℕ :=
    {a | a / clusterSize ∈ runClusters runs}

/-- The addresses of an MFT record. -/
def NtfsLayout.recordAddrs (layout : NtfsLayout) (number : ℕ) : Set ℕ :=
  streamAddrs layout.volume.clusterSize layout.mftRuns (number * layout.volume.mftRecordSize)
    layout.volume.mftRecordSize

/-- The addresses of the mirror of the `$Volume` record. -/
def Volume.mirrorAddrs (volume : Volume) : Set ℕ :=
  {a | volume.mirrorOffset ≤ a ∧ a < volume.mirrorOffset + volume.mftRecordSize}

/-- The addresses that a move may write to. -/
def moveAddrs (layout : NtfsLayout) (candidate : Candidate) (move : ExtentMove) : Set ℕ :=
  {a | a ∈ clusterAddrs layout.volume.clusterSize move.destinationRuns ∨
    a ∈ clusterAddrs layout.volume.clusterSize layout.bitmapRuns ∨
    a ∈ layout.volume.mirrorAddrs ∨ a ∈ layout.recordAddrs 3 ∨
    a ∈ layout.recordAddrs candidate.recordNumber}

section Writes

variable {disk disk' : NtfsDisk} {layout layout' : NtfsLayout} {volume : Volume}
  {candidate : Candidate} {move : ExtentMove}

/-- Copying changes the destination clusters only. -/
theorem copyLoop_changes {cs chunk fuel sourceOffset destinationOffset remaining : ℕ}
    {sources destinations : List Run} (hcs : 0 < cs)
    (hstored : ∀ run ∈ destinations, run.lcn ≠ none)
    (h : copyLoop cs chunk fuel sources sourceOffset destinations destinationOffset remaining disk =
      .ok disk') :
    ChangesWithin (clusterAddrs cs destinations) disk disk' := by
  induction fuel generalizing sources sourceOffset destinations destinationOffset
    remaining disk with
  | zero =>
    obtain rfl := ok.inj h
    exact .refl _ _
  | succ fuel ih =>
    unfold copyLoop at h
    split at h
    · obtain rfl := ok.inj h
      exact .refl _ _
    · split at h
      · rename_i source sources destination destinations
        obtain ⟨data, hdata, h⟩ := bind_eq_ok.1 h
        obtain ⟨lcn, hlcn⟩ := Option.ne_none_iff_exists'.1 (hstored destination mem_cons_self)
        obtain ⟨-, hdata⟩ := preadExact_eq_ok.1 hdata
        -- what is written now
        have hwrite : ChangesWithin (clusterAddrs cs (destination :: destinations)) disk
            (disk.pwrite data (destination.lcn.getD 0 * cs + destinationOffset)) := by
          refine .pwrite disk fun a hlow hhigh ↦ ?_
          rw [hdata, length_map, length_range', hlcn, Option.getD_some] at hhigh
          rw [hlcn, Option.getD_some] at hlow
          refine mem_runClusters.2 ⟨destination, mem_cons_self, lcn, hlcn, ?_, ?_⟩
          · exact (Nat.le_div_iff_mul_le hcs).2 (by omega)
          · rw [Nat.div_lt_iff_lt_mul hcs, Nat.add_mul]
            omega
        -- what is written later
        have hrest : ∀ run ∈ (if destinationOffset + min (min chunk
              (source.length * cs - sourceOffset))
                (min (destination.length * cs - destinationOffset)
                remaining) = destination.length * cs then (destinations, 0)
              else (destination :: destinations, destinationOffset + min (min chunk
                (source.length * cs - sourceOffset)) (min (destination.length * cs -
                  destinationOffset) remaining))).1, run ∈ destination :: destinations := by
          intro run hrun
          split_ifs at hrun
          · exact mem_cons_of_mem _ hrun
          · exact hrun
        have hlater := ih (fun run hrun ↦ hstored run (hrest run hrun)) h
        refine hwrite.trans (hlater.mono fun a ha ↦ ?_)
        obtain ⟨run, hrun, hin⟩ := mem_runClusters.1 ha
        exact mem_runClusters.2 ⟨run, hrest run hrun, hin⟩
      · cases h

theorem copyRunSequences_changes {chunk : ℕ} {sourceRuns destinationRuns : List Run}
    (hcs : 0 < volume.clusterSize)
    (h : copyRunSequences chunk disk volume sourceRuns destinationRuns = .ok disk') :
    ChangesWithin (clusterAddrs volume.clusterSize destinationRuns) disk disk' := by
  rw [copyRunSequences] at h
  obtain ⟨-, h⟩ := raiseIf_bind_eq_ok.1 h
  obtain ⟨hstored, h⟩ := raiseIf_bind_eq_ok.1 h
  obtain ⟨-, h⟩ := raiseIf_bind_eq_ok.1 h
  obtain ⟨copied, hcopied, h⟩ := bind_eq_ok.1 h
  obtain rfl := ok.inj h
  push Not at hstored
  refine ((copyLoop_changes hcs hstored hcopied).mono fun a ha ↦ ?_).fsync
  obtain ⟨run, hrun, hin⟩ := mem_runClusters.1 ha
  exact mem_runClusters.2 ⟨run, (mem_filter.1 hrun).1, hin⟩

theorem writeBitmapPatches_changes {patches : List (ℕ × List UInt8)}
    (hcs : 0 < layout.volume.clusterSize)
    (h : writeBitmapPatches disk layout patches = .ok disk') :
    ChangesWithin (clusterAddrs layout.volume.clusterSize layout.bitmapRuns) disk disk' := by
  refine foldlM_invariant (P := ChangesWithin _ disk) (fun patch _ _ _ hround hpatched ↦ ?_) h
    (.refl _ _)
  exact hpatched.trans ((writeStream_changes hround).mono fun a ha ↦ streamAddrs_div hcs ha)

theorem writeMftRecord_changes {number : ℕ} {raw : List UInt8}
    (hraw : raw.length = layout.volume.mftRecordSize)
    (h : writeMftRecord disk layout.volume layout.mftRuns number raw = .ok disk') :
    ChangesWithin (layout.recordAddrs number) disk disk' := by
  have hchanges := writeStream_changes h
  rwa [hraw] at hchanges

/-- A record with other flags has the size of the record it was made from. -/
theorem length_of_flagged {raw fixed flagged new : List UInt8} {bps offset flags : ℕ}
    (hbps : 256 ≤ bps) (hfixed : applyFixups raw bps = .ok fixed)
    (hflagged : packU16 fixed offset flags = .ok flagged)
    (hnew : prepareFixups flagged bps = .ok new) :
    new.length = raw.length := by
  obtain ⟨⟨hinside, -⟩, rfl⟩ := packU16_eq_ok.1 hflagged
  rw [length_prepareFixups (by omega) hnew,
    length_putSlice (show offset + (wr16 flags).length = offset + 2 from rfl) hinside,
    (applyFixups_eq_ok (by omega) hfixed).1]

/-- The four images of `$Volume` have the size of a record. -/
theorem volumeRecordState_length {records : VolumeRecords}
    (hbps : 256 ≤ layout.volume.bytesPerSector) (h : volumeRecordState disk layout = .ok records) :
    (records.clean.length = layout.volume.mftRecordSize ∧
      records.dirty.length = layout.volume.mftRecordSize) ∧
    records.mirrorClean.length = layout.volume.mftRecordSize ∧
      records.mirrorDirty.length = layout.volume.mftRecordSize := by
  rw [volumeRecordState] at h
  obtain ⟨⟨offset, raw, fixed⟩, hread, h⟩ := bind_eq_ok.1 h
  obtain ⟨info, -, h⟩ := bind_eq_ok.1 h
  cases info with
  | none => cases h
  | some info =>
    obtain ⟨⟨flagsOffset, flags⟩, -, h⟩ := bind_eq_ok.1 h
    obtain ⟨-, -, h⟩ := bind_eq_ok.1 h
    obtain ⟨dirtyFixed, hdirtyFixed, h⟩ := bind_eq_ok.1 h
    obtain ⟨dirtyRaw, hdirtyRaw, h⟩ := bind_eq_ok.1 h
    obtain ⟨mirrorRaw, hmirrorRaw, h⟩ := bind_eq_ok.1 h
    obtain ⟨mirrorFixed, hmirrorFixed, h⟩ := bind_eq_ok.1 h
    obtain ⟨mirrorInfo, -, h⟩ := bind_eq_ok.1 h
    cases mirrorInfo with
    | none => cases h
    | some mirrorInfo =>
      obtain ⟨valueOff, -, h⟩ := bind_eq_ok.1 h
      obtain ⟨mirrorFlags, -, h⟩ := bind_eq_ok.1 h
      obtain ⟨-, h⟩ := raiseIf_bind_eq_ok.1 h
      obtain ⟨mirrorDirtyFixed, hmirrorDirtyFixed, h⟩ := bind_eq_ok.1 h
      obtain ⟨mirrorDirtyRaw, hmirrorDirtyRaw, h⟩ := bind_eq_ok.1 h
      obtain rfl := ok.inj h
      obtain ⟨hraw, hfixed⟩ := readMftRecord_eq_ok hread
      have hlength := length_of_readStream hraw
      have hmirror : mirrorRaw.length = layout.volume.mftRecordSize := by
        rw [(preadExact_eq_ok.1 hmirrorRaw).2, length_map, length_range']
      exact ⟨⟨hlength, (length_of_flagged hbps hfixed hdirtyFixed hdirtyRaw).trans hlength⟩,
        hmirror,
        (length_of_flagged hbps hmirrorFixed hmirrorDirtyFixed hmirrorDirtyRaw).trans hmirror⟩

theorem writeVolumeRecords_changes {mftRaw mirrorRaw : List UInt8}
    (hmft : mftRaw.length = layout.volume.mftRecordSize)
    (hmirror : mirrorRaw.length = layout.volume.mftRecordSize)
    (h : writeVolumeRecords disk layout mftRaw mirrorRaw = .ok disk') :
    ChangesWithin (moveAddrs layout candidate move) disk disk' := by
  rw [writeVolumeRecords] at h
  obtain ⟨written, hwritten, h⟩ := bind_eq_ok.1 h
  obtain rfl := ok.inj h
  refine ((writeMftRecord_changes hmft hwritten).mono fun a ha ↦ ?_).trans
    (.pwrite written fun a hlow hhigh ↦ ?_)
  · exact .inr (.inr (.inr (.inl ha)))
  · rw [hmirror] at hhigh
    exact .inr (.inr (.inl ⟨hlow, hhigh⟩))

/-- **What a move changes** on the disk. -/
theorem moveExtent_changes (hbps : 256 ≤ layout.volume.bytesPerSector)
    (hcs : 0 < layout.volume.clusterSize) (hloaded : Loaded layout.volume.bytesPerSector candidate)
    (hrecord : candidate.recordFixed.length = layout.volume.mftRecordSize)
    (h : moveExtent disk layout candidate move = .ok (disk', layout')) :
    ChangesWithin (moveAddrs layout candidate move) disk disk' := by
  unfold moveExtent at h
  obtain ⟨newRecord, hnew, h⟩ := bind_eq_ok.1 h
  obtain ⟨records, hrecords, h⟩ := bind_eq_ok.1 h
  obtain ⟨disk₁, h₁, h⟩ := bind_eq_ok.1 h
  obtain ⟨-, -, h⟩ := bind_eq_ok.1 h
  obtain ⟨state, -, h⟩ := bind_eq_ok.1 h
  obtain ⟨disk₂, h₂, h⟩ := bind_eq_ok.1 h
  obtain ⟨bm₁, -, h⟩ := bind_eq_ok.1 h
  obtain ⟨disk₃, h₃, h⟩ := bind_eq_ok.1 h
  obtain ⟨disk₄, h₄, h⟩ := bind_eq_ok.1 h
  obtain ⟨bm₂, -, h⟩ := bind_eq_ok.1 h
  obtain ⟨disk₅, h₅, h⟩ := bind_eq_ok.1 h
  obtain ⟨disk₆, h₆, h⟩ := bind_eq_ok.1 h
  obtain ⟨⟨hclean, hdirty⟩, hmirrorClean, hmirrorDirty⟩ := volumeRecordState_length hbps hrecords
  have hnewLen := (hloaded.length_updatedRecordRuns hnew).trans hrecord
  have hbitmap : ∀ {bm : List UInt8} {d d' : NtfsDisk} {patches : List (ℕ × List UInt8)},
      writeBitmapPatches d { layout with bitmap := bm } patches = .ok d' →
      ChangesWithin (moveAddrs layout candidate move) d d' := fun h ↦
    (writeBitmapPatches_changes hcs h).mono fun a ha ↦ .inr (.inl ha)
  have hstaged : ∀ (stage : Stage) {d d' : NtfsDisk},
      ChangesWithin (moveAddrs layout candidate move) d d' →
      ChangesWithin (moveAddrs layout candidate move) d (endStage d' state stage) := fun _ _ _ h ↦
    h.fsync.setJournal _
  have hcopied :
      ChangesWithin (moveAddrs layout candidate move) disk (disk₁.setJournal (some state)) :=
    ((copyRunSequences_changes hcs h₁).mono fun a ha ↦ .inl ha).setJournal _
  -- one step after the other
  have hdirtied := hcopied.trans
    (hstaged .volumeDirty (writeVolumeRecords_changes hdirty hmirrorDirty h₂))
  have hallocated := hdirtied.trans (hstaged .destinationAllocated (hbitmap h₃))
  have hswitched := hallocated.trans (hstaged .metadataSwitched
    ((writeMftRecord_changes hnewLen h₄).mono fun a ha ↦ .inr (.inr (.inr (.inr ha)))))
  have hreleased := hswitched.trans (hstaged .oldReleased (hbitmap h₅))
  have hcleaned := hreleased.trans
    (hstaged .volumeClean (writeVolumeRecords_changes hclean hmirrorClean h₆))
  obtain ⟨rfl, -⟩ := Prod.mk.inj (ok.inj h)
  exact hcleaned.setJournal _

/-- Loading a candidate looks at its record only. -/
theorem loadCandidate_congr {info info' : StreamInfo} (hkey : info'.key = info.key)
    (hvolume : layout'.volume = layout.volume) (hruns : layout'.mftRuns = layout.mftRuns)
    (hsize : disk'.size = disk.size)
    (himage : ∀ a ∈ layout.recordAddrs info.recordNumber, disk'.image a = disk.image a) :
    loadCandidate disk' layout' info' = loadCandidate disk layout info := by
  obtain ⟨hnumber, hoffset⟩ := Prod.mk.inj hkey
  have hread : readMftRecord disk' layout.volume layout.mftRuns info.recordNumber =
      readMftRecord disk layout.volume layout.mftRuns info.recordNumber := by
    rw [readMftRecord, readMftRecord, readStream_congr hsize himage]
  rw [loadCandidate, loadCandidate, hvolume, hruns, hnumber, hoffset, hread]

end Writes

end LinuxDefragger.Ntfs
