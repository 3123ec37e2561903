import LinuxDefragger.Ntfs.BootGuard
import LinuxDefragger.Ntfs.Candidates

/-!
# Room for the new mapping pairs

Both commands replace the runs of a stream by one run. `compact` looks at the room in the MFT record
before it selects a stream, and takes another stream if there is not enough. `defragment` does not
look: `_updated_record_runs` raises, and the command ends there. The two agree on volumes of up to
2²³ clusters, since a location then takes three bytes and the two runs that are replaced leave room
for those.
-/

open List Storage

namespace LinuxDefragger.Ntfs

/-! ### When the record is rewritten -/

variable {capacity destination : ℕ} {encoded : List UInt8}

section Update

variable {sectorSize : ℕ} {candidate : Candidate}

theorem maximumMappingCapacity_eq_ok (h : maximumMappingCapacity candidate = .ok capacity) :
    ∃ inUse allocated, u32 candidate.recordFixed 24 = .ok inUse ∧
      u32 candidate.recordFixed 28 = .ok allocated ∧
      ¬(inUse > min candidate.recordFixed.length allocated ∨
        candidate.attr.offset + candidate.attr.length > inUse) ∧
      capacity = mappingRoom inUse (min candidate.recordFixed.length allocated) candidate.attr := by
  rw [maximumMappingCapacity] at h
  obtain ⟨inUse, hinUse, h⟩ := bind_eq_ok.1 h
  obtain ⟨allocated, hallocated, h⟩ := bind_eq_ok.1 h
  obtain ⟨haccounting, h⟩ := raiseIf_bind_eq_ok.1 h
  exact ⟨inUse, allocated, hinUse, hallocated, haccounting, (Except.ok.inj h).symm⟩

/-- With whole units of eight bytes, mapping pairs fit the room exactly if their growth fits the
unused bytes of the record. -/
theorem le_mappingRoom_iff {attr : Attribute} {inUse allocated : ℕ} (haligned : 8 ∣ attr.length)
    (hlt : attr.runOffset < attr.length) (hle : inUse ≤ allocated) :
    encoded.length ≤ mappingRoom inUse allocated attr ↔
      inUse + mappingGrowth attr encoded ≤ allocated := by
  rw [mappingRoom, mappingGrowth]
  omega

variable (h : Loaded sectorSize candidate) (hpos : 0 < physicalClusters candidate.attr.runs)
include h hpos

/-- **Rewriting the record of a loaded candidate** for one run: it depends on the room alone. -/
theorem Loaded.updatedRecordRuns_eq (haligned : 8 ∣ candidate.attr.length)
    (hencoded : encodeRunlist [⟨some destination, physicalClusters candidate.attr.runs⟩] =
      .ok encoded) (hcapacity : maximumMappingCapacity candidate = .ok capacity) :
    (encoded.length ≤ capacity → ∃ record, updatedRecordRuns candidate
      [⟨some destination, physicalClusters candidate.attr.runs⟩] sectorSize = .ok record) ∧
    (capacity < encoded.length → updatedRecordRuns candidate
      [⟨some destination, physicalClusters candidate.attr.runs⟩] sectorSize =
        .error (.engine "replacement NTFS mapping pairs do not fit the existing MFT record"
          [])) := by
  have hmapped := h.decodes.mapped h.nonresident
  have hlt := hmapped.runOffset_lt
  have hge := hmapped.le_runOffset
  have hoffset := h.four_le_offset
  have hsize := h.size
  obtain ⟨inUse, allocated, hinUse, hallocated, haccounting, rfl⟩ :=
    maximumMappingCapacity_eq_ok hcapacity
  have hallocatedLt : allocated < 4294967296 := (u32_eq_ok.1 hallocated).2 ▸ rd32_lt _ _
  rw [le_mappingRoom_iff haligned hlt (by omega), ← not_le,
    le_mappingRoom_iff haligned hlt (by omega)]
  have hcoalesce : coalesceRuns [⟨some destination, physicalClusters candidate.attr.runs⟩] =
      [⟨some destination, physicalClusters candidate.attr.runs⟩] := by
    rw [coalesceRuns_single, if_neg hpos.ne']
  have hvcns : ¬(runsLength [⟨some destination, physicalClusters candidate.attr.runs⟩] : ℤ) ≠
      candidate.attr.highestVcn - candidate.attr.lowestVcn + 1 := by
    rw [← hmapped.vcns, h.clusters_eq]
    simp [runsLength]
  rw [updatedRecordRuns]
  dsimp only
  rw [hcoalesce, raiseIf_bind_of_not hvcns, hencoded, ok_bind, hinUse, ok_bind, hallocated, ok_bind,
    raiseIf_bind_of_not haccounting]
  change (inUse + mappingGrowth candidate.attr encoded ≤ _ → ∃ record,
    (raiseIf (inUse + mappingGrowth candidate.attr encoded > _) _ [] >>= _) = _) ∧
      (¬inUse + mappingGrowth candidate.attr encoded ≤ _ →
        (raiseIf (inUse + mappingGrowth candidate.attr encoded > _) _ [] >>= _) = _)
  refine ⟨fun hfits ↦ ?_, fun hfits ↦ ?_⟩
  · have hgrow : candidate.attr.runOffset + encoded.length ≤
        candidate.attr.length + mappingGrowth candidate.attr encoded := by
      rw [mappingGrowth]
      omega
    obtain ⟨grown, hgrown, hlen, hsame⟩ := @Loaded.growAttribute _ _ h inUse
      (mappingGrowth candidate.attr encoded) (by omega) (by omega) (by omega)
    rw [raiseIf_bind_of_not (by omega)]
    change ∃ record, (Ntfs.growAttribute candidate.recordFixed candidate.attr inUse
      (mappingGrowth candidate.attr encoded) >>= _) = _
    rw [hgrown, ok_bind]
    refine h.prepareFixups hlen hsame (by omega) ?_ (by rw [mappingGrowth] at hfits; omega)
    rw [length_append, length_replicate]
    rw [mappingGrowth] at hgrow
    omega
  · rw [raiseIf, if_pos (by omega)]
    rfl

/-- **Whether the record is rewritten** depends on the room alone. -/
theorem Loaded.updatedRecordRuns_iff (haligned : 8 ∣ candidate.attr.length) :
    (∃ record, updatedRecordRuns candidate
      [⟨some destination, physicalClusters candidate.attr.runs⟩] sectorSize = .ok record) ↔
      MappingFits candidate [⟨some destination, physicalClusters candidate.attr.runs⟩] := by
  constructor
  · rintro ⟨record, hrecord⟩
    have hcapacity : ∃ encoded capacity, encodeRunlist
        [⟨some destination, physicalClusters candidate.attr.runs⟩] = .ok encoded ∧
          maximumMappingCapacity candidate = .ok capacity := by
      rw [updatedRecordRuns, coalesceRuns_single, if_neg hpos.ne'] at hrecord
      obtain ⟨-, hrecord⟩ := raiseIf_bind_eq_ok.1 hrecord
      obtain ⟨encoded, hencoded, hrecord⟩ := bind_eq_ok.1 hrecord
      obtain ⟨inUse, hinUse, hrecord⟩ := bind_eq_ok.1 hrecord
      obtain ⟨allocated, hallocated, hrecord⟩ := bind_eq_ok.1 hrecord
      obtain ⟨haccounting, hrecord⟩ := raiseIf_bind_eq_ok.1 hrecord
      refine ⟨encoded, mappingRoom inUse (min candidate.recordFixed.length allocated)
        candidate.attr,
        hencoded, ?_⟩
      rw [maximumMappingCapacity, hinUse, ok_bind, hallocated, ok_bind,
        raiseIf_bind_of_not haccounting]
      rfl
    obtain ⟨encoded, capacity, hencoded, hcapacity⟩ := hcapacity
    refine ⟨encoded, capacity, hencoded, hcapacity, not_lt.1 fun hlt ↦ ?_⟩
    rw [(h.updatedRecordRuns_eq hpos haligned hencoded hcapacity).2 hlt] at hrecord
    cases hrecord
  · rintro ⟨encoded, capacity, hencoded, hcapacity, hle⟩
    exact (h.updatedRecordRuns_eq hpos haligned hencoded hcapacity).1 hle

variable (hcapacity : maximumMappingCapacity candidate = .ok capacity)
include hcapacity

omit hpos in
/-- The mapping pairs that are there fit, and so do no longer ones. -/
theorem Loaded.fits_of_shorter {newRuns : List Run}
    (hshorter : ∀ old, encodeRunlist candidate.attr.runs = .ok old →
      ∃ encoded, encodeRunlist newRuns = .ok encoded ∧ encoded.length ≤ old.length) :
    MappingFits candidate newRuns := by
  have hmapped := h.decodes.mapped h.nonresident
  obtain ⟨old, hold, hlen⟩ := encodeRunsFrom_decode hmapped.runs
  obtain ⟨encoded, hencoded, hle⟩ := hshorter old hold
  refine ⟨encoded, capacity, hencoded, hcapacity, ?_⟩
  have hread := runlistEnd_le hmapped.runs
  obtain ⟨inUse, allocated, -, -, -, rfl⟩ := maximumMappingCapacity_eq_ok hcapacity
  rw [Image.read_length] at hread
  rw [Image.read_length] at hlen
  rw [mappingRoom]
  omega

/-- A contiguous stream that moves down needs no more room. -/
theorem Loaded.fits_below
    (hbelow : destination + physicalClusters candidate.attr.runs ≤ lowestLcn candidate.attr.runs) :
    MappingFits candidate [⟨some destination, physicalClusters candidate.attr.runs⟩] := by
  refine h.fits_of_shorter hcapacity fun old hold ↦ ?_
  have hstored := h.stored
  rw [h.clusters_eq] at hpos hbelow ⊢
  cases hruns : candidate.attr.runs with
  | nil =>
    rw [hruns] at hpos
    exact absurd hpos (lt_irrefl 0)
  | cons run rest =>
    rw [hruns] at hpos hbelow hold hstored
    obtain ⟨lcn, hlcn⟩ := Option.ne_none_iff_exists'.1 (hstored run (mem_cons_self ..))
    obtain ⟨w, o, hw, ho, hoLen, hlen⟩ := offset_of_encode hold hlcn
      fun r hr ↦ hstored r (mem_cons_of_mem _ hr)
    have hlow := @lowestLcn_le lcn rest run hlcn
    have hpow : 256 ^ o ≤ 256 ^ 8 := Nat.pow_le_pow_right (by decide) hoLen.2
    obtain ⟨encoded, hencoded, hle⟩ := encode_single_of_fits (w := min w 8) hpos (min_le_right _ _)
      (by rcases min_choice w 8 with hmin | hmin <;> rw [hmin] <;> omega) hoLen
      (show 2 * destination < 256 ^ o by omega)
    exact ⟨encoded, hencoded, by omega⟩

/-- Two runs leave room for a run with a location of three bytes. -/
theorem Loaded.fits_small (hfragments : 1 < physicalFragmentCount candidate.attr.runs)
    (hsmall : destination + physicalClusters candidate.attr.runs ≤ 2 ^ 23) :
    MappingFits candidate [⟨some destination, physicalClusters candidate.attr.runs⟩] := by
  refine h.fits_of_shorter hcapacity fun old hold ↦ ?_
  rw [h.clusters_eq] at hpos hsmall ⊢
  have hcount : physicalFragmentCount candidate.attr.runs ≤ candidate.attr.runs.length :=
    (length_filter_le _ _).trans (length_coalesceRuns_le _)
  obtain ⟨w, hw, hlen⟩ := width_of_encode hold h.stored
  obtain ⟨encoded, hencoded, hle⟩ := encode_single_of_fits (w := min w 4) (o := 3) hpos (by omega)
    (by rcases min_choice w 4 with hmin | hmin <;> rw [hmin] <;> omega) (by omega)
    (show 2 * destination < 256 ^ 3 by omega)
  exact ⟨encoded, hencoded, by omega⟩

end Update

/-! ### Both commands -/

theorem updatedRecordRuns_of_moveExtent {disk : NtfsDisk} {layout : NtfsLayout}
    {candidate : Candidate} {move : ExtentMove} {result : NtfsDisk × NtfsLayout}
    (h : moveExtent disk layout candidate move = .ok result) :
    ∃ record, updatedRecordRuns candidate move.newRuns layout.volume.bytesPerSector =
      .ok record := by
  rw [moveExtent] at h
  obtain ⟨record, hrecord, -⟩ := bind_eq_ok.1 h
  exact ⟨record, hrecord⟩

/-- `_select_compact_source` passes over a stream whose new mapping pairs do not fit. -/
theorem selectRound_of_not_fits {gap : Run} {start : ℕ} {info : StreamInfo}
    (best : Option (StreamInfo × ExtentMove)) (hgap : gap.lcn = some start)
    (hencoded : encodeRunlist [⟨some start, physicalClusters info.runs⟩] = .ok encoded)
    (hlong : info.mappingCapacity < encoded.length) : selectRound gap best info = .ok best := by
  have hplan : planCompactExtentInfo info gap = .ok none := by
    rw [planCompactExtentInfo, hgap]
    dsimp only
    split_ifs
    · rfl
    · rw [hencoded, ok_bind, if_pos hlong]
      rfl
  rw [selectRound]
  split_ifs
  · rfl
  · rw [hplan]
    rfl

/-- **Room for the mapping pairs.** A stream that `compact` selects has its record rewritten, and a
stream whose mapping pairs do not fit is passed over. The mapping pairs of a stream that
`defragment` moves fit in a record with proper accounting on volumes of up to 2²³ clusters, and when
the stream settles. The record is rewritten exactly if they fit, and if they do not, the command
ends there. -/
theorem mapping_space (casefold : List ℕ → List ℕ) (disk : NtfsDisk) (path : String) :
    (∀ s candidate move, CompactReachable casefold disk path s → CompactIssues s candidate move →
      8 ∣ candidate.attr.length → ∃ record,
        updatedRecordRuns candidate move.newRuns s.layout.volume.bytesPerSector = .ok record) ∧
    (∀ gap start info encoded best, gap.lcn = some start →
      encodeRunlist [⟨some start, physicalClusters info.runs⟩] = .ok encoded →
      info.mappingCapacity < encoded.length → selectRound gap best info = .ok best) ∧
    ∀ s candidate move, DefragReachable casefold disk path s → DefragIssues s candidate move →
      8 ∣ candidate.attr.length →
      ((∃ capacity, maximumMappingCapacity candidate = .ok capacity) →
        s.layout.volume.totalClusters ≤ 2 ^ 23 ∨
          (∃ pass queue moved, s.phase = .settling pass queue moved) →
        MappingFits candidate move.newRuns) ∧
      ((∃ record, updatedRecordRuns candidate move.newRuns s.layout.volume.bytesPerSector =
        .ok record) ↔ MappingFits candidate move.newRuns) ∧
      (¬MappingFits candidate move.newRuns → ∀ s', ¬DefragStep s s') := by
  refine ⟨fun s candidate move hs ⟨owner, hole, hnext⟩ haligned ↦ ?_,
    fun gap start info encoded best hgap hencoded ↦ selectRound_of_not_fits best hgap hencoded,
    fun s candidate move hs hissues haligned ↦ ?_⟩
  · obtain ⟨hbps, hsize, -⟩ := openVolume_eq_ok hs.openVolume_eq
    obtain ⟨-, -, hplan, hload, hruns, hfits⟩ := compactNext_eq_move hnext
    obtain ⟨start, n, -, -, -, hnew, -, hn, hpos⟩ := planCompactExtentInfo_eq_some hplan
    have hloaded := (loaded_of_loadCandidate hbps hsize hload).1
    rw [← hruns] at hn
    subst hn
    rw [hnew] at hfits ⊢
    exact (hloaded.updatedRecordRuns_iff hpos haligned).2 hfits
  · obtain ⟨hbps, hsize, -⟩ := openVolume_eq_ok hs.openVolume_eq
    -- in both passes the move is one of a loaded candidate to a free run
    obtain ⟨info, before, destination, hload, hfind, rfl, hroom⟩ : ∃ info before destination,
        loadCandidate s.disk s.layout info = .ok candidate ∧
        findFreeRun s.layout.bitmap
          (physicalClusters candidate.attr.runs) before = some destination ∧
        move = wholeStreamMove candidate destination ∧
        (before = lowestLcn candidate.attr.runs ∨
          (∀ pass queue moved, s.phase ≠ .settling pass queue moved) ∧
            1 < physicalFragmentCount candidate.attr.runs ∧
            before = max 1 (s.layout.volume.totalClusters - 1)) := by
      rcases hissues with ⟨pass, info, queue, moved, hphase, haction⟩ |
        ⟨pass, info, queue, moved, hphase, haction⟩
      · obtain ⟨hload, hfragments, destination, hfind, hmove⟩ := placementAction_eq_move haction
        exact ⟨info, _, destination, hload, hfind, hmove,
          .inr ⟨fun _ _ _ h ↦ (by cases hphase.symm.trans h), hfragments, rfl⟩⟩
      · obtain ⟨hload, -, destination, hfind, hmove⟩ := settlingAction_eq_move haction
        exact ⟨info, _, destination, hload, hfind, hmove, .inl rfl⟩
    have hloaded := (loaded_of_loadCandidate hbps hsize hload).1
    obtain ⟨hpos, hle, -⟩ := findFreeRun_eq_some hfind
    have hiff :
      (∃ record, updatedRecordRuns candidate (wholeStreamMove candidate destination).newRuns
        s.layout.volume.bytesPerSector = .ok record) ↔
          MappingFits candidate (wholeStreamMove candidate destination).newRuns :=
      hloaded.updatedRecordRuns_iff hpos haligned
    refine ⟨fun ⟨capacity, hcapacity⟩ hcase ↦ ?_, hiff, fun hnot s' hstep ↦ ?_⟩
    · rcases hroom with rfl | ⟨hplacement, hfragments, rfl⟩
      · exact hloaded.fits_below hpos hcapacity (hle.trans (min_le_left _ _))
      · have hsmall := hcase.resolve_right fun ⟨pass, queue, moved, h⟩ ↦ hplacement _ _ _ h
        have hbefore : max 1 (s.layout.volume.totalClusters - 1) ≤ 2 ^ 23 :=
          max_le (by norm_num) (by omega)
        exact hloaded.fits_small hpos hcapacity hfragments (by omega)
    · obtain ⟨result, hresult⟩ := hstep.moves hissues
      exact hnot (hiff.1 (updatedRecordRuns_of_moveExtent hresult))

/-- On the small volume `defragment` moves the file, and its record is rewritten. -/
theorem mapping_space_reserved : ∃ s candidate move record,
    DefragReachable asciiFold (smallVolume reservedBitmap splitPairs) "/dev/sdx1" s ∧
      DefragIssues s candidate move ∧ 8 ∣ candidate.attr.length ∧
      updatedRecordRuns candidate move.newRuns s.layout.volume.bytesPerSector = .ok record := by
  obtain ⟨candidate, haction⟩ := placementAction_reserved
  have hreach := smallPlacement_reachable openAndScan_reserved (by decide)
  have hissues : DefragIssues (smallPlacement reservedBitmap splitPairs splitRuns) candidate _ :=
    .inl ⟨1, _, [], 0, rfl, haction⟩
  have heval : (loadCandidate (smallVolume reservedBitmap splitPairs) (smallLayout reservedBitmap)
      (smallFile splitRuns)).toOption.map (fun candidate ↦
        (candidate.attr.length, maximumMappingCapacity candidate)) = some (72, .ok 384) := by
    decide +kernel
  rw [(placementAction_eq_move haction).1] at heval
  obtain ⟨hlength, hcapacity⟩ : _ ∧ _ := by simpa [Except.toOption] using heval
  have haligned : 8 ∣ candidate.attr.length := by
    rw [hlength]
    decide
  obtain ⟨hfits, hiff, -⟩ := (mapping_space asciiFold _ _).2.2 _ candidate _ hreach hissues haligned
  obtain ⟨record, hrecord⟩ := hiff.2 (hfits ⟨_, hcapacity⟩ (.inl (show 64 ≤ 2 ^ 23 by norm_num)))
  exact ⟨_, candidate, _, record, hreach, hissues, haligned, hrecord⟩

/-! ### A volume with 2²³ clusters in use

Clusters and records of 512 bytes. The file has a run of 32700 clusters and one of 100, its record
is full, and all free clusters lie behind the first 2²³. -/

/-- The mapping pairs of clusters 127 to 32826 and 20 to 119. -/
def widePairs : List UInt8 := [0x12, 0xBC, 0x7F, 127, 0x11, 100, 0x95, 0]

/-- The runs of `widePairs`. -/
def wideRuns : List Run := [⟨some 127, 32700⟩, ⟨some 20, 100⟩]

/-- The sector of a record without unused bytes: the stream and an attribute with 352 bytes of
data. -/
def fullRecordSector (k : ℕ) : UInt8 :=
  if k = 510 then 1
  else (fileSignature ++ [48, 0, 2, 0] ++ List.replicate 12 0 ++
    [56, 0, 1, 0, 0, 2, 0, 0, 0, 2, 0, 0] ++
    List.replicate 16 0 ++ [1, 0, 0, 0] ++ List.replicate 4 0 ++
    smallStream 32800
      (32800 * 512) widePairs ++ [0, 1, 0, 0, 0x78, 1, 0, 0, 0, 0, 24, 0, 0, 0, 0, 0,
      0x60, 1, 0, 0, 24, 0, 0, 0] ++ List.replicate 352 0 ++ [0xFF, 0xFF, 0xFF, 0xFF]).getD k 0

/-- The boot sector of the volume. -/
def wideBootSector (k : ℕ) : UInt8 :=
  if k = 510 then 0x55 else if k = 511 then 0xAA
  else (List.replicate 3 0 ++ "NTFS    ".toUTF8.toList ++ [0, 2, 1] ++ List.replicate 26 0 ++
    leBytes 8 8429568 ++ leBytes 8 40000 ++ leBytes 8 45000 ++ [0xF7]).getD k 0

/-- The sectors of the volume that are not empty, but for the bitmap. -/
def wideSectors : List (ℕ × (ℕ → UInt8)) :=
  [(0, wideBootSector),
    (40000, recordSector 136 (smallStream 25 12800 [0x31, 25, 0x40, 0x9C, 0, 0, 0, 0])),
    (40003, recordSector 104 smallVolumeInformation),
    (40006, recordSector 136 (smallStream 2058 1053696 [0x32, 0x0A, 0x08, 0x50, 0xC3, 0, 0, 0])),
    (40024, fullRecordSector),
    (45003, recordSector 104 smallVolumeInformation)]

/-- The volume; the bitmap starts at byte 25600000. -/
def wideVolume : NtfsDisk where
  size := 8429568 * 512
  image a := if 25600000 ≤ a ∧ a < 25600000 + 1053696 then
      if a < 25600000 + 1048576 then 0xFF else 0
    else (wideSectors.lookup (a / 512)).elim 0 (· (a % 512))
  journal := none
  log := []

/-- What `openVolume` finds. -/
def wideBoot : Volume where
  path := "/dev/sdx1"
  deviceSize := 8429568 * 512
  bytesPerSector := 512
  sectorsPerCluster := 1
  clusterSize := 512
  totalClusters := 8429568
  mftLcn := 40000
  mftmirrLcn := 45000
  mftRecordSize := 512
  serial := List.replicate 8 0

/-- The bitmap as it is read. -/
def wideBitmap : List UInt8 := (List.range' (50000 * 512 + 0) 1053696).map wideVolume.image

/-- What `_read_layout` finds on the wide volume. -/
def wideLayout : NtfsLayout :=
  ⟨wideBoot, [⟨some 40000, 25⟩], 12800, [⟨some 50000, 2058⟩], 1053696, wideBitmap⟩

/-- The file with the full record. -/
def wideFile : StreamInfo := ⟨24, 56, wideRuns, true, 8⟩

/-- The streams of the wide volume. -/
def wideStreams : List StreamInfo :=
  [⟨0, 56, [⟨some 40000, 25⟩], false, 0⟩, ⟨6, 56, [⟨some 50000, 2058⟩], false, 0⟩, wideFile]

theorem length_wideBitmap : wideBitmap.length = 1053696 := by
  rw [wideBitmap, length_map, length_range']

/-- The first 2²³ clusters are in use, and all others free. -/
theorem bit_wideBitmap {c : ℕ} (hc : c < 8429568) : bit wideBitmap c = decide (c < 2 ^ 23) := by
  have hbyte : wideBitmap.getD (c / 8) 0 = fillByte (decide (c < 2 ^ 23)) := by
    rw [getD_eq_getElem _ _ (by rw [length_wideBitmap]; omega)]
    simp only [wideBitmap, getElem_map, getElem_range', wideVolume]
    rw [if_pos (by omega)]
    by_cases hlow : c < 2 ^ 23
    · rw [if_pos (by omega), decide_eq_true hlow]
      rfl
    · rw [if_neg (by omega), decide_eq_false hlow]
      rfl
  rw [bit, bitAt, hbyte]
  exact byteBit_fillByte _ (Nat.mod_lt _ (by decide))

/-- What `defragment` reads on the wide volume, by evaluation. -/
theorem wide_evaluated : openVolume wideVolume "/dev/sdx1" = .ok wideBoot ∧
    recordZero wideVolume wideBoot =
      .ok ⟨56, 72, 0x80, [], 0, true, 0, 24, 64, [⟨some 40000, 25⟩], 12800⟩ ∧
    checkVolumeRecord wideVolume wideBoot [⟨some 40000, 25⟩] false = .ok () ∧
    (readMftRecord wideVolume wideBoot [⟨some 40000, 25⟩] 6 >>= fun record ↦
      attributeList record.2.2 >>= fun attrs ↦ pure (attrs.filter isUnnamedData)) =
        .ok [⟨56, 72, 0x80, [], 0, true, 0, 2057, 64, [⟨some 50000, 2058⟩], 1053696⟩] ∧
    (range 25).foldlM (scanRecordAt asciiFold wideVolume wideLayout) ⟨[], false⟩ =
      .ok ⟨wideStreams, false⟩ ∧
    (loadCandidate wideVolume wideLayout wideFile).toOption.map (fun candidate ↦
      (candidate.attr.runs, candidate.attr.length, maximumMappingCapacity candidate)) =
        some (wideRuns, 72, .ok 8) := by
  refine ⟨?_, ?_, ?_, ?_, ?_, ?_⟩ <;> decide +kernel

theorem readLayout_wide : readLayout wideVolume wideBoot false true = .ok wideLayout := by
  have haddrs : IsAddrs 512 [⟨some 50000, 2058⟩] 0 1053696
      (range' (50000 * 512 + 0) 1053696) := by
    rw [IsAddrs, map_byteAddr_head rfl (by decide)]
  have hinside : ∀ a ∈ range' (50000 * 512 + 0) 1053696, a < 8429568 * 512 := by
    intro a ha
    have hlt := (mem_range'_1.1 ha).2
    omega
  have hbitmap : readStream wideVolume wideBoot [⟨some 50000, 2058⟩] 0 1053696 = .ok wideBitmap :=
    readStream_of_addrs (by decide) haddrs hinside
  have hlength : wideBoot.totalClusters ≤ wideBitmap.length * 8 := by
    rw [length_wideBitmap]
    exact Nat.le_refl 8429568
  obtain ⟨-, hzero, hcheck, hattrs, -⟩ := wide_evaluated
  exact readLayout_of_parts hzero hcheck hattrs rfl hbitmap hlength

theorem openAndScan_wide : openAndScan asciiFold wideVolume "/dev/sdx1" =
    .ok (wideLayout, wideStreams) := by
  obtain ⟨hopen, -, -, -, hscan, -⟩ := wide_evaluated
  exact openAndScan_of_records rfl hopen readLayout_wide rfl rfl rfl rfl (by decide)
    (show (40000 + 25) * 512 ≤ 8429568 * 512 by decide) hscan

/-- `defragment` before the transaction for the file. -/
def widePlacement : DefragState :=
  ⟨wideVolume, wideLayout, wideStreams, [(24, 56)], [], .placement 1 [wideFile] 0⟩

theorem widePlacement_reachable :
    DefragReachable asciiFold wideVolume "/dev/sdx1" widePlacement := by
  have hstart : defragStart asciiFold wideVolume "/dev/sdx1" =
      .ok ⟨wideVolume, wideLayout, wideStreams, [(24, 56)], [], .placementPass 1⟩ := by
    rw [defragStart, openAndScan_wide, ok_bind]
    rfl
  refine .step (.start hstart) (.beginPlacement rfl (by decide) (by simp) ⟨?_, ?_⟩)
  · simp [wideStreams, wideFile, StreamInfo.key]
  · exact pairwise_singleton _ _

/-- What the candidate for the file is, as far as it matters. -/
theorem loadCandidate_wide :
    ∃ candidate, loadCandidate wideVolume wideLayout wideFile = .ok candidate ∧
    candidate.attr.runs = wideRuns ∧ candidate.attr.length = 72 ∧
    maximumMappingCapacity candidate = .ok 8 := by
  have heval := wide_evaluated.2.2.2.2.2
  cases hload : loadCandidate wideVolume wideLayout wideFile with
  | error e =>
    rw [hload] at heval
    cases heval
  | ok candidate =>
    rw [hload] at heval
    obtain ⟨hruns, hlength, hcapacity⟩ : _ ∧ _ ∧ _ := by simpa [Except.toOption] using heval
    exact ⟨candidate, rfl, hruns, hlength, hcapacity⟩

/-- A location behind the first 2²³ clusters takes four bytes, and 32800 clusters take three. -/
theorem encode_wide (hlow : 2 ^ 23 ≤ destination)
    (h : encodeRunlist [⟨some destination, 32800⟩] = .ok encoded) : 8 < encoded.length := by
  obtain ⟨l, o, tail, ⟨-, hl⟩, ⟨-, ho⟩, htail, hlen⟩ := encodeRunsFrom_cons h rfl
  obtain rfl := Except.ok.inj htail
  have hl₃ : 3 ≤ l := by
    by_contra hlt
    have := Nat.pow_le_pow_right (show 0 < 256 by decide) (show l ≤ 2 by omega)
    dsimp only at hl
    omega
  have ho₄ : 4 ≤ o := by
    by_contra hlt
    have hpow : (256 : ℤ) ^ o ≤ 256 ^ 3 := pow_le_pow_right₀ (by norm_num) (by omega)
    have hdestination : (2 ^ 23 : ℤ) ≤ destination := by exact_mod_cast hlow
    rw [Nat.cast_zero, sub_zero] at ho
    norm_num at hpow hdestination
    omega
  rw [hlen, length_singleton]
  omega

/-- **`defragment` may end for lack of room.** The file has two runs and eight bytes of mapping
pairs in a full record. It is to be moved behind the first 2²³ clusters, where its one run needs
nine bytes. -/
theorem defragment_lacks_room : ∃ s candidate move,
    DefragReachable asciiFold wideVolume "/dev/sdx1" s ∧ DefragIssues s candidate move ∧
    8 ∣ candidate.attr.length ∧
    updatedRecordRuns candidate move.newRuns s.layout.volume.bytesPerSector = .error
      (.engine "replacement NTFS mapping pairs do not fit the existing MFT record" []) := by
  obtain ⟨candidate, hload, hruns, hlength, hcapacity⟩ := loadCandidate_wide
  have hclusters : physicalClusters candidate.attr.runs = 32800 := by
    rw [hruns]
    decide
  have hfree : FreeRange wideBitmap (2 ^ 23) (2 ^ 23 + 32800) := fun c hlow hhigh ↦ by
    rw [bit_wideBitmap (by omega), decide_eq_false (by omega)]
  obtain ⟨destination, hfind⟩ :=
    @findFreeRun_isSome (2 ^ 23) (max 1 (8429568 - 1)) wideBitmap 32800 (by decide)
      (by rw [length_wideBitmap]; decide) hfree
  obtain ⟨-, hle, hfound⟩ := findFreeRun_eq_some hfind
  have hlow : 2 ^ 23 ≤ destination := by
    by_contra hlt
    have := hfound destination le_rfl (by omega)
    rw [bit_wideBitmap (by omega), decide_eq_true (by omega)] at this
    cases this
  have haction : placementAction wideVolume wideLayout wideFile =
      .ok (.move candidate (wholeStreamMove candidate destination)) := by
    have hfragments : ¬physicalFragmentCount candidate.attr.runs ≤ 1 := by
      rw [hruns]
      decide
    have hbitmap : wideLayout.bitmap = wideBitmap := rfl
    have htotal : wideLayout.volume.totalClusters = 8429568 := rfl
    rw [placementAction, hload, ok_bind, if_neg hfragments, moveBelow, hclusters, hbitmap, htotal,
      hfind]
    rfl
  have hloaded : Loaded 512 candidate := (@loaded_of_loadCandidate _ wideLayout _ _
    (show 256 ≤ 512 by decide) (show 512 ≤ 512 by decide) hload).1
  have haligned : 8 ∣ candidate.attr.length := by
    rw [hlength]
    decide
  obtain ⟨encoded, hencoded⟩ : ∃ encoded, encodeRunlist [⟨some destination, 32800⟩] = .ok encoded :=
    encodeRunsFrom_eq_ok (by norm_num) (by simp; omega)
  refine ⟨widePlacement, candidate, wholeStreamMove candidate destination, widePlacement_reachable,
    .inl ⟨1, wideFile, [], 0, rfl, haction⟩, haligned, ?_⟩
  exact (hloaded.updatedRecordRuns_eq (by omega) haligned (by rwa [hclusters]) hcapacity).2
    (encode_wide hlow hencoded)

end LinuxDefragger.Ntfs
