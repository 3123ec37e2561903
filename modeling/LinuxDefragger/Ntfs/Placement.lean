import LinuxDefragger.Ntfs.BootGuard
import LinuxDefragger.Ntfs.Scanned

/-!
# What `defragment` leaves fragmented

The report at the end of `defragment` says that the streams which are still fragmented found no free
run that was large enough. A pass that moves nothing shows this for the moment of the pass. The
settling passes move streams after that and may join free runs, and the placement passes may be cut
off by their number: then a stream is left although there is room for it.

`defragment_unplaceable` is the statement for the runs in which neither happens: settling moves are
allowed there if no stream waits for a place. It rests on a frame argument: on a consistent volume a
move leaves the records of all other streams alone, so a stream that was not moved has the runs that
the scan has found.
-/

open Except List Storage

namespace LinuxDefragger.Ntfs

/-! ### Runs in which nothing is cut off -/

/-- The record of the stream that a pass takes next has the runs that the plan has for it. -/
def AsPlanned (s : DefragState) : Prop :=
  ∀ info ∈ s.phase.next, ∀ candidate, loadCandidate s.disk s.layout info = .ok candidate →
    candidate.attr.runs = info.runs

/-- The states of the runs of `defragment` in which all passes end by themselves, and the settling
passes move streams only if none waits for a place and the streams are where the plan has them. -/
inductive QuietReachable (casefold : List ℕ → List ℕ) (disk : NtfsDisk) (path : String) :
    DefragState → Prop
  | start {s : DefragState} (h : defragStart casefold disk path = .ok s) :
      QuietReachable casefold disk path s
  | step {s s' : DefragState} (hs : QuietReachable casefold disk path s) (h : DefragStep s s')
      (hpass : ∀ pass, s'.phase = .placementPass pass → pass ≤ maxPasses ∨ s'.pending = [])
      (hsettle : ∀ pass queue moved, s'.phase = .settling pass queue moved →
        moved = 0 ∨ s'.pending = [] ∧ AsPlanned s)
      (hagain : ∀ pass, s'.phase = .settlingPass pass → pass ≤ maxPasses ∨ s'.movedKeys = []) :
      QuietReachable casefold disk path s'

variable {disk : NtfsDisk} {bitmap : List UInt8}

/-- They are states of runs of `defragment`. -/
theorem QuietReachable.reachable {casefold : List ℕ → List ℕ} {path : String} {s : DefragState}
    (h : QuietReachable casefold disk path s) : DefragReachable casefold disk path s := by
  induction h with
  | start h => exact .start h
  | step _ h _ _ _ ih => exact .step ih h

/-- A step of a placement pass is quiet. -/
theorem QuietReachable.placement {casefold : List ℕ → List ℕ} {path : String}
    {s s' : DefragState} {pass moved : ℕ} {queue : List StreamInfo}
    (hs : QuietReachable casefold disk path s) (h : DefragStep s s')
    (hphase : s'.phase = .placement pass queue moved) : QuietReachable casefold disk path s' := by
  refine .step hs h ?_ ?_ ?_ <;> simp [hphase]

/-- The streams that are still fragmented have more clusters than any free run below the last
cluster. -/
def OnlyUnplaceable (s : DefragState) : Prop :=
  ∀ info ∈ s.streams, info.movable = true → ∀ candidate,
    loadCandidate s.disk s.layout info = .ok candidate →
    1 < physicalFragmentCount candidate.attr.runs →
    ∀ a n, FreeRange s.layout.bitmap a (a + n) → a + n ≤ max 1 (s.layout.volume.totalClusters - 1) →
      n < physicalClusters candidate.attr.runs

/-! ### The invariant -/

/-- A stream that `defragment` wants to place. -/
def StreamInfo.Supported (info : StreamInfo) : Prop :=
  info.movable = true ∧ 1 < physicalFragmentCount info.runs

/-- No free run is large enough for a stream. -/
def NoRoom (s : DefragState) (info : StreamInfo) : Prop :=
  ∀ candidate, loadCandidate s.disk s.layout info = .ok candidate →
    findFreeRun s.layout.bitmap (physicalClusters candidate.attr.runs)
      (max 1 (s.layout.volume.totalClusters - 1)) = none

/-- A stream is not fragmented. -/
def Contiguous (s : DefragState) (info : StreamInfo) : Prop :=
  ∀ candidate, loadCandidate s.disk s.layout info = .ok candidate →
    physicalFragmentCount candidate.attr.runs ≤ 1

section Invariant

variable (disk₀ : NtfsDisk) (layout₀ : NtfsLayout) (streams₀ : List StreamInfo)

/-- A stream lies inside the bitmap and off the streams that were not moved. -/
def Landed (s : DefragState) (info : StreamInfo) : Prop :=
  (∀ run ∈ info.runs, ∀ lcn, run.lcn = some lcn →
    lcn + run.length ≤ s.layout.bitmap.length * 8) ∧
  ∀ other ∈ streams₀, other.key ∉ s.movedKeys → Apart info other

/-- What holds between the volume that was scanned and a state. The streams that were not moved have
their records, their clusters and their entries in the plan. -/
structure PlacementInv (s : DefragState) : Prop where
  layout_eq : s.layout = { layout₀ with bitmap := s.layout.bitmap }
  covers : layout₀.volume.totalClusters ≤ s.layout.bitmap.length * 8
  size : s.disk.size = disk₀.size
  records : ∀ info ∈ streams₀, info.movable = true → info.key ∉ s.movedKeys →
    ∀ a ∈ layout₀.recordAddrs info.recordNumber, s.disk.image a = disk₀.image a
  marked : ∀ info ∈ streams₀, info.key ∉ s.movedKeys →
    ∀ c ∈ runClusters info.runs, bit s.layout.bitmap c = true
  streams : s.streams.filter (fun info ↦ info.key ∉ s.movedKeys) =
    streams₀.filter fun info ↦ info.key ∉ s.movedKeys
  moved : ∀ key ∈ s.movedKeys, ∃ info ∈ streams₀, info.key = key ∧ info.movable = true
  known : ∀ key ∈ s.pending, ∃ info ∈ streams₀, info.key = key
  pending : ∀ info ∈ streams₀, info.key ∈ s.pending ↔ info.Supported ∧ info.key ∉ s.movedKeys
  landed : ∀ info ∈ s.streams, info.key ∈ s.movedKeys → Landed streams₀ s info

/-- What is known in a phase. -/
def PhaseInv (s : DefragState) : Prop :=
  match s.phase with
  | .placementPass pass => pass ≤ maxPasses ∨ s.pending = []
  | .placement _ queue passMoved =>
    (∀ info ∈ queue, info ∈ streams₀ ∧ info.key ∈ s.pending) ∧ queue.Pairwise Apart ∧
      (passMoved = 0 → ∀ info ∈ streams₀, info.key ∈ s.pending → info ∈ queue ∨ NoRoom s info)
  | .settlingPass pass => (pass ≤ maxPasses ∨ s.movedKeys = []) ∧
      ∀ info ∈ streams₀, info.key ∈ s.pending → NoRoom s info
  | .settling _ queue passMoved =>
    (∀ info ∈ streams₀, info.key ∈ s.pending → NoRoom s info) ∧
      (∀ info ∈ queue, info.key ∈ s.movedKeys ∧ Landed streams₀ s info) ∧
      (passMoved = 0 → ∀ info ∈ s.streams, info.key ∈ s.movedKeys →
        info ∈ queue ∨ Contiguous s info)
  | .finished =>
    (∀ info ∈ streams₀, info.key ∈ s.pending → NoRoom s info) ∧
      ∀ info ∈ s.streams, info.key ∈ s.movedKeys → Contiguous s info

end Invariant

section Run

variable {disk₀ : NtfsDisk} {layout₀ : NtfsLayout} {streams₀ : List StreamInfo}
  {casefold : List ℕ → List ℕ} {path : String} {s s' : DefragState}

section

variable (h : PlacementInv disk₀ layout₀ streams₀ s)
include h

theorem PlacementInv.phase (phase : DefragPhase) :
    PlacementInv disk₀ layout₀ streams₀ { s with phase } :=
  ⟨h.layout_eq, h.covers, h.size, h.records, h.marked, h.streams, h.moved, h.known, h.pending,
    h.landed⟩

/-- A stream that was not moved loads as it did at the start. -/
theorem PlacementInv.loadCandidate_eq {info : StreamInfo}
    (hinfo : info ∈ streams₀) (hmovable : info.movable = true) (hkey : info.key ∉ s.movedKeys) :
    loadCandidate s.disk s.layout info = loadCandidate disk₀ layout₀ info :=
  loadCandidate_congr rfl (by rw [h.layout_eq]) (by rw [h.layout_eq]) h.size
    (h.records info hinfo hmovable hkey)

/-- A stream on a free run has landed, since the streams that were not moved are marked. -/
theorem PlacementInv.landed_of_free {info : StreamInfo} {start n : ℕ}
    (hruns : info.runs = [⟨some start, n⟩]) (hle : start + n ≤ s.layout.bitmap.length * 8)
    (hfree : FreeRange s.layout.bitmap start (start + n)) : Landed streams₀ s info := by
  refine ⟨fun run hrun lcn hlcn ↦ ?_, fun other hother hkey c hc hin ↦ ?_⟩
  · obtain rfl := mem_singleton.1 (hruns ▸ hrun)
    obtain rfl := Option.some.inj hlcn
    exact hle
  · obtain ⟨hlow, hhigh⟩ := mem_runClusters_single.1 (hruns ▸ hc)
    have hused := h.marked other hother hkey c hin
    rw [hfree c hlow hhigh] at hused
    cases hused

/-- The entries of the plan for keys that were not moved are those of the scan. -/
theorem PlacementInv.filter_streams
    {p : ℕ × ℕ → Bool} (hp : ∀ key, p key = true → key ∉ s.movedKeys) :
    s.streams.filter (fun info ↦ p info.key) = streams₀.filter fun info ↦ p info.key := by
  have hfilter : ∀ l : List StreamInfo, l.filter (fun info ↦ p info.key) =
      (l.filter fun info ↦ info.key ∉ s.movedKeys).filter fun info ↦ p info.key := by
    intro l
    rw [filter_filter]
    refine filter_congr fun info _ ↦ ?_
    cases hkey : p info.key with
    | false => rw [Bool.false_and]
    | true => rw [Bool.true_and, decide_eq_true (hp _ hkey)]
  rw [hfilter, hfilter streams₀, h.streams]

end

theorem Landed.mono {info : StreamInfo} (h : Landed streams₀ s info)
    (hlength : s'.layout.bitmap.length = s.layout.bitmap.length)
    (hkeys : s.movedKeys ⊆ s'.movedKeys) : Landed streams₀ s' info :=
  ⟨by rw [hlength]; exact h.1, fun other hother hkey ↦ h.2 other hother (mt (@hkeys _) hkey)⟩

/-- Updating an entry does not touch the entries for other keys. -/
theorem filter_updateMovedStream {streams : List StreamInfo} {info : StreamInfo}
    {newRuns : List Run}
    {p : ℕ × ℕ → Bool} (hp : p info.key = false) :
    (updateMovedStream streams info newRuns).filter (fun other ↦ p other.key) =
      streams.filter fun other ↦ p other.key := by
  induction streams with
  | nil => rfl
  | cons other rest ih =>
    rw [updateMovedStream, map_cons]
    by_cases hkey : other.key = info.key
    · rw [if_pos hkey, filter_cons_of_neg, filter_cons_of_neg]
      · exact ih
      · rw [hkey, hp]
        exact Bool.false_ne_true
      · change ¬p info.key = true
        rw [hp]
        exact Bool.false_ne_true
    · rw [if_neg hkey, filter_cons, filter_cons]
      exact congrArg (fun l ↦ if p other.key = true then other :: l else l) ih

/-- A pass over streams that were not moved takes them as the scan has found them. -/
theorem PlacementInv.pass (h : PlacementInv disk₀ layout₀ streams₀ s)
    (hconsistent : Consistent layout₀ streams₀) {current : List StreamInfo}
    (hcurrent : IsPass s.streams s.pending current) :
    (∀ info, info ∈ current ↔ info ∈ streams₀ ∧ info.key ∈ s.pending) ∧ current.Pairwise Apart := by
  have hperm := hcurrent.1
  have hunmoved : ∀ key, decide (key ∈ s.pending) = true → key ∉ s.movedKeys := by
    intro key hkey
    obtain ⟨info, hinfo, rfl⟩ := h.known key (of_decide_eq_true hkey)
    exact ((h.pending info hinfo).1 (of_decide_eq_true hkey)).2
  rw [h.filter_streams hunmoved] at hperm
  refine ⟨fun info ↦ ?_, ?_⟩
  · rw [hperm.mem_iff, mem_filter, decide_eq_true_iff]
  · exact (hperm.pairwise_iff fun h ↦ Apart.symm h).2 (hconsistent.pairwise.filter _)

section Move

variable {info : StreamInfo} {candidate : Candidate} {destination : ℕ}
  {result : NtfsDisk × NtfsLayout}

/-- The bitmap after a stream was moved. -/
theorem bit_afterMove {disk' : NtfsDisk} {layout layout' : NtfsLayout} {limit : ℕ}
    (hcovers : limit ≤ layout.bitmap.length * 8)
    (hstored : ∀ run ∈ candidate.attr.runs, run.lcn ≠ none)
    (hbelow : ∀ run ∈ candidate.attr.runs, ∀ lcn, run.lcn = some lcn → lcn + run.length ≤ limit)
    (hdest : destination + physicalClusters candidate.attr.runs ≤ layout.bitmap.length * 8)
    (h : moveExtent disk layout candidate (wholeStreamMove candidate destination) =
      .ok (disk', layout')) :
    layout' = { layout with bitmap := layout'.bitmap } ∧
      layout'.bitmap.length = layout.bitmap.length ∧
      ∀ c, bit layout.bitmap c = true → c ∉ runClusters candidate.attr.runs →
        bit layout'.bitmap c = true := by
  obtain ⟨bm₁, bm₂, h₁, h₂, rfl⟩ := moveExtent_layout h
  have hset₁ := RunsSet.of_ok (fun run hrun ↦ ⟨destination, by rw [mem_singleton.1 hrun],
    by rw [mem_singleton.1 hrun]; exact hdest⟩) h₁
  have hset₂ : RunsSet false candidate.attr.runs bm₁ bm₂ := RunsSet.of_ok (fun run hrun ↦ ?_) h₂
  · refine ⟨rfl, hset₂.length.trans hset₁.length, fun c hc hnot ↦ ?_⟩
    rw [hset₂.bit, if_neg hnot, hset₁.bit]
    split_ifs
    · rfl
    · exact hc
  · obtain ⟨lcn, hlcn⟩ := Option.ne_none_iff_exists'.1 (hstored run hrun)
    rw [hset₁.length]
    exact ⟨lcn, hlcn, (hbelow run hrun lcn hlcn).trans hcovers⟩

variable (h : PlacementInv disk₀ layout₀ streams₀ s)
  (hscan : ∀ info ∈ streams₀, StreamScan disk₀ layout₀ info)
  (hconsistent : Consistent layout₀ streams₀)
include h hscan hconsistent

/-- The clusters of the MFT stay marked, since `$MFT` is not moved. -/
theorem PlacementInv.mft_marked :
    ∀ c ∈ runClusters layout₀.mftRuns, bit s.layout.bitmap c = true := by
  obtain ⟨mft, hmft, hnumber, hruns⟩ := hconsistent.mft
  rw [← hruns]
  refine h.marked mft hmft fun hmoved ↦ ?_
  obtain ⟨other, hother, hkey, hmovable⟩ := h.moved _ hmoved
  have huser := (hscan other hother).userRecord hmovable
  have hzero : other.recordNumber = mft.recordNumber := congrArg Prod.fst hkey
  rw [hzero, hnumber] at huser
  exact absurd huser (by decide)

/-- A move leaves the records of the other streams alone. -/
theorem PlacementInv.record_kept (hcs : 0 < layout₀.volume.clusterSize)
    (hfree : FreeRange s.layout.bitmap destination
      (destination + physicalClusters candidate.attr.runs))
    {number : ℕ} (huser : firstUserRecord ≤ number) (hother : number ≠ candidate.recordNumber)
    {a : ℕ} (ha : a ∈ layout₀.recordAddrs number) :
    a ∉ moveAddrs layout₀ candidate (wholeStreamMove candidate destination) := by
  have hcluster := streamAddrs_div hcs ha
  obtain ⟨mft, hmft, hmftNumber, hmftRuns⟩ := hconsistent.mft
  have hnodup := hconsistent.nodup hmft
  rw [hmftRuns] at hnodup
  have hthree : number ≠ 3 := by
    rintro rfl
    exact absurd huser (by decide)
  -- another system stream has other clusters than the MFT
  have hsystem : ∀ other ∈ streams₀, other.recordNumber ≠ 0 →
      a / layout₀.volume.clusterSize ∉ runClusters other.runs := by
    intro other hother hnumber
    refine hconsistent.apart hmft hother (fun heq ↦ hnumber (heq ▸ hmftNumber)) _ ?_
    rwa [hmftRuns]
  -- two records are different ranges of the MFT
  have hrecord : ∀ {k : ℕ}, number ≠ k → a ∉ layout₀.recordAddrs k := by
    intro k hk
    refine disjoint_streamAddrs hcs hnodup ?_ ha
    rcases Nat.lt_or_gt_of_ne hk with hlt | hlt
    · left
      have := Nat.mul_le_mul_right layout₀.volume.mftRecordSize (Nat.succ_le_of_lt hlt)
      rwa [Nat.succ_mul] at this
    · right
      have := Nat.mul_le_mul_right layout₀.volume.mftRecordSize (Nat.succ_le_of_lt hlt)
      rwa [Nat.succ_mul] at this
  rintro (hdest | hbitmap | hmirror | hvolume | hown)
  · obtain ⟨hlow, hhigh⟩ := mem_runClusters_single.1 hdest
    have hused := h.mft_marked hscan hconsistent _ hcluster
    rw [hfree _ hlow hhigh] at hused
    cases hused
  · obtain ⟨other, hmem, hnumber, hruns⟩ := hconsistent.bitmap
    exact hsystem other hmem (by rw [hnumber]; decide) (hruns ▸ hbitmap)
  · obtain ⟨other, hmem, hnumber, hmirrored⟩ := hconsistent.mirror
    exact hsystem other hmem (by rw [hnumber]; decide) (hmirrored a hmirror)
  · exact hrecord hthree hvolume
  · exact hrecord hother hown

section

variable (hopen : openVolume disk₀ path = .ok layout₀.volume)
include hopen

/-- **A move of a whole stream leaves the other records alone.** -/
theorem PlacementInv.image_kept (hload : loadCandidate s.disk s.layout info = .ok candidate)
    (hfree : FreeRange s.layout.bitmap destination
      (destination + physicalClusters candidate.attr.runs))
    {disk' : NtfsDisk} {layout' : NtfsLayout}
    (hmove : moveExtent s.disk s.layout candidate (wholeStreamMove candidate destination) =
      .ok (disk', layout')) :
    disk'.size = s.disk.size ∧ ∀ number, firstUserRecord ≤ number → number ≠ info.recordNumber →
      ∀ a ∈ layout₀.recordAddrs number, disk'.image a = s.disk.image a := by
  obtain ⟨hbps, hrecord, hcs⟩ := openVolume_eq_ok hopen
  have hvolume : s.layout.volume = layout₀.volume := by rw [h.layout_eq]
  have haddrs : moveAddrs s.layout candidate (wholeStreamMove candidate destination) =
      moveAddrs layout₀ candidate (wholeStreamMove candidate destination) := by
    rw [h.layout_eq]
    rfl
  rw [← hvolume] at hbps hrecord
  obtain ⟨hloaded, hlength⟩ := loaded_of_loadCandidate hbps hrecord hload
  have hchanges := moveExtent_changes hbps (hvolume ▸ hcs) hloaded hlength hmove
  rw [haddrs] at hchanges
  refine ⟨hchanges.size, fun number huser hne a ha ↦ hchanges.image a ?_⟩
  rw [← (loadCandidate_eq_ok hload).1] at hne
  exact h.record_kept hscan hconsistent hcs hfree huser hne ha

/-- **A move of a whole stream keeps the invariant**, if no stream that was not moved loses a
cluster. -/
theorem PlacementInv.afterMove {before : ℕ} {keys pending : List (ℕ × ℕ)}
    (hload : loadCandidate s.disk s.layout info = .ok candidate)
    (hfind : findFreeRun s.layout.bitmap (physicalClusters candidate.attr.runs) before =
      some destination)
    (hmove : moveExtent s.disk s.layout candidate (wholeStreamMove candidate destination) =
      .ok result)
    (hinside : ∀ run ∈ candidate.attr.runs, ∀ lcn, run.lcn = some lcn →
      lcn + run.length ≤ s.layout.bitmap.length * 8)
    (hapart : ∀ other ∈ streams₀, other.key ∉ keys →
      ∀ c ∈ runClusters candidate.attr.runs, c ∉ runClusters other.runs)
    (hown : ∃ own ∈ streams₀, own.key = info.key ∧ own.movable = true)
    (hkeys : ∀ key, key ∈ keys ↔ key = info.key ∨ key ∈ s.movedKeys)
    (hknown : pending ⊆ s.pending)
    (hpending : ∀ other ∈ streams₀, other.key ∈ pending ↔ other.Supported ∧ other.key ∉ keys)
    (phase : DefragPhase) :
    result.2.bitmap.length = s.layout.bitmap.length ∧
      PlacementInv disk₀ layout₀ streams₀ { s.moved info (wholeStreamMove candidate destination)
        result phase with pending, movedKeys := keys } := by
  obtain ⟨hpos, hle, hfree⟩ := findFreeRun_eq_some hfind
  obtain ⟨hbps, hrecord, -⟩ := openVolume_eq_ok hopen
  have hvolume : s.layout.volume = layout₀.volume := by rw [h.layout_eq]
  rw [← hvolume] at hbps hrecord
  obtain ⟨disk', layout'⟩ := result
  obtain ⟨hlayout, hbmLength, hbit⟩ := bit_afterMove le_rfl
    (loaded_of_loadCandidate hbps hrecord hload).1.stored hinside
    (hle.trans (min_le_right _ _)) hmove
  obtain ⟨hsize, himage⟩ := h.image_kept hscan hconsistent hopen hload hfree hmove
  obtain ⟨own, hownMem, hownKey, hownMovable⟩ := hown
  have hold : ∀ {key}, key ∉ keys → key ≠ info.key ∧ key ∉ s.movedKeys := fun hkey ↦
    not_or.1 (mt (hkeys _).2 hkey)
  have hgrows : s.movedKeys ⊆ keys := fun key hkey ↦ (hkeys key).2 (.inr hkey)
  refine ⟨hbmLength, ?_, hbmLength ▸ h.covers, hsize.trans h.size,
    fun other hother hmovable hkey a ha ↦ ?_, fun other hother hkey c hc ↦ ?_, ?_,
    fun key hkey ↦ ?_, fun key hkey ↦ h.known key (hknown hkey), hpending,
    fun other hother hkey ↦ ?_⟩
  · rw [h.layout_eq] at hlayout
    exact hlayout
  · have hne : other.recordNumber ≠ own.recordNumber := fun heq ↦ (hold hkey).1
      (((hscan own hownMem).key_eq hownMovable (hscan other hother) hmovable heq).trans hownKey)
    rw [← h.records other hother hmovable (hold hkey).2 a ha]
    refine himage _ ((hscan other hother).userRecord hmovable) ?_ a ha
    rwa [← show own.recordNumber = info.recordNumber from congrArg Prod.fst hownKey]
  · exact hbit c (h.marked other hother (hold hkey).2 c hc) fun hin ↦
      hapart other hother hkey c hin hc
  · change (updateMovedStream s.streams info _).filter (fun other ↦ decide (other.key ∉ keys)) = _
    rw [filter_updateMovedStream (p := fun key ↦ decide (key ∉ keys))
      (decide_eq_false (not_not.2 ((hkeys _).2 (.inl rfl)))),
      h.filter_streams (p := fun key ↦ decide (key ∉ keys))]
    exact fun key hkey ↦ (hold (of_decide_eq_true hkey)).2
  · rcases (hkeys key).1 hkey with rfl | hmoved
    · exact ⟨own, hownMem, hownKey, hownMovable⟩
    · exact h.moved key hmoved
  · obtain ⟨old, hmem, rfl⟩ := mem_map.1 hother
    by_cases hsame : old.key = info.key
    · rw [if_pos hsame]
      exact (h.landed_of_free ((coalesceRuns_single _ _).trans (if_neg hpos.ne'))
        (hle.trans (min_le_right _ _)) hfree).mono hbmLength hgrows
    · rw [if_neg hsame] at hkey ⊢
      exact (h.landed old hmem (((hkeys _).1 hkey).resolve_left hsame)).mono hbmLength hgrows

/-- **A placement keeps the invariant.** -/
theorem PlacementInv.afterPlacement
    (hinfo : info ∈ streams₀) (hpending : info.key ∈ s.pending) {move : ExtentMove}
    (haction : placementAction s.disk s.layout info = .ok (.move candidate move))
    (hmove : moveExtent s.disk s.layout candidate move = .ok result) (phase : DefragPhase) :
    PlacementInv disk₀ layout₀ streams₀ { s.moved info move result phase with
      pending := s.pending.filter (· ≠ info.key), movedKeys := s.movedKeys.insert info.key } := by
  obtain ⟨hsupported, hunmoved⟩ := (h.pending info hinfo).1 hpending
  obtain ⟨hload, -, destination, hfind, rfl⟩ := placementAction_eq_move haction
  have hruns := (hscan info hinfo).runs_of_load
    ((h.loadCandidate_eq hinfo hsupported.1 hunmoved).symm.trans hload)
  refine (h.afterMove hscan hconsistent hopen hload hfind hmove (fun run hrun lcn hlcn ↦ ?_)
    (fun other hother hkey ↦ ?_) ⟨info, hinfo, rfl, hsupported.1⟩ (fun key ↦ mem_insert_iff)
    (filter_subset_self _) (fun other hother ↦ ?_) phase).2
  · exact ((hscan info hinfo).below run (hruns ▸ hrun) lcn hlcn).trans h.covers
  · rw [hruns]
    exact hconsistent.apart hinfo hother fun heq ↦ hkey (mem_insert_iff.2 (.inl (heq ▸ rfl)))
  · rw [mem_filter, mem_insert_iff, h.pending other hother, decide_eq_true_iff, not_or]
    exact ⟨fun ⟨⟨hs, hk⟩, hne⟩ ↦ ⟨hs, hne, hk⟩, fun ⟨hs, hne, hk⟩ ↦ ⟨⟨hs, hk⟩, hne⟩⟩

end

/-! ### Steps -/

omit h hscan hconsistent in
/-- A stream with a fragment has a cluster. -/
theorem exists_cluster {runs : List Run} (h : 0 < physicalFragmentCount runs) :
    ∃ c, c ∈ runClusters runs := by
  obtain ⟨run, hrun, hstored, hlen⟩ := exists_stored h
  obtain ⟨lcn, hlcn⟩ := Option.ne_none_iff_exists'.1 hstored
  exact ⟨lcn, mem_runClusters.2 ⟨run, hrun, lcn, hlcn, le_rfl, by omega⟩⟩

/-- **A step of a quiet run keeps both invariants.** -/
theorem PlacementInv.step (hphase : PhaseInv streams₀ s)
    (hopen : openVolume disk₀ path = .ok layout₀.volume) (hstep : DefragStep s s')
    (hpass : ∀ pass, s'.phase = .placementPass pass → pass ≤ maxPasses ∨ s'.pending = [])
    (hsettle : ∀ pass queue moved, s'.phase = .settling pass queue moved →
      moved = 0 ∨ s'.pending = [] ∧ AsPlanned s)
    (hagain : ∀ pass, s'.phase = .settlingPass pass → pass ≤ maxPasses ∨ s'.movedKeys = []) :
    PlacementInv disk₀ layout₀ streams₀ s' ∧ PhaseInv streams₀ s' := by
  cases hstep with
  | beginPlacement hat hlimit hpending hcurrent =>
    obtain ⟨hmem, hapart⟩ := h.pass hconsistent hcurrent
    exact ⟨h.phase _, fun info hinfo ↦ (hmem info).1 hinfo, hapart,
      fun _ info hinfo hkey ↦ .inl ((hmem info).2 ⟨hinfo, hkey⟩)⟩
  | endPlacement hat hend =>
    rw [PhaseInv, hat] at hphase
    have hnone : s.pending = [] := by
      rcases hend with hlimit | hnone
      · exact hphase.resolve_left (not_le.2 hlimit)
      · exact hnone
    refine ⟨h.phase _, hagain 1 rfl, fun info _ hkey ↦ ?_⟩
    change info.key ∈ s.pending at hkey
    rw [hnone] at hkey
    cases hkey
  | @placeContiguous pass passMoved info queue hat haction =>
    -- a stream that waits was fragmented when it was scanned, and its record is the same
    rw [PhaseInv, hat] at hphase
    obtain ⟨hinfo, hpending⟩ := hphase.1 info mem_cons_self
    obtain ⟨⟨hmovable, hfragments⟩, hunmoved⟩ := (h.pending info hinfo).1 hpending
    obtain ⟨loaded, hload, hcontiguous⟩ := placementAction_eq_contiguous haction
    rw [h.loadCandidate_eq hinfo hmovable hunmoved] at hload
    rw [(hscan info hinfo).runs_of_load hload] at hcontiguous
    exact absurd hcontiguous (not_le.2 hfragments)
  | @placeNoRun pass passMoved info queue hat haction =>
    rw [PhaseInv, hat] at hphase
    obtain ⟨hqueue, hapart, hchecked⟩ := hphase
    refine ⟨h.phase _, fun other hother ↦ hqueue other (mem_cons_of_mem _ hother),
      hapart.of_cons, fun hzero other hother hkey ↦ ?_⟩
    rcases hchecked hzero other hother hkey with hin | hnoRoom
    · rcases mem_cons.1 hin with rfl | hlater
      · obtain ⟨loaded, hload, hfind⟩ := placementAction_eq_noRun haction
        refine .inr fun candidate hcandidate ↦ ?_
        obtain rfl := ok.inj (hload.symm.trans hcandidate)
        exact hfind
      · exact .inl hlater
    · exact .inr hnoRoom
  | @placeMove pass passMoved info queue candidate move result hat haction hmove =>
    rw [PhaseInv, hat] at hphase
    obtain ⟨hqueue, hapart, -⟩ := hphase
    obtain ⟨hinfo, hpending⟩ := hqueue info mem_cons_self
    refine ⟨h.afterPlacement hscan hconsistent hopen hinfo hpending haction hmove _,
      fun other hother ↦ ?_, hapart.of_cons, fun hzero ↦ absurd hzero (Nat.succ_ne_zero _)⟩
    obtain ⟨hmem, hkey⟩ := hqueue other (mem_cons_of_mem _ hother)
    refine ⟨hmem, mem_filter.2 ⟨hkey, decide_eq_true fun heq ↦ ?_⟩⟩
    -- a second entry with the key would share the clusters
    obtain ⟨⟨-, hfragments⟩, -⟩ := (h.pending info hinfo).1 hpending
    obtain ⟨c, hc⟩ := exists_cluster (show 0 < physicalFragmentCount info.runs by omega)
    refine rel_of_pairwise_cons hapart hother c hc ?_
    rwa [((hscan other hmem).eq_of_key (hscan info hinfo) heq).1]
  | @nextPlacement pass passMoved hat =>
    rw [PhaseInv, hat] at hphase
    obtain ⟨-, -, hchecked⟩ := hphase
    refine ⟨h.phase _, ?_⟩
    by_cases hzero : passMoved = 0
    · rw [PhaseInv]
      simp only [if_pos hzero]
      refine ⟨hagain 1 (if_pos hzero), fun info hinfo hkey ↦ ?_⟩
      exact (hchecked hzero info hinfo hkey).resolve_left not_mem_nil
    · rw [PhaseInv]
      simp only [if_neg hzero]
      exact hpass (pass + 1) (if_neg hzero)
  | @beginSettling pass current hat hlimit hmoved hcurrent =>
    rw [PhaseInv, hat] at hphase
    refine ⟨h.phase _, hphase.2, fun info hinfo ↦ ?_, fun _ info hinfo hkey ↦ .inl ?_⟩
    · obtain ⟨hmem, hkey⟩ := mem_filter.1 (hcurrent.1.mem_iff.1 hinfo)
      exact ⟨of_decide_eq_true hkey, h.landed info hmem (of_decide_eq_true hkey)⟩
    · exact hcurrent.1.mem_iff.2 (mem_filter.2 ⟨hinfo, decide_eq_true hkey⟩)
  | @endSettling pass hat hend =>
    rw [PhaseInv, hat] at hphase
    obtain ⟨hlimit, hnoRoom⟩ := hphase
    have hnone : s.movedKeys = [] := hend.elim (fun hlt ↦ hlimit.resolve_left (not_le.2 hlt)) id
    refine ⟨h.phase _, hnoRoom, fun info _ hkey ↦ ?_⟩
    change info.key ∈ s.movedKeys at hkey
    rw [hnone] at hkey
    cases hkey
  | @settleNoRun pass passMoved info queue hat haction =>
    rw [PhaseInv, hat] at hphase
    obtain ⟨hnoRoom, hqueue, hsettled⟩ := hphase
    refine ⟨h.phase _, hnoRoom, fun other hother ↦ hqueue other (mem_cons_of_mem _ hother),
      fun hzero other hother hkey ↦ ?_⟩
    rcases hsettled hzero other hother hkey with hin | hcontiguous
    · rcases mem_cons.1 hin with rfl | hlater
      · obtain ⟨loaded, hload, hone⟩ := settlingAction_eq_noRun haction
        refine .inr fun candidate hcandidate ↦ ?_
        obtain rfl := ok.inj (hload.symm.trans hcandidate)
        exact hone.le
      · exact .inl hlater
    · exact .inr hcontiguous
  | @settleMove pass passMoved info queue candidate move result hat haction hmove =>
    -- nothing waits, and the clusters that become free are those of the plan
    obtain ⟨hnone, hplanned⟩ := (hsettle _ _ _ rfl).resolve_left (Nat.succ_ne_zero _)
    change s.pending = [] at hnone
    rw [PhaseInv, hat] at hphase
    obtain ⟨-, hqueue, -⟩ := hphase
    obtain ⟨hkey, hinside, hapart⟩ := hqueue info mem_cons_self
    obtain ⟨hload, -, destination, hfind, rfl⟩ := settlingAction_eq_move haction
    have hruns : candidate.attr.runs = info.runs := hplanned info (by rw [hat]; rfl) _ hload
    obtain ⟨hlength, hinv⟩ := h.afterMove hscan hconsistent hopen hload hfind hmove
      (hruns ▸ hinside) (hruns ▸ hapart) (h.moved _ hkey)
      (fun key ↦ (or_iff_right_of_imp fun heq ↦ heq ▸ hkey).symm) (List.Subset.refl _) h.pending
      (.settling pass queue (passMoved + 1))
    refine ⟨hinv, fun other _ hwaits ↦ ?_, fun other hother ↦ ?_,
      fun hzero ↦ absurd hzero (Nat.succ_ne_zero _)⟩
    · change other.key ∈ s.pending at hwaits
      rw [hnone] at hwaits
      cases hwaits
    · obtain ⟨hmoved, hlanded⟩ := hqueue other (mem_cons_of_mem _ hother)
      exact ⟨hmoved, hlanded.mono hlength (List.Subset.refl _)⟩
  | @nextSettling pass passMoved hat =>
    rw [PhaseInv, hat] at hphase
    obtain ⟨hnoRoom, -, hsettled⟩ := hphase
    refine ⟨h.phase _, ?_⟩
    by_cases hzero : passMoved = 0
    · rw [PhaseInv]
      simp only [if_pos hzero]
      exact ⟨hnoRoom, fun info hinfo hkey ↦
        (hsettled hzero info hinfo hkey).resolve_left not_mem_nil⟩
    · rw [PhaseInv]
      simp only [if_neg hzero]
      exact ⟨hagain (pass + 1) (if_neg hzero), hnoRoom⟩

end Move

section

variable (hscan : openAndScan casefold disk₀ path = .ok (layout₀, streams₀))
include hscan

/-- The invariants at the start. -/
theorem placementInv_start
    (hconsistent : Consistent layout₀ streams₀) (h : defragStart casefold disk₀ path = .ok s) :
    PlacementInv disk₀ layout₀ streams₀ s ∧ PhaseInv streams₀ s := by
  obtain ⟨-, hcovers, hstreams⟩ := openAndScan_scan hscan
  rw [defragStart, hscan, ok_bind] at h
  obtain rfl := ok.inj h
  refine ⟨⟨rfl, hcovers, rfl, fun _ _ _ _ _ _ ↦ rfl, fun info hinfo _ ↦
    hconsistent.marked info hinfo,
    rfl, fun key hkey ↦ absurd hkey not_mem_nil, fun key hkey ↦ ?_, fun info hinfo ↦ ?_,
    fun _ _ hkey ↦ absurd hkey not_mem_nil⟩, .inl (by decide)⟩
  · obtain ⟨info, hinfo, rfl⟩ := mem_map.1 hkey
    exact ⟨info, mem_of_mem_filter hinfo, rfl⟩
  · refine ⟨fun hkey ↦ ⟨?_, not_mem_nil⟩, fun hinfo' ↦ ?_⟩
    · obtain ⟨other, hother, hkey⟩ := mem_map.1 hkey
      obtain ⟨hmem, hsupported⟩ := mem_filter.1 hother
      obtain ⟨hruns, hmovable⟩ := (hstreams other hmem).eq_of_key (hstreams info hinfo) hkey
      rw [StreamInfo.Supported, ← hruns, ← hmovable]
      exact of_decide_eq_true hsupported
    · exact mem_map_of_mem (mem_filter.2 ⟨hinfo, decide_eq_true hinfo'.1⟩)

/-- **The states of a quiet run** keep both invariants. -/
theorem QuietReachable.inv
    (hconsistent : Consistent layout₀ streams₀) (h : QuietReachable casefold disk₀ path s) :
    PlacementInv disk₀ layout₀ streams₀ s ∧ PhaseInv streams₀ s := by
  obtain ⟨hopen, -, hstreams⟩ := openAndScan_scan hscan
  induction h with
  | start h => exact placementInv_start hscan hconsistent h
  | step _ h hpass hsettle hagain ih =>
    exact ih.1.step hstreams hconsistent ih.2 hopen h hpass hsettle hagain

end

end Run

/-- **`defragment` leaves only streams that cannot be placed**, on a consistent volume and in a run
whose passes end by themselves and whose settling passes move nothing while a stream waits. -/
theorem defragment_unplaceable (casefold : List ℕ → List ℕ) (disk : NtfsDisk) (path : String)
    (layout : NtfsLayout) (streams : List StreamInfo)
    (hscan : openAndScan casefold disk path = .ok (layout, streams))
    (hconsistent : Consistent layout streams) (s : DefragState)
    (hs : QuietReachable casefold disk path s) (hfinished : s.phase = .finished) :
    OnlyUnplaceable s := by
  obtain ⟨hinv, hphase⟩ := hs.inv hscan hconsistent
  obtain ⟨-, -, hstreams⟩ := openAndScan_scan hscan
  rw [PhaseInv, hfinished] at hphase
  obtain ⟨hnoRoom, hsettled⟩ := hphase
  intro info hinfo hmovable candidate hload hfragments a n hfree hle
  have hunmoved : info.key ∉ s.movedKeys := fun hmoved ↦
    absurd (hsettled info hinfo hmoved candidate hload) (not_le.2 hfragments)
  -- the stream is as it was scanned, so it was wanted from the start
  have hmem : info ∈ streams := by
    have hkept : info ∈ s.streams.filter fun info ↦ info.key ∉ s.movedKeys :=
      mem_filter.2 ⟨hinfo, decide_eq_true hunmoved⟩
    rw [hinv.streams] at hkept
    exact mem_of_mem_filter hkept
  have hload₀ := hload
  rw [hinv.loadCandidate_eq hmem hmovable hunmoved] at hload₀
  have hruns := (hstreams info hmem).runs_of_load hload₀
  have hpending : info.key ∈ s.pending :=
    (hinv.pending info hmem).2 ⟨⟨hmovable, hruns ▸ hfragments⟩, hunmoved⟩
  have hnone := hnoRoom info hmem hpending candidate hload
  have hpos := physicalClusters_pos (show 0 < physicalFragmentCount candidate.attr.runs by omega)
  have htotal : 0 < layout.volume.totalClusters := by
    obtain ⟨run, hrun, hstored, hlen⟩ := exists_stored (show 0 < physicalFragmentCount info.runs by
      rw [← hruns]; omega)
    obtain ⟨lcn, hlcn⟩ := Option.ne_none_iff_exists'.1 hstored
    have := (hstreams info hmem).below run hrun lcn hlcn
    omega
  -- a free run of that length would have been found
  by_contra hlong
  have hcovers := hinv.covers
  have hvolume : s.layout.volume = layout.volume := by rw [hinv.layout_eq]
  rw [hvolume] at hle hnone
  have hinside : a + physicalClusters candidate.attr.runs ≤
      min (max 1 (layout.volume.totalClusters - 1)) (s.layout.bitmap.length * 8) := by omega
  obtain ⟨start, hstart⟩ := findFreeRun_isSome hpos hinside (hfree.mono le_rfl (by omega))
  rw [hnone] at hstart
  cases hstart

/-! ### A volume with two fragmented files

The clusters and records of the small volume, with `$MFTMirr`, `$LogFile`, `$Bitmap` and `$Boot` as
streams. One file has four clusters in two fragments, the other one has two. -/

/-- The sectors of the volume that are not empty. -/
def pairSectors (bitmap : List UInt8) : List (ℕ × (ℕ → UInt8)) :=
  [(0, bootSector), (2, fun k ↦ bitmap.getD k 0),
    (4, recordSector 136 (smallStream 26 13312 [0x11, 26, 4, 0, 0, 0, 0, 0])),
    (5, recordSector 136 (smallStream 4 2048 [0x11, 4, 30, 0, 0, 0, 0, 0])),
    (6, recordSector 136 (smallStream 20 10240 [0x11, 20, 44, 0, 0, 0, 0, 0])),
    (7, recordSector 104 smallVolumeInformation),
    (10, recordSector 136 (smallStream 2 8 [0x11, 2, 2, 0, 0, 0, 0, 0])),
    (11, recordSector 136 (smallStream 2 1024 [0x11, 2, 0, 0, 0, 0, 0, 0])),
    (28, recordSector 136 (smallStream 4 2048 [0x11, 2, 36, 0x11, 2, 6, 0, 0])),
    (29, recordSector 136 (smallStream 2 1024 [0x11, 1, 35, 0x11, 1, 6, 0, 0])),
    (33, recordSector 104 smallVolumeInformation)]

/-- The volume, given its bitmap. -/
def pairVolume (bitmap : List UInt8) : NtfsDisk where
  size := 64 * 512
  image a := ((pairSectors bitmap).lookup (a / 512)).elim 0 (· (a % 512))
  journal := none
  log := []

/-- The layout of the volume. -/
def pairLayout (bitmap : List UInt8) : NtfsLayout :=
  ⟨smallBoot, [⟨some 4, 26⟩], 13312, [⟨some 2, 2⟩], 8, bitmap⟩

/-- The file with four clusters. -/
def longFile : StreamInfo := ⟨24, 56, [⟨some 36, 2⟩, ⟨some 42, 2⟩], true, 384⟩

/-- The file with two clusters, wherever it is. -/
def shortFile (runs : List Run) : StreamInfo := ⟨25, 56, runs, true, 384⟩

/-- The streams of the volume, with the short file somewhere. -/
def pairStreams (runs : List Run) : List StreamInfo :=
  [⟨0, 56, [⟨some 4, 26⟩], false, 0⟩, ⟨1, 56, [⟨some 30, 4⟩], false, 0⟩,
    ⟨2, 56, [⟨some 44, 20⟩], false, 0⟩, ⟨6, 56, [⟨some 2, 2⟩], false, 0⟩,
    ⟨7, 56, [⟨some 0, 2⟩], false, 0⟩, longFile, shortFile runs]

/-- Where the short file is at first. -/
def shortRuns : List Run := [⟨some 35, 1⟩, ⟨some 41, 1⟩]

/-- What `openAndScan` reads on the volume. -/
abbrev ScansPair (bitmap : List UInt8) : Prop :=
  openVolume (pairVolume bitmap) "/dev/sdx1" = .ok smallBoot ∧
  readLayout (pairVolume bitmap) smallBoot false true = .ok (pairLayout bitmap) ∧
  (List.range 26).foldlM (scanRecordAt asciiFold (pairVolume bitmap) (pairLayout bitmap))
    ⟨[], false⟩ = .ok ⟨pairStreams shortRuns, false⟩

theorem openAndScan_pair (h : ScansPair bitmap) :
    openAndScan asciiFold (pairVolume bitmap) "/dev/sdx1" =
      .ok (pairLayout bitmap, pairStreams shortRuns) :=
  openAndScan_of_records rfl h.1 h.2.1 rfl rfl rfl rfl (by decide)
    (show (4 + 26) * 512 ≤ 64 * 512 by decide) h.2.2

theorem consistent_pair
    (hmarked : ∀ info ∈ pairStreams shortRuns, ∀ c ∈ runClusters info.runs, bit bitmap c = true) :
    Consistent (pairLayout bitmap) (pairStreams shortRuns) := by
  refine ⟨hmarked, by decide, ⟨_, .head _, rfl, rfl⟩,
    ⟨⟨6, 56, [⟨some 2, 2⟩], false, 0⟩, by decide, rfl,
    rfl⟩, ⟨⟨1, 56, [⟨some 30, 4⟩], false, 0⟩, by decide, rfl, fun a ha ↦ ?_⟩⟩
  obtain ⟨hlow, hhigh⟩ := ha
  change 30 * 512 + 3 * 512 ≤ a at hlow
  change a < 30 * 512 + 3 * 512 + 512 at hhigh
  exact mem_runClusters_single.2 (show 30 ≤ a / 512 ∧ a / 512 < 30 + 4 by omega)

/-- The free clusters are 34 and 38 to 40. -/
def gappedBitmap : List UInt8 := [0xFF, 0xFF, 0xFF, 0xFF, 0x3B, 0xFE, 0xFF, 0xFF]

/-- The bitmap after the short file was placed at cluster 38. -/
def placedBitmap : List UInt8 := [0xFF, 0xFF, 0xFF, 0xFF, 0xF3, 0xFC, 0xFF, 0xFF]

/-- The bitmap after it has settled at cluster 34. -/
def settledBitmap : List UInt8 := [0xFF, 0xFF, 0xFF, 0xFF, 0x3F, 0xFC, 0xFF, 0xFF]

/-- The short file has settled. -/
def hasSettled (r : NtfsDisk × NtfsLayout) : Bool :=
  decide (r.2 = pairLayout settledBitmap) &&
    decide (settlingAction r.1 (pairLayout settledBitmap) (shortFile [⟨some 34, 2⟩]) = .ok .noRun)

/-- The short file was placed, and it will settle. -/
def settlesNext (r : NtfsDisk × NtfsLayout) : Bool :=
  decide (r.2 = pairLayout placedBitmap) &&
    (settlingAction r.1 (pairLayout placedBitmap) (shortFile [⟨some 38, 2⟩])).toOption.any fun
      | .move c m => decide (m = ⟨[⟨some 38, 2⟩], [⟨some 34, 2⟩], [⟨some 34, 2⟩]⟩) &&
        (moveExtent r.1 (pairLayout placedBitmap) c m).toOption.any hasSettled
      | _ => false

/-- What happens to the files, by evaluation. -/
theorem gapped_evaluated : ScansPair gappedBitmap ∧
    (placementAction (pairVolume gappedBitmap) (pairLayout gappedBitmap)
      (shortFile shortRuns)).toOption.any (fun
        | .move c m => decide (m = ⟨shortRuns, [⟨some 38, 2⟩], [⟨some 38, 2⟩]⟩) &&
          (moveExtent (pairVolume gappedBitmap) (pairLayout gappedBitmap) c m).toOption.any
            settlesNext
        | _ => false) = true ∧
    (loadCandidate (pairVolume gappedBitmap) (pairLayout gappedBitmap) longFile).toOption.any
      (fun c ↦ decide (c.attr.runs = longFile.runs)) = true := by
  refine ⟨⟨?_, ?_, ?_⟩, ?_, ?_⟩ <;> decide +kernel

theorem openAndScan_gapped : openAndScan asciiFold (pairVolume gappedBitmap) "/dev/sdx1" =
      .ok (pairLayout gappedBitmap, pairStreams shortRuns) :=
  openAndScan_pair gapped_evaluated.1

/-- The long file waits as long as it is in two fragments and no free run has four clusters. -/
theorem long_waits {candidate : Candidate}
    (hload : loadCandidate disk (pairLayout bitmap) longFile = .ok candidate)
    (hruns : candidate.attr.runs = longFile.runs) (hfind : findFreeRun bitmap 4 63 = none) :
    placementAction disk (pairLayout bitmap) longFile = .ok .noRun := by
  have hclusters : physicalClusters longFile.runs = 4 := by decide
  have hbitmap : (pairLayout bitmap).bitmap = bitmap := rfl
  have htotal : max 1 ((pairLayout bitmap).volume.totalClusters - 1) = 63 := rfl
  rw [placementAction, hload, ok_bind, hruns, if_neg (by decide), moveBelow, hruns,
    hclusters, hbitmap,
    htotal, hfind]
  rfl

/-- A state of `defragment` on the volume. -/
def pairState (disk : NtfsDisk) (bitmap : List UInt8) (runs : List Run)
    (pending moved : List (ℕ × ℕ))
    (phase : DefragPhase) : DefragState :=
  ⟨disk, pairLayout bitmap, pairStreams runs, pending, moved, phase⟩

/-- Neither file was moved. -/
def unmovedState (bitmap : List UInt8) : DefragPhase → DefragState :=
  pairState (pairVolume bitmap) bitmap shortRuns [(24, 56), (25, 56)] []

/-- The short file was moved to `start`, the long one waits. -/
def movedState (disk : NtfsDisk) (bitmap : List UInt8) (start : ℕ) : DefragPhase → DefragState :=
  pairState disk bitmap [⟨some start, 2⟩] [(24, 56)] [(25, 56)]

theorem isPass_both :
    IsPass (pairStreams shortRuns) [(24, 56), (25, 56)] [longFile, shortFile shortRuns] :=
  ⟨.refl _, pairwise_pair.2 (.inl (by decide))⟩

theorem isPass_long (runs : List Run) : IsPass (pairStreams runs) [(24, 56)] [longFile] :=
  ⟨.refl _, pairwise_singleton _ _⟩

theorem isPass_short (runs : List Run) : IsPass (pairStreams runs) [(25, 56)] [shortFile runs] :=
  ⟨.refl _, pairwise_singleton _ _⟩

/-- The first pass looks at the long file first. -/
theorem pair_begins (hscan : openAndScan asciiFold (pairVolume bitmap) "/dev/sdx1" =
      .ok (pairLayout bitmap, pairStreams shortRuns)) :
    QuietReachable asciiFold (pairVolume bitmap) "/dev/sdx1"
      (unmovedState bitmap (.placement 1 [longFile, shortFile shortRuns] 0)) := by
  have hstart : defragStart asciiFold (pairVolume bitmap) "/dev/sdx1" =
      .ok (unmovedState bitmap (.placementPass 1)) := by
    rw [defragStart, hscan, ok_bind]
    rfl
  exact .placement (.start hstart) (.beginPlacement rfl (by decide) (cons_ne_nil _ _) isPass_both)
    rfl

/-- After the short file has been placed and the long one has no room, the short one settles. -/
theorem pair_ends {disk₁ disk₂ : NtfsDisk} {c : Candidate} {m : ExtentMove}
    (hs : DefragReachable asciiFold disk "/dev/sdx1"
      (movedState disk₁ placedBitmap 38 (.placement 1 [] 1)))
    (hwaits : placementAction disk₁ (pairLayout placedBitmap) longFile = .ok .noRun)
    (hsettles : settlingAction disk₁ (pairLayout placedBitmap) (shortFile [⟨some 38, 2⟩]) =
      .ok (.move c m)) (hm : m = ⟨[⟨some 38, 2⟩], [⟨some 34, 2⟩], [⟨some 34, 2⟩]⟩)
    (hmove : moveExtent disk₁ (pairLayout placedBitmap) c m = .ok (disk₂, pairLayout settledBitmap))
    (hsettled : settlingAction disk₂ (pairLayout settledBitmap) (shortFile [⟨some 34, 2⟩]) =
      .ok .noRun) :
    DefragReachable asciiFold disk "/dev/sdx1"
      (movedState disk₂ settledBitmap 34 .finished) := by
  subst hm
  have hpass : DefragReachable asciiFold disk "/dev/sdx1"
      (movedState disk₁ placedBitmap 38 (.placementPass 2)) :=
    .step hs (@DefragStep.nextPlacement _ 1 1 rfl)
  have hplacement : DefragReachable asciiFold disk "/dev/sdx1"
      (movedState disk₁ placedBitmap 38 (.placement 2 [longFile] 0)) :=
    .step hpass (.beginPlacement rfl (by decide) (cons_ne_nil _ _) (isPass_long _))
  have hwaited : DefragReachable asciiFold disk "/dev/sdx1"
      (movedState disk₁ placedBitmap 38 (.placement 2 [] 0)) :=
    .step hplacement (.placeNoRun rfl hwaits)
  have hpass₁ : DefragReachable asciiFold disk "/dev/sdx1"
      (movedState disk₁ placedBitmap 38 (.settlingPass 1)) :=
    .step hwaited (@DefragStep.nextPlacement _ 2 0 rfl)
  have hsettling₁ : DefragReachable asciiFold disk "/dev/sdx1"
      (movedState disk₁ placedBitmap 38 (.settling 1 [shortFile [⟨some 38, 2⟩]] 0)) :=
    .step hpass₁ (.beginSettling rfl (by decide) (cons_ne_nil _ _) (isPass_short _))
  have hstep := @DefragStep.settleMove
    (movedState disk₁ placedBitmap 38 (.settling 1 [shortFile [⟨some 38, 2⟩]] 0)) _ _ _ _ _ _ _ rfl
    hsettles hmove
  have hmoved : DefragReachable asciiFold disk "/dev/sdx1"
      (movedState disk₂ settledBitmap 34 (.settling 1 [] 1)) :=
    .step hsettling₁ hstep
  have hpass₂ : DefragReachable asciiFold disk "/dev/sdx1"
      (movedState disk₂ settledBitmap 34 (.settlingPass 2)) :=
    .step hmoved (@DefragStep.nextSettling _ 1 1 rfl)
  have hsettling₂ : DefragReachable asciiFold disk "/dev/sdx1"
      (movedState disk₂ settledBitmap 34 (.settling 2 [shortFile [⟨some 34, 2⟩]] 0)) :=
    .step hpass₂ (.beginSettling rfl (by decide) (cons_ne_nil _ _) (isPass_short _))
  have hended : DefragReachable asciiFold disk "/dev/sdx1"
      (movedState disk₂ settledBitmap 34 (.settling 2 [] 0)) :=
    .step hsettling₂ (.settleNoRun rfl hsettled)
  exact .step hended (@DefragStep.nextSettling _ 2 0 rfl)

/-- **Room is left for a fragmented stream.** The short file goes to cluster 38, since there is no
free run for the long one. It settles at cluster 34, and now clusters 38 to 41 are free, but the
placement passes are over: the long file stays in two fragments. -/
theorem defragment_leaves_room : ∃ layout streams s,
    openAndScan asciiFold (pairVolume gappedBitmap) "/dev/sdx1" = .ok (layout, streams) ∧
      Consistent layout streams ∧
      DefragReachable asciiFold (pairVolume gappedBitmap) "/dev/sdx1" s ∧
      s.phase = .finished ∧ ¬OnlyUnplaceable s := by
  have hconsistent := consistent_pair (show ∀ info ∈ pairStreams shortRuns,
    ∀ c ∈ runClusters info.runs, bit gappedBitmap c = true by decide)
  obtain ⟨hopen, -, hstreams⟩ := openAndScan_scan openAndScan_gapped
  -- what was evaluated
  obtain ⟨long, hlong, hlongRuns⟩ := exists_ok_of_any gapped_evaluated.2.2
  rw [decide_eq_true_iff] at hlongRuns
  obtain ⟨action, haction, hplaced⟩ := exists_ok_of_any gapped_evaluated.2.1
  cases action with
  | contiguous | noRun => cases hplaced
  | move c m =>
  rw [Bool.and_eq_true, decide_eq_true_iff] at hplaced
  obtain ⟨rfl, hplaced⟩ := hplaced
  obtain ⟨⟨disk₁, layout₁⟩, hmove₁, hplaced⟩ := exists_ok_of_any hplaced
  rw [settlesNext, Bool.and_eq_true, decide_eq_true_iff] at hplaced
  obtain ⟨rfl, hplaced⟩ := hplaced
  obtain ⟨action', haction', hsettled⟩ := exists_ok_of_any hplaced
  cases action' with
  | contiguous | noRun => cases hsettled
  | move c' m' =>
  rw [Bool.and_eq_true, decide_eq_true_iff] at hsettled
  obtain ⟨hm', hsettled⟩ := hsettled
  obtain ⟨⟨disk₂, layout₂⟩, hmove₂, hsettled⟩ := exists_ok_of_any hsettled
  rw [hasSettled, Bool.and_eq_true, decide_eq_true_iff, decide_eq_true_iff] at hsettled
  obtain ⟨rfl, hend⟩ := hsettled
  -- the first pass
  have hwaits := long_waits hlong hlongRuns (by decide)
  have hstep := @DefragStep.placeMove (unmovedState gappedBitmap
    (.placement 1 [shortFile shortRuns] 0)) _ _ _ _ _ _ _ rfl haction hmove₁
  have hs : QuietReachable asciiFold (pairVolume gappedBitmap) "/dev/sdx1"
      (movedState disk₁ placedBitmap 38 (.placement 1 [] 1)) :=
    .placement (.placement (pair_begins openAndScan_gapped) (.placeNoRun rfl hwaits) rfl) hstep rfl
  -- the record of the long file is never written
  have hinv := (hs.inv openAndScan_gapped hconsistent).1
  have hmem : longFile ∈ pairStreams shortRuns := by decide
  have hlong₁ : loadCandidate disk₁ (pairLayout placedBitmap) longFile = .ok long :=
    (hinv.loadCandidate_eq hmem rfl (show (24, 56) ∉ [(25, 56)] by decide)).trans hlong
  obtain ⟨hload', -, destination, hfind, hwhole⟩ := settlingAction_eq_move haction'
  have hmove₂' := hmove₂
  rw [hwhole] at hmove₂'
  obtain ⟨hsize, himage⟩ := hinv.image_kept hstreams hconsistent hopen hload'
    (findFreeRun_eq_some hfind).2.2 hmove₂'
  have hlong₂ : loadCandidate disk₂ (pairLayout settledBitmap) longFile = .ok long :=
    (loadCandidate_congr rfl rfl rfl hsize
      (himage longFile.recordNumber (by decide) (by decide))).trans hlong₁
  refine ⟨_, _, _, openAndScan_gapped, hconsistent, pair_ends hs.reachable
    (long_waits hlong₁ hlongRuns (by decide)) haction' hm' hmove₂ hend, rfl, fun hunplaceable ↦ ?_⟩
  have hfree : FreeRange settledBitmap 38 (38 + 4) := by
    intro c hlow hhigh
    interval_cases c <;> rfl
  have hless :=
    hunplaceable longFile (show longFile ∈ pairStreams [⟨some 34, 2⟩] by decide) rfl long
    hlong₂ (by rw [hlongRuns]; decide) 38 4 hfree (show 38 + 4 ≤ max 1 (64 - 1) by decide)
  rw [hlongRuns] at hless
  exact absurd hless (by decide)

/-- No two free clusters follow each other. -/
def crampedBitmap : List UInt8 := [0xFF, 0xFF, 0xFF, 0xFF, 0xBB, 0xFE, 0xFF, 0xFF]

theorem cramped_evaluated : ScansPair crampedBitmap ∧
    placementAction (pairVolume crampedBitmap) (pairLayout crampedBitmap) longFile = .ok .noRun ∧
    placementAction (pairVolume crampedBitmap) (pairLayout crampedBitmap) (shortFile shortRuns) =
      .ok .noRun := by
  refine ⟨⟨?_, ?_, ?_⟩, ?_, ?_⟩ <;> decide +kernel

/-- With free clusters here and there only, both files stay as they are, and rightly so. -/
theorem defragment_unplaceable_cramped : ∃ s,
    QuietReachable asciiFold (pairVolume crampedBitmap) "/dev/sdx1" s ∧ s.phase = .finished ∧
      s.streams = pairStreams shortRuns ∧ OnlyUnplaceable s := by
  have hconsistent := consistent_pair (show ∀ info ∈ pairStreams shortRuns,
    ∀ c ∈ runClusters info.runs, bit crampedBitmap c = true by decide)
  obtain ⟨hscans, hlong, hshort⟩ := cramped_evaluated
  have hopen := openAndScan_pair hscans
  have hwaits : QuietReachable asciiFold (pairVolume crampedBitmap) "/dev/sdx1"
      (unmovedState crampedBitmap (.placement 1 [shortFile shortRuns] 0)) :=
    .placement (pair_begins hopen) (.placeNoRun rfl hlong) rfl
  have hwaited : QuietReachable asciiFold (pairVolume crampedBitmap) "/dev/sdx1"
      (unmovedState crampedBitmap (.placement 1 [] 0)) :=
    .placement hwaits (.placeNoRun rfl hshort) rfl
  have hpass : QuietReachable asciiFold (pairVolume crampedBitmap) "/dev/sdx1"
      (unmovedState crampedBitmap (.settlingPass 1)) :=
    .step hwaited (@DefragStep.nextPlacement _ 1 0 rfl) (fun _ h ↦ by cases h)
      (fun _ _ _ h ↦ by cases h) fun _ _ ↦ .inr rfl
  have hended : QuietReachable asciiFold (pairVolume crampedBitmap) "/dev/sdx1"
      (unmovedState crampedBitmap .finished) :=
    .step hpass (@DefragStep.endSettling _ 1 rfl (.inr rfl)) (fun _ h ↦ by cases h)
      (fun _ _ _ h ↦ by cases h) fun _ h ↦ by cases h
  exact ⟨_, hended, rfl, rfl, defragment_unplaceable asciiFold _ _ _ _ hopen
    hconsistent _ hended rfl⟩

end LinuxDefragger.Ntfs
