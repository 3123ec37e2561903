import LinuxDefragger.Fat.Scan
import LinuxDefragger.Storage.Copy

/-!
# The buffered copy of clusters

`copy_cluster_mapping_buffered` copies clusters to clusters through a buffer of limited size. For
each chunk it turns the source and destination clusters into extents, has a number of threads read
the source extents, and writes the destination extents.

A thread takes the next extent from the queue under a lock and reads it; how many of them are at
work and in which order they end is left open (`ReadsTo`). So is the order in which `qsort` leaves
extents. A run of the copy is therefore a relation, `CopyRun`.
-/

open List Storage

namespace LinuxDefragger.Fat

/-! ### Extents -/

/-- `IoExtent` -/
structure IoExtent where
  diskOffset : ℕ
  bufferOffset : ℕ
  length : ℕ

/-- `SIZE_MAX` -/
def sizeMax : ℕ := 2 ^ 64 - 1

/-- The extent of `n` clusters from `start` on, the first of which has the index `first`. -/
def clusterExtent (fs : Fat32) (first start n : ℕ) : Except Halt IoExtent := do
  dieIf (n > sizeMax / fs.clusterSize) "I/O extent is too large for this build"
  return ⟨← fs.clusterOffset start, first * fs.clusterSize, n * fs.clusterSize⟩

/-- The loop of `build_cluster_extents`, with an extent of `n` clusters under way. -/
def extentsFrom (fs : Fat32) (first start previous n : ℕ) : List ℕ → Except Halt (List IoExtent)
  | [] => return [← clusterExtent fs first start n]
  | cluster :: clusters =>
    if cluster ≠ (previous + 1) % 2 ^ 32 then do
      let extent ← clusterExtent fs first start n
      return extent :: (← extentsFrom fs (first + n) cluster cluster 1 clusters)
    else extentsFrom fs first start cluster (n + 1) clusters

/-- `build_cluster_extents` -/
def buildClusterExtents (fs : Fat32) : List ℕ → Except Halt (List IoExtent)
  | [] => pure []
  | cluster :: clusters => extentsFrom fs 0 cluster cluster 1 clusters

/-- The byte pairs of disk and buffer that extents stand for. -/
def extentPairs (extents : List IoExtent) : List (ℕ × ℕ) :=
  extents.flatMap fun e ↦
    (List.range' e.diskOffset e.length).zip (List.range' e.bufferOffset e.length)

theorem mem_extentPairs {extents : List IoExtent} {p : ℕ × ℕ} : p ∈ extentPairs extents ↔
    ∃ e ∈ extents, ∃ i < e.length, p = (e.diskOffset + i, e.bufferOffset + i) := by
  simp only [extentPairs, mem_flatMap, mem_zip_range']

section Extents

variable {fs : Fat32} (hfs : fs.Layout)
include hfs

omit hfs in
/-- Clusters that follow each other are one range of the disk. -/
theorem blockAddrs_clusters {start n : ℕ} (h₂ : 2 ≤ start) :
    blockAddrs fs.clusterStart fs.clusterSize (range' start n) =
      range' (fs.clusterStart start) (n * fs.clusterSize) := by
  refine blockAddrs_range' fun k _ ↦ ?_
  rw [Fat32.clusterStart, Fat32.clusterStart, Nat.add_assoc, ← Nat.add_mul, Nat.sub_add_comm h₂]

theorem clusterExtent_eq_ok (first : ℕ) {start n : ℕ} (hn : 0 < n) (h₂ : 2 ≤ start)
    (hmax : start + n ≤ fs.maxCluster + 1) :
    clusterExtent fs first start n =
      .ok ⟨fs.clusterStart start, first * fs.clusterSize, n * fs.clusterSize⟩ := by
  have hsize : n * fs.clusterSize ≤ sizeMax := by
    have hcount := Nat.mul_le_mul_right fs.clusterSize
      (show n ≤ fs.clusterCount by have := hfs.maxCluster; omega)
    have hsectors := Nat.mul_le_mul (Nat.le_of_lt hfs.totalSectors_lt)
      (show fs.bytesPerSector ≤ 4096 by have := hfs.bytesPerSector; omega)
    have := hfs.data_le_total
    rw [sizeMax]
    omega
  rw [clusterExtent, dieIf_bind_of_not (by
    rwa [gt_iff_lt, not_lt, Nat.le_div_iff_mul_le hfs.clusterSize_pos]),
    Fat32.Layout.clusterOffset_eq_ok h₂ (by omega)]
  rfl

theorem extentsFrom_pairs {first start previous n : ℕ} {clusters : List ℕ} (hn : 0 < n)
    (hprevious : previous + 1 = start + n)
    (hmem : ∀ c ∈ range' start n ++ clusters, 2 ≤ c ∧ c ≤ fs.maxCluster) :
    ∃ extents, extentsFrom fs first start previous n clusters = .ok extents ∧ extentPairs extents =
        (blockAddrs fs.clusterStart fs.clusterSize (range' start n ++ clusters)).zip
          (range' (first * fs.clusterSize) ((n + clusters.length) * fs.clusterSize)) := by
  induction clusters generalizing first start previous n with
  | nil =>
    have hfirst := hmem start (mem_append_left _ (mem_range'_1.2 ⟨le_rfl, by omega⟩))
    have hlast := hmem previous (mem_append_left _ (mem_range'_1.2 ⟨by omega, by omega⟩))
    refine ⟨_, by rw [extentsFrom, clusterExtent_eq_ok hfs first hn hfirst.1 (by omega)]; rfl, ?_⟩
    rw [append_nil, blockAddrs_clusters hfirst.1]
    exact append_nil _
  | cons c clusters ih =>
    have hfirst := hmem start (mem_append_left _ (mem_range'_1.2 ⟨le_rfl, by omega⟩))
    have hlast := hmem previous (mem_append_left _ (mem_range'_1.2 ⟨by omega, by omega⟩))
    have hc := hmem c (mem_append_right _ mem_cons_self)
    rw [extentsFrom]
    split_ifs with hnext
    · -- the extent ends before `c`
      obtain ⟨extents, hextents, hpairs⟩ := @ih (first + n) c c 1 Nat.one_pos rfl fun d hd ↦
        hmem d (mem_append_right _ hd)
      refine ⟨_, by
        rw [clusterExtent_eq_ok hfs first hn hfirst.1 (by omega), ok_bind, hextents]
        rfl, ?_⟩
      rw [blockAddrs_append, blockAddrs_clusters hfirst.1, length_cons, Nat.add_mul,
        ← range'_append_1, zip_append (by rw [length_range', length_range']),
        extentPairs, flatMap_cons, ← extentPairs, hpairs, Nat.add_mul first, Nat.add_comm 1]
      rfl
    · -- a cluster number is far from where the addition wraps
      have hwrap : c = start + n := by
        have := hfs.maxCluster_lt
        have := hfs.fatEntryCount
        omega
      subst hwrap
      obtain ⟨extents, hextents, hpairs⟩ := @ih first start (start + n) (n + 1) (Nat.succ_pos n) rfl
        fun d hd ↦ hmem d (by
          rwa [range'_1_concat, append_assoc] at hd)
      refine ⟨extents, hextents, ?_⟩
      rw [hpairs, range'_1_concat, append_assoc, length_cons, Nat.add_assoc, Nat.add_comm 1]
      rfl

/-- **The extents of clusters pair their bytes with those of the buffer, in order.** -/
theorem buildClusterExtents_pairs {clusters : List ℕ}
    (hmem : ∀ c ∈ clusters, 2 ≤ c ∧ c ≤ fs.maxCluster) :
    ∃ extents, buildClusterExtents fs clusters = .ok extents ∧
      extentPairs extents = (blockAddrs fs.clusterStart fs.clusterSize clusters).zip
        (range' 0 (clusters.length * fs.clusterSize)) := by
  rcases clusters with _ | ⟨c, clusters⟩
  · exact ⟨[], rfl, rfl⟩
  · obtain ⟨extents, hextents, hpairs⟩ :=
      @extentsFrom_pairs fs hfs 0 c c 1 clusters Nat.one_pos rfl hmem
    refine ⟨extents, hextents, ?_⟩
    rw [hpairs, Nat.zero_mul, Nat.add_comm 1]
    rfl

end Extents

/-! ### The reading threads -/

/-- What the threads of `read_extents` do: the extents left in the queue, the extents that threads
are reading, and the buffer before and after. A thread takes the next extent under the lock. Reads
end in any order, and one past the end of the device makes the engine die. -/
inductive ReadsTo (workers : ℕ) (dev : Device) :
    List IoExtent → List IoExtent → Image → Image → Prop
  | done {buffer : Image} : ReadsTo workers dev [] [] buffer buffer
  | take {extent : IoExtent} {queue busy : List IoExtent} {buffer buffer' : Image}
      (hidle : busy.length < workers)
      (h : ReadsTo workers dev queue (extent :: busy) buffer buffer') :
      ReadsTo workers dev (extent :: queue) busy buffer buffer'
  | read {extent : IoExtent} {queue before after : List IoExtent} {buffer buffer' : Image}
      (hdev : ∀ i < extent.length, extent.diskOffset + i < dev.sizeBytes)
      (h : ReadsTo workers dev queue (before ++ after) (buffer.write extent.bufferOffset
        (dev.image.read extent.diskOffset extent.length)) buffer') :
      ReadsTo workers dev queue (before ++ extent :: after) buffer buffer'

section Threads

variable {workers : ℕ} {dev : Device} {queue busy : List IoExtent} {buffer buffer' : Image}

theorem extentPairs_perm {extents extents' : List IoExtent} (h : extents.Perm extents') :
    (extentPairs extents).Perm (extentPairs extents') :=
  h.flatMap_right _

/-- **Every schedule reads every extent.** -/
theorem ReadsTo.copied (h : ReadsTo workers dev queue busy buffer buffer')
    (hnodup : ((extentPairs (queue ++ busy)).map Prod.snd).Nodup) :
    Copied (extentPairs (queue ++ busy)) dev.image buffer buffer' := by
  induction h with
  | done => exact .nil _ _
  | @take extent queue busy _ _ _ _ ih =>
    have hperm :
        (extentPairs (queue ++ extent :: busy)).Perm (extentPairs (extent :: queue ++ busy)) :=
      extentPairs_perm perm_middle
    exact (ih ((hperm.map _).nodup_iff.2 hnodup)).congr fun _ ↦ hperm.mem_iff
  | @read extent queue before after buffer _ _ _ ih =>
    have hperm : (extentPairs (queue ++ (before ++ extent :: after))).Perm
        (extentPairs (extent :: (queue ++ (before ++ after)))) :=
      extentPairs_perm ((perm_middle.append_left queue).trans perm_middle)
    rw [(hperm.map _).nodup_iff, extentPairs, flatMap_cons, map_append] at hnodup
    obtain ⟨-, hrest, hapart⟩ := nodup_append'.1 hnodup
    have hwrite := Copied.write dev.image buffer extent.diskOffset extent.bufferOffset extent.length
    refine (hwrite.append (ih hrest) (fun _ _ ↦ rfl) fun p hp q hq heq ↦ ?_).congr
      fun _ ↦ hperm.symm.mem_iff
    exact hapart (mem_map_of_mem hp) (mem_map.2 ⟨q, hq, heq.symm⟩)

/-- One thread can read extents that are on the device. -/
theorem exists_readsTo (hworkers : 0 < workers) (buffer : Image)
    (hdev : ∀ p ∈ extentPairs queue, p.1 < dev.sizeBytes) :
    ∃ buffer', ReadsTo workers dev queue [] buffer buffer' := by
  induction queue generalizing buffer with
  | nil => exact ⟨buffer, .done⟩
  | cons extent queue ih =>
    obtain ⟨buffer', hrest⟩ := ih (buffer.write extent.bufferOffset
      (dev.image.read extent.diskOffset extent.length))
      fun p hp ↦ hdev p (mem_append_right _ hp)
    have hread : ReadsTo workers dev queue [extent] buffer buffer' :=
      @ReadsTo.read workers dev extent queue [] [] buffer buffer' (fun i hi ↦ hdev (_, _)
        (mem_extentPairs.2 ⟨extent, mem_cons_self, i, hi, rfl⟩)) hrest
    exact ⟨buffer', .take hworkers hread⟩

end Threads

/-! ### Runs of the copy -/

/-- What `qsort` by disk offset may leave of extents. -/
def SortedExtents (extents order : List IoExtent) : Prop :=
  order.Perm extents ∧ order.Pairwise fun a b ↦ a.diskOffset ≤ b.diskOffset

/-- `write_extents`, after the sort. -/
def writeExtents (dev : Device) (buffer : Image) (order : List IoExtent) : Device :=
  order.foldl (fun dev e ↦ dev.fullPwrite (buffer.read e.bufferOffset e.length) e.diskOffset) dev

/-- The number of threads of `read_extents`. -/
def threadCount (workers extents : ℕ) : ℕ := max 1 (min workers extents)

/-- The loop of `copy_cluster_mapping_buffered`, from a device and a buffer to a device. -/
inductive CopyRun (fs : Fat32) (workers perChunk : ℕ) :
    List ℕ → List ℕ → Image → Device → Device → Prop
  | done {buffer : Image} {dev : Device} : CopyRun fs workers perChunk [] [] buffer dev dev
  | chunk {sources destinations : List ℕ} {buffer buffer' : Image} {dev dev' : Device}
      {sourceExtents destinationExtents sourceOrder destinationOrder : List IoExtent}
      (hne : sources ≠ [])
      (hsource : buildClusterExtents fs (sources.take perChunk) = .ok sourceExtents)
      (hdestination :
        buildClusterExtents fs (destinations.take perChunk) = .ok destinationExtents)
      (hreadOrder : SortedExtents sourceExtents sourceOrder)
      (hread : ReadsTo (threadCount workers sourceExtents.length) dev sourceOrder [] buffer buffer')
      (hwriteOrder : SortedExtents destinationExtents destinationOrder)
      (hrest : CopyRun fs workers perChunk (sources.drop perChunk) (destinations.drop perChunk)
        buffer' (writeExtents dev buffer' destinationOrder) dev') :
      CopyRun fs workers perChunk sources destinations buffer dev dev'

/-- `clusters_per_chunk` -/
def clustersPerChunk (fs : Fat32) (ramLimit count : ℕ) : ℕ :=
  min (max 1 (ramLimit / fs.clusterSize)) count

/-- The runs of `copy_cluster_mapping_buffered` that do not die. What the buffer holds at first is
whatever was in that memory. -/
def CopyMapping (fs : Fat32) (ramLimit workers : ℕ) (sources destinations : List ℕ)
    (dev' : Device) : Prop :=
  clustersPerChunk fs ramLimit sources.length ≤ sizeMax / fs.clusterSize ∧
    ∃ buffer, CopyRun fs workers (clustersPerChunk fs ramLimit sources.length) sources destinations
      buffer fs.dev dev'

/-- What the callers hand to the copy: clusters of the volume, as many destinations as sources, no
destination twice, and none of them a source. -/
structure ClusterMapping (fs : Fat32) (sources destinations : List ℕ) : Prop where
  length_eq : sources.length = destinations.length
  source : ∀ c ∈ sources, 2 ≤ c ∧ c ≤ fs.maxCluster
  destination : ∀ c ∈ destinations, 2 ≤ c ∧ c ≤ fs.maxCluster
  nodup : destinations.Nodup
  disjoint : sources.Disjoint destinations

section Runs

variable {fs : Fat32} {workers perChunk : ℕ} {sources destinations : List ℕ} {buffer : Image}
  {dev dev' : Device}

theorem exists_sortedExtents (extents : List IoExtent) : ∃ order, SortedExtents extents order := by
  let le : IoExtent → IoExtent → Bool := fun a b ↦ decide (a.diskOffset ≤ b.diskOffset)
  refine ⟨extents.mergeSort le, mergeSort_perm _ _, ?_⟩
  have htrans (a b c) (hab : le a b = true) (hbc : le b c = true) : le a c = true :=
    decide_eq_true ((of_decide_eq_true hab).trans (of_decide_eq_true hbc))
  have htotal (a b) : (le a b || le b a) = true := by
    simpa [le] using Nat.le_total a.diskOffset b.diskOffset
  exact (pairwise_mergeSort htrans htotal extents).imp fun h ↦ of_decide_eq_true h

theorem writeExtents_sizeBytes (order : List IoExtent) :
    (writeExtents dev buffer order).sizeBytes = dev.sizeBytes := by
  induction order generalizing dev with
  | nil => rfl
  | cons e order ih => exact ih

/-- Writing extents that do not overlap on the disk. -/
theorem writeExtents_copied {order : List IoExtent}
    (hnodup : ((extentPairs order).map Prod.fst).Nodup) :
    Copied ((extentPairs order).map Prod.swap) buffer dev.image
      (writeExtents dev buffer order).image := by
  induction order generalizing dev with
  | nil => exact .nil _ _
  | cons e order ih =>
    rw [extentPairs, flatMap_cons, map_append] at hnodup ⊢
    obtain ⟨-, hnodup', hapart⟩ := nodup_append'.1 hnodup
    have hwrite := Copied.write buffer dev.image e.bufferOffset e.diskOffset e.length
    rw [← zip_swap] at hwrite
    have hrest := @ih (dev.fullPwrite (buffer.read e.bufferOffset e.length) e.diskOffset) hnodup'
    refine hwrite.append hrest (fun _ _ ↦ rfl) fun p hp q hq heq ↦ ?_
    obtain ⟨p', hp', rfl⟩ := mem_map.1 hp
    obtain ⟨q', hq', rfl⟩ := mem_map.1 hq
    exact hapart (mem_map_of_mem hp') (mem_map.2 ⟨q', hq', heq.symm⟩)

theorem threadCount_pos (workers extents : ℕ) : 0 < threadCount workers extents :=
  lt_of_lt_of_le Nat.one_pos (le_max_left ..)

theorem Fat32.blocksApart (fs : Fat32) :
    BlocksApart fs.clusterStart fs.clusterSize {c | 2 ≤ c} := by
  intro x hx y hy a hax hay
  have hindex {c : ℕ} (hc : 2 ≤ c) (ha : a ∈ range' (fs.clusterStart c) fs.clusterSize) :
      (a - fs.dataOffset) / fs.clusterSize = c - 2 := by
    obtain ⟨hlow, hhigh⟩ := mem_range'_1.1 ha
    rw [Fat32.clusterStart] at hlow hhigh
    exact Nat.div_eq_of_lt_le (by omega) (by rw [Nat.succ_mul]; omega)
  have hxy := (hindex hx hax).symm.trans (hindex hy hay)
  have hx : 2 ≤ x := hx
  have hy : 2 ≤ y := hy
  omega

theorem ClusterMapping.take (h : ClusterMapping fs sources destinations) (n : ℕ) :
    ClusterMapping fs (sources.take n) (destinations.take n) :=
  ⟨by simp [h.length_eq], fun c hc ↦ h.source c (mem_of_mem_take hc),
    fun c hc ↦ h.destination c (mem_of_mem_take hc), h.nodup.sublist (take_sublist ..),
    fun _ hc hc' ↦ h.disjoint (mem_of_mem_take hc) (mem_of_mem_take hc')⟩

theorem ClusterMapping.drop (h : ClusterMapping fs sources destinations) (n : ℕ) :
    ClusterMapping fs (sources.drop n) (destinations.drop n) :=
  ⟨by simp [h.length_eq], fun c hc ↦ h.source c (mem_of_mem_drop hc),
    fun c hc ↦ h.destination c (mem_of_mem_drop hc), h.nodup.sublist (drop_sublist ..),
    fun _ hc hc' ↦ h.disjoint (mem_of_mem_drop hc) (mem_of_mem_drop hc')⟩

variable (hfs : fs.Layout)
include hfs

/-- Clusters are on the device. -/
theorem Fat32.Layout.lt_sizeBytes {c a : ℕ} (hc : 2 ≤ c ∧ c ≤ fs.maxCluster)
    (ha : a ∈ range' (fs.clusterStart c) fs.clusterSize) : a < fs.dev.sizeBytes := by
  obtain ⟨-, hhigh⟩ := mem_range'_1.1 ha
  rw [Fat32.clusterStart] at hhigh
  have hmax := hfs.maxCluster
  have hdata := hfs.data_le
  have hle := Nat.mul_le_mul_right fs.clusterSize (show c - 2 + 1 ≤ fs.clusterCount by omega)
  rw [Nat.succ_mul] at hle
  omega

/-- **One chunk.** -/
theorem chunk_copied {sourceExtents destinationExtents sourceOrder destinationOrder : List IoExtent}
    {buffer' : Image} {threads : ℕ} (h : ClusterMapping fs sources destinations)
    (hsource : buildClusterExtents fs sources = .ok sourceExtents)
    (hdestination : buildClusterExtents fs destinations = .ok destinationExtents)
    (hreadOrder : SortedExtents sourceExtents sourceOrder)
    (hread : ReadsTo threads dev sourceOrder [] buffer buffer')
    (hwriteOrder : SortedExtents destinationExtents destinationOrder) :
    Copied ((blockAddrs fs.clusterStart fs.clusterSize sources).zip
        (blockAddrs fs.clusterStart fs.clusterSize destinations))
      dev.image dev.image (writeExtents dev buffer' destinationOrder).image := by
  obtain ⟨_, hbuild, hpairs⟩ := buildClusterExtents_pairs hfs h.source
  obtain rfl := Except.ok.inj (hsource.symm.trans hbuild)
  obtain ⟨_, hbuild', hpairs'⟩ := buildClusterExtents_pairs hfs h.destination
  obtain rfl := Except.ok.inj (hdestination.symm.trans hbuild')
  have hlen (l : List ℕ) : (blockAddrs fs.clusterStart fs.clusterSize l).length =
      (range' 0 (l.length * fs.clusterSize)).length := by
    rw [length_blockAddrs, length_range']
  have hloaded : Copied (extentPairs sourceOrder) dev.image buffer buffer' := by
    have hcopied := hread.copied
    rw [append_nil] at hcopied
    refine hcopied (((extentPairs_perm hreadOrder.1).map _).nodup_iff.2 ?_)
    rw [hpairs, map_snd_zip (hlen sources).ge]
    exact nodup_range'
  refine Copied.through (fun p hp ↦ hloaded.copied p ?_) ?_ (by simp [h.length_eq])
    (hlen destinations).symm
  · rwa [(extentPairs_perm hreadOrder.1).mem_iff, hpairs, h.length_eq]
  refine (writeExtents_copied ?_).congr fun p ↦ ?_
  · rw [((extentPairs_perm hwriteOrder.1).map _).nodup_iff, hpairs',
      map_fst_zip (hlen destinations).le]
    exact fs.blocksApart.nodup (fun c hc ↦ (h.destination c hc).1) h.nodup
  · rw [← zip_swap, mem_map, mem_map, ← hpairs']
    simp only [(extentPairs_perm hwriteOrder.1).mem_iff]

/-- **What a run has done**, of which every chunk finds its sources as they were at first. -/
theorem CopyRun.copied (h : ClusterMapping fs sources destinations)
    (hrun : CopyRun fs workers perChunk sources destinations buffer dev dev') :
    Copied ((blockAddrs fs.clusterStart fs.clusterSize sources).zip
        (blockAddrs fs.clusterStart fs.clusterSize destinations)) dev.image dev.image
          dev'.image := by
  induction hrun with
  | done => exact .nil _ _
  | @chunk sources destinations _ _ _ _ _ _ _ _ _ hsource hdestination hreadOrder hread
      hwriteOrder _ ih =>
    have hchunk := chunk_copied hfs (h.take perChunk) hsource hdestination
      hreadOrder hread hwriteOrder
    have hrest := ih (h.drop perChunk)
    rw [← take_append_drop perChunk sources, ← take_append_drop perChunk destinations,
      blockAddrs_append, blockAddrs_append, zip_append (by simp [h.length_eq])]
    refine hchunk.append_self hrest (fun p hp q hq heq ↦ ?_) (fun p hp q hq heq ↦ ?_)
    · refine fs.blocksApart.disjoint (fun c hc ↦ ((h.drop perChunk).source c hc).1)
        (fun c hc ↦ ((h.take perChunk).destination c hc).1)
        (fun c hc hc' ↦ h.disjoint (mem_of_mem_drop hc) (mem_of_mem_take hc'))
        (of_mem_zip hq).1 (heq ▸ (of_mem_zip hp).2)
    · refine fs.blocksApart.disjoint (fun c hc ↦ ((h.take perChunk).destination c hc).1)
        (fun c hc ↦ ((h.drop perChunk).destination c hc).1)
        (disjoint_take_drop h.nodup le_rfl) (of_mem_zip hp).2
        (heq ▸ (of_mem_zip hq).2)

/-- A run exists, whatever the buffer holds. -/
theorem exists_copyRun (workers : ℕ) (hchunk : 0 < perChunk) (buffer : Image)
    (hdev : dev.sizeBytes = fs.dev.sizeBytes) (h : ClusterMapping fs sources destinations) :
    ∃ dev', CopyRun fs workers perChunk sources destinations buffer dev dev' := by
  induction hn : sources.length using Nat.strong_induction_on
    generalizing sources destinations buffer dev with
  | _ n ih =>
    by_cases hne : sources = []
    · subst hne
      obtain rfl := length_eq_zero_iff.1 h.length_eq.symm
      exact ⟨dev, .done⟩
    · obtain ⟨sourceExtents, hsource, hpairs⟩ :=
        buildClusterExtents_pairs hfs (h.take perChunk).source
      obtain ⟨destinationExtents, hdestination, -⟩ :=
        buildClusterExtents_pairs hfs (h.take perChunk).destination
      obtain ⟨sourceOrder, hreadOrder⟩ := exists_sortedExtents sourceExtents
      obtain ⟨destinationOrder, hwriteOrder⟩ := exists_sortedExtents destinationExtents
      obtain ⟨buffer', hread⟩ :=
        exists_readsTo (threadCount_pos workers sourceExtents.length) buffer
        fun p hp ↦ by
          rw [(extentPairs_perm hreadOrder.1).mem_iff, hpairs] at hp
          obtain ⟨c, hc, ha⟩ := mem_flatMap.1 (of_mem_zip hp).1
          exact hdev ▸ hfs.lt_sizeBytes (h.source c (mem_of_mem_take hc)) ha
      have hpos := length_pos_of_ne_nil hne
      obtain ⟨dev', hrest⟩ := @ih (n - perChunk) (by omega) (sources.drop perChunk)
        (destinations.drop perChunk) (writeExtents dev buffer' destinationOrder) buffer'
        ((writeExtents_sizeBytes _).trans hdev) (h.drop perChunk) (by simp [hn])
      exact ⟨dev', .chunk hne hsource hdestination hreadOrder hread hwriteOrder hrest⟩

theorem clustersPerChunk_le {ramLimit : ℕ} (hram : ramLimit ≤ sizeMax)
    (hsources : ∀ c ∈ sources, 2 ≤ c ∧ c ≤ fs.maxCluster) :
    clustersPerChunk fs ramLimit sources.length ≤ sizeMax / fs.clusterSize := by
  rcases sources with _ | ⟨c, sources⟩
  · exact (min_le_right ..).trans (Nat.zero_le _)
  · refine (min_le_left ..).trans (max_le ?_ (Nat.div_le_div_right hram))
    obtain ⟨h₂, hmax⟩ := hsources c mem_cons_self
    obtain ⟨hle, -⟩ :=
      dieIf_bind_eq_ok.1 (clusterExtent_eq_ok hfs 0 Nat.one_pos h₂ (Nat.add_le_add_right hmax 1))
    omega

/-- **The buffered copy is a simultaneous assignment.** Whatever the size of the buffer, the number
of threads, their schedule and the order of equal extents: a run exists, and every run leaves each
destination with what its source held before the copy, and everything else as it was. -/
theorem copy_mapping_exact {ramLimit : ℕ} (hram : ramLimit ≤ sizeMax)
    (h : ClusterMapping fs sources destinations) :
    (∃ dev', CopyMapping fs ramLimit workers sources destinations dev') ∧
      ∀ dev', CopyMapping fs ramLimit workers sources destinations dev' →
        (∀ p ∈ sources.zip destinations,
          dev'.image.read (fs.clusterStart p.2) fs.clusterSize =
            fs.dev.image.read (fs.clusterStart p.1) fs.clusterSize) ∧
        ∀ a, (∀ d ∈ destinations, a ∉ List.range' (fs.clusterStart d) fs.clusterSize) →
          dev'.image a = fs.dev.image a := by
  have hperChunk := clustersPerChunk_le hfs hram h.source
  constructor
  · rcases Nat.eq_zero_or_pos sources.length with hzero | hpos
    · obtain rfl := length_eq_zero_iff.1 hzero
      obtain rfl := length_eq_zero_iff.1 h.length_eq.symm
      exact ⟨fs.dev, hperChunk, fun _ ↦ 0, .done⟩
    · obtain ⟨dev', hrun⟩ := exists_copyRun hfs workers
        (lt_min (lt_of_lt_of_le Nat.one_pos (le_max_left ..)) hpos) (fun _ ↦ 0) rfl h
      exact ⟨dev', hperChunk, _, hrun⟩
  · rintro dev' ⟨-, buffer, hrun⟩
    have hcopied := hrun.copied hfs h
    refine ⟨fun p hp ↦ hcopied.read_eq hp, fun a ha ↦ hcopied.kept a fun p hp hpa ↦ ?_⟩
    obtain ⟨d, hd, hin⟩ := mem_flatMap.1 (of_mem_zip hp).2
    exact ha d hd (hpa ▸ hin)

end Runs

/-- Three clusters, one of them to two places, with a buffer of two clusters and four threads. -/
theorem copy_mapping_twoClusterDevice : ∃ dev',
    CopyMapping (floppyVolume twoClusterDevice) 1024 4 [2, 3, 2] [7, 6, 5] dev' ∧
      dev'.image.read ((floppyVolume twoClusterDevice).clusterStart 5) 512 =
        twoClusterDevice.image.read ((floppyVolume twoClusterDevice).clusterStart 2) 512 := by
  obtain ⟨⟨dev', hrun⟩, hall⟩ := @copy_mapping_exact (floppyVolume twoClusterDevice) 4 [2, 3, 2]
    [7, 6, 5] (fat32Load_loaded fat32Load_twoClusterDevice).1.toLayout 1024 (by decide)
    ⟨rfl, by simp only [forall_mem_cons]; decide, by simp only [forall_mem_cons]; decide,
      by decide, disjoint_left.2 (by decide)⟩
  exact ⟨dev', hrun, (hall dev' hrun).1 (2, 5) (by decide)⟩

end LinuxDefragger.Fat
