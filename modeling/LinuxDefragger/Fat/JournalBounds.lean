import LinuxDefragger.Fat.Scan

/-!
# Table accesses of the transaction planner

`make_compact_journal` works with tables of `max_cluster + 1` entries: the predecessors, the map of
the moves and the marks of referenced first clusters. `journalChecked` is the function with every
access to them checked, and `journalChecked_eq` says that most of these checks cannot fail. What can
fail is the look-up of a reference's target: the scan validates the cluster of an entry that becomes
an object, but not that of a dot entry or of an entry without a name.
-/

open List Storage

namespace LinuxDefragger.Fat

/-! ### The planner with checked accesses -/

/-- `table[i]` for a table of `max_cluster + 1` entries. -/
def Fat32.tableAt {α : Type} (fs : Fat32) (array : String) (table : ℕ → α) (i : ℕ) :
    Except Halt α :=
  if i ≤ fs.maxCluster then pure (table i) else throw (.outOfBounds array)

/-- One round of `build_predecessor_table`. -/
def predStep (fs : Fat32) (pred : ℕ → ℕ) (c : ℕ) : Except Halt (ℕ → ℕ) := do
  let next ← fs.fatValue c
  if fs.fatValueIsCluster next then
    let old ← fs.tableAt "pred" pred next
    dieIf (old ≠ 0) "multiple FAT predecessors detected while building compaction map"
    return Function.update pred next c
  else return pred

/-- `build_predecessor_table` -/
def buildPredecessorTable (fs : Fat32) : Except Halt (ℕ → ℕ) :=
  (List.range' 2 (fs.maxCluster - 1)).foldlM (predStep fs) fun _ ↦ 0

/-- The first loop of `make_compact_journal` for one move. -/
def linkMoveChecked (fs : Fat32) (pred : ℕ → ℕ) (m : CompactMove) : Except Halt CompactMove := do
  let next ← fs.fatValue m.source
  let predecessor ← fs.tableAt "pred" pred m.source
  return { m with next, predecessor }

/-- One round of the first loop of `compact_build_map`. -/
def mapStepChecked (fs : Fat32) (acc : (ℕ → ℕ) × (ℕ → Bool)) (m : CompactMove) :
    Except Halt ((ℕ → ℕ) × (ℕ → Bool)) := do
  dieIf (m.source < 2 ∨ m.source > fs.maxCluster ∨ m.destination < 2 ∨
    m.destination > fs.maxCluster ∨ m.destination = m.source)
    "compact journal contains an invalid source/destination pair"
  let old ← fs.tableAt "map" acc.1 m.source
  let seen ← fs.tableAt "dest_seen" acc.2 m.destination
  dieIf (old ≠ 0 ∨ seen) "compact journal contains duplicate source or destination clusters"
  return (Function.update acc.1 m.source m.destination, Function.update acc.2 m.destination true)

/-- `compact_build_map` -/
def buildMapChecked (fs : Fat32) (moves : List CompactMove) : Except Halt (ℕ → ℕ) := do
  let (map, destSeen) ← moves.foldlM (mapStepChecked fs) (fun _ ↦ 0, fun _ ↦ false)
  forM moves fun m ↦ do
    let seen ← fs.tableAt "dest_seen" destSeen m.source
    dieIf seen "compact journal source and destination sets overlap"
  return map

/-- The second loop of `make_compact_journal` for one reference. The patch it adds is also the mark
`first_has_reference[ref->target_cluster] = 1`. -/
def dirPatchChecked (fs : Fat32) (map : ℕ → ℕ) (ref : DirRef) :
    Except Halt (Option CompactDirPatch) := do
  let newTarget ← fs.tableAt "map" map ref.targetCluster
  if newTarget = 0 then return none
  let offset ←
    if fs.inFixedRoot ref.offset then pure ref.offset
    else do
      let container ← dataOffsetToCluster fs ref.offset
      let moved ← fs.tableAt "map" map container
      if moved ≠ 0 then moveOffsetBetweenClusters fs ref.offset container moved
      else pure ref.offset
  let _ ← fs.tableAt "first_has_reference" map ref.targetCluster
  return some ⟨offset, ref.targetCluster, newTarget⟩

/-- `make_compact_journal`, with every access to its tables checked. -/
def journalChecked (fs : Fat32) (dirRefs : List DirRef) (pred : ℕ → ℕ) (moves : List CompactMove) :
    Except Halt CompactJournal := do
  let linked ← moves.mapM (linkMoveChecked fs pred)
  let map ← buildMapChecked fs linked
  let rootTarget ← fs.tableAt "map" map fs.rootCluster
  let patches ← dirRefs.mapM (dirPatchChecked fs map)
  let dirPatches := patches.reduceOption
  forM linked fun m ↦
    if m.predecessor = 0 ∧ m.source ≠ fs.rootCluster then do
      let referenced ← fs.tableAt "first_has_reference"
        (fun c ↦ dirPatches.any fun p ↦ p.oldTarget = c) m.source
      dieIf (!referenced) "first cluster has no directory reference during compaction"
    else pure ()
  return {
    devicePath := fs.dev.path
    volumeId := fs.volumeId
    stage := .prepared
    rootOld := fs.rootCluster
    rootNew := if rootTarget ≠ 0 then rootTarget else fs.rootCluster
    moves := linked
    dirPatches }

/-! ### The checks that cannot fail -/

variable {α : Type} {pred : ℕ → ℕ}

/-- A loop of checks with one message is one check. -/
theorem forM_dieIf {l : List α} {p : α → Bool} {msg : String} {f : α → Except Halt Unit}
    (h : ∀ a ∈ l, f a = dieIf (p a) msg) : forM l f = dieIf (l.any p) msg := by
  induction l with
  | nil => rfl
  | cons a l ih =>
    obtain ⟨ha, hl⟩ := forall_mem_cons.1 h
    rw [forM_cons, ha, ih hl, any_cons]
    cases p a <;> rfl

section

variable {fs : Fat32}

theorem Fat32.tableAt_of_le {array : String} {table : ℕ → α} {i : ℕ} (h : i ≤ fs.maxCluster) :
    fs.tableAt array table i = .ok (table i) := by
  rw [tableAt, if_pos h]
  rfl

theorem Fat32.tableAt_of_lt {array : String} {table : ℕ → α} {i : ℕ} (h : fs.maxCluster < i) :
    fs.tableAt array table i = .error (.outOfBounds array) := by
  rw [tableAt, if_neg (not_le.2 h)]
  rfl

theorem linkMoveChecked_eq (pred : ℕ → ℕ) (m : CompactMove) :
    linkMoveChecked fs pred m = linkMove fs pred m := by
  rw [linkMoveChecked, linkMove]
  refine congrArg _ (funext fun next ↦ ?_)
  dsimp only
  rcases le_or_gt m.source fs.maxCluster with h | h
  · rw [Fat32.tableAt_of_le h, if_neg (not_lt.2 h)]
    rfl
  · rw [Fat32.tableAt_of_lt h, if_pos h]
    rfl

theorem mapStepChecked_eq (acc : (ℕ → ℕ) × (ℕ → Bool)) (m : CompactMove) :
    mapStepChecked fs acc m = mapStep fs acc m := by
  rw [mapStepChecked, mapStep]
  by_cases hbad : m.source < 2 ∨ m.source > fs.maxCluster ∨ m.destination < 2 ∨
    m.destination > fs.maxCluster ∨ m.destination = m.source
  · simp only [dieIf, if_pos hbad]
    rfl
  · rw [dieIf_bind_of_not hbad, dieIf_bind_of_not hbad]
    push Not at hbad
    rw [Fat32.tableAt_of_le hbad.2.1, Fat32.tableAt_of_le hbad.2.2.2.1]
    rfl

theorem buildMapChecked_eq (moves : List CompactMove) :
    buildMapChecked fs moves = compactBuildMap fs moves := by
  have hstep : mapStepChecked fs = mapStep fs := funext₂ mapStepChecked_eq
  rw [buildMapChecked, compactBuildMap, hstep]
  cases hfold : moves.foldlM (mapStep fs) (fun _ ↦ 0, fun _ ↦ false) with
  | error e => rfl
  | ok r =>
    obtain ⟨map, destSeen⟩ := r
    -- the first loop has passed, so the sources are clusters of the volume
    have hall := (foldlM_mapStep_eq_ok.1 hfold).1.1
    rw [ok_bind, ok_bind]
    refine congrArg (· >>= _) (forM_dieIf fun m hm ↦ ?_)
    rw [Fat32.tableAt_of_le (hall m hm).1.2, ok_bind]

theorem dirPatchChecked_eq (h : fs.Layout) (map : ℕ → ℕ) (ref : DirRef) :
    dirPatchChecked fs map ref = dirPatch fs map ref := by
  rw [dirPatchChecked, dirPatch]
  rcases le_or_gt ref.targetCluster fs.maxCluster with hle | hlt
  · rw [Fat32.tableAt_of_le hle, Fat32.tableAt_of_le hle, if_neg (not_lt.2 hle), ok_bind,
      patchOffset]
    split_ifs with hzero hfix
    · rfl
    · rfl
    · cases hcluster : dataOffsetToCluster fs ref.offset with
      | error e => rfl
      | ok container =>
        obtain ⟨-, hcount, rfl⟩ := dataOffsetToCluster_eq_ok.1 hcluster
        rw [ok_bind, ok_bind, Fat32.tableAt_of_le (by rw [h.maxCluster]; omega), ok_bind]
        split_ifs <;> rfl
  · rw [Fat32.tableAt_of_lt hlt, if_pos hlt]
    rfl

theorem Fat32.Layout.rootCluster_le (h : fs.Layout) : fs.rootCluster ≤ fs.maxCluster := by
  have hroot := h.rootCluster
  split_ifs at hroot
  · exact hroot.2
  · rw [hroot]
    exact Nat.zero_le _

/-- **The accesses of `make_compact_journal`**: only the target of a directory reference has to be
checked, besides the sources of the moves. -/
theorem journalChecked_eq (h : fs.Layout) (refs : List DirRef) (pred : ℕ → ℕ)
    (moves : List CompactMove) :
    journalChecked fs refs pred moves = makeCompactJournal fs refs pred moves := by
  have hlink : linkMoveChecked fs pred = linkMove fs pred := funext (linkMoveChecked_eq pred)
  rw [journalChecked, makeCompactJournal, hlink]
  cases hlinked : moves.mapM (linkMove fs pred) with
  | error e => rfl
  | ok linked =>
    rw [ok_bind, ok_bind, buildMapChecked_eq]
    cases hmap : compactBuildMap fs linked with
    | error e => rfl
    | ok map =>
      have hpatch : dirPatchChecked fs map = dirPatch fs map := funext (dirPatchChecked_eq h map)
      have hvalid := (compactBuildMap_eq_ok.1 hmap).1
      rw [ok_bind, ok_bind, Fat32.tableAt_of_le h.rootCluster_le, ok_bind, hpatch]
      refine congrArg _ (funext fun patches ↦ ?_)
      refine congrArg (· >>= _) (forM_dieIf fun m hm ↦ ?_)
      rw [Fat32.tableAt_of_le (hvalid.source m hm).2, ok_bind]
      by_cases hfirst : m.predecessor = 0 ∧ m.source ≠ fs.rootCluster
      · rw [if_pos hfirst]
        simp [hfirst.1, hfirst.2]
      · rw [if_neg hfirst]
        rw [dieIf, if_neg]
        simp only [Bool.and_eq_true, decide_eq_true_eq]
        tauto

end

/-! ### Accesses outside the tables -/

/-- The error of an access outside an array. -/
def Halt.IsOutOfBounds (e : Halt) : Prop :=
  ∃ array, e = .outOfBounds array

/-- The ends of the moves are clusters of the volume. -/
def Fat32.InRange (fs : Fat32) (moves : List CompactMove) : Prop :=
  ∀ m ∈ moves, (2 ≤ m.source ∧ m.source ≤ fs.maxCluster) ∧
    2 ≤ m.destination ∧ m.destination ≤ fs.maxCluster

section

variable {fs : Fat32}

theorem avoids_dieIf {c : Prop} [Decidable c] {msg : String} :
    Avoids Halt.IsOutOfBounds (dieIf c msg) := by
  rw [dieIf]
  split_ifs
  · refine .error ?_
    rintro ⟨_, h⟩
    cases h
  · exact .ok ()

theorem Fat32.avoids_fatValue (c : ℕ) : Avoids Halt.IsOutOfBounds (fs.fatValue c) :=
  avoids_dieIf.bind fun _ _ ↦ .ok _

theorem Fat32.avoids_clusterOffset (c : ℕ) : Avoids Halt.IsOutOfBounds (fs.clusterOffset c) :=
  avoids_dieIf.bind fun _ _ ↦ .ok _

/-- The predecessor table is indexed by links, which are clusters of the volume. -/
theorem buildPredecessorTable_avoids : Avoids Halt.IsOutOfBounds (buildPredecessorTable fs) := by
  refine .foldlM (fun pred c _ ↦ ?_) _
  refine (Fat32.avoids_fatValue c).bind fun next hnext ↦ ?_
  split_ifs with hcluster
  · have hle : next ≤ fs.maxCluster := by
      -- `fat_value` has applied the mask that `fat_value_is_cluster` applies again
      simp only [Fat32.fatValue, dieIf_bind_eq_ok, pure_eq_ok, Except.ok.injEq] at hnext
      obtain ⟨-, rfl⟩ := hnext
      rw [Fat32.fatValueIsCluster, decide_eq_true_eq, Fat32.value, Nat.and_assoc,
        Nat.and_self] at hcluster
      exact hcluster.2
    rw [Fat32.tableAt_of_le hle, ok_bind]
    exact avoids_dieIf.bind fun _ _ ↦ .ok _
  · exact .ok _

theorem linkMove_avoids {m : CompactMove} (h : m.source ≤ fs.maxCluster) :
    Avoids Halt.IsOutOfBounds (linkMove fs pred m) := by
  rw [← linkMoveChecked_eq, linkMoveChecked, Fat32.tableAt_of_le h]
  exact (Fat32.avoids_fatValue _).bind fun _ _ ↦ .ok _

theorem compactBuildMap_avoids (moves : List CompactMove) :
    Avoids Halt.IsOutOfBounds (compactBuildMap fs moves) := by
  refine Avoids.bind (.foldlM (fun acc m _ ↦ ?_) _) fun _ _ ↦ avoids_dieIf.bind fun _ _ ↦ .ok _
  exact avoids_dieIf.bind fun _ _ ↦ avoids_dieIf.bind fun _ _ ↦ .ok _

theorem patchOffset_avoids (map : ℕ → ℕ) (offset : ℕ) :
    Avoids Halt.IsOutOfBounds (patchOffset fs map offset) := by
  rw [patchOffset]
  split_ifs
  · exact .ok _
  · refine Avoids.bind ?_ fun container _ ↦ ?_
    · exact avoids_dieIf.bind fun _ _ ↦ avoids_dieIf.bind fun _ _ ↦ .ok _
    · split_ifs
      · exact (Fat32.avoids_clusterOffset _).bind fun _ _ ↦ avoids_dieIf.bind fun _ _ ↦
          (Fat32.avoids_clusterOffset _).bind fun _ _ ↦ .ok _
      · exact .ok _

theorem dirPatch_avoids {map : ℕ → ℕ} {ref : DirRef} (h : ref.targetCluster ≤ fs.maxCluster) :
    Avoids Halt.IsOutOfBounds (dirPatch fs map ref) := by
  rw [dirPatch, if_neg (not_lt.2 h)]
  split_ifs
  · exact .ok _
  · exact (patchOffset_avoids _ _).bind fun _ _ ↦ .ok _

/-- References inside the volume keep every access inside the tables. -/
theorem makeCompactJournal_avoids {refs : List DirRef} {moves : List CompactMove}
    (hrefs : ∀ ref ∈ refs, ref.targetCluster ≤ fs.maxCluster) (hmoves : fs.InRange moves) :
    Avoids Halt.IsOutOfBounds (makeCompactJournal fs refs pred moves) :=
  (Avoids.mapM fun m hm ↦ linkMove_avoids (hmoves m hm).1.2).bind fun linked _ ↦
    (compactBuildMap_avoids linked).bind fun _ _ ↦
      (Avoids.mapM fun ref href ↦ dirPatch_avoids (hrefs ref href)).bind fun _ _ ↦
        avoids_dieIf.bind fun _ _ ↦ .ok _

/-- A reference outside the volume is looked up even if nothing moves. -/
theorem targets_le_of_avoids {refs : List DirRef}
    (h : Avoids Halt.IsOutOfBounds (makeCompactJournal fs refs pred [])) :
    ∀ ref ∈ refs, ref.targetCluster ≤ fs.maxCluster := by
  have hmap : compactBuildMap fs [] = .ok fun _ ↦ 0 := rfl
  rw [makeCompactJournal, mapM_nil, pure_eq_ok, ok_bind, hmap, ok_bind] at h
  have hround : ∀ ref ∈ refs, (∃ o, dirPatch fs (fun _ ↦ 0) ref = .ok o) ∨
      ∃ e, dirPatch fs (fun _ ↦ 0) ref = .error e ∧ e.IsOutOfBounds := by
    intro ref _
    rw [dirPatch]
    split_ifs with hlt hzero
    · exact .inr ⟨_, rfl, _, rfl⟩
    · exact .inl ⟨_, rfl⟩
    · exact absurd rfl hzero
  intro ref href
  obtain ⟨o, ho⟩ := h.left_of_bind.mapM_ok hround ref href
  exact (dirPatch_eq_ok.1 ho).1

end

/-! ### References of a scanned volume -/

/-- The references of a scan that belong to none of its objects: those of dot entries and of entries
without a name. -/
def ScanState.IsStray (s : ScanState) (ref : DirRef) : Prop :=
  ref ∈ s.dirRefs ∧ ∀ f ∈ s.files, (⟨f.direntOffset, f.firstCluster⟩ : DirRef) ≠ ref

/-- The scan has read the chain of every object, so its reference is a cluster of the volume. -/
theorem Scanned.firstCluster_le {fs : Fat32} (h : fs.Layout) {rootChain : List ℕ} {s : ScanState}
    (hs : Scanned fs rootChain s) {f : FileRecord} (hf : f ∈ s.files) :
    f.firstCluster ≤ fs.maxCluster := by
  have hchain := (fat32ReadChain_eq_ok h).1 (hs.chain f hf)
  split_ifs at hchain with hzero
  · rw [hzero]
    exact Nat.zero_le _
  · obtain ⟨t, ht⟩ := hchain.head
    exact (hchain.range _ (ht ▸ mem_cons_self)).2

/-- **Planning a transaction stays inside its tables just if the stray references do.** For a volume
that is loaded and scanned, no access of `build_predecessor_table` or, for whatever moves between
clusters of the volume, of `make_compact_journal` is outside a table of `max_cluster + 1` entries
just if the entries of the directories that are no objects name clusters of at most
`max_cluster`. -/
theorem journal_in_bounds_iff {fuel : ℕ} {dev : Device} {allow : Bool} {fs : Fat32} {s : ScanState}
    (hload : fat32Load fuel dev allow = .ok fs) (hs : scanFiles fs = .ok s) :
    (Avoids Halt.IsOutOfBounds (buildPredecessorTable fs) ∧
      ∀ pred moves, fs.InRange moves →
        Avoids Halt.IsOutOfBounds (journalChecked fs s.dirRefs pred moves)) ↔
    ∀ ref, s.IsStray ref → ref.targetCluster ≤ fs.maxCluster := by
  have hlayout := (fat32Load_loaded hload).1.toLayout
  obtain ⟨rootChain, -, hscan, -⟩ := scanFiles_scanned hlayout hs
  simp only [journalChecked_eq hlayout]
  constructor
  · rintro ⟨-, h⟩ ref ⟨href, -⟩
    exact targets_le_of_avoids (h (fun _ ↦ 0) [] (by simp [Fat32.InRange])) ref href
  · intro hstray
    refine ⟨buildPredecessorTable_avoids, fun pred moves hmoves ↦ ?_⟩
    refine makeCompactJournal_avoids (fun ref href ↦ ?_) hmoves
    by_cases hobject : ∃ f ∈ s.files, (⟨f.direntOffset, f.firstCluster⟩ : DirRef) = ref
    · obtain ⟨f, hf, rfl⟩ := hobject
      exact hscan.firstCluster_le hlayout hf
    · push Not at hobject
      exact hstray ref ⟨href, hobject⟩

/-- A volume with a file at cluster 2 and a dot entry in its root directory that names cluster
200. -/
def strayDotDevice : Device :=
  floppy [0xF8, 0xFF, 0xFF, 0xFF, 0x0F] (fileEntry 0x41 2 10 ++ fileEntry 0x2E 200 0)

/-- What the scan of that volume returns. -/
def strayDotScan : ScanState :=
  ⟨[⟨[0x41], 1024, 2, 10, 0x20, false, [2]⟩], [⟨1024, 2⟩, ⟨1056, 200⟩], [], [2]⟩

/-- The volume is accepted, and moving the file from cluster 2 to cluster 3 reads the map at 200. -/
theorem strayDotDevice_out_of_bounds :
    fat32Load 2 strayDotDevice false = .ok (floppyVolume strayDotDevice) ∧
      scanFiles (floppyVolume strayDotDevice) = .ok strayDotScan ∧
      (floppyVolume strayDotDevice).maxCluster = 14 ∧
      (floppyVolume strayDotDevice).InRange [⟨2, 3, 0, 0⟩] ∧
      journalChecked (floppyVolume strayDotDevice) strayDotScan.dirRefs (fun _ ↦ 0)
        [⟨2, 3, 0, 0⟩] = .error (.outOfBounds "map") := by
  refine ⟨rfl, by decide +kernel, rfl, ?_, by decide +kernel⟩
  simp only [Fat32.InRange, mem_singleton, forall_eq]
  decide

/-- On a volume without stray references every transaction stays inside the tables. -/
theorem journal_in_bounds_iff_twoClusterDevice :
    (Avoids Halt.IsOutOfBounds (buildPredecessorTable (floppyVolume twoClusterDevice)) ∧
      ∀ pred moves, (floppyVolume twoClusterDevice).InRange moves →
        Avoids Halt.IsOutOfBounds
          (journalChecked (floppyVolume twoClusterDevice) [⟨1024, 2⟩] pred moves)) ↔
    ∀ ref, ScanState.IsStray
      ⟨[⟨[0x41], 1024, 2, 600, 0x20, false, [2, 4]⟩], [⟨1024, 2⟩], [], [2, 4]⟩ ref →
        ref.targetCluster ≤ (floppyVolume twoClusterDevice).maxCluster :=
  journal_in_bounds_iff fat32Load_twoClusterDevice scanFiles_twoClusterDevice

end LinuxDefragger.Fat
