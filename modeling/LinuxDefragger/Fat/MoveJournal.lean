import LinuxDefragger.Fat.Table
import Mathlib.Data.List.ReduceOption

/-!
# Journals of cluster moves

A transaction of the engine is a list of moves, each with the table entry and the predecessor that
its source had at the start, and a list of patches to directory entries. `makeCompactJournal` builds
it from the scanned directory references; everything after it, recovery included, works from the
record alone.
-/

open Except Function List Storage

namespace LinuxDefragger.Fat

/-! ### The records -/

/-- A journal that was not written by the engine can hold any other code. -/
inductive JournalStage
  | prepared
  | dataCopied
  | destLinked
  | switched
  | oldFreed
  | unknown (code : ℕ) (h : 5 ≤ code ∧ code < 2 ^ 32)
  deriving DecidableEq

/-- `CompactMove` -/
structure CompactMove where
  source : ℕ
  destination : ℕ
  /-- Table entry of `source` before the transaction. -/
  next : ℕ
  /-- Cluster whose entry was `source`, or `0`. -/
  predecessor : ℕ
  deriving DecidableEq, Repr

/-- `CompactDirPatch` -/
structure CompactDirPatch where
  /-- Device offset of the directory entry after the move. -/
  offset : ℕ
  oldTarget : ℕ
  newTarget : ℕ
  deriving DecidableEq, Repr

/-- `CompactJournal` -/
structure CompactJournal where
  devicePath : List Char
  volumeId : ℕ
  stage : JournalStage
  rootOld : ℕ
  rootNew : ℕ
  moves : List CompactMove
  dirPatches : List CompactDirPatch
  deriving DecidableEq

/-- A directory entry that names a cluster. -/
structure DirRef where
  offset : ℕ
  targetCluster : ℕ
  deriving DecidableEq, Repr

/-! ### The map of a transaction -/

/-- One round of the first loop of `compact_build_map`: the map so far and the destinations seen. -/
def mapStep (fs : Fat32) (acc : (ℕ → ℕ) × (ℕ → Bool)) (m : CompactMove) :
    Except Halt ((ℕ → ℕ) × (ℕ → Bool)) := do
  dieIf (m.source < 2 ∨ m.source > fs.maxCluster ∨ m.destination < 2 ∨
    m.destination > fs.maxCluster ∨ m.destination = m.source)
    "compact journal contains an invalid source/destination pair"
  dieIf (acc.1 m.source ≠ 0 ∨ acc.2 m.destination)
    "compact journal contains duplicate source or destination clusters"
  return (Function.update acc.1 m.source m.destination, Function.update acc.2 m.destination true)

/-- `compact_build_map` -/
def compactBuildMap (fs : Fat32) (moves : List CompactMove) : Except Halt (ℕ → ℕ) := do
  let (map, destSeen) ← moves.foldlM (mapStep fs) (fun _ ↦ 0, fun _ ↦ false)
  dieIf (moves.any fun m ↦ destSeen m.source) "compact journal source and destination sets overlap"
  return map

/-- The map that a list of moves means: the destination of a source, `0` for other clusters. -/
def moveMap (moves : List CompactMove) (c : ℕ) : ℕ :=
  ((moves.find? fun m ↦ m.source = c).map CompactMove.destination).getD 0

/-- What `compact_build_map` accepts. -/
structure ValidMoves (fs : Fat32) (moves : List CompactMove) : Prop where
  source : ∀ m ∈ moves, 2 ≤ m.source ∧ m.source ≤ fs.maxCluster
  destination : ∀ m ∈ moves, 2 ≤ m.destination ∧ m.destination ≤ fs.maxCluster
  sources_nodup : (moves.map CompactMove.source).Nodup
  destinations_nodup : (moves.map CompactMove.destination).Nodup
  disjoint : ∀ m ∈ moves, ∀ m' ∈ moves, m.source ≠ m'.destination

variable {c offset : ℕ} {f map : ℕ → ℕ} {seen : ℕ → Bool}

variable {m : CompactMove}

section Map

variable {fs : Fat32} {moves : List CompactMove}

theorem moveMap_cons (m : CompactMove) (moves : List CompactMove) (c : ℕ) :
    moveMap (m :: moves) c = if m.source = c then m.destination else moveMap moves c := by
  by_cases h : m.source = c <;> simp [moveMap, h]

theorem moveMap_of_not_mem (h : c ∉ moves.map CompactMove.source) : moveMap moves c = 0 := by
  induction moves with
  | nil => rfl
  | cons m moves ih =>
    rw [map_cons, mem_cons, not_or] at h
    rw [moveMap_cons, if_neg (Ne.symm h.1), ih h.2]

/-- What the first loop of `compact_build_map` asks of one move. -/
def MoveOk (fs : Fat32) (f : ℕ → ℕ) (seen : ℕ → Bool) (m : CompactMove) : Prop :=
  (2 ≤ m.source ∧ m.source ≤ fs.maxCluster) ∧ (2 ≤ m.destination ∧ m.destination ≤ fs.maxCluster) ∧
    m.destination ≠ m.source ∧ f m.source = 0 ∧ seen m.destination = false

theorem mapStep_eq_ok {r : (ℕ → ℕ) × (ℕ → Bool)} :
    mapStep fs (f, seen) m = .ok r ↔ MoveOk fs f seen m ∧
      r = (update f m.source m.destination, update seen m.destination true) := by
  simp only [mapStep, dieIf_bind_eq_ok, pure_eq_ok, ok.injEq, MoveOk, not_or, not_lt,
    not_not, Bool.not_eq_true, gt_iff_lt]
  constructor
  · rintro ⟨⟨h₁, h₂, h₃, h₄, h₅⟩, ⟨h₆, h₇⟩, rfl⟩
    exact ⟨⟨⟨h₁, h₂⟩, ⟨h₃, h₄⟩, h₅, h₆, h₇⟩, rfl⟩
  · rintro ⟨⟨⟨h₁, h₂⟩, ⟨h₃, h₄⟩, h₅, h₆, h₇⟩, rfl⟩
    exact ⟨⟨h₁, h₂, h₃, h₄, h₅⟩, ⟨h₆, h₇⟩, rfl⟩

/-- A later move passes after an earlier one just if it passes without it and shares neither end. -/
theorem moveOk_update {n : CompactMove} (hm : MoveOk fs f seen m) :
    MoveOk fs (update f m.source m.destination) (update seen m.destination true) n ↔
      MoveOk fs f seen n ∧ m.source ≠ n.source ∧ m.destination ≠ n.destination := by
  have hpos : m.destination ≠ 0 := by
    have := hm.2.1.1
    omega
  have hsource : update f m.source m.destination n.source = 0 ↔
      f n.source = 0 ∧ m.source ≠ n.source := by
    rcases eq_or_ne m.source n.source with h | h
    · simp [h, hpos]
    · simp [update_of_ne h.symm, h]
  have hdest : update seen m.destination true n.destination = false ↔
      seen n.destination = false ∧ m.destination ≠ n.destination := by
    rcases eq_or_ne m.destination n.destination with h | h
    · simp [h]
    · simp [update_of_ne h.symm, h]
  simp only [MoveOk, hsource, hdest]
  tauto

/-- The maps before and after the first move of a list, seen from the end of the loop. -/
theorem overlay_cons (f : ℕ → ℕ) (h : m.source ∉ moves.map CompactMove.source) :
    (fun c ↦ if c ∈ moves.map CompactMove.source then moveMap moves c
      else update f m.source m.destination c) =
    fun c ↦ if c ∈ (m :: moves).map CompactMove.source then moveMap (m :: moves) c else f c := by
  funext c
  rw [moveMap_cons, map_cons]
  rcases eq_or_ne m.source c with rfl | hc
  · rw [if_neg h, update_self, if_pos mem_cons_self, if_pos rfl]
  · rw [update_of_ne hc.symm, if_neg hc]
    exact if_congr (by simp [hc.symm]) rfl rfl

theorem seen_cons (seen : ℕ → Bool) (m : CompactMove) (moves : List CompactMove) :
    (fun d ↦ update seen m.destination true d ||
      decide (d ∈ moves.map CompactMove.destination)) =
    fun d ↦ seen d || decide (d ∈ (m :: moves).map CompactMove.destination) := by
  funext d
  rcases eq_or_ne m.destination d with rfl | hd
  · simp
  · simp [hd.symm]

/-- The first loop of `compact_build_map`, from any map and any set of destinations seen. -/
theorem foldlM_mapStep_eq_ok {r : (ℕ → ℕ) × (ℕ → Bool)} :
    moves.foldlM (mapStep fs) (f, seen) = .ok r ↔
      ((∀ m ∈ moves, MoveOk fs f seen m) ∧ (moves.map CompactMove.source).Nodup ∧
        (moves.map CompactMove.destination).Nodup) ∧
      r = (fun c ↦ if c ∈ moves.map CompactMove.source then moveMap moves c else f c,
        fun d ↦ seen d || decide (d ∈ moves.map CompactMove.destination)) := by
  induction moves generalizing f seen with
  | nil =>
    rw [foldlM_nil, pure_eq_ok, ok.injEq]
    simp only [not_mem_nil, map_nil, if_false, decide_false, Bool.or_false,
      nodup_nil, and_self, false_imp_iff, implies_true, true_and]
    exact eq_comm
  | cons m moves ih =>
    rw [foldlM_cons, bind_eq_ok]
    simp only [mapStep_eq_ok]
    constructor
    · rintro ⟨_, ⟨hm, rfl⟩, h⟩
      obtain ⟨⟨hrest, hs, hd⟩, rfl⟩ := ih.1 h
      have hne := fun n hn ↦ ((moveOk_update hm).1 (hrest n hn))
      have hsource : m.source ∉ moves.map CompactMove.source := fun hmem ↦ by
        obtain ⟨n, hn, heq⟩ := mem_map.1 hmem
        exact (hne n hn).2.1 heq.symm
      have hdest : m.destination ∉ moves.map CompactMove.destination := fun hmem ↦ by
        obtain ⟨n, hn, heq⟩ := mem_map.1 hmem
        exact (hne n hn).2.2 heq.symm
      refine ⟨⟨?_, nodup_cons.2 ⟨hsource, hs⟩, nodup_cons.2 ⟨hdest, hd⟩⟩, ?_⟩
      · rintro n (_ | ⟨_, hn⟩)
        · exact hm
        · exact (hne n hn).1
      · rw [overlay_cons f hsource, seen_cons]
    · rintro ⟨⟨hall, hs, hd⟩, rfl⟩
      rw [map_cons, nodup_cons] at hs hd
      have hm := hall m mem_cons_self
      refine ⟨_, ⟨hm, rfl⟩, ih.2 ⟨⟨fun n hn ↦ ?_, hs.2, hd.2⟩, ?_⟩⟩
      · refine (moveOk_update hm).2 ⟨hall n (mem_cons_of_mem _ hn), ?_, ?_⟩
        · exact fun heq ↦ hs.1 (heq ▸ mem_map_of_mem hn)
        · exact fun heq ↦ hd.1 (heq ▸ mem_map_of_mem hn)
      · rw [overlay_cons f hs.1, seen_cons]

/-- **What `compact_build_map` accepts, and what it returns.** -/
theorem compactBuildMap_eq_ok :
    compactBuildMap fs moves = .ok map ↔ ValidMoves fs moves ∧ map = moveMap moves := by
  have hmap : (fun c ↦ if c ∈ moves.map CompactMove.source then moveMap moves c else 0) =
      moveMap moves := by
    funext c
    split_ifs with h
    · rfl
    · exact (moveMap_of_not_mem h).symm
  rw [compactBuildMap, bind_eq_ok]
  simp only [foldlM_mapStep_eq_ok, dieIf_bind_eq_ok, pure_eq_ok, ok.injEq]
  constructor
  · rintro ⟨_, ⟨⟨hall, hs, hd⟩, rfl⟩, hdisj, rfl⟩
    refine ⟨⟨fun m hm ↦ (hall m hm).1, fun m hm ↦ (hall m hm).2.1, hs, hd, ?_⟩, hmap⟩
    intro m hm m' hm' heq
    refine hdisj (any_eq_true.2 ⟨m, hm, ?_⟩)
    simp only [Bool.false_or, decide_eq_true_eq]
    exact heq ▸ mem_map_of_mem hm'
  · rintro ⟨h, rfl⟩
    refine ⟨_, ⟨⟨fun m hm ↦ ?_, h.sources_nodup, h.destinations_nodup⟩, rfl⟩, ?_, hmap⟩
    · exact ⟨h.source m hm, h.destination m hm, (h.disjoint m hm m hm).symm, rfl, rfl⟩
    · intro hany
      obtain ⟨m, hm, hseen⟩ := any_eq_true.1 hany
      simp only [Bool.false_or, decide_eq_true_eq] at hseen
      obtain ⟨m', hm', heq⟩ := mem_map.1 hseen
      exact h.disjoint m hm m' hm' heq.symm

theorem moveMap_of_mem (h : (moves.map CompactMove.source).Nodup) (hm : m ∈ moves) :
    moveMap moves m.source = m.destination := by
  induction moves with
  | nil => simp at hm
  | cons n moves ih =>
    rw [map_cons, nodup_cons] at h
    rw [moveMap_cons]
    rcases mem_cons.1 hm with rfl | hm
    · rw [if_pos rfl]
    · have hne : n.source ≠ m.source := fun heq ↦ h.1 (heq ▸ mem_map_of_mem hm)
      rw [if_neg hne, ih h.2 hm]

namespace ValidMoves

variable (h : ValidMoves fs moves)
include h

/-- A cluster moves just if it is a source. -/
theorem moveMap_ne_zero_iff :
    moveMap moves c ≠ 0 ↔ ∃ m ∈ moves, m.source = c ∧ moveMap moves c = m.destination := by
  constructor
  · intro hne
    have hmem : c ∈ moves.map CompactMove.source := by
      by_contra hnot
      exact hne (moveMap_of_not_mem hnot)
    obtain ⟨m, hm, rfl⟩ := mem_map.1 hmem
    exact ⟨m, hm, rfl, moveMap_of_mem h.sources_nodup hm⟩
  · rintro ⟨m, hm, -, heq⟩
    have := (h.destination m hm).1
    omega

theorem moveMap_le (c : ℕ) : moveMap moves c ≤ fs.maxCluster := by
  by_cases hne : moveMap moves c = 0
  · omega
  · obtain ⟨m, hm, -, heq⟩ := h.moveMap_ne_zero_iff.1 hne
    rw [heq]
    exact (h.destination m hm).2

theorem two_le_moveMap (hne : moveMap moves c ≠ 0) : 2 ≤ moveMap moves c := by
  obtain ⟨m, hm, -, heq⟩ := h.moveMap_ne_zero_iff.1 hne
  rw [heq]
  exact (h.destination m hm).1

end ValidMoves

end Map

/-! ### Building a journal -/

/-- `data_offset_to_cluster` -/
def dataOffsetToCluster (fs : Fat32) (offset : ℕ) : Except Halt ℕ := do
  dieIf (offset < fs.dataOffset) "directory reference lies outside the data region"
  dieIf ((offset - fs.dataOffset) / fs.clusterSize ≥ fs.clusterCount)
    "directory reference lies beyond the data region"
  return (offset - fs.dataOffset) / fs.clusterSize + 2

/-- `move_offset_between_clusters` -/
def moveOffsetBetweenClusters (fs : Fat32) (offset source destination : ℕ) : Except Halt ℕ := do
  let sourceOffset ← fs.clusterOffset source
  dieIf (offset < sourceOffset ∨ offset ≥ sourceOffset + fs.clusterSize)
    "internal error: reference offset is not inside its source cluster"
  return (← fs.clusterOffset destination) + (offset - sourceOffset)

/-- A reference lies in the root directory of a FAT12 or FAT16 volume, which never moves. -/
def Fat32.inFixedRoot (fs : Fat32) (offset : ℕ) : Bool :=
  fs.rootIsFixed && decide (fs.rootDirOffset ≤ offset) &&
    decide (offset < fs.rootDirOffset + fs.rootDirSize)

/-- `next` and `predecessor` of one move, from the first loop of `make_compact_journal`. -/
def linkMove (fs : Fat32) (pred : ℕ → ℕ) (m : CompactMove) : Except Halt CompactMove := do
  let next ← fs.fatValue m.source
  if m.source > fs.maxCluster then throw (.outOfBounds "pred")
  return { m with next, predecessor := pred m.source }

/-- Where a reference will be once the cluster that holds it has moved. -/
def patchOffset (fs : Fat32) (map : ℕ → ℕ) (offset : ℕ) : Except Halt ℕ :=
  if fs.inFixedRoot offset then pure offset
  else do
    let container ← dataOffsetToCluster fs offset
    if map container ≠ 0 then moveOffsetBetweenClusters fs offset container (map container)
    else pure offset

/-- The patch for one reference, from the second loop of `make_compact_journal`. -/
def dirPatch (fs : Fat32) (map : ℕ → ℕ) (ref : DirRef) : Except Halt (Option CompactDirPatch) :=
  if ref.targetCluster > fs.maxCluster then throw (.outOfBounds "map")
  else if map ref.targetCluster = 0 then pure none
  else do
    let offset ← patchOffset fs map ref.offset
    return some ⟨offset, ref.targetCluster, map ref.targetCluster⟩

/-- `make_compact_journal` -/
def makeCompactJournal (fs : Fat32) (dirRefs : List DirRef) (pred : ℕ → ℕ)
    (moves : List CompactMove) : Except Halt CompactJournal := do
  let linked ← moves.mapM (linkMove fs pred)
  let map ← compactBuildMap fs linked
  let patches ← dirRefs.mapM (dirPatch fs map)
  let dirPatches := patches.reduceOption
  dieIf (linked.any fun m ↦ m.predecessor = 0 && m.source ≠ fs.rootCluster &&
    !dirPatches.any fun p ↦ p.oldTarget = m.source)
    "first cluster has no directory reference during compaction"
  return {
    devicePath := fs.dev.path
    volumeId := fs.volumeId
    stage := .prepared
    rootOld := fs.rootCluster
    rootNew := if map fs.rootCluster ≠ 0 then map fs.rootCluster else fs.rootCluster
    moves := linked
    dirPatches }

/-! ### What a made journal holds -/

/-- A move with the table entry and the predecessor of its source. -/
def CompactMove.linked (fs : Fat32) (pred : ℕ → ℕ) (m : CompactMove) : CompactMove :=
  { m with next := fs.value m.source, predecessor := pred m.source }

theorem linkMove_eq_ok {fs : Fat32} {pred : ℕ → ℕ} {m' : CompactMove} :
    linkMove fs pred m = .ok m' ↔
      (m.source < fs.fatEntryCount ∧ m.source ≤ fs.maxCluster) ∧ m' = m.linked fs pred := by
  rw [linkMove, bind_eq_ok]
  simp only [Fat32.fatValue, dieIf_bind_eq_ok, pure_eq_ok, ok.injEq, ge_iff_le, not_le]
  constructor
  · rintro ⟨next, ⟨hlt, rfl⟩, h⟩
    by_cases hmax : m.source > fs.maxCluster
    · rw [if_pos hmax] at h
      cases h
    · rw [if_neg hmax] at h
      exact ⟨⟨hlt, not_lt.1 hmax⟩, (ok.inj h).symm⟩
  · rintro ⟨⟨hlt, hmax⟩, rfl⟩
    refine ⟨_, ⟨hlt, rfl⟩, ?_⟩
    rw [if_neg (not_lt.2 hmax)]
    rfl

theorem dirPatch_eq_ok {fs : Fat32} {ref : DirRef} {o : Option CompactDirPatch} :
    dirPatch fs map ref = .ok o ↔ ref.targetCluster ≤ fs.maxCluster ∧
      if map ref.targetCluster = 0 then o = none
      else ∃ offset, patchOffset fs map ref.offset = .ok offset ∧
        o = some ⟨offset, ref.targetCluster, map ref.targetCluster⟩ := by
  rw [dirPatch]
  by_cases hmax : ref.targetCluster > fs.maxCluster
  · rw [if_pos hmax]
    exact iff_of_false (fun h ↦ by cases h) fun h ↦ absurd h.1 (not_le.2 hmax)
  rw [if_neg hmax, and_iff_right (not_lt.1 hmax)]
  split_ifs with hzero
  · rw [pure_eq_ok, ok.injEq, eq_comm]
  · rw [bind_eq_ok]
    simp only [pure_eq_ok, ok.injEq]
    exact exists_congr fun _ ↦ and_congr_right fun _ ↦ eq_comm

/-- **What `make_compact_journal` returns.** -/
theorem makeCompactJournal_eq_ok {fs : Fat32} {refs : List DirRef} {pred : ℕ → ℕ}
    {moves : List CompactMove} {j : CompactJournal}
    (h : makeCompactJournal fs refs pred moves = .ok j) :
    ValidMoves fs j.moves ∧ j.moves = moves.map (CompactMove.linked fs pred) ∧
      (∃ patches, Forall₂ (fun ref o ↦ dirPatch fs (moveMap j.moves) ref = .ok o) refs patches ∧
        j.dirPatches = patches.reduceOption) ∧
      (∀ m ∈ j.moves, m.predecessor = 0 → m.source ≠ fs.rootCluster →
        ∃ p ∈ j.dirPatches, p.oldTarget = m.source) ∧
      j.devicePath = fs.dev.path ∧ j.volumeId = fs.volumeId ∧ j.stage = .prepared ∧
      j.rootOld = fs.rootCluster ∧
      j.rootNew = if moveMap j.moves fs.rootCluster ≠ 0 then moveMap j.moves fs.rootCluster
        else fs.rootCluster := by
  rw [makeCompactJournal, bind_eq_ok] at h
  obtain ⟨linked, hlinked, h⟩ := h
  rw [bind_eq_ok] at h
  obtain ⟨map, hmap, h⟩ := h
  rw [bind_eq_ok] at h
  obtain ⟨patches, hpatches, h⟩ := h
  simp only [dieIf_bind_eq_ok, pure_eq_ok, ok.injEq] at h
  obtain ⟨hcheck, rfl⟩ := h
  obtain ⟨hvalid, rfl⟩ := compactBuildMap_eq_ok.1 hmap
  have hmoves : linked = moves.map (CompactMove.linked fs pred) :=
    eq_map_of_forall₂ (mapM_eq_ok.1 hlinked) fun _ _ hm ↦ (linkMove_eq_ok.1 hm).2
  refine ⟨hvalid, hmoves, ⟨patches, mapM_eq_ok.1 hpatches, rfl⟩, ?_, rfl, rfl, rfl, rfl, rfl⟩
  intro m hm hpred hroot
  by_contra hnone
  refine hcheck (any_eq_true.2 ⟨m, hm, ?_⟩)
  push Not at hnone
  simpa [hpred, hroot] using hnone

theorem dataOffsetToCluster_eq_ok {fs : Fat32} :
    dataOffsetToCluster fs offset = .ok c ↔ fs.dataOffset ≤ offset ∧
      (offset - fs.dataOffset) / fs.clusterSize < fs.clusterCount ∧
      c = (offset - fs.dataOffset) / fs.clusterSize + 2 := by
  simp only [dataOffsetToCluster, dieIf_bind_eq_ok, pure_eq_ok, ok.injEq, not_lt, ge_iff_le, not_le]
  exact and_congr_right fun _ ↦ and_congr_right fun _ ↦ eq_comm

theorem moveOffsetBetweenClusters_eq_ok {fs : Fat32} {source destination o : ℕ} :
    moveOffsetBetweenClusters fs offset source destination = .ok o ↔
      (2 ≤ source ∧ source ≤ fs.maxCluster) ∧ (2 ≤ destination ∧ destination ≤ fs.maxCluster) ∧
      (fs.clusterStart source ≤ offset ∧ offset < fs.clusterStart source + fs.clusterSize) ∧
      o = fs.clusterStart destination + (offset - fs.clusterStart source) := by
  rw [moveOffsetBetweenClusters, bind_eq_ok]
  simp only [Fat32.clusterOffset_eq_ok_iff, dieIf_bind_eq_ok, not_or, not_lt, ge_iff_le, not_le]
  constructor
  · rintro ⟨_, ⟨hs, rfl⟩, hin, h⟩
    obtain ⟨_, hdest, h⟩ := bind_eq_ok.1 h
    obtain ⟨hd, rfl⟩ := Fat32.clusterOffset_eq_ok_iff.1 hdest
    exact ⟨hs, hd, hin, (ok.inj h).symm⟩
  · rintro ⟨hs, hd, hin, rfl⟩
    refine ⟨_, ⟨hs, rfl⟩, hin, bind_eq_ok.2 ⟨_, Fat32.clusterOffset_eq_ok_iff.2 ⟨hd, rfl⟩, rfl⟩⟩

/-- A patch lies inside the volume. -/
theorem patchOffset_lt {fs : Fat32} (h : fs.Layout) {o : ℕ}
    (ho : patchOffset fs map offset = .ok o) :
    o < fs.dataOffset + fs.clusterCount * fs.clusterSize := by
  have hpos := h.clusterSize_pos
  -- an offset inside cluster `k` is before the end of the data region
  have hend : ∀ k, k < fs.clusterCount → fs.dataOffset + k * fs.clusterSize + fs.clusterSize ≤
      fs.dataOffset + fs.clusterCount * fs.clusterSize := by
    intro k hk
    have hle := Nat.mul_le_mul_right fs.clusterSize (Nat.succ_le_of_lt hk)
    rw [Nat.succ_mul] at hle
    omega
  rw [patchOffset] at ho
  split_ifs at ho with hfix
  · obtain rfl := ok.inj ho
    rw [Fat32.inFixedRoot, Bool.and_eq_true, decide_eq_true_eq] at hfix
    have hdata := h.dataOffset
    omega
  · rw [bind_eq_ok] at ho
    obtain ⟨container, hcontainer, ho⟩ := ho
    obtain ⟨hge, hlt, rfl⟩ := dataOffsetToCluster_eq_ok.1 hcontainer
    split_ifs at ho with hmap
    · obtain ⟨-, hdest, hin, rfl⟩ := moveOffsetBetweenClusters_eq_ok.1 ho
      have hmax := h.maxCluster
      have := hend (map ((offset - fs.dataOffset) / fs.clusterSize + 2) - 2) (by omega)
      simp only [Fat32.clusterStart] at hin ⊢
      omega
    · obtain rfl := ok.inj ho
      have hdiv := Nat.lt_div_mul_add (a := offset - fs.dataOffset) hpos
      have := hend _ hlt
      omega

end LinuxDefragger.Fat
