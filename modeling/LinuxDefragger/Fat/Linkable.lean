import LinuxDefragger.Fat.Scan

/-!
# Which clusters a chain can reach

The width of a table is chosen by the number of clusters, and the largest cluster numbers of a width
are the values that the chain reader takes for reserved. `fat32Load` does not look at this: it
accepts volumes up to the last cluster count of each width. `linkable_iff` says for which of them
every cluster can be the target of a link, and with it every chain that is written can be read.
-/

open Function List Storage

namespace LinuxDefragger.Fat

namespace Fat32

variable (fs : Fat32)

/-- A table entry that holds `c` is followed by `fat32_read_chain`, and `scan_files` takes it for an
allocated cluster that must belong to a chain. -/
def TreatedAsLink (c : ℕ) : Prop :=
  ∀ (fat : ℕ → ℕ) (a : ℕ), 2 ≤ a → a ≤ fs.maxCluster → (fs.withFat fat).value a = c →
    (∀ fuel seen, a ∉ seen → readChainFrom (fs.withFat fat) (fuel + 1) seen a =
      readChainFrom (fs.withFat fat) fuel (seen ++ [a]) c) ∧
    ∀ claimed, checkCluster (fs.withFat fat) claimed a = if a ∈ claimed then pure () else
      throw (.exitMsg
        "allocated but unreferenced cluster %u detected; repair lost chains before defragmenting"
        (some a) [])

/-- The updates that link clusters to a chain. -/
def chainUpdates (t : FatType) : List ℕ → List FatUpdate
  | [] => []
  | [a] => [⟨a, t.eocValue⟩]
  | a :: b :: rest => ⟨a, b⟩ :: chainUpdates t (b :: rest)

/-- A chain that is written into the table, whatever else it holds, is read back. -/
def ReadsBack (l : List ℕ) : Prop :=
  ∀ fat, fat32ReadChain (fs.withFat (updateTable fs.fatType fat (chainUpdates fs.fatType l)))
    (l.headD 0) = .ok l

end Fat32

open Fat32

theorem chainUpdates_cluster (t : FatType) (l : List ℕ) :
    (chainUpdates t l).map FatUpdate.cluster = l := by
  induction l using chainUpdates.induct with
  | case1 => rfl
  | case2 a => rfl
  | case3 a b rest ih => rw [chainUpdates, map_cons, ih]

/-- Numbers below the reserved values are stored as they are. -/
theorem FatType.and_mask_of_lt_reservedMin (t : FatType) {c : ℕ} (h : c < t.reservedMin) :
    c &&& t.mask = c := by
  rw [t.and_mask]
  refine Nat.mod_eq_of_lt (h.trans ?_)
  cases t <;> decide

/-- Below the reserved values there is no other meaning than a link. -/
theorem Fat32.link_of_lt_reservedMin {fs : Fat32} {a c : ℕ} (hc : 2 ≤ c)
    (hlt : c < fs.fatType.reservedMin) (hval : fs.value a = c) : fs.Link a c := by
  have hmask := fs.fatType.and_mask_of_lt_reservedMin hlt
  have heoc : fs.fatType.reservedMin < fs.fatType.eocMin := by cases fs.fatType <;> decide
  have hbad : fs.fatType.reservedMin < fs.fatType.badValue := by cases fs.fatType <;> decide
  refine ⟨hval, ?_, by omega, ?_⟩
  · rw [fatIsEocFor, hmask]
    exact decide_eq_false (by omega)
  · rw [isBadLink, Bool.or_eq_false_iff, Bool.and_eq_false_iff]
    exact ⟨decide_eq_false (by omega), .inl (decide_eq_false (by omega))⟩

section

variable {fs : Fat32} (h : fs.Layout)

include h

theorem treatedAsLink_of_lt {c : ℕ} (hc : 2 ≤ c) (hlt : c < fs.fatType.reservedMin) :
    fs.TreatedAsLink c := by
  intro fat a ha hmax hval
  have h' := h.withFat fat
  have hlink : (fs.withFat fat).Link a c := link_of_lt_reservedMin hc hlt hval
  obtain ⟨-, heoc, hzero, hbad⟩ := hlink
  rw [isBadLink, Bool.or_eq_false_iff] at hbad
  refine ⟨fun fuel seen hnew ↦ ?_, fun claimed ↦ ?_⟩
  · rw [readChainFrom_succ h' ⟨ha, hmax⟩ hnew, hval, if_neg (by simp [heoc]),
      dieIf_bind_of_not hzero, dieIf_bind_of_not (by simp [isBadLink, hbad])]
  · rw [checkCluster, h'.fatValue_eq_ok hmax, ok_bind, hval,
      if_neg (not_or.2 ⟨hzero, of_decide_eq_false hbad.1⟩),
      if_neg fun hres ↦ absurd hlt (Nat.not_lt.2 hres.1)]

omit h in
/-- Clusters that are linked below the reserved values form a chain. -/
theorem chainFrom_updateTable {a : ℕ} {l : List ℕ} (hnd : (a :: l).Nodup)
    (hin : ∀ c ∈ a :: l, 2 ≤ c ∧ c ≤ fs.maxCluster) (hlt : fs.maxCluster < fs.fatType.reservedMin)
    (fat : ℕ → ℕ) :
    ChainFrom (fs.withFat (updateTable fs.fatType fat (chainUpdates fs.fatType (a :: l)))) a
      (a :: l) := by
  have heoc : fs.fatType.eocMin ≤ fs.fatType.eocValue &&& fs.fatType.mask := by
    cases fs.fatType <;> decide
  induction l generalizing a fat with
  | nil =>
    refine .last (hin a mem_cons_self) ?_
    have hval : (fs.withFat (updateTable fs.fatType fat (chainUpdates fs.fatType [a]))).value a =
        fs.fatType.eocValue &&& fs.fatType.mask &&& fs.fatType.mask := by
      show update fat a (fs.fatType.eocValue &&& fs.fatType.mask) a &&& fs.fatType.mask = _
      rw [update_self]
    rw [hval]
    refine decide_eq_true ?_
    show fs.fatType.eocMin ≤ _ &&& fs.fatType.mask
    rwa [Nat.and_assoc, Nat.and_self, Nat.and_assoc, Nat.and_self]
  | cons b l ih =>
    obtain ⟨ha, hnd⟩ := nodup_cons.1 hnd
    obtain ⟨hrange, hin⟩ := forall_mem_cons.1 hin
    obtain ⟨hb, -⟩ := forall_mem_cons.1 hin
    refine .link hrange (link_of_lt_reservedMin hb.1 (lt_of_le_of_lt hb.2 hlt) ?_)
      (ih hnd hin (update fat a (b &&& fs.fatType.mask)))
    -- the later updates do not touch the entry of `a`
    have hrest := updateTable_of_not_mem fs.fatType (update fat a (b &&& fs.fatType.mask))
      (by rwa [chainUpdates_cluster] : a ∉ (chainUpdates fs.fatType (b :: l)).map FatUpdate.cluster)
    show updateTable _ _ (chainUpdates _ (b :: l)) a &&& fs.fatType.mask = b
    rw [hrest, update_self, Nat.and_assoc, Nat.and_self,
      FatType.and_mask_of_lt_reservedMin _ (lt_of_le_of_lt hb.2 hlt)]

theorem readsBack_of_lt {l : List ℕ} (hne : l ≠ []) (hnd : l.Nodup)
    (hin : ∀ c ∈ l, 2 ≤ c ∧ c ≤ fs.maxCluster) (hlt : fs.maxCluster < fs.fatType.reservedMin) :
    fs.ReadsBack l := by
  obtain ⟨a, l, rfl⟩ := exists_cons_of_ne_nil hne
  intro fat
  have ha := hin a mem_cons_self
  rw [headD_cons, fat32ReadChain_eq_ok (h.withFat _), if_neg (by omega)]
  exact chainFrom_updateTable hnd hin hlt fat

/-- The first reserved value is not a link, even where it is the number of a cluster. -/
theorem not_treatedAsLink_reservedMin (hle : fs.fatType.reservedMin ≤ fs.maxCluster) :
    ¬fs.TreatedAsLink fs.fatType.reservedMin := by
  intro htreat
  have hmin : 2 ≤ fs.fatType.reservedMin := by cases fs.fatType <;> decide
  have hval : (fs.withFat fun _ ↦ fs.fatType.reservedMin).value 2 = fs.fatType.reservedMin := by
    show fs.fatType.reservedMin &&& fs.fatType.mask = _
    cases fs.fatType <;> decide
  have hcheck := (htreat _ 2 le_rfl (by omega) hval).2 [2]
  rw [checkCluster, (h.withFat _).fatValue_eq_ok (by exact hmin.trans hle), ok_bind, hval,
    if_pos (mem_singleton.2 rfl), if_neg, if_pos] at hcheck
  · cases hcheck
  · refine ⟨le_rfl, ?_⟩
    show fs.fatType.reservedMin < fs.fatType.eocMin
    cases fs.fatType <;> decide
  · show ¬(fs.fatType.reservedMin = 0 ∨ fs.fatType.reservedMin = fs.fatType.badValue)
    cases fs.fatType <;> decide

end

/-- **Every cluster of a loaded volume can be linked, and every chain read back, exactly if the
cluster numbers stay below the reserved values** of the table's width. -/
theorem linkable_iff {fuel : ℕ} {dev : Device} {allow : Bool} {fs : Fat32}
    (hload : fat32Load fuel dev allow = .ok fs) :
    ((∀ c, 2 ≤ c → c ≤ fs.maxCluster → fs.TreatedAsLink c) ∧
      ∀ l, l ≠ [] → l.Nodup → (∀ c ∈ l, 2 ≤ c ∧ c ≤ fs.maxCluster) → fs.ReadsBack l) ↔
      fs.maxCluster < fs.fatType.reservedMin := by
  have h := (fat32Load_loaded hload).1.toLayout
  constructor
  · rintro ⟨htreat, -⟩
    by_contra hge
    have hle := Nat.le_of_not_lt hge
    have hmin : 2 ≤ fs.fatType.reservedMin := by cases fs.fatType <;> decide
    exact not_treatedAsLink_reservedMin h hle (htreat _ hmin hle)
  · intro hlt
    exact ⟨fun c hc hmax ↦ treatedAsLink_of_lt h hc (lt_of_le_of_lt hmax hlt),
      fun l hne hnd hin ↦ readsBack_of_lt h hne hnd hin hlt⟩

/-! ### A volume with unreachable clusters -/

/-- A FAT12 volume with one FAT copy and `4084` clusters, the most that this width has; the last
cluster is number `4085`. Addresses not listed hold zero. -/
def fullFat12Image : Image := fun a ↦
  ([(12, 0x02), (13, 1), (14, 1), (16, 1), (17, 16), (19, 0x02), (20, 0x10), (22, 12), (510, 0x55),
    (511, 0xAA)].lookup a).getD 0

/-- The volume, opened for writing. -/
def fullFat12Device : Device where
  path := []
  writable := true
  sizeBytes := 4098 * 512
  image := fullFat12Image
  log := []

/-- The volume, loaded. -/
def fullFat12Volume : Fat32 :=
  (bootFields fullFat12Image fullFat12Device false).withFat
    (decodeTable .fat12 (fullFat12Image.view 512) 4096)

theorem fat32Load_fullFat12Device : fat32Load 2 fullFat12Device false = .ok fullFat12Volume := by
  rfl

/-- **Cluster `4080` of a FAT12 volume cannot be linked**: the volume is loaded, the cluster is one
of its data clusters, and an entry that holds its number is taken for a reserved value. -/
theorem cluster_4080_not_linkable :
    fat32Load 2 fullFat12Device false = .ok fullFat12Volume ∧ 4080 ≤ fullFat12Volume.maxCluster ∧
      ¬fullFat12Volume.TreatedAsLink 4080 :=
  ⟨fat32Load_fullFat12Device, by decide, not_treatedAsLink_reservedMin
    (fat32Load_loaded fat32Load_fullFat12Device).1.toLayout (by decide)⟩

/-- The equivalence at this volume. -/
theorem linkable_iff_fullFat12Volume :
    ((∀ c, 2 ≤ c → c ≤ fullFat12Volume.maxCluster → fullFat12Volume.TreatedAsLink c) ∧
      ∀ l, l ≠ [] → l.Nodup → (∀ c ∈ l, 2 ≤ c ∧ c ≤ fullFat12Volume.maxCluster) →
        fullFat12Volume.ReadsBack l) ↔
      fullFat12Volume.maxCluster < fullFat12Volume.fatType.reservedMin :=
  linkable_iff fat32Load_fullFat12Device

end LinuxDefragger.Fat
