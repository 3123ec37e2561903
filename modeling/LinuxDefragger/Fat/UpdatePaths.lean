import LinuxDefragger.Fat.Table

/-!
# The two update paths of the FAT

`fat32ApplyUpdates` is meant as a faster way of calling `fat32WriteEntry` for each update in order.
The table in memory comes out the same. On the medium the two differ in what they do **not** mean to
change: the entry path reads each copy and keeps its reserved bits and neighbouring entries, the
bulk path overwrites whole sectors with the table in memory, in which the reserved bits are gone and
the entries are those of the active copy.

`Fat32.SectorsClean` is what a volume must satisfy so that nothing is lost.
-/

open Except Function Storage

namespace LinuxDefragger.Fat

/-- The two paths leave the same table in memory and the same bytes in every maintained copy. -/
def SamePaths (fs : Fat32) (us : List FatUpdate) : Prop :=
  ∃ bulk one, fat32ApplyUpdates fs us = .ok bulk ∧ writeEntries fs us = .ok one ∧
    bulk.fat = one.fat ∧ ∀ copy ∈ fs.maintainedCopies, ∀ i < fs.fatBytes,
      bulk.dev.image (fs.fatCopyOffset copy + i) = one.dev.image (fs.fatCopyOffset copy + i)

/-- Every FAT sector that holds an updated entry is, in every maintained copy, what the table in
memory says it is: no reserved bits are set, and an entry that is not updated has the value of the
active copy. -/
def Fat32.SectorsClean (fs : Fat32) (us : List FatUpdate) : Prop :=
  ∀ copy ∈ fs.maintainedCopies, ∀ e, (∃ u ∈ us,
    e * 4 / fs.bytesPerSector = u.cluster * 4 / fs.bytesPerSector) →
      if e ∈ us.map FatUpdate.cluster then rd32 (fs.copyView copy) (e * 4) < 2 ^ 28
      else rd32 (fs.copyView copy) (e * 4) = fs.fat e

/-! ### Words of a FAT32 table -/

theorem rd32_putEntry_self (raw : Image) (c v : ℕ) : rd32 (FatType.fat32.putEntry raw c v) (c * 4) =
    rd32 raw (c * 4) / 2 ^ 28 * 2 ^ 28 + v % 2 ^ 28 := by
  have hlt := rd32_lt raw (c * 4)
  have hview : rd32 (raw.view (c * 4)) 0 = rd32 raw (c * 4) := rfl
  rw [FatType.putEntry, FatType.encodeEntry_fat32]
  simp only [FatType.entryByteOffset]
  rw [rd32_write_wr32, hview]
  omega

theorem rd32_putEntry_of_ne (raw : Image) {c e : ℕ} (v : ℕ) (h : e ≠ c) :
    rd32 (FatType.fat32.putEntry raw c v) (e * 4) = rd32 raw (e * 4) :=
  rd32_congr fun i hi ↦ FatType.fat32.putEntry_of_not_mem raw v
    (by simp only [FatType.entryByteOffset, FatType.span]; omega)

/-- **The entry path keeps the reserved bits of an updated entry and all of the others.** -/
theorem rd32_putEntries (raw : Image) (fat : ℕ → ℕ) (us : List FatUpdate) (e : ℕ) :
    rd32 (FatType.fat32.putEntries raw us) (e * 4) =
      if e ∈ us.map FatUpdate.cluster then
        rd32 raw (e * 4) / 2 ^ 28 * 2 ^ 28 + updateTable .fat32 fat us e
      else rd32 raw (e * 4) := by
  induction us generalizing raw fat with
  | nil => rfl
  | cons u us ih =>
    rw [FatType.putEntries_cons, updateTable_cons,
      ih _ (update fat u.cluster (u.value &&& FatType.fat32.mask)), List.map_cons]
    by_cases hu : e = u.cluster
    · have hself := rd32_putEntry_self raw e u.value
      have hmod : u.value % 2 ^ 28 < 2 ^ 28 := Nat.mod_lt _ (by norm_num)
      rw [← hu, hself, if_pos (List.mem_cons_self (a := e))]
      split_ifs with hmem
      · omega
      · rw [updateTable_of_not_mem _ _ hmem, update_self, FatType.and_mask]
        rfl
    · rw [rd32_putEntry_of_ne raw u.value hu]
      simp only [List.mem_cons, hu, false_or]

/-- **The bulk path replaces whole sectors.** -/
theorem rd32_bulkWrites {fs : Fat32} (h : fs.Layout) (hfat : ∀ i, fs.fat i < 2 ^ 28)
    {sectors : List ℕ} (hin : ∀ s ∈ sectors, s < fs.sectorsPerFat) (m : Image) {copy e : ℕ}
    (hcopy : copy ∈ fs.maintainedCopies) (he : e * 4 + 4 ≤ fs.fatBytes) :
    rd32 (applyAll m (bulkWrites fs sectors)) (fs.fatCopyOffset copy + e * 4) =
      if e * 4 / fs.bytesPerSector ∈ sectors then fs.fat e
      else rd32 m (fs.fatCopyOffset copy + e * 4) := by
  -- the four bytes of a word lie in one sector
  have hsector : ∀ k < 4, (e * 4 + k) / fs.bytesPerSector = e * 4 / fs.bytesPerSector := by
    intro k hk
    rcases h.bytesPerSector with hb | hb | hb | hb <;> rw [hb] <;> omega
  have hbyte : ∀ k < 4, applyAll m (bulkWrites fs sectors) (fs.fatCopyOffset copy + e * 4 + k) =
      if e * 4 / fs.bytesPerSector ∈ sectors then wordsByte fs.fat (e * 4 + k)
      else m (fs.fatCopyOffset copy + e * 4 + k) := by
    intro k hk
    rw [Nat.add_assoc, applyAll_bulkWrites h hin m hcopy (by omega), hsector k hk]
  split_ifs with hmem
  · have hword := rd32_of_wordsByte fs.fat e fun k hk ↦ (hbyte k hk).trans (if_pos hmem)
    rw [hword, Nat.mod_eq_of_lt ((hfat e).trans (by norm_num))]
  · exact rd32_congr fun k hk ↦ (hbyte k hk).trans (if_neg hmem)

/-- Two copies of a FAT32 table are the same bytes just if they are the same words. -/
theorem Fat32.Layout.bytes_eq_iff_words {fs : Fat32} (h : fs.Layout) (p q : Image) :
    (∀ i < fs.fatBytes, p i = q i) ↔
      ∀ e, e * 4 + 4 ≤ fs.fatBytes → rd32 p (e * 4) = rd32 q (e * 4) := by
  obtain ⟨k, hk⟩ := h.thirtyTwo_dvd
  have hdvd : 4 ∣ fs.fatBytes := by
    rw [Fat32.fatBytes, hk]
    exact ⟨fs.sectorsPerFat * (8 * k), by ring⟩
  constructor
  · intro heq e he
    exact rd32_congr fun i hi ↦ heq _ (by omega)
  · intro heq i hi
    have hbytes := rd32_eq_iff.1 (heq (i / 4) (by omega)) (i % 4) (by omega)
    rwa [Nat.div_add_mod' i 4] at hbytes

/-! ### When the paths agree -/

/-- In a touched sector the words of the two paths agree just if the sector was clean. -/
theorem word_eq_iff_clean {raw : Image} {fat : ℕ → ℕ} (us : List FatUpdate) (e : ℕ) :
    updateTable .fat32 fat us e = rd32 (FatType.fat32.putEntries raw us) (e * 4) ↔
      if e ∈ us.map FatUpdate.cluster then rd32 raw (e * 4) < 2 ^ 28
      else rd32 raw (e * 4) = fat e := by
  rw [rd32_putEntries raw fat us e]
  split_ifs with hmem
  · omega
  · rw [updateTable_of_not_mem _ _ hmem]
    exact eq_comm

/-- One copy, after either path. -/
theorem copy_eq_iff_clean {fs : Fat32} (h : fs.Loaded) (ht : fs.fatType = .fat32)
    {us : List FatUpdate} (hin : ∀ u ∈ us, u.cluster < fs.fatEntryCount) {copy : ℕ}
    (hcopy : copy ∈ fs.maintainedCopies) :
    (∀ i < fs.fatBytes, applyAll fs.dev.image (bulkWrites
        (fs.withFat (updateTable fs.fatType fs.fat us)) (touchedSectors fs us))
        (fs.fatCopyOffset copy + i) = fs.fatType.putEntries (fs.copyView copy) us i) ↔
      ∀ e, (∃ u ∈ us, e * 4 / fs.bytesPerSector = u.cluster * 4 / fs.bytesPerSector) →
        if e ∈ us.map FatUpdate.cluster then rd32 (fs.copyView copy) (e * 4) < 2 ^ 28
        else rd32 (fs.copyView copy) (e * 4) = fs.fat e := by
  have hfat : ∀ i, updateTable fs.fatType fs.fat us i < 2 ^ 28 := fun i ↦ by
    have := updateTable_lt fs.fatType h.fat_lt us i
    rwa [ht] at this ⊢
  have hword : ∀ e, e * 4 + 4 ≤ fs.fatBytes → rd32 ((applyAll fs.dev.image (bulkWrites
      (fs.withFat (updateTable fs.fatType fs.fat us)) (touchedSectors fs us))).view
        (fs.fatCopyOffset copy)) (e * 4) =
      if e * 4 / fs.bytesPerSector ∈ touchedSectors fs us then updateTable fs.fatType fs.fat us e
      else rd32 (fs.copyView copy) (e * 4) := fun e he ↦
    rd32_bulkWrites (h.toLayout.withFat _) hfat (fun s hs ↦ touched_lt h.toLayout ht hin hs)
      fs.dev.image hcopy he
  have hmem : ∀ e, e * 4 / fs.bytesPerSector ∈ touchedSectors fs us ↔
      ∃ u ∈ us, e * 4 / fs.bytesPerSector = u.cluster * 4 / fs.bytesPerSector := fun e ↦ by
    simp only [mem_touchedSectors, eq_comm]
  refine (h.toLayout.bytes_eq_iff_words ((applyAll fs.dev.image _).view _) _).trans ?_
  constructor
  · rintro heq e ⟨u, hu, hs⟩
    have he := h.toLayout.entry_in_copy (lt_fatEntryCount_of_sector h.toLayout ht (hin u hu) hs)
    simp only [ht, FatType.entryByteOffset, FatType.span] at he
    rw [← word_eq_iff_clean, ← ht, ← heq e he, hword e he, if_pos ((hmem e).2 ⟨u, hu, hs⟩)]
  · intro hclean e he
    rw [hword e he, ht]
    split_ifs with hs
    · exact (word_eq_iff_clean us e).2 (hclean e ((hmem e).1 hs))
    · -- an entry outside the touched sectors is not updated
      rw [rd32_putEntries _ fs.fat, if_neg]
      intro hup
      obtain ⟨u, hu, rfl⟩ := List.mem_map.1 hup
      exact hs ((hmem _).2 ⟨u, hu, rfl⟩)

/-- **The update paths agree just where the bulk path has nothing to lose.** -/
theorem samePaths_iff {fs : Fat32} (h : fs.Loaded) (hw : fs.dev.writable = true)
    {us : List FatUpdate} (hin : ∀ u ∈ us, u.cluster < fs.fatEntryCount) :
    SamePaths fs us ↔ fs.UsesEntryPath us ∨ fs.SectorsClean us := by
  obtain ⟨ws, hone, -, hbytes⟩ := writeEntries_spec h.toLayout hw hin
  by_cases hpath : fs.UsesEntryPath us
  · refine iff_of_true ⟨_, _, ?_, hone, rfl, fun _ _ _ _ ↦ rfl⟩ (.inl hpath)
    rw [fat32ApplyUpdates_of_entryPath hw hpath, hone]
  have ht : fs.fatType = .fat32 := by
    by_contra hne
    exact hpath (.inr (.inl hne))
  have hbulk := fat32ApplyUpdates_of_bulkPath h hw hin hpath
  constructor
  · rintro ⟨bulk, one, hb, ho, -, hsame⟩
    rw [hbulk, ok.injEq] at hb
    rw [hone, ok.injEq] at ho
    subst hb ho
    refine .inr fun copy hcopy ↦ (copy_eq_iff_clean h ht hin hcopy).1 fun i hi ↦ ?_
    exact (hsame copy hcopy i hi).trans (hbytes copy hcopy i hi)
  · rintro (hp | hclean)
    · exact absurd hp hpath
    · refine ⟨_, _, hbulk, hone, rfl, fun copy hcopy i hi ↦ ?_⟩
      refine ((copy_eq_iff_clean h ht hin hcopy).2 (hclean copy hcopy) i hi).trans ?_
      exact (hbytes copy hcopy i hi).symm

/-! ### A volume on which they differ -/

/-- A FAT32 volume with one FAT copy and `65525` clusters, empty but for one entry: entry `3` is
free and has its four reserved bits set. Addresses not listed hold zero. -/
def reservedBitsImage : Image := fun a ↦
  ([(12, 0x02), (13, 1), (14, 1), (16, 1), (32, 0xF6), (33, 0x01), (34, 0x01), (37, 0x02), (44, 2),
    (510, 0x55), (511, 0xAA), (516, 0xFF), (517, 0xFF), (518, 0xFF), (519, 0x0F),
    (527, 0xF0)].lookup a).getD 0

/-- The volume, opened for writing. -/
def reservedBitsDevice : Device where
  path := []
  writable := true
  sizeBytes := 66038 * 512
  image := reservedBitsImage
  log := []

/-- The volume, loaded. -/
def reservedBitsVolume : Fat32 :=
  (bootFields reservedBitsImage reservedBitsDevice false).withFat
    (decodeTable .fat32 (reservedBitsImage.view 512) 65536)

theorem fat32Load_reservedBitsDevice :
    fat32Load 2 reservedBitsDevice false = .ok reservedBitsVolume := by
  rfl

/-- **Ending one chain clears the reserved bits of its neighbour.** Marking cluster `4` as the end
of a chain rewrites the whole first FAT sector, so that the entry of cluster `3` comes back as
zero. -/
theorem bulk_path_clears_reserved_bits :
    fat32Load 2 reservedBitsDevice false = .ok reservedBitsVolume ∧
      ¬SamePaths reservedBitsVolume [⟨4, 0x0FFFFFFF⟩] := by
  refine ⟨fat32Load_reservedBitsDevice, ?_⟩
  rintro ⟨bulk, one, hb, ho, -, hsame⟩
  have h := (fat32Load_loaded fat32Load_reservedBitsDevice).1
  have hin :
      ∀ u ∈ [(⟨4, 0x0FFFFFFF⟩ : FatUpdate)], u.cluster < reservedBitsVolume.fatEntryCount := by
    decide
  obtain ⟨ws, hone, -, hbytes⟩ := writeEntries_spec h.toLayout rfl hin
  rw [hone, ok.injEq] at ho
  rw [fat32ApplyUpdates_of_bulkPath h rfl hin (by decide), ok.injEq] at hb
  subst hb ho
  -- the top byte of entry 3
  have hbyte := (hsame 0 (by decide) 15 (by decide)).trans (hbytes 0 (by decide) 15 (by decide))
  revert hbyte
  decide

/-- The equivalence at this volume: the entry of cluster `3` is what makes the sector unclean. -/
theorem samePaths_reservedBitsVolume :
    SamePaths reservedBitsVolume [⟨4, 0x0FFFFFFF⟩] ↔
      reservedBitsVolume.UsesEntryPath [⟨4, 0x0FFFFFFF⟩] ∨
        reservedBitsVolume.SectorsClean [⟨4, 0x0FFFFFFF⟩] :=
  samePaths_iff (fat32Load_loaded fat32Load_reservedBitsDevice).1 rfl (by decide)

end LinuxDefragger.Fat
