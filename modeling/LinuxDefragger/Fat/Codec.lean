import LinuxDefragger.Fat.Linkable

/-!
# The table on the medium and the table in memory

`fat32WriteEntry` changes one entry of the FAT in every maintained copy and keeps the table in
memory in step. Both halves are invariants of whole runs: from a loaded volume, after any number of
writes, `Fat32.Loaded` still says that the table in memory is the decoded active FAT, and one more
write puts its value into the entry it names and into no other, at all three widths.
-/

open Storage

namespace LinuxDefragger.Fat

section Entries

variable {fs : Fat32} {ws : List Write} {us : List FatUpdate}

/-- An entry of a copy that was put entry by entry decodes as the raw table with the entries put. -/
theorem decodeRaw_copyView (h : fs.Layout) {raw : Image} {fat : ℕ → ℕ} {copy i : ℕ}
    (hbytes : ∀ j < fs.fatBytes, applyAll fs.dev.image ws (fs.fatCopyOffset copy + j) = raw j)
    (hi : i < fs.fatEntryCount) :
    fs.fatType.decodeRaw ((fs.after ws fat).copyView copy) i = fs.fatType.decodeRaw raw i := by
  have hin := h.entry_in_copy hi
  exact fs.fatType.decodeRaw_congr fun k hk ↦ hbytes _ (by omega)

/-- **The table in memory follows the active copy**: where the entries were put into that copy and
into the table, the table is the decoded copy again. -/
theorem Fat32.Loaded.after_putEntries (h : fs.Loaded) (hin : ∀ u ∈ us, u.cluster < fs.fatEntryCount)
    (hbytes : ∀ j < fs.fatBytes, applyAll fs.dev.image ws (fs.fatCopyOffset fs.activeFat + j) =
      fs.fatType.putEntries (fs.copyView fs.activeFat) us j) :
    (fs.after ws (updateTable fs.fatType fs.fat us)).Loaded := by
  refine { h.toLayout.after ws _ with fat := funext fun i ↦ ?_ }
  show updateTable fs.fatType fs.fat us i = decodeTable fs.fatType
    ((fs.after ws (updateTable fs.fatType fs.fat us)).copyView fs.activeFat) fs.fatEntryCount i
  have hold : fs.fat i = decodeTable fs.fatType (fs.copyView fs.activeFat) fs.fatEntryCount i :=
    congrFun h.fat i
  rw [decodeTable] at hold ⊢
  by_cases hi : i < fs.fatEntryCount
  · rw [if_pos hi] at hold ⊢
    rw [decodeRaw_copyView h.toLayout hbytes hi]
    exact (fs.fatType.decodeRaw_putEntries _ fs.fat us fun _ ↦ hold.symm).symm
  · -- no update reaches an index outside the table
    rw [if_neg hi] at hold ⊢
    rw [updateTable_of_not_mem, hold]
    rintro hmem
    obtain ⟨u, hu, rfl⟩ := List.mem_map.1 hmem
    exact hi (hin u hu)

/-- **A run of single writes** inside the table returns, and leaves a loaded volume. -/
theorem Fat32.Loaded.writeEntries (h : fs.Loaded) (hw : fs.dev.writable = true)
    (hin : ∀ u ∈ us, u.cluster < fs.fatEntryCount) :
    ∃ ws, writeEntries fs us = .ok (fs.after ws (updateTable fs.fatType fs.fat us)) ∧
      (fs.after ws (updateTable fs.fatType fs.fat us)).Loaded := by
  obtain ⟨ws, hrun, -, hbytes⟩ := writeEntries_spec h.toLayout hw hin
  exact ⟨ws, hrun, h.after_putEntries hin (hbytes _ h.toLayout.activeFat_mem)⟩

/-- A write outside the table dies, so a run that returned made none. -/
theorem lt_of_writeEntries {fs' : Fat32} (hrun : Fat.writeEntries fs us = .ok fs') :
    ∀ u ∈ us, u.cluster < fs.fatEntryCount := by
  induction us generalizing fs with
  | nil => simp
  | cons u us ih =>
    rw [Fat.writeEntries, List.foldlM_cons, bind_eq_ok] at hrun
    obtain ⟨fs₁, hstep, hrun⟩ := hrun
    rw [fat32WriteEntry] at hstep
    simp only [dieIf_bind_eq_ok] at hstep
    obtain ⟨-, hlt, hstep⟩ := hstep
    obtain ⟨dev, -, hfs₁⟩ := bind_eq_ok.1 hstep
    have hcount : fs₁.fatEntryCount = fs.fatEntryCount := by rw [← Except.ok.inj hfs₁]
    rintro w (_ | ⟨_, hmem⟩)
    · exact not_le.1 hlt
    · exact hcount ▸ ih hrun w hmem

/-- **One write**: in every maintained copy the entry decodes to the value, cut to the width of the
table, and every other entry decodes as before. -/
theorem fat32WriteEntry_decode (h : fs.Layout) (hw : fs.dev.writable = true) {c : ℕ}
    (hc : c < fs.fatEntryCount) (v : ℕ) : ∃ fs', fat32WriteEntry fs c v = .ok fs' ∧
      ∀ copy ∈ fs.maintainedCopies,
        fs.fatType.decodeRaw (fs'.copyView copy) c = v &&& fs.fatType.mask ∧
        ∀ i < fs.fatEntryCount, i ≠ c →
          fs.fatType.decodeRaw (fs'.copyView copy) i =
            fs.fatType.decodeRaw (fs.copyView copy) i := by
  refine ⟨_, fat32WriteEntry_eq_ok h hc v hw, fun copy hcopy ↦ ?_⟩
  have hbytes := fun j hj ↦ applyAll_entryWrites (i := j) h hc v fs.dev.image hcopy hj
  refine ⟨?_, fun i hi hne ↦ ?_⟩
  · rw [decodeRaw_copyView h hbytes hc, fs.fatType.decodeRaw_putEntry_self]
  · rw [decodeRaw_copyView h hbytes hi, fs.fatType.decodeRaw_putEntry_of_ne _ _ hne]
    rfl

end Entries

/-- **The codec of table entries.** On a volume that `fat32_load` accepts, every index below
`fat_entry_count` decodes without leaving the table, whatever the table holds; if the device may be
written, after any sequence of `fat32_write_entry` the table in memory is the decoded active FAT;
and one more write of `v` to `c` makes `c` decode to `v`, masked to the entry width, in every
maintained copy, while every other entry of those copies decodes as before. -/
theorem entry_codec {fuel : ℕ} {dev : Device} {allow : Bool} {fs : Fat32}
    (hload : fat32Load fuel dev allow = .ok fs) :
    (∀ raw, ∀ i < fs.fatEntryCount,
      fs.fatType.entryByteOffset i + fs.fatType.span ≤ fs.fatBytes ∧
      fs.fatType.decodeFatEntry raw fs.fatBytes i = .ok (fs.fatType.decodeRaw raw i)) ∧
    (dev.writable = true → ∀ us fs', writeEntries fs us = .ok fs' →
      fs'.fat = decodeTable fs.fatType (fs'.copyView fs.activeFat) fs.fatEntryCount ∧
      ∀ c < fs.fatEntryCount, ∀ v, ∃ fs'', fat32WriteEntry fs' c v = .ok fs'' ∧
        ∀ copy ∈ fs.maintainedCopies,
          fs.fatType.decodeRaw (fs''.copyView copy) c = v &&& fs.fatType.mask ∧
          ∀ i < fs.fatEntryCount, i ≠ c → fs.fatType.decodeRaw (fs''.copyView copy) i =
            fs.fatType.decodeRaw (fs'.copyView copy) i) := by
  obtain ⟨hloaded, hdev, -, -⟩ := fat32Load_loaded hload
  refine ⟨fun raw i hi ↦ ⟨hloaded.entry_in_copy hi, ?_⟩, fun hw us fs' hrun ↦ ?_⟩
  · exact fs.fatType.decodeFatEntry_eq_ok raw (lt_of_lt_of_le hi hloaded.fatEntryCount_le)
  · have hw' : fs.dev.writable = true := hdev ▸ hw
    obtain ⟨ws, hws, hloaded'⟩ := hloaded.writeEntries hw' (lt_of_writeEntries hrun)
    obtain rfl := Except.ok.inj (hrun.symm.trans hws)
    exact ⟨hloaded'.fat, fun c hc v ↦ fat32WriteEntry_decode hloaded'.toLayout hw' hc v⟩

/-- The FAT12 volume whose clusters reach the reserved values, as an instance. -/
theorem entry_codec_fullFat12Volume :
    fullFat12Device.writable = true ∧
    ∃ fs', writeEntries fullFat12Volume [⟨2, 3⟩, ⟨3, 0x1FFF⟩] = .ok fs' ∧
      fs'.fat = decodeTable .fat12 (fs'.copyView 0) fullFat12Volume.fatEntryCount := by
  have hload : fat32Load 2 fullFat12Device false = .ok fullFat12Volume := fat32Load_fullFat12Device
  have hin :
      ∀ u ∈ [(⟨2, 3⟩ : FatUpdate), ⟨3, 0x1FFF⟩], u.cluster < fullFat12Volume.fatEntryCount := by
    decide +kernel
  obtain ⟨ws, hws, -⟩ := (fat32Load_loaded hload).1.writeEntries rfl hin
  exact ⟨rfl, _, hws, ((entry_codec hload).2 rfl _ _ hws).1⟩

end LinuxDefragger.Fat
