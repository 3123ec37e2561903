import LinuxDefragger.Ntfs.Plan
import LinuxDefragger.Ntfs.Rewrite

/-!
# Candidates

What `loadCandidate` guarantees about the stream it returns, and what can be said about the record
that a move writes in its place before looking at the room for the new mapping pairs.
-/

open Except List Storage

namespace LinuxDefragger.Ntfs

/-! ### Loaded candidates -/

/-- What is known about a candidate that was loaded from a volume. -/
structure Loaded (sectorSize : ℕ) (candidate : Candidate) : Prop where
  sector : 256 ≤ sectorSize
  size : 512 ≤ candidate.recordFixed.length
  signature : slice candidate.recordFixed 0 4 = fileSignature
  count : rd16 (bytesImage candidate.recordFixed) 6 = candidate.recordFixed.length / sectorSize + 1
  inside : rd16 (bytesImage candidate.recordFixed) 4 +
    rd16 (bytesImage candidate.recordFixed) 6 * 2 ≤ candidate.recordFixed.length
  decodes : Decodes (bytesImage candidate.recordFixed) candidate.attr.offset candidate.attr
  within : candidate.attr.offset + candidate.attr.length ≤ candidate.recordFixed.length
  kind : candidate.attr.atype = 0x80 ∨ candidate.attr.atype = 0xA0
  nonresident : candidate.attr.nonresident = true
  lowestVcn : candidate.attr.lowestVcn = 0
  stored : ∀ run ∈ candidate.attr.runs, run.lcn ≠ none

theorem selectMovableAttribute_eq_some {number : ℕ} {fixed : List UInt8} {attrs : List Attribute}
    {attr : Attribute} (h : selectMovableAttribute number fixed attrs = .ok (some attr)) :
    firstUserRecord ≤ number ∧ attr ∈ attrs ∧ (attr.atype = 0x80 ∨ attr.atype = 0xA0) ∧
      attr.nonresident = true ∧ attr.lowestVcn = 0 ∧ ∀ run ∈ attr.runs, run.lcn ≠ none := by
  rw [selectMovableAttribute] at h
  obtain ⟨flags, -, h⟩ := bind_eq_ok.1 h
  split at h
  · cases h
  rename_i hnumber
  push Not at hnumber
  obtain ⟨base, -, h⟩ := bind_eq_ok.1 h
  split at h
  · cases h
  split at h
  · cases h
  set candidates := if flags &&& 0x0002 ≠ 0 then
      attrs.filter fun attr ↦ attr.atype = 0xA0 ∧ attr.nonresident = true
    else attrs.filter isUnnamedData with hcandidates
  have hkind : ∀ a ∈ candidates, a ∈ attrs ∧ (a.atype = 0x80 ∨ a.atype = 0xA0) ∧
      a.nonresident = true := by
    intro a ha
    rw [hcandidates] at ha
    split_ifs at ha
    · obtain ⟨hmem, hkind⟩ := mem_filter.1 ha
      obtain ⟨htype, hnonresident⟩ := of_decide_eq_true hkind
      exact ⟨hmem, .inr htype, hnonresident⟩
    · obtain ⟨hmem, hkind⟩ := mem_filter.1 ha
      obtain ⟨htype, -, hnonresident⟩ := of_decide_eq_true hkind
      exact ⟨hmem, .inl htype, hnonresident⟩
  clear_value candidates
  dsimp only at h
  split at h
  · split_ifs at h with hflags hsparse hempty
    · cases h
    · cases h
    · cases h
    obtain rfl := Option.some.inj (ok.inj h)
    obtain ⟨hmem, htype, hnonresident⟩ := hkind _ (mem_singleton_self _)
    push Not at hflags
    exact ⟨hnumber.1, hmem, htype, hnonresident, hflags.1, fun run hrun hnone ↦
      hsparse (any_eq_true.2 ⟨run, hrun, decide_eq_true hnone⟩)⟩
  · cases h

/-- What a loaded candidate was read from. -/
theorem loadCandidate_eq_ok {disk : NtfsDisk} {layout : NtfsLayout} {info : StreamInfo}
    {candidate : Candidate} (h : loadCandidate disk layout info = .ok candidate) :
    candidate.recordNumber = info.recordNumber ∧ candidate.attr.offset = info.attributeOffset ∧
      slice candidate.recordFixed 0 4 = fileSignature ∧ ∃ attrs,
        readStream disk layout.volume layout.mftRuns
          (info.recordNumber * layout.volume.mftRecordSize) layout.volume.mftRecordSize =
            .ok candidate.recordRaw ∧
        applyFixups candidate.recordRaw layout.volume.bytesPerSector = .ok candidate.recordFixed ∧
        attributeList candidate.recordFixed = .ok attrs ∧
        selectMovableAttribute info.recordNumber candidate.recordFixed attrs =
          .ok (some candidate.attr) := by
  rw [loadCandidate] at h
  obtain ⟨⟨recordOffset, raw, fixed⟩, hread, h⟩ := bind_eq_ok.1 h
  obtain ⟨flags, -, h⟩ := bind_eq_ok.1 h
  obtain ⟨hsignature, h⟩ := raiseIf_bind_eq_ok.1 h
  obtain ⟨attrs, hattrs, h⟩ := bind_eq_ok.1 h
  obtain ⟨selected, hselected, h⟩ := bind_eq_ok.1 h
  cases selected with
  | none => cases h
  | some attr =>
    obtain ⟨hoffset, h⟩ := raiseIf_bind_eq_ok.1 h
    obtain rfl := ok.inj h
    push Not at hsignature
    obtain ⟨hraw, hfixed⟩ := readMftRecord_eq_ok hread
    exact ⟨rfl, not_not.1 hoffset, hsignature.1, attrs, hraw, hfixed, hattrs, hselected⟩

theorem loaded_of_loadCandidate {disk : NtfsDisk} {layout : NtfsLayout} {info : StreamInfo}
    {candidate : Candidate} (hbps : 256 ≤ layout.volume.bytesPerSector)
    (hrecord : 512 ≤ layout.volume.mftRecordSize)
    (h : loadCandidate disk layout info = .ok candidate) :
    Loaded layout.volume.bytesPerSector candidate ∧
      candidate.recordFixed.length = layout.volume.mftRecordSize := by
  obtain ⟨-, -, hsignature, attrs, hraw, hfixed, hattrs, hselected⟩ := loadCandidate_eq_ok h
  obtain ⟨hlen, hsame, hcount, hinside⟩ := applyFixups_eq_ok (by omega) hfixed
  rw [length_of_readStream hraw] at hlen hcount hinside
  obtain ⟨-, hmem, hkind, hnonresident, hlowest, hstored⟩ :=
    selectMovableAttribute_eq_some hselected
  obtain ⟨-, hparses⟩ := attributeList_eq_ok.1 hattrs
  obtain ⟨-, hend, hdecodes⟩ := hparses.bounds hmem
  have hoff : rd16 (bytesImage candidate.recordFixed) 4 = _ :=
    rd16_congr (hsame 4 (by omega)) (hsame 5 (by omega))
  have hcnt : rd16 (bytesImage candidate.recordFixed) 6 = _ :=
    rd16_congr (hsame 6 (by omega)) (hsame 7 (by omega))
  refine ⟨⟨hbps, hlen.symm ▸ hrecord, hsignature, ?_, ?_, hdecodes, hend.trans (min_le_left _ _),
    hkind, hnonresident, hlowest, hstored⟩, hlen⟩
  · rw [hcnt, hcount, hlen]
  · rw [hoff, hcnt, hlen]
    exact hinside

/-! ### Rewriting the record -/

section Update

variable {sectorSize : ℕ} {candidate : Candidate}

section

variable (h : Loaded sectorSize candidate)
include h

/-- The attribute of a candidate does not start in the signature of its record. -/
theorem Loaded.four_le_offset : 4 ≤ candidate.attr.offset := by
  by_contra hlt
  have hsize := h.size
  have hsignature := h.signature
  rw [slice_eq_read (n := 4) rfl (by omega)] at hsignature
  have hbyte : bytesImage candidate.recordFixed candidate.attr.offset ∈ fileSignature := by
    rw [← hsignature]
    exact mem_map.2 ⟨candidate.attr.offset, mem_range.2 (by omega), by rw [Nat.zero_add]⟩
  have hlow : (bytesImage candidate.recordFixed candidate.attr.offset).toNat =
      candidate.attr.atype % 256 := by
    have := (bytesImage candidate.recordFixed candidate.attr.offset).toNat_lt
    rw [← h.decodes.atype]
    simp only [rd32, le32, le16]
    omega
  have hletters : ∀ b ∈ fileSignature, b.toNat ≠ 0x80 ∧ b.toNat ≠ 0xA0 := by
    decide +kernel
  have := hletters _ hbyte
  rcases h.kind with hkind | hkind <;> rw [hkind] at hlow <;> omega

/-- All clusters of a candidate are stored. -/
theorem Loaded.clusters_eq :
    physicalClusters candidate.attr.runs = runsLength candidate.attr.runs := by
  rw [physicalClusters, filter_eq_self.2 fun run hrun ↦ decide_eq_true (h.stored run hrun)]

/-- The growth of a loaded candidate's attribute goes through, and leaves the header alone. -/
theorem Loaded.growAttribute {inUse growth : ℕ}
    (hend : candidate.attr.offset + candidate.attr.length ≤ inUse)
    (hfits : inUse + growth ≤ candidate.recordFixed.length)
    (hsmall : inUse + growth < 4294967296) :
    ∃ grown, growAttribute candidate.recordFixed candidate.attr inUse growth = .ok grown ∧
      grown.length = candidate.recordFixed.length ∧
      ∀ a < 8, bytesImage grown a = bytesImage candidate.recordFixed a := by
  have hoffset := h.four_le_offset
  have hlong := h.decodes.le_length
  have hsize := h.size
  by_cases hzero : growth = 0
  · exact ⟨candidate.recordFixed, by rw [Ntfs.growAttribute, if_neg (not_not.2 hzero)]; rfl, rfl,
      fun _ _ ↦ rfl⟩
  · obtain ⟨grown, hgrown, hlen, himage⟩ := growAttribute_eq_ok (by omega) hend hfits (by omega)
      hsmall hzero
    refine ⟨grown, hgrown, hlen, fun a ha ↦ ?_⟩
    rw [himage, grownImage, Image.write_apply_of_not_mem (by omega),
      Image.write_apply_of_not_mem (by omega), Image.write_apply_of_not_mem (by omega),
      Image.write_apply_of_not_mem (by omega)]

/-- Fixups can be prepared for what was made of a loaded record, if its first eight bytes are
left. -/
theorem Loaded.prepareFixups {grown new : List UInt8} {a b : ℕ}
    (hlen : grown.length = candidate.recordFixed.length)
    (hsame : ∀ i < 8, bytesImage grown i = bytesImage candidate.recordFixed i) (ha : 8 ≤ a)
    (hab : a + new.length = b) (hb : b ≤ candidate.recordFixed.length) :
    ∃ record, prepareFixups (putSlice grown a b new) sectorSize = .ok record := by
  have hword {o : ℕ} (ho : o + 2 ≤ 8) :
      rd16 (bytesImage (putSlice grown a b new)) o = rd16 (bytesImage candidate.recordFixed) o := by
    rw [bytesImage_putSlice hab (by omega)]
    refine rd16_congr ?_ ?_ <;>
      rw [Image.write_apply_of_not_mem (by omega), hsame _ (by omega)]
  have hlength : (putSlice grown a b new).length = candidate.recordFixed.length := by
    rw [length_putSlice hab (by omega), hlen]
  have hsize := h.size
  refine prepareFixups_eq_ok (by omega) ?_ ?_
  · rw [hword (by omega), h.count, hlength]
  · rw [hword (by omega), hword (by omega), hlength]
    exact h.inside

/-- The rewritten record has the size of the old one. -/
theorem Loaded.length_updatedRecordRuns {newRuns : List Run}
    {record : List UInt8} (hrecord : updatedRecordRuns candidate newRuns sectorSize = .ok record) :
    record.length = candidate.recordFixed.length := by
  have hsector := h.sector
  have hlt := (h.decodes.mapped h.nonresident).runOffset_lt
  rw [updatedRecordRuns] at hrecord
  obtain ⟨-, hrecord⟩ := raiseIf_bind_eq_ok.1 hrecord
  obtain ⟨encoded, -, hrecord⟩ := bind_eq_ok.1 hrecord
  obtain ⟨inUse, hinUse, hrecord⟩ := bind_eq_ok.1 hrecord
  obtain ⟨allocated, hallocated, hrecord⟩ := bind_eq_ok.1 hrecord
  obtain ⟨haccounting, hrecord⟩ := raiseIf_bind_eq_ok.1 hrecord
  obtain ⟨hfits, hrecord⟩ := raiseIf_bind_eq_ok.1 hrecord
  obtain ⟨grown, hgrown, hrecord⟩ := bind_eq_ok.1 hrecord
  have hallocatedLt : allocated < 4294967296 := (u32_eq_ok.1 hallocated).2 ▸ rd32_lt _ _
  obtain ⟨grown', hgrown', hlen, -⟩ := @Loaded.growAttribute _ _ h inUse _ (by omega)
    (show inUse +
      ((candidate.attr.runOffset + encoded.length + 7) / 8 * 8 - candidate.attr.length) ≤
      _ by omega) (by omega)
  obtain rfl := ok.inj (hgrown.symm.trans hgrown')
  rw [length_prepareFixups (by omega) hrecord, length_putSlice, hlen]
  · rw [length_append, length_replicate]
    omega
  · omega

end

end Update

end LinuxDefragger.Ntfs
