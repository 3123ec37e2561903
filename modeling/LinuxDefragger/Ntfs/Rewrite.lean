import LinuxDefragger.Ntfs.Attributes
import LinuxDefragger.Ntfs.UpdateSequence

/-!
# Rewriting the mapping pairs of an attribute

`updatedRecordRuns` makes room behind the selected attribute, writes the new mapping pairs over the
end of the attribute and prepares the update sequence. `Rewrites` says which bytes of the old record
stand where in the new one; from it the attributes of the new record are those of the old one, the
selected one with its new runs and the later ones moved up. The three things that have to be asked
of a record for this (`Rewritable`) are none that the engine checks.
-/

open Except List Storage

namespace LinuxDefragger.Ntfs

/-- The attribute `a` of a record after `attr` has got `runs` and grown by `growth` bytes. -/
def Attribute.rewritten (attr : Attribute) (growth : ℕ) (runs : List Run) (a : Attribute) :
    Attribute :=
  if a.offset < attr.offset then a
  else if a.offset = attr.offset then { a with length := a.length + growth, runs }
  else { a with offset := a.offset + growth }

/-- The bytes of an attribute. -/
def attributeBytes (record : List UInt8) (a : Attribute) : List UInt8 :=
  slice record a.offset (a.offset + a.length)

/-- How the bytes `m` of a record reappear in `m'` when `attr` gets `runs` and grows by `growth`
bytes; attributes start at `first` and end at `inUse`. -/
structure Rewrites (m m' : Image) (attr : Attribute) (first growth inUse : ℕ) (runs : List Run) :
    Prop where
  before : ∀ i, first ≤ i → i < attr.offset + 4 → m' i = m i
  length : rd32 m' (attr.offset + 4) = attr.length + growth
  head : ∀ i, attr.offset + 8 ≤ i → i < attr.offset + attr.runOffset → m' i = m i
  pairs : decodeRunlist (m'.read (attr.offset + attr.runOffset)
    (attr.length + growth - attr.runOffset)) = .ok runs
  vcns : (runsLength runs : ℤ) = attr.highestVcn - attr.lowestVcn + 1
  after : ∀ i, attr.offset + attr.length ≤ i → i < inUse → m' (i + growth) = m i

/-- The name of an attribute, if it has one, ends before its mapping pairs. -/
def NameFirst (m : Image) (attr : Attribute) : Prop :=
  m (attr.offset + 9) ≠ 0 →
    rd16 m (attr.offset + 10) + (m (attr.offset + 9)).toNat * 2 ≤ attr.runOffset

section Parse

variable {m m' : Image} {attr a : Attribute} {attrs : List Attribute}
  {first growth inUse pos : ℕ} {runs : List Run}

section

variable (h : Rewrites m m' attr first growth inUse runs)
include h

/-- The selected attribute keeps everything but its length and its runs. -/
theorem Rewrites.decodes_self (hfirst : first ≤ attr.offset) (hattr : Decodes m attr.offset attr)
    (hnonresident : attr.nonresident = true) (hname : NameFirst m attr) :
    Decodes m' attr.offset { attr with length := attr.length + growth, runs } := by
  have hmapped := hattr.mapped hnonresident
  have hlong := hmapped.le_length
  have hlow := hmapped.le_runOffset
  have hlt := hmapped.runOffset_lt
  have hbyte {k : ℕ} (hk : 8 ≤ k) (hk' : k < attr.runOffset) :
      m' (attr.offset + k) = m (attr.offset + k) := h.head _ (by omega) (by omega)
  have hword {k : ℕ} (hk : 8 ≤ k) (hk' : k + 2 ≤ attr.runOffset) :
      rd16 m' (attr.offset + k) = rd16 m (attr.offset + k) :=
    rd16_congr (hbyte hk (by omega)) (hbyte (k := k + 1) (by omega) (by omega))
  have hdword {k : ℕ} (hk : 8 ≤ k) (hk' : k + 4 ≤ attr.runOffset) :
      rd32 m' (attr.offset + k) = rd32 m (attr.offset + k) :=
    rd32_congr fun i hi ↦ h.head _ (by omega) (by omega)
  have hquad {k : ℕ} (hk : 8 ≤ k) (hk' : k + 8 ≤ attr.runOffset) :
      rd64 m' (attr.offset + k) = rd64 m (attr.offset + k) := by
    rw [rd64, rd64, hdword hk (by omega), Nat.add_assoc, hdword (by omega) (by omega)]
  refine ⟨rfl, ?_, hattr.ne_marker, h.length, ?_, ?_, ?_, ?_, ?_, fun hres ↦ ?_, fun _ ↦ ?_⟩
  · exact (rd32_congr fun i hi ↦ h.before _ (by omega) (by omega)).trans hattr.atype
  · dsimp only
    omega
  · rw [hbyte le_rfl (by omega)]
    exact hattr.nonresident
  · rw [hword (by omega) (by omega), hattr.flags]
  · rw [hword (by omega) (by omega), hbyte (k := 9) (by omega) (by omega)]
    refine Eq.trans ?_ hattr.name
    by_cases hzero : m (attr.offset + 9) = 0
    · rw [hzero]
      rfl
    · have hends := hname hzero
      have hstarts := hattr.name_inside hzero
      exact Image.read_congr fun i hi ↦ h.head _ (by omega) (by omega)
  · rw [hword (by omega) (by omega), hbyte (k := 9) (by omega) (by omega)]
    exact fun hzero ↦ ⟨(hattr.name_inside hzero).1, by
      have := hname hzero
      dsimp only
      omega⟩
  · rw [hnonresident] at hres
    cases hres
  · exact ⟨by dsimp only; omega, (hquad (by omega) (by omega)).trans hmapped.lowestVcn,
      (hquad (by omega) (by omega)).trans hmapped.highestVcn,
      (hword (by omega) (by omega)).trans hmapped.runOffset, hlow, by dsimp only; omega, h.pairs,
      h.vcns, (hquad (by omega) (by omega)).trans hmapped.dataSize⟩

/-- What follows the selected attribute moves up. -/
theorem Rewrites.parses_after (hp : Parses m inUse pos attrs)
    (hpos : attr.offset + attr.length ≤ pos)
    (hattr : 0 < attr.length) :
    Parses m' (inUse + growth) (pos + growth) (attrs.map (attr.rewritten growth runs)) := by
  induction hp with
  | stop hstop => exact .stop (by omega)
  | marker hstart hm =>
    refine .marker (by omega) ((rd32_congr fun i hi ↦ ?_).trans hm)
    rw [Nat.add_right_comm]
    exact h.after _ (by omega) (by omega)
  | @cons pos a attrs hstart ha hend hrest ih =>
    have hoffset := ha.offset
    have hrewritten : attr.rewritten growth runs a = { a with offset := pos + growth } := by
      rw [Attribute.rewritten, if_neg (by omega), if_neg (by omega), hoffset]
    rw [map_cons, hrewritten]
    refine .cons (by omega) (ha.congr fun i hi ↦ ?_) (by dsimp only; omega) ?_
    · rw [Nat.add_right_comm]
      exact h.after _ (by omega) (by omega)
    · have := ih (by omega)
      rwa [Nat.add_right_comm] at this

/-- **The attributes of the new record**: those of the old one, rewritten. -/
theorem Rewrites.parses (hnonresident : attr.nonresident = true) (hname : NameFirst m attr)
    (hp : Parses m inUse pos attrs) (hfirst : first ≤ pos) (hmem : attr ∈ attrs) :
    Parses m' (inUse + growth) pos (attrs.map (attr.rewritten growth runs)) := by
  induction hp with
  | stop | marker => cases hmem
  | @cons pos a attrs hstart ha hend hrest ih =>
    have hoffset := ha.offset
    have hlong := ha.le_length
    rw [map_cons]
    rcases mem_cons.1 hmem with rfl | hmem'
    · -- the selected attribute itself
      have hrewritten : attr.rewritten growth runs attr =
          { attr with length := attr.length + growth, runs } := by
        rw [Attribute.rewritten, if_neg (by omega), if_pos rfl]
      subst hoffset
      rw [hrewritten]
      refine .cons (by omega) (h.decodes_self hfirst ha hnonresident hname) ?_ ?_
      · dsimp only
        omega
      · have := h.parses_after hrest le_rfl (by omega)
        rwa [Nat.add_assoc] at this
    · -- an attribute in front of it
      have hbehind := (hrest.bounds hmem').1
      have hrewritten : attr.rewritten growth runs a = a := by
        rw [Attribute.rewritten, if_pos (by omega)]
      rw [hrewritten]
      refine .cons (by omega) ?_ (by omega) (ih (by omega) hmem')
      have := @Decodes.congr m m' pos pos a ha fun i hi ↦ h.before (pos + i) (by omega) (by omega)
      rwa [← hoffset] at this ⊢

end

end Parse

/-! ### The bytes that are written -/

/-- The growth of an attribute that gets the encoded mapping pairs. -/
def mappingGrowth (attr : Attribute) (encoded : List UInt8) : ℕ :=
  (attr.runOffset + encoded.length + 7) / 8 * 8 - attr.length

section Write

variable {fixed grown : List UInt8} {attr : Attribute} {inUse growth : ℕ}

/-- The bytes of a record with room for `growth` more bytes behind an attribute. -/
def grownImage (m : Image) (attr : Attribute) (inUse growth : ℕ) : Image :=
  (((m.write (attr.offset + attr.length + growth)
    (m.read (attr.offset + attr.length) (inUse - (attr.offset + attr.length)))).write
      (attr.offset + attr.length) (List.replicate growth 0)).write
        (attr.offset + 4) (wr32 (attr.length + growth))).write 24 (wr32 (inUse + growth))

/-- **What `growAttribute` does** to a record that has the room. -/
theorem growAttribute_eq_ok (hlong : 8 ≤ attr.length) (hend : attr.offset + attr.length ≤ inUse)
    (hfits : inUse + growth ≤ fixed.length) (hsize : 28 ≤ fixed.length)
    (hsmall : inUse + growth < 4294967296) (hgrowth : growth ≠ 0) :
    ∃ grown, growAttribute fixed attr inUse growth = .ok grown ∧ grown.length = fixed.length ∧
      bytesImage grown = grownImage (bytesImage fixed) attr inUse growth := by
  have htail : slice fixed (attr.offset + attr.length) inUse =
      (bytesImage fixed).read (attr.offset + attr.length) (inUse - (attr.offset + attr.length)) :=
    slice_eq_read (by omega) (by omega)
  rw [growAttribute, if_pos hgrowth]
  dsimp only
  rw [htail]
  set tail := (bytesImage fixed).read (attr.offset + attr.length)
    (inUse - (attr.offset + attr.length)) with htail'
  have htailLen : tail.length = inUse - (attr.offset + attr.length) := Image.read_length ..
  have hzeroLen : (replicate growth (0 : UInt8)).length = growth := length_replicate ..
  set moved := putSlice fixed (attr.offset + attr.length + growth) (inUse + growth) tail
  have hmovedLen : moved.length = fixed.length := length_putSlice (by omega) hfits
  set cleared := putSlice moved (attr.offset + attr.length)
    (attr.offset + attr.length + growth) (replicate growth 0)
  have hclearedLen : cleared.length = fixed.length := by
    rw [length_putSlice (by omega) (by omega), hmovedLen]
  set measured := putSlice cleared (attr.offset + 4) (attr.offset + 4 + 4)
    (wr32 (attr.length + growth))
  have hmeasuredLen : measured.length = fixed.length := by
    rw [length_putSlice (by rw [wr32_length]) (by omega), hclearedLen]
  have hlength : packU32 cleared (attr.offset + 4) (attr.length + growth) = .ok measured :=
    packU32_eq_ok.2 ⟨⟨by omega, by omega⟩, rfl⟩
  refine ⟨putSlice measured 24 (24 + 4) (wr32 (inUse + growth)), ?_, ?_, ?_⟩
  · rw [hlength, ok_bind]
    exact packU32_eq_ok.2 ⟨⟨by omega, hsmall⟩, rfl⟩
  · rw [length_putSlice (by rw [wr32_length]) (by omega), hmeasuredLen]
  · rw [bytesImage_putSlice (by rw [wr32_length]) (by omega),
      bytesImage_putSlice (by rw [wr32_length]) (by omega),
      bytesImage_putSlice (by omega) (by omega), bytesImage_putSlice (by omega) hfits, grownImage]

/-- In a grown record the length fields and the tail have changed, all else stays. -/
structure Grows (m m' : Image) (attr : Attribute) (inUse growth : ℕ) : Prop where
  low : ∀ i, i < 24 ∨ 28 ≤ i → i < attr.offset + 4 → m' i = m i
  used : rd32 m' 24 = inUse + growth
  length : rd32 m' (attr.offset + 4) = attr.length + growth
  head : ∀ i, attr.offset + 8 ≤ i → i < attr.offset + attr.length → m' i = m i
  after : ∀ i, attr.offset + attr.length ≤ i → i < inUse → m' (i + growth) = m i

theorem grows_grownImage {m : Image} (hoffset : 28 ≤ attr.offset) (hlong : 8 ≤ attr.length)
    (hend : attr.offset + attr.length ≤ inUse) (hsmall : inUse + growth < 4294967296) :
    Grows m (grownImage m attr inUse growth) attr inUse growth := by
  have hlenWord : (wr32 (attr.length + growth)).length = 4 := wr32_length _
  have husedWord : (wr32 (inUse + growth)).length = 4 := wr32_length _
  have hzeroLen : (replicate growth (0 : UInt8)).length = growth := length_replicate ..
  have htailLen : (m.read (attr.offset + attr.length)
      (inUse - (attr.offset + attr.length))).length = inUse - (attr.offset + attr.length) :=
    Image.read_length ..
  unfold grownImage
  refine ⟨fun i hi hlt ↦ ?_, ?_, ?_, fun i hi hlt ↦ ?_, fun i hi hlt ↦ ?_⟩
  · rw [Image.write_apply_of_not_mem (by omega), Image.write_apply_of_not_mem (by omega),
      Image.write_apply_of_not_mem (by omega), Image.write_apply_of_not_mem (by omega)]
  · rw [rd32_write_wr32, Nat.mod_eq_of_lt hsmall]
  · refine (rd32_congr fun i hi ↦ Image.write_apply_of_not_mem (by omega)).trans ?_
    rw [rd32_write_wr32, Nat.mod_eq_of_lt (by omega)]
  · rw [Image.write_apply_of_not_mem (by omega), Image.write_apply_of_not_mem (by omega),
      Image.write_apply_of_not_mem (by omega), Image.write_apply_of_not_mem (by omega)]
  · rw [Image.write_apply_of_not_mem (by omega), Image.write_apply_of_not_mem (by omega),
      Image.write_apply_of_not_mem (by omega), Image.write_apply_of_mem (by omega) (by omega),
      Image.getElem_read]
    congr 1
    omega

theorem grows_of_growAttribute (hoffset : 28 ≤ attr.offset) (hlong : 8 ≤ attr.length)
    (hlength : rd32 (bytesImage fixed) (attr.offset + 4) = attr.length)
    (hinUse : rd32 (bytesImage fixed) 24 = inUse) (hend : attr.offset + attr.length ≤ inUse)
    (hfits : inUse + growth ≤ fixed.length) (hsmall : inUse + growth < 4294967296)
    (h : growAttribute fixed attr inUse growth = .ok grown) :
    grown.length = fixed.length ∧ Grows (bytesImage fixed)
      (bytesImage grown) attr inUse growth := by
  by_cases hzero : growth = 0
  · subst hzero
    rw [growAttribute, if_neg (not_not.2 rfl)] at h
    obtain rfl := ok.inj h
    exact ⟨rfl, fun _ _ _ ↦ rfl, hinUse, hlength, fun _ _ _ ↦ rfl, fun _ _ _ ↦ rfl⟩
  · obtain ⟨grown', h', hlen, himage⟩ :=
      growAttribute_eq_ok hlong hend hfits (by omega) hsmall hzero
    obtain rfl := ok.inj (h.symm.trans h')
    exact ⟨hlen, himage ▸ grows_grownImage hoffset hlong hend hsmall⟩

end Write

/-! ### The record that is returned -/

/-- What a record must be like for its rewriting to be faithful: the update sequence array lies
between the header fields and the first attribute, and no sector ends in it. -/
structure Rewritable (record : List UInt8) (sectorSize : ℕ) : Prop where
  header : 28 ≤ rd16 (bytesImage record) 4
  before : rd16 (bytesImage record) 4 + 2 * rd16 (bytesImage record) 6 ≤
    rd16 (bytesImage record) 20
  checks : ∀ i, 0 < i → i * sectorSize ≤ record.length →
    i * sectorSize ≤ rd16 (bytesImage record) 4 ∨
      rd16 (bytesImage record) 4 + 2 * rd16 (bytesImage record) 6 + 2 ≤ i * sectorSize

/-- The record `new` is `old` with `attr` grown by `growth` bytes for `runs`: the same attributes in
the same order, the others with the same bytes, the selected one with the same head. -/
structure Rewritten (old new : List UInt8) (attrs : List Attribute) (attr : Attribute) (growth : ℕ)
    (runs : List Run) : Prop where
  attributes : attributeList new = .ok (attrs.map (attr.rewritten growth runs))
  others : ∀ a ∈ attrs, a ≠ attr →
    attributeBytes new (attr.rewritten growth runs a) = attributeBytes old a
  kind : slice new attr.offset (attr.offset + 4) = slice old attr.offset (attr.offset + 4)
  head : slice new (attr.offset + 8) (attr.offset + attr.runOffset) =
    slice old (attr.offset + 8) (attr.offset + attr.runOffset)

/-- What a rewritten image means for the record. -/
theorem Rewrites.rewritten {old new : List UInt8} {attrs : List Attribute} {attr : Attribute}
    {growth inUse : ℕ} {runs : List Run}
    (h : Rewrites (bytesImage old) (bytesImage new) attr (rd16 (bytesImage old) 20) growth
      inUse runs)
    (hfirst : rd16 (bytesImage new) 20 = rd16 (bytesImage old) 20)
    (hinUse : rd32 (bytesImage old) 24 = inUse) (hused : rd32 (bytesImage new) 24 = inUse + growth)
    (hlen : new.length = old.length) (hfits : inUse + growth ≤ old.length)
    (hattrs : attributeList old = .ok attrs) (hmem : attr ∈ attrs)
    (hnonresident : attr.nonresident = true) (hname : NameFirst (bytesImage old) attr) :
    Rewritten old new attrs attr growth runs := by
  obtain ⟨hsize, hparses⟩ := attributeList_eq_ok.1 hattrs
  rw [hinUse, min_eq_right (by omega)] at hparses
  obtain ⟨hlow, hhigh, hdecodes⟩ := hparses.bounds hmem
  have hmapped := hdecodes.mapped hnonresident
  have hlong := hmapped.le_length
  have hlt := hmapped.runOffset_lt
  have hge := hmapped.le_runOffset
  refine ⟨attributeList_eq_ok.2 ⟨by omega, ?_⟩, fun a ha hne ↦ ?_, ?_, ?_⟩
  · rw [hused, min_eq_right (by omega), hfirst]
    exact h.parses hnonresident hname hparses le_rfl hmem
  · obtain ⟨hlow', hhigh', hdecodes'⟩ := hparses.bounds ha
    have hlong' := hdecodes'.le_length
    rw [attributeBytes, attributeBytes, slice_eq_read (n := a.length) rfl (by omega)]
    rcases (hparses.apart ha hmem).resolve_left hne with hfront | hbehind
    · rw [Attribute.rewritten, if_pos (by omega), slice_eq_read (n := a.length) rfl (by omega)]
      exact Image.read_congr fun i hi ↦ h.before _ (by omega) (by omega)
    · rw [Attribute.rewritten, if_neg (by omega), if_neg (by omega),
        slice_eq_read (n := a.length) rfl (by dsimp only; omega)]
      refine read_shift fun i hi ↦ ?_
      rw [Nat.add_right_comm]
      exact h.after _ (by omega) (by omega)
  · rw [slice_eq_read (n := 4) rfl (by omega), slice_eq_read (n := 4) rfl (by omega)]
    exact Image.read_congr fun i hi ↦ h.before _ (by omega) (by omega)
  · rw [slice_eq_read (n := attr.runOffset - 8) (by omega) (by omega),
      slice_eq_read (n := attr.runOffset - 8) (by omega) (by omega)]
    exact Image.read_congr fun i hi ↦ h.head _ (by omega) (by omega)

/-- **Rewriting a record.** Whatever `_updated_record_runs` returns for a record that is
`Rewritable` and an attribute with its name in front of its mapping pairs, `_apply_fixups` and
`_attributes` give the attributes of the old record back: the selected one with the coalesced new
runs, the later ones shifted by the growth. -/
theorem record_rewrite {candidate : Candidate} {attrs : List Attribute} {newRuns : List Run}
    {sectorSize : ℕ} {record : List UInt8} (hsector : 256 ≤ sectorSize)
    (hrecord : Rewritable candidate.recordFixed sectorSize)
    (hattrs : attributeList candidate.recordFixed = .ok attrs) (hmem : candidate.attr ∈ attrs)
    (hnonresident : candidate.attr.nonresident = true)
    (hname : NameFirst (bytesImage candidate.recordFixed) candidate.attr)
    (h : updatedRecordRuns candidate newRuns sectorSize = .ok record) :
    ∃ encoded fixed, encodeRunlist (coalesceRuns newRuns) = .ok encoded ∧
      applyFixups record sectorSize = .ok fixed ∧
      Rewritten candidate.recordFixed fixed attrs candidate.attr
        (mappingGrowth candidate.attr encoded) (coalesceRuns newRuns) := by
  obtain ⟨recordNumber, recordOffset, recordRaw, old, attr⟩ := candidate
  dsimp only at hrecord hattrs hmem hnonresident hname h ⊢
  obtain ⟨hsize, hparses⟩ := attributeList_eq_ok.1 hattrs
  obtain ⟨hlow, hhigh, hdecodes⟩ := hparses.bounds hmem
  have hmapped := hdecodes.mapped hnonresident
  have hlong := hmapped.le_length
  have hge := hmapped.le_runOffset
  have hlt := hmapped.runOffset_lt
  obtain ⟨hheader, hbefore, hchecks⟩ := hrecord
  rw [updatedRecordRuns] at h
  dsimp only at h
  obtain ⟨hvcns, h⟩ := raiseIf_bind_eq_ok.1 h
  obtain ⟨encoded, hencoded, h⟩ := bind_eq_ok.1 h
  obtain ⟨inUse, hinUse, h⟩ := bind_eq_ok.1 h
  obtain ⟨allocated, hallocated, h⟩ := bind_eq_ok.1 h
  obtain ⟨haccounting, h⟩ := raiseIf_bind_eq_ok.1 h
  obtain ⟨hfits, h⟩ := raiseIf_bind_eq_ok.1 h
  obtain ⟨grown, hgrown, h⟩ := bind_eq_ok.1 h
  change growAttribute old attr inUse (mappingGrowth attr encoded) = .ok grown at hgrown
  change ¬inUse + mappingGrowth attr encoded > _ at hfits
  have hgrowth : attr.runOffset + encoded.length ≤ attr.length + mappingGrowth attr encoded := by
    rw [mappingGrowth]
    omega
  set growth := mappingGrowth attr encoded
  obtain ⟨-, hinUse⟩ := u32_eq_ok.1 hinUse
  have hfitsLen : inUse + growth ≤ old.length := by omega
  have hallocatedLt : allocated < 4294967296 := (u32_eq_ok.1 hallocated).2 ▸ rd32_lt _ _
  obtain ⟨hgrownLen, hgrows⟩ := grows_of_growAttribute (by omega) (by omega) hdecodes.length hinUse
    (by omega) hfitsLen (by omega) hgrown
  change prepareFixups (putSlice grown (attr.offset + attr.runOffset)
    (attr.offset + attr.runOffset + (attr.length + growth - attr.runOffset))
    (encoded ++ replicate (attr.length + growth - attr.runOffset - encoded.length) 0))
    sectorSize = .ok record at h
  set pairs := encoded ++ replicate (attr.length + growth - attr.runOffset - encoded.length) 0
  have hpairsLen : pairs.length = attr.length + growth - attr.runOffset := by
    rw [length_append, length_replicate]
    omega
  set final := putSlice grown (attr.offset + attr.runOffset)
    (attr.offset + attr.runOffset + (attr.length + growth - attr.runOffset)) pairs
  have hfinalLen : final.length = old.length := by
    rw [length_putSlice (by omega) (by omega), hgrownLen]
  have hfinal : bytesImage final = (bytesImage grown).write (attr.offset + attr.runOffset) pairs :=
    bytesImage_putSlice (by omega) (by omega)
  -- in front of the mapping pairs only the used size and the length of the attribute have changed
  have hfront : ∀ i, i < 24 ∨ 28 ≤ i → i < attr.offset + 4 →
      bytesImage final i = bytesImage old i := fun i hi hlt ↦ by
    rw [hfinal, Image.write_apply_of_not_mem (by omega), hgrows.low i hi hlt]
  have hword {o : ℕ} (ho : o + 2 ≤ 24) : rd16 (bytesImage final) o = rd16 (bytesImage old) o :=
    rd16_congr (hfront o (by omega) (by omega)) (hfront (o + 1) (by omega) (by omega))
  obtain ⟨fixed, hfixed, hfixedLen, hsame⟩ := applyFixups_prepareFixups (hword (by omega))
    (hword (by omega)) (by omega) (by omega) (by rwa [hfinalLen]) h
  refine ⟨encoded, fixed, hencoded, hfixed,
    @Rewrites.rewritten old fixed attrs attr growth inUse (coalesceRuns newRuns) ?_ ?_ hinUse ?_
      (by omega) hfitsLen hattrs hmem hnonresident hname⟩
  · refine ⟨fun i hi hlt ↦ ?_, ?_, fun i hi hlt' ↦ ?_, ?_, not_not.1 hvcns, fun i hi hlt' ↦ ?_⟩
    · rw [hsame i (by omega), hfront i (by omega) hlt]
    · refine (rd32_congr fun i hi ↦ ?_).trans hgrows.length
      rw [hsame _ (by omega), hfinal, Image.write_apply_of_not_mem (by omega)]
    · rw [hsame i (by omega), hfinal, Image.write_apply_of_not_mem (by omega),
        hgrows.head i hi (by omega)]
    · have hread : (bytesImage fixed).read (attr.offset + attr.runOffset)
          (attr.length + growth - attr.runOffset) = pairs := by
        rw [Image.read_congr fun i hi ↦ hsame _ (by omega), hfinal, ← hpairsLen,
          Image.read_write_self]
      rw [hread]
      refine decodeRunsFrom_encode hencoded ?_
      have := length_lt_of_encode hencoded
      rw [hpairsLen]
      omega
    · rw [hsame _ (by omega), hfinal, Image.write_apply_of_not_mem (by omega),
        hgrows.after i hi hlt']
  · rw [rd16_congr (hsame 20 (by omega)) (hsame 21 (by omega)), hword (by omega)]
  · refine (rd32_congr fun i hi ↦ ?_).trans hgrows.used
    rw [hsame _ (by omega), hfinal, Image.write_apply_of_not_mem (by omega)]

/-! ### Records -/

/-- A record of `size` bytes with its attributes from `first` on. -/
def recordOf (usaOff usaCount first size : ℕ) (attrs : List UInt8) : List UInt8 :=
  let header := [0x46, 0x49, 0x4C, 0x45] ++ wr16 usaOff ++ wr16 usaCount ++ List.replicate 12 0 ++
    wr16 first ++ wr16 1 ++ wr32 (first + attrs.length + 8) ++ wr32 size
  let used := header ++ List.replicate (first - 32) 0 ++ attrs ++ wr32 0xFFFFFFFF
  used ++ List.replicate (size - used.length) 0

/-- A nonresident index allocation of `clusters` clusters with everything from byte 64 on in `tail`;
a name of `nameLen` characters stands at byte 72. -/
def allocationOf (nameLen : UInt8) (clusters : ℕ) (tail : List UInt8) : List UInt8 :=
  wr32 0xA0 ++ wr32 (64 + tail.length) ++ [1, nameLen] ++ wr16 72 ++ List.replicate 12 0 ++
    wr32 (clusters - 1) ++ List.replicate 4 0 ++ wr16 64 ++ List.replicate 6 0 ++
    wr32 (clusters * 4096) ++ List.replicate 4 0 ++ wr32 (clusters * 4096) ++ List.replicate 4 0 ++
    wr32 (clusters * 4096) ++ List.replicate 4 0 ++ tail

/-- Replacing the runs of the first attribute of a record read from the volume: the attributes
before, and what reading the new record gives. -/
def replaceFirst (raw : List UInt8) (newRuns : List Run) (sectorSize : ℕ) :
    Except PyError (List Attribute × Except PyError (List Attribute)) := do
  let fixed ← applyFixups raw sectorSize
  let attrs ← attributeList fixed
  match attrs with
  | [] => throw .indexError
  | attr :: _ => do
    let record ← updatedRecordRuns ⟨24, 0, raw, fixed, attr⟩ newRuns sectorSize
    return (attrs, applyFixups record sectorSize >>= attributeList)

/-- A record with a name behind the mapping pairs. -/
def nameLastRecord : List UInt8 :=
  recordOf 48 2 56 512
    (allocationOf 4 1 [0x11, 1, 10, 0, 0, 0, 0, 0, 0x24, 0, 0x49, 0, 0x33, 0, 0x30, 0])

/-- A record of two sectors with the end of the first in the update sequence array. -/
def checkInArrayRecord : List UInt8 :=
  recordOf 250 3 256 512 (allocationOf 0 1 [0x11, 1, 10, 0, 0, 0, 0, 0])

/-- A record with the offset of the first attribute in the update sequence array. -/
def offsetInArrayRecord : List UInt8 :=
  putSlice (recordOf 20 2 56 512 (allocationOf 0 1 [0x11, 1, 10, 0, 0, 0, 0, 0])) 510 512 (wr16 56)

/-- **The engine rewrites records that it cannot read back.** All three records have their update
sequence array before the first attribute and an attribute of 72 or 80 bytes, and the run of one
cluster is replaced by another. A name behind the mapping pairs is overwritten; a check number in
the array is not found again; and a check number at the offset of the first attribute moves that. -/
theorem record_rewrite_fails :
    (∃ attr, attr.name = [0x24, 0, 0x49, 0, 0x33, 0, 0x30, 0] ∧ attr.length = 80 ∧
      replaceFirst nameLastRecord [⟨some 20, 1⟩] 512 = .ok ([attr],
        .ok [{ attr with name := List.replicate 8 0, runs := [⟨some 20, 1⟩] }])) ∧
    (∃ attr, attr.offset = 256 ∧ attr.length = 72 ∧
      replaceFirst checkInArrayRecord [⟨some 20, 1⟩] 256 = .ok ([attr],
        .error (.engine "NTFS MFT update-sequence mismatch" []))) ∧
    ∃ attr, attr.offset = 56 ∧ attr.length = 72 ∧
      replaceFirst offsetInArrayRecord [⟨some 20, 1⟩] 512 = .ok ([attr],
        .error (.engine "invalid NTFS attribute record" [])) := by
  refine ⟨⟨⟨56, 80, 0xA0, [0x24, 0, 0x49, 0, 0x33, 0, 0x30, 0], 0, true, 0, 0, 64, [⟨some 10, 1⟩],
    4096⟩, rfl, rfl, ?_⟩,
      ⟨⟨256, 72, 0xA0, [], 0, true, 0, 0, 64, [⟨some 10, 1⟩], 4096⟩, rfl, rfl, ?_⟩,
    ⟨56, 72, 0xA0, [], 0, true, 0, 0, 64, [⟨some 10, 1⟩], 4096⟩, rfl, rfl, ?_⟩ <;> decide +kernel

/-- Two index allocations, of which the first is moved apart and grows. -/
def growingCandidate : Candidate where
  recordNumber := 24
  recordOffset := 0
  recordRaw := []
  recordFixed := recordOf 48 2 56 512 (allocationOf 0 2 [0x11, 2, 10, 0, 0, 0, 0, 0] ++
    allocationOf 0 1 [0x11, 1, 30, 0, 0, 0, 0, 0])
  attr := ⟨56, 72, 0xA0, [], 0, true, 0, 1, 64, [⟨some 10, 2⟩], 8192⟩

theorem rewritable_growingCandidate : Rewritable growingCandidate.recordFixed 512 := by
  have hoff : rd16 (bytesImage growingCandidate.recordFixed) 4 = 48 := by decide +kernel
  have hcount : rd16 (bytesImage growingCandidate.recordFixed) 6 = 2 := by decide +kernel
  have hfirst : rd16 (bytesImage growingCandidate.recordFixed) 20 = 56 := by decide +kernel
  refine ⟨by omega, by omega, fun i hi _ ↦ .inr ?_⟩
  rw [hoff, hcount]
  omega

/-- The second attribute of the grown record has moved up by eight bytes. -/
theorem record_rewrite_growing : ∃ record encoded fixed,
    updatedRecordRuns growingCandidate [⟨some 1000, 1⟩, ⟨some 5, 1⟩] 512 = .ok record ∧
      applyFixups record 512 = .ok fixed ∧ mappingGrowth growingCandidate.attr encoded = 8 ∧
      Rewritten growingCandidate.recordFixed fixed
        [growingCandidate.attr, ⟨128, 72, 0xA0, [], 0, true, 0, 0, 64, [⟨some 30, 1⟩], 4096⟩]
        growingCandidate.attr 8 [⟨some 1000, 1⟩, ⟨some 5, 1⟩] := by
  have hok : (updatedRecordRuns growingCandidate [⟨some 1000, 1⟩, ⟨some 5, 1⟩] 512).toBool =
      true := by
    decide +kernel
  have hruns : encodeRunlist (coalesceRuns [⟨some 1000, 1⟩, ⟨some 5, 1⟩]) =
      .ok [0x21, 1, 0xE8, 3, 0x21, 1, 0x1D, 0xFC, 0] := by decide +kernel
  cases h : updatedRecordRuns growingCandidate [⟨some 1000, 1⟩, ⟨some 5, 1⟩] 512 with
  | error e =>
    rw [h] at hok
    cases hok
  | ok record =>
    obtain ⟨encoded, fixed, hencoded, hfixed, hrewritten⟩ := record_rewrite (by decide)
      rewritable_growingCandidate
      (show attributeList growingCandidate.recordFixed = .ok [growingCandidate.attr,
        ⟨128, 72, 0xA0, [], 0, true, 0, 0, 64, [⟨some 30, 1⟩], 4096⟩] by decide +kernel)
      (mem_cons_self ..) rfl (fun hname ↦ absurd (by decide +kernel) hname) h
    obtain rfl := ok.inj (hruns.symm.trans hencoded)
    exact ⟨record, [0x21, 1, 0xE8, 3, 0x21, 1, 0x1D, 0xFC, 0], fixed, rfl, hfixed, rfl, hrewritten⟩

end LinuxDefragger.Ntfs
