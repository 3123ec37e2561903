import LinuxDefragger.HfsPlus.Prepared
import LinuxDefragger.HfsPlus.Reread

/-!
# Consistent volumes

On a consistent volume every block of the special files and of the forks is marked in the bitmap, no
block is used twice, and the two volume headers are in blocks of their own (`Consistent`).

An extent descriptor is then at a place of its own: `eq_of_mem_addrs` says that two descriptors that
share a byte are the same.
-/

open Except List Storage

namespace LinuxDefragger.HfsPlus

variable {J : Type}

/-! ### Consistency -/

/-- The blocks of the special files that the engine reads. -/
def Vol.specialBlocks (vol : Vol) : List ℕ :=
  vol.allocationFork.blocks ++ vol.extentsFork.blocks ++ vol.catalogFork.blocks

/-- The blocks of the special files and of all forks. -/
def usedBlocks (vol : Vol) (objs : List ForkObject) : List ℕ :=
  vol.specialBlocks ++ objs.flatMap ForkObject.sourceBlocks

/-- The bytes of the volume header and of its copy near the end of the device. -/
def IsHeaderByte (size a : ℕ) : Prop := 1024 ≤ a ∧ a < 1536 ∨ size - 1024 ≤ a ∧ a < size - 512

/-- A volume with a consistent bitmap and disjoint forks, as the engine reads it. -/
structure Consistent (disk : Disk J) (vol : Vol) (objs : List ForkObject) : Prop where
  opened : openVolume disk false = .ok vol
  objects : vol.objects disk = .ok objs
  /-- the boot blocks, both headers and the reserved sector have room -/
  copies : 2560 ≤ disk.size
  extentsTree : TreeWellFormed disk vol.extentsFork
  catalogTree : TreeWellFormed disk vol.catalogFork
  disjoint : (usedBlocks vol objs).Nodup
  inUse : ∀ b ∈ usedBlocks vol objs, b < vol.totalBlocks ∧ Vol.bitOf vol.bitmap b = true
  headers : ∀ a, IsHeaderByte disk.size a → a / vol.blockSize ∉ usedBlocks vol objs ∧
    (a / vol.blockSize < vol.totalBlocks → Vol.bitOf vol.bitmap (a / vol.blockSize) = true)

/-! ### Geometry -/

theorem forkMap_blockSize {bs : ℕ} {fork : ℕ × ℕ × List Extent} {f : ForkMap}
    (h : forkMap bs fork = .ok f) : f.blockSize = bs := by
  rw [forkMap] at h
  split_ifs at h
  exact (ok.inj h) ▸ rfl

/-- The numbers of a volume that opens. -/
theorem Opened.geometry {disk : Disk J} {allow : Bool} {vol : Vol} {header : List UInt8}
    (h : Opened disk allow vol header) : 512 ≤ vol.blockSize ∧
      vol.totalBlocks * vol.blockSize ≤ disk.size ∧
      vol.allocationFork.blockSize = vol.blockSize ∧ vol.extentsFork.blockSize = vol.blockSize ∧
      vol.catalogFork.blockSize = vol.blockSize := by
  have hcheck := h.checked
  rw [checkHeader, raiseIf_bind_eq_ok] at hcheck
  obtain ⟨-, hcheck⟩ := hcheck
  rw [raiseIf_bind_eq_ok] at hcheck
  obtain ⟨hsize, hcheck⟩ := hcheck
  rw [raiseIf_bind_eq_ok] at hcheck
  obtain ⟨htotal, -⟩ := hcheck
  push Not at hsize htotal
  rw [h.blockSize, h.totalBlocks]
  exact ⟨hsize.1, htotal.2, forkMap_blockSize h.allocation, forkMap_blockSize h.extents,
    forkMap_blockSize h.catalog⟩

/-- The bitmap of a volume that opens is at the start of the allocation file. -/
theorem Opened.bitmap_eq {disk : Disk J} {allow : Bool} {vol : Vol} {header : List UInt8}
    (h : Opened disk allow vol header) :
    (vol.allocationFork.addrs.take vol.bitmap.length).map disk.image = vol.bitmap ∧
      vol.bitmap.length = bitmapLength vol.totalBlocks := by
  have hlen := ForkMap.length_of_read h.bitmap
  rw [← h.totalBlocks] at hlen
  refine ⟨?_, hlen⟩
  have hread := (ForkMap.read_eq_ok h.bitmap).1
  rw [drop_zero, ← h.totalBlocks, ← hlen] at hread
  exact hread.symm

/-! ### Places of descriptors -/

/-- A used descriptor at its place in a record of a tree. -/
structure PlacedIn (disk : Disk J) (f : ForkMap) (slots : TreeRecord → List ℕ)
    (ref : DescriptorRef) : Prop where
  record : ∃ rs, walkLeafRecords disk f = .ok rs ∧ ref.record ∈ rs
  slot : ref.relative ∈ slots ref.record
  value : ref = descriptorAt ref.record ref.relative
  used : ref.extent.count ≠ 0

/-- A used descriptor of the catalogue or of the extents-overflow file. -/
def Placed (disk : Disk J) (vol : Vol) (ref : DescriptorRef) : Prop :=
  PlacedIn disk vol.catalogFork catalogSlots ref ∨ PlacedIn disk vol.extentsFork overflowSlots ref

theorem mem_descriptorRefs {r : TreeRecord} {base : ℕ} {ref : DescriptorRef}
    (h : ref ∈ descriptorRefs r base) : ref.record = r ∧ ref.relative ∈ slotOffsets base ∧
      ref = descriptorAt ref.record ref.relative ∧ ref.extent.count ≠ 0 := by
  obtain ⟨hmem, hcount⟩ := mem_filter.1 h
  obtain ⟨i, hi, rfl⟩ := mem_map.1 hmem
  exact ⟨rfl, mem_slotOffsets.2 ⟨i, mem_range.1 hi, rfl⟩, rfl, of_decide_eq_true hcount⟩

/-- Descriptors of the overflow file. -/
theorem placed_of_overflow {disk : Disk J} {f : ForkMap} {parts : List OverflowPart}
    (h : parseOverflow disk f = .ok parts) {p : OverflowPart} (hp : p ∈ parts) {ref : DescriptorRef}
    (href : ref ∈ p.refs) : PlacedIn disk f overflowSlots ref := by
  rw [parseOverflow] at h
  split_ifs at h with hzero
  · obtain rfl := ok.inj h
    simp at hp
  obtain ⟨rs, hrs, h⟩ := bind_eq_ok.1 h
  simp only at h
  split_ifs at h
  obtain rfl := ok.inj h
  obtain ⟨r, hr, hpart⟩ := mem_filterMap.1 hp
  rw [(overflowPart_eq_some hpart).2.2] at href
  obtain ⟨hrec, hslot, hvalue, hused⟩ := mem_descriptorRefs href
  refine ⟨⟨rs, hrs, hrec ▸ hr⟩, ?_, hvalue, hused⟩
  rw [hrec, overflowSlots, hpart]
  exact hslot

variable {o : ForkObject} {a : ℕ}

/-- A fork is not empty, and its descriptors are in its record or in the overflow file. -/
theorem of_mem_forkObject {parts : List OverflowPart} {path : List ℕ} {r : TreeRecord} {fileId : ℕ}
    {fork : ℕ × ℕ} {l : List ForkObject} (h : forkObject parts path r fileId fork = .ok l)
    (ho : o ∈ l) :
    o.totalBlocks ≠ 0 ∧ ∀ ref ∈ o.descriptors,
      ref ∈ descriptorRefs r (fork.2 + 16) ∨ ref ∈ overflowRefs parts fileId fork.1 := by
  simp only [forkObject] at h
  rw [raiseIf_bind_eq_ok] at h
  obtain ⟨-, h⟩ := h
  obtain rfl := ok.inj h
  by_cases htotal : word 4 r.raw (fork.2 + 12) ≠ 0
  · rw [if_pos htotal] at ho
    obtain rfl := mem_singleton.1 ho
    refine ⟨htotal, fun ref href ↦ ?_⟩
    simp only at href
    split_ifs at href
    · exact mem_append.1 href
    · exact .inl href
  · rw [if_neg htotal] at ho
    simp at ho

/-- Every fork comes from a record of the catalogue. -/
theorem exists_forkObject {disk : Disk J} {vol : Vol} {objs : List ForkObject}
    (h : vol.objects disk = .ok objs) (ho : o ∈ objs) :
    ∃ rs r dataOff parent name fileId, walkLeafRecords disk vol.catalogFork = .ok rs ∧ r ∈ rs ∧
      catalogItem r = some (.file r dataOff parent name fileId) ∧
      ∃ fork ∈ [(0, dataOff + 88), (0xFF, dataOff + 168)], ∃ path l,
        forkObject vol.overflow path r fileId fork = .ok l ∧ o ∈ l := by
  rw [Vol.objects, bind_eq_ok] at h
  obtain ⟨rs, hrs, h⟩ := h
  obtain ⟨lists, hlists, h⟩ := bind_eq_ok.1 h
  obtain rfl := ok.inj h
  obtain ⟨l, hl, ho⟩ := mem_flatten.1 ho
  obtain ⟨item, hitem, hfile⟩ := exists_of_mem_forall₂ (mapM_eq_ok.1 hlists) hl
  obtain ⟨r, hr, hcat⟩ := mem_filterMap.1 hitem
  cases item with
  | folder id parent name =>
    obtain rfl := ok.inj hfile
    simp at ho
  | file record dataOff parent name fileId =>
    obtain ⟨rfl, -⟩ := catalogItem_file hcat
    rw [fileObjects, bind_eq_ok] at hfile
    obtain ⟨forks, hforks, hfile⟩ := hfile
    obtain rfl := ok.inj hfile
    obtain ⟨l', hl', ho⟩ := mem_flatten.1 ho
    obtain ⟨fork, hfork, hobj⟩ := exists_of_mem_forall₂ (mapM_eq_ok.1 hforks) hl'
    exact ⟨rs, record, dataOff, parent, name, fileId, hrs, hr, hcat, fork, hfork, _, l', hobj, ho⟩

/-- **The descriptors of the forks are at their places.** -/
theorem placed_of_objects {disk : Disk J} {allow : Bool} {vol : Vol} {objs : List ForkObject}
    (hopen : openVolume disk allow = .ok vol) (h : vol.objects disk = .ok objs) (ho : o ∈ objs)
    {ref : DescriptorRef} (href : ref ∈ o.descriptors) : Placed disk vol ref := by
  obtain ⟨header, hopened⟩ := openVolume_eq_ok.1 hopen
  obtain ⟨rs, r, dataOff, parent, name, fileId, hrs, hr, hcat, fork, hfork, path, l, hobj, ho⟩ :=
    exists_forkObject h ho
  rcases (of_mem_forkObject hobj ho).2 ref href with href | href
  · obtain ⟨hrec, hslot, hvalue, hused⟩ := mem_descriptorRefs href
    refine .inl ⟨⟨rs, hrs, hrec ▸ hr⟩, ?_, hvalue, hused⟩
    rw [hrec, catalogSlots, hcat]
    rcases mem_pair.1 hfork with rfl | rfl
    · exact mem_append_left _ hslot
    · exact mem_append_right _ hslot
  · obtain ⟨p, hp, href⟩ := mem_overflowRefs href
    exact .inr (placed_of_overflow hopened.overflow hp href)

/-! ### Different descriptors are apart -/

/-- The places of descriptors in a record are eight bytes apart. -/
theorem overflowSlots_apart {r : TreeRecord} {s s' x : ℕ} (hs : s ∈ overflowSlots r)
    (hs' : s' ∈ overflowSlots r) (hx : s ≤ x ∧ x < s + 8) (hx' : s' ≤ x ∧ x < s' + 8) : s = s' := by
  unfold overflowSlots at hs hs'
  split at hs
  · next hp =>
    rw [hp] at hs'
    obtain ⟨i, -, rfl⟩ := mem_slotOffsets.1 hs
    obtain ⟨j, -, rfl⟩ := mem_slotOffsets.1 hs'
    omega
  · simp at hs

theorem catalogSlots_apart {r : TreeRecord} {s s' x : ℕ} (hs : s ∈ catalogSlots r)
    (hs' : s' ∈ catalogSlots r) (hx : s ≤ x ∧ x < s + 8) (hx' : s' ≤ x ∧ x < s' + 8) : s = s' := by
  obtain ⟨dataOff, parent, name, fileId, hitem, i, -, hi⟩ := mem_catalogSlots hs
  obtain ⟨dataOff', parent', name', fileId', hitem', j, -, hj⟩ := mem_catalogSlots hs'
  obtain ⟨-, hoff, -⟩ := catalogItem_file hitem
  obtain ⟨-, hoff', -⟩ := catalogItem_file hitem'
  omega

namespace PlacedIn

variable {disk : Disk J} {f : ForkMap} {slots : TreeRecord → List ℕ} {ref ref' : DescriptorRef}
  (hwf : TreeWellFormed disk f) (hle : ∀ r s, s ∈ slots r → s + 8 ≤ r.raw.length)
include hwf

/-- Where a descriptor is in its fork. -/
theorem bounds (h : PlacedIn disk f slots ref) (hle : ∀ r s, s ∈ slots r → s + 8 ≤ r.raw.length) :
    ref.record.fork = f ∧ ref.record.logicalOffset + ref.relative + 8 ≤ f.addrs.length ∧
      ref.record.raw = f.bytesAt disk.image ref.record.logicalOffset ref.record.raw.length ∧
      ref.relative + 8 ≤ ref.record.raw.length := by
  obtain ⟨rs, hrs, hmem⟩ := h.record
  obtain ⟨hfork, hraw, hlen, -⟩ := mem_walkLeafRecords hrs hwf hmem
  have hslot := hle _ _ h.slot
  exact ⟨hfork, by omega, hraw, hslot⟩

include hle in
theorem addrs_eq (h : PlacedIn disk f slots ref) :
    ref.addrs = (f.addrs.drop (ref.record.logicalOffset + ref.relative)).take 8 ∧
      ref.addrs.length = 8 := by
  obtain ⟨hfork, hlen, -⟩ := h.bounds hwf hle
  have haddrs : ref.addrs = (f.addrs.drop (ref.record.logicalOffset + ref.relative)).take 8 := by
    rw [DescriptorRef.addrs, hfork]
  refine ⟨haddrs, ?_⟩
  rw [haddrs, length_take, length_drop]
  omega

include hle in
/-- The bytes of a descriptor. -/
theorem getElem?_addrs (h : PlacedIn disk f slots ref) {i : ℕ} (hi : i < 8) :
    ref.addrs[i]? = f.addrs[ref.record.logicalOffset + ref.relative + i]? := by
  rw [(h.addrs_eq hwf hle).1, getElem?_take_of_lt hi, getElem?_drop]

include hle in
/-- The words of a descriptor are in its own bytes. -/
theorem word_reread (h : PlacedIn disk f slots ref) (m : Image) {n o : ℕ} (hn : o + n ≤ 8) :
    word n (ref.record.reread m).raw (ref.relative + o) = word n (ref.addrs.map m) o := by
  obtain ⟨hfork, hlen, -, hslot⟩ := h.bounds hwf hle
  refine beAt_congr fun i hi ↦ ?_
  have hlt : ref.record.logicalOffset + ref.relative + (o + i) < f.addrs.length := by omega
  have hget := h.getElem?_addrs hwf hle (show o + i < 8 by omega)
  rw [getElem?_eq_getElem hlt] at hget
  have hraw : (ref.record.reread m).raw =
      f.bytesAt m ref.record.logicalOffset ref.record.raw.length := by
    rw [TreeRecord.reread, hfork]
  rw [hraw, ForkMap.bytesAt_apply (show ref.relative + o + i < ref.record.raw.length by omega)
    (show f.addrs[ref.record.logicalOffset + (ref.relative + o + i)]? = some _ by
      rw [← getElem?_eq_getElem hlt]
      congr 1
      omega),
    bytesImage, getD_eq_getElem?_getD, getElem?_map, hget, Option.map_some,
    Option.getD_some]

include hle in
/-- **A descriptor read again** is read from its own bytes. -/
theorem reread_extent (h : PlacedIn disk f slots ref) (m : Image) :
    (ref.reread m).extent = ⟨word 4 (ref.addrs.map m) 0, word 4 (ref.addrs.map m) 4⟩ := by
  have h₀ := h.word_reread hwf hle m (show 0 + 4 ≤ 8 by omega)
  have h₄ := h.word_reread hwf hle m (show 4 + 4 ≤ 8 by omega)
  rw [Nat.add_zero] at h₀
  rw [DescriptorRef.reread, descriptorAt, h₀, h₄]

include hle in
theorem reread_self (h : PlacedIn disk f slots ref) : ref.reread disk.image = ref := by
  obtain ⟨hfork, -, hraw, -⟩ := h.bounds hwf hle
  have hrec : ref.record.reread disk.image = ref.record := by
    rw [TreeRecord.reread, hfork, ← hraw, ← hfork]
  rw [DescriptorRef.reread, hrec, ← h.value]

include hle in
/-- The first half of a descriptor. -/
theorem startBytes (h : PlacedIn disk f slots ref) (hnd : f.addrs.Nodup) {rs : List TreeRecord}
    (hrs : walkLeafRecords disk f = .ok rs) {x i : ℕ} (hx : f.addrs[x]? = some a)
    (ha : ref.addrs[i]? = some a) (hi : i < 4) : StartBytes slots rs x := by
  obtain ⟨rs', hrs', hmem⟩ := h.record
  obtain rfl := ok.inj (hrs.symm.trans hrs')
  have hget := h.getElem?_addrs hwf hle (show i < 8 by omega)
  rw [ha] at hget
  have hsame : x = ref.record.logicalOffset + ref.relative + i :=
    (getElem?_inj (List.getElem?_eq_some_iff.1 hx).1 hnd).1 (hx.trans hget)
  exact ⟨ref.record, hmem, ref.relative, h.slot, by omega, by omega⟩

/-- Descriptors of a tree that share a byte are the same. -/
theorem eq_of_mem_addrs (h : PlacedIn disk f slots ref) (h' : PlacedIn disk f slots ref')
    (hle : ∀ r s, s ∈ slots r → s + 8 ≤ r.raw.length)
    (hapart : ∀ r s s' x, s ∈ slots r → s' ∈ slots r → s ≤ x ∧ x < s + 8 → s' ≤ x ∧ x < s' + 8 →
      s = s') (hnd : f.addrs.Nodup) (ha : a ∈ ref.addrs) (ha' : a ∈ ref'.addrs) : ref = ref' := by
  obtain ⟨-, hlen, -, hslot⟩ := h.bounds hwf hle
  obtain ⟨-, hlen', -, hslot'⟩ := h'.bounds hwf hle
  obtain ⟨i, hget⟩ := mem_iff_getElem?.1 ha
  obtain ⟨j, hget'⟩ := mem_iff_getElem?.1 ha'
  have hi : i < 8 := (h.addrs_eq hwf hle).2 ▸ (List.getElem?_eq_some_iff.1 hget).1
  have hj : j < 8 := (h'.addrs_eq hwf hle).2 ▸ (List.getElem?_eq_some_iff.1 hget').1
  have hx := h.getElem?_addrs hwf hle hi
  have hx' := h'.getElem?_addrs hwf hle hj
  rw [hget] at hx
  rw [hget'] at hx'
  -- the byte is at one place of the fork, so in one record
  have hsame : ref.record.logicalOffset + ref.relative + i =
      ref'.record.logicalOffset + ref'.relative + j :=
    (getElem?_inj (by omega) hnd).1 (hx.symm.trans hx')
  obtain ⟨rs, hrs, hmem⟩ := h.record
  obtain ⟨rs', hrs', hmem'⟩ := h'.record
  obtain rfl := ok.inj (hrs.symm.trans hrs')
  have hrec : ref.record = ref'.record := eq_of_mem_span hrs hwf hmem hmem'
    (mem_range'_1.2 ⟨by omega, by omega⟩)
    (show ref.record.logicalOffset + ref.relative + i ∈ ref'.record.span from
      mem_range'_1.2 ⟨by omega, by omega⟩)
  have hrel : ref.relative = ref'.relative := by
    refine hapart ref.record _ _ (ref.relative + i) h.slot (hrec ▸ h'.slot) ⟨by omega, by omega⟩ ?_
    rw [hrec] at hsame
    omega
  rw [h.value, h'.value, hrec, hrel]

end PlacedIn

namespace Consistent

variable {disk : Disk J} {vol : Vol} {objs : List ForkObject} (hc : Consistent disk vol objs)
include hc

theorem blockSize_pos : 0 < vol.blockSize := by
  obtain ⟨header, hopened⟩ := openVolume_eq_ok.1 hc.opened
  have := hopened.geometry.1
  omega

/-- The addresses of the special files are those of their blocks. -/
theorem mem_addrs : (a ∈ vol.allocationFork.addrs ↔ a / vol.blockSize ∈ vol.allocationFork.blocks) ∧
      (a ∈ vol.extentsFork.addrs ↔ a / vol.blockSize ∈ vol.extentsFork.blocks) ∧
      (a ∈ vol.catalogFork.addrs ↔ a / vol.blockSize ∈ vol.catalogFork.blocks) := by
  obtain ⟨header, hopened⟩ := openVolume_eq_ok.1 hc.opened
  obtain ⟨-, -, h₁, h₂, h₃⟩ := hopened.geometry
  rw [ForkMap.addrs_eq, ForkMap.addrs_eq, ForkMap.addrs_eq, h₁, h₂, h₃]
  exact ⟨mem_blockAddrs hc.blockSize_pos, mem_blockAddrs hc.blockSize_pos,
    mem_blockAddrs hc.blockSize_pos⟩

theorem nodup_addrs : vol.allocationFork.addrs.Nodup ∧ vol.extentsFork.addrs.Nodup ∧
    vol.catalogFork.addrs.Nodup := by
  obtain ⟨header, hopened⟩ := openVolume_eq_ok.1 hc.opened
  obtain ⟨-, -, h₁, h₂, h₃⟩ := hopened.geometry
  have hspecial := (nodup_append.1 hc.disjoint).1
  rw [Vol.specialBlocks] at hspecial
  obtain ⟨hfirst, hcat, -⟩ := nodup_append.1 hspecial
  obtain ⟨halloc, hext, -⟩ := nodup_append.1 hfirst
  rw [ForkMap.addrs_eq, ForkMap.addrs_eq, ForkMap.addrs_eq, h₁, h₂, h₃]
  exact ⟨nodup_blockAddrs hc.blockSize_pos halloc, nodup_blockAddrs hc.blockSize_pos hext,
    nodup_blockAddrs hc.blockSize_pos hcat⟩

/-- The special files are apart. -/
theorem special_apart {b : ℕ} :
    (b ∈ vol.allocationFork.blocks → b ∉ vol.extentsFork.blocks ∧ b ∉ vol.catalogFork.blocks) ∧
      (b ∈ vol.extentsFork.blocks → b ∉ vol.catalogFork.blocks) := by
  have hspecial := (nodup_append.1 hc.disjoint).1
  rw [Vol.specialBlocks] at hspecial
  obtain ⟨hfirst, -, hcat⟩ := nodup_append.1 hspecial
  obtain ⟨-, -, hext⟩ := nodup_append.1 hfirst
  refine ⟨fun hb ↦ ⟨fun hb' ↦ hext b hb b hb' rfl, fun hb' ↦ ?_⟩, fun hb hb' ↦ ?_⟩
  · exact hcat b (mem_append_left _ hb) b hb' rfl
  · exact hcat b (mem_append_right _ hb) b hb' rfl

/-- The bytes of a descriptor are in a tree. -/
theorem mem_of_mem_refAddrs {ref : DescriptorRef} (h : Placed disk vol ref) (ha : a ∈ ref.addrs) :
    (PlacedIn disk vol.catalogFork catalogSlots ref ∧ a ∈ vol.catalogFork.addrs) ∨
      (PlacedIn disk vol.extentsFork overflowSlots ref ∧ a ∈ vol.extentsFork.addrs) := by
  rcases h with h | h
  · rw [(h.addrs_eq hc.catalogTree fun _ _ ↦ catalogSlots_le).1] at ha
    exact .inl ⟨h, mem_of_mem_drop (mem_of_mem_take ha)⟩
  · rw [(h.addrs_eq hc.extentsTree fun _ _ ↦ overflowSlots_le).1] at ha
    exact .inr ⟨h, mem_of_mem_drop (mem_of_mem_take ha)⟩

/-- **Descriptors that share a byte are the same.** -/
theorem eq_of_mem_addrs {ref ref' : DescriptorRef} (h : Placed disk vol ref)
    (h' : Placed disk vol ref') (ha : a ∈ ref.addrs) (ha' : a ∈ ref'.addrs) : ref = ref' := by
  have hapart (hcat : a ∈ vol.catalogFork.addrs) (hext : a ∈ vol.extentsFork.addrs) : False :=
    hc.special_apart.2 (hc.mem_addrs.2.1.1 hext) (hc.mem_addrs.2.2.1 hcat)
  rcases hc.mem_of_mem_refAddrs h ha with ⟨hp, hcat⟩ | ⟨hp, hext⟩
  · rcases hc.mem_of_mem_refAddrs h' ha' with ⟨hp', -⟩ | ⟨-, hext⟩
    · exact hp.eq_of_mem_addrs hc.catalogTree hp' (fun _ _ ↦ catalogSlots_le)
        (fun _ _ _ _ ↦ catalogSlots_apart) hc.nodup_addrs.2.2 ha ha'
    · exact (hapart hcat hext).elim
  · rcases hc.mem_of_mem_refAddrs h' ha' with ⟨-, hcat⟩ | ⟨hp', -⟩
    · exact (hapart hcat hext).elim
    · exact hp.eq_of_mem_addrs hc.extentsTree hp' (fun _ _ ↦ overflowSlots_le)
        (fun _ _ _ _ ↦ overflowSlots_apart) hc.nodup_addrs.2.1 ha ha'

section

variable (ho : o ∈ objs)
include ho

/-- The descriptors of the forks. -/
theorem placed {ref : DescriptorRef} (href : ref ∈ o.descriptors) : Placed disk vol ref :=
  placed_of_objects hc.opened hc.objects ho href

theorem count_ne_zero {ref : DescriptorRef} (href : ref ∈ o.descriptors) :
    ref.extent.count ≠ 0 := by
  rcases hc.placed ho href with h | h
  · exact h.used
  · exact h.used

/-- All descriptors of a fork count. -/
theorem extents_eq : o.extents = o.descriptors.map DescriptorRef.extent := by
  refine filter_eq_self.2 fun e he ↦ ?_
  obtain ⟨ref, href, rfl⟩ := mem_map.1 he
  exact decide_eq_true (hc.count_ne_zero ho href)

theorem totalBlocks_ne_zero : o.totalBlocks ≠ 0 := by
  obtain ⟨rs, r, dataOff, parent, name, fileId, -, -, -, fork, -, path, l, hl, hmem⟩ :=
    exists_forkObject hc.objects ho
  exact (of_mem_forkObject hl hmem).1

theorem length_sourceBlocks : o.sourceBlocks.length = refBlocks o.descriptors := by
  rw [ForkObject.sourceBlocks, hc.extents_eq ho, length_flatMap, map_map, refBlocks]
  refine congrArg List.sum (map_congr_left fun ref _ ↦ ?_)
  exact length_range'

/-- The first block of a descriptor is a block of the fork. -/
theorem start_mem {ref : DescriptorRef} (href : ref ∈ o.descriptors) :
    ref.extent.start ∈ o.sourceBlocks := by
  rw [ForkObject.sourceBlocks, hc.extents_eq ho, mem_flatMap]
  refine ⟨_, mem_map_of_mem href, mem_range'_1.2 ⟨le_rfl, ?_⟩⟩
  have := hc.count_ne_zero ho href
  omega

end

/-- A descriptor read again is read from its own bytes. -/
theorem reread_extent {ref : DescriptorRef} (h : Placed disk vol ref) (m : Image) :
    (ref.reread m).extent = ⟨word 4 (ref.addrs.map m) 0, word 4 (ref.addrs.map m) 4⟩ := by
  rcases h with h | h
  · exact h.reread_extent hc.catalogTree (fun _ _ ↦ catalogSlots_le) m
  · exact h.reread_extent hc.extentsTree (fun _ _ ↦ overflowSlots_le) m

theorem extent_eq {ref : DescriptorRef} (h : Placed disk vol ref) :
    ref.extent = ⟨word 4 (ref.addrs.map disk.image) 0, word 4 (ref.addrs.map disk.image) 4⟩ := by
  rw [← hc.reread_extent h]
  rcases h with h | h
  · rw [h.reread_self hc.catalogTree fun _ _ ↦ catalogSlots_le]
  · rw [h.reread_self hc.extentsTree fun _ _ ↦ overflowSlots_le]

theorem length_refAddrs {ref : DescriptorRef} (h : Placed disk vol ref) : ref.addrs.length = 8 := by
  rcases h with h | h
  · exact (h.addrs_eq hc.catalogTree fun _ _ ↦ catalogSlots_le).2
  · exact (h.addrs_eq hc.extentsTree fun _ _ ↦ overflowSlots_le).2

/-- No descriptor of a fork occurs twice. -/
theorem nodup_descriptors (ho : o ∈ objs) : o.descriptors.Nodup := by
  have hobjs := (nodup_append.1 hc.disjoint).2.1
  have hblocks := (nodup_flatMap.1 hobjs).1 o ho
  rw [ForkObject.sourceBlocks, hc.extents_eq ho, nodup_flatMap, pairwise_map] at hblocks
  refine hblocks.2.imp_of_mem fun {ref ref'} href _ hdisj heq ↦ ?_
  have hmem : ref.extent.start ∈ ref.extent.blocks := by
    have := hc.count_ne_zero ho href
    exact mem_range'_1.2 ⟨le_rfl, by omega⟩
  exact hdisj hmem (heq ▸ hmem)

/-- **The bytes of the descriptors of a fork are at different addresses.** -/
theorem nodup_refAddrs (ho : o ∈ objs) : (o.descriptors.flatMap DescriptorRef.addrs).Nodup := by
  refine nodup_flatMap.2 ⟨fun ref href ↦ ?_, ?_⟩
  · rcases hc.placed ho href with h | h
    · rw [(h.addrs_eq hc.catalogTree fun _ _ ↦ catalogSlots_le).1]
      exact hc.nodup_addrs.2.2.sublist ((take_sublist ..).trans (drop_sublist ..))
    · rw [(h.addrs_eq hc.extentsTree fun _ _ ↦ overflowSlots_le).1]
      exact hc.nodup_addrs.2.1.sublist ((take_sublist ..).trans (drop_sublist ..))
  · refine (hc.nodup_descriptors ho).imp_of_mem fun {ref ref'} href href' hne ↦ ?_
    exact disjoint_left.2 fun a ha ha' ↦
      hne (hc.eq_of_mem_addrs (hc.placed ho href) (hc.placed ho href') ha ha')

end Consistent

/-! ### Bytes of extents -/

/-- An extent survives its byte form. -/
theorem word_extentBytes {e : Extent} (hs : e.start < 4294967296) (hn : e.count < 4294967296) :
    word 4 e.bytes 0 = e.start ∧ word 4 e.bytes 4 = e.count := by
  constructor
  · refine beAt_be32Bytes hs fun i hi ↦ ?_
    rw [Nat.zero_add, bytesImage, Extent.bytes, getD_append _ _ _ _ hi, getD_eq_getElem _ _ hi]
  · refine beAt_be32Bytes hn fun i hi ↦ ?_
    rw [bytesImage, Extent.bytes, getD_append_right _ _ _ _ (by simp), length_be32Bytes,
      Nat.add_sub_cancel_left, getD_eq_getElem _ _ hi]

/-- The second half of a descriptor is its block count. -/
theorem drop_four {data : List UInt8} (h : data.length = 8) :
    data.drop 4 = be32Bytes (word 4 data 4) := by
  rw [word, be32Bytes_beAt]
  match data, h with
  | [a, b, c, d, e, f, g, i], _ => rfl

/-- Lists of pieces of one length that agree as a whole agree piece by piece. -/
theorem forall₂_of_flatMap {α β γ : Type} {f : α → List γ} {g : β → List γ} {n : ℕ} {l : List α}
    {l' : List β} (h : l.flatMap f = l'.flatMap g) (hlen : l.length = l'.length)
    (hf : ∀ a ∈ l, (f a).length = n) (hg : ∀ b ∈ l', (g b).length = n) :
    Forall₂ (fun a b ↦ f a = g b) l l' := by
  induction l generalizing l' with
  | nil =>
    obtain rfl := length_eq_zero_iff.1 hlen.symm
    exact .nil
  | cons a l ih =>
    cases l' with
    | nil => simp at hlen
    | cons b l' =>
      obtain ⟨hfa, hf'⟩ := forall_mem_cons.1 hf
      obtain ⟨hgb, hg'⟩ := forall_mem_cons.1 hg
      rw [flatMap_cons, flatMap_cons] at h
      obtain ⟨hfirst, hrest⟩ := append_inj h (hfa.trans hgb.symm)
      exact .cons hfirst (ih hrest (Nat.succ.inj hlen) hf' hg')

theorem length_contiguousExtents (cursor : ℕ) (refs : List DescriptorRef) :
    (contiguousExtents cursor refs).length = refs.length := by
  induction refs generalizing cursor with
  | nil => rfl
  | cons ref refs ih => rw [contiguousExtents, length_cons, length_cons, ih]

/-- The counts of contiguous extents are the old ones. -/
theorem forall₂_contiguousExtents (cursor : ℕ) (refs : List DescriptorRef) :
    Forall₂ (fun ref (e : Extent) ↦ e.count = ref.extent.count) refs
      (contiguousExtents cursor refs) := by
  induction refs generalizing cursor with
  | nil => exact .nil
  | cons ref refs ih => exact .cons rfl (ih _)

end LinuxDefragger.HfsPlus
