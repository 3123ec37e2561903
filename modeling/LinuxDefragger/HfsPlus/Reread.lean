import LinuxDefragger.HfsPlus.Volume
import Mathlib.Data.List.Pairwise

/-!
# Reading a volume again

A move rewrites the first halves of some extent descriptors, the bitmap, and the free count of the
header (`Confined`). `openVolume_reread` and `objects_reread` say what the engine then finds: the
same forks, with their descriptors read again.

The paths of the forks are left open: the engine does not check that a name ends before the data of
its record, so that on a malformed record it may contain a descriptor.
-/

open Except List Storage

namespace LinuxDefragger.HfsPlus

variable {J : Type}

/-! ### Places of descriptors -/

/-- The places of eight descriptors. -/
def slotOffsets (base : ℕ) : List ℕ := (List.range 8).map fun index ↦ base + index * 8

/-- The places of descriptors in a record of the extents-overflow file. -/
def overflowSlots (record : TreeRecord) : List ℕ :=
  match overflowPart record with
  | some _ => slotOffsets (dataOffset record.raw)
  | none => []

/-- The places of descriptors in a record of the catalogue. -/
def catalogSlots (record : TreeRecord) : List ℕ :=
  match catalogItem record with
  | some (.file _ dataOff _ _ _) => slotOffsets (dataOff + 104) ++ slotOffsets (dataOff + 184)
  | _ => []

/-- Bytes in the first half of a descriptor. -/
def InStart (slots : List ℕ) (i : ℕ) : Prop := ∃ s ∈ slots, s ≤ i ∧ i < s + 4

/-- Two contents of a record that differ in first halves of descriptors only. -/
structure SlotsOnly (slots : List ℕ) (raw raw' : List UInt8) : Prop where
  length : raw'.length = raw.length
  bytes : ∀ i, ¬ InStart slots i → bytesImage raw' i = bytesImage raw i

/-- The bytes of a fork in the first halves of descriptors of its records. -/
def StartBytes (slots : TreeRecord → List ℕ) (rs : List TreeRecord) (x : ℕ) : Prop :=
  ∃ r ∈ rs, ∃ s ∈ slots r, r.logicalOffset + s ≤ x ∧ x < r.logicalOffset + s + 4

variable {s : ℕ} {r : TreeRecord} {m : Image} {parts : List OverflowPart} {vol : Vol}

theorem mem_slotOffsets {base : ℕ} : s ∈ slotOffsets base ↔ ∃ i < 8, s = base + i * 8 := by
  simp [slotOffsets, eq_comm]

theorem overflowPart_eq_some {p : OverflowPart} (h : overflowPart r = some p) :
    12 ≤ dataOffset r.raw ∧ dataOffset r.raw + 64 ≤ r.raw.length ∧
      p = ⟨word 4 r.raw 4, word 1 r.raw 2, word 4 r.raw 8,
        descriptorRefs r (dataOffset r.raw)⟩ := by
  unfold overflowPart at h
  split_ifs at h with hlen hkey
  push Not at hkey
  refine ⟨?_, hkey.2, (Option.some.inj h).symm⟩
  unfold dataOffset
  split_ifs
  · omega
  · omega

variable {fileId : ℕ} {allow : Bool}

theorem catalogItem_file {r' : TreeRecord} {dataOff parent : ℕ} {name : List ℕ}
    (h : catalogItem r = some (.file r' dataOff parent name fileId)) :
    r' = r ∧ dataOff = dataOffset r.raw ∧ 8 ≤ dataOff ∧ dataOff + 248 ≤ r.raw.length ∧
      parent = word 4 r.raw 2 ∧ fileId = word 4 r.raw (dataOff + 8) ∧ word 2 r.raw dataOff = 2 ∧
      6 ≤ word 2 r.raw 0 ∧ 8 + word 2 r.raw 6 * 2 ≤ r.raw.length := by
  simp only [catalogItem] at h
  split_ifs at h with hlen hkey hname hfolder hfile
  · cases Option.some.inj h
  injection Option.some.inj h with h₁ h₂ h₃ h₄ h₅
  subst h₁ h₂ h₃ h₅
  push Not at hkey hname
  refine ⟨rfl, rfl, ?_, hfile.2, rfl, rfl, hfile.1, hkey.1, hname⟩
  unfold dataOffset
  split_ifs
  · omega
  · omega

theorem overflowSlots_le (hs : s ∈ overflowSlots r) : s + 8 ≤ r.raw.length := by
  unfold overflowSlots at hs
  split at hs
  · next hp =>
    obtain ⟨i, hi, rfl⟩ := mem_slotOffsets.1 hs
    have := (overflowPart_eq_some hp).2.1
    omega
  · simp at hs

theorem mem_catalogSlots (hs : s ∈ catalogSlots r) : ∃ dataOff parent name fileId,
      catalogItem r = some (.file r dataOff parent name fileId) ∧
      ∃ i < 8, s = dataOff + 104 + i * 8 ∨ s = dataOff + 184 + i * 8 := by
  unfold catalogSlots at hs
  split at hs
  · next hitem =>
    obtain ⟨rfl, -⟩ := catalogItem_file hitem
    refine ⟨_, _, _, _, hitem, ?_⟩
    rcases mem_append.1 hs with hs | hs
    · obtain ⟨i, hi, rfl⟩ := mem_slotOffsets.1 hs
      exact ⟨i, hi, .inl rfl⟩
    · obtain ⟨i, hi, rfl⟩ := mem_slotOffsets.1 hs
      exact ⟨i, hi, .inr rfl⟩
  · simp at hs

theorem catalogSlots_le (hs : s ∈ catalogSlots r) : s + 8 ≤ r.raw.length := by
  obtain ⟨dataOff, parent, name, fileId, hitem, i, hi, heq⟩ := mem_catalogSlots hs
  obtain ⟨-, -, -, hle, -⟩ := catalogItem_file hitem
  omega

namespace SlotsOnly

variable {slots : List ℕ} {raw raw' : List UInt8} (h : SlotsOnly slots raw raw')
include h

theorem word_eq {n offset : ℕ} (hn : ∀ i < n, ¬ InStart slots (offset + i)) :
    word n raw' offset = word n raw offset :=
  beAt_congr fun i hi ↦ h.bytes _ (hn i hi)

/-- Without descriptors nothing changes. -/
theorem eq_of_nil (hslots : slots = []) : raw' = raw := by
  refine ext_getElem h.length fun i h₁ h₂ ↦ ?_
  have hbyte := h.bytes i (by simp [InStart, hslots])
  rwa [bytesImage, bytesImage, getD_eq_getElem _ _ h₁, getD_eq_getElem _ _ h₂] at hbyte

/-- Where the key ends. -/
theorem dataOffset_eq (hkey : ∀ i < 2, ¬ InStart slots i) : dataOffset raw' = dataOffset raw := by
  have hword : word 2 raw' 0 = word 2 raw 0 := h.word_eq fun i hi ↦ by
    rw [Nat.zero_add]
    exact hkey i hi
  simp only [dataOffset, hword]

end SlotsOnly

/-! ### Records read again -/

/-- A descriptor as another image has it. -/
def DescriptorRef.reread (m : Image) (ref : DescriptorRef) : DescriptorRef :=
  descriptorAt (ref.record.reread m) ref.relative

/-- A part of the overflow file as another image has it. -/
def OverflowPart.reread (m : Image) (p : OverflowPart) : OverflowPart :=
  { p with refs := p.refs.map (DescriptorRef.reread m) }

/-- The second halves of descriptors are the same on another image. -/
def CountsKept (m : Image) (refs : List DescriptorRef) : Prop :=
  ∀ ref ∈ refs, (ref.reread m).extent.count = ref.extent.count

theorem CountsKept.refBlocks_eq {refs : List DescriptorRef} (h : CountsKept m refs) :
    refBlocks (refs.map (DescriptorRef.reread m)) = refBlocks refs := by
  rw [refBlocks, refBlocks, map_map]
  exact congrArg List.sum (map_congr_left fun ref hr ↦ h ref hr)

/-- Eight descriptors of a record whose first halves changed. -/
theorem descriptorRefs_reread {slots : List ℕ} {base : ℕ}
    (h : SlotsOnly slots r.raw (r.reread m).raw)
    (hcount : ∀ i < 8, ∀ k < 4, ¬ InStart slots (base + i * 8 + 4 + k)) :
    descriptorRefs (r.reread m) base = (descriptorRefs r base).map (DescriptorRef.reread m) ∧
      CountsKept m (descriptorRefs r base) := by
  have hkept (i : ℕ) (hi : i < 8) : word 4 (r.reread m).raw (base + i * 8 + 4) =
      word 4 r.raw (base + i * 8 + 4) := h.word_eq fun k hk ↦ hcount i hi k hk
  constructor
  · rw [descriptorRefs, descriptorRefs, filter_map, filter_map, map_map]
    have hfilter : (range 8).filter ((fun ref : DescriptorRef ↦ decide (ref.extent.count ≠ 0)) ∘
          fun index ↦ descriptorAt (r.reread m) (base + index * 8)) =
        (range 8).filter ((fun ref : DescriptorRef ↦ decide (ref.extent.count ≠ 0)) ∘
          fun index ↦ descriptorAt r (base + index * 8)) :=
      filter_congr fun i hi ↦ decide_eq_decide.2 (by
        show word 4 _ (base + i * 8 + 4) ≠ 0 ↔ word 4 _ (base + i * 8 + 4) ≠ 0
        rw [hkept i (mem_range.1 hi)])
    rw [hfilter]
    rfl
  · intro ref href
    obtain ⟨hmem, -⟩ := mem_filter.1 href
    obtain ⟨i, hi, rfl⟩ := mem_map.1 hmem
    exact hkept i (mem_range.1 hi)

/-- **A record of the overflow file read again.** -/
theorem overflowPart_reread (h : SlotsOnly (overflowSlots r) r.raw (r.reread m).raw) :
    overflowPart (r.reread m) = (overflowPart r).map (OverflowPart.reread m) ∧
      ∀ p, overflowPart r = some p → CountsKept m p.refs := by
  rcases hp : overflowPart r with _ | p
  · have hslots : overflowSlots r = [] := by rw [overflowSlots, hp]
    have hsame : r.reread m = r := by
      have := h.eq_of_nil hslots
      cases r
      simp only [TreeRecord.reread, TreeRecord.mk.injEq, true_and] at this ⊢
      exact this
    rw [hsame, hp]
    exact ⟨rfl, fun p hp ↦ by cases hp⟩
  have hslots : overflowSlots r = slotOffsets (dataOffset r.raw) := by rw [overflowSlots, hp]
  obtain ⟨hlow, hroom, rfl⟩ := overflowPart_eq_some hp
  rw [hslots] at h
  -- the key is in front of the descriptors
  have hkey (i : ℕ) (hi : i < 12) : ¬ InStart (slotOffsets (dataOffset r.raw)) i := by
    rintro ⟨s, hs, hle, -⟩
    obtain ⟨k, -, rfl⟩ := mem_slotOffsets.1 hs
    omega
  have hword (n offset : ℕ) (hn : offset + n ≤ 12) :
      word n (r.reread m).raw offset = word n r.raw offset :=
    h.word_eq fun i hi ↦ hkey _ (by omega)
  have hdata : dataOffset (r.reread m).raw = dataOffset r.raw :=
    h.dataOffset_eq fun i hi ↦ hkey i (by omega)
  have hcount (i : ℕ) (_ : i < 8) (k : ℕ) (hk : k < 4) :
      ¬ InStart (slotOffsets (dataOffset r.raw)) (dataOffset r.raw + i * 8 + 4 + k) := by
    rintro ⟨s, hs, hle, hlt⟩
    obtain ⟨j, -, rfl⟩ := mem_slotOffsets.1 hs
    omega
  obtain ⟨hrefs, hkept⟩ := descriptorRefs_reread h hcount
  constructor
  · rw [overflowPart] at hp ⊢
    rw [h.length, hdata, hword 2 0 (by omega)]
    split_ifs at hp ⊢ with hlen hshort
    rw [Option.map_some, OverflowPart.reread, hword 4 4 (by omega), hword 1 2 (by omega),
      hword 4 8 (by omega), hrefs]
  · intro p hp'
    rw [← Option.some.inj hp']
    exact hkept

/-- A record of the catalogue as another image has it. -/
inductive CatalogItem.Reread (m : Image) : CatalogItem → CatalogItem → Prop
  | folder (id parent : ℕ) (name : List ℕ) : Reread m (.folder id parent name)
      (.folder id parent name)
  | file (r : TreeRecord) (dataOff parent : ℕ) (name name' : List ℕ) (fileId : ℕ)
      (slots : SlotsOnly (slotOffsets (dataOff + 104) ++ slotOffsets (dataOff + 184)) r.raw
        (r.reread m).raw) :
      Reread m (.file r dataOff parent name fileId) (.file (r.reread m) dataOff parent name' fileId)

/-- **A record of the catalogue read again.** -/
theorem catalogItem_reread (h : SlotsOnly (catalogSlots r) r.raw (r.reread m).raw) :
    Option.Rel (CatalogItem.Reread m) (catalogItem r) (catalogItem (r.reread m)) := by
  by_cases hslots : catalogSlots r = []
  · have hsame : r.reread m = r := by
      have := h.eq_of_nil hslots
      cases r
      simp only [TreeRecord.reread, TreeRecord.mk.injEq, true_and] at this ⊢
      exact this
    rw [hsame]
    rcases hitem : catalogItem r with _ | (⟨id, parent, name⟩ | ⟨r', dataOff, parent, name, fileId⟩)
    · exact .none
    · exact .some (.folder ..)
    · rw [catalogSlots, hitem] at hslots
      simp [slotOffsets] at hslots
  obtain ⟨s, hs⟩ := exists_mem_of_ne_nil _ hslots
  obtain ⟨dataOff, parent, name, fileId, hitem, -⟩ := mem_catalogSlots hs
  have hslots' : catalogSlots r = slotOffsets (dataOff + 104) ++ slotOffsets (dataOff + 184) := by
    rw [catalogSlots, hitem]
  rw [hslots'] at h
  obtain ⟨-, hoff, hlow, hroom, hparent, hid, hkind, hkey, hname⟩ := catalogItem_file hitem
  -- everything but the name is in front of the descriptors
  have hfront (i : ℕ) (hi : i < dataOff + 104) :
      ¬ InStart (slotOffsets (dataOff + 104) ++ slotOffsets (dataOff + 184)) i := by
    rintro ⟨s, hs, hle, -⟩
    rcases mem_append.1 hs with hs | hs
    · obtain ⟨k, -, rfl⟩ := mem_slotOffsets.1 hs
      omega
    · obtain ⟨k, -, rfl⟩ := mem_slotOffsets.1 hs
      omega
  have hword (n offset : ℕ) (hn : offset + n ≤ dataOff + 104) :
      word n (r.reread m).raw offset = word n r.raw offset :=
    h.word_eq fun i hi ↦ hfront _ (by omega)
  have hdata : dataOffset (r.reread m).raw = dataOff := by
    rw [hoff]
    exact h.dataOffset_eq fun i hi ↦ hfront i (by omega)
  have hitem' : ∃ name', catalogItem (r.reread m) =
      some (.file (r.reread m) dataOff parent name' fileId) := by
    simp only [catalogItem, hdata, h.length, hword 2 0 (by omega), hword 2 6 (by omega),
      hword 2 dataOff (by omega), hword 4 2 (by omega), hword 4 (dataOff + 8) (by omega), hkind,
      ← hparent, ← hid]
    rw [if_neg (by omega), if_neg (by omega), if_neg (by omega), if_neg (by omega),
      if_pos ⟨trivial, hroom⟩]
    exact ⟨_, rfl⟩
  obtain ⟨name', hitem'⟩ := hitem'
  rw [hitem, hitem']
  exact .some (.file _ _ _ _ _ _ h)

/-! ### Forks read again -/

/-- A fork as another image has it. -/
structure ForkObject.Reread (m : Image) (o o' : ForkObject) : Prop where
  fileId : o'.fileId = o.fileId
  forkType : o'.forkType = o.forkType
  logicalSize : o'.logicalSize = o.logicalSize
  totalBlocks : o'.totalBlocks = o.totalBlocks
  descriptors : o'.descriptors = o.descriptors.map (DescriptorRef.reread m)
  counts : CountsKept m o.descriptors

theorem overflowRefs_reread (m : Image) (parts : List OverflowPart) (fileId forkType : ℕ) :
    overflowRefs (parts.map (OverflowPart.reread m)) fileId forkType =
      (overflowRefs parts fileId forkType).map (DescriptorRef.reread m) := by
  set ps := parts.filter fun p ↦ p.fileId = fileId ∧ p.forkType = forkType with hps
  have hsort := map_insertionSort (r := fun p q ↦ p.startBlock ≤ q.startBlock)
    (s := fun p q ↦ p.startBlock ≤ q.startBlock) (OverflowPart.reread m) ps
    fun p _ q _ ↦ Iff.rfl
  rw [overflowRefs, overflowRefs, filter_map]
  change ((ps.map (OverflowPart.reread m)).insertionSort _).flatMap _ = _
  rw [← hsort, flatMap_map, map_flatMap]
  rfl

theorem mem_overflowRefs {forkType : ℕ} {ref : DescriptorRef}
    (h : ref ∈ overflowRefs parts fileId forkType) : ∃ p ∈ parts, ref ∈ p.refs := by
  obtain ⟨p, hp, href⟩ := mem_flatMap.1 h
  have hp' := (perm_insertionSort _ _).mem_iff.1 hp
  exact ⟨p, (mem_filter.1 hp').1, href⟩

/-- **A fork of a record read again.** -/
theorem forkObject_reread {dataOff : ℕ}
    (hslots : SlotsOnly (slotOffsets (dataOff + 104) ++ slotOffsets (dataOff + 184)) r.raw
      (r.reread m).raw) (hparts : ∀ p ∈ parts, CountsKept m p.refs) {path : List ℕ} (path' : List ℕ)
    {fork : ℕ × ℕ} (hfork : fork ∈ [(0, dataOff + 88), (0xFF, dataOff + 168)]) {l : List ForkObject}
    (h : forkObject parts path r fileId fork = .ok l) :
    ∃ l', forkObject (parts.map (OverflowPart.reread m)) path' (r.reread m) fileId fork = .ok l' ∧
      Forall₂ (ForkObject.Reread m) l l' := by
  have hbase : fork.2 = dataOff + 88 ∨ fork.2 = dataOff + 168 := by
    rcases mem_pair.1 hfork with rfl | rfl
    · exact .inl rfl
    · exact .inr rfl
  -- the changed bytes are at multiples of eight behind the sizes
  have hmem (i : ℕ) (hi : InStart (slotOffsets (dataOff + 104) ++ slotOffsets (dataOff + 184)) i) :
      ∃ k j, k < 8 ∧ j < 4 ∧ (i = dataOff + 104 + k * 8 + j ∨ i = dataOff + 184 + k * 8 + j) := by
    obtain ⟨s, hs, hle, hlt⟩ := hi
    rcases mem_append.1 hs with hs | hs
    · obtain ⟨k, hk, rfl⟩ := mem_slotOffsets.1 hs
      exact ⟨k, i - (dataOff + 104 + k * 8), hk, by omega, by omega⟩
    · obtain ⟨k, hk, rfl⟩ := mem_slotOffsets.1 hs
      exact ⟨k, i - (dataOff + 184 + k * 8), hk, by omega, by omega⟩
  have hword (n offset : ℕ) (hlow : fork.2 ≤ offset) (hn : offset + n ≤ fork.2 + 16) :
      word n (r.reread m).raw offset = word n r.raw offset :=
    hslots.word_eq fun i hi hin ↦ by
      obtain ⟨k, j, hk, hj, hij⟩ := hmem _ hin
      omega
  have hcount (i : ℕ) (hi : i < 8) (k : ℕ) (hk : k < 4) :
      ¬ InStart (slotOffsets (dataOff + 104) ++ slotOffsets (dataOff + 184))
        (fork.2 + 16 + i * 8 + 4 + k) := fun hin ↦ by
    obtain ⟨k', j, hk', hj, hij⟩ := hmem _ hin
    omega
  obtain ⟨hrefs, hkept⟩ := descriptorRefs_reread hslots hcount
  have hkept' : CountsKept m (overflowRefs parts fileId fork.1) := fun ref href ↦ by
    obtain ⟨p, hp, href⟩ := mem_overflowRefs href
    exact hparts p hp ref href
  simp only [forkObject] at h ⊢
  rw [raiseIf_bind_eq_ok] at h
  obtain ⟨hcover, h⟩ := h
  obtain rfl := ok.inj h
  have hall : (if refBlocks (descriptorRefs (r.reread m) (fork.2 + 16)) <
        word 4 (r.reread m).raw (fork.2 + 12) then
        descriptorRefs (r.reread m) (fork.2 + 16) ++
          overflowRefs (parts.map (OverflowPart.reread m)) fileId fork.1
      else descriptorRefs (r.reread m) (fork.2 + 16)) =
      (if refBlocks (descriptorRefs r (fork.2 + 16)) < word 4 r.raw (fork.2 + 12) then
        descriptorRefs r (fork.2 + 16) ++ overflowRefs parts fileId fork.1
      else descriptorRefs r (fork.2 + 16)).map (DescriptorRef.reread m) := by
    rw [hrefs, hkept.refBlocks_eq, hword 4 (fork.2 + 12) (by omega) (by omega), overflowRefs_reread]
    split_ifs
    · rw [map_append]
    · rfl
  rw [hall, hword 8 fork.2 (by omega) (by omega), hword 4 (fork.2 + 12) (by omega) (by omega)]
  set refs := if refBlocks (descriptorRefs r (fork.2 + 16)) < word 4 r.raw (fork.2 + 12) then
    descriptorRefs r (fork.2 + 16) ++ overflowRefs parts fileId fork.1
    else descriptorRefs r (fork.2 + 16) with hrefsdef
  have hkeptall : CountsKept m refs := by
    intro ref href
    rw [hrefsdef] at href
    split_ifs at href
    · rcases mem_append.1 href with href | href
      · exact hkept ref href
      · exact hkept' ref href
    · exact hkept ref href
  rw [raiseIf_bind_of_not (by rwa [hkeptall.refBlocks_eq])]
  refine ⟨_, rfl, ?_⟩
  split_ifs
  · exact .cons ⟨rfl, rfl, rfl, rfl, rfl, hkeptall⟩ .nil
  · exact .nil

theorem fileObjects_reread {items : List CatalogItem} (items' : List CatalogItem)
    (hparts : ∀ p ∈ parts, CountsKept m p.refs) {item item' : CatalogItem}
    (hitem : item.Reread m item') {l : List ForkObject} (h : fileObjects parts items item = .ok l) :
    ∃ l', fileObjects (parts.map (OverflowPart.reread m)) items' item' = .ok l' ∧
      Forall₂ (ForkObject.Reread m) l l' := by
  cases hitem with
  | folder id parent name =>
    obtain rfl := ok.inj h
    exact ⟨[], rfl, .nil⟩
  | file r dataOff parent name name' fileId hslots =>
    rw [fileObjects, bind_eq_ok] at h
    obtain ⟨forks, hforks, h⟩ := h
    obtain rfl := ok.inj h
    have hsame : Forall₂ (fun fork fork' ↦ fork' = fork ∧
        fork ∈ [(0, dataOff + 88), (0xFF, dataOff + 168)])
        [(0, dataOff + 88), (0xFF, dataOff + 168)] [(0, dataOff + 88), (0xFF, dataOff + 168)] :=
      forall₂_same.2 fun fork hfork ↦ ⟨rfl, hfork⟩
    obtain ⟨forks', hforks', hrel⟩ := mapM_forall₂ hsame hforks
      fun fork fork' l hfork hl ↦ by
        rw [hfork.1]
        exact forkObject_reread hslots hparts (filePath items' parent name') hfork.2 hl
    refine ⟨forks'.flatten, ?_, rel_flatten hrel⟩
    rw [fileObjects, hforks']
    rfl

/-! ### The volume read again -/

section Volume

variable {disk disk' : Disk J} {f : ForkMap} {rs : List TreeRecord}

/-- A byte is in one record only. -/
theorem eq_of_mem_span (h : walkLeafRecords disk f = .ok rs) (hwf : TreeWellFormed disk f)
    {r' : TreeRecord} (hr : r ∈ rs) (hr' : r' ∈ rs) {x : ℕ} (hx : x ∈ r.span) (hx' : x ∈ r'.span) :
    r = r' := by
  by_contra hne
  have hpair := (nodup_flatMap.1 (nodup_spans h hwf)).2
  have : Std.Symm (Function.onFun List.Disjoint TreeRecord.span) := ⟨fun a b hab ↦ hab.symm⟩
  exact hpair.forall hr hr' hne hx hx'

/-- **Records whose descriptors changed**: the walk finds the same records. -/
theorem walkLeafRecords_slots (h : walkLeafRecords disk f = .ok rs) (hwf : TreeWellFormed disk f)
    {slots : TreeRecord → List ℕ} (hslots : ∀ r ∈ rs, ∀ s ∈ slots r, s + 8 ≤ r.raw.length)
    (hsize : disk'.size = disk.size)
    (hagree : AgreeOff f disk.image disk'.image (StartBytes slots rs)) :
    walkLeafRecords disk' f = .ok (rs.map (TreeRecord.reread disk'.image)) ∧
    TreeWellFormed disk' f ∧
      ∀ r ∈ rs, SlotsOnly (slots r) r.raw (r.reread disk'.image).raw := by
  have hspan (x : ℕ) (hx : StartBytes slots rs x) : ∃ r ∈ rs, x ∈ r.span := by
    obtain ⟨r, hr, s, hs, hle, hlt⟩ := hx
    have := hslots r hr s hs
    exact ⟨r, hr, mem_range'_1.2 ⟨by omega, by omega⟩⟩
  obtain ⟨hwalk, hwf'⟩ := walkLeafRecords_reread h hwf hsize fun x a ha hnot ↦
    hagree x a ha fun hx ↦ hnot (hspan x hx)
  refine ⟨hwalk, hwf', fun r hr ↦ ?_⟩
  obtain ⟨hfork, hraw, -, -⟩ := mem_walkLeafRecords h hwf hr
  have hreread :
      (r.reread disk'.image).raw = f.bytesAt disk'.image r.logicalOffset r.raw.length := by
    rw [TreeRecord.reread, hfork]
  have hlen : (r.reread disk'.image).raw.length = r.raw.length := by
    rw [hreread, f.length_bytesAt_eq disk.image, ← hraw]
  refine ⟨hlen, fun i hi ↦ ?_⟩
  by_cases hlt : i < r.raw.length
  · conv_rhs => rw [hraw]
    rw [hreread]
    refine hagree.bytesImage_eq hlt ?_
    rintro ⟨r', hr', s, hs, hle, hlt'⟩
    have hle' := hslots r' hr' s hs
    obtain rfl := eq_of_mem_span h hwf hr hr'
      (mem_range'_1.2 ⟨Nat.le_add_right .., Nat.add_lt_add_left hlt _⟩)
      (mem_range'_1.2 ⟨by omega, by omega⟩)
    exact hi ⟨s, hs, by omega, by omega⟩
  · rw [bytesImage, bytesImage, getD_eq_default _ _ (by omega), getD_eq_default _ _ (by omega)]

/-- Nothing changed on a disk but first halves of descriptors, the free count, and bytes that the
volume header and the trees do not hold. -/
structure Confined (disk disk' : Disk J) (vol : Vol) : Prop where
  size : disk'.size = disk.size
  header : ∀ i < 512, ¬ (48 ≤ i ∧ i < 52) → disk'.image (1024 + i) = disk.image (1024 + i)
  extents : ∀ rs, walkLeafRecords disk vol.extentsFork = .ok rs →
    AgreeOff vol.extentsFork disk.image disk'.image (StartBytes overflowSlots rs)
  catalog : ∀ rs, walkLeafRecords disk vol.catalogFork = .ok rs →
    AgreeOff vol.catalogFork disk.image disk'.image (StartBytes catalogSlots rs)

/-- A volume as another image has it. -/
def Vol.reread (m : Image) (vol : Vol) : Vol :=
  { vol with
    freeBlocks := beAt m 4 1072
    bitmap := vol.allocationFork.bytesAt m 0 (bitmapLength vol.totalBlocks)
    overflow := vol.overflow.map (OverflowPart.reread m) }

theorem parseOverflow_reread (h : parseOverflow disk f = .ok parts) (hwf : TreeWellFormed disk f)
    (hsize : disk'.size = disk.size) (hagree : ∀ rs, walkLeafRecords disk f = .ok rs →
      AgreeOff f disk.image disk'.image (StartBytes overflowSlots rs)) :
    parseOverflow disk' f = .ok (parts.map (OverflowPart.reread disk'.image)) ∧
      ∀ p ∈ parts, CountsKept disk'.image p.refs := by
  rw [parseOverflow] at h ⊢
  by_cases hzero : f.logicalSize = 0
  · rw [if_pos hzero] at h ⊢
    obtain rfl := ok.inj h
    exact ⟨rfl, by simp⟩
  rw [if_neg hzero, bind_eq_ok] at h
  obtain ⟨rs, hrs, h⟩ := h
  simp only at h
  split_ifs at h with hnodup
  obtain rfl := ok.inj h
  obtain ⟨hwalk, -, hslots⟩ := walkLeafRecords_slots hrs hwf
    (fun r _ s hs ↦ overflowSlots_le hs) hsize (hagree rs hrs)
  -- part by part
  have hparts : (rs.map (TreeRecord.reread disk'.image)).filterMap overflowPart =
      (rs.filterMap overflowPart).map (OverflowPart.reread disk'.image) := by
    rw [filterMap_map, map_filterMap]
    exact filterMap_congr fun r hr ↦ (overflowPart_reread (hslots r hr)).1
  have hkeys : (((rs.filterMap overflowPart).map (OverflowPart.reread disk'.image)).filter
      (·.refs ≠ [])).map OverflowPart.key =
      ((rs.filterMap overflowPart).filter (·.refs ≠ [])).map OverflowPart.key := by
    rw [filter_map, map_map]
    have hempty (p : OverflowPart) : (p.reread disk'.image).refs ≠ [] ↔ p.refs ≠ [] := by
      simp [OverflowPart.reread]
    congr 1
    exact filter_congr fun p _ ↦ decide_eq_decide.2 (hempty p)
  constructor
  · rw [if_neg hzero, hwalk, ok_bind, hparts]
    simp only [hkeys, if_pos hnodup]
    rfl
  · intro p hp
    obtain ⟨r, hr, hpart⟩ := mem_filterMap.1 hp
    exact (overflowPart_reread (hslots r hr)).2 p hpart

/-- What a volume that opens was read from. -/
structure Opened (disk : Disk J) (allowInconsistent : Bool) (vol : Vol) (header : List UInt8) :
    Prop where
  read : volumeRead disk 1024 512 = .ok header
  checked : checkHeader disk.size header allowInconsistent = .ok ()
  allocation : forkMap (word 4 header 40) (parseFork header 112) = .ok vol.allocationFork
  extents : forkMap (word 4 header 40) (parseFork header 192) = .ok vol.extentsFork
  catalog : forkMap (word 4 header 40) (parseFork header 272) = .ok vol.catalogFork
  long : ¬ vol.allocationFork.logicalSize < bitmapLength (word 4 header 44)
  bitmap : vol.allocationFork.read disk 0 (bitmapLength (word 4 header 44)) = .ok vol.bitmap
  overflow : parseOverflow disk vol.extentsFork = .ok vol.overflow
  signature : vol.signature = header.take 2
  createDate : vol.createDate = word 4 header 16
  blockSize : vol.blockSize = word 4 header 40
  totalBlocks : vol.totalBlocks = word 4 header 44
  freeBlocks : vol.freeBlocks = word 4 header 48

theorem openVolume_eq_ok :
    openVolume disk allow = .ok vol ↔ ∃ header, Opened disk allow vol header := by
  rw [openVolume, bind_eq_ok]
  constructor
  · rintro ⟨header, hheader, h⟩
    obtain ⟨⟨⟩, hcheck, h⟩ := bind_eq_ok.1 h
    obtain ⟨alloc, halloc, h⟩ := bind_eq_ok.1 h
    obtain ⟨ext, hext, h⟩ := bind_eq_ok.1 h
    obtain ⟨cat, hcat, h⟩ := bind_eq_ok.1 h
    rw [raiseIf_bind_eq_ok] at h
    obtain ⟨hlong, h⟩ := h
    obtain ⟨bm, hbm, h⟩ := bind_eq_ok.1 h
    obtain ⟨ovf, hover, h⟩ := bind_eq_ok.1 h
    obtain rfl := ok.inj h
    exact ⟨header, hheader, hcheck, halloc, hext, hcat, hlong, hbm, hover, rfl, rfl, rfl, rfl, rfl⟩
  · rintro ⟨header, h⟩
    refine ⟨header, h.read, ?_⟩
    rw [h.checked, ok_bind]
    simp only
    rw [h.allocation, ok_bind, h.extents, ok_bind, h.catalog, ok_bind,
      raiseIf_bind_of_not h.long, h.bitmap, ok_bind, h.overflow, ok_bind, ← h.signature,
      ← h.createDate, ← h.blockSize, ← h.totalBlocks, ← h.freeBlocks]
    rfl

/-- **A volume opens again after a confined change.** -/
theorem openVolume_reread (h : openVolume disk allow = .ok vol)
    (hwf : TreeWellFormed disk vol.extentsFork) (hc : Confined disk disk' vol) :
    openVolume disk' allow = .ok (vol.reread disk'.image) ∧
      ∀ p ∈ vol.overflow, CountsKept disk'.image p.refs := by
  obtain ⟨header, h⟩ := openVolume_eq_ok.1 h
  obtain ⟨hover, hkept⟩ := parseOverflow_reread h.overflow hwf hc.size hc.extents
  refine ⟨openVolume_eq_ok.2 ⟨disk'.image.read 1024 512, ?_⟩, hkept⟩
  obtain ⟨hle, hheader⟩ := volumeRead_eq_ok.1 h.read
  -- away from the free count the header is the same
  have hbyte (i : ℕ) (hi : i < 512) (hfree : ¬ (48 ≤ i ∧ i < 52)) :
      bytesImage (disk'.image.read 1024 512) i = bytesImage header i := by
    rw [hheader, bytesImage, bytesImage, getD_eq_getElem _ _ (by rwa [Image.read_length]),
      getD_eq_getElem _ _ (by rwa [Image.read_length]), Image.getElem_read,
      Image.getElem_read, hc.header i hi hfree]
  have hword (n offset : ℕ) (hn : offset + n ≤ 48 ∨ 52 ≤ offset ∧ offset + n ≤ 512) :
      word n (disk'.image.read 1024 512) offset = word n header offset :=
    beAt_congr fun i hi ↦ hbyte _ (by omega) (by omega)
  have hfork (offset : ℕ) (hlow : 52 ≤ offset) (hhigh : offset + 80 ≤ 512) :
      parseFork (disk'.image.read 1024 512) offset = parseFork header offset := by
    have hexts : ∀ i ∈ range 8, Extent.mk
        (word 4 (disk'.image.read 1024 512) (offset + 16 + i * 8))
        (word 4 (disk'.image.read 1024 512) (offset + 20 + i * 8)) =
        ⟨word 4 header (offset + 16 + i * 8), word 4 header (offset + 20 + i * 8)⟩ := fun i hi ↦ by
      have hi' := mem_range.1 hi
      rw [hword 4 (offset + 16 + i * 8) (by omega), hword 4 (offset + 20 + i * 8) (by omega)]
    rw [parseFork, parseFork, hword 8 offset (by omega), hword 4 (offset + 12) (by omega),
      map_congr_left hexts]
  have htake : (disk'.image.read 1024 512).take 2 = header.take 2 := by
    refine ext_getElem (by simp [hheader]) fun i h₁ h₂ ↦ ?_
    have hi : i < 2 := by
      rw [length_take] at h₁
      omega
    have hb := hbyte i (by omega) (by omega)
    rw [bytesImage, bytesImage, getD_eq_getElem _ _ (by rw [Image.read_length]; omega),
      getD_eq_getElem _ _ (by rw [hheader, Image.read_length]; omega)] at hb
    rwa [getElem_take, getElem_take]
  exact
    { read := volumeRead_eq_ok.2 ⟨by rwa [hc.size], rfl⟩
      checked := by
        rw [checkHeader, htake, hword 4 40 (by omega), hword 4 44 (by omega),
          hword 4 4 (by omega), hc.size]
        exact h.checked
      allocation := by
        rw [hfork 112 (by omega) (by omega), hword 4 40 (by omega)]
        exact h.allocation
      extents := by
        rw [hfork 192 (by omega) (by omega), hword 4 40 (by omega)]
        exact h.extents
      catalog := by
        rw [hfork 272 (by omega) (by omega), hword 4 40 (by omega)]
        exact h.catalog
      long := by
        rw [hword 4 44 (by omega)]
        exact h.long
      bitmap := by
        rw [hword 4 44 (by omega), Vol.reread, h.totalBlocks]
        exact ForkMap.read_of_size h.bitmap hc.size
      overflow := hover
      signature := h.signature.trans htake.symm
      createDate := h.createDate.trans (hword 4 16 (by omega)).symm
      blockSize := h.blockSize.trans (hword 4 40 (by omega)).symm
      totalBlocks := h.totalBlocks.trans (hword 4 44 (by omega)).symm
      freeBlocks := beAt_congr fun i hi ↦ by
        rw [bytesImage, getD_eq_getElem _ _ (by rw [Image.read_length]; omega),
          Image.getElem_read, ← Nat.add_assoc] }

/-- **The forks after a confined change.** -/
theorem objects_reread {objs : List ForkObject} (h : vol.objects disk = .ok objs)
    (hkept : ∀ p ∈ vol.overflow, CountsKept disk'.image p.refs)
    (hwf : TreeWellFormed disk vol.catalogFork) (hc : Confined disk disk' vol) :
    ∃ objs', (vol.reread disk'.image).objects disk' = .ok objs' ∧
      Forall₂ (ForkObject.Reread disk'.image) objs objs' := by
  rw [Vol.objects, bind_eq_ok] at h
  obtain ⟨rs, hrs, h⟩ := h
  obtain ⟨lists, hlists, h⟩ := bind_eq_ok.1 h
  obtain rfl := ok.inj h
  obtain ⟨hwalk, -, hslots⟩ := walkLeafRecords_slots hrs hwf
    (fun r _ s hs ↦ catalogSlots_le hs) hc.size (hc.catalog rs hrs)
  have hitems : Forall₂ (CatalogItem.Reread disk'.image) (rs.filterMap catalogItem)
      ((rs.map (TreeRecord.reread disk'.image)).filterMap catalogItem) := by
    rw [filterMap_map]
    refine rel_filterMap (R := fun r r' ↦ r = r' ∧ r ∈ rs) ?_
      (forall₂_same.2 fun r hr ↦ ⟨rfl, hr⟩)
    rintro r r' ⟨rfl, hr⟩
    exact catalogItem_reread (hslots r hr)
  obtain ⟨lists', hlists', hrel⟩ := mapM_forall₂ hitems hlists
    fun item item' l hitem hl ↦ fileObjects_reread
      ((rs.map (TreeRecord.reread disk'.image)).filterMap catalogItem) hkept hitem hl
  refine ⟨lists'.flatten, ?_, rel_flatten hrel⟩
  rw [Vol.objects]
  change (walkLeafRecords disk' vol.catalogFork >>= _) = _
  rw [hwalk, ok_bind]
  simp only [Vol.reread, hlists', ok_bind]
  rfl

/-! ### Nothing changed -/

theorem ForkMap.bytesAt_congr {m' : Image} (h : ∀ a ∈ f.addrs, m' a = m a) (offset length : ℕ) :
    f.bytesAt m' offset length = f.bytesAt m offset length :=
  map_congr_left fun a ha ↦ h a (mem_of_mem_drop (mem_of_mem_take ha))

/-- A tree none of whose bytes changed. -/
theorem walkLeafRecords_same (h : walkLeafRecords disk f = .ok rs) (hwf : TreeWellFormed disk f)
    (hsize : disk'.size = disk.size) (hsame : ∀ a ∈ f.addrs, disk'.image a = disk.image a) :
    walkLeafRecords disk' f = .ok rs := by
  rw [(walkLeafRecords_reread h hwf hsize fun x a ha _ ↦ hsame a (mem_of_getElem? ha)).1]
  refine congrArg Except.ok ((map_congr_left fun r hr ↦ ?_).trans (map_id rs))
  obtain ⟨hfork, hraw, -⟩ := mem_walkLeafRecords h hwf hr
  rw [TreeRecord.reread, hfork, ForkMap.bytesAt_congr hsame, ← hraw, ← hfork]
  rfl

theorem parseOverflow_same (h : parseOverflow disk f = .ok parts) (hwf : TreeWellFormed disk f)
    (hsize : disk'.size = disk.size) (hsame : ∀ a ∈ f.addrs, disk'.image a = disk.image a) :
    parseOverflow disk' f = .ok parts := by
  rw [parseOverflow] at h ⊢
  split_ifs at h ⊢ with hzero
  · exact h
  · obtain ⟨rs, hrs, h⟩ := bind_eq_ok.1 h
    rw [walkLeafRecords_same hrs hwf hsize hsame, ok_bind]
    exact h

/-- **A volume none of whose structures changed** is read as before. -/
theorem openVolume_same {objs : List ForkObject} (h : openVolume disk allow = .ok vol)
    (hobjs : vol.objects disk = .ok objs) (hext : TreeWellFormed disk vol.extentsFork)
    (hcat : TreeWellFormed disk vol.catalogFork) (hsize : disk'.size = disk.size)
    (hheader : ∀ i < 512, disk'.image (1024 + i) = disk.image (1024 + i))
    (hsame : ∀ a, a ∈ vol.allocationFork.addrs ∨ a ∈ vol.extentsFork.addrs ∨
      a ∈ vol.catalogFork.addrs → disk'.image a = disk.image a) :
    openVolume disk' allow = .ok vol ∧ vol.objects disk' = .ok objs := by
  obtain ⟨header, h⟩ := openVolume_eq_ok.1 h
  constructor
  · refine openVolume_eq_ok.2 ⟨header, ?_⟩
    obtain ⟨hle, hread⟩ := volumeRead_eq_ok.1 h.read
    refine { h with
      read := volumeRead_eq_ok.2 ⟨by rwa [hsize], ?_⟩
      checked := by
        rw [hsize]
        exact h.checked
      bitmap := ?_
      overflow := parseOverflow_same h.overflow hext hsize fun a ha ↦ hsame a (.inr (.inl ha)) }
    · rw [hread]
      exact Image.read_congr fun i hi ↦ (hheader i hi).symm
    · rw [ForkMap.read_of_size h.bitmap hsize, (ForkMap.read_eq_ok h.bitmap).1]
      exact congrArg Except.ok
        (ForkMap.bytesAt_congr (fun a ha ↦ hsame a (.inl ha)) 0 _)
  · rw [Vol.objects, bind_eq_ok] at hobjs ⊢
    obtain ⟨rs, hrs, hobjs⟩ := hobjs
    exact ⟨rs, walkLeafRecords_same hrs hcat hsize fun a ha ↦ hsame a (.inr (.inr ha)), hobjs⟩

/-- Recovery accepts what a move accepts. -/
theorem openVolume_allow (h : openVolume disk false = .ok vol) :
    openVolume disk true = .ok vol := by
  obtain ⟨header, h⟩ := openVolume_eq_ok.1 h
  refine openVolume_eq_ok.2 ⟨header, { h with checked := ?_ }⟩
  have hcheck := h.checked
  rw [checkHeader] at hcheck ⊢
  rw [raiseIf_bind_eq_ok] at hcheck
  obtain ⟨h₁, hcheck⟩ := hcheck
  rw [raiseIf_bind_eq_ok] at hcheck
  obtain ⟨h₂, hcheck⟩ := hcheck
  rw [raiseIf_bind_eq_ok] at hcheck
  obtain ⟨h₃, -⟩ := hcheck
  rw [raiseIf_bind_of_not h₁, raiseIf_bind_of_not h₂, raiseIf_bind_of_not h₃, raiseIf,
    if_neg (by simp)]
  rfl

end Volume

end LinuxDefragger.HfsPlus
