import LinuxDefragger.HfsPlus.Tree
import LinuxDefragger.Storage.Bits

/-!
# HFS+ volumes and their forks

`openVolume` reads the volume header, the allocation bitmap and the extents-overflow records;
`Vol.objects` reads the catalogue and returns every fork with the places of its extent descriptors.

A fork has up to eight descriptors in its catalogue record; further ones are in the extents-overflow
file, in parts that are put in order by their first block.
-/

open Storage

namespace LinuxDefragger.HfsPlus

variable {J : Type}

/-! ### Descriptors -/

/-- The `n`-byte word at an offset of a record whose length was checked. -/
def word (n : ℕ) (raw : List UInt8) (offset : ℕ) : ℕ := beAt (bytesImage raw) n offset

/-- `DescriptorRef` -/
structure DescriptorRef where
  record : TreeRecord
  relative : ℕ
  extent : Extent
  deriving DecidableEq, Repr

/-- The extent descriptor at an offset of a record. -/
def descriptorAt (record : TreeRecord) (relative : ℕ) : DescriptorRef :=
  ⟨record, relative, ⟨word 4 record.raw relative, word 4 record.raw (relative + 4)⟩⟩

/-- The used ones of eight descriptors. -/
def descriptorRefs (record : TreeRecord) (base : ℕ) : List DescriptorRef :=
  ((List.range 8).map fun index ↦ descriptorAt record (base + index * 8)).filter
    (·.extent.count ≠ 0)

/-- Where the data of a record starts behind the key. -/
def dataOffset (raw : List UInt8) : ℕ :=
  if (2 + word 2 raw 0) % 2 = 1 then 2 + word 2 raw 0 + 1 else 2 + word 2 raw 0

/-! ### The extents-overflow file -/

/-- A record of the extents-overflow file. -/
structure OverflowPart where
  fileId : ℕ
  forkType : ℕ
  startBlock : ℕ
  refs : List DescriptorRef
  deriving DecidableEq, Repr

/-- One round of `_parse_overflow`. -/
def overflowPart (record : TreeRecord) : Option OverflowPart :=
  if record.raw.length < 12 then none
  else if word 2 record.raw 0 < 10 ∨ dataOffset record.raw + 64 > record.raw.length then none
  else some
    { fileId := word 4 record.raw 4
      forkType := word 1 record.raw 2
      startBlock := word 4 record.raw 8
      refs := descriptorRefs record (dataOffset record.raw) }

/-- What tells the parts of a fork apart. -/
def OverflowPart.key (p : OverflowPart) : ℕ × ℕ × ℕ := (p.fileId, p.forkType, p.startBlock)

/-- `_parse_overflow`, before grouping. Two parts of a fork with the same start block compare by
their descriptors, which have no order. -/
def parseOverflow (disk : Disk J) (extentsFork : ForkMap) : Except PyError (List OverflowPart) :=
  if extentsFork.logicalSize = 0 then pure []
  else do
    let records ← walkLeafRecords disk extentsFork
    let parts := records.filterMap overflowPart
    if ((parts.filter (·.refs ≠ [])).map OverflowPart.key).Nodup then pure parts
    else throw .typeError

/-- The entry of `_overflow` for a fork. -/
def overflowRefs (parts : List OverflowPart) (fileId forkType : ℕ) : List DescriptorRef :=
  ((parts.filter fun p ↦ p.fileId = fileId ∧ p.forkType = forkType).insertionSort
    (fun p q ↦ p.startBlock ≤ q.startBlock)).flatMap OverflowPart.refs

/-! ### The catalogue -/

/-- A record of the catalogue that the engine keeps. -/
inductive CatalogItem
  | folder (id parent : ℕ) (name : List ℕ)
  | file (record : TreeRecord) (dataOff parent : ℕ) (name : List ℕ) (fileId : ℕ)
  deriving DecidableEq, Repr

/-- UTF-16 code units to code points, with the replacement character for lone surrogates. -/
def decodeUtf16 : List ℕ → List ℕ
  | [] => []
  | [u] => [if 0xD800 ≤ u ∧ u < 0xE000 then 0xFFFD else u]
  | u :: v :: rest =>
    if 0xD800 ≤ u ∧ u < 0xDC00 ∧ 0xDC00 ≤ v ∧ v < 0xE000 then
      (0x10000 + (u - 0xD800) * 0x400 + (v - 0xDC00)) :: decodeUtf16 rest
    else (if 0xD800 ≤ u ∧ u < 0xE000 then 0xFFFD else u) :: decodeUtf16 (v :: rest)

/-- The first loop of `objects`, for one record. -/
def catalogItem (record : TreeRecord) : Option CatalogItem :=
  let raw := record.raw
  let dataOff := dataOffset raw
  if raw.length < 4 then none
  else if word 2 raw 0 < 6 ∨ dataOff + 2 > raw.length then none
  else if 8 + word 2 raw 6 * 2 > raw.length then none
  else
    let name := decodeUtf16 ((List.range (word 2 raw 6)).map fun i ↦ word 2 raw (8 + i * 2))
    if word 2 raw dataOff = 1 ∧ dataOff + 12 ≤ raw.length then
      some (.folder (word 4 raw (dataOff + 8)) (word 4 raw 2) name)
    else if word 2 raw dataOff = 2 ∧ dataOff + 248 ≤ raw.length then
      some (.file record dataOff (word 4 raw 2) name (word 4 raw (dataOff + 8)))
    else none

/-- The name of a folder that is not in the catalogue. -/
def unknownName (id : ℕ) : List ℕ := 35 :: (Nat.toDigits 10 id).map Char.toNat

/-- `folder_names.get(current, (2, f"#{current}"))`: later records win. -/
def folderEntry (items : List CatalogItem) (id : ℕ) : ℕ × List ℕ :=
  (items.reverse.findSome? fun
    | .folder id' parent name => if id' = id then some (parent, name) else none
    | .file .. => none).getD (2, unknownName id)

/-- The loop of `folder_path`; every round but the last finds a folder not seen before. -/
def folderParts (items : List CatalogItem) : ℕ → List ℕ → ℕ → List (List ℕ)
  | 0, _, _ => []
  | fuel + 1, seen, current =>
    if current ∈ [0, 1, 2] ∨ current ∈ seen then []
    else
      folderParts items fuel (current :: seen) (folderEntry items current).1 ++
        (if (folderEntry items current).2 ≠ [] then [(folderEntry items current).2] else [])

/-- The path of a file, from `folder_path`. -/
def filePath (items : List CatalogItem) (parent : ℕ) (name : List ℕ) : List ℕ :=
  let base := (folderParts items (items.length + 1) [] parent).intersperse [47] |>.flatten
  if base ≠ [] then base ++ 47 :: name else name

/-! ### Forks -/

/-- `ForkObject` -/
structure ForkObject where
  path : List ℕ
  fileId : ℕ
  forkType : ℕ
  logicalSize : ℕ
  totalBlocks : ℕ
  descriptors : List DescriptorRef
  deriving DecidableEq, Repr

namespace ForkObject

/-- `extents` -/
def extents (o : ForkObject) : List Extent :=
  (o.descriptors.map DescriptorRef.extent).filter (·.count ≠ 0)

/-- `fragments` -/
def fragments (o : ForkObject) : ℕ :=
  if o.extents = [] then 0
  else 1 + ((o.extents.zip o.extents.tail).filter fun p ↦ p.1.start + p.1.count ≠ p.2.start).length

/-- `source_blocks` -/
def sourceBlocks (o : ForkObject) : List ℕ := o.extents.flatMap Extent.blocks

end ForkObject

/-- Number of blocks of descriptors. -/
def refBlocks (refs : List DescriptorRef) : ℕ := (refs.map fun ref ↦ ref.extent.count).sum

/-- One fork of a file in `objects`, with `_inline_refs`. -/
def forkObject (overflow : List OverflowPart) (path : List ℕ) (record : TreeRecord) (fileId : ℕ)
    (fork : ℕ × ℕ) : Except PyError (List ForkObject) := do
  let logical := word 8 record.raw fork.2
  let total := word 4 record.raw (fork.2 + 12)
  let inline := descriptorRefs record (fork.2 + 16)
  let refs := if refBlocks inline < total then inline ++ overflowRefs overflow fileId fork.1
    else inline
  raiseIf (refBlocks refs < total ∧ logical ≠ 0) "HFS+ file %d has unresolved overflow extents"
    [fileId]
  return if total ≠ 0 then [⟨path, fileId, fork.1, logical, total, refs⟩] else []

/-- The second loop of `objects`, for one record: the data fork, then the resource fork. -/
def fileObjects (overflow : List OverflowPart) (items : List CatalogItem) :
    CatalogItem → Except PyError (List ForkObject)
  | .folder .. => pure []
  | .file record dataOff parent name fileId => do
    let forks ← [(0, dataOff + 88), (0xFF, dataOff + 168)].mapM
      (forkObject overflow (filePath items parent name) record fileId)
    return forks.flatten

/-! ### The volume -/

/-- `Volume` -/
structure Vol where
  signature : List UInt8
  createDate : ℕ
  blockSize : ℕ
  totalBlocks : ℕ
  freeBlocks : ℕ
  allocationFork : ForkMap
  extentsFork : ForkMap
  catalogFork : ForkMap
  bitmap : List UInt8
  overflow : List OverflowPart
  deriving DecidableEq, Repr

/-- `parse_fork`, in a header whose length was checked. -/
def parseFork (header : List UInt8) (offset : ℕ) : ℕ × ℕ × List Extent :=
  (word 8 header offset, word 4 header (offset + 12), (List.range 8).map fun i ↦
    ⟨word 4 header (offset + 16 + i * 8), word 4 header (offset + 20 + i * 8)⟩)

/-- The length of the allocation bitmap. -/
def bitmapLength (totalBlocks : ℕ) : ℕ := (totalBlocks + 7) / 8

/-- The checks on the volume header. -/
def checkHeader (size : ℕ) (header : List UInt8) (allowInconsistent : Bool) :
    Except PyError Unit := do
  raiseIf (header.take 2 ≠ [0x48, 0x2B] ∧ header.take 2 ≠ [0x48, 0x58])
    "not an HFS+ or HFSX volume" []
  raiseIf (word 4 header 40 < 512 ∨ word 4 header 40 &&& (word 4 header 40 - 1) ≠ 0)
    "invalid HFS+ allocation block size" []
  raiseIf (word 4 header 44 = 0 ∨ word 4 header 44 * word 4 header 40 > size)
    "HFS+ geometry exceeds the device" []
  raiseIf (word 4 header 4 &&& 0x00000800 ≠ 0 ∧ allowInconsistent = false)
    "HFS+ volume is marked inconsistent" []

/-- The constructor of `Volume`. -/
def openVolume (disk : Disk J) (allowInconsistent : Bool) : Except PyError Vol := do
  let header ← volumeRead disk 1024 512
  checkHeader disk.size header allowInconsistent
  let blockSize := word 4 header 40
  let totalBlocks := word 4 header 44
  let allocationFork ← forkMap blockSize (parseFork header 112)
  let extentsFork ← forkMap blockSize (parseFork header 192)
  let catalogFork ← forkMap blockSize (parseFork header 272)
  raiseIf (allocationFork.logicalSize < bitmapLength totalBlocks)
    "HFS+ allocation file is too short" []
  let bitmap ← allocationFork.read disk 0 (bitmapLength totalBlocks)
  let overflow ← parseOverflow disk extentsFork
  return ⟨header.take 2, word 4 header 16, blockSize, totalBlocks, word 4 header 48,
    allocationFork, extentsFork, catalogFork, bitmap, overflow⟩

namespace Vol

/-- `objects` -/
def objects (disk : Disk J) (vol : Vol) : Except PyError (List ForkObject) := do
  let records ← walkLeafRecords disk vol.catalogFork
  let items := records.filterMap catalogItem
  let objs ← items.mapM (fileObjects vol.overflow items)
  return objs.flatten

/-- The position of the bit of a block: the highest bit of a byte comes first. -/
def bitIndex (block : ℕ) : ℕ := block / 8 * 8 + (7 - block % 8)

/-- The bit of a block in a bitmap. -/
def bitOf (bitmap : List UInt8) (block : ℕ) : Bool := bitAt bitmap (bitIndex block)

/-- `bit` -/
def bit (vol : Vol) (block : ℕ) : Except PyError Bool := do
  raiseIf (block ≥ vol.totalBlocks) "invalid HFS+ allocation block %d" [block]
  return bitOf vol.bitmap block

/-- The loop of `free_run`. -/
def freeRunLoop (usable : ℕ → Bool) (low : Bool) (count : ℕ) :
    List ℕ → ℕ → Option ℕ → Option ℕ → Option ℕ
  | [], _, _, _ => none
  | block :: rest, run, start, previous =>
    let adjacent : Bool := match previous with
      | none => true
      | some p => if low then block == p + 1 else block + 1 == p
    if usable block && adjacent then
      if run + 1 ≥ count then some (if low then start.getD block else block)
      else freeRunLoop usable low count rest (run + 1) (some (start.getD block)) (some block)
    else freeRunLoop usable low count rest 0 none (some block)

/-- `free_run` -/
def freeRun (vol : Vol) (count : ℕ) (low : Bool) (exclude : List ℕ) : Option ℕ :=
  let order := if low then List.range vol.totalBlocks else (List.range vol.totalBlocks).reverse
  freeRunLoop (fun block ↦ !bitOf vol.bitmap block && !exclude.contains block) low count order 0
    none none

end Vol

end LinuxDefragger.HfsPlus
