import LinuxDefragger.HfsPlus.Volume

/-!
# Moving a fork

`moveOne` computes every patch of a move on the volume as it is (`prepareMove`), then runs through
the steps of the transaction (`runMove`): the copy, the bitmap with the destination marked, the
extent descriptors, the bitmap without the source. `recover` looks at the descriptors to tell
whether a move was committed. `operation` moves forks until none is left to move.
-/

open Storage

namespace LinuxDefragger.HfsPlus

/-! ### Patches -/

/-- The patches of pieces with old and new data. -/
def piecePatches : List (ℕ × ℕ) → List UInt8 → List UInt8 → List Patch
  | [], _, _ => []
  | (physical, count) :: rest, old, new =>
    ⟨physical, old.take count, new.take count⟩ ::
      piecePatches rest (old.drop count) (new.drop count)

/-- The loops of `bitmap_patches`: the stretches of bytes that differ, with their first index. The
stretch that is open starts at `start` and has `run` so far. -/
def diffRuns : ℕ → List (UInt8 × UInt8) → List (UInt8 × UInt8) → List (ℕ × List (UInt8 × UInt8))
  | start, run, [] => if run = [] then [] else [(start, run)]
  | start, run, p :: rest =>
    if p.1 = p.2 then
      (if run = [] then [] else [(start, run)]) ++ diffRuns (start + run.length + 1) [] rest
    else diffRuns start (run ++ [p]) rest

/-- The patches of a stretch. -/
def runPatches (fork : ForkMap) (stretch : ℕ × List (UInt8 × UInt8)) :
    Except PyError (List Patch) := do
  let ps ← fork.pieces stretch.1 stretch.2.length
  return piecePatches ps (stretch.2.map Prod.fst) (stretch.2.map Prod.snd)

/-- `bitmap_patches` -/
def bitmapPatches (vol : Vol) (before after : List UInt8) : Except PyError (List Patch) := do
  let lists ← (diffRuns 0 [] (before.zip after)).mapM (runPatches vol.allocationFork)
  return lists.flatten

/-- The extent descriptors of a contiguous fork, put in the places of the old ones. -/
def descriptorPatchesFrom {J : Type} (disk : Disk J) :
    ℕ → List DescriptorRef → Except PyError (ℕ × List Patch)
  | cursor, [] => pure (cursor, [])
  | cursor, ref :: rest => do
    let start ← pack32 cursor
    let count ← pack32 ref.extent.count
    let ps ← ref.record.fork.patches disk (ref.record.logicalOffset + ref.relative) (start ++ count)
    let tail ← descriptorPatchesFrom disk (cursor + ref.extent.count) rest
    return (tail.1, ps ++ tail.2)

/-- `descriptor_patches` -/
def descriptorPatches {J : Type} (disk : Disk J) (obj : ForkObject) (destinationStart : ℕ) :
    Except PyError (List Patch) := do
  let (cursor, patches) ← descriptorPatchesFrom disk destinationStart obj.descriptors
  raiseIf (cursor ≠ destinationStart + obj.totalBlocks)
    "HFS+ extent descriptors do not match the fork block count" []
  return patches

/-- The alternate header is 1024 bytes before the end. -/
def headerPatches {J : Type} (disk : Disk J) (freeBlocks : ℤ) : Except PyError (List Patch) := do
  let new ← pack32 freeBlocks
  let primary ← volumeRead disk 1072 4
  let alternate ← volumeRead disk (disk.size - 1024 + 48) 4
  return [⟨1072, primary, new⟩, ⟨disk.size - 1024 + 48, alternate, new⟩]

/-- The bit of a block set or cleared. -/
def markBlock (v : Bool) (bitmap : List UInt8) (block : ℕ) : Except PyError (List UInt8) :=
  if block / 8 < bitmap.length then pure (setBitAt bitmap (Vol.bitIndex block) v)
  else throw .indexError

/-- `make_bitmap_states`, without the old bitmap. -/
def makeBitmapStates (vol : Vol) (src dst : List ℕ) : Except PyError (List UInt8 × List UInt8) := do
  let stage ← dst.foldlM (markBlock true) vol.bitmap
  let final ← src.foldlM (markBlock false) stage
  return (stage, final)

/-! ### The transaction -/

/-- The journal. -/
structure Transaction where
  signature : List UInt8
  createDate : ℕ
  blockSize : ℕ
  totalBlocks : ℕ
  path : List ℕ
  fileId : ℕ
  forkType : ℕ
  src : List ℕ
  dst : List ℕ
  stage : PatchStage
  bitmapStage : List Patch
  bitmapFinal : List Patch
  metadata : List Patch
  headersStage : List Patch
  headersFinal : List Patch
  deriving DecidableEq, Repr

/-- `read_blocks` -/
def readBlocks (disk : Disk Transaction) (blockSize : ℕ) (blocks : List ℕ) :
    Except PyError (List UInt8) := do
  let chunks ← blocks.mapM fun block ↦ volumeRead disk (block * blockSize) blockSize
  return chunks.flatten

/-- The writes of `write_blocks`. -/
def blockWrites (blockSize : ℕ) : List ℕ → List UInt8 → List Write
  | [], _ => []
  | block :: rest, data =>
    ⟨block * blockSize, data.take blockSize⟩ :: blockWrites blockSize rest (data.drop blockSize)

/-- `write_blocks` -/
def writeBlocks (disk : Disk Transaction) (blockSize : ℕ) (blocks : List ℕ) (data : List UInt8) :
    Except PyError (Disk Transaction) := do
  raiseIf (data.length ≠ blocks.length * blockSize) "HFS+ relocation buffer size mismatch" []
  return disk.issue (blockWrites blockSize blocks data)

/-- `apply_patches` with the new data. -/
def applyNew (disk : Disk Transaction) (ps : List Patch) : Disk Transaction :=
  disk.issue (ps.map Patch.newWrite)

/-- `apply_patches` with the old data. -/
def applyOld (disk : Disk Transaction) (ps : List Patch) : Disk Transaction :=
  disk.issue (ps.map Patch.oldWrite)

/-- The first half of `move_one`, which changes nothing. -/
def prepareMove (disk : Disk Transaction) (vol : Vol) (obj : ForkObject) (destinationStart : ℕ) :
    Except PyError Transaction := do
  let src := obj.sourceBlocks
  let dst := List.range' destinationStart obj.totalBlocks
  let used ← dst.anyM vol.bit
  raiseIf (used = true) "HFS+ destination is not free" []
  let (stageBitmap, finalBitmap) ← makeBitmapStates vol src dst
  let bitmapStage ← bitmapPatches vol vol.bitmap stageBitmap
  let bitmapFinal ← bitmapPatches vol vol.bitmap finalBitmap
  let metadata ← descriptorPatches disk obj destinationStart
  let headersStage ← headerPatches disk (vol.freeBlocks - obj.totalBlocks)
  let headersFinal ← headerPatches disk vol.freeBlocks
  return ⟨vol.signature, vol.createDate, vol.blockSize, vol.totalBlocks, obj.path, obj.fileId,
    obj.forkType, src, dst, .prepared, bitmapStage, bitmapFinal, metadata, headersStage,
    headersFinal⟩

/-- The second half of `move_one`. -/
def runMove (disk : Disk Transaction) (txn : Transaction) : Except PyError (Disk Transaction) := do
  let disk := disk.setJournal (some txn)
  let payload ← readBlocks disk txn.blockSize txn.src
  let disk ← writeBlocks disk txn.blockSize txn.dst payload
  let disk := disk.fsync.setJournal (some { txn with stage := .copied })
  let disk := (applyNew (applyNew disk txn.bitmapStage) txn.headersStage).fsync
  let disk := disk.setJournal (some { txn with stage := .ready })
  let disk := disk.setJournal (some { txn with stage := .switching })
  let disk := (applyNew disk txn.metadata).fsync
  let disk := disk.setJournal (some { txn with stage := .switched })
  let disk := (applyNew (applyNew disk txn.bitmapFinal) txn.headersFinal).fsync
  let disk := disk.setJournal (some { txn with stage := .complete })
  return disk.setJournal none

/-- `move_one` -/
def moveOne (disk : Disk Transaction) (vol : Vol) (obj : ForkObject) (destinationStart : ℕ) :
    Except PyError (Disk Transaction) := do
  let txn ← prepareMove disk vol obj destinationStart
  runMove disk txn

/-- `recover` -/
def recover (disk : Disk Transaction) : Except PyError (Disk Transaction) :=
  match disk.journal with
  | none => throw (.engine "no recovery journal" [])
  | some txn => do
    let vol ← openVolume disk true
    raiseIf (vol.signature ≠ txn.signature ∨ vol.createDate ≠ txn.createDate ∨
      vol.blockSize ≠ txn.blockSize ∨ vol.totalBlocks ≠ txn.totalBlocks)
      "journal does not match this HFS+ volume" []
    let current ← txn.metadata.mapM fun p ↦ volumeRead disk p.offset p.new.length
    let allNew := txn.metadata ≠ [] ∧ ∀ q ∈ current.zip txn.metadata, q.1 = q.2.new
    if allNew ∨ txn.stage = .switched ∨ txn.stage = .complete then
      return (applyNew (applyNew (applyNew disk txn.metadata) txn.bitmapFinal)
        txn.headersFinal).fsync.setJournal none
    else
      return (applyOld (applyOld (applyOld disk txn.metadata) txn.bitmapStage)
        txn.headersStage).fsync.setJournal none

/-! ### What is moved -/

/-- The operation. -/
inductive Mode
  | defrag
  | compact
  deriving DecidableEq, Repr

/-- Strings compare by code points. -/
def pathLe : List ℕ → List ℕ → Bool
  | [], _ => true
  | _ :: _, [] => false
  | a :: as, b :: bs => if a = b then pathLe as bs else a < b

/-- The order of the candidates to defragment. -/
def defragLe (a b : ForkObject) : Bool :=
  if a.fragments ≠ b.fragments then b.fragments < a.fragments
  else if a.totalBlocks ≠ b.totalBlocks then b.totalBlocks < a.totalBlocks
  else if a.path ≠ b.path then pathLe a.path b.path
  else a.forkType ≤ b.forkType

/-- The order of the candidates to compact, which come with their lowest block. -/
def compactLe (a b : ℕ × ForkObject) : Bool :=
  if a.1 ≠ b.1 then a.1 < b.1
  else if a.2.path ≠ b.2.path then pathLe a.2.path b.2.path
  else a.2.forkType ≤ b.2.forkType

/-- `min(obj.source_blocks)` -/
def lowestBlock (obj : ForkObject) : Except PyError (ℕ × ForkObject) :=
  match obj.sourceBlocks.min? with
  | none => throw .valueError
  | some block => pure (block, obj)

/-- The fork a round of `operation` moves, and where to. -/
def selectMove (mode : Mode) (vol : Vol) (objs : List ForkObject) :
    Except PyError (Option (ForkObject × ℕ)) :=
  match mode with
  | .defrag =>
    let candidates := (objs.filter (·.fragments > 1)).insertionSort (defragLe · ·)
    pure (candidates.findSome? fun obj ↦
      (vol.freeRun obj.totalBlocks true obj.sourceBlocks).map fun run ↦ (obj, run))
  | .compact => do
    let keyed ← objs.mapM lowestBlock
    let candidates := keyed.insertionSort (compactLe · ·)
    return candidates.findSome? fun (lowest, obj) ↦
      match vol.freeRun obj.totalBlocks true obj.sourceBlocks with
      | some run => if run < lowest then some (obj, run) else none
      | none => none

/-- One round of `operation`; nothing when there is nothing to move. -/
def moveRound (mode : Mode) (disk : Disk Transaction) :
    Except PyError (Option (Disk Transaction)) := do
  let vol ← openVolume disk false
  let objs ← vol.objects disk
  match ← selectMove mode vol objs with
  | none => return none
  | some (obj, destination) => return some (← moveOne disk vol obj destination)

/-- The loop of `operation`, which is stopped after `n` rounds. -/
def moveRounds (mode : Mode) : ℕ → Disk Transaction → Except PyError (Disk Transaction)
  | 0, disk => pure disk
  | n + 1, disk => do
    match ← moveRound mode disk with
    | none => return disk
    | some disk => moveRounds mode n disk

/-- `operation` -/
def operation (mode : Mode) (n : ℕ) (disk : Disk Transaction) : Except PyError (Disk Transaction) :=
    do
  raiseIf (disk.journal ≠ none) "unfinished journal exists; run Recover first" []
  moveRounds mode n disk

end LinuxDefragger.HfsPlus
