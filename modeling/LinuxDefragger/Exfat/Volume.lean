import LinuxDefragger.Python
import LinuxDefragger.Storage.Bits
import Mathlib.Data.List.Pairwise

/-!
# exFAT volumes

The engine opens a volume by reading the boot sector, the active FAT and the allocation bitmap. It
keeps FAT and bitmap in memory; directories and files are read from the device, cluster by cluster.

An object has its clusters in a FAT chain, or (`NoFatChain`) in a row from its first one.
`Volume.chain` lists them; it does not look at the size of the volume, only `Volume.coff` does, when
a cluster is accessed.
-/

open Storage

namespace LinuxDefragger.Exfat

/-! ### The device -/

/-- An open block device or image. -/
structure Device where
  size : ℕ
  image : Image

namespace Device

variable (d : Device)

/-- `Volume.read` -/
def read (offset n : ℕ) : Except PyError (List UInt8) :=
  if n ≤ d.size - offset then pure (d.image.read offset n)
  else throw (.engine "short read at %u" [offset])

/-- `os.pwrite` and the check of its result in `Volume.write`. -/
def write (offset : ℕ) (data : List UInt8) : Except PyError Device :=
  if data.length ≤ d.size - offset then pure { d with image := d.image.write offset data }
  else throw (.engine "short write at %u" [offset])

end Device

/-! ### The boot sector -/

/-- The fields of the boot sector. Sizes are powers of two there, so none is zero. -/
structure Boot where
  bps : ℕ
  spc : ℕ
  fatOff : ℕ
  fatLen : ℕ
  heapOff : ℕ
  cc : ℕ
  root : ℕ
  volumeFlags : ℕ
  numberOfFats : ℕ
  bps_pos : 0 < bps
  spc_pos : 0 < spc

namespace Boot

/-- The fields as `Volume.__init__` reads them, with its check of the name. -/
def ofSector (bs : List UInt8) : Except PyError Boot := do
  raiseIf (slice bs 3 11 ≠ [0x45, 0x58, 0x46, 0x41, 0x54, 0x20, 0x20, 0x20])
    "not an exFAT volume" []
  let p := bytesImage bs
  return {
    bps := 1 <<< (p 108).toNat
    spc := 1 <<< (p 109).toNat
    fatOff := rd32 p 80
    fatLen := rd32 p 84
    heapOff := rd32 p 88
    cc := rd32 p 92
    root := rd32 p 96
    volumeFlags := rd16 p 106
    numberOfFats := (p 110).toNat
    bps_pos := Nat.one_shiftLeft _ ▸ Nat.two_pow_pos _
    spc_pos := Nat.one_shiftLeft _ ▸ Nat.two_pow_pos _ }

variable (b : Boot)

/-- The size of a cluster in bytes. -/
def cs : ℕ := b.bps * b.spc

theorem cs_pos : 0 < b.cs := Nat.mul_pos b.bps_pos b.spc_pos

/-- The checks of `Volume.__init__` on the fields. -/
def check : Except PyError Unit := do
  raiseIf (b.numberOfFats ≠ 1 ∧ b.numberOfFats ≠ 2) "unsupported exFAT FAT count" []
  raiseIf (b.volumeFlags &&& 6 ≠ 0) "exFAT volume is dirty or reports media failure" []

/-- `active_fat_offset` -/
def activeFatOffset : ℕ :=
  (b.fatOff + (if b.numberOfFats = 2 then b.volumeFlags &&& 1 else 0) * b.fatLen) * b.bps

/-- Where a cluster is on the device. -/
def coff (c : ℕ) : Except PyError ℕ :=
  if c < 2 ∨ b.cc + 2 ≤ c then throw (.engine "invalid cluster %u" [c])
  else pure ((b.heapOff + (c - 2) * b.spc) * b.bps)

end Boot

/-- A number as a double keeps it: 53 significant bits, halves to even. -/
def round53 (n : ℕ) : ℕ :=
  if n < 2 ^ 53 then n
  else
    let unit := 2 ^ (n.log2 - 52)
    let q := n / unit
    let r := n % unit
    if 2 * r < unit ∨ (2 * r = unit ∧ q % 2 = 0) then q * unit else (q + 1) * unit

/-- `math.ceil(length / cs)` for a power of two: the division is one of doubles. -/
def ceilDiv (length cs : ℕ) : ℕ := (round53 length + (cs - 1)) / cs

/-! ### FAT chains -/

/-- `fatget` -/
def fatget (fat : List UInt8) (c : ℕ) : Except PyError ℕ := u32 fat (c * 4)

/-- The loop of `chain` from cluster `c` on; `out` is what was listed before. A round that does not
end the loop lists another cluster that has an entry in the FAT, so with more rounds than entries
the chain has come back to a cluster. -/
def chainLoop (fat : List UInt8) (count : Option ℕ) :
    ℕ → ℕ → List ℕ → Except PyError (List ℕ)
  | 0, _, _ => throw (.engine "FAT loop" [])
  | fuel + 1, c, out =>
    if c < 2 ∨ 0xFFFFFFF8 ≤ c then pure out
    else if c ∈ out then throw (.engine "FAT loop" [])
    else if count.any fun n ↦ n ≤ out.length + 1 then pure (out ++ [c])
    else do
      let next ← fatget fat c
      chainLoop fat count fuel next (out ++ [c])

/-- `Volume.chain` -/
def chain (fat : List UInt8) (first : ℕ) (count : Option ℕ) (allowContig : Bool) :
    Except PyError (List ℕ) :=
  if first = 0 then pure []
  else
    match count, allowContig with
    | some n, true => pure (List.range' first n)
    | some n, false => do
      let out ← chainLoop fat count (fat.length / 4 + 2) first []
      raiseIf (out.length ≠ n) "short FAT chain" []
      return out
    | none, _ => chainLoop fat none (fat.length / 4 + 2) first []

/-! ### Streams -/

/-- `Volume.read_stream` up to the cut: the clusters one after the other. -/
def readClusters (d : Device) (b : Boot) (clusters : List ℕ) : Except PyError (List UInt8) := do
  let chunks ← clusters.mapM fun c ↦ do d.read (← b.coff c) b.cs
  return chunks.flatten

/-- `Volume.read_stream` -/
def readStream (d : Device) (b : Boot) (clusters : List ℕ) (length : ℕ) :
    Except PyError (List UInt8) := do
  return (← readClusters d b clusters).take length

/-- `chunk + b'\0' * (cs - len(chunk))` -/
def padded (cs : ℕ) (chunk : List UInt8) : List UInt8 :=
  chunk ++ List.replicate (cs - chunk.length) 0

/-- `Volume.write_stream` -/
def writeStream (b : Boot) : Device → List ℕ → List UInt8 → Except PyError Device
  | d, [], _ => pure d
  | d, c :: clusters, data => do
    let d ← d.write (← b.coff c) (padded b.cs (data.take b.cs))
    writeStream b d clusters (data.drop b.cs)

/-! ### Opening -/

/-- An open volume. -/
structure Volume where
  device : Device
  writable : Bool
  boot : Boot
  fat : List UInt8
  bitmapClusters : List ℕ
  bitmap : List UInt8

/-- `_find_bitmap` in the bytes of the root directory: first cluster and length of the bitmap. -/
def findBitmap (data : List UInt8) : List ℕ → Except PyError (ℕ × ℕ)
  | [] => throw (.engine "allocation bitmap not found" [])
  | o :: rest =>
    if bytesImage data o = 0 then throw (.engine "allocation bitmap not found" [])
    else if bytesImage data o = 0x81 then do return (← u32 data (o + 20), ← u64 data (o + 24))
    else findBitmap data rest

/-- `range(0, len(data), 32)` -/
def slots (data : List UInt8) : List ℕ := (List.range ((data.length + 31) / 32)).map (· * 32)

/-- `Volume.__init__` -/
def Volume.open (d : Device) (writable : Bool) : Except PyError Volume := do
  let b ← Boot.ofSector (← d.read 0 512)
  b.check
  let fat ← d.read b.activeFatOffset (b.fatLen * b.bps)
  let root ← chain fat b.root none false
  let rootData ← readStream d b root (root.length * b.cs)
  let (bitmapCluster, bitmapLength) ← findBitmap rootData (slots rootData)
  let bitmapClusters ← chain fat bitmapCluster (some (ceilDiv bitmapLength b.cs)) false
  let bitmap ← readStream d b bitmapClusters bitmapLength
  return ⟨d, writable, b, fat, bitmapClusters, bitmap⟩

namespace Volume

variable (v : Volume)

/-- `Volume.write` -/
def write (offset : ℕ) (data : List UInt8) : Except PyError Volume := do
  raiseIf (v.writable = false) "read-only handle" []
  return { v with device := ← v.device.write offset data }

/-- `Volume.write_stream` on the volume. -/
def writeStream (clusters : List ℕ) (data : List UInt8) : Except PyError Volume := do
  raiseIf (v.writable = false ∧ clusters ≠ []) "read-only handle" []
  return { v with device := ← Exfat.writeStream v.boot v.device clusters data }

/-- For a cluster from 2 on. -/
def bit (c : ℕ) : Except PyError Bool :=
  if (c - 2) / 8 < v.bitmap.length then pure (bitAt v.bitmap (c - 2)) else throw .indexError

/-- For a cluster from 2 on. -/
def setbit (c : ℕ) (value : Bool) : Except PyError Volume :=
  if (c - 2) / 8 < v.bitmap.length then pure { v with bitmap := setBitAt v.bitmap (c - 2) value }
  else throw .indexError

/-- `fatset` -/
def fatset (c value : ℕ) : Except PyError Volume := do
  return { v with fat := ← packU32 v.fat (c * 4) value }

/-- `flush_fat_bitmap` -/
def flushFatBitmap : Except PyError Volume := do
  let v ← v.write v.boot.activeFatOffset v.fat
  v.writeStream v.bitmapClusters v.bitmap

end Volume

end LinuxDefragger.Exfat
