import LinuxDefragger.Python
import LinuxDefragger.Storage.Patch
import Mathlib.Data.List.Nodup

/-!
# Forks of an HFS+ volume as byte ranges

A fork is a list of extents. `ForkMap.pieces` cuts a range of a fork into ranges of the disk;
reading, writing and patching go through it. The address list of a fork (`ForkMap.addrs`) says where
each of its bytes is, so that a read is the image at addresses (`read_eq_ok`) and a list of patches
stores its data there (`patches_put`).
-/

open Except List Storage

namespace LinuxDefragger.HfsPlus

variable {J : Type}

/-! ### Words -/

/-- The `n`-byte word at an offset of a buffer. -/
def beAt (data : Image) (n offset : ℕ) : ℕ :=
  (List.range n).foldl (fun acc i ↦ acc * 256 + (data (offset + i)).toNat) 0

/-- `struct.unpack_from` of an `n`-byte word. -/
def beWord (n : ℕ) (data : List UInt8) (offset : ℕ) : Except PyError ℕ :=
  if offset + n ≤ data.length then pure (beAt (bytesImage data) n offset) else throw .structError

/-- `be16` -/
def be16 : List UInt8 → ℕ → Except PyError ℕ := beWord 2

/-- `be32` -/
def be32 : List UInt8 → ℕ → Except PyError ℕ := beWord 4

/-- The four bytes of a word. -/
def be32Bytes (v : ℕ) : List UInt8 :=
  [UInt8.ofNat (v / 16777216), UInt8.ofNat (v / 65536), UInt8.ofNat (v / 256), UInt8.ofNat v]

/-- `pack32` -/
def pack32 (v : ℤ) : Except PyError (List UInt8) :=
  if 0 ≤ v ∧ v < 4294967296 then pure (be32Bytes v.toNat) else throw .structError

theorem beAt_congr {p q : Image} {n o o' : ℕ} (h : ∀ i < n, p (o + i) = q (o' + i)) :
    beAt p n o = beAt q n o' := by
  refine foldl_ext _ _ 0 fun acc i hi ↦ ?_
  rw [h i (mem_range.1 hi)]

/-- A 32-bit word has the four bytes that were stored for it. -/
theorem beAt_be32Bytes {p : Image} {o v : ℕ} (hv : v < 4294967296)
    (h : ∀ i, ∀ hi : i < (be32Bytes v).length, p (o + i) = (be32Bytes v)[i]) : beAt p 4 o = v := by
  have h₀ := h 0 (by simp [be32Bytes])
  have h₁ := h 1 (by simp [be32Bytes])
  have h₂ := h 2 (by simp [be32Bytes])
  have h₃ := h 3 (by simp [be32Bytes])
  simp only [be32Bytes, getElem_cons_zero, getElem_cons_succ] at h₀ h₁ h₂ h₃
  have hfold : beAt p 4 o = (((p (o + 0)).toNat * 256 + (p (o + 1)).toNat) * 256 +
      (p (o + 2)).toNat) * 256 + (p (o + 3)).toNat := by
    simp [beAt, range_succ]
  rw [hfold, h₀, h₁, h₂, h₃, toNat_ofNat_byte, toNat_ofNat_byte, toNat_ofNat_byte, toNat_ofNat_byte]
  omega

/-- The bytes of a word that was read. -/
theorem be32Bytes_beAt (p : Image) (o : ℕ) :
    be32Bytes (beAt p 4 o) = [p (o + 0), p (o + 1), p (o + 2), p (o + 3)] := by
  have hfold : beAt p 4 o = (((p (o + 0)).toNat * 256 + (p (o + 1)).toNat) * 256 +
      (p (o + 2)).toNat) * 256 + (p (o + 3)).toNat := by
    simp [beAt, range_succ]
  have hbyte (v : ℕ) (b : UInt8) (h : v % 256 = b.toNat) : UInt8.ofNat v = b := by
    rw [← UInt8.toNat_inj, toNat_ofNat_byte, h]
  have h₀ := (p (o + 0)).toNat_lt
  have h₁ := (p (o + 1)).toNat_lt
  have h₂ := (p (o + 2)).toNat_lt
  have h₃ := (p (o + 3)).toNat_lt
  rw [be32Bytes, hfold, hbyte _ (p (o + 0)) (by omega), hbyte _ (p (o + 1)) (by omega),
    hbyte _ (p (o + 2)) (by omega), hbyte _ (p (o + 3)) (by omega)]

/-! ### Forks -/

/-- `Extent` -/
structure Extent where
  start : ℕ
  count : ℕ
  deriving DecidableEq, Repr

/-- The blocks of an extent. -/
def Extent.blocks (e : Extent) : List ℕ := List.range' e.start e.count

/-- `ForkMap` -/
structure ForkMap where
  blockSize : ℕ
  logicalSize : ℕ
  totalBlocks : ℕ
  extents : List Extent
  deriving DecidableEq, Repr

/-- Number of blocks of extents. -/
def blockCount (es : List Extent) : ℕ := (es.map Extent.count).sum

/-- The constructor of `ForkMap`. -/
def forkMap (blockSize : ℕ) (fork : ℕ × ℕ × List Extent) : Except PyError ForkMap :=
  let extents := fork.2.2.filter fun e ↦ e.count ≠ 0
  if fork.2.1 > blockCount extents then
    throw (.engine "special HFS+ fork uses unresolved overflow extents" [])
  else pure ⟨blockSize, fork.1, fork.2.1, extents⟩

/-- The segments of extents: first and last logical byte, and the address of the first. -/
def segmentsFrom (blockSize : ℕ) : ℕ → List Extent → List (ℕ × ℕ × ℕ)
  | _, [] => []
  | logical, e :: es =>
    (logical, logical + e.count * blockSize, e.start * blockSize) ::
      segmentsFrom blockSize (logical + e.count * blockSize) es

/-- The loop of `pieces`. -/
def piecesFrom : List (ℕ × ℕ × ℕ) → ℕ → ℕ → Except PyError (List (ℕ × ℕ))
  | [], _, left =>
    if left ≠ 0 then throw (.engine "fork extents do not cover requested bytes" []) else pure []
  | (lo, hi, physical) :: rest, pos, left =>
    if left = 0 then pure []
    else if pos ≥ hi then piecesFrom rest pos left
    else if pos < lo then throw (.engine "fork has an unrepresented logical hole" [])
    else do
      let tail ← piecesFrom rest (pos + min left (hi - pos)) (left - min left (hi - pos))
      return (physical + (pos - lo), min left (hi - pos)) :: tail

/-- `Volume.read` -/
def volumeRead (disk : Disk J) (offset count : ℕ) : Except PyError (List UInt8) :=
  let data := disk.pread count offset
  if data.length ≠ count then throw (.engine "short read at byte %d" [offset]) else pure data

/-- The patches of pieces with the data that is left. -/
def patchesFrom (disk : Disk J) : List (ℕ × ℕ) → List UInt8 → Except PyError (List Patch)
  | [], _ => pure []
  | (physical, count) :: rest, new => do
    let old ← volumeRead disk physical count
    let tail ← patchesFrom disk rest (new.drop count)
    return (if old ≠ new.take count then [⟨physical, old, new.take count⟩] else []) ++ tail

namespace ForkMap

/-- `pieces` -/
def pieces (f : ForkMap) (offset length : ℕ) : Except PyError (List (ℕ × ℕ)) :=
  if offset + length > f.logicalSize then
    throw (.engine "fork access is outside its logical size" [])
  else piecesFrom (segmentsFrom f.blockSize 0 f.extents) offset length

/-- `read` -/
def read (f : ForkMap) (disk : Disk J) (offset length : ℕ) : Except PyError (List UInt8) := do
  let ps ← f.pieces offset length
  let chunks ← ps.mapM fun p ↦ volumeRead disk p.1 p.2
  return chunks.flatten

/-- `patches` -/
def patches (f : ForkMap) (disk : Disk J) (offset : ℕ) (new : List UInt8) :
    Except PyError (List Patch) := do
  let ps ← f.pieces offset new.length
  patchesFrom disk ps new

/-- The blocks of a fork. -/
def blocks (f : ForkMap) : List ℕ := f.extents.flatMap Extent.blocks

/-- The addresses of the bytes of a fork, in logical order. -/
def addrs (f : ForkMap) : List ℕ :=
  f.extents.flatMap fun e ↦ List.range' (e.start * f.blockSize) (e.count * f.blockSize)

end ForkMap

/-! ### Addresses -/

/-- The addresses that pieces cover. -/
def pieceAddrs (ps : List (ℕ × ℕ)) : List ℕ := ps.flatMap fun p ↦ List.range' p.1 p.2

/-- The addresses of extents. -/
def extentAddrs (blockSize : ℕ) (es : List Extent) : List ℕ :=
  es.flatMap fun e ↦ List.range' (e.start * blockSize) (e.count * blockSize)

theorem take_range' {start n k : ℕ} (h : k ≤ n) : (range' start n).take k = range' start k := by
  rw [← Nat.add_sub_cancel' h, ← range'_append_1, take_left' length_range']

theorem piecesFrom_zero (segs : List (ℕ × ℕ × ℕ)) (pos : ℕ) : piecesFrom segs pos 0 = .ok [] := by
  cases segs with
  | nil => rfl
  | cons seg segs => rfl

variable {bs : ℕ} {ps : List (ℕ × ℕ)}

/-- **The pieces of a range are its addresses**, and there are pieces just for ranges that the
extents cover. -/
theorem piecesFrom_eq_ok {es : List Extent} {logical pos left : ℕ} (hpos : logical ≤ pos)
    (h : piecesFrom (segmentsFrom bs logical es) pos left = .ok ps) :
    pieceAddrs ps = ((extentAddrs bs es).drop (pos - logical)).take left ∧
      (left = 0 ∨ pos - logical + left ≤ (extentAddrs bs es).length) := by
  induction es generalizing logical pos left ps with
  | nil =>
    rw [segmentsFrom, piecesFrom] at h
    split_ifs at h with hleft
    obtain rfl := ok.inj h
    have hzero : left = 0 := not_not.1 hleft
    exact ⟨by simp [pieceAddrs, extentAddrs], .inl hzero⟩
  | cons e es ih =>
    rw [segmentsFrom, piecesFrom] at h
    have haddrs : extentAddrs bs (e :: es) =
        range' (e.start * bs) (e.count * bs) ++ extentAddrs bs es := rfl
    by_cases hleft : left = 0
    · rw [if_pos hleft] at h
      obtain rfl := ok.inj h
      exact ⟨by simp [pieceAddrs, hleft], .inl hleft⟩
    rw [if_neg hleft] at h
    by_cases hskip : pos ≥ logical + e.count * bs
    · rw [if_pos hskip] at h
      obtain ⟨hps, hle⟩ := ih hskip h
      have hdrop : pos - logical = e.count * bs + (pos - (logical + e.count * bs)) := by omega
      rw [haddrs, hdrop, length_append, length_range', ← drop_drop, drop_left' length_range']
      exact ⟨hps, .inr (by have := hle.resolve_left hleft; omega)⟩
    rw [if_neg hskip, if_neg (Nat.not_lt.2 hpos), bind_eq_ok] at h
    obtain ⟨tail, htail, h⟩ := h
    obtain rfl := ok.inj h
    -- the first piece ends the range or the extent
    set take := min left (logical + e.count * bs - pos) with htake
    have hfirst : ((extentAddrs bs (e :: es)).drop (pos - logical)).take take =
        range' (e.start * bs + (pos - logical)) take := by
      rw [haddrs, drop_append_of_le_length (by rw [length_range']; omega),
        take_append_of_le_length (by rw [length_drop, length_range']; omega),
        drop_range', Nat.mul_one,
        take_range' (show take ≤ e.count * bs - (pos - logical) by omega)]
    have hcons : pieceAddrs ((e.start * bs + (pos - logical), take) :: tail) =
        range' (e.start * bs + (pos - logical)) take ++ pieceAddrs tail := rfl
    rw [hcons]
    by_cases hend : left - take = 0
    · rw [hend, piecesFrom_zero] at htail
      obtain rfl := ok.inj htail
      have hall : left = take := by omega
      refine ⟨?_, .inr ?_⟩
      · conv_rhs => rw [hall]
        rw [hfirst]
        simp [pieceAddrs]
      · rw [haddrs, length_append, length_range']
        omega
    · have hedge : pos + take = logical + e.count * bs := by omega
      obtain ⟨hps, hle⟩ := ih (le_of_eq hedge.symm) htail
      rw [show pos + take - (logical + e.count * bs) = 0 by omega, drop_zero] at hps
      rw [show pos + take - (logical + e.count * bs) = 0 by omega] at hle
      have hle' := hle.resolve_left hend
      refine ⟨?_, .inr ?_⟩
      · have hsplit : ((extentAddrs bs (e :: es)).drop (pos - logical)).take left =
            ((extentAddrs bs (e :: es)).drop (pos - logical)).take take ++
              ((extentAddrs bs (e :: es)).drop (pos - logical + take)).take (left - take) := by
          rw [← drop_drop, ← take_add]
          congr 1
          omega
        rw [hsplit, hfirst, hps, show pos - logical + take = e.count * bs by omega, haddrs,
          drop_left' length_range']
      · rw [haddrs, length_append, length_range']
        omega

/-- The addresses of blocks. -/
def blockAddrs (blockSize : ℕ) (blocks : List ℕ) : List ℕ :=
  blocks.flatMap fun b ↦ List.range' (b * blockSize) blockSize

theorem mem_blockAddrs {a : ℕ} (hbs : 0 < bs) {blocks : List ℕ} :
    a ∈ blockAddrs bs blocks ↔ a / bs ∈ blocks := by
  have hblock (b : ℕ) : a ∈ range' (b * bs) bs ↔ a / bs = b := by
    rw [mem_range'_1, Nat.div_eq_iff hbs, Nat.add_sub_assoc hbs]
    omega
  rw [blockAddrs, mem_flatMap]
  simp only [hblock]
  exact ⟨fun ⟨b, hb, heq⟩ ↦ heq ▸ hb, fun h ↦ ⟨_, h, rfl⟩⟩

theorem nodup_blockAddrs (hbs : 0 < bs) {blocks : List ℕ} (h : blocks.Nodup) :
    (blockAddrs bs blocks).Nodup := by
  refine nodup_flatMap.2 ⟨fun b _ ↦ nodup_range', h.imp fun {b c} hne ↦ ?_⟩
  refine disjoint_left.2 fun a hb hc ↦ hne ?_
  have hb' := (mem_blockAddrs hbs).1 (mem_flatMap.2 ⟨b, mem_singleton_self b, hb⟩)
  have hc' := (mem_blockAddrs hbs).1 (mem_flatMap.2 ⟨c, mem_singleton_self c, hc⟩)
  exact (mem_singleton.1 hb').symm.trans (mem_singleton.1 hc')

theorem length_blockAddrs (bs : ℕ) (blocks : List ℕ) :
    (blockAddrs bs blocks).length = blocks.length * bs := by
  induction blocks with
  | nil => simp [blockAddrs]
  | cons b blocks ih =>
    have hcons : blockAddrs bs (b :: blocks) = range' (b * bs) bs ++ blockAddrs bs blocks := rfl
    rw [hcons, length_append, length_range', ih, length_cons, Nat.succ_mul, Nat.add_comm]

theorem blockAddrs_range' (bs start n : ℕ) :
    blockAddrs bs (range' start n) = range' (start * bs) (n * bs) := by
  induction n generalizing start with
  | zero => simp [blockAddrs]
  | succ n ih =>
    have hcons : blockAddrs bs (start :: range' (start + 1) n) =
        range' (start * bs) bs ++ blockAddrs bs (range' (start + 1) n) := rfl
    rw [range'_succ, hcons, ih, Nat.succ_mul, Nat.succ_mul, Nat.add_comm (n * bs), range'_append_1]

/-- **The addresses of a fork are those of its blocks.** -/
theorem ForkMap.addrs_eq (f : ForkMap) : f.addrs = blockAddrs f.blockSize f.blocks := by
  rw [addrs, blocks, blockAddrs, flatMap_assoc]
  exact flatMap_congr fun e _ ↦ (blockAddrs_range' f.blockSize e.start e.count).symm

variable {data : List UInt8}

theorem volumeRead_eq_ok {disk : Disk J} {offset count : ℕ} :
    volumeRead disk offset count = .ok data ↔
      count ≤ disk.size - offset ∧ data = disk.image.read offset count := by
  have hlen := disk.pread_length offset count
  unfold volumeRead
  by_cases hle : count ≤ disk.size - offset
  · have heq : disk.pread count offset = disk.image.read offset count := by
      rw [Disk.pread, Nat.min_eq_left hle]
    simp [heq, hle, eq_comm]
  · have hne : (disk.pread count offset).length ≠ count := by
      rw [hlen]
      omega
    simp only [if_pos hne]
    exact iff_of_false (fun h ↦ by cases h) fun h ↦ hle h.1

/-- Reading pieces gives the bytes at their addresses. -/
theorem mapM_volumeRead {disk : Disk J} {chunks : List (List UInt8)} :
    ps.mapM (fun p ↦ volumeRead disk p.1 p.2) = .ok chunks ↔
      (∀ p ∈ ps, p.2 ≤ disk.size - p.1) ∧ chunks = ps.map fun p ↦ disk.image.read p.1 p.2 := by
  induction ps generalizing chunks with
  | nil => simp [eq_comm]
  | cons p ps ih =>
    rw [mapM_cons, bind_eq_ok]
    constructor
    · rintro ⟨data, hdata, h⟩
      obtain ⟨rest, hrest, h⟩ := bind_eq_ok.1 h
      obtain rfl := ok.inj h
      obtain ⟨hle, rfl⟩ := volumeRead_eq_ok.1 hdata
      obtain ⟨hall, rfl⟩ := ih.1 hrest
      exact ⟨forall_mem_cons.2 ⟨hle, hall⟩, rfl⟩
    · rintro ⟨hall, rfl⟩
      obtain ⟨hle, hall⟩ := forall_mem_cons.1 hall
      exact ⟨_, volumeRead_eq_ok.2 ⟨hle, rfl⟩, bind_eq_ok.2 ⟨_, ih.2 ⟨hall, rfl⟩, rfl⟩⟩

theorem flatten_map_read (m : Image) (ps : List (ℕ × ℕ)) :
    (ps.map fun p ↦ m.read p.1 p.2).flatten = (pieceAddrs ps).map m := by
  induction ps with
  | nil => rfl
  | cons p ps ih =>
    rw [map_cons, flatten_cons, ih, Image.read_eq_map_range', ← map_append]
    rfl

namespace ForkMap

variable {f : ForkMap} {disk : Disk J} {offset length : ℕ}

theorem pieces_eq_ok (h : f.pieces offset length = .ok ps) :
    pieceAddrs ps = (f.addrs.drop offset).take length ∧ offset + length ≤ f.logicalSize ∧
      (length = 0 ∨ offset + length ≤ f.addrs.length) := by
  rw [pieces] at h
  split_ifs at h with hsize
  obtain ⟨hps, hle⟩ := piecesFrom_eq_ok (Nat.zero_le offset) h
  exact ⟨hps, Nat.le_of_not_lt hsize, hle⟩

section

variable (h : f.read disk offset length = .ok data)
include h

/-- **A read returns the bytes at the addresses of the range.** -/
theorem read_eq_ok : data = ((f.addrs.drop offset).take length).map disk.image ∧
      offset + length ≤ f.logicalSize ∧ (length = 0 ∨ offset + length ≤ f.addrs.length) := by
  rw [read, bind_eq_ok] at h
  obtain ⟨ps, hps, h⟩ := h
  obtain ⟨chunks, hchunks, h⟩ := bind_eq_ok.1 h
  obtain rfl := ok.inj h
  obtain ⟨-, rfl⟩ := mapM_volumeRead.1 hchunks
  obtain ⟨haddrs, hle⟩ := pieces_eq_ok hps
  exact ⟨by rw [flatten_map_read, haddrs], hle⟩

/-- Whether a read succeeds does not depend on the contents of the disk. -/
theorem read_of_size {disk' : Disk J} (hsize : disk'.size = disk.size) :
    f.read disk' offset length = .ok (((f.addrs.drop offset).take length).map disk'.image) := by
  rw [read, bind_eq_ok] at h
  obtain ⟨ps, hps, h⟩ := h
  obtain ⟨chunks, hchunks, -⟩ := bind_eq_ok.1 h
  have hall := (mapM_volumeRead.1 hchunks).1
  rw [read, bind_eq_ok]
  refine ⟨ps, hps, bind_eq_ok.2 ⟨_, mapM_volumeRead.2 ⟨?_, rfl⟩, ?_⟩⟩
  · rwa [hsize]
  · rw [flatten_map_read, (pieces_eq_ok hps).1]
    rfl

theorem length_of_read : data.length = length := by
  obtain ⟨rfl, -, hle⟩ := read_eq_ok h
  rw [length_map, length_take, length_drop]
  omega

end

end ForkMap

/-! ### Patches -/

/-- The patch of one piece. -/
theorem patchesPut_piece (m : Image) (physical : ℕ) (new : List UInt8) :
    PatchesPut m (if m.read physical new.length ≠ new then
      [⟨physical, m.read physical new.length, new⟩] else [])
      (range' physical new.length) new := by
  split_ifs with hne
  · exact .one m physical new
  · exact .same ((m.read_eq_map_range' ..).symm.trans (not_not.1 hne))

/-- The patches of pieces store the data at their addresses, and each of them changes something. -/
theorem patchesFrom_put {disk : Disk J} {pieces : List (ℕ × ℕ)} {new : List UInt8} {ps : List Patch}
    (h : patchesFrom disk pieces new = .ok ps) (hlen : (pieceAddrs pieces).length = new.length) :
    PatchesPut disk.image ps (pieceAddrs pieces) new ∧ ∀ p ∈ ps, p.old ≠ p.new := by
  induction pieces generalizing new ps with
  | nil =>
    obtain rfl := ok.inj h
    obtain rfl := length_eq_zero_iff.1 hlen.symm
    exact ⟨.nil _, by simp⟩
  | cons p pieces ih =>
    obtain ⟨physical, count⟩ := p
    have hcons : pieceAddrs ((physical, count) :: pieces) =
        range' physical count ++ pieceAddrs pieces := rfl
    rw [hcons, length_append, length_range'] at hlen
    rw [patchesFrom, bind_eq_ok] at h
    obtain ⟨old, hold, h⟩ := h
    obtain ⟨tail, htail, h⟩ := bind_eq_ok.1 h
    obtain rfl := ok.inj h
    obtain ⟨-, rfl⟩ := volumeRead_eq_ok.1 hold
    obtain ⟨hput, hne⟩ := ih htail (by rw [length_drop]; omega)
    have hcount : (new.take count).length = count := by rw [length_take]; omega
    have hpiece := patchesPut_piece disk.image physical (new.take count)
    rw [hcount] at hpiece
    refine ⟨?_, fun p hp ↦ ?_⟩
    · have happend := hpiece.append hput
      rwa [take_append_drop, ← hcons] at happend
    · rcases mem_append.1 hp with hp | hp
      · split_ifs at hp with hdiff
        · rw [mem_singleton.1 hp]
          exact hdiff
        · simp at hp
      · exact hne p hp

/-- **The patches of a range of a fork.** -/
theorem ForkMap.patches_put {f : ForkMap} {disk : Disk J} {offset : ℕ} {new : List UInt8}
    {ps : List Patch} (h : f.patches disk offset new = .ok ps) :
    PatchesPut disk.image ps ((f.addrs.drop offset).take new.length) new ∧
      ∀ p ∈ ps, p.old ≠ p.new := by
  rw [patches, bind_eq_ok] at h
  obtain ⟨pieces, hpieces, h⟩ := h
  obtain ⟨haddrs, -, hle⟩ := pieces_eq_ok hpieces
  rw [← haddrs]
  refine patchesFrom_put h ?_
  rw [haddrs, length_take, length_drop]
  omega

end LinuxDefragger.HfsPlus
