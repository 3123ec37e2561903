import LinuxDefragger.Storage.Image
import Mathlib.Data.List.DropRight

/-!
# Names of directory entries

Short names, long-name slots and paths, as the scan of a FAT volume builds them. A name is a list of
bytes: the C strings hold no zero byte, so the list is the string.
-/

open Storage

namespace LinuxDefragger.Fat

/-! ### Short names -/

/-- One byte of a short name in the printed form: a printable byte itself, any other as `\xHH`. The
buffer holds 64 bytes. -/
def shortNameByte (out : List UInt8) (ch : UInt8) : List UInt8 :=
  let hexDigit (d : UInt8) : UInt8 := if d < 10 then 0x30 + d else 0x41 + (d - 10)
  if ¬out.length + 1 < 64 then out
  else if 0x20 ≤ ch ∧ ch < 0x7F then out ++ [ch]
  else if out.length + 4 < 64 then
    out ++ [0x5C, 0x78, hexDigit (ch >>> 4), hexDigit (ch &&& 0x0F)]
  else out

/-- `short_name` -/
def shortName (entry : Image) : List UInt8 :=
  let base := (entry.read 0 8).rdropWhile (· = 0x20)
  let ext := (entry.read 8 3).rdropWhile (· = 0x20)
  let base := match base with
    | 0x05 :: rest => 0xE5 :: rest
    | base => base
  let raw := if ext = [] then base else base ++ 0x2E :: ext
  raw.foldl shortNameByte []

/-! ### Long names -/

/-- `LfnState` -/
structure LfnState where
  chars : ℕ → ℕ
  present : ℕ → Bool
  checksum : UInt8
  slots : ℕ
  active : Bool

/-- `lfn_reset` -/
def lfnReset : LfnState := ⟨fun _ ↦ 0xFFFF, fun _ ↦ false, 0, 0, false⟩

/-- `lfn_short_checksum` -/
def lfnShortChecksum (entry : Image) : UInt8 :=
  (entry.read 0 11).foldl (fun sum b ↦
    (if sum &&& 1 ≠ 0 then (0x80 : UInt8) else 0) + (sum >>> 1) + b) 0

/-- Where a slot keeps its thirteen characters. -/
def lfnOffsets : List ℕ := [1, 3, 5, 7, 9, 14, 16, 18, 20, 22, 24, 28, 30]

/-- `lfn_accept_entry` -/
def lfnAcceptEntry (state : LfnState) (entry : Image) : LfnState :=
  let ordinal := (entry 0).toNat
  let slot := ordinal &&& 0x1F
  if slot = 0 ∨ 20 < slot then lfnReset
  else
    let state : LfnState := if ordinal &&& 0x40 ≠ 0 then
        { lfnReset with active := true, slots := slot, checksum := entry 13 }
      else state
    if state.active = false ∨ state.slots < slot ∨ entry 13 ≠ state.checksum then lfnReset
    else
      { state with
        chars := fun i ↦
          if (slot - 1) * 13 ≤ i ∧ i < (slot - 1) * 13 + 13 then
            rd16 entry (lfnOffsets.getD (i - (slot - 1) * 13) 0)
          else state.chars i
        present := Function.update state.present (slot - 1) true }

/-- `utf8_append` into a buffer of `cap` bytes. -/
def utf8Append (cap : ℕ) (out : List UInt8) (cp : ℕ) : List UInt8 :=
  let cp := if cp = 0x2F ∨ cp = 0x5C ∨ cp = 0 then 0x5F else cp
  let tail (k : ℕ) : UInt8 := UInt8.ofNat (0x80 ||| (cp >>> k &&& 0x3F))
  if cp ≤ 0x7F then
    if out.length + 1 < cap then out ++ [UInt8.ofNat cp] else out
  else if cp ≤ 0x7FF then
    if out.length + 2 < cap then out ++ [UInt8.ofNat (0xC0 ||| cp >>> 6), tail 0] else out
  else if cp ≤ 0xFFFF then
    if out.length + 3 < cap then out ++ [UInt8.ofNat (0xE0 ||| cp >>> 12), tail 6, tail 0] else out
  else if cp ≤ 0x10FFFF then
    if out.length + 4 < cap then
      out ++ [UInt8.ofNat (0xF0 ||| cp >>> 18), tail 12, tail 6, tail 0]
    else out
  else out

/-- The unit ends the name. -/
def endsName (w : ℕ) : Bool := w = 0 || w = 0xFFFF

/-- A UTF-16 unit that starts a pair. -/
def isHighSurrogate (w : ℕ) : Bool := 0xD800 ≤ w && w ≤ 0xDBFF

/-- A UTF-16 unit that ends a pair. -/
def isLowSurrogate (w : ℕ) : Bool := 0xDC00 ≤ w && w ≤ 0xDFFF

/-- The code point of a surrogate pair. -/
def surrogatePair (high low : ℕ) : ℕ := 0x10000 + (high - 0xD800) <<< 10 + (low - 0xDC00)

/-- The loop of `lfn_name` over UTF-16 units. A surrogate without its partner becomes `U+FFFD`,
except a high one in the last unit. -/
def utf16Name : List ℕ → List UInt8 → List UInt8
  | [], out => out
  | [w], out =>
    if endsName w then out
    else utf8Append 1041 out (if isLowSurrogate w then 0xFFFD else w)
  | w :: low :: rest, out =>
    if endsName w then out
    else if isHighSurrogate w && isLowSurrogate low then
      utf16Name rest (utf8Append 1041 out (surrogatePair w low))
    else
      utf16Name (low :: rest)
        (utf8Append 1041 out (if isHighSurrogate w || isLowSurrogate w then 0xFFFD else w))

/-- The empty list stands for `NULL`. -/
def lfnName (state : LfnState) (shortEntry : Image) : List UInt8 :=
  if state.active = false ∨ state.slots = 0 ∨ state.checksum ≠ lfnShortChecksum shortEntry then []
  else if (List.range state.slots).all state.present then
    utf16Name ((List.range (state.slots * 13)).map state.chars) []
  else []

/-- The name the scan gives an entry: its long name if the slots before it are complete and belong
to it, its short name otherwise. -/
def entryName (state : LfnState) (entry : Image) : List UInt8 :=
  if lfnName state entry = [] then shortName entry else lfnName state entry

/-- `path_join` -/
def pathJoin (parent name : List UInt8) : List UInt8 :=
  if parent ≠ [] ∧ parent.getLast? ≠ some 0x2F then parent ++ 0x2F :: name else parent ++ name

/-- `is_dot_entry` -/
def isDotEntry (entry : Image) : Bool := entry 0 = 0x2E && (entry 1 = 0x20 || entry 1 = 0x2E)

end LinuxDefragger.Fat
