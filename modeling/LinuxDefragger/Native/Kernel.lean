import Mathlib.Data.List.Basic

/-!
# The native compactor and the kernel it calls

The compactor for mounted filesystems owns no metadata: it asks the kernel for extent maps, copies
data and has the kernel exchange the mappings of two files. This module has the records it works on
and `Kernel`, the calls it makes.

A call may change the state `σ` of the machine and may raise a `Fault`; what the compactor raises
itself is a `NativeError`. Nothing is assumed about a kernel here.
-/

namespace LinuxDefragger.Native

/-- The components of a path below the mount point. -/
abbrev Path := List String

/-! ### Extents -/

/-- One record of a file's extent map, in bytes. -/
structure FiemapExtent where
  logical : ℕ
  physical : ℕ
  length : ℕ
  flags : ℕ
  deriving DecidableEq, Repr

/-- `FiemapExtent.physical_end` -/
def FiemapExtent.physicalEnd (e : FiemapExtent) : ℕ := e.physical + e.length

/-- Unknown, delayed, encoded, inline, tail, unwritten and shared extents. -/
def unmovableFiemapFlags : ℕ := 0x2 ||| 0x4 ||| 0x8 ||| 0x200 ||| 0x400 ||| 0x800 ||| 0x2000

/-- Realtime, immutable, append-only, no-defrag and DAX inodes. -/
def unmovableXflags : ℕ := 0x1 ||| 0x8 ||| 0x10 ||| 0x2000 ||| 0x8000

/-- Its `token` is its position among the sources of the pass. -/
structure SourceExtent where
  path : Path
  logical : ℕ
  physical : ℕ
  length : ℕ
  flags : ℕ
  generation : ℕ
  deriving DecidableEq, Repr, Inhabited

/-- `SourceExtent.physical_end` -/
def SourceExtent.physicalEnd (s : SourceExtent) : ℕ := s.physical + s.length

/-- A free range, held by the collector file `fd` at offset `logical`. -/
structure CollectorExtent where
  fd : ℕ
  logical : ℕ
  physical : ℕ
  length : ℕ
  flags : ℕ
  deriving DecidableEq, Repr

/-- `CollectorExtent.physical_end` -/
def CollectorExtent.physicalEnd (g : CollectorExtent) : ℕ := g.physical + g.length

/-- The half-open byte ranges `[a, a + m)` and `[b, b + n)` have no byte in common. -/
def Apart (a m b n : ℕ) : Prop := a + m ≤ b ∨ b + n ≤ a ∨ m = 0 ∨ n = 0

instance (a m b n : ℕ) : Decidable (Apart a m b n) := inferInstanceAs (Decidable (_ ∨ _))

theorem Apart.symm {a m b n : ℕ} (h : Apart a m b n) : Apart b n a m := by
  unfold Apart at *
  omega

/-! ### Errors and calls -/

/-- The error numbers the compactor tells apart. -/
inductive Errno
  | einval
  | eopnotsupp
  | eperm
  | etxtbsy
  | enotty
  | enosys
  | ebusy
  | efault
  | other
  deriving DecidableEq, Repr

/-- What a call can raise. -/
inductive Fault
  | osError (e : Errno)
  | interrupted
  /-- A read or a write that fell short, or an extent without length. -/
  | compactError (message : String)
  deriving DecidableEq, Repr

/-- What the compactor can raise. -/
inductive NativeError
  | fault (f : Fault)
  | compactError (message : String)
  /-- The `CompactError` of `_verify_source`, with the path it names. -/
  | sourceChanged (path : Path)
  | sourceNotMovable (reason : String)
  | rangeExchangeUnavailable
  | legacySwapUnavailable
  deriving DecidableEq, Repr

/-- The calls of the compactor. -/
structure Kernel (σ : Type) where
  /-- Set by the signal handler. -/
  stopRequested : σ → Bool
  /-- `os.open` of a regular file for reading and writing, without following links. -/
  openFile : Path → EStateM Fault σ ℕ
  /-- `fiemap(fd, start, length)` -/
  fiemap : ℕ → ℕ → ℕ → EStateM Fault σ (List FiemapExtent)
  /-- `_copy_range(source_fd, source_offset, donor_fd, length, donor_offset)` -/
  copyRange : ℕ → ℕ → ℕ → ℕ → ℕ → EStateM Fault σ Unit
  fsync : ℕ → EStateM Fault σ Unit
  /-- `EXT4_IOC_MOVE_EXT` on the two files, from source block and donor block, for a number of
  blocks. It answers how many were moved. -/
  moveExtents : ℕ → ℕ → ℕ → ℕ → ℕ → EStateM Errno σ ℕ
  /-- `XFS_IOC_EXCHANGE_RANGE` on the two files, from source offset and donor offset, for a
  length. -/
  exchangeRange : ℕ → ℕ → ℕ → ℕ → ℕ → EStateM Errno σ Unit

/-- A computation of the compactor. -/
abbrev Sys (σ : Type) := EStateM NativeError σ

/-- A call whose exception is not handled. -/
def call {σ α : Type} (x : EStateM Fault σ α) : Sys σ α := x.adaptExcept .fault

section Sys

variable {σ α β ε : Type} {x : EStateM ε σ α} {k : α → EStateM ε σ β} {w w' : σ}

/-- A sequence returned just if both halves did. -/
theorem bind_eq_sysOk {b : β} : (x >>= k) w = .ok b w' ↔
    ∃ a w₁, x w = .ok a w₁ ∧ k a w₁ = .ok b w' := by
  rw [show (x >>= k) w = EStateM.bind x k w from rfl, EStateM.bind]
  cases x w with
  | ok a w₁ => simp
  | error e w₁ => simp

/-- A sequence raised just if one of its halves did. -/
theorem bind_eq_sysError {e : ε} : (x >>= k) w = .error e w' ↔
    x w = .error e w' ∨ ∃ a w₁, x w = .ok a w₁ ∧ k a w₁ = .error e w' := by
  rw [show (x >>= k) w = EStateM.bind x k w from rfl, EStateM.bind]
  cases x w with
  | ok a w₁ => simp
  | error e w₁ => simp

theorem call_eq_ok {x : EStateM Fault σ α} {a : α} : call x w = .ok a w' ↔ x w = .ok a w' := by
  rw [call, EStateM.adaptExcept]
  cases x w with
  | ok a w₁ => simp
  | error e w₁ => simp

theorem call_eq_error {x : EStateM Fault σ α} {e : NativeError} :
    call x w = .error e w' ↔ ∃ f, x w = .error f w' ∧ e = .fault f := by
  rw [call, EStateM.adaptExcept]
  cases x w with
  | ok a w₁ => simp
  | error f w₁ => simp [eq_comm, and_comm]

end Sys

/-! ### Exchanging two mappings -/

/-- The filesystems whose extents the pass exchanges. -/
inductive Filesystem
  | ext4
  | xfs
  deriving DecidableEq, Repr

section Exchange

variable {σ : Type} (K : Kernel σ)

/-- `_ext4_exchange` -/
def ext4Exchange (blockSize sourceFd donorFd sourceOffset donorOffset length : ℕ) : Sys σ Unit :=
  fun w ↦
    if sourceOffset % blockSize ≠ 0 ∨ donorOffset % blockSize ≠ 0 ∨ length % blockSize ≠ 0 then
      .error (.compactError "unaligned ext4 extent exchange") w
    else
      match K.moveExtents sourceFd donorFd (sourceOffset / blockSize) (donorOffset / blockSize)
        (length / blockSize) w with
      | .error e w =>
        if e = .einval ∨ e = .eopnotsupp ∨ e = .eperm ∨ e = .etxtbsy then
          .error (.sourceNotMovable "the ext4 kernel refused to exchange") w
        else .error (.fault (.osError e)) w
      | .ok moved w =>
        if moved ≠ length / blockSize then
          .error (.compactError "ext4 moved only some of the requested blocks") w
        else .ok () w

/-- `_xfs_exchange` -/
def xfsExchange (sourceFd donorFd sourceOffset donorOffset length : ℕ) : Sys σ Unit := fun w ↦
  match K.exchangeRange sourceFd donorFd sourceOffset donorOffset length w with
  | .error e w =>
    if e = .enotty ∨ e = .eopnotsupp then .error .rangeExchangeUnavailable w
    else if e = .einval ∨ e = .eperm ∨ e = .etxtbsy then
      .error (.sourceNotMovable "the XFS kernel refused to exchange") w
    else .error (.fault (.osError e)) w
  | .ok _ w => .ok () w

/-- The exchange of the pass, by filesystem. -/
def exchange (filesystem : Filesystem) (blockSize sourceFd donorFd sourceOffset donorOffset
    length : ℕ) : Sys σ Unit :=
  match filesystem with
  | .ext4 => ext4Exchange K blockSize sourceFd donorFd sourceOffset donorOffset length
  | .xfs => xfsExchange K sourceFd donorFd sourceOffset donorOffset length

end Exchange

end LinuxDefragger.Native
