import LinuxDefragger.Ntfs.Frame
import LinuxDefragger.Ntfs.Reachable
import Mathlib.Data.List.Pairwise

/-!
# Scanned streams and consistent volumes

A stream that the scan returns is an attribute of its record: its key determines it, a movable
stream is the only one of its record, and loading it gives the runs that the scan has found. On a
consistent volume no two streams share a cluster, and `$Bitmap` knows all of them.
-/

open Except Storage

namespace LinuxDefragger.Ntfs

/-! ### Scanned streams -/

variable {attrs : List Attribute} {streams : List StreamInfo}

section Scanned

variable {disk : NtfsDisk} {layout : NtfsLayout} {info info' : StreamInfo}

theorem decodeRecord_eq_some {raw fixed : List UInt8}
    (h : decodeRecord layout raw = .ok (some (fixed, attrs))) :
    applyFixups raw layout.volume.bytesPerSector = .ok fixed ∧ attributeList fixed = .ok attrs := by
  rw [decodeRecord] at h
  obtain ⟨fixed', hfixed, h⟩ := bind_eq_ok.1 h
  obtain ⟨flags, -, h⟩ := bind_eq_ok.1 h
  split at h
  · cases h
  · obtain ⟨attrs', hattrs, h⟩ := bind_eq_ok.1 h
    obtain ⟨rfl, rfl⟩ : fixed' = fixed ∧ attrs' = attrs := by simpa using ok.inj h
    exact ⟨hfixed, hattrs⟩

theorem RecordScan.unique {number : ℕ} {attrs' : List Attribute}
    {movable movable' : Option Attribute} (h : RecordScan disk layout number attrs movable)
    (h' : RecordScan disk layout number attrs' movable') : attrs = attrs' ∧ movable = movable' := by
  obtain ⟨raw, fixed, hraw, hdecode, hmovable⟩ := h.scanned
  obtain ⟨raw', fixed', hraw', hdecode', hmovable'⟩ := h'.scanned
  obtain rfl := ok.inj (hraw.symm.trans hraw')
  obtain ⟨rfl, rfl⟩ : fixed = fixed' ∧ attrs = attrs' := by
    simpa using hdecode.symm.trans hdecode'
  exact ⟨rfl, ok.inj (hmovable.symm.trans hmovable')⟩

/-- An attribute is found by its offset. -/
theorem RecordScan.eq_of_offset {number : ℕ} {movable : Option Attribute}
    (h : RecordScan disk layout number attrs movable) {a b : Attribute} (ha : a ∈ attrs)
    (hb : b ∈ attrs) (hoffset : a.offset = b.offset) : a = b := by
  obtain ⟨raw, fixed, -, hdecode, -⟩ := h.scanned
  obtain ⟨-, hparses⟩ := attributeList_eq_ok.1 (decodeRecord_eq_some hdecode).2
  have hlongA := (hparses.bounds ha).2.2.le_length
  have hlongB := (hparses.bounds hb).2.2.le_length
  refine (hparses.apart ha hb).resolve_right ?_
  omega

section

variable (h : StreamScan disk layout info)
include h

/-- A key determines the stream. -/
theorem StreamScan.eq_of_key (h' : StreamScan disk layout info')
    (hkey : info.key = info'.key) : info.runs = info'.runs ∧ info.movable = info'.movable := by
  obtain ⟨hnumber, hoffset⟩ := Prod.mk.inj hkey
  obtain ⟨attrs, movable, attr, hrecord, hattr, hat, hruns, hmovable⟩ := h.record
  obtain ⟨attrs', movable', attr', hrecord', hattr', hat', hruns', hmovable'⟩ := h'.record
  rw [← hnumber] at hrecord'
  obtain ⟨rfl, rfl⟩ := hrecord.unique hrecord'
  obtain rfl := hrecord.eq_of_offset hattr hattr' (by rw [hat, hat', hoffset])
  exact ⟨hruns.symm.trans hruns', hmovable.trans hmovable'.symm⟩

/-- A movable stream is the one that was selected in its record. -/
theorem StreamScan.selected (hinfo : info.movable = true) :
    ∃ attrs m, RecordScan disk layout info.recordNumber attrs (some m) ∧
      m.offset = info.attributeOffset := by
  obtain ⟨attrs, movable, attr, hrecord, -, hat, -, hmovable⟩ := h.record
  rw [hinfo] at hmovable
  cases movable with
  | none => cases hmovable
  | some m => exact ⟨attrs, m, hrecord, (of_decide_eq_true hmovable.symm).symm.trans hat⟩

theorem StreamScan.userRecord (hinfo : info.movable = true) :
    firstUserRecord ≤ info.recordNumber := by
  obtain ⟨attrs, m, hrecord, -⟩ := h.selected hinfo
  obtain ⟨raw, fixed, -, -, hmovable⟩ := hrecord.scanned
  exact (selectMovableAttribute_eq_some hmovable).1

/-- A record has one movable stream. -/
theorem StreamScan.key_eq (hinfo : info.movable = true)
    (h' : StreamScan disk layout info') (hinfo' : info'.movable = true)
    (hnumber : info'.recordNumber = info.recordNumber) : info'.key = info.key := by
  obtain ⟨attrs, m, hrecord, hoffset⟩ := h.selected hinfo
  obtain ⟨attrs', m', hrecord', hoffset'⟩ := h'.selected hinfo'
  rw [hnumber] at hrecord'
  obtain ⟨-, hm⟩ := hrecord.unique hrecord'
  obtain rfl := Option.some.inj hm
  rw [StreamInfo.key, StreamInfo.key, hnumber, ← hoffset', hoffset]

/-- A stream that loads has the runs that the scan has found. -/
theorem StreamScan.runs_of_load {candidate : Candidate}
    (hload : loadCandidate disk layout info = .ok candidate) : candidate.attr.runs = info.runs := by
  obtain ⟨attrs, movable, attr, hrecord, hattr, hat, hruns, -⟩ := h.record
  obtain ⟨-, hoffset, -, attrs', hraw', hfixed', hattrs', hselected'⟩ := loadCandidate_eq_ok hload
  obtain ⟨raw, fixed, hraw, hdecode, -⟩ := hrecord.scanned
  obtain ⟨hfixed, hattrs⟩ := decodeRecord_eq_some hdecode
  obtain rfl := ok.inj (hraw'.symm.trans hraw)
  obtain rfl := ok.inj (hfixed.symm.trans hfixed')
  obtain rfl := ok.inj (hattrs.symm.trans hattrs')
  have hmem := (selectMovableAttribute_eq_some hselected').2.1
  rw [hrecord.eq_of_offset hmem hattr (by rw [hoffset, hat]), hruns]

end

end Scanned

/-! ### Consistent volumes -/

/-- `$Bitmap` and the streams of a volume agree: all clusters of the streams are marked, no cluster
is owned twice, and `$MFT`, `$Bitmap` and the mirror are streams of the volume. -/
structure Consistent (layout : NtfsLayout) (streams : List StreamInfo) : Prop where
  marked : ∀ info ∈ streams, ∀ c ∈ runClusters info.runs, bit layout.bitmap c = true
  disjoint : (streams.flatMap fun info ↦ runClusters info.runs).Nodup
  mft : ∃ info ∈ streams, info.recordNumber = 0 ∧ info.runs = layout.mftRuns
  bitmap : ∃ info ∈ streams, info.recordNumber = 6 ∧ info.runs = layout.bitmapRuns
  mirror : ∃ info ∈ streams, info.recordNumber = 1 ∧
    ∀ a ∈ layout.volume.mirrorAddrs, a / layout.volume.clusterSize ∈ runClusters info.runs

/-- Two streams have no cluster in common. -/
def Apart (a b : StreamInfo) : Prop := ∀ c ∈ runClusters a.runs, c ∉ runClusters b.runs

theorem Apart.symm {a b : StreamInfo} (h : Apart a b) : Apart b a := fun c hb ha ↦ h c ha hb

theorem Consistent.pairwise {layout : NtfsLayout} (h : Consistent layout streams) :
    streams.Pairwise Apart :=
  (List.nodup_flatMap.1 h.disjoint).2.imp fun hd _ ha hb ↦ hd ha hb

theorem Consistent.apart {layout : NtfsLayout} (h : Consistent layout streams) {a b : StreamInfo}
    (ha : a ∈ streams) (hb : b ∈ streams) (hne : a ≠ b) : Apart a b :=
  haveI : Std.Symm Apart := ⟨fun _ _ h ↦ h.symm⟩
  h.pairwise.forall ha hb hne

theorem Consistent.nodup {layout : NtfsLayout} (h : Consistent layout streams) {info : StreamInfo}
    (hinfo : info ∈ streams) : (runClusters info.runs).Nodup :=
  (List.nodup_flatMap.1 h.disjoint).1 info hinfo

end LinuxDefragger.Ntfs
