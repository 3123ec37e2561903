import LinuxDefragger.Exfat.Chains
import LinuxDefragger.Exfat.Streams

/-!
# FAT and bitmap in memory and on the device

The engine changes FAT and bitmap in memory and writes both back with `flush_fat_bitmap`. On a
volume with the layout of the specification (`Layout`) the boot sector, the FAT and the clusters do
not meet, so a flush changes neither the boot sector nor any other cluster (`flushFatBitmap_spec`),
and opening the device again finds what was in memory.
-/

open Storage

namespace LinuxDefragger.Exfat

namespace Volume

variable {v v' : Volume} {c x : ℕ} {C : List ℕ}

/-! ### Changes in memory -/

/-- The bit of a cluster. -/
def isSet (v : Volume) (c : ℕ) : Bool := bitAt v.bitmap (c - 2)

theorem fatset_spec (hc : c * 4 + 4 ≤ v.fat.length) (hx : x < 2 ^ 32) :
    ∃ fat', v.fatset c x = .ok { v with fat := fat' } ∧ fat'.length = v.fat.length ∧
      ∀ k, fatWord fat' k = if k = c then x else fatWord v.fat k := by
  obtain ⟨fat', hpack, hlength, himage⟩ := packU32_spec hc hx
  refine ⟨fat', by rw [fatset, hpack]; rfl, hlength, fun k ↦ ?_⟩
  rw [fatWord, himage]
  split_ifs with hk
  · rw [hk, rd32_write_wr32]
    exact Nat.mod_eq_of_lt hx
  · refine rd32_congr fun i hi ↦ Image.write_apply_of_not_mem ?_
    rw [wr32_length]
    omega

theorem setbit_eq_ok (hc : (c - 2) / 8 < v.bitmap.length) (b : Bool) :
    v.setbit c b = .ok { v with bitmap := setBitAt v.bitmap (c - 2) b } := if_pos hc

theorem bit_eq_isSet (hc : (c - 2) / 8 < v.bitmap.length) : v.bit c = .ok (v.isSet c) := if_pos hc

/-! ### The layout of a volume -/

/-- Boot sector, FAT and clusters follow each other on the device, the FAT has an entry and the
bitmap a bit for each cluster, and there are fewer clusters than the marks in a FAT need. -/
structure Layout (v : Volume) : Prop where
  sector_le : 512 ≤ v.boot.activeFatOffset
  fat_le : v.boot.activeFatOffset + v.fat.length ≤ v.boot.heapOff * v.boot.bps
  heap_le : v.boot.heapOff * v.boot.bps + v.boot.cc * v.boot.cs ≤ v.device.size
  entries_le : (v.boot.cc + 2) * 4 ≤ v.fat.length
  bits_le : v.boot.cc ≤ v.bitmap.length * 8
  count_le : v.boot.cc + 2 ≤ 0xFFFFFFF8

/-- The cluster is one of the volume. -/
def IsCluster (v : Volume) (c : ℕ) : Prop := 2 ≤ c ∧ c < v.boot.cc + 2

section

variable (h : v.Layout)
include h

theorem Layout.onDevice (hc : v.IsCluster c) : v.boot.OnDevice v.device.size c := by
  refine ⟨hc.1, hc.2, ?_⟩
  have hlast : (c - 2 + 1) * v.boot.cs ≤ v.boot.cc * v.boot.cs :=
    Nat.mul_le_mul_right _ (by have := hc.1; have := hc.2; omega)
  have := h.heap_le
  rw [Nat.add_mul] at hlast
  rw [Boot.clusterAt_eq]
  omega

theorem Layout.bit_lt (hc : v.IsCluster c) : (c - 2) / 8 < v.bitmap.length := by
  have := h.bits_le
  have := hc.1
  have := hc.2
  omega

theorem Layout.entry_le (hc : v.IsCluster c) : c * 4 + 4 ≤ v.fat.length := by
  have := h.entries_le
  have := hc.2
  omega

theorem Layout.lt_word (hc : v.IsCluster c) : c < 2 ^ 32 := by
  have := h.count_le
  have := hc.2
  omega

theorem Layout.inFat (hC : ∀ c ∈ C, v.IsCluster c) : InFat v.fat C := by
  intro c hc
  have := h.count_le
  have := (hC c hc).2
  exact ⟨(hC c hc).1, by omega, h.entry_le (hC c hc)⟩

/-- The FAT is in front of the clusters. -/
theorem Layout.lt_of_inCluster {a : ℕ} (ha : v.boot.InCluster c a) :
    v.boot.activeFatOffset + v.fat.length ≤ a := by
  have hle := ha.1
  rw [Boot.clusterAt_eq] at hle
  have := h.fat_le
  omega

end

/-! ### Writing back -/

/-- The volume after a flush. -/
structure Flushed (v v' : Volume) : Prop where
  eq : v' = { v with device := v'.device }
  size : v'.device.size = v.device.size
  fat : v'.device.image.read v.boot.activeFatOffset v.fat.length = v.fat
  bitmap : readClusters v'.device v.boot v.bitmapClusters =
    .ok (padded (v.bitmapClusters.length * v.boot.cs) v.bitmap)
  frame : ∀ a, (a < v.boot.activeFatOffset ∨ v.boot.activeFatOffset + v.fat.length ≤ a) →
    (∀ c ∈ v.bitmapClusters, ¬v.boot.InCluster c a) → v'.device.image a = v.device.image a

/-- The bitmap is in clusters that hold it. -/
structure BitmapFits (v : Volume) : Prop where
  nodup : v.bitmapClusters.Nodup
  isCluster : ∀ c ∈ v.bitmapClusters, v.IsCluster c
  length_le : v.bitmap.length ≤ v.bitmapClusters.length * v.boot.cs

/-- **Writing FAT and bitmap back.** -/
theorem flushFatBitmap_spec (h : v.Layout) (hwritable : v.writable = true)
    (hbitmap : v.BitmapFits) :
    ∃ v', v.flushFatBitmap = .ok v' ∧ Flushed v v' := by
  have hfit : v.fat.length ≤ v.device.size - v.boot.activeFatOffset := by
    have := h.fat_le
    have := h.heap_le
    have := h.entries_le
    omega
  have hfat : v.write v.boot.activeFatOffset v.fat =
      .ok { v with device :=
        { v.device with image := v.device.image.write v.boot.activeFatOffset v.fat } } := by
    rw [write, raiseIf_bind_of_not (by simp [hwritable]), Device.write_eq_ok.2 ⟨hfit, rfl⟩]
    rfl
  obtain ⟨d', hwrite, hwritten⟩ := writeStream_spec
    (d := { v.device with image := v.device.image.write v.boot.activeFatOffset v.fat })
      hbitmap.nodup
    (fun c hc ↦ h.onDevice (hbitmap.isCluster c hc)) hbitmap.length_le
  refine ⟨{ v with device := d' }, ?_, rfl, hwritten.size, ?_, hwritten.stream,
    fun a hfat hbits ↦ ?_⟩
  · rw [flushFatBitmap, hfat, ok_bind, Volume.writeStream,
      raiseIf_bind_of_not (by simp [hwritable])]
    rw [hwrite]
    rfl
  · -- the bitmap is behind the FAT
    refine Eq.trans (Image.read_congr fun i hi ↦ hwritten.frame _ fun c hc ha ↦ ?_)
      Image.read_write_self
    have := h.lt_of_inCluster ha
    omega
  · rw [hwritten.frame a hbits]
    exact Image.write_apply_of_not_mem hfat

/-- A flush leaves the other clusters alone. -/
theorem Flushed.readClusters_eq (h : Flushed v v') (hlayout : v.Layout) (hbitmap : v.BitmapFits)
    (hC : C.Disjoint v.bitmapClusters) :
    readClusters v'.device v.boot C = readClusters v.device v.boot C := by
  refine readClusters_congr h.size fun c hc htwo a ha ↦
    h.frame a (.inr (hlayout.lt_of_inCluster ha)) ?_
  intro c' hc' ha'
  obtain rfl := Boot.eq_of_inCluster htwo (hbitmap.isCluster c' hc').1 ha ha'
  exact hC hc hc'

end Volume

end LinuxDefragger.Exfat
