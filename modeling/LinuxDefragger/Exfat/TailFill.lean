import LinuxDefragger.Exfat.Flush
import LinuxDefragger.Exfat.Update

/-!
# Moving one cluster

`move_tail_cluster` copies one cluster of an object to a free cluster below it and puts the copy in
its place. An object in a FAT chain is relinked; the chain of an object without one is written as a
whole, and its entry says so from then on. The journal is read by a recovery only and is left out.

`TailMoved` says what the volume is afterwards: which entries of the FAT and which bits have
changed, that the device holds what is in memory, and that apart from the copy and the directory of
the object nothing else has changed.
-/

open Function List Storage

namespace LinuxDefragger.Exfat

namespace Volume

/-! ### The engine's function -/

/-- `setbit` and `fatset` for a position of the new chain. -/
def linkCluster (v : Volume) (newChain : List ℕ) (position : ℕ) : Except PyError Volume := do
  let v ← v.setbit (newChain.getD position 0) true
  v.fatset (newChain.getD position 0) (newChain.getD (position + 1) EOC)

/-- The destination is linked to the rest of the object. -/
def linkNew (v : Volume) (e : Entry) (index : ℕ) (newChain : List ℕ) : Except PyError Volume :=
  if e.nofat then (List.range newChain.length).foldlM
    (fun v position ↦ v.linkCluster newChain position) v
  else v.linkCluster newChain index

/-- The object is switched over to the destination. -/
def switchChain (v : Volume) (e : Entry) (index destination : ℕ) (newChain : List ℕ) :
    Except PyError Volume :=
  if e.nofat ∨ index = 0 then v.updateEntry e (newChain.getD 0 0) false
  else do
    let v ← v.fatset (newChain.getD (index - 1) 0) destination
    v.flushFatBitmap

/-- `destination >= source or v.bit(destination)` -/
def isTaken (v : Volume) (source destination : ℕ) : Except PyError Bool :=
  if source ≤ destination then pure true else v.bit destination

/-- `move_tail_cluster` -/
def moveTailCluster (v : Volume) (e : Entry) (index destination : ℕ) : Except PyError Volume :=
  match e.clusters[index]? with
  | none => throw .indexError
  | some source => do
    raiseIf (← v.isTaken source destination) "invalid exFAT tail-fill destination" []
    let newChain := e.clusters.set index destination
    -- what the journal keeps of the old state
    let _ ← (destination :: e.clusters).mapM (fatget v.fat)
    let _ ← v.bit source
    let v ← v.write (← v.boot.coff destination) (← v.device.read (← v.boot.coff source) v.boot.cs)
    let v ← v.linkNew e index newChain
    let v ← v.flushFatBitmap
    let v ← v.switchChain e index destination newChain
    let v ← v.setbit source false
    let v ← v.fatset source 0
    v.flushFatBitmap

variable {v v' : Volume} {e : Entry} {index source destination c : ℕ} {chain C : List ℕ}

/-! ### Volumes that differ in FAT, bitmap and contents -/

/-- The volumes have the same layout. -/
structure SameShape (v v' : Volume) : Prop where
  boot : v'.boot = v.boot
  writable : v'.writable = v.writable
  bitmapClusters : v'.bitmapClusters = v.bitmapClusters
  size : v'.device.size = v.device.size
  fat : v'.fat.length = v.fat.length
  bitmap : v'.bitmap.length = v.bitmap.length

section

variable (h : SameShape v v')
include h

theorem SameShape.trans {v'' : Volume} (h' : SameShape v' v'') : SameShape v v'' :=
  ⟨h'.boot.trans h.boot, h'.writable.trans h.writable, h'.bitmapClusters.trans h.bitmapClusters,
    h'.size.trans h.size, h'.fat.trans h.fat, h'.bitmap.trans h.bitmap⟩

theorem SameShape.layout (hlayout : v.Layout) : v'.Layout where
  sector_le := by rw [h.boot]; exact hlayout.sector_le
  fat_le := by rw [h.boot, h.fat]; exact hlayout.fat_le
  heap_le := by rw [h.boot, h.size]; exact hlayout.heap_le
  entries_le := by rw [h.boot, h.fat]; exact hlayout.entries_le
  bits_le := by rw [h.boot, h.bitmap]; exact hlayout.bits_le
  count_le := by rw [h.boot]; exact hlayout.count_le

theorem SameShape.isCluster : v'.IsCluster c ↔ v.IsCluster c := by
  rw [IsCluster, IsCluster, h.boot]

theorem SameShape.bitmapFits (hbitmap : v.BitmapFits) : v'.BitmapFits where
  nodup := by rw [h.bitmapClusters]; exact hbitmap.nodup
  isCluster c hc := by
    rw [h.bitmapClusters] at hc
    exact h.isCluster.2 (hbitmap.isCluster c hc)
  length_le := by rw [h.bitmap, h.bitmapClusters, h.boot]; exact hbitmap.length_le

end

/-- The volume with other contents of the device. -/
def withImage (v : Volume) (m : Image) : Volume := { v with device := { v.device with image := m } }

theorem write_spec {offset : ℕ} {data : List UInt8} (hwritable : v.writable = true)
    (hfit : data.length ≤ v.device.size - offset) :
    v.write offset data = .ok (v.withImage (v.device.image.write offset data)) := by
  rw [write, raiseIf_bind_of_not (by simp [hwritable]), Device.write_eq_ok.2 ⟨hfit, rfl⟩]
  rfl

/-! ### Linking -/

/-- The volume with another FAT and another bitmap in memory. -/
def withMemory (v : Volume) (fat bitmap : List UInt8) : Volume :=
    { v with fat := fat, bitmap := bitmap }

/-- A change of FAT and bitmap in memory: the entries of the FAT are given by `link` and the bits of
the clusters by `bits`. -/
structure MemoryChange (v : Volume) (fat bitmap : List UInt8) (link : ℕ → ℕ) (bits : ℕ → Bool) :
    Prop where
  fat_length : fat.length = v.fat.length
  bitmap_length : bitmap.length = v.bitmap.length
  fatWord_eq : ∀ x, fatWord fat x = link x
  isSet_eq : ∀ c, 2 ≤ c → bitAt bitmap (c - 2) = bits c

theorem MemoryChange.sameShape {fat bitmap : List UInt8} {link : ℕ → ℕ} {bits : ℕ → Bool}
    (h : v.MemoryChange fat bitmap link bits) : SameShape v (v.withMemory fat bitmap) :=
  ⟨rfl, rfl, rfl, rfl, h.fat_length, h.bitmap_length⟩

section

variable (hlayout : v.Layout)
include hlayout

/-- Changing one entry and one bit. -/
theorem setbit_fatset_spec {x : ℕ} {b : Bool} (hc : v.IsCluster c) (hx : x < 2 ^ 32) :
    ∃ fat bitmap, (do let v ← v.setbit c b; v.fatset c x) = .ok (v.withMemory fat bitmap) ∧
      v.MemoryChange fat bitmap (update (fatWord v.fat) c x) (update v.isSet c b) := by
  obtain ⟨fat, hset, hlength, hword⟩ :=
    fatset_spec (v := { v with bitmap := setBitAt v.bitmap (c - 2) b }) (hlayout.entry_le hc) hx
  refine ⟨fat, setBitAt v.bitmap (c - 2) b, ?_, hlength, length_setBitAt _ _ _, fun k ↦ ?_,
    fun d hd ↦ ?_⟩
  · rw [setbit_eq_ok (hlayout.bit_lt hc), ok_bind, hset]
    rfl
  · rw [hword, update_apply]
  · rw [bitAt_setBitAt (hlayout.bit_lt hc), update_apply, isSet]
    have := hc.1
    exact if_congr (by omega) rfl rfl

theorem getD_next_lt {k : ℕ} (hchain : ∀ c ∈ chain, v.IsCluster c) :
    chain.getD (k + 1) EOC < 2 ^ 32 := by
  rcases Nat.lt_or_ge (k + 1) chain.length with h | h
  · rw [getD_eq_getElem _ _ h]
    exact hlayout.lt_word (hchain _ (getElem_mem h))
  · rw [getD_eq_default _ _ h]
    decide

/-- Linking one position of a chain. -/
theorem linkCluster_spec {k : ℕ} (hchain : ∀ c ∈ chain, v.IsCluster c) (hk : k < chain.length) :
    ∃ fat bitmap, v.linkCluster chain k = .ok (v.withMemory fat bitmap) ∧ v.MemoryChange fat bitmap
      (update (fatWord v.fat) chain[k] (chain.getD (k + 1) EOC))
      (update v.isSet chain[k] true) := by
  rw [linkCluster, getD_eq_getElem _ _ hk]
  exact setbit_fatset_spec hlayout (hchain _ (getElem_mem hk)) (getD_next_lt hlayout hchain)

/-- **Linking a whole chain**, up to a position. -/
theorem linkChain_spec {m : ℕ} (hchain : ∀ c ∈ chain, v.IsCluster c)
    (hnodup : chain.Nodup) (hm : m ≤ chain.length) :
    ∃ fat bitmap link bits, (range m).foldlM (fun v position ↦ v.linkCluster chain position) v =
        .ok (v.withMemory fat bitmap) ∧ v.MemoryChange fat bitmap link bits ∧
      (∀ k (hk : k < chain.length), k < m → link chain[k] = chain.getD (k + 1) EOC) ∧
      (∀ x, x ∉ chain → link x = fatWord v.fat x) ∧
      ∀ c, bits c = (v.isSet c || decide (c ∈ chain.take m)) := by
  induction m with
  | zero =>
    exact ⟨v.fat, v.bitmap, fatWord v.fat, v.isSet, rfl, ⟨rfl, rfl, fun _ ↦ rfl, fun _ _ ↦ rfl⟩,
      fun k _ hk ↦ absurd hk (Nat.not_lt_zero k), fun _ _ ↦ rfl, fun c ↦ by simp⟩
  | succ m ih =>
    obtain ⟨fat, bitmap, link, bits, hfold, hchange, hlink, hother, hbits⟩ := ih (by omega)
    obtain ⟨fat', bitmap', hstep, hchange'⟩ :=
      linkCluster_spec (k := m) (hchange.sameShape.layout hlayout)
      (fun c hc ↦ hchange.sameShape.isCluster.2 (hchain c hc)) hm
    have hwords : fatWord (v.withMemory fat bitmap).fat = link := funext hchange.fatWord_eq
    rw [hwords] at hchange'
    refine ⟨fat', bitmap', _, update bits chain[m] true, ?_,
      ⟨hchange'.fat_length.trans hchange.fat_length,
        hchange'.bitmap_length.trans hchange.bitmap_length,
        hchange'.fatWord_eq, fun c hc ↦ ?_⟩, fun k hk hkm ↦ ?_, fun x hx ↦ ?_, fun c ↦ ?_⟩
    · rw [range_succ, foldlM_append, hfold, ok_bind, foldlM_cons, hstep]
      rfl
    · rw [hchange'.isSet_eq c hc, update_apply, update_apply]
      exact if_congr Iff.rfl rfl (hchange.isSet_eq c hc)
    · rw [update_apply]
      split_ifs with hsame
      · rw [(List.Nodup.getElem_inj_iff hnodup).1 hsame]
      · refine hlink k hk ?_
        by_contra hge
        obtain rfl : k = m := by omega
        exact hsame rfl
    · rw [update_apply, if_neg fun h : x = chain[m] ↦ hx (h ▸ getElem_mem _), hother x hx]
    · rw [update_apply, hbits, ← take_concat_get' _ _ hm]
      simp only [mem_append, mem_singleton, Bool.decide_or]
      split_ifs with hsame
      · simp [hsame]
      · simp [hsame]

/-- **The destination is linked.** -/
theorem linkNew_spec (hchain : ∀ c ∈ chain, v.IsCluster c) (hnodup : chain.Nodup)
    (hindex : index < chain.length) :
    ∃ fat bitmap link bits, v.linkNew e index chain = .ok (v.withMemory fat bitmap) ∧
      v.MemoryChange fat bitmap link bits ∧
      (∀ k (hk : k < chain.length), e.nofat = true ∨ k = index →
        link chain[k] = chain.getD (k + 1) EOC) ∧
      (∀ x, (e.nofat = true → x ∉ chain) → (e.nofat = false → x ≠ chain[index]) →
        link x = fatWord v.fat x) ∧
      ∀ c, (e.nofat = true → c ∈ chain → c ≠ chain[index] → v.isSet c = true) →
        bits c = (v.isSet c || decide (c = chain[index])) := by
  unfold linkNew
  cases hnofat : e.nofat with
  | true =>
    obtain ⟨fat, bitmap, link, bits, hfold, hchange, hlink, hother, hbits⟩ :=
      linkChain_spec hlayout hchain hnodup (Nat.le_refl _)
    refine ⟨fat, bitmap, link, bits, hfold, hchange, fun k hk _ ↦ hlink k hk hk,
      fun x hx _ ↦ hother x (hx rfl), fun c hc ↦ ?_⟩
    rw [hbits, take_length]
    by_cases hmem : c ∈ chain
    · rcases eq_or_ne c chain[index] with rfl | hne
      · simp
      · simp [hc rfl hmem hne]
    · have hne : c ≠ chain[index] := fun h ↦ hmem (h ▸ getElem_mem _)
      simp [hmem, hne]
  | false =>
    obtain ⟨fat, bitmap, hlinked, hchange⟩ := linkCluster_spec hlayout hchain hindex
    refine ⟨fat, bitmap, _, _, hlinked, hchange, fun k hk hki ↦ ?_, fun x _ hx ↦ ?_, fun c _ ↦ ?_⟩
    · obtain rfl := hki.resolve_left Bool.false_ne_true
      exact update_self ..
    · exact update_of_ne (hx rfl) _ _
    · rw [update_apply]
      split_ifs with h <;> simp [h]

end

/-! ### The move -/

/-- A volume on which a cluster of an entry can be moved: the object is allocated, the destination
is free, and the directory of the entry, the bitmap and the destination are apart. -/
structure MoveReady (v : Volume) (e : Entry) (index source destination : ℕ) (data : List UInt8)
    (s : FileSet) : Prop where
  layout : v.Layout
  writable : v.writable = true
  bitmapFits : v.BitmapFits
  source_eq : e.clusters[index]? = some source
  nodup : e.clusters.Nodup
  isCluster : ∀ c ∈ e.clusters, v.IsCluster c
  isSet : ∀ c ∈ e.clusters, v.isSet c = true
  linked : e.nofat = false → ∃ last, LinkedTo v.fat last e.clusters
  dest_isCluster : v.IsCluster destination
  lt : destination < source
  free : v.isSet destination = false
  dest_bitmap : destination ∉ v.bitmapClusters
  dest_parent : destination ∉ e.parentClusters
  parent_bitmap : e.parentClusters.Disjoint v.bitmapClusters
  parent_nodup : e.parentClusters.Nodup
  dirData : v.dirData e.parentClusters = .ok data
  accepted : DirAccepted data
  set_mem : s ∈ dirSets data
  set_offset : s.offset = e.entryOff
  set_total : s.total = e.entryCount
  set_first : s.first = e.first
  set_nofat : s.nofat = e.nofat
  head : e.clusters.head? = some e.first
  oneStream : v.OneStream e

/-- The directory of the entry before and after the move. -/
def ParentMoved (e : Entry) (index first : ℕ) (data data' : List UInt8) : Prop :=
  if e.nofat = true ∨ index = 0 then
    ∃ stream, secondaries (bytesImage data) e.entryOff e.entryCount 0xC0 = [stream] ∧
      Patched (bytesImage data) (bytesImage data') e.entryOff e.entryCount stream first false
  else data' = data

/-- **The volume after the move** of a cluster. -/
structure TailMoved (v v' : Volume) (e : Entry) (index source destination : ℕ) (data : List UInt8) :
    Prop where
  sameShape : SameShape v v'
  linked : ∃ last, LinkedTo v'.fat last (e.clusters.set index destination) ∧
    (e.nofat = true ∨ LinkedTo v.fat EOC e.clusters → last = EOC)
  fat_frame : ∀ x, x ∉ e.clusters → x ≠ destination → fatWord v'.fat x = fatWord v.fat x
  isSet_eq : ∀ c, 2 ≤ c →
    v'.isSet c = if c = source then false else if c = destination then true else v.isSet c
  fat : v'.device.image.read v.boot.activeFatOffset v'.fat.length = v'.fat
  bitmap : readClusters v'.device v.boot v.bitmapClusters =
    .ok (padded (v.bitmapClusters.length * v.boot.cs) v'.bitmap)
  /-- The destination holds what the source held. -/
  copy : v'.device.image.read (v.boot.clusterAt destination) v.boot.cs =
    v.device.image.read (v.boot.clusterAt source) v.boot.cs
  parent : ∃ data', readClusters v'.device v.boot e.parentClusters = .ok data' ∧
    data'.length = data.length ∧
    ParentMoved e index ((e.clusters.set index destination).getD 0 0) data data'
  frame : ∀ a, (a < v.boot.activeFatOffset ∨ v.boot.activeFatOffset + v.fat.length ≤ a) →
    (∀ c ∈ v.bitmapClusters, ¬v.boot.InCluster c a) →
    (∀ c ∈ e.parentClusters, ¬v.boot.InCluster c a) →
    ¬v.boot.InCluster destination a → v'.device.image a = v.device.image a

theorem Flushed.sameShape (h : Flushed v v') : SameShape v v' := by
  rw [h.eq]
  exact ⟨rfl, rfl, rfl, h.size, rfl, rfl⟩

theorem Flushed.apply_eq {a : ℕ} (h : Flushed v v') (hlayout : v.Layout) (hbitmap : v.BitmapFits)
    (hc : 2 ≤ c)
    (hmem : c ∉ v.bitmapClusters) (ha : v.boot.InCluster c a) :
    v'.device.image a = v.device.image a := by
  refine h.frame a (.inr (hlayout.lt_of_inCluster ha)) fun c' hc' ha' ↦ hmem ?_
  rwa [Boot.eq_of_inCluster hc (hbitmap.isCluster c' hc').1 ha ha']

theorem Updated.sameShape {first : ℕ} {nofat : Bool} {data data' : List UInt8}
    (h : Updated v v' e first nofat data data') : SameShape v v' := by
  rw [h.eq]
  exact ⟨rfl, rfl, rfl, h.written.size, rfl, rfl⟩

/-- The first half of the move: the cluster is copied and the destination is linked. -/
structure Prepared (v v' : Volume) (e : Entry) (index source destination : ℕ) : Prop where
  sameShape : SameShape v v'
  link_new : ∀ k (hk : k < (e.clusters.set index destination).length), e.nofat = true ∨ k = index →
    fatWord v'.fat (e.clusters.set index destination)[k] =
      (e.clusters.set index destination).getD (k + 1) EOC
  link_other : ∀ x, (e.nofat = true → x ∉ e.clusters.set index destination) →
    (e.nofat = false → x ≠ destination) → fatWord v'.fat x = fatWord v.fat x
  isSet_eq : ∀ c, 2 ≤ c → v'.isSet c = if c = destination then true else v.isSet c
  copy : v'.device.image.read (v.boot.clusterAt destination) v.boot.cs =
    v.device.image.read (v.boot.clusterAt source) v.boot.cs
  frame : ∀ a, (a < v.boot.activeFatOffset ∨ v.boot.activeFatOffset + v.fat.length ≤ a) →
    (∀ c ∈ v.bitmapClusters, ¬v.boot.InCluster c a) → ¬v.boot.InCluster destination a →
    v'.device.image a = v.device.image a

/-- The second half of the move: the object is switched over. -/
structure Switched (v v₃ v₄ : Volume) (e : Entry) (index destination : ℕ) (data : List UInt8) :
    Prop where
  sameShape : SameShape v₃ v₄
  bitmap : v₄.bitmap = v₃.bitmap
  link_pred : ∀ k (hk : k < e.clusters.length), e.nofat = false → k + 1 = index →
    fatWord v₄.fat e.clusters[k] = destination
  link_other : ∀ x, (∀ k (hk : k < e.clusters.length), e.nofat = false → k + 1 = index →
    x ≠ e.clusters[k]) → fatWord v₄.fat x = fatWord v₃.fat x
  parent : ∃ data', readClusters v₄.device v.boot e.parentClusters = .ok data' ∧
    data'.length = data.length ∧
    ParentMoved e index ((e.clusters.set index destination).getD 0 0) data data'
  frame : ∀ a, (a < v.boot.activeFatOffset ∨ v.boot.activeFatOffset + v.fat.length ≤ a) →
    (∀ c ∈ v.bitmapClusters, ¬v.boot.InCluster c a) →
    (∀ c ∈ e.parentClusters, ¬v.boot.InCluster c a) →
    v₄.device.image a = v₃.device.image a

section Ready

variable {data : List UInt8} {s : FileSet} (h : v.MoveReady e index source destination data s)

include h

namespace MoveReady

theorem dest_notMem : destination ∉ e.clusters := fun hmem ↦
  Bool.false_ne_true (h.free.symm.trans (h.isSet _ hmem))

/-- A free cluster is in no list of allocated ones. -/
theorem dest_notMem_of_isSet (hC : ∀ c ∈ C, v.isSet c = true) : destination ∉ C := fun hmem ↦
  Bool.false_ne_true (h.free.symm.trans (hC _ hmem))

theorem index_lt : index < e.clusters.length := (List.getElem?_eq_some_iff.1 h.source_eq).1

theorem source_mem : source ∈ e.clusters := mem_of_getElem? h.source_eq

theorem new_nodup : (e.clusters.set index destination).Nodup := h.nodup.set h.dest_notMem

theorem source_notMem_new : source ∉ e.clusters.set index destination := by
  intro hmem
  obtain ⟨k, hk⟩ := mem_iff_getElem?.1 hmem
  by_cases hki : index = k
  · subst hki
    rw [getElem?_set_self h.index_lt] at hk
    exact h.lt.ne (Option.some.inj hk)
  · rw [getElem?_set_ne hki, ← h.source_eq] at hk
    exact hki ((getElem?_inj h.index_lt h.nodup).1 hk.symm)

theorem new_isCluster : ∀ c ∈ e.clusters.set index destination, v.IsCluster c := fun c hc ↦
  (mem_or_eq_of_mem_set hc).elim (h.isCluster c) fun hd ↦ hd ▸ h.dest_isCluster

/-- The old state that the journal keeps can be read. -/
theorem fatget_ok : ∃ words, (destination :: e.clusters).mapM (fatget v.fat) = .ok words := by
  have hall : ∀ l : List ℕ, (∀ c ∈ l, v.IsCluster c) → ∃ words, l.mapM (fatget v.fat) =
      .ok words := by
    intro l hl
    induction l with
    | nil => exact ⟨[], rfl⟩
    | cons c l ih =>
      obtain ⟨hc, hl⟩ := forall_mem_cons.1 hl
      obtain ⟨words, hwords⟩ := ih hl
      refine ⟨fatWord v.fat c :: words, ?_⟩
      rw [mapM_cons, fatget_eq_ok.2 ⟨h.layout.entry_le hc, rfl⟩, ok_bind, hwords]
      rfl
  exact hall _ (forall_mem_cons.2 ⟨h.dest_isCluster, h.isCluster⟩)

/-- **The first half of the move.** -/
theorem prepared : ∃ v₁ v₂ v₃,
    v.write (v.boot.clusterAt destination)
      (v.device.image.read (v.boot.clusterAt source) v.boot.cs) = .ok v₁ ∧
      v₁.linkNew e index (e.clusters.set index destination) = .ok v₂ ∧ v₂.flushFatBitmap = .ok v₃ ∧
      Prepared v v₃ e index source destination := by
  have hend := (h.layout.onDevice h.dest_isCluster).end_le
  have hwrite := write_spec (v := v) h.writable
    (show (v.device.image.read (v.boot.clusterAt source) v.boot.cs).length ≤
      v.device.size - v.boot.clusterAt destination by rw [Image.read_length]; omega)
  generalize hv₁ : v.withImage _ = v₁ at hwrite
  have hshape₁ : SameShape v v₁ := by rw [← hv₁]; exact ⟨rfl, rfl, rfl, rfl, rfl, rfl⟩
  have hindex :
    index < (e.clusters.set index destination).length := by rw [length_set]; exact h.index_lt
  obtain ⟨fat, bitmap, link, bits, hlinkNew, hchange, hlink, hother, hbits⟩ :=
    linkNew_spec (e := e) (hshape₁.layout h.layout)
      (fun c hc ↦ hshape₁.isCluster.2 (h.new_isCluster c hc))
      h.new_nodup hindex
  have hshape₂ := hshape₁.trans hchange.sameShape
  obtain ⟨v₃, hflush, hflushed⟩ := flushFatBitmap_spec (hshape₂.layout h.layout)
    (hshape₂.writable.trans h.writable) (hshape₂.bitmapFits h.bitmapFits)
  have hself : (e.clusters.set index destination)[index] = destination := getElem_set_self hindex
  have hfat : v₃.fat = fat := by rw [hflushed.eq]; rfl
  have hbitmap : v₃.bitmap = bitmap := by rw [hflushed.eq]; rfl
  have himage : v₁.device.image = v.device.image.write (v.boot.clusterAt destination)
      (v.device.image.read (v.boot.clusterAt source) v.boot.cs) := by rw [← hv₁]; rfl
  have hboot : (v₁.withMemory fat bitmap).boot = v.boot := hshape₂.boot
  have hclusters : (v₁.withMemory fat bitmap).bitmapClusters = v.bitmapClusters :=
    hshape₂.bitmapClusters
  refine ⟨v₁, _, v₃, hwrite, hlinkNew, hflush, hshape₂.trans hflushed.sameShape,
    fun k hk hcase ↦ ?_,
    fun x hx hx' ↦ ?_, fun c hc ↦ ?_, ?_, fun a hafat habitmap hadest ↦ ?_⟩
  · rw [hfat, hchange.fatWord_eq]
    exact hlink k hk hcase
  · rw [hfat, hchange.fatWord_eq, hother x hx (by rwa [hself]), ← hv₁]
    rfl
  · have hsame : v₁.isSet c = v.isSet c := by rw [← hv₁]; rfl
    rw [Volume.isSet, hbitmap, hchange.isSet_eq c hc, hbits c fun _ hmem hne ↦ ?_, hsame, hself]
    · split_ifs with hcd <;> simp [hcd]
    · rw [hsame]
      exact h.isSet c ((mem_or_eq_of_mem_set hmem).resolve_right (by rwa [hself] at hne))
  · -- the flush does not reach the destination
    have hcopy : v₁.device.image.read (v.boot.clusterAt destination) v.boot.cs =
        v.device.image.read (v.boot.clusterAt source) v.boot.cs := by
      rw [himage]
      exact read_write_of_length (Image.read_length _ _ _)
    rw [← hcopy]
    refine Image.read_congr fun i hi ↦ hflushed.apply_eq (hshape₂.layout h.layout)
      (hshape₂.bitmapFits h.bitmapFits) h.dest_isCluster.1
        (by rw [hclusters]; exact h.dest_bitmap) ?_
    rw [hboot]
    exact ⟨by omega, by omega⟩
  · rw [hflushed.frame a (by rw [hboot, hchange.sameShape.fat, hshape₁.fat]; exact hafat)
      (by rw [hclusters, hboot]; exact habitmap)]
    refine (congrFun himage a).trans (Image.write_apply_of_not_mem ?_)
    rw [Image.read_length]
    by_contra hin
    exact hadest ⟨by omega, by omega⟩

/-- The directory of the entry is as it was after the first half. -/
theorem prepared_dirData {v₃ : Volume} (hp : Prepared v v₃ e index source destination) :
    v₃.dirData e.parentClusters = .ok data := by
  rw [dirData_eq_readClusters, hp.sameShape.boot, ← h.dirData, dirData_eq_readClusters]
  refine readClusters_congr hp.sameShape.size fun c hc htwo a ha ↦
    hp.frame a (.inr (h.layout.lt_of_inCluster ha)) (fun c' hc' ha' ↦ ?_) fun ha' ↦ ?_
  · obtain rfl := Boot.eq_of_inCluster htwo (h.bitmapFits.isCluster c' hc').1 ha ha'
    exact h.parent_bitmap hc hc'
  · obtain rfl := Boot.eq_of_inCluster htwo h.dest_isCluster.1 ha ha'
    exact h.dest_parent hc

/-- **The switch to the destination.** -/
theorem switched {v₃ : Volume} (hp : Prepared v v₃ e index source destination) :
    ∃ v₄, v₃.switchChain e index destination (e.clusters.set index destination) = .ok v₄ ∧
      Switched v v₃ v₄ e index destination data := by
  have hnew : (e.clusters.set index destination).length = e.clusters.length := length_set
  have hindex := h.index_lt
  have hlayout₃ := hp.sameShape.layout h.layout
  have hfits₃ := hp.sameShape.bitmapFits h.bitmapFits
  have hdata₃ := h.prepared_dirData hp
  unfold switchChain
  by_cases hcase : e.nofat = true ∨ index = 0
  · rw [if_pos hcase]
    have hfirst : (e.clusters.set index destination).getD 0 0 < 2 ^ 32 := by
      rw [getD_eq_getElem _ _ (by omega)]
      exact h.layout.lt_word (h.new_isCluster _ (getElem_mem _))
    have hone : v₃.OneStream e := by
      intro data' hdata'
      obtain rfl := Except.ok.inj (hdata₃.symm.trans hdata')
      exact h.oneStream _ h.dirData
    obtain ⟨v₄, data', hupdate, hupdated⟩ :=
      updateEntry_spec false (hp.sameShape.writable.trans h.writable)
      hdata₃ h.parent_nodup h.accepted h.set_mem h.set_offset h.set_total hone hfirst
    have hfat : v₄.fat = v₃.fat := by rw [hupdated.eq]
    have hdata₄ := hupdated.dirData_eq hdata₃
    rw [dirData_eq_readClusters, hupdated.sameShape.boot, hp.sameShape.boot] at hdata₄
    refine ⟨v₄, hupdate, hupdated.sameShape, by rw [hupdated.eq], fun k _ hnofat hk ↦ ?_,
      fun x _ ↦ by rw [hfat],
      ⟨data', hdata₄, hupdated.length, ?_⟩, fun a _ _ haparent ↦ hupdated.written.frame a ?_⟩
    · -- the first cluster has no predecessor
      rw [hnofat] at hcase
      have := hcase.resolve_left Bool.false_ne_true
      omega
    · rw [ParentMoved, if_pos hcase]
      exact hupdated.patched
    · rw [hp.sameShape.boot]
      exact haparent
  · rw [if_neg hcase]
    rw [not_or, Bool.not_eq_true] at hcase
    obtain ⟨hnofat, hzero⟩ := hcase
    obtain ⟨j, rfl⟩ := Nat.exists_eq_succ_of_ne_zero hzero
    have hj : j < e.clusters.length := by omega
    have hpred : (e.clusters.set (j + 1) destination).getD (j + 1 - 1) 0 = e.clusters[j] := by
      rw [Nat.add_sub_cancel, getD_eq_getElem _ _ (by rwa [length_set]), getElem_set_ne (by omega)]
    have hpredCluster := h.isCluster _ (getElem_mem hj)
    obtain ⟨fat, hset, hlength, hword⟩ :=
      fatset_spec (hlayout₃.entry_le (hp.sameShape.isCluster.2 hpredCluster))
      (h.layout.lt_word h.dest_isCluster)
    have hshape : SameShape v₃ { v₃ with fat := fat } := ⟨rfl, rfl, rfl, rfl, hlength, rfl⟩
    obtain ⟨v₄, hflush, hflushed⟩ := flushFatBitmap_spec (hshape.layout hlayout₃)
      (hp.sameShape.writable.trans h.writable) (hshape.bitmapFits hfits₃)
    have hfat : v₄.fat = fat := by rw [hflushed.eq]
    have hdata₄ := hflushed.readClusters_eq (hshape.layout hlayout₃) (hshape.bitmapFits hfits₃)
      (show e.parentClusters.Disjoint v₃.bitmapClusters by
        rw [hp.sameShape.bitmapClusters]; exact h.parent_bitmap)
    rw [dirData_eq_readClusters] at hdata₃
    refine ⟨v₄, ?_, hshape.trans hflushed.sameShape, by rw [hflushed.eq], fun k hk _ hki ↦ ?_,
      fun x hx ↦ ?_,
      ⟨data, ?_, rfl, ?_⟩, fun a hafat habitmap _ ↦ hflushed.frame a ?_ ?_⟩
    · rw [Nat.succ_eq_add_one, hpred, hset, ok_bind, hflush]
    · obtain rfl : k = j := by omega
      rw [hfat, hword, if_pos rfl]
    · rw [hfat, hword, if_neg (hx j hj hnofat rfl)]
    · rw [← hp.sameShape.boot]
      exact hdata₄.trans hdata₃
    · rw [ParentMoved, if_neg (by simp [hnofat])]
    · dsimp only
      rw [hp.sameShape.boot, hlength, hp.sameShape.fat]
      exact hafat
    · dsimp only
      rw [hp.sameShape.bitmapClusters, hp.sameShape.boot]
      exact habitmap

/-- The chain of the object after both halves. -/
theorem exists_linked {v₃ v₄ v₆ : Volume} (hp : Prepared v v₃ e index source destination)
    (hs : Switched v v₃ v₄ e index destination data)
    (hfat : ∀ x, x ≠ source → fatWord v₆.fat x = fatWord v₄.fat x) :
    ∃ last, LinkedTo v₆.fat last (e.clusters.set index destination) ∧
      (e.nofat = true ∨ LinkedTo v.fat EOC e.clusters → last = EOC) := by
  have hindex := h.index_lt
  have hlength : (e.clusters.set index destination).length = e.clusters.length := length_set
  have hsource : e.clusters[index] = source := (List.getElem?_eq_some_iff.1 h.source_eq).2
  have hdest : destination ≠ source := h.lt.ne
  cases hnofat : e.nofat with
  | true =>
    refine ⟨EOC, fun k hk ↦ ?_, fun _ ↦ rfl⟩
    have hk' : (e.clusters.set index destination)[k] ≠ source := by
      rw [getElem_set]
      split_ifs with hki
      · exact hdest
      · rw [← hsource]
        exact fun hsame ↦ hki ((List.Nodup.getElem_inj_iff h.nodup).1 hsame).symm
    rw [hfat _ hk', hs.link_other _ fun j _ hj ↦ absurd (hnofat.symm.trans hj) (by simp),
      hp.link_new k hk (.inl hnofat)]
  | false =>
    obtain ⟨last, hlast, heoc⟩ : ∃ last, LinkedTo v.fat last e.clusters ∧
        (LinkedTo v.fat EOC e.clusters → last = EOC) := by
      by_cases heoc : LinkedTo v.fat EOC e.clusters
      · exact ⟨EOC, heoc, fun _ ↦ rfl⟩
      · obtain ⟨last, hlast⟩ := h.linked hnofat
        exact ⟨last, hlast, fun h ↦ absurd h heoc⟩
    refine ⟨_, hlast.set hindex ?_ (fun k hk hki ↦ ?_) fun k hk hki hki' ↦ ?_, fun hor ↦ ?_⟩
    · have hself : (e.clusters.set index destination)[index] = destination := getElem_set_self _
      have h₄ : fatWord v₄.fat destination = fatWord v₃.fat destination :=
        hs.link_other _ fun j hj _ _ hsame ↦ h.dest_notMem (hsame ▸ getElem_mem hj)
      have hnew := hp.link_new index (by omega) (.inr rfl)
      rw [hself] at hnew
      rw [hfat _ hdest, h₄, hnew]
    · have hne : e.clusters[k] ≠ source := by
        rw [← hsource]
        exact fun hsame ↦ by have := (List.Nodup.getElem_inj_iff h.nodup).1 hsame; omega
      rw [hfat _ hne, hs.link_pred k hk hnofat hki]
    · have hne : e.clusters[k] ≠ source := by
        rw [← hsource]
        exact fun hsame ↦ hki ((List.Nodup.getElem_inj_iff h.nodup).1 hsame)
      have h₄ : fatWord v₄.fat e.clusters[k] = fatWord v₃.fat e.clusters[k] :=
        hs.link_other _ fun j hj _ hji hsame ↦
          hki' ((List.Nodup.getElem_inj_iff h.nodup).1 hsame ▸ hji)
      have h₃ : fatWord v₃.fat e.clusters[k] = fatWord v.fat e.clusters[k] :=
        hp.link_other _ (fun hf ↦ absurd (hnofat.symm.trans hf) Bool.false_ne_true) fun _ hd ↦
          h.dest_notMem (hd ▸ getElem_mem hk)
      rw [hfat _ hne, h₄, h₃]
    · rw [heoc (hor.resolve_left Bool.false_ne_true), ite_self]

/-- **Moving a cluster** goes through, and does what it should. -/
theorem moveTailCluster_spec : ∃ v', v.moveTailCluster e index destination = .ok v' ∧
    TailMoved v v' e index source destination data := by
  obtain ⟨v₁, v₂, v₃, hwrite, hlink, hflush, hp⟩ := h.prepared
  obtain ⟨v₄, hswitch, hs⟩ := h.switched hp
  have hshape₄ := hp.sameShape.trans hs.sameShape
  have hsource := h.isCluster source h.source_mem
  obtain ⟨fat, bitmap, hset, hchange⟩ :=
    setbit_fatset_spec (b := false) (x := 0) (hshape₄.layout h.layout)
    (hshape₄.isCluster.2 hsource) (by decide)
  have hshape₅ := hshape₄.trans hchange.sameShape
  obtain ⟨v₆, hflush₆, hflushed⟩ := flushFatBitmap_spec (hshape₅.layout h.layout)
    (hshape₅.writable.trans h.writable) (hshape₅.bitmapFits h.bitmapFits)
  have hfat : v₆.fat = fat := by rw [hflushed.eq]; rfl
  have hbitmap : v₆.bitmap = bitmap := by rw [hflushed.eq]; rfl
  have hword : ∀ x, x ≠ source → fatWord v₆.fat x = fatWord v₄.fat x := fun x hx ↦ by
    rw [hfat, hchange.fatWord_eq, update_of_ne hx]
  -- a cluster that is neither the bitmap's nor in the directory is as it was after the first half
  have hkept : ∀ c a, 2 ≤ c → c ∉ v.bitmapClusters → v.boot.InCluster c a →
      v₆.device.image a = v₄.device.image a := by
    intro c a hc hmem ha
    refine hflushed.apply_eq (hshape₅.layout h.layout) (hshape₅.bitmapFits h.bitmapFits) hc ?_ ?_
    · rwa [hshape₅.bitmapClusters]
    · rwa [hshape₅.boot]
  refine ⟨v₆, ?_, hshape₅.trans hflushed.sameShape, h.exists_linked hp hs hword, fun x hx hxd ↦ ?_,
    fun c hc ↦ ?_, ?_, ?_, ?_, ?_, fun a hafat habitmap haparent hadest ↦ ?_⟩
  · obtain ⟨words, hwords⟩ := h.fatget_ok
    have hdestOff := Boot.coff_eq_ok.2 ⟨h.dest_isCluster.1, h.dest_isCluster.2, rfl⟩
    have hsourceOff := Boot.coff_eq_ok.2 ⟨hsource.1, hsource.2, rfl⟩
    have hread : v.device.read (v.boot.clusterAt source) v.boot.cs = .ok _ :=
      Device.read_eq_ok.2 ⟨by have := (h.layout.onDevice hsource).end_le; omega, rfl⟩
    have htaken : v.isTaken source destination = .ok false := by
      rw [isTaken, if_neg (by have := h.lt; omega), bit_eq_isSet (h.layout.bit_lt h.dest_isCluster),
        h.free]
    rw [moveTailCluster, h.source_eq]
    dsimp only
    rw [htaken, ok_bind, raiseIf_bind_of_not (by simp), hwords, ok_bind,
      bit_eq_isSet (h.layout.bit_lt hsource),
      ok_bind, hdestOff, ok_bind, hsourceOff, ok_bind, hread, ok_bind, hwrite, ok_bind, hlink,
        ok_bind, hflush,
      ok_bind, hswitch, ok_bind, ← bind_assoc, hset, ok_bind, hflush₆]
  · have h₄ : fatWord v₄.fat x = fatWord v₃.fat x :=
      hs.link_other x fun j hj _ _ hsame ↦ hx (hsame ▸ getElem_mem hj)
    have h₃ : fatWord v₃.fat x = fatWord v.fat x :=
      hp.link_other x (fun _ hmem ↦ (mem_or_eq_of_mem_set hmem).elim hx hxd) fun _ ↦ hxd
    rw [hword x (fun hsame ↦ hx (hsame ▸ h.source_mem)), h₄, h₃]
  · have h₄ : v₄.isSet c = v₃.isSet c := by rw [Volume.isSet, hs.bitmap]; rfl
    rw [Volume.isSet, hbitmap, hchange.isSet_eq c hc, update_apply, h₄, hp.isSet_eq c hc]
  · have hread := hflushed.fat
    rw [hshape₅.boot] at hread
    rw [hfat]
    exact hread
  · have hread := hflushed.bitmap
    rw [hshape₅.boot, hshape₅.bitmapClusters] at hread
    rw [hbitmap]
    exact hread
  · rw [← hp.copy]
    refine Image.read_congr fun i hi ↦ ?_
    have ha : v.boot.InCluster destination (v.boot.clusterAt destination + i) :=
      ⟨by omega, by omega⟩
    rw [hkept destination _ h.dest_isCluster.1 h.dest_bitmap ha]
    refine hs.frame _ (.inr (h.layout.lt_of_inCluster ha)) (fun c hc hac ↦ ?_) fun c hc hac ↦ ?_
    · exact h.dest_bitmap
        (Boot.eq_of_inCluster h.dest_isCluster.1 (h.bitmapFits.isCluster c hc).1 ha hac ▸ hc)
    · have hon := (readClusters_eq_ok.1 (dirData_eq_readClusters v _ ▸ h.dirData)).1 c hc
      exact h.dest_parent (Boot.eq_of_inCluster h.dest_isCluster.1 hon.two_le ha hac ▸ hc)
  · obtain ⟨data', hdata', hlength, hmoved⟩ := hs.parent
    refine ⟨data', ?_, hlength, hmoved⟩
    rw [← hdata']
    refine readClusters_congr (hchange.sameShape.trans hflushed.sameShape).size fun c hc htwo a ha ↦
      hkept c a htwo (fun hmem ↦ h.parent_bitmap hc hmem) ha
  · rw [hflushed.frame a (by rw [hshape₅.boot, hshape₅.fat]; exact hafat)
      (by rw [hshape₅.boot, hshape₅.bitmapClusters]; exact habitmap)]
    exact (hs.frame a hafat habitmap haparent).trans (hp.frame a hafat habitmap hadest)

end MoveReady

end Ready

end Volume

end LinuxDefragger.Exfat
