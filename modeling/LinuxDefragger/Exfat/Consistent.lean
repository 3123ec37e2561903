import LinuxDefragger.Exfat.TailFill

/-!
# Consistent volumes

A volume is consistent if the engine opens and parses it, its layout is that of the specification,
every set has one stream extension, and every cluster in use is allocated and belongs to one object:
a file or directory, the root directory or the bitmap.

The move of a cluster to a free one keeps this (`Consistent.moved`).
-/

open Except List Storage

namespace LinuxDefragger.Exfat

/-! ### The root directory is read as a whole -/

/-- A number with few significant bits is a double. -/
theorem round53_mul_two_pow {n : ℕ} (k : ℕ) (h : n < 2 ^ 53) : round53 (n * 2 ^ k) = n * 2 ^ k := by
  unfold round53
  split
  · rfl
  rename_i hbig
  have hn : n ≠ 0 := by
    rintro rfl
    simp at hbig
  have hlog : (n * 2 ^ k).log2 - 52 ≤ k := by
    have hle : (n * 2 ^ k).log2 < 53 + k := by
      rw [Nat.log2_lt (Nat.mul_ne_zero hn (Nat.two_pow_pos k).ne'), pow_add]
      exact Nat.mul_lt_mul_of_pos_right h (Nat.two_pow_pos k)
    omega
  have hdvd : 2 ^ ((n * 2 ^ k).log2 - 52) ∣ n * 2 ^ k := (Nat.pow_dvd_pow 2 hlog).mul_left n
  dsimp only
  have hzero : 2 * 0 < 2 ^ ((n * 2 ^ k).log2 - 52) := Nat.two_pow_pos _
  rw [Nat.mod_eq_zero_of_dvd hdvd, if_pos (.inl hzero), Nat.div_mul_cancel hdvd]

theorem exists_cs_eq {d : Device} {b : Boot} (h : (do Boot.ofSector (← d.read 0 512)) = .ok b) :
    ∃ k, b.cs = 2 ^ k := by
  obtain ⟨bs, -, h⟩ := bind_eq_ok.1 h
  unfold Boot.ofSector at h
  obtain ⟨-, h⟩ := raiseIf_bind_eq_ok.1 h
  obtain rfl := ok.inj h
  refine ⟨(bytesImage bs 108).toNat + (bytesImage bs 109).toNat, ?_⟩
  show 1 <<< (bytesImage bs 108).toNat * 1 <<< (bytesImage bs 109).toNat = _
  rw [Nat.one_shiftLeft, Nat.one_shiftLeft, ← pow_add]

namespace Volume

variable {v v' : Volume} {entries : List Entry} {root : List ℕ}

/-- The walk reads the root directory as a whole: its length in bytes is a double. -/
theorem rootChain_eq_ok (hopen : Volume.open v.device true = .ok v) (hlayout : v.Layout)
    (hroot : v.HasRoot root) : v.rootChain = .ok root := by
  obtain ⟨-, -, hboot, -, -, rootcl, data, -, hrootcl, hdata, -⟩ := open_eq_ok_iff.1 hopen
  obtain ⟨k, hk⟩ := exists_cs_eq hboot
  have hstart := hroot.beginning hrootcl
  obtain ⟨rootcl', hrootcl', hchain⟩ := hroot.chain
  obtain rfl := ok.inj (hrootcl.symm.trans hrootcl')
  rw [dirData_eq_readClusters] at hdata
  have hlength : rootcl.length ≤ v.boot.cc + 2 := by
    unfold rootChain at hrootcl
    exact length_le_of_nodup (chain_nodup hrootcl) fun c hc ↦
      ((readClusters_eq_ok.1 hdata).1 c hc).lt
  have hfirst : v.boot.root ≠ 0 := by
    intro hzero
    have hhead := hroot.head
    unfold Exfat.chain at hchain
    rw [if_pos hzero] at hchain
    rw [← ok.inj hchain] at hhead
    cases hhead
  have hcount : v.dirCount (rootcl.length * v.boot.cs) = rootcl.length := by
    have hpos := v.boot.cs_pos
    have hne : rootcl.length * v.boot.cs ≠ 0 := by
      have hmem := hstart.subset (mem_of_head? hroot.head)
      exact Nat.mul_ne_zero (length_pos_of_mem hmem).ne' hpos.ne'
    have := hlayout.count_le
    have hround : round53 (rootcl.length * v.boot.cs) = rootcl.length * v.boot.cs := by
      rw [hk]
      exact round53_mul_two_pow k (by omega)
    rw [dirCount, if_neg hne, ceilDiv, hround, Nat.add_comm, Nat.add_mul_div_right _ _ hpos,
      Nat.div_eq_of_lt (by omega), Nat.zero_add]
  rw [hcount] at hchain
  have hlen := (chain_eq_ok hchain hfirst (hcount ▸ v.dirCount_pos _)).1
  rw [hstart.eq_of_length hlen, hrootcl]

/-! ### Consistency -/

/-- **A consistent volume** and what it lists. -/
structure Consistent (v : Volume) (entries : List Entry) : Prop where
  /-- The volume is what opening its device gives. -/
  opened : Volume.open v.device true = .ok v
  layout : v.Layout
  parsed : v.parse = .ok entries
  oneStream : ∀ e ∈ entries, v.OneStream e
  isCluster : ∀ e ∈ entries, ∀ c ∈ e.clusters, v.IsCluster c
  isSet : ∀ e ∈ entries, ∀ c ∈ e.clusters, v.isSet c = true
  apart : entries.Pairwise fun x y ↦ x.clusters.Disjoint y.clusters
  root_isSet : ∀ root, v.rootChain = .ok root → ∀ c ∈ root, v.isSet c = true
  root_apart : ∀ root, v.rootChain = .ok root → ∀ e ∈ entries, e.clusters.Disjoint root
  bitmap_isSet : ∀ c ∈ v.bitmapClusters, v.isSet c = true
  bitmap_apart : ∀ e ∈ entries, e.clusters.Disjoint v.bitmapClusters
  bitmap_root : ∀ root, v.rootChain = .ok root → root.Disjoint v.bitmapClusters

namespace Consistent

variable {e : Entry} {index source destination c : ℕ} {C : List ℕ}

section

variable (h : v.Consistent entries)
include h

theorem writable : v.writable = true := (open_eq_ok_iff.1 h.opened).2.1

theorem bitmapFits : v.BitmapFits := by
  obtain ⟨-, -, -, -, -, _, _, found, -, -, -, hchain, hread⟩ := open_eq_ok_iff.1 h.opened
  obtain ⟨data, hdata, hbitmap⟩ := bind_eq_ok.1 hread
  refine ⟨chain_nodup hchain, fun c hc ↦ ?_, ?_⟩
  · have hon := (readClusters_eq_ok.1 hdata).1 c hc
    exact ⟨hon.two_le, hon.lt⟩
  · rw [← ok.inj hbitmap, ← length_readClusters hdata]
    exact length_take_le' _ _

/-- Directories are allocated, and apart from the bitmap. -/
theorem isDirectory_isSet (hroot : v.rootChain = .ok root)
    (hC : IsDirectory root entries C) : ∀ c ∈ C, v.isSet c = true ∧ c ∉ v.bitmapClusters := by
  intro c hc
  rcases hC with rfl | ⟨x, hx, -, rfl, -⟩
  · exact ⟨h.root_isSet _ hroot c hc, fun hmem ↦ h.bitmap_root _ hroot hc hmem⟩
  · exact ⟨h.isSet x hx c hc, fun hmem ↦ h.bitmap_apart x hx hc hmem⟩

/-- The tree of a consistent volume. -/
theorem tree (hne : entries ≠ []) : ∃ root, v.HasRoot root ∧
    v.rootChain = .ok root ∧ (∀ x ∈ entries, v.Listed root entries x) ∧
    entries.Pairwise fun x y ↦ ¬SamePlace x y := by
  obtain ⟨root, hroot, hlisted, hplaces⟩ := parse_tree h.parsed hne
  exact ⟨root, hroot, rootChain_eq_ok h.opened h.layout hroot, hlisted, hplaces⟩

/-- **A cluster above a free one can be moved.** -/
theorem moveReady (he : e ∈ entries) (hsource : e.clusters[index]? = some source)
    (hdest : v.IsCluster destination) (hlt : destination < source)
    (hfree : v.isSet destination = false) :
    ∃ data s, v.MoveReady e index source destination data s := by
  obtain ⟨root, hroot, hrootChain, hlisted, -⟩ := h.tree (ne_nil_of_mem he)
  obtain ⟨path, data, s, -, hdata, haccepted, hs, hfcl, hentry⟩ := (hlisted e he).set
  have hparent := (hlisted e he).parent
  have hparentSet := h.isDirectory_isSet hrootChain hparent
  have hne : e.clusters ≠ [] := by
    rintro hnil
    rw [hnil] at hsource
    cases hsource
  obtain ⟨hchain, hhead⟩ := (fileClusters_eq_ok hfcl).2 hne
  have hfirst : s.first = e.first := by rw [hentry]; rfl
  refine ⟨data, s, ?_⟩
  exact {
    layout := h.layout
    writable := h.writable
    bitmapFits := h.bitmapFits
    source_eq := hsource
    nodup := chain_nodup hchain
    isCluster := h.isCluster e he
    isSet := h.isSet e he
    linked := fun hnofat ↦ by
      have hset : s.nofat = false := by rw [← hnofat, hentry]; rfl
      rw [hset] at hchain
      exact exists_linkedTo hchain
    dest_isCluster := hdest
    lt := hlt
    free := hfree
    dest_bitmap := fun hmem ↦ Bool.false_ne_true (hfree.symm.trans (h.bitmap_isSet _ hmem))
    dest_parent := fun hmem ↦ Bool.false_ne_true (hfree.symm.trans (hparentSet _ hmem).1)
    parent_bitmap := fun c hc hmem ↦ (hparentSet c hc).2 hmem
    parent_nodup := isDirectory_nodup hroot hlisted hparent
    dirData := hdata
    accepted := haccepted
    set_mem := hs
    set_offset := by rw [hentry]; rfl
    set_total := by rw [hentry]; rfl
    set_first := hfirst
    set_nofat := by rw [hentry]; rfl
    head := hhead.trans (congrArg some hfirst)
    oneStream := h.oneStream e he }

end

end Consistent

/-! ### What a move leaves alone -/

/-- What moving a cluster does to the entries. -/
def tailRelocation (e : Entry) (index destination : ℕ) : Relocation :=
  ⟨e, (e.clusters.set index destination).getD 0 0, false, e.clusters.set index destination⟩

/-- The directories have slots of the same types, and the same slots for the bitmap. -/
structure SameSlots (data data' : List UInt8) : Prop where
  length : data'.length = data.length
  type : ∀ o, o % 32 = 0 → bytesImage data' o = bytesImage data o
  bitmap : ∀ o i, o % 32 = 0 → bytesImage data o = 0x81 → i < 32 →
    bytesImage data' (o + i) = bytesImage data (o + i)

theorem SameSlots.refl (data : List UInt8) : SameSlots data data :=
    ⟨rfl, fun _ _ ↦ rfl, fun _ _ _ _ _ ↦ rfl⟩

theorem SameSlots.findBitmap_eq {data data' : List UInt8} (h : SameSlots data data')
    {found : ℕ × ℕ} :
    ∀ {offsets : List ℕ}, (∀ o ∈ offsets, o % 32 = 0) → findBitmap data offsets = .ok found →
      findBitmap data' offsets = .ok found
  | [], _, hfound => hfound
  | o :: rest, hmod, hfound => by
    have ho := hmod o (mem_cons_self ..)
    unfold findBitmap at hfound ⊢
    rw [h.type o ho]
    split_ifs at hfound ⊢ with hzero h81
    · obtain ⟨first, hfirst, hfound⟩ := bind_eq_ok.1 hfound
      obtain ⟨length, hlength, hfound⟩ := bind_eq_ok.1 hfound
      obtain ⟨hle, hfirst⟩ := u32_eq_ok.1 hfirst
      obtain ⟨hle', hlength⟩ := u64_eq_ok.1 hlength
      have hslot :
          ∀ k i, k + i < 32 → bytesImage data' (o + k + i) = bytesImage data (o + k + i) := by
        intro k i hki
        rw [Nat.add_assoc]
        exact h.bitmap o (k + i) ho h81 hki
      have hfirst' : u32 data' (o + 20) = .ok first := u32_eq_ok.2 ⟨by rwa [h.length],
        (rd32_congr fun i hi ↦ hslot 20 i (by omega)).trans hfirst⟩
      have hlength' : u64 data' (o + 24) = .ok length := u64_eq_ok.2 ⟨by rwa [h.length],
        (rd64_congr fun i hi ↦ hslot 24 i (by omega)).trans hlength⟩
      rw [hfirst', ok_bind, hlength', ok_bind]
      exact hfound
    · exact h.findBitmap_eq (fun o' ho' ↦ hmod o' (mem_cons_of_mem _ ho')) hfound

namespace TailMoved

variable {e : Entry} {index source destination c first : ℕ} {C : List ℕ} {count : Option ℕ}
  {nofat : Bool}
  {data : List UInt8} {s : FileSet} (h : TailMoved v v' e index source destination data)
include h

/-- The chains of other objects are as they were. -/
theorem chain_eq (hchain : Exfat.chain v.fat first count nofat = .ok C)
    (hdisjoint : C.Disjoint e.clusters) (hdest : destination ∉ C) :
    Exfat.chain v'.fat first count nofat = .ok C :=
  chain_congr hchain h.sameShape.fat fun x hx ↦
    h.fat_frame x (fun hmem ↦ hdisjoint hx hmem) fun hd ↦ hdest (hd ▸ hx)

theorem fileClusters_moved {length : ℕ} (hC : v.fileClusters first length nofat = .ok C)
    (hdisjoint : C.Disjoint e.clusters) (hdest : destination ∉ C) :
    v'.fileClusters first length nofat = .ok C := by
  have hcount : v'.fileCount length = v.fileCount length := by
    rw [fileCount, fileCount, h.sameShape.boot]
  unfold fileClusters at hC ⊢
  rw [hcount]
  generalize v.fileCount length = count at hC ⊢
  split_ifs at hC ⊢
  · exact hC
  · exact h.chain_eq hC hdisjoint hdest

theorem isSet_moved (hc : 2 ≤ c) (hset : v.isSet c = true) (hne : c ≠ source) :
    v'.isSet c = true := by
  rw [h.isSet_eq c hc, if_neg hne]
  split_ifs
  · rfl
  · exact hset

/-- The bitmap is read back. -/
theorem bitmap_moved {length : ℕ}
    (hread : readStream v.device v.boot v.bitmapClusters length = .ok v.bitmap) :
    readStream v'.device v'.boot v'.bitmapClusters length = .ok v'.bitmap := by
  obtain ⟨bytes, hbytes, htake⟩ := bind_eq_ok.1 hread
  have hlength := length_readClusters hbytes
  have hbitmap : v'.bitmap.length = min length bytes.length := by
    rw [h.sameShape.bitmap, ← ok.inj htake, length_take]
  rw [readStream, h.sameShape.boot, h.sameShape.bitmapClusters, h.bitmap, ok_bind, padded]
  refine congrArg Except.ok ?_
  have hpad : min (length - v'.bitmap.length)
      (v.bitmapClusters.length * v.boot.cs - v'.bitmap.length) = 0 := by
    omega
  rw [take_append, take_of_length_le (by omega), take_replicate, hpad]
  exact append_nil _

variable (hready : v.MoveReady e index source destination data s)
include hready

/-- The contents of other clusters are as they were. -/
theorem apply_eq {a : ℕ} (hc : 2 ≤ c) (ha : v.boot.InCluster c a) (hbitmap : c ∉ v.bitmapClusters)
    (hparent : c ∉ e.parentClusters) (hdest : c ≠ destination) :
    v'.device.image a = v.device.image a := by
  have hon := (readClusters_eq_ok.1 (dirData_eq_readClusters v _ ▸ hready.dirData)).1
  refine h.frame a (.inr (hready.layout.lt_of_inCluster ha)) (fun c' hc' ha' ↦ hbitmap ?_)
    (fun c' hc' ha' ↦ hparent ?_) fun ha' ↦ hdest ?_
  · rwa [Boot.eq_of_inCluster hc (hready.bitmapFits.isCluster c' hc').1 ha ha']
  · rwa [Boot.eq_of_inCluster hc (hon c' hc').two_le ha ha']
  · exact Boot.eq_of_inCluster hc hready.dest_isCluster.1 ha ha'

theorem readClusters_eq (hbitmap : C.Disjoint v.bitmapClusters)
    (hparent : C.Disjoint e.parentClusters) (hdest : destination ∉ C) :
    readClusters v'.device v.boot C = readClusters v.device v.boot C :=
  readClusters_congr h.sameShape.size fun _ hc htwo _ ha ↦
    h.apply_eq hready htwo ha (fun hmem ↦ hbitmap hc hmem)
      (fun hmem ↦ hparent hc hmem) fun hd ↦ hdest (hd ▸ hc)

/-- **The object holds what it held.** -/
theorem readClusters_new (hbitmap : e.clusters.Disjoint v.bitmapClusters)
    (hparent : e.clusters.Disjoint e.parentClusters) :
    readClusters v'.device v.boot (e.clusters.set index destination) =
      readClusters v.device v.boot e.clusters := by
  have hold : readClusters v.device v.boot e.clusters = .ok _ :=
    readClusters_eq_ok.2 ⟨fun c hc ↦ hready.layout.onDevice (hready.isCluster c hc), rfl⟩
  rw [hold]
  refine readClusters_eq_ok.2 ⟨fun c hc ↦ ?_, ?_⟩
  · rw [h.sameShape.size]
    exact hready.layout.onDevice (hready.new_isCluster c hc)
  · -- cluster by cluster
    rw [flatMap_def, flatMap_def]
    refine congrArg List.flatten (ext_getElem (by simp) fun k hk hk' ↦ ?_)
    rw [length_map, length_set] at hk
    rw [getElem_map, getElem_map, getElem_set]
    split_ifs with hki
    · subst hki
      rw [h.copy, (List.getElem?_eq_some_iff.1 hready.source_eq).2]
    · have hmem := getElem_mem hk
      refine Image.read_congr fun i hi ↦ h.apply_eq hready (hready.isCluster _ hmem).1
        ⟨by omega, by omega⟩
        (fun hm ↦ hbitmap hmem hm)
          (fun hm ↦ hparent hmem hm) fun hd ↦ hready.dest_notMem (hd ▸ hmem)

/-- The directory of the entry lists the same sets, with the entry at its new place. -/
theorem parent_sets :
    ∃ data', v'.dirData e.parentClusters = .ok data' ∧ SameSlots data data' ∧ DirAccepted data' ∧
      dirSets data' =
        (dirSets data).map ((tailRelocation e index destination).set e.parentClusters) := by
  obtain ⟨data', hdata', hlength, hmoved⟩ := h.parent
  refine ⟨data', by rw [dirData_eq_readClusters, h.sameShape.boot, hdata'], ?_⟩
  unfold ParentMoved at hmoved
  obtain ⟨hoff, hset⟩ := mem_setsAt.1 hready.set_mem
  obtain ⟨hmod, h85⟩ := (dirOffsets_pairwise data).1 _ hoff
  split_ifs at hmoved with hcase
  · obtain ⟨stream, hone, hpatched⟩ := hmoved
    rw [← hready.set_offset, ← hready.set_total] at hone hpatched
    obtain ⟨haccepted, hsets⟩ :=
      dirSets_patched hready.accepted hready.set_mem hone hlength hpatched
    obtain ⟨j, -, -, hstream, hC0⟩ := mem_secondaries.1 (hone ▸ mem_singleton_self stream)
    refine ⟨⟨hlength, fun o ho ↦ hpatched.frame o ?_, fun o i ho h81 hi ↦ hpatched.frame _ ?_⟩,
      haccepted,
      hsets.trans (map_congr_left fun t _ ↦ ?_)⟩
    · unfold IsPatched
      omega
    · -- the slot is neither the primary one nor the stream extension
      have hne : o ≠ s.offset := by
        rintro rfl
        exact absurd (h81.symm.trans h85) (by decide)
      have hne' : o ≠ stream := by
        rintro rfl
        exact absurd (h81.symm.trans hC0) (by decide)
      unfold IsPatched
      omega
    · simp only [Relocation.set, tailRelocation, hready.set_offset, true_and]
  · subst hmoved
    rw [not_or, Bool.not_eq_true] at hcase
    have hhead : (e.clusters.set index destination).getD 0 0 = e.first := by
      rw [getD_eq_getElem?_getD, getElem?_set_ne hcase.2, ← head?_eq_getElem?, hready.head]
      rfl
    refine ⟨.refl data', hready.accepted, ?_⟩
    conv_lhs => rw [← map_id (dirSets data')]
    refine map_congr_left fun t ht ↦ ?_
    unfold Relocation.set tailRelocation
    split_ifs with hplace
    · -- the set of the entry itself, which has not changed
      have hts : t = s := by
        obtain ⟨-, hset'⟩ := mem_setsAt.1 ht
        rw [hplace.2, ← hready.set_offset] at hset'
        exact Option.some.inj (hset'.symm.trans hset)
      rw [hts, hhead, ← hready.set_first, ← hcase.1, ← hready.set_nofat]
      rfl
    · rfl

/-- The clusters of the moved object. -/
theorem fileClusters_new {length : ℕ} (hC : v.fileClusters first length nofat = .ok e.clusters) :
    v'.fileClusters ((e.clusters.set index destination).getD 0 0) length false =
      .ok (e.clusters.set index destination) := by
  have hne : e.clusters ≠ [] := ne_nil_of_head hready.head
  have hindex := hready.index_lt
  obtain ⟨hiff, hchain⟩ := fileClusters_eq_ok hC
  obtain ⟨hfirst, hlength⟩ := hiff.1 hne
  have hcount : e.clusters.length = v.dirCount length :=
    (chain_eq_ok (hchain hne).1 hfirst (v.dirCount_pos length)).1
  have hpos := v.dirCount_pos length
  rw [dirCount, if_neg hlength] at hcount hpos
  obtain ⟨last, hlinked, -⟩ := h.linked
  have hlayout := h.sameShape.layout hready.layout
  unfold fileClusters fileCount
  rw [h.sameShape.boot, if_neg hlength, if_neg hpos.ne', ← hcount]
  have hnew := chain_of_linkedTo hlinked
    (hlayout.inFat fun c hc ↦ h.sameShape.isCluster.2 (hready.new_isCluster c hc)) hready.new_nodup
    (show (e.clusters.set index destination).head? =
      some ((e.clusters.set index destination).getD 0 0) by
      rw [head?_eq_getElem?, getD_eq_getElem?_getD,
        getElem?_eq_getElem (by rw [length_set]; omega), Option.getD_some])
  rwa [length_set] at hnew

theorem boot_moved : v'.device.read 0 512 = v.device.read 0 512 := by
  have hsector := hready.layout.sector_le
  have hout : ∀ a < 512, ∀ c, ¬v.boot.InCluster c a := by
    intro a ha c hin
    have := hready.layout.lt_of_inCluster hin
    omega
  have himage : v'.device.image.read 0 512 = v.device.image.read 0 512 := by
    refine Image.read_congr fun i hi ↦ h.frame _ (.inl (by omega)) ?_ ?_ (hout _ (by omega) _)
    · exact fun c _ ↦ hout _ (by omega) c
    · exact fun c _ ↦ hout _ (by omega) c
  unfold Device.read
  rw [h.sameShape.size, himage]

end TailMoved

/-! ### The volume after a move -/

namespace Consistent

variable {e x : Entry} {index source destination c : ℕ} {C : List ℕ} {data : List UInt8}
  {s : FileSet}

section

variable (hplaces : ∀ x ∈ entries, SamePlace x e → x = e)
include hplaces

/-- An object after the move, but for the directory it is in. -/
theorem place_eq (hx : x ∈ entries) :
    (tailRelocation e index destination).place x = if x = e then { e with
      first := (e.clusters.set index destination).getD 0 0, nofat := false,
      clusters := e.clusters.set index destination } else x := by
  unfold Relocation.place
  by_cases hxe : x = e
  · subst hxe
    rw [if_pos ⟨rfl, rfl⟩, if_pos rfl]
    rfl
  · rw [if_neg fun hplace : SamePlace x (tailRelocation e index destination).entry ↦
      hxe (hplaces x hx hplace), if_neg hxe]

/-- The clusters of an object after the move. -/
theorem apply_clusters (hx : x ∈ entries) :
    ((tailRelocation e index destination).apply x).clusters =
      if x = e then e.clusters.set index destination else x.clusters := by
  show ((tailRelocation e index destination).place x).clusters = _
  rw [place_eq hplaces hx]
  split_ifs <;> rfl

theorem apply_nofat (hx : x ∈ entries) :
    ((tailRelocation e index destination).apply x).nofat = if x = e then false else x.nofat := by
  show ((tailRelocation e index destination).place x).nofat = _
  rw [place_eq hplaces hx]
  split_ifs <;> rfl

end

variable (h : v.Consistent entries)
include h

theorem disjoint {y : Entry} (hx : x ∈ entries) (hy : y ∈ entries) (hne : x ≠ y) :
    x.clusters.Disjoint y.clusters :=
  (or_of_pairwise h.apart hx hy hne).elim id fun hyx _ hc hc' ↦ hyx hc' hc

/-- An object has no cluster in common with a directory, except with itself. -/
theorem disjoint_directory (hroot : v.rootChain = .ok root) (hx : x ∈ entries)
    (hC : IsDirectory root entries C) (hne : x.isDir = true → C ≠ x.clusters) :
    x.clusters.Disjoint C := by
  rcases hC with rfl | ⟨y, hy, hydir, rfl, -⟩
  · exact h.root_apart _ hroot x hx
  · refine h.disjoint hx hy ?_
    rintro rfl
    exact hne hydir rfl

theorem dirsApart (hroot : v.HasRoot root) (hrootChain : v.rootChain = .ok root)
    (hparent : IsDirectory root entries e.parentClusters) : v.DirsApart entries e where
  ne_root x hx _ hhead := h.root_apart root hrootChain x hx (mem_of_head? hhead)
    (mem_of_head? hroot.head)
  heads := h.apart.imp fun hxy _ _ hne hhead ↦ by
    obtain ⟨c, hc⟩ := Option.ne_none_iff_exists'.1 (head?_eq_none_iff.not.2 hne)
    exact hxy (mem_of_head? hc) (mem_of_head? (hhead ▸ hc))
  root rootcl hrootcl hhead := by
    obtain rfl := ok.inj (hrootChain.symm.trans hrootcl)
    rcases hparent with hself | ⟨y, hy, -, hclusters, -⟩
    · exact absurd (hself ▸ hroot.head) hhead
    · exact hclusters ▸ (h.root_apart root hrootChain y hy).symm
  parent x hx _ hne := h.disjoint_directory hrootChain hx hparent fun _ ↦ hne.symm

variable (he : e ∈ entries)
include he

/-- An object is apart from the directory that lists it. -/
theorem disjoint_parent (hroot : v.HasRoot root) (hrootChain : v.rootChain = .ok root)
    (hlisted : v.Listed root entries e) : e.clusters.Disjoint e.parentClusters :=
  h.disjoint_directory hrootChain he hlisted.parent fun hdir ↦
    (h.dirsApart hroot hrootChain hlisted.parent).parent_ne hroot he hlisted hdir

variable (hready : v.MoveReady e index source destination data s)
include hready

/-- A cluster of an object after the move is the destination or was one of the object, and not the
source. -/
theorem mem_apply_clusters (hplaces : ∀ x ∈ entries, SamePlace x e → x = e) (hx : x ∈ entries)
    (hc : c ∈ ((tailRelocation e index destination).apply x).clusters) :
    (c ∈ x.clusters ∧ c ≠ source) ∨ (x = e ∧ c = destination) := by
  rw [apply_clusters hplaces hx] at hc
  split_ifs at hc with hxe
  · subst hxe
    refine (mem_or_eq_of_mem_set hc).imp (fun hold ↦ ⟨hold, ?_⟩) fun hdest ↦ ⟨rfl, hdest⟩
    rintro rfl
    exact hready.source_notMem_new hc
  · refine .inl ⟨hc, ?_⟩
    rintro rfl
    exact h.disjoint hx he hxe hc hready.source_mem

variable (hmoved : TailMoved v v' e index source destination data)
include hmoved

theorem root_moved (hrootChain : v.rootChain = .ok root) {count : Option ℕ}
    (hchain : Exfat.chain v.fat v.boot.root count false = .ok root) :
    Exfat.chain v'.fat v'.boot.root count false = .ok root := by
  rw [hmoved.sameShape.boot]
  exact hmoved.chain_eq hchain (fun c hc hc' ↦ h.root_apart _ hrootChain e he hc' hc)
    (hready.dest_notMem_of_isSet (h.root_isSet _ hrootChain))

/-- **A directory after the move** holds the same sets, with the object at its new place. -/
theorem directory_moved (hroot : v.HasRoot root) (hrootChain : v.rootChain = .ok root)
    (hlisted : v.Listed root entries e) (hC : IsDirectory root entries C) {dataC : List UInt8}
    (hdataC : v.dirData C = .ok dataC) :
    ∃ data', v'.dirData ((tailRelocation e index destination).directory C) = .ok data' ∧
      SameSlots dataC data' ∧ (DirAccepted dataC → DirAccepted data') ∧
      dirSets data' = (dirSets dataC).map ((tailRelocation e index destination).set C) := by
  have hapart := h.dirsApart hroot hrootChain hlisted.parent
  by_cases hCp : C = e.parentClusters
  · -- the directory that lists the object
    subst hCp
    obtain rfl := ok.inj (hready.dirData.symm.trans hdataC)
    have hstay :
        (tailRelocation e index destination).directory e.parentClusters = e.parentClusters :=
      if_neg fun hself ↦ hapart.parent_ne hroot he hlisted hself.1 hself.2
    obtain ⟨data', hdata', hslots, haccepted, hsets⟩ := hmoved.parent_sets hready
    exact ⟨data', by rw [hstay, hdata'], hslots, fun _ ↦ haccepted, hsets⟩
  · have hsets : (tailRelocation e index destination).set C = id :=
      funext fun t ↦ if_neg fun hplace ↦ hCp hplace.1
    refine ⟨dataC, ?_, .refl dataC, id, by rw [hsets, List.map_id]⟩
    have hCset := h.isDirectory_isSet hrootChain hC
    rw [dirData_eq_readClusters] at hdataC
    rw [dirData_eq_readClusters, hmoved.sameShape.boot]
    by_cases hdir : e.isDir = true ∧ C = e.clusters
    · -- the moved directory
      have hnew :
          (tailRelocation e index destination).directory C = e.clusters.set index destination :=
        if_pos hdir
      rw [hnew, ← hdataC, hdir.2]
      exact hmoved.readClusters_new hready (h.bitmap_apart e he)
        (h.disjoint_parent he hroot hrootChain hlisted)
    · have hstay : (tailRelocation e index destination).directory C = C := if_neg hdir
      rw [hstay, ← hdataC]
      exact hmoved.readClusters_eq hready (fun c hc hmem ↦ (hCset c hc).2 hmem)
        (hapart.isDirectory_disjoint hroot hC hlisted.parent hCp)
        (hready.dest_notMem_of_isSet fun c hc ↦ (hCset c hc).1)

/-- The move, as far as a walk can see it. -/
theorem carried (hroot : v.HasRoot root) (hrootChain : v.rootChain = .ok root)
    (hlisted : ∀ x ∈ entries, v.Listed root entries x)
    (hplaces : entries.Pairwise fun x y ↦ ¬SamePlace x y) :
    Carried v v' root entries (tailRelocation e index destination) where
  boot := hmoved.sameShape.boot
  hasRoot := by
    obtain ⟨rootcl, hrootcl, hchain⟩ := hroot.chain
    refine ⟨⟨rootcl, ?_, ?_⟩, by rw [hmoved.sameShape.boot]; exact hroot.head⟩
    · obtain rfl := ok.inj (hrootChain.symm.trans hrootcl)
      exact h.root_moved he hready hmoved hrootChain hrootChain
    · have hcount : v'.dirCount = v.dirCount := by
        funext length
        rw [dirCount, dirCount, hmoved.sameShape.boot]
      have hcs : v'.boot.cs = v.boot.cs := by rw [hmoved.sameShape.boot]
      rw [hcount, hcs]
      exact h.root_moved he hready hmoved hrootChain hchain
  mem := he
  places _ hx := eq_of_samePlace hplaces hx he
  heads := (h.dirsApart hroot hrootChain (hlisted e he).parent).headsDiffer hroot
  other x hx hne := by
    obtain ⟨_, _, t, -, -, -, -, hfcl, hxt⟩ := (hlisted x hx).set
    have hxe : x ≠ e := by
      rintro rfl
      exact hne ⟨rfl, rfl⟩
    have hapart := h.disjoint hx he hxe
    rw [hxt]
    exact hmoved.fileClusters_moved hfcl hapart (hready.dest_notMem_of_isSet (h.isSet x hx))
  moved := by
    obtain ⟨_, _, t, -, -, -, -, hfcl, het⟩ := (hlisted e he).set
    have hlength : t.length = e.length := by rw [het]; rfl
    rw [hlength] at hfcl
    exact hmoved.fileClusters_new hready hfcl
  empty _ := set_eq_nil_iff ..
  sets C hC dataC hdataC haccepted := by
    obtain ⟨data', hdata', -, haccepted', hsets⟩ :=
      h.directory_moved he hready hmoved hroot hrootChain (hlisted e he) hC hdataC
    exact ⟨data', hdata', haccepted' haccepted, hsets⟩
  fresh hdir hne C hC hCe hhead := by
    have hmem := mem_of_head? hhead
    have hindex := hready.index_lt
    have hnew : (e.clusters.set index destination).getD 0 0 ∈ e.clusters.set index destination := by
      rw [getD_eq_getElem _ _ (by rw [length_set]; omega)]
      exact getElem_mem _
    rcases mem_or_eq_of_mem_set hnew with hold | hdest
    · exact h.disjoint_directory hrootChain he hC (fun _ ↦ hCe) hold hmem
    · exact hready.dest_notMem_of_isSet (fun c hc ↦ (h.isDirectory_isSet hrootChain hC c hc).1)
        (hdest ▸ hmem)

/-! ### The device is opened again -/

/-- **Opening the device again** gives the volume in memory. -/
theorem open_moved : Volume.open v'.device true = .ok v' := by
  obtain ⟨root, hroot, hrootChain, hlisted, -⟩ := h.tree (ne_nil_of_mem he)
  obtain ⟨-, hwritable, hboot, hcheck, hfat, rootcl, rootData, found, hrootcl, hrootData, hfound,
      hbits, hread⟩ :=
    open_eq_ok_iff.1 h.opened
  obtain rfl := ok.inj (hrootChain.symm.trans hrootcl)
  obtain ⟨data', hdata', hslots, -⟩ :=
    h.directory_moved he hready hmoved hroot hrootChain (hlisted e he) (.inl rfl) hrootData
  have hstay : (tailRelocation e index destination).directory root = root := by
    refine if_neg fun hself ↦ ?_
    have hapart := h.dirsApart hroot hrootChain (hlisted e he).parent
    exact (hapart.headsDiffer hroot).ne_root e he hself.1 (congrArg _ hself.2.symm)
  rw [hstay] at hdata'
  refine open_eq_ok_iff.2 ⟨rfl, hmoved.sameShape.writable.trans hwritable, ?_, ?_, ?_, root,
    data', found,
    h.root_moved he hready hmoved hrootChain hrootChain, hdata', ?_, ?_, ?_⟩
  · rw [hmoved.boot_moved hready, hmoved.sameShape.boot, hboot]
  · rw [hmoved.sameShape.boot, hcheck]
  · obtain ⟨hle, hbytes⟩ := Device.read_eq_ok.1 hfat
    have hlength : v.fat.length = v.boot.fatLen * v.boot.bps := by rw [← hbytes, Image.read_length]
    rw [hmoved.sameShape.boot]
    refine Device.read_eq_ok.2 ⟨by rwa [hmoved.sameShape.size], ?_⟩
    rw [← hlength, ← hmoved.sameShape.fat]
    exact hmoved.fat
  · have hsame : slots data' = slots rootData := by rw [slots, slots, hslots.length]
    rw [hsame]
    refine hslots.findBitmap_eq (fun o ho ↦ ?_) hfound
    obtain ⟨k, -, rfl⟩ := mem_map.1 ho
    omega
  · rw [hmoved.sameShape.boot, hmoved.sameShape.bitmapClusters]
    exact hmoved.chain_eq hbits (fun c hc hmem ↦ h.bitmap_apart e he hmem hc) hready.dest_bitmap
  · exact hmoved.bitmap_moved hread

/-- **The move keeps a volume consistent.** -/
theorem moved : v'.Consistent (entries.map (tailRelocation e index destination).apply) := by
  obtain ⟨root, hroot, hrootChain, hlisted, hdiff⟩ := h.tree (ne_nil_of_mem he)
  have hcarried := h.carried he hready hmoved hroot hrootChain hlisted hdiff
  have hplaces : ∀ x ∈ entries, SamePlace x e → x = e := hcarried.places
  have hrootChain' : v'.rootChain = .ok root := h.root_moved he hready hmoved hrootChain hrootChain
  have hroot_eq : ∀ {rootcl}, v'.rootChain = .ok rootcl → rootcl = root := fun hrootcl ↦
    ok.inj (hrootcl.symm.trans hrootChain')
  obtain ⟨rootData, hrootData⟩ : ∃ rootData, readClusters v.device v.boot root = .ok rootData := by
    obtain ⟨-, -, -, -, -, rootcl, rootData, -, hrootcl, hrootData, -⟩ := open_eq_ok_iff.1 h.opened
    obtain rfl := ok.inj (hrootChain.symm.trans hrootcl)
    exact ⟨rootData, by rw [← dirData_eq_readClusters, hrootData]⟩
  have hmem := fun x hx c ↦ h.mem_apply_clusters he hready hplaces (x := x) hx (c := c)
  exact {
    opened := h.open_moved he hready hmoved
    layout := hmoved.sameShape.layout h.layout
    parsed := hcarried.parse_carried hroot h.parsed (hrootChain'.trans hrootChain.symm)
    oneStream := by
      intro y hy data' hdata'
      obtain ⟨x, hx, rfl⟩ := mem_map.1 hy
      obtain ⟨_, dataC, t, -, hdataC, -, ht, -, hxt⟩ := (hlisted x hx).set
      obtain ⟨data'', hdata'', hslots, -⟩ :=
        h.directory_moved he hready hmoved hroot hrootChain (hlisted e he)
          (hlisted x hx).parent hdataC
      obtain rfl := ok.inj (hdata'.symm.trans hdata'')
      have hoff : x.entryOff % 32 = 0 := by
        rw [hxt]
        exact ((dirOffsets_pairwise dataC).1 _ (mem_setsAt.1 ht).1).1
      rw [Relocation.apply_entryOff, Relocation.apply_entryCount,
        secondaries_congr fun j _ _ ↦ hslots.type _ (by omega)]
      exact h.oneStream x hx dataC hdataC
    isCluster := by
      intro y hy c hc
      obtain ⟨x, hx, rfl⟩ := mem_map.1 hy
      rw [hmoved.sameShape.isCluster]
      rcases hmem x hx c hc with ⟨hold, -⟩ | ⟨-, rfl⟩
      · exact h.isCluster x hx c hold
      · exact hready.dest_isCluster
    isSet := by
      intro y hy c hc
      obtain ⟨x, hx, rfl⟩ := mem_map.1 hy
      rcases hmem x hx c hc with ⟨hold, hne⟩ | ⟨-, rfl⟩
      · exact hmoved.isSet_moved (h.isCluster x hx c hold).1 (h.isSet x hx c hold) hne
      · rw [hmoved.isSet_eq c hready.dest_isCluster.1, if_neg hready.lt.ne, if_pos rfl]
    apart := by
      refine pairwise_map.2 (h.apart.imp_of_mem fun {x y} hx hy hxy c hc hc' ↦ ?_)
      rcases hmem x hx c hc with ⟨hold, -⟩ | ⟨rfl, rfl⟩
      · rcases hmem y hy c hc' with ⟨hold', -⟩ | ⟨-, rfl⟩
        · exact hxy hold hold'
        · exact hready.dest_notMem_of_isSet (h.isSet x hx) hold
      · rcases hmem y hy c hc' with ⟨hold', -⟩ | ⟨rfl, -⟩
        · exact hready.dest_notMem_of_isSet (h.isSet y hy) hold'
        · exact hxy hready.source_mem hready.source_mem
    root_isSet := by
      intro rootcl hrootcl c hc
      rw [hroot_eq hrootcl] at hc
      refine hmoved.isSet_moved ?_ (h.root_isSet root hrootChain c hc) ?_
      · exact ((readClusters_eq_ok.1 hrootData).1 c hc).two_le
      · rintro rfl
        exact h.root_apart root hrootChain e he hready.source_mem hc
    root_apart := by
      intro rootcl hrootcl y hy c hc hcroot
      obtain ⟨x, hx, rfl⟩ := mem_map.1 hy
      rw [hroot_eq hrootcl] at hcroot
      rcases hmem x hx c hc with ⟨hold, -⟩ | ⟨-, rfl⟩
      · exact h.root_apart root hrootChain x hx hold hcroot
      · exact hready.dest_notMem_of_isSet (h.root_isSet root hrootChain) hcroot
    bitmap_isSet := by
      intro c hc
      rw [hmoved.sameShape.bitmapClusters] at hc
      refine hmoved.isSet_moved (h.bitmapFits.isCluster c hc).1 (h.bitmap_isSet c hc) ?_
      rintro rfl
      exact h.bitmap_apart e he hready.source_mem hc
    bitmap_apart := by
      intro y hy c hc hbit
      obtain ⟨x, hx, rfl⟩ := mem_map.1 hy
      rw [hmoved.sameShape.bitmapClusters] at hbit
      rcases hmem x hx c hc with ⟨hold, -⟩ | ⟨-, rfl⟩
      · exact h.bitmap_apart x hx hold hbit
      · exact hready.dest_bitmap hbit
    bitmap_root := by
      intro rootcl hrootcl
      rw [hroot_eq hrootcl, hmoved.sameShape.bitmapClusters]
      exact h.bitmap_root root hrootChain }

end Consistent

end Volume

end LinuxDefragger.Exfat
