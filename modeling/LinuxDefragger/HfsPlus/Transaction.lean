import LinuxDefragger.HfsPlus.Consistent

/-!
# The transaction of a move

A move on a consistent volume is a transaction of patches (`Storage.PatchMove`):
`Prepared.exists_target` checks what such a transaction needs, and `runMove_eq_ok` says that the
engine executes it. Only first halves of descriptors, the bitmap and the free counts change besides
the destination, so that the volume can be read again at any time (`confined_of_touched`).
-/

open List Storage

namespace LinuxDefragger.HfsPlus

/-! ### What was prepared -/

/-- What is known of a prepared move, with the two bitmaps it leads through. -/
structure Prepared (disk : Disk Transaction) (vol : Vol) (obj : ForkObject) (start : ℕ)
    (txn : Transaction) (stage final : List UInt8) : Prop where
  free : ∀ b ∈ txn.dst, b < vol.totalBlocks ∧ Vol.bitOf vol.bitmap b = false
  states : makeBitmapStates vol txn.src txn.dst = .ok (stage, final)
  bitmapStage : bitmapPatches vol vol.bitmap stage = .ok txn.bitmapStage
  bitmapFinal : bitmapPatches vol vol.bitmap final = .ok txn.bitmapFinal
  metadata : descriptorPatches disk obj start = .ok txn.metadata
  headersStage : headerPatches disk (vol.freeBlocks - obj.totalBlocks) = .ok txn.headersStage
  headersFinal : headerPatches disk vol.freeBlocks = .ok txn.headersFinal
  src : txn.src = obj.sourceBlocks
  dst : txn.dst = List.range' start obj.totalBlocks
  signature : txn.signature = vol.signature
  createDate : txn.createDate = vol.createDate
  blockSize : txn.blockSize = vol.blockSize
  totalBlocks : txn.totalBlocks = vol.totalBlocks
  prepared : txn.stage = .prepared

variable {blocks : List ℕ}

theorem anyM_eq_false {vol : Vol} (h : blocks.anyM vol.bit = .ok false) :
    ∀ b ∈ blocks, b < vol.totalBlocks ∧ Vol.bitOf vol.bitmap b = false := by
  induction blocks with
  | nil => simp
  | cons b blocks ih =>
    rw [List.anyM, bind_eq_ok] at h
    obtain ⟨used, hbit, h⟩ := h
    rw [Vol.bit, raiseIf_bind_eq_ok] at hbit
    obtain ⟨hlt, hbit⟩ := hbit
    cases used with
    | true => cases h
    | false => exact forall_mem_cons.2 ⟨⟨Nat.lt_of_not_le hlt, Except.ok.inj hbit⟩, ih h⟩

theorem prepareMove_eq_ok {disk : Disk Transaction} {vol : Vol} {obj : ForkObject} {start : ℕ}
    {txn : Transaction} (h : prepareMove disk vol obj start = .ok txn) :
    ∃ stage final, Prepared disk vol obj start txn stage final := by
  simp only [prepareMove] at h
  obtain ⟨used, hused, h⟩ := bind_eq_ok.1 h
  rw [raiseIf_bind_eq_ok] at h
  obtain ⟨hfree, h⟩ := h
  rw [Bool.not_eq_true] at hfree
  rw [hfree] at hused
  obtain ⟨⟨stage, final⟩, hstates, h⟩ := bind_eq_ok.1 h
  obtain ⟨bitmapStage, hbs, h⟩ := bind_eq_ok.1 h
  obtain ⟨bitmapFinal, hbf, h⟩ := bind_eq_ok.1 h
  obtain ⟨metadata, hmeta, h⟩ := bind_eq_ok.1 h
  obtain ⟨headersStage, hhs, h⟩ := bind_eq_ok.1 h
  obtain ⟨headersFinal, hhf, h⟩ := bind_eq_ok.1 h
  obtain rfl := Except.ok.inj h
  exact ⟨stage, final, anyM_eq_false hused, hstates, hbs, hbf, hmeta, hhs, hhf, rfl, rfl, rfl, rfl,
    rfl, rfl, rfl⟩

/-! ### The copy -/

variable {bs : ℕ} {data : List UInt8}

/-- The writes of a copy store the data in the blocks. -/
theorem applyAll_blockWrites (hbs : 0 < bs) (hnd : blocks.Nodup)
    (hlen : data.length = blocks.length * bs) (m : Image) :
    (∀ a, a / bs ∉ blocks → applyAll m (blockWrites bs blocks data) a = m a) ∧
      (blockAddrs bs blocks).map (applyAll m (blockWrites bs blocks data)) = data := by
  induction blocks generalizing data m with
  | nil =>
    rw [length_nil, Nat.zero_mul] at hlen
    exact ⟨fun a _ ↦ rfl, (length_eq_zero_iff.1 hlen).symm⟩
  | cons b blocks ih =>
    obtain ⟨hb, hnd'⟩ := nodup_cons.1 hnd
    rw [length_cons, Nat.succ_mul] at hlen
    have htake : (data.take bs).length = bs := by
      rw [length_take]
      omega
    have hdrop : (data.drop bs).length = blocks.length * bs := by
      rw [length_drop]
      omega
    obtain ⟨hout, hin⟩ := ih hnd' hdrop (m.write (b * bs) (data.take bs))
    have hcons : blockAddrs bs (b :: blocks) = range' (b * bs) bs ++ blockAddrs bs blocks := rfl
    have hmem (a : ℕ) : a ∈ range' (b * bs) bs ↔ a / bs = b := by
      have h : a ∈ blockAddrs bs [b] ↔ a / bs ∈ [b] := mem_blockAddrs hbs
      simpa [blockAddrs] using h
    rw [blockWrites, applyAll_cons, Write.apply]
    constructor
    · intro a ha
      rw [mem_cons, not_or] at ha
      refine (hout a ha.2).trans (Image.write_apply_of_not_mem ?_)
      have hnot := mt (hmem a).1 ha.1
      rw [mem_range'_1] at hnot
      omega
    · rw [hcons, map_append]
      refine Eq.trans (congrArg₂ _ ?_ hin) (take_append_drop bs data)
      have hfirst : (range' (b * bs) bs).map
          (applyAll (m.write (b * bs) (data.take bs)) (blockWrites bs blocks (data.drop bs))) =
          (range' (b * bs) bs).map (m.write (b * bs) (data.take bs)) :=
        map_congr_left fun a ha ↦ hout a (by rwa [(hmem a).1 ha])
      have hself : (m.write (b * bs) (data.take bs)).read (b * bs) (data.take bs).length =
          data.take bs := Image.read_write_self
      rw [htake] at hself
      rw [hfirst, ← Image.read_eq_map_range', hself]

theorem covers_blockWrites (hbs : 0 < bs) {w : Write} (hw : w ∈ blockWrites bs blocks data) {a : ℕ}
    (hc : w.Covers a) : a / bs ∈ blocks := by
  induction blocks generalizing data with
  | nil => simp [blockWrites] at hw
  | cons b blocks ih =>
    rw [blockWrites] at hw
    rcases mem_cons.1 hw with rfl | hw
    · obtain ⟨h₁, h₂⟩ := hc
      simp only [length_take] at h₁ h₂
      have hdiv : a / bs = b := by
        rw [Nat.div_eq_iff hbs]
        omega
      rw [hdiv]
      exact mem_cons_self
    · exact mem_cons_of_mem _ (ih hw)

theorem readBlocks_eq_ok {disk : Disk Transaction} (h : ∀ b ∈ blocks, (b + 1) * bs ≤ disk.size) :
    readBlocks disk bs blocks = .ok ((blockAddrs bs blocks).map disk.image) := by
  have hmap : blocks.mapM (fun b ↦ volumeRead disk (b * bs) bs) =
      .ok (blocks.map fun b ↦ disk.image.read (b * bs) bs) := by
    rw [mapM_eq_ok, forall₂_map_right_iff]
    refine forall₂_same.2 fun b hb ↦ volumeRead_eq_ok.2 ⟨?_, rfl⟩
    have hle := h b hb
    rw [Nat.succ_mul] at hle
    omega
  have hflat : (blocks.map fun b ↦ disk.image.read (b * bs) bs).flatten =
      (blockAddrs bs blocks).map disk.image := by
    rw [blockAddrs, map_flatMap, ← flatMap_def]
    exact flatMap_congr fun b _ ↦ disk.image.read_eq_map_range' (b * bs) bs
  rw [readBlocks, hmap, ok_bind, hflat]
  rfl

/-! ### The transaction of patches -/

/-- The patches of a move. -/
def Transaction.patchMove (txn : Transaction) (payload : List Write) : PatchMove where
  payload := payload
  stage := txn.bitmapStage ++ txn.headersStage
  switch := txn.metadata
  finish := txn.bitmapFinal ++ txn.headersFinal

/-- **A move is a transaction of patches.** -/
theorem runMove_eq_ok {disk : Disk Transaction} {txn : Transaction}
    (hread : readBlocks (disk.setJournal (some txn)) txn.blockSize txn.src = .ok data)
    (hlen : data.length = txn.dst.length * txn.blockSize) (hstage : txn.stage = .prepared) :
    let t := txn.patchMove (blockWrites txn.blockSize txn.dst data)
    ∃ done, runMove disk txn = .ok done ∧ done.size = disk.size ∧ done.journal = none ∧
      done.image = t.final disk.image ∧
      done.log = disk.log ++ t.actions fun s ↦ { txn with stage := s } := by
  intro t
  have htxn : ({ txn with stage := .prepared } : Transaction) = txn := by
    rw [← hstage]
  simp only [runMove]
  rw [hread, ok_bind, writeBlocks, raiseIf_bind_of_not (by rw [hlen]; simp)]
  refine ⟨_, rfl, ?_, ?_, ?_, ?_⟩
  · simp only [applyNew, Disk.setJournal_size, Disk.fsync_size, Disk.issue_size]
  · rw [Disk.setJournal]
  · simp only [applyNew, Disk.setJournal_image, Disk.fsync_image, Disk.issue_image, PatchMove.final,
      t, Transaction.patchMove, map_append, applyAll_append]
  · simp only [applyNew, Disk.setJournal_log, Disk.fsync_log, Disk.issue_log, PatchMove.actions, t,
      Transaction.patchMove, map_append, append_assoc, htxn]
    simp

/-! ### Where the bytes are -/

/-- The bytes of the descriptors of a fork. -/
def metaAddrs (obj : ForkObject) : List ℕ := obj.descriptors.flatMap DescriptorRef.addrs

/-- The bytes of the bitmap. -/
def bitmapAddrs (vol : Vol) : List ℕ := vol.allocationFork.addrs.take vol.bitmap.length

theorem mem_used_of_special {vol : Vol} {objs : List ForkObject} {b : ℕ} :
    (b ∈ vol.allocationFork.blocks → b ∈ usedBlocks vol objs) ∧
    (b ∈ vol.extentsFork.blocks → b ∈ usedBlocks vol objs) ∧
    (b ∈ vol.catalogFork.blocks → b ∈ usedBlocks vol objs) := by
  simp only [usedBlocks, Vol.specialBlocks, mem_append]
  tauto

namespace Consistent

variable {disk : Disk Transaction} {vol : Vol} {objs : List ForkObject} {obj : ForkObject}
  (hc : Consistent disk vol objs)
include hc

theorem div_of_mem_metaAddrs (hobj : obj ∈ objs) {a : ℕ} (ha : a ∈ metaAddrs obj) :
    a / vol.blockSize ∈ vol.extentsFork.blocks ∨ a / vol.blockSize ∈ vol.catalogFork.blocks := by
  obtain ⟨ref, href, ha⟩ := mem_flatMap.1 ha
  rcases hc.mem_of_mem_refAddrs (hc.placed hobj href) ha with ⟨-, hcat⟩ | ⟨-, hext⟩
  · exact .inr (hc.mem_addrs.2.2.1 hcat)
  · exact .inl (hc.mem_addrs.2.1.1 hext)

theorem div_of_mem_bitmapAddrs {a : ℕ} (ha : a ∈ bitmapAddrs vol) :
    a / vol.blockSize ∈ vol.allocationFork.blocks :=
  hc.mem_addrs.1.1 (mem_of_mem_take ha)

/-- The free counts are in the headers. -/
theorem isHeaderByte {a : ℕ} (ha : a ∈ headerAddrs disk.size) : IsHeaderByte disk.size a := by
  have hsize := hc.copies
  rw [headerAddrs, mem_append, mem_range'_1, mem_range'_1] at ha
  unfold IsHeaderByte
  omega

section

variable (hobj : obj ∈ objs)
include hobj

/-- A free block holds no byte that a move stores. -/
theorem not_dst {a : ℕ} (hfree : a / vol.blockSize < vol.totalBlocks)
    (hbit : Vol.bitOf vol.bitmap (a / vol.blockSize) = false) :
    a ∉ metaAddrs obj ∧ a ∉ bitmapAddrs vol ∧ ¬ IsHeaderByte disk.size a := by
  have hnot : a / vol.blockSize ∉ usedBlocks vol objs := fun h ↦ by
    rw [(hc.inUse _ h).2] at hbit
    cases hbit
  refine ⟨fun h ↦ ?_, fun h ↦ hnot (mem_used_of_special.1 (hc.div_of_mem_bitmapAddrs h)),
    fun h ↦ ?_⟩
  · rcases hc.div_of_mem_metaAddrs hobj h with h | h
    · exact hnot (mem_used_of_special.2.1 h)
    · exact hnot (mem_used_of_special.2.2 h)
  · rw [(hc.headers a h).2 hfree] at hbit
    cases hbit

/-- The headers hold no byte of the descriptors or of the bitmap. -/
theorem header_apart {a : ℕ} (h : IsHeaderByte disk.size a) :
    a ∉ metaAddrs obj ∧ a ∉ bitmapAddrs vol := by
  have hnot := (hc.headers a h).1
  refine ⟨fun ha ↦ ?_, fun ha ↦ hnot (mem_used_of_special.1 (hc.div_of_mem_bitmapAddrs ha))⟩
  rcases hc.div_of_mem_metaAddrs hobj ha with ha | ha
  · exact hnot (mem_used_of_special.2.1 ha)
  · exact hnot (mem_used_of_special.2.2 ha)

/-- The descriptors are not in the bitmap. -/
theorem meta_apart {a : ℕ} (ha : a ∈ metaAddrs obj) : a ∉ bitmapAddrs vol := by
  intro hb
  obtain ⟨hext, hcat⟩ := hc.special_apart.1 (hc.div_of_mem_bitmapAddrs hb)
  rcases hc.div_of_mem_metaAddrs hobj ha with ha | ha
  · exact hext ha
  · exact hcat ha

/-- **The bytes that a move stores are at different addresses.** -/
theorem nodup_stored : (metaAddrs obj ++ (bitmapAddrs vol ++ headerAddrs disk.size)).Nodup := by
  have hsize := hc.copies
  have hheader : (headerAddrs disk.size).Nodup := by
    refine nodup_append.2 ⟨nodup_range', nodup_range', fun a ha b hb hab ↦ ?_⟩
    rw [mem_range'_1] at ha hb
    omega
  have hbitmap : (bitmapAddrs vol).Nodup := hc.nodup_addrs.1.sublist (take_sublist ..)
  refine nodup_append.2 ⟨hc.nodup_refAddrs hobj, nodup_append.2 ⟨hbitmap, hheader, ?_⟩, ?_⟩
  · rintro a ha b hb rfl
    exact (hc.header_apart hobj (hc.isHeaderByte hb)).2 ha
  · rintro a ha b hb rfl
    rcases mem_append.1 hb with hb | hb
    · exact hc.meta_apart hobj ha hb
    · exact (hc.header_apart hobj (hc.isHeaderByte hb)).1 ha

end

end Consistent

/-! ### Soundness -/

/-- The images a move leads through: `gs` has the bitmap with the destination marked, `g` everything
that is there at the end. -/
structure Target (disk : Disk Transaction) (vol : Vol) (obj : ForkObject) (start : ℕ)
    (txn : Transaction) (final : List UInt8) (gs g : Image) : Prop where
  sound : ∀ payload : List Write, (∀ w ∈ payload, ∀ a, w.Covers a → a / vol.blockSize ∈ txn.dst) →
    (txn.patchMove payload).Sound disk.image gs g
  descriptors :
    (metaAddrs obj).map g = (contiguousExtents start obj.descriptors).flatMap Extent.bytes
  bitmap : (bitmapAddrs vol).map g = final
  stored : ∀ a ∈ metaAddrs obj ++ (bitmapAddrs vol ++ headerAddrs disk.size),
    (PatchesCover txn.metadata a ∨ PatchesCover (txn.bitmapFinal ++ txn.headersFinal) a) ∨
      disk.image a = g a
  stage : ∀ a, PatchesCover (txn.bitmapStage ++ txn.headersStage) a →
    a ∈ bitmapAddrs vol ∨ a ∈ headerAddrs disk.size
  switch : ∀ a, PatchesCover txn.metadata a → a ∈ metaAddrs obj
  finish : ∀ a, PatchesCover (txn.bitmapFinal ++ txn.headersFinal) a →
    a ∈ bitmapAddrs vol ∨ a ∈ headerAddrs disk.size

section Sound

variable {disk : Disk Transaction} {vol : Vol} {objs : List ForkObject} {obj : ForkObject}
  {start : ℕ} {txn : Transaction} {stage final : List UInt8}

/-- The first descriptor changes: its block is in use, the destination is not. -/
theorem Prepared.metadata_ne_nil (hc : Consistent disk vol objs) (hobj : obj ∈ objs)
    (hp : Prepared disk vol obj start txn stage final) (htotal : obj.totalBlocks ≠ 0) :
    txn.metadata ≠ [] := by
  intro hnil
  obtain ⟨hput, hblocks, -, hsmall⟩ := descriptorPatches_put hp.metadata
  rw [hnil] at hput
  -- then the bytes are there already, and the first descriptor names the destination
  have hsame : (metaAddrs obj).map disk.image =
      (contiguousExtents start obj.descriptors).flatMap Extent.bytes := by
    refine ext_getElem (by rw [length_map]; exact hput.length) fun k h₁ h₂ ↦ ?_
    rw [length_map] at h₁
    rw [getElem_map]
    rcases hput.rest k _ _ (getElem?_eq_getElem h₁) (getElem?_eq_getElem h₂) with h | h
    · obtain ⟨p, hmem, -⟩ := h
      simp at hmem
    · exact h
  cases hrefs : obj.descriptors with
  | nil =>
    rw [hrefs] at hblocks
    exact htotal hblocks.symm
  | cons ref refs =>
    have href : ref ∈ obj.descriptors := hrefs ▸ mem_cons_self
    have hplaced := hc.placed hobj href
    rw [metaAddrs, hrefs, flatMap_cons, map_append, contiguousExtents, flatMap_cons] at hsame
    rw [hrefs] at hsmall
    obtain ⟨hs, hn⟩ := hsmall _ mem_cons_self
    obtain ⟨hfirst, -⟩ := append_inj hsame (by
      rw [length_map, hc.length_refAddrs hplaced]
      rfl)
    have hstart : ref.extent.start = start := by
      rw [hc.extent_eq hplaced, hfirst]
      exact (word_extentBytes hs hn).1
    have hused : start ∈ usedBlocks vol objs := mem_append_right _
      (mem_flatMap.2 ⟨obj, hobj, hstart ▸ hc.start_mem hobj href⟩)
    have hmem : start ∈ txn.dst := by
      rw [hp.dst]
      exact mem_range'_1.2 ⟨le_rfl, by omega⟩
    have hbit := (hp.free start hmem).2
    rw [(hc.inUse start hused).2] at hbit
    cases hbit

/-- **A prepared move is a sound transaction.** -/
theorem Prepared.exists_target (hc : Consistent disk vol objs) (hobj : obj ∈ objs)
    (hp : Prepared disk vol obj start txn stage final) (htotal : obj.totalBlocks ≠ 0) :
    ∃ gs g, Target disk vol obj start txn final gs g := by
  obtain ⟨header, hopened⟩ := openVolume_eq_ok.1 hc.opened
  obtain ⟨hbitmap, -⟩ := hopened.bitmap_eq
  obtain ⟨hlenS, hlenF, hstage, hfinal⟩ := makeBitmapStates_eq_ok hp.states
  obtain ⟨hputS, hsharpS⟩ := bitmapPatches_put hp.bitmapStage hlenS hbitmap
  obtain ⟨hputF, -⟩ := bitmapPatches_put hp.bitmapFinal hlenF hbitmap
  obtain ⟨hputM, -, hneM, -⟩ := descriptorPatches_put hp.metadata
  obtain ⟨newS, -, -, hputHS, hcoverS⟩ := headerPatches_put hp.headersStage
  obtain ⟨newF, -, -, hputHF, hcoverF⟩ := headerPatches_put hp.headersFinal
  have hnd := hc.nodup_stored hobj
  have hndS := (nodup_append.1 hnd).2.1
  have hputStage := hputS.append hputHS
  have hputAll := hputM.append (hputF.append hputHF)
  set gs := disk.image.put (bitmapAddrs vol ++ headerAddrs disk.size) (stage ++ (newS ++ newS))
    with hgs
  set g := disk.image.put (metaAddrs obj ++ (bitmapAddrs vol ++ headerAddrs disk.size))
    ((contiguousExtents start obj.descriptors).flatMap Extent.bytes ++ (final ++ (newF ++ newF)))
    with hg
  have hbetweenS : ∀ p ∈ txn.bitmapStage ++ txn.headersStage, p.Between disk.image gs :=
    hputStage.between_put hndS
  have hbetween : ∀ p ∈ txn.metadata ++ (txn.bitmapFinal ++ txn.headersFinal),
      p.Between disk.image g := hputAll.between_put hnd
  have hmap := disk.image.map_put hnd hputAll.length
  rw [← hg, map_append, map_append] at hmap
  obtain ⟨hmapM, hmap⟩ := append_inj hmap (by rw [length_map]; exact hputM.length)
  obtain ⟨hmapB, -⟩ := append_inj hmap (by rw [length_map]; exact hputF.length)
  have hstageMem (a : ℕ) (h : PatchesCover (txn.bitmapStage ++ txn.headersStage) a) :
      a ∈ bitmapAddrs vol ∨ a ∈ headerAddrs disk.size :=
    mem_append.1 (hputStage.mem_of_covers h)
  have hfinishMem (a : ℕ) (h : PatchesCover (txn.bitmapFinal ++ txn.headersFinal) a) :
      a ∈ bitmapAddrs vol ∨ a ∈ headerAddrs disk.size :=
    mem_append.1 ((hputF.append hputHF).mem_of_covers h)
  -- the bytes of the bitmap that are changed at first are changed at the end
  have hprepared (a : ℕ) (h : PatchesCover txn.bitmapStage a) : PatchesCover txn.bitmapFinal a := by
    have hmem := hputS.mem_of_covers h
    obtain ⟨k, hk⟩ := mem_iff_getElem?.1 hmem
    have hklt := (List.getElem?_eq_some_iff.1 hk).1
    have hkS : k < stage.length := hputS.length ▸ hklt
    have hkF : k < final.length := hputF.length ▸ hklt
    have hkB : k < vol.bitmap.length := hlenF ▸ hkF
    have hold : disk.image a = vol.bitmap.getD k 0 := by
      have hget := congrArg (·[k]?) hbitmap
      simp only [getElem?_map, hk, Option.map_some] at hget
      rw [getD_eq_getElem?_getD, ← hget, Option.getD_some]
    have hgsa : gs a = stage.getD k 0 := by
      have hput := disk.image.map_put hndS hputStage.length
      rw [← hgs] at hput
      have hget := congrArg (·[k]?) hput
      simp only [getElem?_map, getElem?_append_left hklt, hk, Option.map_some,
        getElem?_append_left hkS, bitmapAddrs] at hget
      rw [getD_eq_getElem?_getD, ← hget, Option.getD_some]
    obtain ⟨p, hp', hcov⟩ := h
    have hne := (hbetweenS p (mem_append_left _ hp')).ne_of_sharp (hsharpS p hp') hcov
    rw [hold, hgsa] at hne
    have hdisj : ∀ c ∈ txn.dst, c ∉ txn.src := fun c hcd hcs ↦ by
      rw [hp.src] at hcs
      have hused : c ∈ usedBlocks vol objs := mem_append_right _ (mem_flatMap.2 ⟨obj, hobj, hcs⟩)
      have hbit := (hp.free c hcd).2
      rw [(hc.inUse c hused).2] at hbit
      cases hbit
    have hneF := final_ne_of_stage_ne hstage hfinal hdisj hne.symm
    refine (hputF.rest k a (final.getD k 0) hk ?_).resolve_right fun heq ↦ hneF ?_
    · rw [getD_eq_getElem?_getD, getElem?_eq_getElem hkF, Option.getD_some]
    · rw [← heq, hold]
  refine ⟨gs, g, fun payload hpayload ↦ ?_, hmapM, hmapB, fun a ha ↦ ?_, hstageMem,
    fun a ↦ hputM.mem_of_covers, hfinishMem⟩
  · refine
      { stage := hbetweenS
        switch := fun p hp ↦ hbetween p (mem_append_left _ hp)
        finish := fun p hp ↦ hbetween p (mem_append_right _ hp)
        payload := fun w hw a hcov ↦ ?_
        prepared := fun a ha ↦ ?_
        apart := fun a ha hf ↦ ?_
        changes := ?_ }
    · obtain ⟨hlt, hbit⟩ := hp.free _ (hpayload w hw a hcov)
      obtain ⟨hm, hb, hh⟩ := hc.not_dst hobj hlt hbit
      have hnot (h : a ∈ bitmapAddrs vol ∨ a ∈ headerAddrs disk.size) : False :=
        h.elim hb fun h ↦ hh (hc.isHeaderByte h)
      exact ⟨fun h ↦ hnot (hstageMem a h), fun h ↦ hm (hputM.mem_of_covers h),
        fun h ↦ hnot (hfinishMem a h)⟩
    · rcases patchesCover_append.1 ha with ha | ha
      · exact patchesCover_append.2 (.inl (hprepared a ha))
      · exact patchesCover_append.2 (.inr ((hcoverF a).2 ((hcoverS a).1 ha)))
    · have hm := hputM.mem_of_covers ha
      rcases hfinishMem a hf with hb | hh
      · exact hc.meta_apart hobj hm hb
      · exact (hc.header_apart hobj (hc.isHeaderByte hh)).1 hm
    · obtain ⟨p, hmem⟩ := exists_mem_of_ne_nil _ (hp.metadata_ne_nil hc hobj htotal)
      exact ⟨p, hmem, hneM p hmem⟩
  · obtain ⟨k, hk⟩ := mem_iff_getElem?.1 ha
    have hklt := (List.getElem?_eq_some_iff.1 hk).1
    have hb : ((contiguousExtents start obj.descriptors).flatMap Extent.bytes ++
        (final ++ (newF ++ newF)))[k]? = some (g a) := by
      have hget := congrArg (·[k]?) (disk.image.map_put hnd hputAll.length)
      simp only [getElem?_map, hk, Option.map_some] at hget
      exact hget.symm
    rcases hputAll.rest k a _ hk hb with h | h
    · exact .inl (patchesCover_append.1 h)
    · exact .inr h

/-- **The descriptors at the end** are those of a contiguous fork. -/
theorem Target.refs {gs g : Image} (ht : Target disk vol obj start txn final gs g)
    (hc : Consistent disk vol objs) (hobj : obj ∈ objs) :
    Forall₂ (fun ref (e : Extent) ↦ ref.addrs.map g = e.bytes) obj.descriptors
      (contiguousExtents start obj.descriptors) := by
  have h := ht.descriptors
  rw [metaAddrs, map_flatMap] at h
  refine forall₂_of_flatMap h (length_contiguousExtents ..).symm (n := 8) (fun ref href ↦ ?_)
    fun e _ ↦ rfl
  rw [length_map]
  exact hc.length_refAddrs (hc.placed hobj href)

/-- The second halves of the descriptors stay. -/
theorem Target.count_byte {gs g : Image} (ht : Target disk vol obj start txn final gs g)
    (hc : Consistent disk vol objs) (hobj : obj ∈ objs) {ref : DescriptorRef}
    (href : ref ∈ obj.descriptors) {i a : ℕ} (ha : ref.addrs[i]? = some a) (hi : 4 ≤ i) :
    g a = disk.image a := by
  have hplaced := hc.placed hobj href
  have hlen := hc.length_refAddrs hplaced
  have hboth := forall₂_iff_zip.1 (forall₂_contiguousExtents start obj.descriptors)
  obtain ⟨k, hk⟩ := mem_iff_getElem?.1 href
  have hklt := (List.getElem?_eq_some_iff.1 hk).1
  obtain ⟨e, he⟩ : ∃ e, (contiguousExtents start obj.descriptors)[k]? = some e :=
    ⟨_, getElem?_eq_getElem (by rwa [length_contiguousExtents])⟩
  have hzip : (ref, e) ∈ obj.descriptors.zip (contiguousExtents start obj.descriptors) :=
    mem_of_getElem? (getElem?_zip_eq_some.2 ⟨hk, he⟩)
  have hcount := hboth.2 hzip
  have hbytes := (forall₂_iff_zip.1 (ht.refs hc hobj)).2 hzip
  -- both images have the count in the second half
  have hnew : (ref.addrs.map g).drop 4 = be32Bytes ref.extent.count := by
    rw [hbytes, Extent.bytes, drop_left' (length_be32Bytes _), hcount]
  have hold : (ref.addrs.map disk.image).drop 4 = be32Bytes ref.extent.count := by
    rw [drop_four (by rw [length_map, hlen]), hc.extent_eq hplaced]
  have hget := congrArg (·[i - 4]?) (hnew.trans hold.symm)
  simp only [getElem?_drop, getElem?_map, Nat.add_sub_cancel' hi, ha, Option.map_some] at hget
  exact Option.some.inj hget

/-! ### The volume after a crash -/

/-- A free block is not a block of a fork. -/
theorem Consistent.not_mem_of_free (hc : Consistent disk vol objs) {b : ℕ}
    (hb : Vol.bitOf vol.bitmap b = false) : b ∉ usedBlocks vol objs := fun h ↦ by
  rw [(hc.inUse b h).2] at hb
  cases hb

/-- The forks have blocks of their own. -/
theorem Consistent.sourceBlocks_disjoint (hc : Consistent disk vol objs) {o o' : ForkObject}
    (ho : o ∈ objs) (ho' : o' ∈ objs) (hne : o ≠ o') : o.sourceBlocks.Disjoint o'.sourceBlocks := by
  have hpair := (nodup_flatMap.1 (nodup_append.1 hc.disjoint).2.1).2
  have : Std.Symm (Function.onFun List.Disjoint ForkObject.sourceBlocks) := ⟨fun a b hab ↦ hab.symm⟩
  exact hpair.forall ho ho' hne

/-- Every byte is the one before, but for those of the destination, of the bitmap, of the free
counts, and descriptors that are as they will be. -/
def Touched (disk : Disk Transaction) (vol : Vol) (obj : ForkObject) (txn : Transaction)
    (g img : Image) : Prop :=
  ∀ a, img a = disk.image a ∨ a / vol.blockSize ∈ txn.dst ∨ a ∈ bitmapAddrs vol ∨
    a ∈ headerAddrs disk.size ∨ (a ∈ metaAddrs obj ∧ img a = g a)

section Touched

variable {gs g : Image} {disk' : Disk Transaction} (h : Touched disk vol obj txn g disk'.image)
  (ht : Target disk vol obj start txn final gs g) (hc : Consistent disk vol objs)
  (hobj : obj ∈ objs)
include h ht hc hobj

/-- Of a descriptor only the first half is touched. -/
theorem Touched.cases (a : ℕ) : disk'.image a = disk.image a ∨ a / vol.blockSize ∈ txn.dst ∨
    a ∈ bitmapAddrs vol ∨ a ∈ headerAddrs disk.size ∨
      ∃ ref ∈ obj.descriptors, ∃ i < 4, ref.addrs[i]? = some a := by
  rcases h a with hsame | hdst | hbm | hhead | ⟨hmeta, hg⟩
  · exact .inl hsame
  · exact .inr (.inl hdst)
  · exact .inr (.inr (.inl hbm))
  · exact .inr (.inr (.inr (.inl hhead)))
  · obtain ⟨ref, href, hmem⟩ := mem_flatMap.1 hmeta
    obtain ⟨i, hi⟩ := mem_iff_getElem?.1 hmem
    by_cases hlow : i < 4
    · exact .inr (.inr (.inr (.inr ⟨ref, href, i, hlow, hi⟩)))
    · exact .inl (hg.trans (ht.count_byte hc hobj href hi (Nat.le_of_not_lt hlow)))

variable (hp : Prepared disk vol obj start txn stage final)
include hp

/-- A touched byte of a tree is in a descriptor. -/
theorem Touched.tree {a : ℕ} (ha : a ∈ vol.extentsFork.addrs ∨ a ∈ vol.catalogFork.addrs) :
    disk'.image a = disk.image a ∨ ∃ ref ∈ obj.descriptors, ∃ i < 4, ref.addrs[i]? = some a := by
  have hused : a / vol.blockSize ∈ usedBlocks vol objs := by
    rcases ha with ha | ha
    · exact mem_used_of_special.2.1 (hc.mem_addrs.2.1.1 ha)
    · exact mem_used_of_special.2.2 (hc.mem_addrs.2.2.1 ha)
  rcases h.cases ht hc hobj a with hsame | hdst | hbm | hhead | hmeta
  · exact .inl hsame
  · exact (hc.not_mem_of_free (hp.free _ hdst).2 hused).elim
  · obtain ⟨hext, hcat⟩ := hc.special_apart.1 (hc.div_of_mem_bitmapAddrs hbm)
    rcases ha with ha | ha
    · exact (hext (hc.mem_addrs.2.1.1 ha)).elim
    · exact (hcat (hc.mem_addrs.2.2.1 ha)).elim
  · exact ((hc.headers a (hc.isHeaderByte hhead)).1 hused).elim
  · exact .inr hmeta

/-- **A touched volume is changed in a confined way.** -/
theorem confined_of_touched (hsize : disk'.size = disk.size) : Confined disk disk' vol := by
  have hapart (a : ℕ) (hcat : a ∈ vol.catalogFork.addrs) (hext : a ∈ vol.extentsFork.addrs) :
      False := hc.special_apart.2 (hc.mem_addrs.2.1.1 hext) (hc.mem_addrs.2.2.1 hcat)
  refine ⟨hsize, fun i hi hfree ↦ ?_, fun rs hrs x a hx hnot ↦ ?_, fun rs hrs x a hx hnot ↦ ?_⟩
  · have hbyte : IsHeaderByte disk.size (1024 + i) := .inl ⟨by omega, by omega⟩
    rcases h (1024 + i) with hsame | hdst | hbm | hhead | ⟨hmeta, -⟩
    · exact hsame
    · obtain ⟨hlt, hbit⟩ := hp.free _ hdst
      exact ((hc.not_dst hobj hlt hbit).2.2 hbyte).elim
    · exact ((hc.header_apart hobj hbyte).2 hbm).elim
    · have hcopies := hc.copies
      rw [headerAddrs, mem_append, mem_range'_1, mem_range'_1] at hhead
      omega
    · exact ((hc.header_apart hobj hbyte).1 hmeta).elim
  · have hmem := mem_of_getElem? hx
    rcases h.tree ht hc hobj hp (.inl hmem) with hsame | ⟨ref, href, i, hi, ha⟩
    · exact hsame
    · rcases hc.mem_of_mem_refAddrs (hc.placed hobj href) (mem_of_getElem? ha) with
        ⟨-, hcat⟩ | ⟨hplaced, -⟩
      · exact (hapart a hcat hmem).elim
      · exact (hnot (hplaced.startBytes hc.extentsTree (fun _ _ ↦ overflowSlots_le)
          hc.nodup_addrs.2.1 hrs hx ha hi)).elim
  · have hmem := mem_of_getElem? hx
    rcases h.tree ht hc hobj hp (.inr hmem) with hsame | ⟨ref, href, i, hi, ha⟩
    · exact hsame
    · rcases hc.mem_of_mem_refAddrs (hc.placed hobj href) (mem_of_getElem? ha) with
        ⟨hplaced, -⟩ | ⟨-, hext⟩
      · exact (hnot (hplaced.startBytes hc.catalogTree (fun _ _ ↦ catalogSlots_le)
          hc.nodup_addrs.2.2 hrs hx ha hi)).elim
      · exact (hapart a hmem hext).elim

end Touched

/-! ### The completed move -/

/-- The contents of a fork. -/
def ForkObject.content (o : ForkObject) (blockSize : ℕ) (m : Image) : List UInt8 :=
  (blockAddrs blockSize o.sourceBlocks).map m

/-- The blocks of the forks after a move of `obj`. -/
def movedBlocks (obj : ForkObject) (dst : List ℕ) (o : ForkObject) : List ℕ :=
  if o = obj then dst else o.sourceBlocks

section Final

variable {gs g : Image} {payload : List Write} (ht : Target disk vol obj start txn final gs g)
  (hc : Consistent disk vol objs) (hobj : obj ∈ objs)
  (hp : Prepared disk vol obj start txn stage final)
  (hpayload : ∀ w ∈ payload, ∀ a, w.Covers a → a / vol.blockSize ∈ txn.dst)
include ht hc hobj hp hpayload

/-- What is stored is as the target has it. -/
theorem final_of_mem {a : ℕ}
    (ha : a ∈ metaAddrs obj ++ (bitmapAddrs vol ++ headerAddrs disk.size)) :
    (txn.patchMove payload).final disk.image a = g a := by
  obtain ⟨hcov, hnot⟩ := PatchMove.final_eq (ht.sound payload hpayload) a
  by_cases hpatch :
    PatchesCover txn.metadata a ∨ PatchesCover (txn.bitmapFinal ++ txn.headersFinal) a
  · exact hcov hpatch
  · rw [hnot (fun h ↦ hpatch (.inl h)) (fun h ↦ hpatch (.inr h)),
      ← (ht.stored a ha).resolve_left hpatch]
    refine applyAll_of_not_covers _ fun w hw hwa ↦ ?_
    obtain ⟨hlt, hbit⟩ := hp.free _ (hpayload w hw a hwa)
    obtain ⟨hm, hb, hh⟩ := hc.not_dst hobj hlt hbit
    rcases mem_append.1 ha with ha | ha
    · exact hm ha
    rcases mem_append.1 ha with ha | ha
    · exact hb ha
    · exact hh (hc.isHeaderByte ha)

omit hc hobj hp in
/-- Elsewhere there is the copy. -/
theorem final_of_not_mem {a : ℕ}
    (ha : a ∉ metaAddrs obj ++ (bitmapAddrs vol ++ headerAddrs disk.size)) :
    (txn.patchMove payload).final disk.image a = applyAll disk.image payload a := by
  refine (PatchMove.final_eq (ht.sound payload hpayload) a).2 (fun h ↦ ha ?_) fun h ↦ ha ?_
  · exact mem_append_left _ (ht.switch a h)
  · exact mem_append_right _ (mem_append.2 (ht.finish a h))

theorem touched_final : Touched disk vol obj txn g ((txn.patchMove payload).final disk.image) := by
  intro a
  by_cases ha : a ∈ metaAddrs obj ++ (bitmapAddrs vol ++ headerAddrs disk.size)
  · have hg := final_of_mem ht hc hobj hp hpayload ha
    rcases mem_append.1 ha with ha | ha
    · exact .inr (.inr (.inr (.inr ⟨ha, hg⟩)))
    rcases mem_append.1 ha with ha | ha
    · exact .inr (.inr (.inl ha))
    · exact .inr (.inr (.inr (.inl ha)))
  · rw [final_of_not_mem ht hpayload ha]
    by_cases hw : ∃ w ∈ payload, w.Covers a
    · obtain ⟨w, hw, hwa⟩ := hw
      exact .inr (.inl (hpayload w hw a hwa))
    · push Not at hw
      exact .inl (applyAll_of_not_covers _ hw)

/-- **The blocks of the forks after a move**: the moved fork has the destination, the others have
what they had. -/
theorem sourceBlocks_of_reread {o o' : ForkObject} (ho : o ∈ objs)
    (hr : ForkObject.Reread ((txn.patchMove payload).final disk.image) o o') :
    o'.sourceBlocks = movedBlocks obj txn.dst o := by
  have hextents : o'.descriptors.map DescriptorRef.extent = o.descriptors.map fun ref ↦
      (ref.reread ((txn.patchMove payload).final disk.image)).extent := by
    rw [hr.descriptors, map_map]
    rfl
  by_cases heq : o = obj
  · rw [movedBlocks, if_pos heq]
    subst heq
    -- each descriptor has become the one of a contiguous fork
    obtain ⟨-, hblocks, -, hsmall⟩ := descriptorPatches_put hp.metadata
    have hmap :
        o'.descriptors.map DescriptorRef.extent = contiguousExtents start o.descriptors := by
      rw [hextents]
      have hboth := forall₂_iff_zip.1 (ht.refs hc hobj)
      suffices h : Forall₂ (fun ref e ↦
          (ref.reread ((txn.patchMove payload).final disk.image)).extent = e) o.descriptors
          (contiguousExtents start o.descriptors) from
        (eq_map_of_forall₂ h fun ref e h ↦ h.symm).symm
      refine forall₂_iff_zip.2 ⟨hboth.1, fun {ref e} hzip ↦ ?_⟩
      have href := (of_mem_zip hzip).1
      obtain ⟨hs, hn⟩ := hsmall e (of_mem_zip hzip).2
      have hbytes : ref.addrs.map ((txn.patchMove payload).final disk.image) = e.bytes := by
        rw [← hboth.2 hzip]
        exact map_congr_left fun a ha ↦ final_of_mem ht hc hobj hp hpayload
          (mem_append_left _ (mem_flatMap.2 ⟨ref, href, ha⟩))
      rw [hc.reread_extent (hc.placed hobj href), hbytes, (word_extentBytes hs hn).1,
        (word_extentBytes hs hn).2]
    have hall : o'.extents = contiguousExtents start o.descriptors := by
      rw [ForkObject.extents, hmap]
      refine filter_eq_self.2 fun e he ↦ ?_
      obtain ⟨ref, href, hcount⟩ :=
        exists_of_mem_forall₂ (forall₂_contiguousExtents start o.descriptors) he
      rw [hcount]
      exact decide_eq_true (hc.count_ne_zero hobj href)
    rw [ForkObject.sourceBlocks, hall, blocks_contiguousExtents, hblocks, hp.dst]
  · rw [movedBlocks, if_neg heq]
    -- the descriptors of another fork have bytes of their own
    have hdisj := hc.sourceBlocks_disjoint ho hobj heq
    have hmap :
        o'.descriptors.map DescriptorRef.extent = o.descriptors.map DescriptorRef.extent := by
      rw [hextents]
      refine map_congr_left fun ref href ↦ ?_
      have hplaced := hc.placed ho href
      have hbytes : ref.addrs.map ((txn.patchMove payload).final disk.image) =
          ref.addrs.map disk.image := by
        refine map_congr_left fun a ha ↦ ?_
        have hmeta : a ∉ metaAddrs obj := fun h ↦ by
          obtain ⟨ref', href', ha'⟩ := mem_flatMap.1 h
          obtain rfl := hc.eq_of_mem_addrs hplaced (hc.placed hobj href') ha ha'
          exact hdisj (hc.start_mem ho href) (hc.start_mem hobj href')
        have hself : a ∈ metaAddrs o := mem_flatMap.2 ⟨ref, href, ha⟩
        have hbm := hc.meta_apart ho hself
        have hhead : a ∉ headerAddrs disk.size := fun h ↦
          (hc.header_apart ho (hc.isHeaderByte h)).1 hself
        rw [final_of_not_mem ht hpayload (by simp [hmeta, hbm, hhead])]
        refine applyAll_of_not_covers _ fun w hw hwa ↦ ?_
        obtain ⟨hlt, hbit⟩ := hp.free _ (hpayload w hw a hwa)
        exact (hc.not_dst ho hlt hbit).1 hself
      rw [hc.reread_extent hplaced, hbytes, ← hc.extent_eq hplaced]
    rw [ForkObject.sourceBlocks, ForkObject.sourceBlocks, ForkObject.extents, ForkObject.extents,
      hmap]

/-- **The volume after a move** is read with the forks at their new places. -/
theorem objects_final {done : Disk Transaction} (hsize : done.size = disk.size)
    (himage : done.image = (txn.patchMove payload).final disk.image) :
    Touched disk vol obj txn g done.image ∧ Confined disk done vol ∧
      openVolume done false = .ok (vol.reread done.image) ∧
      ∃ objs', (vol.reread done.image).objects done = .ok objs' ∧
        Forall₂ (fun o o' ↦ ForkObject.Reread done.image o o' ∧
          o'.sourceBlocks = movedBlocks obj txn.dst o) objs objs' := by
  have htouched := touched_final ht hc hobj hp hpayload
  rw [← himage] at htouched
  have hconf := confined_of_touched htouched ht hc hobj hp hsize
  obtain ⟨hopen, hkept⟩ := openVolume_reread hc.opened hc.extentsTree hconf
  obtain ⟨objs', hobjs', hrel⟩ := objects_reread hc.objects hkept hc.catalogTree hconf
  obtain ⟨hlen, hall⟩ := forall₂_iff_zip.1 hrel
  refine ⟨htouched, hconf, hopen, objs', hobjs',
    forall₂_iff_zip.2 ⟨hlen, fun {o o'} hzip ↦ ⟨hall hzip, ?_⟩⟩⟩
  have hr := hall hzip
  rw [himage] at hr
  exact sourceBlocks_of_reread ht hc hobj hp hpayload (of_mem_zip hzip).1 hr

end Final

/-! ### The move as a whole -/

/-- The copy goes to the destination. -/
theorem covers_payload (hc : Consistent disk vol objs) (txn : Transaction) (obj : ForkObject) :
    ∀ w ∈ blockWrites vol.blockSize txn.dst (obj.content vol.blockSize disk.image), ∀ a,
      w.Covers a → a / vol.blockSize ∈ txn.dst :=
  fun _ hw _ ↦ covers_blockWrites hc.blockSize_pos hw

theorem Prepared.length_content (hp : Prepared disk vol obj start txn stage final)
    (hc : Consistent disk vol objs) (hobj : obj ∈ objs) :
    (obj.content vol.blockSize disk.image).length = txn.dst.length * vol.blockSize := by
  obtain ⟨-, hblocks, -⟩ := descriptorPatches_put hp.metadata
  rw [ForkObject.content, length_map, length_blockAddrs, hc.length_sourceBlocks hobj, hblocks,
    hp.dst, length_range']

/-- **A prepared move runs to its end.** -/
theorem moveOne_eq_ok (hc : Consistent disk vol objs) (hobj : obj ∈ objs)
    (hprep : prepareMove disk vol obj start = .ok txn) :
    ∃ done, moveOne disk vol obj start = .ok done ∧ done.size = disk.size ∧ done.journal = none ∧
      done.image = (txn.patchMove (blockWrites vol.blockSize txn.dst
        (obj.content vol.blockSize disk.image))).final disk.image ∧
      done.log = disk.log ++ (txn.patchMove (blockWrites vol.blockSize txn.dst
        (obj.content vol.blockSize disk.image))).actions fun s ↦ { txn with stage := s } := by
  obtain ⟨stage, final, hp⟩ := prepareMove_eq_ok hprep
  obtain ⟨header, hopened⟩ := openVolume_eq_ok.1 hc.opened
  obtain ⟨-, hsize, -⟩ := hopened.geometry
  -- the source is on the disk
  have hread : readBlocks (disk.setJournal (some txn)) txn.blockSize txn.src =
      .ok (obj.content vol.blockSize disk.image) := by
    rw [hp.blockSize, hp.src]
    refine readBlocks_eq_ok fun b hb ↦ ?_
    have hused : b ∈ usedBlocks vol objs := mem_append_right _ (mem_flatMap.2 ⟨obj, hobj, hb⟩)
    exact (Nat.mul_le_mul_right _ (hc.inUse b hused).1).trans hsize
  obtain ⟨done, hdone, hsize', hjournal, himage, hlog⟩ := runMove_eq_ok hread
    ((hp.length_content hc hobj).trans (by rw [hp.blockSize])) hp.prepared
  have hwrites : blockWrites txn.blockSize txn.dst (obj.content vol.blockSize disk.image) =
      blockWrites vol.blockSize txn.dst (obj.content vol.blockSize disk.image) := by
    rw [hp.blockSize]
  rw [hwrites] at himage hlog
  exact ⟨done, by rw [moveOne, hprep, ok_bind, hdone], hsize', hjournal, himage, hlog⟩

end Sound

end LinuxDefragger.HfsPlus
