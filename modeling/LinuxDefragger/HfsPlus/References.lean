import LinuxDefragger.HfsPlus.Recovery

/-!
# Blocks that the volume header names

The volume header names blocks by number: the extents of the special files and, on journaled
volumes, the journal info block. The engine rewrites extent descriptors, not these numbers.

A move leads from a consistent volume to a consistent volume (`Consistent.move`), so each named
block that no catalogued fork uses survives every run (`named_blocks_kept`).
-/

open Except List Storage

namespace LinuxDefragger.HfsPlus

/-! ### A move keeps a volume consistent -/

section Move

variable {disk done : Disk Transaction} {vol : Vol} {objs : List ForkObject} {obj : ForkObject}
  {start : ℕ} {txn : Transaction} {stage final : List UInt8}

theorem treeWellFormed_of_empty {J : Type} {disk : Disk J} {f : ForkMap} (h : f.logicalSize = 0) :
    TreeWellFormed disk f := by
  intro nodeSize nodes hleaf
  obtain ⟨⟨ns, first, total⟩, hhead, -⟩ := bind_eq_ok.1 hleaf
  obtain ⟨-, head, hread, hlong, -⟩ := treeHeader_eq_ok hhead
  have hlen := ForkMap.length_of_read hread
  omega

/-- The trees stay well formed. -/
theorem Confined.trees (hconf : Confined disk done vol) (hc : Consistent disk vol objs) :
    TreeWellFormed done vol.extentsFork ∧ TreeWellFormed done vol.catalogFork := by
  obtain ⟨header, hopened⟩ := openVolume_eq_ok.1 hc.opened
  constructor
  · by_cases hzero : vol.extentsFork.logicalSize = 0
    · exact treeWellFormed_of_empty hzero
    · have hover := hopened.overflow
      rw [parseOverflow, if_neg hzero, bind_eq_ok] at hover
      obtain ⟨rs, hrs, -⟩ := hover
      exact (walkLeafRecords_slots hrs hc.extentsTree (fun _ _ _ ↦ overflowSlots_le) hconf.size
        (hconf.extents rs hrs)).2.1
  · have hobjs := hc.objects
    rw [Vol.objects, bind_eq_ok] at hobjs
    obtain ⟨rs, hrs, -⟩ := hobjs
    exact (walkLeafRecords_slots hrs hc.catalogTree (fun _ _ _ ↦ catalogSlots_le) hconf.size
      (hconf.catalog rs hrs)).2.1

theorem Consistent.src_ne_nil (hc : Consistent disk vol objs) (hobj : obj ∈ objs)
    (hp : Prepared disk vol obj start txn stage final) : obj.sourceBlocks ≠ [] := by
  intro hnil
  obtain ⟨-, hblocks, -⟩ := descriptorPatches_put hp.metadata
  have hlen := hc.length_sourceBlocks hobj
  rw [hnil, hblocks] at hlen
  exact hc.totalBlocks_ne_zero hobj hlen.symm

/-- No block is used twice after a move. -/
theorem nodup_moved (hc : Consistent disk vol objs) (hobj : obj ∈ objs)
    (hp : Prepared disk vol obj start txn stage final) :
    (vol.specialBlocks ++ objs.flatMap (movedBlocks obj txn.dst)).Nodup := by
  obtain ⟨hspecial, hforks, hapart⟩ := nodup_append.1 hc.disjoint
  obtain ⟨heach, hpair⟩ := nodup_flatMap.1 hforks
  have hdst (b : ℕ) (hb : b ∈ txn.dst) : b ∉ usedBlocks vol objs :=
    hc.not_mem_of_free (hp.free b hb).2
  have hfork (o : ForkObject) (ho : o ∈ objs) (b : ℕ) (hb : b ∈ o.sourceBlocks) :
      b ∈ usedBlocks vol objs := mem_append_right _ (mem_flatMap.2 ⟨o, ho, hb⟩)
  refine nodup_append.2 ⟨hspecial, nodup_flatMap.2 ⟨fun o ho ↦ ?_, ?_⟩, ?_⟩
  · unfold movedBlocks
    split_ifs
    · rw [hp.dst]
      exact nodup_range'
    · exact heach o ho
  · refine hpair.imp_of_mem fun {o o'} ho ho' hdisj ↦ disjoint_left.2 fun b hb hb' ↦ ?_
    unfold movedBlocks at hb hb'
    split_ifs at hb hb' with heq heq'
    · -- the moved fork occurs once
      obtain ⟨c, hmem⟩ := exists_mem_of_ne_nil _ (hc.src_ne_nil hobj hp)
      subst heq heq'
      exact hdisj hmem hmem
    · exact hdst b hb (hfork o' ho' b hb')
    · exact hdst b hb' (hfork o ho b hb)
    · exact hdisj hb hb'
  · intro b hb c hc' heq
    subst heq
    obtain ⟨o, ho, hmem⟩ := mem_flatMap.1 hc'
    unfold movedBlocks at hmem
    split_ifs at hmem
    · exact hdst b hmem (mem_append_left _ hb)
    · exact hapart b hb b (mem_flatMap.2 ⟨o, ho, hmem⟩) rfl

/-- What a move changes: bits of the source and of the destination, and bytes in known places. -/
structure MoveEffect (disk done : Disk Transaction) (vol : Vol) (objs : List ForkObject)
    (obj : ForkObject) (objs' : List ForkObject) (dst : List ℕ) : Prop where
  size : done.size = disk.size
  journal : done.journal = none
  consistent : Consistent done (vol.reread done.image) objs'
  confined : Confined disk done vol
  forks : List.Forall₂ (fun o o' ↦ ForkObject.Reread done.image o o' ∧
    o'.sourceBlocks = movedBlocks obj dst o) objs objs'
  free : ∀ b ∈ dst, b < vol.totalBlocks ∧ Vol.bitOf vol.bitmap b = false
  bits : ∀ c, Vol.bitOf (vol.reread done.image).bitmap c = if c ∈ obj.sourceBlocks then false
    else if c ∈ dst then true else Vol.bitOf vol.bitmap c
  bytes : ∀ a, done.image a = disk.image a ∨ a / vol.blockSize ∈ dst ∨ a ∈ bitmapAddrs vol ∨
    a ∈ headerAddrs disk.size ∨ ∃ ref ∈ obj.descriptors, ∃ i < 4, ref.addrs[i]? = some a

/-- The bitmap after a move. -/
theorem reread_bitmap {gs g : Image} {payload : List Write}
    (ht : Target disk vol obj start txn final gs g) (hc : Consistent disk vol objs)
    (hobj : obj ∈ objs) (hp : Prepared disk vol obj start txn stage final)
    (hpayload : ∀ w ∈ payload, ∀ a, w.Covers a → a / vol.blockSize ∈ txn.dst)
    (himage : done.image = (txn.patchMove payload).final disk.image) :
    (vol.reread done.image).bitmap = final := by
  obtain ⟨header, hopened⟩ := openVolume_eq_ok.1 hc.opened
  have hlen := hopened.bitmap_eq.2
  rw [← ht.bitmap]
  change ((vol.allocationFork.addrs.drop 0).take (bitmapLength vol.totalBlocks)).map done.image = _
  rw [drop_zero, ← hlen, himage]
  exact map_congr_left fun a ha ↦ final_of_mem ht hc hobj hp hpayload
    (mem_append_right _ (mem_append_left _ ha))

/-- **A move keeps a volume consistent.** -/
theorem Consistent.move (hc : Consistent disk vol objs) (hobj : obj ∈ objs)
    (h : moveOne disk vol obj start = .ok done) :
    ∃ objs' dst, MoveEffect disk done vol objs obj objs' dst := by
  obtain ⟨txn, hprep, -⟩ := bind_eq_ok.1 h
  obtain ⟨done', hdone, hsize, hjournal, himage, -⟩ := moveOne_eq_ok hc hobj hprep
  obtain rfl := ok.inj (h.symm.trans hdone)
  obtain ⟨stage, final, hp⟩ := prepareMove_eq_ok hprep
  obtain ⟨gs, g, ht⟩ := hp.exists_target hc hobj (hc.totalBlocks_ne_zero hobj)
  have hpayload := covers_payload hc txn obj
  obtain ⟨htouched, hconf, hopen, objs', hobjs', hforks⟩ :=
    objects_final ht hc hobj hp hpayload hsize himage
  obtain ⟨htree, htree'⟩ := hconf.trees hc
  -- the bits
  obtain ⟨-, -, hstage, hfinal⟩ := makeBitmapStates_eq_ok hp.states
  have hbits (c : ℕ) : Vol.bitOf (vol.reread done.image).bitmap c =
      if c ∈ obj.sourceBlocks then false else if c ∈ txn.dst then true
        else Vol.bitOf vol.bitmap c := by
    rw [reread_bitmap ht hc hobj hp hpayload himage, hfinal c, hp.src, hstage c]
  have hblocks : usedBlocks (vol.reread done.image) objs' =
      vol.specialBlocks ++ objs.flatMap (movedBlocks obj txn.dst) := by
    have hmap := eq_map_of_forall₂ (forall₂_map_right_iff.2 (hforks.imp fun o o' ho ↦ ho.2))
      (fun o l (hl : l = movedBlocks obj txn.dst o) ↦ hl)
    rw [usedBlocks, flatMap_def, flatMap_def, hmap]
    rfl
  have hmoved (b : ℕ) (hb : b ∈ usedBlocks (vol.reread done.image) objs') :
      b ∈ txn.dst ∨ b ∈ usedBlocks vol objs ∧ b ∉ obj.sourceBlocks := by
    rw [hblocks] at hb
    rcases mem_append.1 hb with hb | hb
    · refine .inr ⟨mem_append_left _ hb, fun hsrc ↦ ?_⟩
      exact (nodup_append.1 hc.disjoint).2.2 b hb b (mem_flatMap.2 ⟨obj, hobj, hsrc⟩) rfl
    · obtain ⟨o, ho, hmem⟩ := mem_flatMap.1 hb
      unfold movedBlocks at hmem
      split_ifs at hmem with heq
      · exact .inl hmem
      · refine .inr ⟨mem_append_right _ (mem_flatMap.2 ⟨o, ho, hmem⟩), fun hsrc ↦ ?_⟩
        exact hc.sourceBlocks_disjoint ho hobj heq hmem hsrc
  have hsrcUsed (b : ℕ) (hb : b ∈ obj.sourceBlocks) : b ∈ usedBlocks vol objs :=
    mem_append_right _ (mem_flatMap.2 ⟨obj, hobj, hb⟩)
  refine ⟨objs', txn.dst, hsize, hjournal, ?_, hconf, hforks, hp.free, hbits,
    htouched.cases ht hc hobj⟩
  · refine
      { opened := hopen
        objects := hobjs'
        copies := hsize ▸ hc.copies
        extentsTree := htree
        catalogTree := htree'
        disjoint := ?_
        inUse := fun b hb ↦ ?_
        headers := fun a ha ↦ ?_ }
    · rw [hblocks]
      exact nodup_moved hc hobj hp
    · rw [hbits b]
      rcases hmoved b hb with hdst | ⟨hused, hsrc⟩
      · have hnot : b ∉ obj.sourceBlocks := fun hsrc ↦
          hc.not_mem_of_free (hp.free b hdst).2 (hsrcUsed b hsrc)
        rw [if_neg hnot, if_pos hdst]
        exact ⟨(hp.free b hdst).1, rfl⟩
      · rw [if_neg hsrc]
        obtain ⟨hlt, hbit⟩ := hc.inUse b hused
        exact ⟨hlt, by rw [hbit]; split_ifs <;> rfl⟩
    · rw [hsize] at ha
      obtain ⟨hnot, hbit⟩ := hc.headers a ha
      change a / vol.blockSize ∉ _ ∧ (a / vol.blockSize < vol.totalBlocks →
        Vol.bitOf (vol.reread done.image).bitmap (a / vol.blockSize) = true)
      refine ⟨fun hb ↦ ?_, fun hlt ↦ ?_⟩
      · rcases hmoved _ hb with hdst | ⟨hused, -⟩
        · obtain ⟨hlt, hfree⟩ := hp.free _ hdst
          rw [hbit hlt] at hfree
          cases hfree
        · exact hnot hused
      · rw [hbits, if_neg fun hsrc ↦ hnot (hsrcUsed _ hsrc)]
        rw [hbit hlt]
        split_ifs <;> rfl

end Move

/-! ### Runs -/

/-- The disk after some rounds of an operation. -/
def Reaches (mode : Mode) : Disk Transaction → Disk Transaction → Prop :=
  Relation.ReflTransGen fun d d' ↦ moveRound mode d = .ok (some d')

variable {mode : Mode}

/-- What is moved is one of the forks. -/
theorem selectMove_mem {vol : Vol} {objs : List ForkObject} {obj : ForkObject} {destination : ℕ}
    (h : selectMove mode vol objs = .ok (some (obj, destination))) :
    obj ∈ objs := by
  cases mode with
  | defrag =>
    obtain ⟨o, ho, hsome⟩ := exists_of_findSome?_eq_some (ok.inj h)
    obtain ⟨run, -, heq⟩ := Option.map_eq_some_iff.1 hsome
    obtain ⟨rfl, -⟩ := Prod.mk.inj heq
    exact (mem_filter.1 ((perm_insertionSort _ _).mem_iff.1 ho)).1
  | compact =>
    obtain ⟨keyed, hkeyed, h⟩ := bind_eq_ok.1 h
    obtain ⟨⟨lowest, o⟩, ho, hsome⟩ := exists_of_findSome?_eq_some (ok.inj h)
    have hmem : (lowest, o) ∈ keyed := (perm_insertionSort _ _).mem_iff.1 ho
    obtain ⟨o', ho', hlow⟩ := exists_of_mem_forall₂ (mapM_eq_ok.1 hkeyed) hmem
    have heq : o' = o := by
      rw [lowestBlock] at hlow
      split at hlow
      · cases hlow
      · exact (Prod.mk.inj (ok.inj hlow)).2
    simp only at hsome
    split at hsome
    · split_ifs at hsome
      obtain ⟨rfl, -⟩ := Prod.mk.inj (Option.some.inj hsome)
      exact heq ▸ ho'
    · cases hsome

/-- **A round on a consistent volume** moves one of its forks. -/
theorem moveRound_effect {disk done : Disk Transaction} {vol : Vol} {objs : List ForkObject}
    (hc : Consistent disk vol objs) (h : moveRound mode disk = .ok (some done)) :
    ∃ obj ∈ objs, ∃ objs' dst, MoveEffect disk done vol objs obj objs' dst := by
  rw [moveRound, hc.opened, ok_bind, hc.objects, ok_bind, bind_eq_ok] at h
  obtain ⟨selected, hselect, h⟩ := h
  cases selected with
  | none => cases h
  | some target =>
    obtain ⟨obj, destination⟩ := target
    obtain ⟨done', hdone, h⟩ := bind_eq_ok.1 h
    obtain rfl := Option.some.inj (ok.inj h)
    have hobj := selectMove_mem hselect
    exact ⟨obj, hobj, hc.move hobj hdone⟩

/-! ### Named blocks -/

/-- The blocks of a fork that is described at an offset of the volume header. -/
def forkBlocksAt (m : Image) (offset : ℕ) : List ℕ :=
  (List.range 8).flatMap fun i ↦ List.range' (beAt m 4 (1024 + (offset + 16 + i * 8)))
    (beAt m 4 (1024 + (offset + 20 + i * 8)))

/-- The blocks that the volume header names besides those of the files the engine reads: the
attributes file, the startup file and, on journaled volumes, the journal info block. -/
def otherNamed (m : Image) : List ℕ :=
  forkBlocksAt m 352 ++ forkBlocksAt m 432 ++
    if beAt m 4 (1024 + 4) &&& 0x2000 ≠ 0 then [beAt m 4 (1024 + 12)] else []

/-- The names do not depend on the free count. -/
theorem otherNamed_congr {m m' : Image}
    (h : ∀ i < 512, ¬ (48 ≤ i ∧ i < 52) → m' (1024 + i) = m (1024 + i)) :
    otherNamed m' = otherNamed m := by
  have hword (o : ℕ) (ho : o + 4 ≤ 48 ∨ 52 ≤ o ∧ o + 4 ≤ 512) :
      beAt m' 4 (1024 + o) = beAt m 4 (1024 + o) := beAt_congr fun i hi ↦ by
    rw [Nat.add_assoc]
    exact h (o + i) (by omega) (by omega)
  have hfork (offset : ℕ) (hlow : 52 ≤ offset) (hhigh : offset + 80 ≤ 512) :
      forkBlocksAt m' offset = forkBlocksAt m offset := by
    refine flatMap_congr fun i hi ↦ ?_
    have hi' := mem_range.1 hi
    rw [hword (offset + 16 + i * 8) (by omega), hword (offset + 20 + i * 8) (by omega)]
  rw [otherNamed, otherNamed, hfork 352 (by omega) (by omega), hfork 432 (by omega) (by omega),
    hword 4 (by omega), hword 12 (by omega)]

/-- A block in use that no fork has and that holds no header. -/
def Aside (disk : Disk Transaction) (vol : Vol) (objs : List ForkObject) (b : ℕ) : Prop :=
  b < vol.totalBlocks ∧ Vol.bitOf vol.bitmap b = true ∧ b ∉ usedBlocks vol objs ∧
    ∀ a, IsHeaderByte disk.size a → a / vol.blockSize ≠ b

/-- An address in the first half of a descriptor. -/
def InDescriptorStart (objs : List ForkObject) (a : ℕ) : Prop :=
  ∃ o ∈ objs, ∃ ref ∈ o.descriptors, ∃ i < 4, ref.addrs[i]? = some a

/-- What a run keeps of a volume. -/
structure Kept (disk₀ : Disk Transaction) (vol₀ : Vol) (objs₀ : List ForkObject)
    (disk : Disk Transaction) (vol : Vol) (objs : List ForkObject) : Prop where
  consistent : Consistent disk vol objs
  size : disk.size = disk₀.size
  blockSize : vol.blockSize = vol₀.blockSize
  totalBlocks : vol.totalBlocks = vol₀.totalBlocks
  special : vol.specialBlocks = vol₀.specialBlocks
  bitmap : bitmapAddrs vol = bitmapAddrs vol₀
  places : ∀ a, InDescriptorStart objs a → InDescriptorStart objs₀ a
  header : ∀ i < 512, ¬ (48 ≤ i ∧ i < 52) → disk.image (1024 + i) = disk₀.image (1024 + i)
  files : ∀ a, a / vol₀.blockSize ∈ vol₀.specialBlocks → disk.image a = disk₀.image a ∨
    a ∈ bitmapAddrs vol₀ ∨ InDescriptorStart objs₀ a
  others : ∀ b, Aside disk₀ vol₀ objs₀ b → Aside disk vol objs b ∧
    ∀ a, a / vol₀.blockSize = b → disk.image a = disk₀.image a

/-- A block aside is not a block of a fork after a move. -/
theorem Aside.move {disk done : Disk Transaction} {vol : Vol} {objs : List ForkObject}
    {obj : ForkObject} {objs' : List ForkObject} {dst : List ℕ} {b : ℕ}
    (h : Aside disk vol objs b) (hobj : obj ∈ objs)
    (he : MoveEffect disk done vol objs obj objs' dst) :
    Aside done (vol.reread done.image) objs' b ∧ b ∉ dst := by
  obtain ⟨hlt, hbit, hused, hheader⟩ := h
  have hdst : b ∉ dst := fun hmem ↦ by
    have hfree := (he.free b hmem).2
    rw [hbit] at hfree
    cases hfree
  refine ⟨⟨hlt, ?_, fun hmem ↦ ?_, fun a ha ↦ hheader a (he.size ▸ ha)⟩, hdst⟩
  · rw [he.bits, if_neg fun hsrc ↦ hused (mem_append_right _
      (mem_flatMap.2 ⟨obj, hobj, hsrc⟩)), if_neg hdst]
    exact hbit
  · rcases mem_append.1 hmem with hmem | hmem
    · exact hused (mem_append_left _ hmem)
    · obtain ⟨o', ho', hmem⟩ := mem_flatMap.1 hmem
      obtain ⟨o, ho, -, hblocks⟩ := exists_of_mem_forall₂ he.forks ho'
      rw [hblocks, movedBlocks] at hmem
      split_ifs at hmem
      · exact hdst hmem
      · exact hused (mem_append_right _ (mem_flatMap.2 ⟨o, ho, hmem⟩))

/-- **A round keeps what a run keeps.** -/
theorem Kept.round {disk₀ disk done : Disk Transaction} {vol₀ vol : Vol}
    {objs₀ objs : List ForkObject} (h : Kept disk₀ vol₀ objs₀ disk vol objs)
    (hround : moveRound mode disk = .ok (some done)) :
    ∃ vol' objs', Kept disk₀ vol₀ objs₀ done vol' objs' := by
  obtain ⟨obj, hobj, objs', dst, he⟩ := moveRound_effect h.consistent hround
  have hc := h.consistent
  -- descriptors stay at their places
  have hplaces (a : ℕ) (ha : InDescriptorStart objs' a) : InDescriptorStart objs a := by
    obtain ⟨o', ho', ref', href', i, hi, hget⟩ := ha
    obtain ⟨o, ho, hr, -⟩ := exists_of_mem_forall₂ he.forks ho'
    rw [hr.descriptors] at href'
    obtain ⟨ref, href, rfl⟩ := mem_map.1 href'
    exact ⟨o, ho, ref, href, i, hi, hget⟩
  refine ⟨vol.reread done.image, objs', he.consistent, he.size.trans h.size, h.blockSize,
    h.totalBlocks, h.special, ?_, fun a ha ↦ h.places a (hplaces a ha), fun i hi hfree ↦
    (he.confined.header i hi hfree).trans (h.header i hi hfree), fun a ha ↦ ?_, fun b hb ↦ ?_⟩
  · obtain ⟨header, hopened⟩ := openVolume_eq_ok.1 hc.opened
    obtain ⟨header', hopened'⟩ := openVolume_eq_ok.1 he.consistent.opened
    have hlen : (vol.reread done.image).bitmap.length = vol.bitmap.length :=
      hopened'.bitmap_eq.2.trans hopened.bitmap_eq.2.symm
    rw [bitmapAddrs, hlen]
    exact h.bitmap
  · -- a byte of a file that the engine reads
    have hused : a / vol.blockSize ∈ usedBlocks vol objs := by
      refine mem_append_left _ ?_
      rw [h.special, h.blockSize]
      exact ha
    rcases he.bytes a with hsame | hdst | hbm | hhead | ⟨ref, href, i, hi, hget⟩
    · rw [hsame]
      exact h.files a ha
    · exact (hc.not_mem_of_free (he.free _ hdst).2 hused).elim
    · exact .inr (.inl (h.bitmap ▸ hbm))
    · exact ((hc.headers a (hc.isHeaderByte hhead)).1 hused).elim
    · exact .inr (.inr (h.places a ⟨obj, hobj, ref, href, i, hi, hget⟩))
  · obtain ⟨haside, hbytes⟩ := h.others b hb
    obtain ⟨haside', hdst⟩ := haside.move hobj he
    refine ⟨haside', fun a ha ↦ Eq.trans ?_ (hbytes a ha)⟩
    rw [← h.blockSize] at ha
    have hspecial (hmem : a / vol.blockSize ∈ usedBlocks vol objs) : False :=
      haside.2.2.1 (ha ▸ hmem)
    rcases he.bytes a with hsame | hmem | hbm | hhead | ⟨ref, href, i, hi, hget⟩
    · exact hsame
    · exact (hdst (ha ▸ hmem)).elim
    · exact (hspecial (mem_used_of_special.1 (hc.div_of_mem_bitmapAddrs hbm))).elim
    · exact (haside.2.2.2 a (hc.isHeaderByte hhead) ha).elim
    · have hmeta : a ∈ metaAddrs obj := mem_flatMap.2 ⟨ref, href, mem_of_getElem? hget⟩
      rcases hc.div_of_mem_metaAddrs hobj hmeta with hmem | hmem
      · exact (hspecial (mem_used_of_special.2.1 hmem)).elim
      · exact (hspecial (mem_used_of_special.2.2 hmem)).elim

/-- **A run keeps what a round keeps.** -/
theorem Kept.reaches {disk₀ disk disk' : Disk Transaction} {vol₀ vol : Vol}
    {objs₀ objs : List ForkObject} (h : Kept disk₀ vol₀ objs₀ disk vol objs)
    (hrun : Reaches mode disk disk') : ∃ vol' objs', Kept disk₀ vol₀ objs₀ disk' vol' objs' := by
  induction hrun with
  | refl => exact ⟨vol, objs, h⟩
  | tail _ hround ih =>
    obtain ⟨vol', objs', hkept⟩ := ih
    exact hkept.round hround

/-- **Named blocks survive.** After any run on a consistent volume the header names the same blocks.
The blocks of the files that the engine reads are still allocated, and nothing changed in them but
bytes of the bitmap and first halves of extent descriptors. Every block of the attributes file, of
the startup file or of the journal info that no catalogued fork has is still allocated and holds
what it held. -/
theorem named_blocks_kept (mode : Mode) (disk disk' : Disk Transaction) (vol : Vol)
    (objs : List ForkObject) (hc : Consistent disk vol objs) (hrun : Reaches mode disk disk') :
    ∃ vol', openVolume disk' false = .ok vol' ∧ vol'.specialBlocks = vol.specialBlocks ∧
      otherNamed disk'.image = otherNamed disk.image ∧
      (∀ b ∈ vol.specialBlocks, Vol.bitOf vol'.bitmap b = true) ∧
      (∀ a, a / vol.blockSize ∈ vol.specialBlocks → disk'.image a = disk.image a ∨
        a ∈ bitmapAddrs vol ∨ InDescriptorStart objs a) ∧
      ∀ b ∈ otherNamed disk.image, Aside disk vol objs b → Vol.bitOf vol'.bitmap b = true ∧
        ∀ a, a / vol.blockSize = b → disk'.image a = disk.image a := by
  have hstart : Kept disk vol objs disk vol objs :=
    ⟨hc, rfl, rfl, rfl, rfl, rfl, fun _ h ↦ h, fun _ _ _ ↦ rfl, fun _ _ ↦ .inl rfl,
      fun b hb ↦ ⟨hb, fun _ _ ↦ rfl⟩⟩
  obtain ⟨vol', objs', hkept⟩ := hstart.reaches hrun
  refine ⟨vol', hkept.consistent.opened, hkept.special, otherNamed_congr hkept.header,
    fun b hb ↦ ?_, hkept.files, fun b _ haside ↦ ?_⟩
  · exact (hkept.consistent.inUse b (mem_append_left _ (hkept.special ▸ hb))).2
  · obtain ⟨haside', hbytes⟩ := hkept.others b haside
    exact ⟨haside'.2.1, hbytes⟩

/-! ### Journaled volumes -/

/-- The small volume, journaled, with a fork in block 8; the header names a journal info block. -/
def journaledDisk (info free : UInt8) (bitmap : List UInt8) : Disk Transaction where
  size := 8192
  image := smallImage 0x21 info free bitmap [0, 0, 0, 8, 0, 0, 0, 1] 1
  journal := none
  log := []

/-- The fork of the journaled volume. -/
def journaledFork (m : Image) : ForkObject where
  path := [65]
  fileId := 16
  forkType := 0
  logicalSize := 512
  totalBlocks := 1
  descriptors := [descriptorAt (smallRecord m) 114]

/-- The header names block 12, which no fork has. -/
def asideDisk : Disk Transaction := journaledDisk 12 6 [0xFC, 0x8B]

/-- The header names block 8, which is the block of the fork. -/
def infoDisk : Disk Transaction := journaledDisk 8 7 [0xFC, 0x83]

theorem consistent_asideDisk :
    Consistent asideDisk (smallVol 6 [0xFC, 0x8B]) [journaledFork asideDisk.image] where
  opened := by decide +kernel
  objects := by decide +kernel
  copies := by decide
  extentsTree := by decide +kernel
  catalogTree := by decide +kernel
  disjoint := by decide +kernel
  inUse := by decide +kernel
  headers := small_headers (by decide +kernel)

theorem consistent_infoDisk :
    Consistent infoDisk (smallVol 7 [0xFC, 0x83]) [journaledFork infoDisk.image] where
  opened := by decide +kernel
  objects := by decide +kernel
  copies := by decide
  extentsTree := by decide +kernel
  catalogTree := by decide +kernel
  disjoint := by decide +kernel
  inUse := by decide +kernel
  headers := small_headers (by decide +kernel)

/-- With the journal info block aside, a round of compacting moves the fork and keeps the block. -/
theorem named_blocks_kept_asideDisk : ∃ done, moveRound .compact asideDisk = .ok (some done) ∧
    12 ∈ otherNamed asideDisk.image ∧ ∃ vol', openVolume done false = .ok vol' ∧
      otherNamed done.image = otherNamed asideDisk.image ∧
      (∀ b ∈ (smallVol 6 [0xFC, 0x8B]).specialBlocks, Vol.bitOf vol'.bitmap b = true) ∧
      Vol.bitOf vol'.bitmap 12 = true ∧ ∀ a, a / 512 = 12 → done.image a = asideDisk.image a := by
  have hok : (moveRound .compact asideDisk).toOption.map Option.isSome = some true := by
    decide +kernel
  rcases hround : moveRound .compact asideDisk with e | (_ | done)
  · rw [hround] at hok
    cases hok
  · rw [hround] at hok
    cases hok
  have hmem : 12 ∈ otherNamed asideDisk.image := by decide +kernel
  have haside : Aside asideDisk (smallVol 6 [0xFC, 0x8B]) [journaledFork asideDisk.image] 12 := by
    refine ⟨by decide, by decide +kernel, by decide +kernel, fun a ha ↦ ?_⟩
    change IsHeaderByte 8192 a at ha
    change a / 512 ≠ 12
    unfold IsHeaderByte at ha
    omega
  obtain ⟨vol', hopen, -, hsame, hbits, -, hothers⟩ := named_blocks_kept .compact asideDisk done _ _
    consistent_asideDisk (.single hround)
  obtain ⟨hbit, hbytes⟩ := hothers 12 hmem haside
  exact ⟨done, rfl, hmem, vol', hopen, hsame, hbits, hbit, hbytes⟩

/-- **Named blocks do not all keep their contents.** Compacting rewrites the allocation bitmap,
whose block 3 the header names, and an extent descriptor of the catalogue, in block 5. And the
journal info block is freed when it belongs to a catalogued file: the file is moved from block 8 to
block 6, and the header still names block 8. -/
theorem named_blocks_rewritten :
    (∃ vol objs, Consistent asideDisk vol objs ∧ 1536 / vol.blockSize ∈ vol.specialBlocks ∧
      2691 / vol.blockSize ∈ vol.specialBlocks) ∧
    (∃ disk', operation .compact 1 asideDisk = .ok disk' ∧
      disk'.image 1536 ≠ asideDisk.image 1536 ∧ disk'.image 2691 ≠ asideDisk.image 2691) ∧
    (∃ vol objs, Consistent infoDisk vol objs ∧ Vol.bitOf vol.bitmap 8 = true) ∧
    8 ∈ otherNamed infoDisk.image ∧
    ∃ disk', operation .compact 1 infoDisk = .ok disk' ∧ 8 ∈ otherNamed disk'.image ∧
      ∃ vol', openVolume disk' false = .ok vol' ∧ Vol.bitOf vol'.bitmap 8 = false := by
  refine ⟨⟨_, _, consistent_asideDisk, by decide, by decide⟩, ?_,
    ⟨_, _, consistent_infoDisk, by decide +kernel⟩, by decide +kernel, ?_⟩
  · obtain ⟨disk', hrun, hp⟩ := exists_ok_of_any (x := operation .compact 1 asideDisk)
      (p := fun d ↦ d.image 1536 ≠ asideDisk.image 1536 ∧ d.image 2691 ≠ asideDisk.image 2691)
      (by decide +kernel)
    exact ⟨disk', hrun, of_decide_eq_true hp⟩
  · obtain ⟨disk', hrun, hp⟩ := exists_ok_of_any (x := operation .compact 1 infoDisk)
      (p := fun d ↦ 8 ∈ otherNamed d.image ∧
        (openVolume d false).toOption.any fun v ↦ !Vol.bitOf v.bitmap 8) (by decide +kernel)
    obtain ⟨hnamed, hvol⟩ := of_decide_eq_true hp
    obtain ⟨vol', hopen, hbit⟩ := exists_ok_of_any hvol
    exact ⟨disk', hrun, hnamed, vol', hopen, by simpa using hbit⟩

end LinuxDefragger.HfsPlus
