import LinuxDefragger.HfsPlus.Transaction

/-!
# Recovering from a crash during a move

A crash may leave any of the bytes that were not synchronised, in any combination. Whatever it
leaves, the volume opens, the journal fits it, and the descriptors tell whether the move is
committed: `recover` then undoes or completes it (`recover_undo`, `recover_redo`), and the fork can
be read through the descriptors that result.
-/

open List Storage

namespace LinuxDefragger.HfsPlus

/-- A fork can be read through the descriptors that a disk has for it. -/
def Readable (disk : Disk Transaction) (fileId forkType : ℕ) (content : List UInt8) : Prop :=
  ∃ vol objs, openVolume disk false = .ok vol ∧ vol.objects disk = .ok objs ∧
    ∃ o ∈ objs, o.fileId = fileId ∧ o.forkType = forkType ∧
      o.content vol.blockSize disk.image = content

variable {disk' : Disk Transaction}

section Recover

variable {disk : Disk Transaction} {vol : Vol} {objs : List ForkObject} {obj : ForkObject}
  {start : ℕ} {txn : Transaction} {stage final : List UInt8} {gs g : Image} {payload : List Write}

/-- The patches of the descriptors are on the disk. -/
theorem metadata_in_range (hc : Consistent disk vol objs) (hobj : obj ∈ objs)
    (hp : Prepared disk vol obj start txn stage final) :
    ∀ p ∈ txn.metadata, p.new.length ≤ disk.size - p.offset := by
  intro p hmem
  obtain ⟨header, hopened⟩ := openVolume_eq_ok.1 hc.opened
  obtain ⟨-, hsize, -⟩ := hopened.geometry
  obtain ⟨hput, -⟩ := descriptorPatches_put hp.metadata
  rcases Nat.eq_zero_or_pos p.new.length with hzero | hpos
  · omega
  have hlast : p.offset + (p.new.length - 1) ∈ metaAddrs obj :=
    hput.mem_of_covers ⟨p, hmem, Nat.le_add_right .., Nat.add_lt_add_left (by
      show p.new.length - 1 < p.new.length
      omega) _⟩
  have hused : (p.offset + (p.new.length - 1)) / vol.blockSize ∈ usedBlocks vol objs := by
    rcases hc.div_of_mem_metaAddrs hobj hlast with h | h
    · exact mem_used_of_special.2.1 h
    · exact mem_used_of_special.2.2 h
  have hlt := (hc.inUse _ hused).1
  rw [Nat.div_lt_iff_lt_mul hc.blockSize_pos] at hlt
  omega

/-- **What recovery does**, on a disk it can open. -/
theorem recover_eq_ok {s : PatchStage} (payload : List Write) (hc : Consistent disk vol objs)
    (hobj : obj ∈ objs) (hp : Prepared disk vol obj start txn stage final)
    (hconf : Confined disk disk' vol) (hjournal : disk'.journal = some { txn with stage := s }) :
    ∃ after, recover disk' = .ok after ∧ after.size = disk.size ∧ after.journal = none ∧
      (((txn.patchMove payload).Switched disk'.image ∧ txn.metadata ≠ []) ∨
          s = .switched ∨ s = .complete →
        after.image = (txn.patchMove payload).redo disk'.image) ∧
      (¬ (((txn.patchMove payload).Switched disk'.image ∧ txn.metadata ≠ []) ∨
          s = .switched ∨ s = .complete) →
        after.image = (txn.patchMove payload).undo disk'.image) := by
  obtain ⟨hopen, -⟩ := openVolume_reread (openVolume_allow hc.opened) hc.extentsTree hconf
  have hread : txn.metadata.mapM (fun p ↦ volumeRead disk' p.offset p.new.length) =
      .ok (txn.metadata.map fun p ↦ disk'.image.read p.offset p.new.length) := by
    rw [mapM_eq_ok, forall₂_map_right_iff]
    refine forall₂_same.2 fun p hmem ↦ volumeRead_eq_ok.2 ⟨?_, rfl⟩
    rw [hconf.size]
    exact metadata_in_range hc hobj hp p hmem
  have hnew : (txn.metadata ≠ [] ∧ ∀ q ∈ (txn.metadata.map fun p ↦
      disk'.image.read p.offset p.new.length).zip txn.metadata, q.1 = q.2.new) ↔
      (txn.patchMove payload).Switched disk'.image ∧ txn.metadata ≠ [] := by
    rw [← map_prod_right_eq_zip, forall_mem_map]
    exact and_comm
  have hmatch : ¬ ((vol.reread disk'.image).signature ≠ txn.signature ∨
      (vol.reread disk'.image).createDate ≠ txn.createDate ∨
      (vol.reread disk'.image).blockSize ≠ txn.blockSize ∨
      (vol.reread disk'.image).totalBlocks ≠ txn.totalBlocks) := by
    rw [hp.signature, hp.createDate, hp.blockSize, hp.totalBlocks]
    simp [Vol.reread]
  rw [recover, hjournal]
  simp only
  rw [hopen, ok_bind, raiseIf_bind_of_not hmatch, hread, ok_bind]
  by_cases hdone : ((txn.patchMove payload).Switched disk'.image ∧ txn.metadata ≠ []) ∨
      s = .switched ∨ s = .complete
  · rw [if_pos (by rwa [hnew])]
    refine ⟨_, rfl, hconf.size, rfl, fun _ ↦ ?_, fun h ↦ absurd hdone h⟩
    simp only [applyNew, Disk.setJournal_image, Disk.fsync_image, Disk.issue_image, PatchMove.redo,
      Transaction.patchMove, map_append, applyAll_append]
  · rw [if_neg (by rwa [hnew])]
    refine ⟨_, rfl, hconf.size, rfl, fun h ↦ absurd h hdone, fun _ ↦ ?_⟩
    simp only [applyOld, Disk.setJournal_image, Disk.fsync_image, Disk.issue_image, PatchMove.undo,
      Transaction.patchMove, map_append, applyAll_append]

/-- What a crash leaves is touched in the known places only. -/
theorem touched_of_crashByte (ht : Target disk vol obj start txn final gs g)
    (hpayload : ∀ w ∈ payload, ∀ a, w.Covers a → a / vol.blockSize ∈ txn.dst) {img : Image}
    (h : ∀ a, (txn.patchMove payload).CrashByte disk.image gs g img a) :
    Touched disk vol obj txn g img := by
  intro a
  rcases h a with ⟨w, hw, hwa⟩ | hsame | ⟨hstage, -⟩ | ⟨hswitch | hfinish, hg⟩
  · exact .inr (.inl (hpayload w hw a hwa))
  · exact .inl hsame
  · rcases ht.stage a hstage with ha | ha
    · exact .inr (.inr (.inl ha))
    · exact .inr (.inr (.inr (.inl ha)))
  · exact .inr (.inr (.inr (.inr ⟨ht.switch a hswitch, hg⟩)))
  · rcases ht.finish a hfinish with ha | ha
    · exact .inr (.inr (.inl ha))
    · exact .inr (.inr (.inr (.inl ha)))

/-- The disk a crash leaves, with the journal at some stage. -/
def crashed (disk : Disk Transaction) (txn : Transaction) (s : PatchStage) (img : Image) :
    Disk Transaction := ⟨disk.size, img, some { txn with stage := s }, []⟩

section Crashed

variable (ht : Target disk vol obj start txn final gs g) (hc : Consistent disk vol objs)
  (hobj : obj ∈ objs) (hp : Prepared disk vol obj start txn stage final)
  (hpayload : ∀ w ∈ payload, ∀ a, w.Covers a → a / vol.blockSize ∈ txn.dst) {img : Image}
  {s : PatchStage}
include ht hc hobj hp hpayload

theorem confined_crashed (h : ∀ a, (txn.patchMove payload).CrashByte disk.image gs g img a) :
    Confined disk (crashed disk txn s img) vol :=
  confined_of_touched (touched_of_crashByte ht hpayload h) ht hc hobj hp rfl

/-- **Recovery undoes a move that was not committed**, but for the bytes of the destination. -/
theorem recover_undo (h : (txn.patchMove payload).Undoable disk.image gs g img)
    (hs₁ : s ≠ .switched) (hs₂ : s ≠ .complete) :
    ∃ after, recover (crashed disk txn s img) = .ok after ∧ after.size = disk.size ∧
      after.journal = none ∧
      ∀ a, a / vol.blockSize ∉ txn.dst → after.image a = disk.image a := by
  have hconf : Confined disk (crashed disk txn s img) vol :=
    confined_crashed ht hc hobj hp hpayload h.bytes
  obtain ⟨after, hrec, hsize, hjournal, -, himage⟩ :=
    recover_eq_ok payload hc hobj hp hconf (show (crashed disk txn s img).journal = _ from rfl)
  have himage' := himage fun hdone ↦ by
    rcases hdone with ⟨hsw, -⟩ | hs | hs
    · exact h.unswitched hsw
    · exact hs₁ hs
    · exact hs₂ hs
  refine ⟨after, hrec, hsize, hjournal, fun a ha ↦ ?_⟩
  rw [himage']
  exact h.undo a fun ⟨w, hw, hwa⟩ ↦ ha (hpayload w hw a hwa)

/-- **Recovery completes a move that was committed.** -/
theorem recover_redo (h : (txn.patchMove payload).Redoable disk.image gs g img)
    (hs : s = .switched ∨ s = .complete ∨ (txn.patchMove payload).Switched img) :
    ∃ after, recover (crashed disk txn s img) = .ok after ∧ after.size = disk.size ∧
      after.journal = none ∧ after.image = (txn.patchMove payload).final disk.image := by
  have hconf : Confined disk (crashed disk txn s img) vol :=
    confined_crashed ht hc hobj hp hpayload h.bytes
  obtain ⟨after, hrec, hsize, hjournal, himage, -⟩ :=
    recover_eq_ok payload hc hobj hp hconf (show (crashed disk txn s img).journal = _ from rfl)
  have hne : txn.metadata ≠ [] := fun hnil ↦ by
    obtain ⟨p, hmem, -⟩ := (ht.sound payload hpayload).changes
    rw [Transaction.patchMove, hnil] at hmem
    simp at hmem
  refine ⟨after, hrec, hsize, hjournal, ?_⟩
  rw [← h.redo]
  refine himage ?_
  rcases hs with hs | hs | hsw
  · exact .inr (.inl hs)
  · exact .inr (.inr hs)
  · exact .inl ⟨hsw, hne⟩

end Crashed

/-- **A volume that changed in free blocks only** is read as before. -/
theorem Consistent.same_of_free (hc : Consistent disk vol objs) (hsize : disk'.size = disk.size)
    {free : List ℕ} (hfree : ∀ b ∈ free, b < vol.totalBlocks ∧ Vol.bitOf vol.bitmap b = false)
    (hsame : ∀ a, a / vol.blockSize ∉ free → disk'.image a = disk.image a) :
    openVolume disk' false = .ok vol ∧ vol.objects disk' = .ok objs ∧
      ∀ o ∈ objs, o.content vol.blockSize disk'.image = o.content vol.blockSize disk.image := by
  have hnot (b : ℕ) (hb : b ∈ usedBlocks vol objs) : b ∉ free :=
    fun h ↦ hc.not_mem_of_free (hfree b h).2 hb
  obtain ⟨hopen, hobjs⟩ := openVolume_same hc.opened hc.objects hc.extentsTree hc.catalogTree hsize
    (fun i hi ↦ hsame _ fun h ↦ by
      obtain ⟨hlt, hbit⟩ := hfree _ h
      rw [(hc.headers (1024 + i) (.inl ⟨by omega, by omega⟩)).2 hlt] at hbit
      cases hbit)
    fun a ha ↦ hsame a (hnot _ (by
      rcases ha with ha | ha | ha
      · exact mem_used_of_special.1 (hc.mem_addrs.1.1 ha)
      · exact mem_used_of_special.2.1 (hc.mem_addrs.2.1.1 ha)
      · exact mem_used_of_special.2.2 (hc.mem_addrs.2.2.1 ha)))
  refine ⟨hopen, hobjs, fun o ho ↦ map_congr_left fun a ha ↦ hsame a (hnot _ ?_)⟩
  exact mem_append_right _
    (mem_flatMap.2 ⟨o, ho, (mem_blockAddrs hc.blockSize_pos).1 ha⟩)

/-- The fork is readable as long as only free blocks changed. -/
theorem readable_of_free (hc : Consistent disk vol objs) (hobj : obj ∈ objs)
    (hsize : disk'.size = disk.size) {free : List ℕ}
    (hfree : ∀ b ∈ free, b < vol.totalBlocks ∧ Vol.bitOf vol.bitmap b = false)
    (hsame : ∀ a, a / vol.blockSize ∉ free → disk'.image a = disk.image a) :
    Readable disk' obj.fileId obj.forkType (obj.content vol.blockSize disk.image) := by
  obtain ⟨hopen, hobjs, hcontent⟩ := hc.same_of_free hsize hfree hsame
  exact ⟨vol, objs, hopen, hobjs, obj, hobj, rfl, rfl, hcontent obj hobj⟩

/-- **The fork is readable after the move.** -/
theorem readable_final (ht : Target disk vol obj start txn final gs g)
    (hc : Consistent disk vol objs) (hobj : obj ∈ objs)
    (hp : Prepared disk vol obj start txn stage final) (hsize : disk'.size = disk.size)
    (himage : disk'.image = (txn.patchMove (blockWrites vol.blockSize txn.dst
      (obj.content vol.blockSize disk.image))).final disk.image) :
    Readable disk' obj.fileId obj.forkType (obj.content vol.blockSize disk.image) := by
  have hpayload := covers_payload hc txn obj
  obtain ⟨-, -, hopen, objs', hobjs', hforks⟩ := objects_final ht hc hobj hp hpayload hsize himage
  obtain ⟨obj', hobj', hreread, hblocks⟩ := exists_of_mem_forall₂ hforks.flip hobj
  rw [movedBlocks, if_pos rfl] at hblocks
  refine ⟨_, objs', hopen, hobjs', obj', hobj', hreread.fileId, hreread.forkType, ?_⟩
  have hnd : txn.dst.Nodup := by
    rw [hp.dst]
    exact nodup_range'
  have hbs : (vol.reread disk'.image).blockSize = vol.blockSize := rfl
  rw [ForkObject.content, hblocks, hbs]
  refine Eq.trans (map_congr_left fun a ha ↦ ?_)
    (applyAll_blockWrites hc.blockSize_pos hnd (hp.length_content hc hobj) disk.image).2
  -- a byte of the destination is not stored by a patch
  obtain ⟨hlt, hbit⟩ := hp.free _ ((mem_blockAddrs hc.blockSize_pos).1 ha)
  obtain ⟨hm, hb, hh⟩ := hc.not_dst hobj hlt hbit
  have hhead : a ∉ headerAddrs disk.size := fun h ↦ hh (hc.isHeaderByte h)
  rw [himage]
  exact final_of_not_mem ht hpayload (by simp [hm, hb, hhead])

end Recover

/-! ### Every crash -/

/-- **Recovery after a crash.** A move that was prepared on a consistent volume runs to its end. If
it is cut short, whatever bytes reached the disk, either there is no journal and the disk is the one
before or the one after the move; or recovery succeeds, and it leaves the volume as it was, with
other bytes in the free destination only, or completes the move. The fork is readable with its
contents in each case. -/
theorem move_recoverable (disk : Disk Transaction) (vol : Vol) (objs : List ForkObject)
    (obj : ForkObject) (start : ℕ) (txn : Transaction) (hc : Consistent disk vol objs)
    (hobj : obj ∈ objs) (hprep : prepareMove disk vol obj start = .ok txn)
    (hjournal : disk.journal = none) :
    ∃ done acts, moveOne disk vol obj start = .ok done ∧ done.log = disk.log ++ acts ∧
      ∀ img j, IsCrashState 1 disk.image disk.journal acts img j →
        (j = none ∧ (img = disk.image ∨ img = done.image) ∧
          Readable ⟨disk.size, img, j, []⟩ obj.fileId obj.forkType
            (obj.content vol.blockSize disk.image)) ∨
        ∃ after, recover ⟨disk.size, img, j, []⟩ = .ok after ∧ after.journal = none ∧
          (openVolume after false = .ok vol ∧ vol.objects after = .ok objs ∧
              (∀ a, a / vol.blockSize ∉ txn.dst → after.image a = disk.image a) ∨
            after.image = done.image) ∧
          Readable after obj.fileId obj.forkType (obj.content vol.blockSize disk.image) := by
  obtain ⟨stage, final, hp⟩ := prepareMove_eq_ok hprep
  obtain ⟨gs, g, ht⟩ := hp.exists_target hc hobj (hc.totalBlocks_ne_zero hobj)
  obtain ⟨done, hdone, -, -, himage, hlog⟩ := moveOne_eq_ok hc hobj hprep
  have hpayload := covers_payload hc txn obj
  set t := txn.patchMove (blockWrites vol.blockSize txn.dst (obj.content vol.blockSize disk.image))
    with hteq
  have hsound : t.Sound disk.image gs g := ht.sound _ hpayload
  refine ⟨done, _, hdone, hlog, fun img j hcrash ↦ ?_⟩
  -- the two disks that recovery may lead to
  have hbefore (after : Disk Transaction) (hs : after.size = disk.size)
      (h : ∀ a, a / vol.blockSize ∉ txn.dst → after.image a = disk.image a) :
      Readable after obj.fileId obj.forkType (obj.content vol.blockSize disk.image) :=
    readable_of_free hc hobj hs hp.free h
  have hafter (after : Disk Transaction) (hs : after.size = disk.size)
      (h : after.image = done.image) :
      Readable after obj.fileId obj.forkType (obj.content vol.blockSize disk.image) :=
    readable_final ht hc hobj hp hs (h.trans himage)
  rcases PatchMove.crash_cases hsound hcrash with ⟨rfl, rfl⟩ | ⟨rfl, rfl⟩ | ⟨s, rfl, hcases⟩
  · exact .inl ⟨hjournal, .inl rfl, hbefore _ rfl fun a _ ↦ rfl⟩
  · exact .inl ⟨rfl, .inr himage.symm, hafter _ rfl himage.symm⟩
  right
  rcases hcases with ⟨hs₁, hs₂, hundo⟩ | ⟨hcommit, hredo⟩
  · obtain ⟨after, hrec, hsz, hj, hback⟩ := recover_undo ht hc hobj hp hpayload hundo hs₁ hs₂
    obtain ⟨hopen, hobjs, -⟩ := hc.same_of_free hsz hp.free hback
    exact ⟨after, hrec, hj, .inl ⟨hopen, hobjs, hback⟩, hbefore after hsz hback⟩
  · obtain ⟨after, hrec, hsz, hj, hfinal⟩ := recover_redo ht hc hobj hp hpayload hredo hcommit
    exact ⟨after, hrec, hj, .inr (hfinal.trans himage.symm),
      hafter after hsz (hfinal.trans himage.symm)⟩

/-! ### A small volume -/

/-- An image that is zero but for some byte strings. -/
def sparse (parts : List (ℕ × List UInt8)) : Image := fun a ↦
  (parts.findSome? fun p ↦ if p.1 ≤ a ∧ a < p.1 + p.2.length then p.2[a - p.1]? else none).getD 0

/-- The blocks of a small volume of sixteen blocks of 512 bytes: the volume header is in block 2,
the allocation file in block 3, the catalogue in blocks 4 and 5, the alternate header in block 14.
The catalogue has one file, whose data fork has the given descriptors. -/
def smallBlock (attributes journalInfo free : UInt8) (bitmap extents : List UInt8) (total : UInt8) :
    ℕ → List (ℕ × List UInt8)
  | 2 => [(0, [0x48, 0x2B, 0, 4, 0, 0, attributes]), (15, [journalInfo]), (42, [2]), (47, [16]),
      (51, [free]), (118, [2]), (127, [1]), (131, [3]), (135, [1]), (278, [4]), (287, [2]),
      (291, [4]), (295, [2])]
  | 3 => [(0, bitmap)]
  | 4 => [(27, [1]), (32, [2]), (39, [2])]
  | 5 => [(8, [0xFF, 0, 0, 1]), (14, [0, 8, 0, 0, 0, 2, 0, 1, 0, 65, 0, 2]), (35, [16]),
      (118, [2 * total]), (127, [total]), (128, extents), (508, [1, 16, 0, 14])]
  | 14 => [(0, [0x48, 0x2B]), (51, [free])]
  | _ => []

/-- The image of the small volume. -/
def smallImage (attributes journalInfo free : UInt8) (bitmap extents : List UInt8) (total : UInt8) :
    Image := fun a ↦
  sparse (smallBlock attributes journalInfo free bitmap extents total (a / 512)) (a % 512)

/-- The small volume with a fork in blocks 8 and 10. -/
def smallDisk : Disk Transaction where
  size := 8192
  image := smallImage 1 0 6 [0xFC, 0xA3] [0, 0, 0, 8, 0, 0, 0, 1, 0, 0, 0, 10, 0, 0, 0, 1] 2
  journal := none
  log := []

/-- What the engine reads of the header of the small volume. -/
def smallVol (free : ℕ) (bitmap : List UInt8) : Vol where
  signature := [0x48, 0x2B]
  createDate := 0
  blockSize := 512
  totalBlocks := 16
  freeBlocks := free
  allocationFork := ⟨512, 512, 1, [⟨3, 1⟩]⟩
  extentsFork := ⟨512, 0, 0, []⟩
  catalogFork := ⟨512, 1024, 2, [⟨4, 2⟩]⟩
  bitmap := bitmap
  overflow := []

/-- The catalogue record of the file. -/
def smallRecord (m : Image) : TreeRecord :=
  ⟨⟨512, 1024, 2, [⟨4, 2⟩]⟩, 526, (⟨512, 1024, 2, [⟨4, 2⟩]⟩ : ForkMap).bytesAt m 526 258⟩

/-- The fork of the small volume. -/
def smallFork : ForkObject where
  path := [65]
  fileId := 16
  forkType := 0
  logicalSize := 1024
  totalBlocks := 2
  descriptors := [descriptorAt (smallRecord smallDisk.image) 114,
    descriptorAt (smallRecord smallDisk.image) 122]

/-- The headers of a volume of this size are in blocks 2 and 14. -/
theorem small_headers {used : List ℕ} {total : ℕ} {bitmap : List UInt8}
    (h : ∀ b ∈ [2, 14], b ∉ used ∧ (b < total → Vol.bitOf bitmap b = true)) (a : ℕ)
    (ha : IsHeaderByte 8192 a) :
    a / 512 ∉ used ∧ (a / 512 < total → Vol.bitOf bitmap (a / 512) = true) := by
  unfold IsHeaderByte at ha
  have hblock : a / 512 = 2 ∨ a / 512 = 14 := by omega
  exact h _ (by simpa using hblock)

theorem consistent_small : Consistent smallDisk (smallVol 6 [0xFC, 0xA3]) [smallFork] where
  opened := by decide +kernel
  objects := by decide +kernel
  copies := by decide
  extentsTree := by decide +kernel
  catalogTree := by decide +kernel
  disjoint := by decide +kernel
  inUse := by decide +kernel
  headers := small_headers (by decide +kernel)

/-- The fork moves to blocks 6 and 7. -/
theorem move_recoverable_small : ∃ txn,
    prepareMove smallDisk (smallVol 6 [0xFC, 0xA3]) smallFork 6 = .ok txn ∧
    ∃ done acts, moveOne smallDisk (smallVol 6 [0xFC, 0xA3]) smallFork 6 = .ok done ∧
      done.log = smallDisk.log ++ acts ∧
      ∀ img j, IsCrashState 1 smallDisk.image smallDisk.journal acts img j →
        (j = none ∧ (img = smallDisk.image ∨ img = done.image) ∧
          Readable ⟨smallDisk.size, img, j, []⟩ 16 0 (smallFork.content 512 smallDisk.image)) ∨
        ∃ after, recover ⟨smallDisk.size, img, j, []⟩ = .ok after ∧ after.journal = none ∧
          (openVolume after false = .ok (smallVol 6 [0xFC, 0xA3]) ∧
              (smallVol 6 [0xFC, 0xA3]).objects after = .ok [smallFork] ∧
              (∀ a, a / 512 ∉ txn.dst → after.image a = smallDisk.image a) ∨
            after.image = done.image) ∧
          Readable after 16 0 (smallFork.content 512 smallDisk.image) := by
  have hok : (prepareMove smallDisk (smallVol 6 [0xFC, 0xA3]) smallFork 6).toOption.isSome := by
    decide +kernel
  rcases hprep : prepareMove smallDisk (smallVol 6 [0xFC, 0xA3]) smallFork 6 with e | txn
  · rw [hprep] at hok
    cases hok
  · exact ⟨txn, rfl, move_recoverable smallDisk _ [smallFork] smallFork 6 txn consistent_small
      mem_cons_self hprep rfl⟩

end LinuxDefragger.HfsPlus
