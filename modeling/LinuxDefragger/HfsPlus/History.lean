import LinuxDefragger.HfsPlus.References

/-!
# Histories of a volume

A volume is defragmented and compacted round by round, and any round may be cut short by a crash;
after a crash a journal, if there is one, is recovered before the next round. `forks_survive` says
that no such history loses a fork, and that every crash in it can be recovered.
-/

open Except List Storage

namespace LinuxDefragger.HfsPlus

variable {disk disk' done : Disk Transaction} {vol : Vol} {objs : List ForkObject}
  {obj : ForkObject}
  {start : ℕ}

/-! ### One move -/

/-- A volume that changed in free blocks only is consistent as before. -/
theorem Consistent.of_free (hc : Consistent disk vol objs) (hsize : disk'.size = disk.size)
    {free : List ℕ} (hfree : ∀ b ∈ free, b < vol.totalBlocks ∧ Vol.bitOf vol.bitmap b = false)
    (hsame : ∀ a, a / vol.blockSize ∉ free → disk'.image a = disk.image a) :
    Consistent disk' vol objs := by
  obtain ⟨hopen, hobjs, -⟩ := hc.same_of_free hsize hfree hsame
  have hused (a : ℕ) (ha : a / vol.blockSize ∈ usedBlocks vol objs) :
      disk'.image a = disk.image a :=
    hsame a fun h ↦ hc.not_mem_of_free (hfree _ h).2 ha
  have hconf : Confined disk disk' vol := by
    refine ⟨hsize, fun i hi _ ↦ hsame _ fun h ↦ ?_, fun rs _ x a hx _ ↦ hused a ?_,
      fun rs _ x a hx _ ↦ hused a ?_⟩
    · obtain ⟨hlt, hbit⟩ := hfree _ h
      rw [(hc.headers (1024 + i) (.inl ⟨by omega, by omega⟩)).2 hlt] at hbit
      cases hbit
    · exact mem_used_of_special.2.1 (hc.mem_addrs.2.1.1 (mem_of_getElem? hx))
    · exact mem_used_of_special.2.2 (hc.mem_addrs.2.2.1 (mem_of_getElem? hx))
  obtain ⟨hext, hcat⟩ := hconf.trees hc
  exact
    { hc with
      opened := hopen
      objects := hobjs
      copies := hsize ▸ hc.copies
      extentsTree := hext
      catalogTree := hcat
      headers := hsize ▸ hc.headers }

/-- **A move keeps every fork readable**, the one it moves and the others. -/
theorem Consistent.readable_move (hc : Consistent disk vol objs) (hobj : obj ∈ objs)
    (h : moveOne disk vol obj start = .ok done) {o : ForkObject} (ho : o ∈ objs) :
    Readable done o.fileId o.forkType (o.content vol.blockSize disk.image) := by
  by_cases heq : o = obj
  · subst heq
    obtain ⟨txn, hprep, -⟩ := bind_eq_ok.1 h
    obtain ⟨done', hdone, hsize, -, himage, -⟩ := moveOne_eq_ok hc hobj hprep
    obtain rfl := ok.inj (h.symm.trans hdone)
    obtain ⟨stage, final, hp⟩ := prepareMove_eq_ok hprep
    obtain ⟨gs, g, ht⟩ := hp.exists_target hc hobj (hc.totalBlocks_ne_zero hobj)
    exact readable_final ht hc hobj hp hsize himage
  obtain ⟨objs', dst, he⟩ := hc.move hobj h
  obtain ⟨o', ho', hr, hblocks⟩ := exists_of_mem_forall₂ he.forks.flip ho
  rw [movedBlocks, if_neg heq] at hblocks
  refine ⟨_, objs', he.consistent.opened, he.consistent.objects, o', ho', hr.fileId,
    hr.forkType, ?_⟩
  rw [ForkObject.content, hblocks]
  refine map_congr_left fun a ha ↦ ?_
  -- a byte of another fork is in none of the places that a move writes
  have hmem := (mem_blockAddrs hc.blockSize_pos).1 ha
  have hfork := mem_flatMap.2 ⟨o, ho, hmem⟩
  have hspecial (hs : a / vol.blockSize ∈ vol.specialBlocks) : False :=
    (nodup_append.1 hc.disjoint).2.2 _ hs _ hfork rfl
  rw [Vol.specialBlocks, mem_append, mem_append] at hspecial
  rcases he.bytes a with hsame | hdst | hbm | hhead | ⟨ref, href, i, hi, hget⟩
  · exact hsame
  · exact (hc.not_mem_of_free (he.free _ hdst).2 (mem_append_right _ hfork)).elim
  · exact (hspecial (.inl (.inl (hc.div_of_mem_bitmapAddrs hbm)))).elim
  · exact ((hc.headers a (hc.isHeaderByte hhead)).1 (mem_append_right _ hfork)).elim
  · rcases hc.div_of_mem_metaAddrs hobj (mem_flatMap.2 ⟨ref, href, mem_of_getElem? hget⟩) with hm |
      hm
    · exact (hspecial (.inl (.inr hm))).elim
    · exact (hspecial (.inr hm)).elim

/-- What is done with the disk that a crash leaves: a journal is recovered. -/
def restart (disk : Disk Transaction) : Except PyError (Disk Transaction) :=
  if disk.journal = none then .ok disk else recover disk

/-- The volume is consistent, has no journal, and the forks of an earlier state of it are
readable. -/
def Intact (disk₀ : Disk Transaction) (vol₀ : Vol) (objs₀ : List ForkObject)
    (disk : Disk Transaction) : Prop :=
  (∃ vol objs, Consistent disk vol objs) ∧ disk.journal = none ∧
    ∀ o ∈ objs₀, Readable disk o.fileId o.forkType (o.content vol₀.blockSize disk₀.image)

theorem Intact.trans {disk₀ : Disk Transaction} {vol₀ : Vol} {objs₀ : List ForkObject}
    (h : Intact disk₀ vol₀ objs₀ disk) (hc : Consistent disk vol objs)
    (h' : Intact disk vol objs disk') : Intact disk₀ vol₀ objs₀ disk' := by
  refine ⟨h'.1, h'.2.1, fun o ho ↦ ?_⟩
  obtain ⟨vol', objs', hopen, hobjs, o', ho', hid, htype, hcontent⟩ := h.2.2 o ho
  obtain rfl := ok.inj (hc.opened.symm.trans hopen)
  obtain rfl := ok.inj (hc.objects.symm.trans hobjs)
  rw [← hid, ← htype, ← hcontent]
  exact h'.2.2 o' ho'

/-- **A crash during a move** can be recovered, and loses no fork. -/
theorem Consistent.crash_move (hc : Consistent disk vol objs) (hjournal : disk.journal = none)
    (hobj : obj ∈ objs) (h : moveOne disk vol obj start = .ok done)
    {acts : List (Action Transaction)} (hlog : done.log = disk.log ++ acts) {img : Image}
    {j : Option Transaction} (hcrash : IsCrashState 1 disk.image disk.journal acts img j) :
    ∃ after, restart ⟨disk.size, img, j, []⟩ = .ok after ∧ Intact disk vol objs after := by
  obtain ⟨txn, hprep, -⟩ := bind_eq_ok.1 h
  obtain ⟨done', hdone, hsize, -, himage, hlog'⟩ := moveOne_eq_ok hc hobj hprep
  obtain rfl := ok.inj (h.symm.trans hdone)
  obtain rfl := append_cancel_left (hlog.symm.trans hlog')
  obtain ⟨stage, final, hp⟩ := prepareMove_eq_ok hprep
  obtain ⟨gs, g, ht⟩ := hp.exists_target hc hobj (hc.totalBlocks_ne_zero hobj)
  obtain ⟨objs', dst, he⟩ := hc.move hobj h
  have hpayload := covers_payload hc txn obj
  -- the two disks that recovery may lead to
  have hbefore (after : Disk Transaction) (hs : after.size = disk.size) (hj : after.journal = none)
      (hb : ∀ a, a / vol.blockSize ∉ txn.dst → after.image a = disk.image a) :
      Intact disk vol objs after :=
    ⟨⟨vol, objs, hc.of_free hs hp.free hb⟩, hj, fun o ho ↦ readable_of_free hc ho hs hp.free hb⟩
  have hafter (after : Disk Transaction) (hs : after.size = disk.size) (hj : after.journal = none)
      (hd : after.image = done.image) : Intact disk vol objs after := by
    have hs' := hs.trans hsize.symm
    have hmoved : Intact disk vol objs done :=
      ⟨⟨_, objs', he.consistent⟩, he.journal, fun o ho ↦ hc.readable_move hobj h ho⟩
    refine hmoved.trans he.consistent ⟨⟨vol.reread done.image, objs', ?_⟩, hj, fun o ho ↦ ?_⟩
    · exact he.consistent.of_free hs' (forall_mem_nil _) fun a _ ↦ congrFun hd a
    · exact readable_of_free he.consistent ho hs' (forall_mem_nil _) fun a _ ↦ congrFun hd a
  rcases PatchMove.crash_cases (ht.sound _ hpayload) hcrash with
    ⟨rfl, rfl⟩ | ⟨rfl, rfl⟩ | ⟨s, rfl, hcases⟩
  · exact ⟨_, if_pos hjournal, hbefore _ rfl hjournal fun a _ ↦ rfl⟩
  · exact ⟨_, if_pos rfl, hafter _ rfl rfl himage.symm⟩
  rcases hcases with ⟨hs₁, hs₂, hundo⟩ | ⟨hcommit, hredo⟩
  · obtain ⟨after, hrec, hs, hj, hb⟩ := recover_undo ht hc hobj hp hpayload hundo hs₁ hs₂
    exact ⟨after, hrec, hbefore after hs hj hb⟩
  · obtain ⟨after, hrec, hs, hj, hd⟩ := recover_redo ht hc hobj hp hpayload hredo hcommit
    exact ⟨after, hrec, hafter after hs hj (hd.trans himage.symm)⟩

/-! ### Histories -/

theorem moveRound_move {mode : Mode} (hc : Consistent disk vol objs)
    (h : moveRound mode disk = .ok (some done)) :
    ∃ obj ∈ objs, ∃ start, moveOne disk vol obj start = .ok done := by
  rw [moveRound, hc.opened, ok_bind, hc.objects, ok_bind, bind_eq_ok] at h
  obtain ⟨_ | ⟨obj, destination⟩, hselect, h⟩ := h
  · cases h
  obtain ⟨done', hdone, h⟩ := bind_eq_ok.1 h
  obtain rfl := Option.some.inj (ok.inj h)
  exact ⟨obj, selectMove_mem hselect, destination, hdone⟩

/-- A round of an operation is cut short: some of its writes have reached the disk. -/
def CutShort (mode : Mode) (disk crashed : Disk Transaction) : Prop :=
  ∃ done acts, moveRound mode disk = .ok (some done) ∧ done.log = disk.log ++ acts ∧
    crashed.size = disk.size ∧ crashed.log = [] ∧
      IsCrashState 1 disk.image disk.journal acts crashed.image crashed.journal

/-- The disks that rounds, crashes and recoveries lead to. -/
inductive History (disk₀ : Disk Transaction) : Disk Transaction → Prop
  | start : History disk₀ disk₀
  | round {mode : Mode} {disk done : Disk Transaction} (h : History disk₀ disk)
      (hround : moveRound mode disk = .ok (some done)) : History disk₀ done
  | crash {mode : Mode} {disk crashed after : Disk Transaction} (h : History disk₀ disk)
      (hcrash : CutShort mode disk crashed) (hafter : restart crashed = .ok after) :
      History disk₀ after

/-- **A round, cut short or not**, keeps a volume intact. -/
theorem Consistent.round {mode : Mode} (hc : Consistent disk vol objs)
    (hjournal : disk.journal = none) :
    (∀ done, moveRound mode disk = .ok (some done) → Intact disk vol objs done) ∧
      ∀ crashed, CutShort mode disk crashed →
        ∃ after, restart crashed = .ok after ∧ Intact disk vol objs after := by
  constructor
  · intro done hround
    obtain ⟨obj, hobj, start, hdone⟩ := moveRound_move hc hround
    obtain ⟨objs', dst, he⟩ := hc.move hobj hdone
    exact ⟨⟨_, objs', he.consistent⟩, he.journal, fun o ho ↦ hc.readable_move hobj hdone ho⟩
  · rintro ⟨size, img, j, log⟩ ⟨done, acts, hround, hlog, rfl, rfl, hcrash⟩
    obtain ⟨obj, hobj, start, hdone⟩ := moveRound_move hc hround
    exact hc.crash_move hjournal hobj hdone hlog hcrash

theorem History.intact {disk₀ : Disk Transaction} {vol₀ : Vol} {objs₀ : List ForkObject}
    (hc : Consistent disk₀ vol₀ objs₀) (hjournal : disk₀.journal = none) (h : History disk₀ disk) :
    Intact disk₀ vol₀ objs₀ disk := by
  induction h with
  | start =>
    exact ⟨⟨vol₀, objs₀, hc⟩, hjournal, fun o ho ↦
      ⟨vol₀, objs₀, hc.opened, hc.objects, o, ho, rfl, rfl, rfl⟩⟩
  | round _ hround ih =>
    obtain ⟨vol, objs, hc'⟩ := ih.1
    exact ih.trans hc' ((hc'.round ih.2.1).1 _ hround)
  | crash _ hcrash hafter ih =>
    obtain ⟨vol, objs, hc'⟩ := ih.1
    obtain ⟨after, hok, hintact⟩ := (hc'.round ih.2.1).2 _ hcrash
    obtain rfl := ok.inj (hafter.symm.trans hok)
    exact ih.trans hc' hintact

/-- **No history loses a fork.** After any number of rounds of defragmenting and compacting, any of
them cut short by a crash that left any of the unsynchronised bytes, the volume is consistent and
every fork of the first volume can be read with its contents; and a crash in the next round can be
recovered. -/
theorem forks_survive (disk₀ disk : Disk Transaction) (vol₀ : Vol) (objs₀ : List ForkObject)
    (hc : Consistent disk₀ vol₀ objs₀) (hjournal : disk₀.journal = none) (h : History disk₀ disk) :
    (∃ vol objs, Consistent disk vol objs) ∧ disk.journal = none ∧
      (∀ o ∈ objs₀, Readable disk o.fileId o.forkType (o.content vol₀.blockSize disk₀.image)) ∧
      ∀ mode crashed, CutShort mode disk crashed → ∃ after, restart crashed = .ok after := by
  obtain ⟨⟨vol, objs, hc'⟩, hj, hread⟩ := h.intact hc hjournal
  refine ⟨⟨vol, objs, hc'⟩, hj, hread, fun mode crashed hcrash ↦ ?_⟩
  obtain ⟨after, hafter, -⟩ := (hc'.round hj).2 crashed hcrash
  exact ⟨after, hafter⟩

theorem forks_survive_asideDisk : ∃ done, moveRound .compact asideDisk = .ok (some done) ∧
    Readable done 16 0 ((journaledFork asideDisk.image).content 512 asideDisk.image) := by
  have hok : (moveRound .compact asideDisk).toOption.map Option.isSome = some true := by
    decide +kernel
  rcases hround : moveRound .compact asideDisk with e | (_ | done)
  · rw [hround] at hok
    cases hok
  · rw [hround] at hok
    cases hok
  · obtain ⟨-, -, hread, -⟩ := forks_survive asideDisk done _ _ consistent_asideDisk rfl
      (.round .start hround)
    exact ⟨done, rfl, hread _ mem_cons_self⟩

end LinuxDefragger.HfsPlus
