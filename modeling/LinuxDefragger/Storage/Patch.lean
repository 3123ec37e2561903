import LinuxDefragger.Storage.Disk

/-!
# Patches and the transactions made of them

A **patch** is a place on a disk with the bytes it holds and the bytes it is to hold. A program that
knows all the patches of a transaction beforehand can write them to a journal and, after a crash,
apply all of them either way.

`PatchMove` is such a transaction: data is copied to free space (`payload`), some metadata is
prepared for it (`stage`), the metadata that decides is switched (`switch`), and the rest is brought
in line (`finish`); each step is durable before the journal says so.

`PatchMove.Sound` says what makes this work, and `PatchMove.crash_cases` what a crash can leave: a
state that undoing leads back to the one before, or a state that redoing completes, and the journal
and the bytes of `switch` tell which.
-/

open Function List

namespace Storage

/-- Bytes of a disk to be replaced. -/
structure Patch where
  offset : ℕ
  old : List UInt8
  new : List UInt8
  deriving DecidableEq, Repr

namespace Patch

/-- The write that undoes a patch. -/
def oldWrite (p : Patch) : Write := ⟨p.offset, p.old⟩

/-- The write that makes a patch. -/
def newWrite (p : Patch) : Write := ⟨p.offset, p.new⟩

/-- The patch changes address `a`. -/
def Covers (p : Patch) (a : ℕ) : Prop := p.newWrite.Covers a

/-- The patch leads from one image to another. -/
structure Between (m g : Image) (p : Patch) : Prop where
  length : p.old.length = p.new.length
  old : p.old = m.read p.offset p.new.length
  new : p.new = g.read p.offset p.new.length

theorem Between.apply_new {m g x : Image} {p : Patch} (h : p.Between m g) {a : ℕ}
    (hc : p.newWrite.Covers a) : p.newWrite.apply x a = g a := by
  obtain ⟨h₁, h₂⟩ := hc
  have hlt : a - p.offset < p.new.length := Nat.sub_lt_left_of_lt_add h₁ h₂
  have hget : p.new[a - p.offset] = g a := by
    have hread := getElem_of_eq h.new hlt
    rw [hread, Image.getElem_read]
    congr 1
    exact Nat.add_sub_cancel' h₁
  exact (Image.write_apply_of_mem h₁ hlt).trans hget

theorem Between.covers_old {m g : Image} {p : Patch} (h : p.Between m g) {a : ℕ} :
    p.oldWrite.Covers a ↔ p.Covers a := by
  simp only [Covers, Write.Covers, oldWrite, newWrite, h.length]

theorem Between.apply_old {m g x : Image} {p : Patch} (h : p.Between m g) {a : ℕ}
    (hc : p.oldWrite.Covers a) : p.oldWrite.apply x a = m a := by
  obtain ⟨h₁, h₂⟩ := hc
  have hlt : a - p.offset < p.old.length := Nat.sub_lt_left_of_lt_add h₁ h₂
  have hget : p.old[a - p.offset] = m a := by
    have hread := getElem_of_eq h.old hlt
    rw [hread, Image.getElem_read]
    congr 1
    exact Nat.add_sub_cancel' h₁
  exact (Image.write_apply_of_mem h₁ hlt).trans hget

/-- Every byte of the patch changes. -/
def Sharp (p : Patch) : Prop := ∀ (i : ℕ) (b : UInt8), p.old[i]? = some b → p.new[i]? ≠ some b

theorem Between.ne_of_sharp {m g : Image} {p : Patch} (h : p.Between m g) (hs : p.Sharp) {a : ℕ}
    (hc : p.Covers a) : m a ≠ g a := by
  obtain ⟨h₁, h₂⟩ := hc
  have hlt : a - p.offset < p.new.length := Nat.sub_lt_left_of_lt_add h₁ h₂
  have hget (x : Image) : (x.read p.offset p.new.length)[a - p.offset]? = some (x a) := by
    rw [getElem?_eq_getElem (by rwa [Image.read_length]), Image.getElem_read]
    congr 2
    exact Nat.add_sub_cancel' h₁
  have hne := hs (a - p.offset) (m a) (by rw [h.old, hget])
  rw [h.new, hget] at hne
  exact fun heq ↦ hne (congrArg some heq.symm)

end Patch

/-! ### Lists of patches -/

section Lists

variable {m g x : Image} {ps : List Patch} {a : ℕ}

/-- Some patch of a list changes address `a`. -/
def PatchesCover (ps : List Patch) (a : ℕ) : Prop := ∃ p ∈ ps, p.Covers a

theorem patchesCover_append {ps qs : List Patch} {a : ℕ} :
    PatchesCover (ps ++ qs) a ↔ PatchesCover ps a ∨ PatchesCover qs a := by
  simp only [PatchesCover, mem_append, or_and_right, exists_or]

section

variable (h : ∀ p ∈ ps, p.Between m g)
include h

/-- **Making all patches of a list.** -/
theorem applyAll_news (x : Image) (a : ℕ) :
    (PatchesCover ps a → applyAll x (ps.map Patch.newWrite) a = g a) ∧
      (¬ PatchesCover ps a → applyAll x (ps.map Patch.newWrite) a = x a) := by
  have hall := applyAll_of_consistent (g := g) x a (show ∀ w ∈ ps.map Patch.newWrite, _ by
    intro w hw m' hc
    obtain ⟨p, hp, rfl⟩ := mem_map.1 hw
    exact (h p hp).apply_new hc)
  have hiff : (∃ w ∈ ps.map Patch.newWrite, w.Covers a) ↔ PatchesCover ps a := by
    simp [PatchesCover, Patch.Covers]
  constructor
  · intro hc
    rw [hall, if_pos (hiff.2 hc)]
  · intro hc
    rw [hall, if_neg fun h' ↦ hc (hiff.1 h')]

/-- **Undoing all patches of a list.** -/
theorem applyAll_olds (x : Image) (a : ℕ) :
    (PatchesCover ps a → applyAll x (ps.map Patch.oldWrite) a = m a) ∧
      (¬ PatchesCover ps a → applyAll x (ps.map Patch.oldWrite) a = x a) := by
  have hall := applyAll_of_consistent (g := m) x a (show ∀ w ∈ ps.map Patch.oldWrite, _ by
    intro w hw m' hc
    obtain ⟨p, hp, rfl⟩ := mem_map.1 hw
    exact (h p hp).apply_old hc)
  have hiff : (∃ w ∈ ps.map Patch.oldWrite, w.Covers a) ↔ PatchesCover ps a := by
    constructor
    · rintro ⟨w, hw, hc⟩
      obtain ⟨p, hp, rfl⟩ := mem_map.1 hw
      exact ⟨p, hp, (h p hp).covers_old.1 hc⟩
    · rintro ⟨p, hp, hc⟩
      exact ⟨_, mem_map_of_mem hp, (h p hp).covers_old.2 hc⟩
  constructor
  · intro hc
    rw [hall, if_pos (hiff.2 hc)]
  · intro hc
    rw [hall, if_neg fun h' ↦ hc (hiff.1 h')]

/-- Of patches a crash cut short, every byte is the one before or the new one. -/
theorem keepPieces_news {sec : ℕ} {keep : ℕ → ℕ → Bool} (x : Image)
    (a : ℕ) : keepPieces sec keep 0 (ps.map Patch.newWrite) x a = x a ∨
      PatchesCover ps a ∧ keepPieces sec keep 0 (ps.map Patch.newWrite) x a = g a := by
  rcases keepPieces_apply sec keep 0 (ps.map Patch.newWrite) x a with hx | ⟨w, hw, hc, hx⟩
  · exact .inl hx
  · obtain ⟨p, hp, rfl⟩ := mem_map.1 hw
    exact .inr ⟨⟨p, hp, hc⟩, hx.trans ((h p hp).apply_new hc)⟩

end

end Lists

/-! ### Patches of scattered bytes -/

/-- The image with `data` stored at the addresses of a list. -/
def Image.put (m : Image) (addrs : List ℕ) (data : List UInt8) : Image :=
  (addrs.zip data).foldl (fun m p ↦ Function.update m p.1 p.2) m

theorem Image.put_apply_of_not_mem {addrs : List ℕ} (m : Image) (data : List UInt8) {a : ℕ}
    (h : a ∉ addrs) : m.put addrs data a = m a := by
  induction addrs generalizing m data with
  | nil => rfl
  | cons b addrs ih =>
    cases data with
    | nil => rfl
    | cons d data =>
      rw [mem_cons, not_or] at h
      exact (ih _ data h.2).trans (update_of_ne h.1 ..)

theorem Image.put_apply_getElem {addrs : List ℕ} (m : Image) {data : List UInt8}
    (hnd : addrs.Nodup) (hlen : addrs.length = data.length) {k : ℕ} (hk : k < addrs.length) :
    m.put addrs data addrs[k] = data[k] := by
  induction addrs generalizing m data k with
  | nil => simp at hk
  | cons b addrs ih =>
    cases data with
    | nil => simp at hlen
    | cons d data =>
      have hnd' := nodup_cons.1 hnd
      cases k with
      | zero =>
        refine (Image.put_apply_of_not_mem (update m b d) data hnd'.1).trans ?_
        exact update_self ..
      | succ k => exact ih _ hnd'.2 (Nat.succ.inj hlen) (Nat.lt_of_succ_lt_succ hk)

/-- What was stored is there. -/
theorem Image.map_put {addrs : List ℕ} (m : Image) {data : List UInt8} (hnd : addrs.Nodup)
    (hlen : addrs.length = data.length) : addrs.map (m.put addrs data) = data := by
  refine ext_getElem (by rw [length_map, hlen]) fun k h₁ h₂ ↦ ?_
  rw [getElem_map]
  exact m.put_apply_getElem hnd hlen _

/-- The patches store `data` at the addresses of a list on an image: each is a part of it, and what
none of them covers is there already. -/
structure PatchesPut (m : Image) (ps : List Patch) (addrs : List ℕ) (data : List UInt8) : Prop where
  length : addrs.length = data.length
  part : ∀ p ∈ ps, p.old.length = p.new.length ∧ p.old = m.read p.offset p.new.length ∧
    ∃ pos : ℕ, ∀ i, ∀ hi : i < p.new.length, addrs[pos + i]? = some (p.offset + i) ∧
      data[pos + i]? = some p.new[i]
  rest : ∀ (k : ℕ) a b, addrs[k]? = some a → data[k]? = some b → PatchesCover ps a ∨ m a = b

namespace PatchesPut

variable {m g : Image} {ps qs : List Patch} {addrs addrs' : List ℕ} {data data' : List UInt8}

theorem nil (m : Image) : PatchesPut m [] [] [] := ⟨rfl, by simp, by simp⟩

/-- One patch of a range. -/
theorem one (m : Image) (offset : ℕ) (new : List UInt8) :
    PatchesPut m [⟨offset, m.read offset new.length, new⟩] (range' offset new.length) new := by
  refine ⟨length_range', fun p hp ↦ ?_, fun k a b ha hb ↦ .inl ?_⟩
  · rw [mem_singleton.1 hp]
    refine ⟨Image.read_length .., rfl, 0, fun i hi ↦ ?_⟩
    simp only at hi
    rw [Nat.zero_add, getElem?_range' hi, Nat.one_mul, getElem?_eq_getElem hi]
    exact ⟨rfl, rfl⟩
  · exact ⟨_, mem_singleton_self _, mem_range'_1.1 (mem_of_getElem? ha)⟩

section

variable (h : PatchesPut m ps addrs data)
include h

theorem append (h' : PatchesPut m qs addrs' data') :
    PatchesPut m (ps ++ qs) (addrs ++ addrs') (data ++ data') where
  length := by rw [length_append, length_append, h.length, h'.length]
  part p hp := by
    rcases mem_append.1 hp with hp | hp
    · obtain ⟨hlen, hold, pos, hpos⟩ := h.part p hp
      refine ⟨hlen, hold, pos, fun i hi ↦ ?_⟩
      obtain ⟨h₁, h₂⟩ := hpos i hi
      exact ⟨getElem?_append_left (List.getElem?_eq_some_iff.1 h₁).1 ▸ h₁,
        getElem?_append_left (List.getElem?_eq_some_iff.1 h₂).1 ▸ h₂⟩
    · obtain ⟨hlen, hold, pos, hpos⟩ := h'.part p hp
      refine ⟨hlen, hold, addrs.length + pos, fun i hi ↦ ?_⟩
      obtain ⟨h₁, h₂⟩ := hpos i hi
      constructor
      · rw [Nat.add_assoc, getElem?_append_right (Nat.le_add_right ..), Nat.add_sub_cancel_left, h₁]
      · rw [Nat.add_assoc, h.length, getElem?_append_right (Nat.le_add_right ..),
          Nat.add_sub_cancel_left, h₂]
  rest k a b ha hb := by
    by_cases hk : k < addrs.length
    · rw [getElem?_append_left hk] at ha
      rw [getElem?_append_left (h.length ▸ hk)] at hb
      rcases h.rest k a b ha hb with ⟨p, hp, hc⟩ | hm
      · exact .inl ⟨p, mem_append_left _ hp, hc⟩
      · exact .inr hm
    · rw [getElem?_append_right (Nat.le_of_not_lt hk)] at ha
      rw [getElem?_append_right (h.length ▸ Nat.le_of_not_lt hk), ← h.length] at hb
      rcases h'.rest _ a b ha hb with ⟨p, hp, hc⟩ | hm
      · exact .inl ⟨p, mem_append_right _ hp, hc⟩
      · exact .inr hm

/-- The patches change bytes at the listed addresses only. -/
theorem mem_of_covers {a : ℕ} (hc : PatchesCover ps a) : a ∈ addrs := by
  obtain ⟨p, hp, h₁, h₂⟩ := hc
  obtain ⟨-, -, pos, hpos⟩ := h.part p hp
  have hi : a - p.offset < p.new.length := Nat.sub_lt_left_of_lt_add h₁ h₂
  have hmem := mem_of_getElem? (hpos _ hi).1
  rwa [show p.offset + (a - p.offset) = a from Nat.add_sub_cancel' h₁] at hmem

/-- The patches lead to every image that has the data at the addresses. -/
theorem between (hg : ∀ (k : ℕ) a b, addrs[k]? = some a → data[k]? = some b → g a = b) :
    ∀ p ∈ ps, p.Between m g := by
  intro p hp
  obtain ⟨hlen, hold, pos, hpos⟩ := h.part p hp
  refine ⟨hlen, hold, ext_getElem (by simp) fun i h₁ h₂ ↦ ?_⟩
  rw [Image.getElem_read]
  exact (hg _ _ _ (hpos i h₁).1 (hpos i h₁).2).symm

end

/-- Bytes that are there already need no patch. -/
theorem same (h : addrs.map m = data) : PatchesPut m [] addrs data := by
  refine ⟨by rw [← h, length_map], by simp, fun k a b ha hb ↦ .inr ?_⟩
  rw [← h, getElem?_map, ha, Option.map_some] at hb
  exact Option.some.inj hb

/-- The patches lead to the image with the data. -/
theorem between_put (h : PatchesPut m ps addrs data) (hnd : addrs.Nodup) :
    ∀ p ∈ ps, p.Between m (m.put addrs data) := by
  refine h.between fun k a b ha hb ↦ ?_
  obtain ⟨hk, rfl⟩ := List.getElem?_eq_some_iff.1 ha
  obtain ⟨hk', rfl⟩ := List.getElem?_eq_some_iff.1 hb
  exact m.put_apply_getElem hnd h.length hk

end PatchesPut

/-! ### Transactions -/

/-- What the journal of a transaction says. -/
inductive PatchStage
  | prepared
  | copied
  | ready
  | switching
  | switched
  | complete
  deriving DecidableEq, Repr

/-- A transaction made of patches. -/
structure PatchMove where
  payload : List Write
  stage : List Patch
  switch : List Patch
  finish : List Patch

namespace PatchMove

variable {J : Type} (t : PatchMove)

/-- What a transaction does to a disk and its journal, which is `journal s` at stage `s`. -/
def actions (journal : PatchStage → J) : List (Action J) :=
  .journal (some (journal .prepared)) ::
  (t.payload.map .write ++ .sync :: .journal (some (journal .copied)) ::
  ((t.stage.map Patch.newWrite).map .write ++ .sync :: .journal (some (journal .ready)) ::
  .journal (some (journal .switching)) ::
  ((t.switch.map Patch.newWrite).map .write ++ .sync :: .journal (some (journal .switched)) ::
  ((t.finish.map Patch.newWrite).map .write ++ .sync :: .journal (some (journal .complete)) ::
  [.journal none]))))

/-- The image of the completed transaction. -/
def final (m : Image) : Image :=
  applyAll (applyAll (applyAll (applyAll m t.payload) (t.stage.map Patch.newWrite))
    (t.switch.map Patch.newWrite)) (t.finish.map Patch.newWrite)

/-- The image after undoing. -/
def undo (img : Image) : Image :=
  applyAll (applyAll img (t.switch.map Patch.oldWrite)) (t.stage.map Patch.oldWrite)

/-- The image after redoing. -/
def redo (img : Image) : Image :=
  applyAll (applyAll img (t.switch.map Patch.newWrite)) (t.finish.map Patch.newWrite)

/-- All patches of the switch are made on an image. -/
def Switched (img : Image) : Prop := ∀ p ∈ t.switch, img.read p.offset p.new.length = p.new

/-- What makes a transaction recoverable: `m` is the image before it, `gs` and `g` are images that
hold the bytes of its second and of its fourth step. -/
structure Sound (m gs g : Image) : Prop where
  stage : ∀ p ∈ t.stage, p.Between m gs
  switch : ∀ p ∈ t.switch, p.Between m g
  finish : ∀ p ∈ t.finish, p.Between m g
  /-- the copy goes where no patch is -/
  payload : ∀ w ∈ t.payload, ∀ a, w.Covers a →
    ¬ PatchesCover t.stage a ∧ ¬ PatchesCover t.switch a ∧ ¬ PatchesCover t.finish a
  /-- whatever was prepared is brought in line at the end -/
  prepared : ∀ a, PatchesCover t.stage a → PatchesCover t.finish a
  /-- the switch does not touch what is prepared -/
  apart : ∀ a, PatchesCover t.switch a → ¬ PatchesCover t.finish a
  /-- the switch changes something -/
  changes : ∃ p ∈ t.switch, p.old ≠ p.new

variable {t} {m gs g img : Image} (h : t.Sound m gs g)
include h

/-- The image after the copy. -/
theorem applyAll_payload_of_covered {a : ℕ}
    (hc : PatchesCover t.stage a ∨ PatchesCover t.switch a ∨ PatchesCover t.finish a) :
    applyAll m t.payload a = m a := by
  refine applyAll_of_not_covers m fun w hw hcov ↦ ?_
  obtain ⟨h₁, h₂, h₃⟩ := h.payload w hw a hcov
  rcases hc with hc | hc | hc
  · exact h₁ hc
  · exact h₂ hc
  · exact h₃ hc

/-- **Redoing completes**: an image that agrees with the completed one away from the patches is
completed. -/
theorem redo_eq_final (himg : ∀ a, ¬ PatchesCover t.switch a → ¬ PatchesCover t.finish a →
      img a = applyAll m t.payload a) : t.redo img = t.final m := by
  funext a
  unfold redo final
  by_cases hf : PatchesCover t.finish a
  · rw [(applyAll_news h.finish _ a).1 hf, (applyAll_news h.finish _ a).1 hf]
  rw [(applyAll_news h.finish _ a).2 hf, (applyAll_news h.finish _ a).2 hf]
  by_cases hs : PatchesCover t.switch a
  · rw [(applyAll_news h.switch _ a).1 hs, (applyAll_news h.switch _ a).1 hs]
  rw [(applyAll_news h.switch _ a).2 hs, (applyAll_news h.switch _ a).2 hs,
    (applyAll_news h.stage _ a).2 fun hst ↦ hf (h.prepared a hst)]
  exact himg a hs hf

/-- The completed image: the target on the patches, the copy elsewhere. -/
theorem final_eq (a : ℕ) : (PatchesCover t.switch a ∨ PatchesCover t.finish a → t.final m a = g a) ∧
      (¬ PatchesCover t.switch a → ¬ PatchesCover t.finish a →
        t.final m a = applyAll m t.payload a) := by
  unfold final
  constructor
  · intro hc
    by_cases hf : PatchesCover t.finish a
    · exact (applyAll_news h.finish _ a).1 hf
    · rw [(applyAll_news h.finish _ a).2 hf]
      exact (applyAll_news h.switch _ a).1 (hc.resolve_right hf)
  · intro hs hf
    rw [(applyAll_news h.finish _ a).2 hf, (applyAll_news h.switch _ a).2 hs,
      (applyAll_news h.stage _ a).2 fun hst ↦ hf (h.prepared a hst)]

/-- **Undoing leads back**: off the patches of `stage` and `switch` the image is as it was, and on
them it becomes so. -/
theorem undo_eq (img : Image) (a : ℕ) :
    (PatchesCover t.stage a ∨ PatchesCover t.switch a → t.undo img a = m a) ∧
      (¬ PatchesCover t.stage a → ¬ PatchesCover t.switch a → t.undo img a = img a) := by
  unfold undo
  constructor
  · intro hc
    by_cases hst : PatchesCover t.stage a
    · exact (applyAll_olds h.stage _ a).1 hst
    · rw [(applyAll_olds h.stage _ a).2 hst]
      exact (applyAll_olds h.switch _ a).1 (hc.resolve_left hst)
  · intro hst hs
    rw [(applyAll_olds h.stage _ a).2 hst, (applyAll_olds h.switch _ a).2 hs]

/-- While the bytes of the switch are the old ones, the switch is not made. -/
theorem not_switched (himg : ∀ a, PatchesCover t.switch a → img a = m a) : ¬ t.Switched img := by
  intro hsw
  obtain ⟨p, hp, hne⟩ := h.changes
  have hb := h.switch p hp
  have hread : img.read p.offset p.new.length = m.read p.offset p.new.length :=
    Image.read_congr fun i hi ↦ himg _ ⟨p, hp, ⟨Nat.le_add_right .., Nat.add_lt_add_left hi _⟩⟩
  exact hne (hb.old.trans (hread.symm.trans (hsw p hp)))

/-- What a crash can leave at an address: where nothing is copied to, the byte before, or a new byte
of a patch there. -/
def CrashByte (t : PatchMove) (m gs g img : Image) (a : ℕ) : Prop :=
  (∃ w ∈ t.payload, w.Covers a) ∨ img a = m a ∨ (PatchesCover t.stage a ∧ img a = gs a) ∨
    ((PatchesCover t.switch a ∨ PatchesCover t.finish a) ∧ img a = g a)

/-- A crash before the commit: undoing leads back, but for what was copied. -/
structure Undoable (t : PatchMove) (m gs g img : Image) : Prop where
  bytes : ∀ a, t.CrashByte m gs g img a
  unswitched : ¬ t.Switched img
  undo : ∀ a, (¬ ∃ w ∈ t.payload, w.Covers a) → t.undo img a = m a

/-- A crash after the commit: redoing completes. -/
structure Redoable (t : PatchMove) (m gs g img : Image) : Prop where
  bytes : ∀ a, t.CrashByte m gs g img a
  redo : t.redo img = t.final m

/-- Every byte of an image is the one after the copy, or a new byte of a patch there. -/
def Between (t : PatchMove) (m gs g img : Image) : Prop :=
  ∀ a, img a = applyAll m t.payload a ∨ (PatchesCover t.stage a ∧ img a = gs a) ∨
    ((PatchesCover t.switch a ∨ PatchesCover t.finish a) ∧ img a = g a)

omit h in
theorem applyAll_payload_cases (t : PatchMove) (m : Image) (a : ℕ) :
    applyAll m t.payload a = m a ∨ ∃ w ∈ t.payload, w.Covers a := by
  by_cases hw : ∃ w ∈ t.payload, w.Covers a
  · exact .inr hw
  · push Not at hw
    exact .inl (applyAll_of_not_covers m hw)

omit h in
theorem Between.crashByte (h : t.Between m gs g img) (a : ℕ) : t.CrashByte m gs g img a := by
  rcases h a with hi | hi | hi
  · rcases t.applyAll_payload_cases m a with hc | hc
    · exact .inr (.inl (hi.trans hc))
    · exact .inl hc
  · exact .inr (.inr (.inl hi))
  · exact .inr (.inr (.inr hi))

/-- Before the last step, an image whose switch is not made as a whole can be undone. -/
theorem Between.undoable (hb : t.Between m gs g img)
    (hfinish : ∀ a, PatchesCover t.finish a → ¬ PatchesCover t.stage a → img a = m a)
    (hsw : ¬ t.Switched img) : t.Undoable m gs g img := by
  refine ⟨hb.crashByte, hsw, fun a ha ↦ ?_⟩
  by_cases hc : PatchesCover t.stage a ∨ PatchesCover t.switch a
  · exact (undo_eq h img a).1 hc
  · push Not at hc
    rw [(undo_eq h img a).2 hc.1 hc.2]
    rcases hb a with hi | hi | hi
    · exact hi.trans ((t.applyAll_payload_cases m a).resolve_right ha)
    · exact absurd hi.1 hc.1
    · exact hfinish a (hi.1.resolve_left hc.2) hc.1

theorem Between.redoable (hb : t.Between m gs g img) : t.Redoable m gs g img := by
  refine ⟨hb.crashByte, redo_eq_final h fun a hs hf ↦ ?_⟩
  rcases hb a with hi | hi | hi
  · exact hi
  · exact absurd (h.prepared a hi.1) hf
  · exact absurd hi.1 (not_or.2 ⟨hs, hf⟩)

omit h in
/-- Making patches in part, of a list whose new bytes are those of `g'`. -/
theorem Between.news {ps : List Patch} {g' : Image} (hb : t.Between m gs g img)
    (hps : ∀ p ∈ ps, p.Between m g')
    (hcover : ∀ a, PatchesCover ps a → PatchesCover t.stage a ∧ g' = gs ∨
      (PatchesCover t.switch a ∨ PatchesCover t.finish a) ∧ g' = g) :
    t.Between m gs g (applyAll img (ps.map Patch.newWrite)) ∧
      ∀ sec keep, t.Between m gs g (keepPieces sec keep 0 (ps.map Patch.newWrite) img) := by
  have hnew (y : Image) (hy : ∀ a, y a = img a ∨ PatchesCover ps a ∧ y a = g' a) :
      t.Between m gs g y := by
    intro a
    rcases hy a with hya | ⟨hc, hya⟩
    · rw [hya]
      exact hb a
    · rcases hcover a hc with ⟨hst, rfl⟩ | ⟨hsf, rfl⟩
      · exact .inr (.inl ⟨hst, hya⟩)
      · exact .inr (.inr ⟨hsf, hya⟩)
  refine ⟨hnew _ fun a ↦ ?_, fun sec keep ↦ hnew _ (keepPieces_news hps img)⟩
  by_cases hc : PatchesCover ps a
  · exact .inr ⟨hc, (applyAll_news hps img a).1 hc⟩
  · exact .inl ((applyAll_news hps img a).2 hc)

/-- A crash during the copy. -/
theorem undoable_of_copy (himg : ∀ a, img a = m a ∨ ∃ w ∈ t.payload, w.Covers a) :
    t.Undoable m gs g img := by
  have hcov (a : ℕ) (hc : PatchesCover t.switch a) : ¬ ∃ w ∈ t.payload, w.Covers a := by
    rintro ⟨w, hw, hwa⟩
    exact (h.payload w hw a hwa).2.1 hc
  refine ⟨fun a ↦ ?_, not_switched h fun a hc ↦ (himg a).resolve_right (hcov a hc), fun a ha ↦ ?_⟩
  · rcases himg a with hi | hi
    · exact .inr (.inl hi)
    · exact .inl hi
  · by_cases hc : PatchesCover t.stage a ∨ PatchesCover t.switch a
    · exact (undo_eq h img a).1 hc
    · push Not at hc
      rw [(undo_eq h img a).2 hc.1 hc.2]
      exact (himg a).resolve_right ha

/-- **What a crash can leave.** -/
theorem crash_cases {sec : ℕ} {j₀ j' : Option J} {journal : PatchStage → J}
    (hcrash : IsCrashState sec m j₀ (t.actions journal) img j') :
    (img = m ∧ j' = j₀) ∨ (img = t.final m ∧ j' = none) ∨ ∃ s, j' = some (journal s) ∧
        ((s ≠ .switched ∧ s ≠ .complete ∧ t.Undoable m gs g img) ∨
          ((s = .switched ∨ s = .complete ∨ t.Switched img) ∧ t.Redoable m gs g img)) := by
  -- the images after the steps
  have hcopy : t.Between m gs g (applyAll m t.payload) := fun a ↦ .inl rfl
  obtain ⟨hstage, hstage'⟩ := hcopy.news h.stage fun a hc ↦ .inl ⟨hc, rfl⟩
  obtain ⟨hswitch, hswitch'⟩ := hstage.news h.switch fun a hc ↦ .inr ⟨.inl hc, rfl⟩
  obtain ⟨hfinish, hfinish'⟩ := hswitch.news h.finish fun a hc ↦ .inr ⟨.inr hc, rfl⟩
  -- the prepared patches leave the bytes of the switch and the other bytes of the last step alone
  have hkeep (y : Image) (hy : ∀ a, y a = applyAll m t.payload a ∨ PatchesCover t.stage a ∧
      y a = gs a) : (∀ a, PatchesCover t.switch a → y a = m a) ∧
        ∀ a, PatchesCover t.finish a → ¬ PatchesCover t.stage a → y a = m a := by
    constructor
    · intro a hs
      have hst : ¬ PatchesCover t.stage a := fun hst ↦ h.apart a hs (h.prepared a hst)
      exact ((hy a).resolve_right fun hc ↦ hst hc.1).trans
        (applyAll_payload_of_covered h (.inr (.inl hs)))
    · intro a hf hst
      exact ((hy a).resolve_right fun hc ↦ hst hc.1).trans
        (applyAll_payload_of_covered h (.inr (.inr hf)))
  have hready := hkeep (applyAll (applyAll m t.payload) (t.stage.map Patch.newWrite)) fun a ↦ by
    by_cases hc : PatchesCover t.stage a
    · exact .inr ⟨hc, (applyAll_news h.stage _ a).1 hc⟩
    · exact .inl ((applyAll_news h.stage _ a).2 hc)
  -- during the switch, whether it is made as a whole decides
  have hmid (y : Image) (hb : t.Between m gs g y) (hy : ∀ a, y a =
      applyAll (applyAll m t.payload) (t.stage.map Patch.newWrite) a ∨ PatchesCover t.switch a) :
      t.Undoable m gs g y ∨ t.Switched y ∧ t.Redoable m gs g y := by
    by_cases hsw : t.Switched y
    · exact .inr ⟨hsw, hb.redoable h⟩
    · refine .inl (hb.undoable h (fun a hf hst ↦ ?_) hsw)
      exact ((hy a).resolve_right fun hs ↦ h.apart a hs hf).trans (hready.2 a hf hst)
  have hundo (y : Image) (hb : t.Between m gs g y) (hk : (∀ a, PatchesCover t.switch a →
      y a = m a) ∧ ∀ a, PatchesCover t.finish a → ¬ PatchesCover t.stage a → y a = m a) :
      t.Undoable m gs g y := hb.undoable h hk.2 (not_switched h hk.1)
  rcases hcrash.journal_cons with hnone | hcrash
  · exact .inl hnone
  right
  rcases hcrash.phase with ⟨⟨keep, rfl⟩, rfl⟩ | ⟨rfl, rfl⟩ | hcrash
  · refine .inr ⟨.prepared, rfl, .inl ⟨by decide, by decide, undoable_of_copy h fun a ↦ ?_⟩⟩
    rcases keepPieces_apply sec keep 0 t.payload m a with hm | ⟨w, hw, hc, -⟩
    · exact .inl hm
    · exact .inr ⟨w, hw, hc⟩
  · exact .inr ⟨.prepared, rfl, .inl ⟨by decide, by decide,
      undoable_of_copy h (t.applyAll_payload_cases m)⟩⟩
  rcases hcrash.phase with ⟨⟨keep, rfl⟩, rfl⟩ | ⟨rfl, rfl⟩ | hcrash
  · exact .inr ⟨.copied, rfl, .inl ⟨by decide, by decide,
      hundo _ (hstage' sec keep) (hkeep _ (keepPieces_news h.stage _))⟩⟩
  · exact .inr ⟨.copied, rfl, .inl ⟨by decide, by decide, hundo _ hstage hready⟩⟩
  rcases hcrash.journal_cons with ⟨rfl, rfl⟩ | hcrash
  · exact .inr ⟨.ready, rfl, .inl ⟨by decide, by decide, hundo _ hstage hready⟩⟩
  rcases hcrash.phase with ⟨⟨keep, rfl⟩, rfl⟩ | ⟨rfl, rfl⟩ | hcrash
  · refine .inr ⟨.switching, rfl, ?_⟩
    rcases hmid _ (hswitch' sec keep) fun a ↦ (keepPieces_news h.switch _ a).imp id And.left
      with hu | ⟨hs, hr⟩
    · exact .inl ⟨by decide, by decide, hu⟩
    · exact .inr ⟨.inr (.inr hs), hr⟩
  · refine .inr ⟨.switching, rfl, ?_⟩
    have hmade := fun a ↦ (em (PatchesCover t.switch a)).symm.imp
      (applyAll_news h.switch (applyAll (applyAll m t.payload) (t.stage.map Patch.newWrite)) a).2 id
    rcases hmid _ hswitch hmade with hu | ⟨hs, hr⟩
    · exact .inl ⟨by decide, by decide, hu⟩
    · exact .inr ⟨.inr (.inr hs), hr⟩
  rcases hcrash.phase with ⟨⟨keep, rfl⟩, rfl⟩ | ⟨rfl, rfl⟩ | hcrash
  · exact .inr ⟨.switched, rfl, .inr ⟨.inl rfl, (hfinish' sec keep).redoable h⟩⟩
  · exact .inr ⟨.switched, rfl, .inr ⟨.inl rfl, hfinish.redoable h⟩⟩
  rcases hcrash.journal_cons with ⟨rfl, rfl⟩ | hcrash
  · exact .inr ⟨.complete, rfl, .inr ⟨.inr (.inl rfl), hfinish.redoable h⟩⟩
  · exact .inl hcrash.nil

end PatchMove

end Storage
