import LinuxDefragger.Fat.Loaded
import Mathlib.Data.List.Nodup

/-!
# The comparison of the FAT copies

`fat32_load` compares every other copy of the FAT with the active one. A copy that differs is an
error only for a volume that is written to outside recovery; otherwise the loop is left by setting
its counter to the number of copies. The counter has eight bits and is incremented afterwards, so
with 255 copies it starts again at zero.
-/

open List Storage

namespace LinuxDefragger.Fat

/-! ### The loop and what it reads -/

/-- `mirrorLoop` with the copies that are read, in order. -/
def mirrorTrace (agrees : ℕ → Bool) (fatCount activeFat : ℕ) (strict : Bool) :
    ℕ → ℕ → List ℕ × Except Halt Unit
  | 0, _ => ([], throw .outOfFuel)
  | fuel + 1, copy =>
    if copy < fatCount then
      if copy = activeFat then mirrorTrace agrees fatCount activeFat strict fuel ((copy + 1) % 256)
      else
        let rest :=
          if agrees copy then mirrorTrace agrees fatCount activeFat strict fuel ((copy + 1) % 256)
          else if strict then
            ([], throw (.dieMsg
              "mirrored FAT copies disagree; repair the filesystem before defragmenting"))
          else mirrorTrace agrees fatCount activeFat strict fuel ((fatCount + 1) % 256)
        (copy :: rest.1, rest.2)
    else ([], pure ())

section Trace

variable {agrees : ℕ → Bool} {fatCount activeFat : ℕ} {strict : Bool}

/-- The trace is one of the engine's loop. -/
theorem mirrorTrace_snd (fuel copy : ℕ) :
    (mirrorTrace agrees fatCount activeFat strict fuel copy).2 =
      mirrorLoop agrees fatCount activeFat strict fuel copy := by
  induction fuel generalizing copy with
  | zero => rfl
  | succ fuel ih =>
    unfold mirrorTrace mirrorLoop
    split_ifs <;> first | exact ih _ | rfl

/-- The counter does not wrap before it has passed the last copy. -/
def LeavesLoop (agrees : ℕ → Bool) (fatCount activeFat : ℕ) : Prop :=
  fatCount < 255 ∨ ∀ copy < fatCount, copy ≠ activeFat → agrees copy = true

/-- The copies are read in ascending order, and the active one is not among them. -/
theorem mirrorTrace_reads (hcount : fatCount < 256) (h : LeavesLoop agrees fatCount activeFat)
    (fuel copy : ℕ) :
    (∀ c ∈ (mirrorTrace agrees fatCount activeFat false fuel copy).1, copy ≤ c ∧ c ≠ activeFat) ∧
      (mirrorTrace agrees fatCount activeFat false fuel copy).1.Pairwise (· < ·) := by
  induction fuel generalizing copy with
  | zero => exact ⟨nofun, .nil⟩
  | succ fuel ih =>
    unfold mirrorTrace
    split_ifs with hlt hactive hagrees hstrict
    · rw [Nat.mod_eq_of_lt (by omega)]
      exact ⟨fun c hc ↦ ⟨(Nat.le_succ copy).trans ((ih _).1 c hc).1, ((ih _).1 c hc).2⟩, (ih _).2⟩
    · dsimp only
      rw [Nat.mod_eq_of_lt (by omega)]
      obtain ⟨hge, hpairwise⟩ := ih (copy + 1)
      refine ⟨fun c hc ↦ ?_, pairwise_cons.2 ⟨fun c hc ↦ (hge c hc).1, hpairwise⟩⟩
      rcases mem_cons.1 hc with rfl | hc
      · exact ⟨le_rfl, hactive⟩
      · exact ⟨(Nat.le_succ copy).trans (hge c hc).1, (hge c hc).2⟩
    · exact hstrict.elim
    · -- the counter jumps behind the last copy
      have hsmall : fatCount < 255 := h.resolve_right fun hall ↦ hagrees (hall copy hlt hactive)
      dsimp only
      rw [Nat.mod_eq_of_lt (by omega)]
      obtain ⟨hge, hpairwise⟩ := ih (fatCount + 1)
      refine ⟨fun c hc ↦ ?_, pairwise_cons.2 ⟨fun c hc ↦ ?_, hpairwise⟩⟩
      · rcases mem_cons.1 hc with rfl | hc
        · exact ⟨le_rfl, hactive⟩
        · exact ⟨by have := (hge c hc).1; omega, (hge c hc).2⟩
      · have := (hge c hc).1
        omega
    · exact ⟨nofun, .nil⟩

/-- With a round for every copy the loop comes to its end. -/
theorem mirrorLoop_eq_ok (hcount : fatCount < 256) (h : LeavesLoop agrees fatCount activeFat)
    {fuel copy : ℕ}
    (hfuel : fatCount + 2 ≤ fuel + copy) (hpos : 0 < fuel) :
    mirrorLoop agrees fatCount activeFat false fuel copy = .ok () := by
  induction fuel generalizing copy with
  | zero => cases hpos
  | succ fuel ih =>
    unfold mirrorLoop
    split_ifs with hlt hactive hagrees hstrict
    · rw [Nat.mod_eq_of_lt (by omega)]
      exact ih (by omega) (by omega)
    · rw [Nat.mod_eq_of_lt (by omega)]
      exact ih (by omega) (by omega)
    · exact hstrict.elim
    · have hsmall : fatCount < 255 := h.resolve_right fun hall ↦ hagrees (hall copy hlt hactive)
      rw [Nat.mod_eq_of_lt (by omega)]
      exact ih (by omega) (by omega)
    · rfl

/-- **With 255 copies a difference is found again and again.** -/
theorem mirrorLoop_endless {bad : ℕ} (hbad : bad < 255) (hactive : bad ≠ activeFat)
    (hdiffers : agrees bad = false) {fuel copy : ℕ} (hcopy : copy ≤ bad) :
    mirrorLoop agrees 255 activeFat false fuel copy = .error .outOfFuel := by
  -- the counter never gets behind the copy that differs
  induction fuel generalizing copy with
  | zero => rfl
  | succ fuel ih =>
    have hne : copy ≠ bad → (copy + 1) % 256 ≤ bad := by omega
    unfold mirrorLoop
    rw [if_pos (by omega)]
    split_ifs with hc hagrees hstrict
    · exact ih (hne fun heq ↦ hactive (heq ▸ hc))
    · refine ih (hne ?_)
      rintro rfl
      rw [hdiffers] at hagrees
      cases hagrees
    · exact hstrict.elim
    · exact ih (Nat.zero_le bad)

end Trace

/-! ### Loading -/

/-- `fat32_load` up to the comparison of the copies. -/
def loadTable (dev : Device) (allowMirrorMismatch : Bool) : Except Halt Fat32 := do
  let geometry ← readBoot dev allowMirrorMismatch
  let raw ← dev.fullPread geometry.fatBytes (geometry.fatCopyOffset geometry.activeFat)
    "read active FAT"
  return { geometry with fat := decodeTable geometry.fatType raw geometry.fatEntryCount }

theorem fat32Load_eq (fuel : ℕ) (dev : Device) (allow : Bool) :
    fat32Load fuel dev allow = (do
      let fs ← loadTable dev allow
      checkTable fuel fs
      return fs) := by
  simp only [fat32Load, loadTable, bind_assoc, pure_bind]

theorem loadTable_layout {dev : Device} {allow : Bool} {fs : Fat32}
    (h : loadTable dev allow = .ok fs) :
    fs.Layout ∧ fs.dev = dev ∧ fs.recoveryMode = allow := by
  obtain ⟨geometry, hboot, h⟩ := bind_eq_ok.1 h
  obtain ⟨raw, -, h⟩ := bind_eq_ok.1 h
  obtain rfl := Except.ok.inj h
  obtain ⟨hlayout, hdev, hmode⟩ := readBoot_layout hboot
  exact ⟨{ hlayout with }, hdev, hmode⟩

namespace Fat32

variable (fs : Fat32)

/-- The comparison of the copies: those that are read, and the result. -/
def compareMirrors (fuel : ℕ) : List ℕ × Except Halt Unit :=
  if fs.fatMirroring then
    mirrorTrace (mirrorAgrees fs) fs.fatCount fs.activeFat
      (!fs.recoveryMode && fs.dev.writable) fuel 0
  else ([], pure ())

/-- The comparison comes to an end, and with the active copy, which is read before it, no copy is
read twice. -/
def ComparesOnce : Prop :=
  (∃ n, ∀ fuel ≥ n, (fs.compareMirrors fuel).2 = .ok ()) ∧
    ∀ fuel, (fs.activeFat :: (fs.compareMirrors fuel).1).Nodup

/-- A copy other than the active one differs from it. -/
def MirrorDiffers : Prop := ∃ copy < fs.fatCount, copy ≠ fs.activeFat ∧ mirrorAgrees fs copy = false

end Fat32

/-- The checks of the table are those of the clean bits and this comparison. -/
theorem checkTable_eq (fuel : ℕ) (fs : Fat32) :
    checkTable fuel fs = (do
      if fs.dev.writable then checkCleanBits fs
      (fs.compareMirrors fuel).2) := by
  unfold checkTable Fat32.compareMirrors
  cases fs.fatMirroring with
  | false => rfl
  | true => simp only [if_true, mirrorTrace_snd]

/-- **When the comparison is made once.** For a volume that is opened read-only or for recovery, the
comparison of the FAT copies ends and reads every copy at most once, unless there are 255 mirrored
copies and one of them differs from the active one. -/
theorem comparesOnce_iff {dev : Device} {allow : Bool} {fs : Fat32}
    (h : loadTable dev allow = .ok fs)
    (hmode : dev.writable = false ∨ allow = true) :
    fs.ComparesOnce ↔ ¬(fs.fatMirroring = true ∧ fs.fatCount = 255 ∧ fs.MirrorDiffers) := by
  obtain ⟨hlayout, hdev, hrecovery⟩ := loadTable_layout h
  have hstrict : (!fs.recoveryMode && fs.dev.writable) = false := by
    rw [hrecovery, hdev]
    rcases hmode with hw | ha
    · rw [hw, Bool.and_false]
    · rw [ha, Bool.not_true, Bool.false_and]
  have hcount := hlayout.fatCount_lt
  unfold Fat32.ComparesOnce Fat32.compareMirrors
  rw [hstrict]
  cases hmirroring : fs.fatMirroring with
  | false => simp
  | true =>
    simp only [if_true, mirrorTrace_snd, true_and]
    constructor
    · rintro ⟨⟨n, hend⟩, -⟩ ⟨h255, bad, hbad, hactive, hdiffers⟩
      have hloop := hend n le_rfl
      rw [h255] at hloop hbad
      rw [mirrorLoop_endless hbad hactive hdiffers (Nat.zero_le bad)] at hloop
      cases hloop
    · intro hnot
      have hleaves : LeavesLoop (mirrorAgrees fs) fs.fatCount fs.activeFat := by
        by_contra hstay
        obtain ⟨hlarge, hall⟩ := not_or.1 hstay
        push Not at hall
        obtain ⟨copy, hlt, hactive, hdiffers⟩ := hall
        exact hnot ⟨by omega, copy, hlt, hactive, Bool.eq_false_iff.2 hdiffers⟩
      refine ⟨⟨fs.fatCount + 2, fun fuel hfuel ↦ ?_⟩, fun fuel ↦ ?_⟩
      · exact mirrorLoop_eq_ok hcount hleaves hfuel (by omega)
      · obtain ⟨hreads, hpairwise⟩ := mirrorTrace_reads hcount hleaves fuel 0
        refine nodup_cons.2 ⟨fun hmem ↦ (hreads _ hmem).2 rfl, ?_⟩
        exact hpairwise.imp fun hlt ↦ hlt.ne

/-! ### Copies that differ -/

/-- A FAT12 volume that is opened read-only, with so many copies of the FAT, where the second one
differs from the others. -/
def mirroredDevice (count : UInt8) : Device where
  path := "/dev/loop0".toList
  writable := false
  sizeBytes := 267 * 512
  image a := ([(12, 0x02), (13, 1), (14, 1), (16, count), (17, 16), (19, 0x0B), (20, 0x01), (22, 1),
    (510, 0x55),
    (511, 0xAA), (1024, 1)].lookup a).getD 0
  log := []

/-- The second copy of such a volume is found to differ. -/
theorem loadTable_mirroredDevice {c : UInt8}
    (h : (loadTable (mirroredDevice c) false).toOption.any (fun fs ↦
      fs.fatMirroring && fs.activeFat = 0 && fs.fatCount = c.toNat && !mirrorAgrees fs 1) = true) :
    ∃ fs, loadTable (mirroredDevice c) false = .ok fs ∧ fs.fatMirroring = true ∧ fs.activeFat = 0 ∧
      fs.fatCount = c.toNat ∧ mirrorAgrees fs 1 = false := by
  obtain ⟨fs, hload, hfs⟩ := exists_ok_of_any h
  simp only [Bool.and_eq_true, decide_eq_true_eq, Bool.not_eq_true'] at hfs
  exact ⟨fs, hload, hfs.1.1.1, hfs.1.1.2, hfs.1.2, hfs.2⟩

/-- **With 255 copies, loading does not end.** -/
theorem compares_endlessly : ∃ fs, loadTable (mirroredDevice 255) false = .ok fs ∧
    ¬fs.ComparesOnce ∧
    ∀ fuel, fat32Load fuel (mirroredDevice 255) false = .error .outOfFuel := by
  obtain ⟨fs, hload, hmirroring, hactive, hcount, hdiffers⟩ :=
    loadTable_mirroredDevice (c := 255) (by decide +kernel)
  have hdev := (loadTable_layout hload).2.1
  have hendless : ∀ fuel, (fs.compareMirrors fuel).2 = .error .outOfFuel := by
    intro fuel
    have hstrict :
      (!fs.recoveryMode && fs.dev.writable) = false := by rw [hdev]; exact Bool.and_false _
    rw [Fat32.compareMirrors, if_pos hmirroring, mirrorTrace_snd, hstrict, hcount]
    exact mirrorLoop_endless (show 1 < 255 by decide) (by rw [hactive]; decide) hdiffers
      (Nat.zero_le 1)
  refine ⟨fs, hload, fun ⟨⟨n, hend⟩, _⟩ ↦ ?_, fun fuel ↦ ?_⟩
  · have hloop := hend n le_rfl
    rw [hendless] at hloop
    cases hloop
  · have hread : fs.dev.writable = false := by rw [hdev]; rfl
    rw [fat32Load_eq, hload, ok_bind, checkTable_eq, hread, hendless]
    rfl

/-- With two copies the comparison is left at the one that differs. -/
theorem comparesOnce_mirroredDevice : ∃ fs, loadTable (mirroredDevice 2) false = .ok fs ∧
    fs.MirrorDiffers ∧
    fs.ComparesOnce := by
  obtain ⟨fs, hload, -, hactive, hcount, hdiffers⟩ :=
    loadTable_mirroredDevice (c := 2) (by decide +kernel)
  refine ⟨fs, hload, ⟨1, ?_, ?_, hdiffers⟩, (comparesOnce_iff hload (.inl rfl)).2 fun h ↦ ?_⟩
  · rw [hcount]
    decide
  · rw [hactive]
    decide
  · have hsame := hcount.symm.trans h.2.1
    exact absurd hsame (by decide)

end LinuxDefragger.Fat
