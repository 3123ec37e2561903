import LinuxDefragger.Storage.Crash

/-!
# A disk and a journal file beside it

A program that moves data on a disk keeps a journal in another file system. The journal file is
replaced atomically and durably, the disk has a volatile cache. `Disk J` is both, with the trace of
what was done to them: writes, syncs and replacements of the journal.

`IsCrashState` says what a crash can leave: some prefix of the trace was executed, the journal is
the last one of that prefix, and the disk is what `keepPieces` allows for the writes since the last
sync.
-/

open List

namespace Storage

/-- What a program does to a disk and the journal beside it. -/
inductive Action (J : Type)
  | write (w : Write)
  | sync
  /-- The journal file is replaced, or removed. -/
  | journal (j : Option J)

/-- An open disk or image file and a journal file. -/
structure Disk (J : Type) where
  size : ℕ
  /-- Current contents of the disk, as the program sees them. -/
  image : Image
  journal : Option J
  log : List (Action J)

namespace Disk

variable {J : Type} (d : Disk J) (data : List UInt8) (offset : ℕ) (ws : List Write) (j : Option J)

/-- The bytes a read of `length` bytes returns, which are fewer at the end of the disk. -/
def pread (length offset : ℕ) : List UInt8 :=
  d.image.read offset (min length (d.size - offset))

/-- `data` stored from `offset` on. -/
def pwrite : Disk J :=
  { d with image := d.image.write offset data, log := d.log ++ [.write ⟨offset, data⟩] }

/-- Everything written so far becomes durable. -/
def fsync : Disk J := { d with log := d.log ++ [.sync] }

/-- The journal file is replaced, or removed. -/
def setJournal : Disk J := { d with journal := j, log := d.log ++ [.journal j] }

/-- A list of writes issued one after the other. -/
def issue : Disk J :=
  { d with image := applyAll d.image ws, log := d.log ++ ws.map .write }

theorem pread_length (length : ℕ) : (d.pread length offset).length = min length (d.size - offset) :=
  Image.read_length ..

@[simp] theorem fsync_image : d.fsync.image = d.image := rfl

@[simp] theorem fsync_size : d.fsync.size = d.size := rfl

@[simp] theorem fsync_log : d.fsync.log = d.log ++ [.sync] := rfl

@[simp] theorem setJournal_image : (d.setJournal j).image = d.image := rfl

@[simp] theorem setJournal_size : (d.setJournal j).size = d.size := rfl

@[simp] theorem setJournal_log : (d.setJournal j).log = d.log ++ [.journal j] := rfl

@[simp] theorem issue_image : (d.issue ws).image = applyAll d.image ws := rfl

@[simp] theorem issue_size : (d.issue ws).size = d.size := rfl

@[simp] theorem issue_log : (d.issue ws).log = d.log ++ ws.map .write := rfl

end Disk

/-! ### What an operation can change -/

section Changes

variable {J : Type} {S T : Set ℕ} {d d' d'' : Disk J}

/-- The second disk differs from the first one inside `S` only. -/
structure ChangesWithin (S : Set ℕ) (d d' : Disk J) : Prop where
  size : d'.size = d.size
  image : ∀ a ∉ S, d'.image a = d.image a

namespace ChangesWithin

theorem refl (S : Set ℕ) (d : Disk J) : ChangesWithin S d d := ⟨rfl, fun _ _ ↦ rfl⟩

section

variable (h : ChangesWithin S d d')
include h

theorem trans (h' : ChangesWithin S d' d'') : ChangesWithin S d d'' :=
  ⟨h'.size.trans h.size, fun a ha ↦ (h'.image a ha).trans (h.image a ha)⟩

theorem mono (hST : S ⊆ T) : ChangesWithin T d d' :=
  ⟨h.size, fun a ha ↦ h.image a fun hS ↦ ha (hST hS)⟩

theorem fsync : ChangesWithin S d d'.fsync := ⟨h.size, h.image⟩

theorem setJournal (j : Option J) : ChangesWithin S d (d'.setJournal j) := ⟨h.size, h.image⟩

end

theorem pwrite {data : List UInt8} {offset : ℕ} (d : Disk J)
    (h : ∀ a, offset ≤ a → a < offset + data.length → a ∈ S) :
    ChangesWithin S d (d.pwrite data offset) := by
  refine ⟨rfl, fun a ha ↦ Image.write_apply_of_not_mem ?_⟩
  by_contra hin
  exact ha (h a (by omega) (by omega))

theorem issue {ws : List Write} (d : Disk J) (h : ∀ w ∈ ws, ∀ a, w.Covers a → a ∈ S) :
    ChangesWithin S d (d.issue ws) :=
  ⟨rfl, fun a ha ↦ applyAll_of_not_covers d.image fun w hw hc ↦ ha (h w hw a hc)⟩

end ChangesWithin

end Changes

/-! ### Crashes -/

section Crash

variable {J : Type}

/-- The part of a trace that the disk sees. -/
def diskEvents (acts : List (Action J)) : List Event :=
  acts.filterMap fun
    | .write w => some (.write w)
    | .sync => some .sync
    | .journal _ => none

/-- The journal after a trace. -/
def lastJournal (j : Option J) (acts : List (Action J)) : Option J :=
  acts.foldl (fun j act ↦ match act with | .journal j' => j' | _ => j) j

/-- **What a crash can leave** of a disk and a journal, if the program was executing `acts`. -/
def IsCrashState (sec : ℕ) (m : Image) (j : Option J) (acts : List (Action J)) (img : Image)
    (j' : Option J) : Prop :=
  ∃ done rest, acts = done ++ rest ∧ j' = lastJournal j done ∧
    ∃ (synced : List Event) (ws : List Write) (keep : ℕ → ℕ → Bool),
      diskEvents done = synced ++ ws.map .write ∧ (synced = [] ∨ ∃ d, synced = d ++ [.sync]) ∧
        img = keepPieces sec keep 0 ws (replay m synced)

variable {sec : ℕ} {m img : Image} {j j₁ j' : Option J} {ws : List Write} {acts : List (Action J)}

theorem diskEvents_append (acts acts' : List (Action J)) :
    diskEvents (acts ++ acts') = diskEvents acts ++ diskEvents acts' :=
  filterMap_append

theorem diskEvents_writes (ws : List Write) :
    diskEvents (ws.map (Action.write (J := J))) = ws.map .write := by
  induction ws with
  | nil => rfl
  | cons w ws ih => exact congrArg (Event.write w :: ·) ih

theorem lastJournal_append (j : Option J) (acts acts' : List (Action J)) :
    lastJournal j (acts ++ acts') = lastJournal (lastJournal j acts) acts' :=
  foldl_append

theorem lastJournal_writes (j : Option J) (ws : List Write) :
    lastJournal j (ws.map .write) = j := by
  induction ws with
  | nil => rfl
  | cons w ws ih => exact ih

theorem sync_notMem_writes (ws : List Write) : Event.sync ∉ ws.map Event.write := by simp

/-- A durable part of a trace contains every sync of the trace. -/
private theorem synced_of_sync {pre post synced : List Event} {ws : List Write}
    (h : pre ++ .sync :: post = synced ++ ws.map .write)
    (hsynced : synced = [] ∨ ∃ d, synced = d ++ [.sync]) :
    ∃ d, synced = pre ++ .sync :: d ∧ (d = [] ∨ ∃ d', d = d' ++ [.sync]) ∧
      post = d ++ ws.map .write := by
  rcases append_eq_append_iff.1 h with ⟨a, rfl, ha⟩ | ⟨c, -, hc⟩
  · cases a with
    | nil =>
      refine absurd ?_ (sync_notMem_writes ws)
      rw [← nil_append (ws.map Event.write), ← ha]
      exact mem_cons_self
    | cons e d =>
      obtain ⟨rfl, rfl⟩ := List.cons.inj ha
      refine ⟨d, rfl, ?_, rfl⟩
      rcases eq_nil_or_concat' d with rfl | ⟨d', e, rfl⟩
      · exact .inl rfl
      · rcases hsynced with hnil | ⟨d'', hd⟩
        · simp at hnil
        · rw [← cons_append, ← append_assoc] at hd
          obtain ⟨-, he⟩ := append_inj' hd rfl
          exact .inr ⟨d', by rw [List.cons.inj he |>.1]⟩
  · refine absurd ?_ (sync_notMem_writes ws)
    rw [hc]
    exact mem_append_right _ mem_cons_self

/-- **Cutting a trace at a sync and the journal behind it.** The crash fell into the first phase, or
that phase and its journal are durable and the crash fell later. -/
theorem IsCrashState.phase
    (h : IsCrashState sec m j (ws.map .write ++ .sync :: .journal j₁ :: acts) img j') :
    ((∃ keep, img = keepPieces sec keep 0 ws m) ∧ j' = j) ∨
      (img = applyAll m ws ∧ j' = j) ∨ IsCrashState sec (applyAll m ws) j₁ acts img j' := by
  obtain ⟨done, rest, hacts, rfl, synced, ws', keep, hdone, hsynced, rfl⟩ := h
  rcases append_eq_append_iff.1 hacts with ⟨d, rfl, hd⟩ | ⟨c, hc, -⟩
  · -- the crash came after the writes of the phase
    rw [diskEvents_append, diskEvents_writes] at hdone
    rw [lastJournal_append, lastJournal_writes]
    cases d with
    | nil =>
      rw [show diskEvents ([] : List (Action J)) = [] from rfl, append_nil] at hdone
      have hnil : synced = [] := by
        rcases hsynced with rfl | ⟨d, rfl⟩
        · rfl
        · refine absurd ?_ (sync_notMem_writes ws)
          rw [hdone]
          simp
      subst hnil
      obtain rfl : ws = ws' :=
        map_injective_iff.2 (fun _ _ he ↦ Event.write.inj he) (by simpa using hdone)
      exact .inl ⟨⟨keep, rfl⟩, rfl⟩
    | cons e d =>
      obtain ⟨rfl, htail⟩ := List.cons.inj hd
      change ws.map Event.write ++ .sync :: diskEvents d = synced ++ ws'.map .write at hdone
      obtain ⟨d', rfl, hd', hrest⟩ := synced_of_sync hdone hsynced
      rw [replay_append, replay_writes, show replay (applyAll m ws) (Event.sync :: d') =
        replay (applyAll m ws) d' from rfl]
      cases d with
      | nil =>
        obtain ⟨rfl, hws⟩ := append_eq_nil_iff.1 hrest.symm
        rw [map_eq_nil_iff.1 hws]
        exact .inr (.inl ⟨rfl, rfl⟩)
      | cons e d =>
        obtain ⟨rfl, hacts'⟩ := List.cons.inj htail
        exact .inr (.inr ⟨d, rest, hacts', rfl, d', ws', keep, hrest, hd', rfl⟩)
  · -- the crash cut the writes of the phase
    obtain ⟨ws₁, ws₂, rfl, rfl, rfl⟩ := map_eq_append_iff.1 hc
    rw [diskEvents_writes] at hdone
    have hnil : synced = [] := by
      rcases hsynced with rfl | ⟨d, rfl⟩
      · rfl
      · refine absurd ?_ (sync_notMem_writes ws₁)
        rw [hdone]
        simp
    subst hnil
    obtain rfl : ws₁ = ws' :=
      map_injective_iff.2 (fun _ _ he ↦ Event.write.inj he) (by simpa using hdone)
    rw [lastJournal_writes]
    obtain ⟨keep', hkeep⟩ := exists_keepPieces_of_prefix sec keep m (prefix_append ws₁ ws₂)
    exact .inl ⟨⟨keep', hkeep⟩, rfl⟩

/-- Nothing was being done. -/
theorem IsCrashState.nil (h : IsCrashState sec m j [] img j') : img = m ∧ j' = j := by
  obtain ⟨done, rest, hacts, rfl, synced, ws', keep, hdone, -, rfl⟩ := h
  obtain ⟨rfl, rfl⟩ := append_eq_nil_iff.1 hacts.symm
  obtain ⟨rfl, hws⟩ := append_eq_nil_iff.1 hdone.symm
  rw [map_eq_nil_iff.1 hws]
  exact ⟨rfl, rfl⟩

/-- **Cutting a trace at a journal in front.** -/
theorem IsCrashState.journal_cons (h : IsCrashState sec m j (.journal j₁ :: acts) img j') :
    (img = m ∧ j' = j) ∨ IsCrashState sec m j₁ acts img j' := by
  obtain ⟨done, rest, hacts, rfl, synced, ws', keep, hdone, hsynced, rfl⟩ := h
  cases done with
  | nil =>
    obtain ⟨rfl, hws⟩ := append_eq_nil_iff.1 hdone.symm
    rw [map_eq_nil_iff.1 hws]
    exact .inl ⟨rfl, rfl⟩
  | cons act done =>
    obtain ⟨rfl, hrest⟩ := List.cons.inj hacts
    exact .inr ⟨done, rest, hrest, rfl, synced, ws', keep, hdone, hsynced, rfl⟩

end Crash

end Storage
