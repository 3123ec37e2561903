import LinuxDefragger.Fat.MoveJournal
import LinuxDefragger.Storage.Text

/-!
# Journals as text

The two journal formats of the FAT engine, as the writers print them and the readers parse them
back. A journal is what recovery starts from, so the question is whether **every** journal a writer
can print is one its reader accepts.

For the single-file journal it is (`journalRead_journalText`). The mapped journal has a completeness
check on its root fields that only a FAT32 volume can pass: on FAT12 and FAT16 the root directory
has no cluster, both fields are `0`, and the reader refuses the file.
-/

open CText List Storage

namespace LinuxDefragger.Fat

/-! ### Stages -/

namespace JournalStage

/-- The value of the enumerator. -/
def code : JournalStage → ℕ
  | prepared => 0
  | dataCopied => 1
  | destLinked => 2
  | switched => 3
  | oldFreed => 4
  | unknown code _ => code

/-- `(int)stage` -/
def toInt (s : JournalStage) : ℤ := if s.code < 2 ^ 31 then s.code else (s.code : ℤ) - 2 ^ 32

/-- The stage with the given code. -/
def ofCode (code : ℕ) (h : code < 2 ^ 32) : JournalStage :=
  if h₅ : 5 ≤ code then unknown code ⟨h₅, h⟩
  else match code with
    | 0 => prepared
    | 1 => dataCopied
    | 2 => destLinked
    | 3 => switched
    | _ => oldFreed

/-- `(JournalStage)value` for a `long`. -/
def ofLong (value : ℤ) : JournalStage :=
  ofCode (value % 2 ^ 32).toNat (by omega)

section

variable (s : JournalStage)
include s

theorem code_lt : s.code < 2 ^ 32 := by
  cases s with
  | unknown code h => exact h.2
  | _ => decide

theorem ofCode_code : ofCode s.code s.code_lt = s := by
  cases s with
  | unknown code h => exact dif_pos h.1
  | _ => rfl

theorem ofLong_toInt : ofLong s.toInt = s := by
  have hcode : (s.toInt % 2 ^ 32).toNat = s.code := by
    have := s.code_lt
    rw [toInt]
    split_ifs <;> omega
  have : ofLong s.toInt = ofCode s.code s.code_lt := by
    simp only [ofLong, hcode]
  rw [this, ofCode_code]

theorem natAbs_toInt_lt : s.toInt.natAbs < 2 ^ 63 := by
  have := s.code_lt
  rw [toInt]
  split_ifs <;> omega

/-- **A printed stage reads back.** -/
theorem ofLong_strtol : ofLong (strtol (decInt s.toInt)) = s := by
  rw [strtol_decInt s.natAbs_toInt_lt, ofLong_toInt]

end

end JournalStage

/-! ### The single-file journal -/

/-- `Journal` -/
structure Journal where
  devicePath : List Char
  volumeId : ℕ
  stage : JournalStage
  direntOffset : ℕ
  oldFirst : ℕ
  destStart : ℕ
  source : List ℕ
  deriving DecidableEq

/-- The fields hold what their C types can hold. -/
structure Journal.Fits (j : Journal) : Prop where
  volumeId : j.volumeId < 2 ^ 32
  direntOffset : j.direntOffset < 2 ^ 64
  oldFirst : j.oldFirst < 2 ^ 32
  destStart : j.destStart < 2 ^ 32
  source : ∀ c ∈ j.source, c < 2 ^ 32
  length : j.source.length < 2 ^ 64

/-- `JOURNAL_MAGIC` -/
def journalMagic : List Char := "LINUX-DEFRAGGER-JOURNAL-1".toList

/-- Keys and values of the lines after the header. -/
def journalFields (j : Journal) : List (List Char × List Char) :=
  [("device".toList, j.devicePath),
    ("volume_id".toList, hex8 j.volumeId),
    ("stage".toList, decInt j.stage.toInt),
    ("dirent_offset".toList, dec j.direntOffset),
    ("old_first".toList, dec j.oldFirst),
    ("dest_start".toList, dec j.destStart),
    ("count".toList, dec j.source.length),
    ("source".toList, commaDec j.source)]

/-- A journal file: the header, then the fields. -/
def fieldsText (magic : List Char) (fields : List (List Char × List Char)) : List Char :=
  (magic :: fields.map fun p ↦ field p.1 p.2).flatMap (· ++ ['\n'])

/-- The file that `journal_write` installs. -/
def journalText (j : Journal) : List Char := fieldsText journalMagic (journalFields j)

/-- The variables of `journal_read` while it reads. -/
structure JournalDraft where
  devicePath : Option (List Char) := none
  volumeId : ℕ := 0
  stage : JournalStage := .prepared
  direntOffset : ℕ := 0
  oldFirst : ℕ := 0
  destStart : ℕ := 0
  source : List ℕ := []
  expectedCount : ℕ := 0

/-- One `key=value` line of `journal_read`. -/
def journalField (d : JournalDraft) (key value : List Char) : JournalDraft :=
  if key = "device".toList then { d with devicePath := some value }
  else if key = "volume_id".toList then { d with volumeId := strtoul 16 value % 2 ^ 32 }
  else if key = "stage".toList then { d with stage := .ofLong (strtol value) }
  else if key = "dirent_offset".toList then { d with direntOffset := strtoul 10 value }
  else if key = "old_first".toList then { d with oldFirst := strtoul 10 value % 2 ^ 32 }
  else if key = "dest_start".toList then { d with destStart := strtoul 10 value % 2 ^ 32 }
  else if key = "count".toList then { d with expectedCount := strtoul 10 value }
  else if key = "source".toList then
    { d with source := d.source ++ (tokens ',' value).map fun tok ↦ strtoul 10 tok % 2 ^ 32 }
  else d

/-- One line of `journal_read`. -/
def journalLine (d : JournalDraft) (line : List Char) : JournalDraft :=
  match splitAtEq (chomp line) with
  | none => d
  | some (key, value) => journalField d key value

/-- The check at the end of `journal_read`. -/
def JournalDraft.finish (d : JournalDraft) : Except Halt Journal :=
  match d.devicePath with
  | none => throw (.dieMsg "journal is incomplete or corrupt")
  | some devicePath => do
    dieIf (d.source.length ≠ d.expectedCount ∨ d.source.length = 0)
      "journal is incomplete or corrupt"
    return ⟨devicePath, d.volumeId, d.stage, d.direntOffset, d.oldFirst, d.destStart, d.source⟩

/-- `journal_read` on the contents of the file. -/
def journalRead (text : List Char) : Except Halt Journal :=
  match lines text with
  | [] => throw (.dieMsg "invalid journal header")
  | header :: rest => do
    dieIf (header ≠ journalMagic ++ ['\n']) "invalid journal header"
    (rest.foldl journalLine {}).finish

variable {fields : List (List Char × List Char)} {moves : List CompactMove}

/-- The lines of a journal file, as the readers get them. -/
theorem lines_fieldsText {magic : List Char} (hmagic : '\n' ∉ magic)
    (h : ∀ p ∈ fields, Printable p) :
    lines (fieldsText magic fields) =
      (magic ++ ['\n']) :: fields.map fun p ↦ field p.1 p.2 ++ ['\n'] := by
  rw [fieldsText, lines_unlines, map_cons, map_map]
  · rfl
  · rintro l (_ | ⟨_, hl⟩)
    · exact hmagic
    · obtain ⟨p, hp, rfl⟩ := mem_map.1 hl
      exact (h p hp).not_mem

theorem foldl_journalLine (h : ∀ p ∈ fields, Printable p) (d : JournalDraft) :
    (fields.map fun p ↦ field p.1 p.2 ++ ['\n']).foldl journalLine d =
      fields.foldl (fun d p ↦ journalField d p.1 p.2) d := by
  induction fields generalizing d with
  | nil => rfl
  | cons p fields ih =>
    rw [map_cons, foldl_cons, foldl_cons, journalLine, (h p mem_cons_self).splitAtEq]
    exact ih (fun q hq ↦ h q (mem_cons_of_mem _ hq)) _

theorem printable_journalFields {j : Journal} (hpath : OneLine j.devicePath) :
    ∀ p ∈ journalFields j, Printable p := by
  simp only [journalFields, forall_mem_cons, not_mem_nil, false_imp_iff, implies_true, and_true]
  exact ⟨printable (by decide) hpath, printable (by decide) (oneLine_hex8 _),
    printable (by decide) (oneLine_decInt _), printable (by decide) (oneLine_dec _),
    printable (by decide) (oneLine_dec _), printable (by decide) (oneLine_dec _),
    printable (by decide) (oneLine_dec _), printable (by decide) (oneLine_commaDec _)⟩

theorem strtoul_dec_u32 {n : ℕ} (h : n < 2 ^ 32) : strtoul 10 (dec n) % 2 ^ 32 = n := by
  rw [strtoul_dec (h.trans (by decide)), Nat.mod_eq_of_lt h]

theorem strtoul_hex8_u32 {n : ℕ} (h : n < 2 ^ 32) : strtoul 16 (hex8 n) % 2 ^ 32 = n := by
  rw [strtoul_hex8 (h.trans (by decide)), Nat.mod_eq_of_lt h]

theorem map_strtoul_tokens {vs : List ℕ} (hne : vs ≠ []) (h : ∀ v ∈ vs, v < 2 ^ 32) :
    (tokens ',' (commaDec vs)).map (fun tok ↦ strtoul 10 tok % 2 ^ 32) = vs := by
  rw [tokens_commaDec hne, map_map]
  exact (map_congr_left fun v hv ↦ strtoul_dec_u32 (h v hv)).trans (map_id vs)

/-- **The single-file journal reads back**, for every source list that is not empty. -/
theorem journalRead_journalText {j : Journal} (hfit : j.Fits) (hpath : OneLine j.devicePath)
    (hne : j.source ≠ []) : journalRead (journalText j) = .ok j := by
  have hprint := printable_journalFields hpath
  have hdraft : (journalFields j).foldl (fun d p ↦ journalField d p.1 p.2) {} =
      ⟨some j.devicePath, strtoul 16 (hex8 j.volumeId) % 2 ^ 32,
        .ofLong (strtol (decInt j.stage.toInt)), strtoul 10 (dec j.direntOffset),
        strtoul 10 (dec j.oldFirst) % 2 ^ 32, strtoul 10 (dec j.destStart) % 2 ^ 32,
        [] ++ (tokens ',' (commaDec j.source)).map fun tok ↦ strtoul 10 tok % 2 ^ 32,
        strtoul 10 (dec j.source.length)⟩ := rfl
  rw [strtoul_hex8_u32 hfit.volumeId, j.stage.ofLong_strtol, strtoul_dec hfit.direntOffset,
    strtoul_dec_u32 hfit.oldFirst, strtoul_dec_u32 hfit.destStart, nil_append,
    map_strtoul_tokens hne hfit.source, strtoul_dec hfit.length] at hdraft
  have hlen : ¬(j.source.length ≠ j.source.length ∨ j.source.length = 0) := by
    simpa using hne
  rw [journalRead, journalText, lines_fieldsText (by decide) hprint]
  simp only [foldl_journalLine hprint, hdraft]
  rw [dieIf_bind_of_not (by simp)]
  simp only [JournalDraft.finish]
  rw [dieIf_bind_of_not hlen]
  rfl

/-! ### The mapped journal -/

/-- `COMPACT_JOURNAL_MAGIC` -/
def compactJournalMagic : List Char := "LINUX-DEFRAGGER-COMPACT-JOURNAL-1".toList

/-- The line of a move. -/
def moveField (m : CompactMove) : List Char × List Char :=
  ("move".toList, commaDec [m.source, m.destination, m.next, m.predecessor])

/-- The line of a directory patch. -/
def dirPatchField (p : CompactDirPatch) : List Char × List Char :=
  ("dir_patch".toList, commaDec [p.offset, p.oldTarget, p.newTarget])

/-- Keys and values of the lines after the header. -/
def compactJournalFields (j : CompactJournal) : List (List Char × List Char) :=
  [("device".toList, j.devicePath),
    ("volume_id".toList, hex8 j.volumeId),
    ("stage".toList, decInt j.stage.toInt),
    ("root_old".toList, dec j.rootOld),
    ("root_new".toList, dec j.rootNew),
    ("move_count".toList, dec j.moves.length)] ++ j.moves.map moveField ++
  ("dir_patch_count".toList, dec j.dirPatches.length) :: j.dirPatches.map dirPatchField

/-- The file that `compact_journal_write` installs. -/
def compactJournalText (j : CompactJournal) : List Char :=
  fieldsText compactJournalMagic (compactJournalFields j)

/-- The variables of `compact_journal_read` while it reads. -/
structure CompactDraft where
  devicePath : Option (List Char) := none
  volumeId : ℕ := 0
  stage : JournalStage := .prepared
  rootOld : ℕ := 0
  rootNew : ℕ := 0
  moves : List CompactMove := []
  dirPatches : List CompactDirPatch := []
  expectedMoves : ℕ := 0
  expectedPatches : ℕ := 0

/-- A `move` line. -/
def CompactDraft.addMove (d : CompactDraft) (value : List Char) : Except Halt CompactDraft :=
  match scanRecord [32, 32, 32, 32] value with
  | some [source, destination, next, predecessor] =>
    pure { d with moves := d.moves ++ [⟨source, destination, next, predecessor⟩] }
  | _ => throw (.dieMsg "invalid compact journal move record")

/-- A `dir_patch` line. -/
def CompactDraft.addDirPatch (d : CompactDraft) (value : List Char) : Except Halt CompactDraft :=
  match scanRecord [64, 32, 32] value with
  | some [offset, oldTarget, newTarget] =>
    pure { d with dirPatches := d.dirPatches ++ [⟨offset, oldTarget, newTarget⟩] }
  | _ => throw (.dieMsg "invalid compact journal directory patch")

/-- One `key=value` line of `compact_journal_read`. -/
def compactField (d : CompactDraft) (key value : List Char) : Except Halt CompactDraft :=
  if key = "device".toList then pure { d with devicePath := some value }
  else if key = "volume_id".toList then pure { d with volumeId := strtoul 16 value % 2 ^ 32 }
  else if key = "stage".toList then pure { d with stage := .ofLong (strtol value) }
  else if key = "root_old".toList then pure { d with rootOld := strtoul 10 value % 2 ^ 32 }
  else if key = "root_new".toList then pure { d with rootNew := strtoul 10 value % 2 ^ 32 }
  else if key = "move_count".toList then pure { d with expectedMoves := strtoul 10 value }
  else if key = "dir_patch_count".toList then pure { d with expectedPatches := strtoul 10 value }
  else if key = "move".toList then d.addMove value
  else if key = "dir_patch".toList then d.addDirPatch value
  else pure d

/-- One line of `compact_journal_read`. -/
def compactLine (d : CompactDraft) (line : List Char) : Except Halt CompactDraft :=
  match splitAtEq (chomp line) with
  | none => pure d
  | some (key, value) => compactField d key value

/-- The completeness check at the end of `compact_journal_read`. -/
def CompactDraft.finish (d : CompactDraft) : Except Halt CompactJournal :=
  match d.devicePath with
  | none => throw (.dieMsg "compact journal is incomplete or corrupt")
  | some devicePath => do
    dieIf (d.moves.length = 0 ∨ d.moves.length ≠ d.expectedMoves ∨
      d.dirPatches.length ≠ d.expectedPatches ∨ d.rootOld < 2 ∨ d.rootNew < 2)
      "compact journal is incomplete or corrupt"
    return ⟨devicePath, d.volumeId, d.stage, d.rootOld, d.rootNew, d.moves, d.dirPatches⟩

/-- `compact_journal_read` on the contents of the file. -/
def compactJournalRead (text : List Char) : Except Halt CompactJournal :=
  match lines text with
  | [] => throw (.dieMsg "invalid compact journal header")
  | header :: rest => do
    dieIf (header ≠ compactJournalMagic ++ ['\n']) "invalid compact journal header"
    let d ← rest.foldlM compactLine {}
    d.finish

/-- The fields hold what their C types can hold. -/
structure CompactJournal.Fits (j : CompactJournal) : Prop where
  volumeId : j.volumeId < 2 ^ 32
  rootOld : j.rootOld < 2 ^ 32
  rootNew : j.rootNew < 2 ^ 32
  moves : ∀ m ∈ j.moves, m.source < 2 ^ 32 ∧ m.destination < 2 ^ 32 ∧ m.next < 2 ^ 32 ∧
    m.predecessor < 2 ^ 32
  dirPatches : ∀ p ∈ j.dirPatches, p.offset < 2 ^ 64 ∧ p.oldTarget < 2 ^ 32 ∧ p.newTarget < 2 ^ 32
  moves_length : j.moves.length < 2 ^ 64
  dirPatches_length : j.dirPatches.length < 2 ^ 64

theorem foldlM_compactLine (h : ∀ p ∈ fields, Printable p) (d : CompactDraft) :
    (fields.map fun p ↦ field p.1 p.2 ++ ['\n']).foldlM compactLine d =
      fields.foldlM (fun d p ↦ compactField d p.1 p.2) d := by
  induction fields generalizing d with
  | nil => rfl
  | cons p fields ih =>
    rw [map_cons, foldlM_cons, foldlM_cons, compactLine, (h p mem_cons_self).splitAtEq]
    exact congrArg _ (funext fun d ↦ ih (fun q hq ↦ h q (mem_cons_of_mem _ hq)) d)

variable {j : CompactJournal}

theorem printable_compactJournalFields (hpath : OneLine j.devicePath) :
    ∀ p ∈ compactJournalFields j, Printable p := by
  have hmove : ∀ m, Printable (moveField m) := fun m ↦ printable (by decide) (oneLine_commaDec _)
  have hpatch : ∀ p, Printable (dirPatchField p) :=
    fun p ↦ printable (by decide) (oneLine_commaDec _)
  simp only [compactJournalFields, forall_mem_append, forall_mem_cons, not_mem_nil,
    false_imp_iff, implies_true, and_true, forall_mem_map, hmove, hpatch]
  exact ⟨⟨printable (by decide) hpath, printable (by decide) (oneLine_hex8 _),
    printable (by decide) (oneLine_decInt _), printable (by decide) (oneLine_dec _),
    printable (by decide) (oneLine_dec _), printable (by decide) (oneLine_dec _)⟩,
    printable (by decide) (oneLine_dec _)⟩

theorem foldlM_moveFields
    (h : ∀ m ∈ moves, m.source < 2 ^ 32 ∧ m.destination < 2 ^ 32 ∧ m.next < 2 ^ 32 ∧
      m.predecessor < 2 ^ 32) (d : CompactDraft) :
    (moves.map moveField).foldlM (fun d p ↦ compactField d p.1 p.2) d =
      .ok { d with moves := d.moves ++ moves } := by
  induction moves generalizing d with
  | nil => simp
  | cons m moves ih =>
    obtain ⟨h₁, h₂, h₃, h₄⟩ := h m mem_cons_self
    have hscan : scanRecord [32, 32, 32, 32]
        (commaDec [m.source, m.destination, m.next, m.predecessor]) =
          some [m.source, m.destination, m.next, m.predecessor] :=
      scanRecord_commaDec (by decide) (.cons h₁ (.cons h₂ (.cons h₃ (.cons h₄ .nil))))
    have hstep : compactField d (moveField m).1 (moveField m).2 =
        .ok { d with moves := d.moves ++ [m] } := by
      show d.addMove (commaDec [m.source, m.destination, m.next, m.predecessor]) = _
      rw [CompactDraft.addMove, hscan]
      rfl
    rw [map_cons, foldlM_cons, hstep, ok_bind,
      ih (fun n hn ↦ h n (mem_cons_of_mem _ hn)), append_assoc]
    rfl

theorem foldlM_dirPatchFields {patches : List CompactDirPatch}
    (h : ∀ p ∈ patches, p.offset < 2 ^ 64 ∧ p.oldTarget < 2 ^ 32 ∧ p.newTarget < 2 ^ 32)
    (d : CompactDraft) :
    (patches.map dirPatchField).foldlM (fun d p ↦ compactField d p.1 p.2) d =
      .ok { d with dirPatches := d.dirPatches ++ patches } := by
  induction patches generalizing d with
  | nil => simp
  | cons p patches ih =>
    obtain ⟨h₁, h₂, h₃⟩ := h p mem_cons_self
    have hscan : scanRecord [64, 32, 32] (commaDec [p.offset, p.oldTarget, p.newTarget]) =
        some [p.offset, p.oldTarget, p.newTarget] :=
      scanRecord_commaDec (by decide) (.cons h₁ (.cons h₂ (.cons h₃ .nil)))
    have hstep : compactField d (dirPatchField p).1 (dirPatchField p).2 =
        .ok { d with dirPatches := d.dirPatches ++ [p] } := by
      show d.addDirPatch (commaDec [p.offset, p.oldTarget, p.newTarget]) = _
      rw [CompactDraft.addDirPatch, hscan]
      rfl
    rw [map_cons, foldlM_cons, hstep, ok_bind,
      ih (fun n hn ↦ h n (mem_cons_of_mem _ hn)), append_assoc]
    rfl

/-- Every field reads back; what is left is the completeness check. -/
theorem compactJournalRead_compactJournalText (hfit : j.Fits) (hpath : OneLine j.devicePath) :
    compactJournalRead (compactJournalText j) =
      CompactDraft.finish ⟨some j.devicePath, j.volumeId, j.stage, j.rootOld, j.rootNew, j.moves,
        j.dirPatches, j.moves.length, j.dirPatches.length⟩ := by
  have hprint := printable_compactJournalFields hpath
  have hhead : [("device".toList, j.devicePath), ("volume_id".toList, hex8 j.volumeId),
      ("stage".toList, decInt j.stage.toInt), ("root_old".toList, dec j.rootOld),
      ("root_new".toList, dec j.rootNew), ("move_count".toList, dec j.moves.length)].foldlM
        (fun d p ↦ compactField d p.1 p.2) {} =
      .ok ⟨some j.devicePath, strtoul 16 (hex8 j.volumeId) % 2 ^ 32,
        .ofLong (strtol (decInt j.stage.toInt)), strtoul 10 (dec j.rootOld) % 2 ^ 32,
        strtoul 10 (dec j.rootNew) % 2 ^ 32, [], [], strtoul 10 (dec j.moves.length), 0⟩ := rfl
  have hcount : ∀ d : CompactDraft,
      compactField d "dir_patch_count".toList (dec j.dirPatches.length) =
        .ok { d with expectedPatches := strtoul 10 (dec j.dirPatches.length) } := fun d ↦ rfl
  rw [strtoul_hex8_u32 hfit.volumeId, j.stage.ofLong_strtol, strtoul_dec_u32 hfit.rootOld,
    strtoul_dec_u32 hfit.rootNew, strtoul_dec hfit.moves_length] at hhead
  simp only [strtoul_dec hfit.dirPatches_length] at hcount
  have hfold : (compactJournalFields j).foldlM (fun d p ↦ compactField d p.1 p.2) {} =
      .ok (⟨some j.devicePath, j.volumeId, j.stage, j.rootOld, j.rootNew, j.moves, j.dirPatches,
        j.moves.length, j.dirPatches.length⟩ : CompactDraft) := by
    rw [compactJournalFields, foldlM_append, foldlM_append, hhead, ok_bind,
      foldlM_moveFields hfit.moves, ok_bind, foldlM_cons, hcount, ok_bind,
      foldlM_dirPatchFields hfit.dirPatches]
    rfl
  rw [compactJournalRead, compactJournalText, lines_fieldsText (by decide) hprint]
  simp only [foldlM_compactLine hprint, hfold]
  exact dieIf_bind_of_not (by simp) _ _

/-- **What the mapped journal's reader asks of a journal it is given back.** -/
theorem compactJournalRead_eq_ok_iff (hfit : j.Fits) (hpath : OneLine j.devicePath) :
    compactJournalRead (compactJournalText j) = .ok j ↔
      j.moves ≠ [] ∧ 2 ≤ j.rootOld ∧ 2 ≤ j.rootNew := by
  rw [compactJournalRead_compactJournalText hfit hpath]
  simp only [CompactDraft.finish, dieIf_bind_eq_ok, pure_eq_ok, ne_eq, not_true_eq_false, false_or,
    not_or, not_lt, length_eq_zero_iff, and_true]

/-! ### Journals of transactions -/

/-- Sources do not repeat, so there are no more moves than clusters. -/
theorem ValidMoves.length_le {fs : Fat32} (h : ValidMoves fs moves) :
    moves.length ≤ fs.maxCluster + 1 := by
  have hsub : moves.map CompactMove.source ⊆ range (fs.maxCluster + 1) := by
    intro c hc
    obtain ⟨m, hm, rfl⟩ := mem_map.1 hc
    exact mem_range.2 (Nat.lt_succ_of_le (h.source m hm).2)
  have hle := (subperm_of_subset h.sources_nodup hsub).length_le
  rwa [length_map, length_range] at hle

/-- **What a transaction records fits the fields of the file.** -/
theorem makeCompactJournal_fits {fs : Fat32} (h : fs.Layout) {refs : List DirRef} {pred : ℕ → ℕ}
    (hpred : ∀ c, pred c < 2 ^ 32) (hrefs : refs.length < 2 ^ 64)
    (hj : makeCompactJournal fs refs pred moves = .ok j) : j.Fits := by
  obtain ⟨hvalid, hmoves, ⟨patches, hpatches, hdir⟩, -, -, hvol, -, hold, hnew⟩ :=
    makeCompactJournal_eq_ok hj
  have hmax : fs.maxCluster < 2 ^ 32 := by
    have hlt := h.maxCluster_lt
    have hcount := h.fatEntryCount
    omega
  have hroot : fs.rootCluster ≤ fs.maxCluster := by
    have := h.rootCluster
    split_ifs at this with ht
    · exact this.2
    · omega
  have hnewle : j.rootNew ≤ fs.maxCluster := by
    rw [hnew]
    split_ifs
    · exact hvalid.moveMap_le _
    · exact hroot
  refine ⟨hvol ▸ h.volumeId_lt, by omega, by omega, ?_, ?_, ?_, ?_⟩
  · intro m hm
    have hs := hvalid.source m hm
    have hd := hvalid.destination m hm
    rw [hmoves] at hm
    obtain ⟨m₀, -, rfl⟩ := mem_map.1 hm
    have hnext := fs.fatType.and_mask_lt (fs.fat m₀.source)
    have hbits : 2 ^ fs.fatType.bits ≤ 2 ^ 28 := by cases fs.fatType <;> decide
    refine ⟨by omega, by omega, hnext.trans_le (hbits.trans (by decide)), hpred _⟩
  · intro p hp
    rw [hdir, reduceOption_mem_iff] at hp
    obtain ⟨ref, -, hpatch⟩ := exists_of_mem_forall₂ hpatches hp
    obtain ⟨htarget, hpatch⟩ := dirPatch_eq_ok.1 hpatch
    split_ifs at hpatch with hz
    obtain ⟨offset, hoff, hpatch⟩ := hpatch
    obtain rfl := Option.some.inj hpatch
    have hlt := patchOffset_lt h hoff
    have htotal := h.data_le_total
    have hsectors := h.totalSectors_lt
    have hle := hvalid.moveMap_le ref.targetCluster
    refine ⟨?_, htarget.trans_lt hmax, hle.trans_lt hmax⟩
    refine lt_trans hlt ?_
    rcases h.bytesPerSector with hb | hb | hb | hb <;> rw [hb] at htotal <;> omega
  · have := hvalid.length_le
    omega
  · have hlen := reduceOption_length_le patches
    rw [← hpatches.length_eq, ← hdir] at hlen
    omega

/-- **Which journals recovery can read.** A mapped journal of at least one move reads back just on
FAT32; a single-file journal reads back always. -/
theorem journals_read_back_iff {fs : Fat32} (h : fs.Loaded) (hpath : OneLine fs.dev.path)
    {refs : List DirRef} {pred : ℕ → ℕ} {moves : List CompactMove} {j : CompactJournal}
    (hrefs : refs.length < 2 ^ 64) (hpred : ∀ c, pred c < 2 ^ 32) (hmoves : moves ≠ [])
    (hj : makeCompactJournal fs refs pred moves = .ok j) {single : Journal} (hfit : single.Fits)
    (hsingle : OneLine single.devicePath) (hsource : single.source ≠ []) :
    (compactJournalRead (compactJournalText j) = .ok j ↔ fs.fatType = .fat32) ∧
      journalRead (journalText single) = .ok single := by
  refine ⟨?_, journalRead_journalText hfit hsingle hsource⟩
  have hfits := makeCompactJournal_fits h.toLayout hpred hrefs hj
  obtain ⟨hvalid, hlinked, -, -, hdev, -, -, hold, hnew⟩ := makeCompactJournal_eq_ok hj
  rw [compactJournalRead_eq_ok_iff hfits (hdev ▸ hpath)]
  have hroot := h.rootCluster
  constructor
  · rintro ⟨-, hold₂, -⟩
    by_contra hne
    rw [if_neg hne] at hroot
    omega
  · intro ht
    rw [if_pos ht] at hroot
    refine ⟨by simpa [hlinked] using hmoves, by omega, ?_⟩
    rw [hnew]
    split_ifs with hmap
    · exact hvalid.two_le_moveMap hmap
    · exact hroot.1

/-! ### A FAT12 journal that cannot be read -/

/-- A FAT12 volume of thirteen clusters with a file of 512 bytes in cluster `2`. -/
def oneFileImage : Image := fun a ↦
  ([(12, 0x02), (13, 1), (14, 1), (16, 1), (17, 16), (19, 16), (22, 1), (510, 0x55), (511, 0xAA),
    (515, 0xFF), (516, 0x0F), (1024, 0x41), (1050, 2), (1053, 2)].lookup a).getD 0

/-- The device of that volume. -/
def oneFileDevice : Device where
  path := "/dev/fd0".toList
  writable := true
  sizeBytes := 16 * 512
  image := oneFileImage
  log := []

/-- The volume as it is loaded. -/
def oneFileVolume : Fat32 :=
  (bootFields oneFileImage oneFileDevice false).withFat
    (decodeTable .fat12 (oneFileImage.view 512) 341)

theorem fat32Load_oneFileDevice : fat32Load 2 oneFileDevice false = .ok oneFileVolume := rfl

/-- The journal of moving the file's cluster from `2` to `3`. -/
def oneFileJournal : CompactJournal where
  devicePath := "/dev/fd0".toList
  volumeId := 0
  stage := .prepared
  rootOld := 0
  rootNew := 0
  moves := [⟨2, 3, 0xFFF, 0⟩]
  dirPatches := [⟨1024, 2, 3⟩]

theorem makeCompactJournal_oneFileVolume :
    makeCompactJournal oneFileVolume [⟨1024, 2⟩] (fun _ ↦ 0) [⟨2, 3, 0, 0⟩] =
      .ok oneFileJournal := rfl

/-- **The journal of a FAT12 move is refused as corrupt.** -/
theorem fat12_journal_refused :
    fat32Load 2 oneFileDevice false = .ok oneFileVolume ∧
      makeCompactJournal oneFileVolume [⟨1024, 2⟩] (fun _ ↦ 0) [⟨2, 3, 0, 0⟩] = .ok oneFileJournal ∧
      compactJournalRead (compactJournalText oneFileJournal) =
        .error (.dieMsg "compact journal is incomplete or corrupt") := by
  refine ⟨fat32Load_oneFileDevice, makeCompactJournal_oneFileVolume, ?_⟩
  decide

theorem journals_read_back_oneFile :
    (compactJournalRead (compactJournalText oneFileJournal) = .ok oneFileJournal ↔
      oneFileVolume.fatType = .fat32) ∧
    journalRead (journalText ⟨"/dev/fd0".toList, 0, .prepared, 1024, 2, 3, [2]⟩) =
      .ok ⟨"/dev/fd0".toList, 0, .prepared, 1024, 2, 3, [2]⟩ :=
  journals_read_back_iff (fat32Load_loaded fat32Load_oneFileDevice).1 (by decide) (by decide)
    (fun _ ↦ by decide) (by decide) makeCompactJournal_oneFileVolume
    ⟨by decide, by decide, by decide, by decide, by decide, by decide⟩ (by decide) (by decide)

end LinuxDefragger.Fat
