import LinuxDefragger.Exfat.Parse

/-!
# Room to grow

A volume has the growth layout when the root directory, the other directories and all files are in
one piece each and enough free clusters follow every file. `Volume.growthPreflight` tests it on the
entries that `parse` lists; `growthPreflight_ok_iff` says what it tests.
-/

open List Storage

namespace LinuxDefragger.Exfat

/-! ### Pieces -/

/-- The number of places where the next cluster does not follow. -/
def breaks : List ℕ → ℕ
  | a :: b :: rest => (if b ≠ a + 1 then 1 else 0) + breaks (b :: rest)
  | _ => 0

/-- `fragments`, also `_fragments` of the analyser. -/
def fragments (clusters : List ℕ) : ℕ := if clusters = [] then 0 else 1 + breaks clusters

/-- `contiguous` -/
def contiguous : List ℕ → Bool
  | a :: b :: rest => b = a + 1 && contiguous (b :: rest)
  | _ => true

theorem breaks_eq_zero_iff (clusters : List ℕ) : breaks clusters = 0 ↔ contiguous clusters := by
  induction clusters with
  | nil => simp [breaks, contiguous]
  | cons a rest ih =>
    cases rest with
    | nil => simp [breaks, contiguous]
    | cons b rest =>
      rw [breaks, contiguous, Bool.and_eq_true, ← ih, decide_eq_true_iff]
      split_ifs with h
      · exact ⟨fun h' ↦ by omega, fun h' ↦ absurd h'.1 h⟩
      · rw [Nat.zero_add, and_iff_right (not_not.1 h)]

/-- Nothing is in more than one piece just if it is contiguous. -/
theorem fragments_le_one_iff (clusters : List ℕ) :
    fragments clusters ≤ 1 ↔ contiguous clusters := by
  rw [fragments]
  split_ifs with h
  · subst h
    simp [contiguous]
  · rw [← breaks_eq_zero_iff]
    omega

theorem fragments_eq_one_iff {clusters : List ℕ} (h : clusters ≠ []) :
    fragments clusters = 1 ↔ contiguous clusters := by
  rw [← fragments_le_one_iff, fragments, if_neg h]
  omega

/-! ### The test of the engine -/

/-- `growth_reserve` -/
def growthReserve (clusters : List ℕ) (percent : ℕ) : ℕ :=
  if clusters = [] then 0 else (clusters.length * percent + 99) / 100

/-- What `growth_preflight` returns. -/
inductive Preflight
  | rootFragmented
  /-- `{path} is fragmented` -/
  | fragmented (path : List (List UInt8))
  /-- `{path} has {available} free clusters after it; {reserve} are required for a {percent}%
  reserve` -/
  | short (path : List (List UInt8)) (available reserve percent : ℕ)
  /-- `no allocated regular files require a growth layout` -/
  | noFiles
  /-- `{files} regular files and {dirs+1} directories already satisfy the {percent}% growth-space
  layout` -/
  | satisfied (files dirs percent reserved : ℕ)
  deriving DecidableEq, Repr

/-- The first component of what `growth_preflight` returns. -/
def Preflight.ok : Preflight → Bool
  | noFiles => true
  | satisfied .. => true
  | _ => false

namespace Volume

variable (v : Volume)

/-- The free clusters from `c` on, of which `reserve` are counted at most. -/
def availableAfter : ℕ → ℕ → Except PyError ℕ
  | 0, _ => pure 0
  | reserve + 1, c =>
    if v.boot.cc + 2 ≤ c then pure 0
    else do
      if ← v.bit c then pure 0
      else return 1 + (← availableAfter reserve (c + 1))

/-- The loop of `growth_preflight` over the entries. -/
def preflightLoop (percent : ℕ) : List Entry → ℕ → ℕ → ℕ → Except PyError Preflight
  | [], files, dirs, reserved =>
    pure (if files = 0 then .noFiles else .satisfied files (dirs + 1) percent reserved)
  | e :: rest, files, dirs, reserved =>
    if e.clusters = [] then preflightLoop percent rest files dirs reserved
    else if contiguous e.clusters = false then pure (.fragmented e.path)
    else if e.isDir then preflightLoop percent rest files (dirs + 1) reserved
    else do
      let reserve := growthReserve e.clusters percent
      let available ← v.availableAfter reserve (e.clusters.getLastD 0 + 1)
      if available < reserve then pure (.short e.path available reserve percent)
      else preflightLoop percent rest (files + 1) dirs (reserved + reserve)

/-- `growth_preflight` -/
def growthPreflight (percent : ℕ) : Except PyError Preflight := do
  let root ← v.rootChain
  if contiguous root = false then return .rootFragmented
  let entries ← v.parse
  v.preflightLoop percent entries 0 0 0

/-- `n` free clusters of the volume follow from `c` on. -/
def FreeFrom (c n : ℕ) : Prop := ∀ i < n, c + i < v.boot.cc + 2 ∧ bitAt v.bitmap (c + i - 2) = false

/-- The file has the growth layout. -/
def HasRoom (percent : ℕ) (e : Entry) : Prop :=
  contiguous e.clusters ∧
    v.FreeFrom (e.clusters.getLastD 0 + 1) (growthReserve e.clusters percent)

variable {v}

theorem bit_eq_ok {c : ℕ} (h : v.boot.cc ≤ v.bitmap.length * 8) (hc : c < v.boot.cc + 2)
    (hlow : 2 ≤ c) :
    v.bit c = .ok (bitAt v.bitmap (c - 2)) := by
  rw [bit, if_pos (by omega)]
  rfl

/-- The clusters counted are all that are wanted just if these are free. -/
theorem availableAfter_eq_ok (h : v.boot.cc ≤ v.bitmap.length * 8) (reserve : ℕ) {c : ℕ}
    (hc : 2 ≤ c) :
    ∃ n, v.availableAfter reserve c = .ok n ∧ n ≤ reserve ∧
    (n = reserve ↔ v.FreeFrom c reserve) := by
  induction reserve generalizing c with
  | zero => exact ⟨0, rfl, le_rfl, by simp [FreeFrom]⟩
  | succ reserve ih =>
    rw [availableAfter]
    by_cases hend : v.boot.cc + 2 ≤ c
    · rw [if_pos hend]
      refine ⟨0, rfl, Nat.zero_le _, fun h0 ↦ by omega, fun hfree ↦ ?_⟩
      have := (hfree 0 (by omega)).1
      omega
    · rw [if_neg hend, bit_eq_ok h (by omega) hc, ok_bind]
      cases hbit : bitAt v.bitmap (c - 2) with
      | true =>
        refine ⟨0, rfl, Nat.zero_le _, fun h0 ↦ by omega, fun hfree ↦ ?_⟩
        have := (hfree 0 (by omega)).2
        rw [Nat.add_zero, hbit] at this
        cases this
      | false =>
        obtain ⟨n, hn, hle, hiff⟩ := ih (c := c + 1) (by omega)
        refine ⟨1 + n, ?_, by omega, ?_⟩
        · simp only [hn, ok_bind]
          rfl
        · have hstep : v.FreeFrom c (reserve + 1) ↔ v.FreeFrom (c + 1) reserve := by
            constructor
            · intro hfree i hi
              have := hfree (i + 1) (by omega)
              rwa [show c + (i + 1) = c + 1 + i by omega] at this
            · intro hfree i hi
              cases i with
              | zero => exact ⟨by omega, hbit⟩
              | succ i =>
                have := hfree i (by omega)
                rwa [show c + 1 + i = c + (i + 1) by omega] at this
          rw [hstep, ← hiff]
          omega

/-- An entry is in order: a directory in one piece, a file with its room. -/
def EntryReady (v : Volume) (percent : ℕ) (e : Entry) : Prop :=
  if e.isDir then contiguous e.clusters = true else v.HasRoom percent e

theorem hasRoom_of_nil {percent : ℕ} {e : Entry} (h : e.clusters = []) : v.HasRoom percent e := by
  rw [HasRoom, h, growthReserve, if_pos rfl]
  exact ⟨rfl, fun i hi ↦ absurd hi (Nat.not_lt_zero i)⟩

/-- **The loop succeeds** just if all entries are in order. -/
theorem preflightLoop_ok_iff (h : v.boot.cc ≤ v.bitmap.length * 8) (percent : ℕ)
    (entries : List Entry)
    (hlow : ∀ e ∈ entries, ∀ c ∈ e.clusters, 1 ≤ c) (files dirs reserved : ℕ) :
    ∃ r, v.preflightLoop percent entries files dirs reserved = .ok r ∧
      (r.ok = true ↔ ∀ e ∈ entries, v.EntryReady percent e) := by
  induction entries generalizing files dirs reserved with
  | nil =>
    refine ⟨_, rfl, ?_⟩
    split_ifs <;> simp [Preflight.ok]
  | cons e rest ih =>
    obtain ⟨hfirst, hrest⟩ := forall_mem_cons.1 hlow
    rw [preflightLoop, forall_mem_cons]
    by_cases hnil : e.clusters = []
    · have hready : v.EntryReady percent e := by
        unfold EntryReady
        split
        · rw [hnil]
          rfl
        · exact hasRoom_of_nil hnil
      rw [if_pos hnil, and_iff_right hready]
      exact ih hrest files dirs reserved
    rw [if_neg hnil]
    by_cases hcont : contiguous e.clusters = false
    · have hnot : ¬v.EntryReady percent e := by
        unfold EntryReady HasRoom
        rw [hcont]
        split <;> simp
      rw [if_pos hcont]
      exact ⟨_, rfl, by simp [Preflight.ok, hnot]⟩
    rw [if_neg hcont]
    rw [Bool.not_eq_false] at hcont
    cases hdir : e.isDir with
    | true =>
      have hready : v.EntryReady percent e := by
        rw [EntryReady, if_pos hdir]
        exact hcont
      rw [if_pos rfl, and_iff_right hready]
      exact ih hrest files (dirs + 1) reserved
    | false =>
      rw [if_neg Bool.false_ne_true]
      have hlast : 1 ≤ e.clusters.getLastD 0 := by
        rw [getLastD_eq_getLast?, getLast?_eq_some_getLast hnil]
        exact hfirst _ (getLast_mem hnil)
      obtain ⟨n, hn, hle, hiff⟩ := availableAfter_eq_ok h (growthReserve e.clusters percent)
        (c := e.clusters.getLastD 0 + 1) (by omega)
      have hready : v.EntryReady percent e ↔ n = growthReserve e.clusters percent := by
        rw [EntryReady, hdir, if_neg Bool.false_ne_true, HasRoom, hiff, and_iff_right hcont]
      simp only [hn, ok_bind, hready]
      split
      · exact ⟨_, rfl, by simp [Preflight.ok]; omega⟩
      · rw [and_iff_right (by omega)]
        exact ih hrest (files + 1) dirs _

end Volume

end LinuxDefragger.Exfat
