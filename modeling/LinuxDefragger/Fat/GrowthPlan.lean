import LinuxDefragger.Fat.Scan

/-!
# The growth layout: planning it and recognising it

Growth defragmentation packs the objects of a volume in physical order and leaves free clusters
after every regular file, a given percentage of its length. `planGrowthLayout` computes where each
object goes. Two read-only checks decide whether a volume already is as wanted:
`growthLayoutPreflight` walks the files in scan order and stops at the first problem, and
`growthLayoutMatchesCanonical` compares a fresh plan with where the objects are.

`FollowedByFree fs start n` is what a reserve of `n` clusters means: going up from `start` and not
counting bad clusters, the next `n` clusters are free.
-/

open List Storage

namespace LinuxDefragger.Fat

/-! ### Objects -/

/-- `GrowthObject` -/
structure GrowthObject where
  isRoot : Bool
  isDir : Bool
  path : List UInt8
  clusters : ℕ
  physicalFirst : ℕ
  target : ℕ
  reserveAfter : ℕ
  deriving DecidableEq, Repr

/-- `chain_min_cluster` -/
def chainMinCluster (chain : List ℕ) : ℕ := chain.foldl min 0xFFFFFFFF

/-- `strcmp(a, b) <= 0` -/
def strcmpLe : List UInt8 → List UInt8 → Bool
  | [], _ => true
  | _ :: _, [] => false
  | a :: as, b :: bs => if a = b then strcmpLe as bs else a < b

/-- `compare_growth_objects_asc(a, b) <= 0` -/
def growthLe (a b : GrowthObject) : Bool :=
  if a.physicalFirst ≠ b.physicalFirst then a.physicalFirst < b.physicalFirst
  else if a.isRoot ≠ b.isRoot then a.isRoot
  else if a.isDir ≠ b.isDir then a.isDir
  else strcmpLe a.path b.path

/-- The object of an allocated file or directory. -/
def FileRecord.growthObject (f : FileRecord) : GrowthObject :=
  ⟨false, f.isDir, f.path, f.chain.length, chainMinCluster f.chain, 0, 0⟩

/-- The object of a root directory that is a cluster chain. -/
def rootGrowthObject (root : List ℕ) : GrowthObject :=
  ⟨true, true, "<root directory>".toUTF8.toList, root.length, chainMinCluster root, 0, 0⟩

/-- The objects in the order in which `build_growth_objects` pushes them. -/
def pushedGrowthObjects (root : List ℕ) (files : List FileRecord) : List GrowthObject :=
  (if root = [] then [] else [rootGrowthObject root]) ++
    (files.filter fun f ↦ f.chain ≠ []).map FileRecord.growthObject

/-- The objects in physical order. The chains of a scanned volume are disjoint, so no two objects
compare equal and the order does not depend on how `qsort` sorts. -/
def sortedGrowthObjects (root : List ℕ) (files : List FileRecord) : List GrowthObject :=
  (pushedGrowthObjects root files).insertionSort fun a b ↦ growthLe a b

/-- The regular files that have clusters. -/
def allocatedFiles (files : List FileRecord) : List FileRecord :=
  files.filter fun f ↦ f.chain ≠ [] ∧ f.isDir = false

/-- What `build_growth_objects` returns: the objects in physical order and its four counters. -/
structure GrowthObjects where
  objects : List GrowthObject
  largest : ℕ
  regularClusters : ℕ
  regularFiles : ℕ
  directories : ℕ
  deriving DecidableEq, Repr

/-- `build_growth_objects` -/
def buildGrowthObjects (fs : Fat32) (files : List FileRecord) : Except Halt GrowthObjects := do
  let root ← filesystemRootChain fs
  let pushed := pushedGrowthObjects root files
  return {
    objects := sortedGrowthObjects root files
    largest := (pushed.map GrowthObject.clusters).foldl max 0
    regularClusters := ((allocatedFiles files).map fun f ↦ f.chain.length).sum
    regularFiles := (allocatedFiles files).length
    directories := (pushed.filter GrowthObject.isDir).length }

/-! ### The plan -/

/-- `growth_cluster_is_barrier`. Every cluster it is asked about lies below a limit of at most
`max_cluster + 1`, so `fat_value` cannot die. -/
def growthClusterIsBarrier (fs : Fat32) (cluster : ℕ) : Bool :=
  fs.value cluster = fs.fatType.badValue

/-- The outer loop of `growth_find_usable_run`. The start moves up in every round, so as many rounds
as there are clusters below the limit are enough. -/
def findRunFrom (fs : Fat32) (length limit : ℕ) : ℕ → ℕ → Option ℕ
  | 0, _ => none
  | fuel + 1, start =>
    if start < limit then
      if start + length > limit then none
      else match (List.range' start length).find? (growthClusterIsBarrier fs) with
        | none => some start
        | some barrier => findRunFrom fs length limit fuel (barrier + 1)
    else none

/-- `growth_find_usable_run` -/
def growthFindUsableRun (fs : Fat32) (cursor length limit : ℕ) : Option ℕ :=
  if length = 0 ∨ cursor < 2 then none else findRunFrom fs length limit limit cursor

/-- The loop of `growth_advance_reserve`; `left` is the number of clusters below the limit. -/
def advanceFrom (fs : Fat32) : ℕ → ℕ → ℕ → Option ℕ
  | _, 0, c => some c
  | 0, _ + 1, _ => none
  | left + 1, remaining + 1, c =>
    advanceFrom fs left (if growthClusterIsBarrier fs c then remaining + 1 else remaining) (c + 1)

/-- Called with `cursor` at most the limit. -/
def growthAdvanceReserve (fs : Fat32) (cursor reserve limit : ℕ) : Option ℕ :=
  advanceFrom fs (limit - cursor) reserve cursor

/-- Clusters to leave free after a regular file: the percentage of its length, rounded up. -/
def growthReserve (clusters percent : ℕ) : ℕ := (clusters * percent + 99) / 100

/-- The loop of `plan_growth_layout` from a cursor: the objects with their targets, the total
reserve and the final cursor. The sums fit a `size_t`, so its overflow check cannot fire. -/
def planFrom (fs : Fat32) (percent limit : ℕ) :
    ℕ → List GrowthObject → Option (List GrowthObject × ℕ × ℕ)
  | cursor, [] => some ([], 0, cursor)
  | cursor, o :: rest => do
    let target ← growthFindUsableRun fs cursor o.clusters limit
    if target + o.clusters > limit then none
    else if o.isDir then
      let (os, total, last) ← planFrom fs percent limit (target + o.clusters) rest
      return ({ o with target, reserveAfter := 0 } :: os, total, last)
    else
      let reserve := growthReserve o.clusters percent
      let cursor ← growthAdvanceReserve fs (target + o.clusters) reserve limit
      let (os, total, last) ← planFrom fs percent limit cursor rest
      return ({ o with target, reserveAfter := reserve } :: os, reserve + total, last)

/-- The planned objects, the total reserve and the end of the layout. -/
def planGrowthLayout (fs : Fat32) (objects : List GrowthObject) (percent workspaceStart : ℕ) :
    Option (List GrowthObject × ℕ × ℕ) := do
  let (os, total, cursor) ← planFrom fs percent workspaceStart 2 objects
  return (os, total, if cursor = 0 then 0 else cursor - 1)

/-! ### The two checks -/

/-- `chain_is_exact_run` -/
def chainIsExactRun (chain : List ℕ) (start : ℕ) : Bool :=
  chain ≠ [] ∧ chain = List.range' start chain.length

/-- `GrowthPreflightIssue` -/
inductive GrowthPreflightIssue
  | ok
  | noFiles
  | rootFragmented
  | objectFragmented
  | reserveShort
  deriving DecidableEq, Repr

/-- `GrowthPreflight` -/
structure GrowthPreflight where
  issue : GrowthPreflightIssue
  regularFiles : ℕ
  directories : ℕ
  reserveClusters : ℕ
  requiredReserve : ℕ
  availableReserve : ℕ
  problemPath : Option (List UInt8)
  deriving DecidableEq, Repr

/-- The loop that counts the free clusters after a file, over the clusters that are left. -/
def availableFrom (fs : Fat32) (reserve : ℕ) : List ℕ → ℕ → ℕ
  | [], available => available
  | c :: cs, available =>
    if reserve ≤ available then available
    else if fs.value c = fs.fatType.badValue then availableFrom fs reserve cs available
    else if fs.fatIsFree c then availableFrom fs reserve cs (available + 1)
    else available

/-- Free clusters found after a chain of a regular file, up to the reserve asked for. -/
def availableReserve (fs : Fat32) (reserve cursor : ℕ) : ℕ :=
  availableFrom fs reserve (List.range' cursor (fs.maxCluster + 1 - cursor)) 0

/-- The file loop of `growth_layout_preflight`, with the result so far. -/
def preflightFiles (fs : Fat32) (percent : ℕ) : List FileRecord → GrowthPreflight → GrowthPreflight
  | [], r => { r with issue := if r.regularFiles = 0 then .noFiles else .ok }
  | f :: rest, r =>
    if f.chain = [] then preflightFiles fs percent rest r
    else if chainIsExactRun f.chain (f.chain.headD 0) = false then
      { r with issue := .objectFragmented, problemPath := some f.path }
    else if f.isDir then preflightFiles fs percent rest { r with directories := r.directories + 1 }
    else
      -- the counters stay far below `SIZE_MAX`, so the overflow check cannot fire
      let reserve := growthReserve f.chain.length percent
      let r := { r with
        regularFiles := r.regularFiles + 1
        reserveClusters := r.reserveClusters + reserve }
      let available := availableReserve fs reserve (f.chain.headD 0 + f.chain.length)
      if available < reserve then
        { r with
          issue := .reserveShort
          problemPath := some f.path
          requiredReserve := reserve
          availableReserve := available }
      else preflightFiles fs percent rest r

/-- `growth_layout_preflight` -/
def growthLayoutPreflight (fs : Fat32) (files : List FileRecord) (percent : ℕ) :
    Except Halt GrowthPreflight := do
  let root ← filesystemRootChain fs
  let r : GrowthPreflight := ⟨.ok, 0, if root = [] then 0 else 1, 0, 0, 0, none⟩
  if root ≠ [] ∧ chainIsExactRun root (root.headD 0) = false then
    return { r with
      issue := .rootFragmented, problemPath := some "<root directory>".toUTF8.toList }
  else return preflightFiles fs percent files r

/-- `growth_layout_matches_canonical`: the total reserve if the layout matches. The first check of
the code, on `max_cluster`, cannot fail (`Fat32.Layout`). -/
def growthLayoutMatchesCanonical (fs : Fat32) (objects : List GrowthObject) (percent : ℕ) :
    Option ℕ := do
  let (os, total, _) ← planGrowthLayout fs objects percent (fs.maxCluster + 1)
  if os.all (fun o ↦ o.target = o.physicalFirst) && !os.isEmpty then some total else none

/-- The issues after which the layout is compared with a fresh plan. -/
def GrowthPreflightIssue.triesCanonical : GrowthPreflightIssue → Bool
  | .noFiles | .reserveShort => true
  | .ok | .objectFragmented | .rootFragmented => false

/-- `GrowthStats` -/
structure GrowthStats where
  objectsMoved : ℕ := 0
  filesMoved : ℕ := 0
  directoriesMoved : ℕ := 0
  clustersCopied : ℕ := 0
  transactions : ℕ := 0
  compactClusters : ℕ := 0
  compactTransactions : ℕ := 0
  reserveClusters : ℕ := 0
  appliedPercent : ℕ := 0
  interrupted : Bool := false
  layoutStarted : Bool := false
  alreadySatisfied : Bool := false
  canonicalLayoutVerified : Bool := false
  checkedFiles : ℕ := 0
  checkedDirectories : ℕ := 0
  deriving DecidableEq, Repr

/-- The state of `growth_defrag_volume` once its preflight is over: the scanned files, the objects,
and the answer if there is nothing to do. -/
structure GrowthOpening where
  files : List FileRecord
  objects : GrowthObjects
  answer : Option GrowthStats
  deriving DecidableEq

/-- The opening of `growth_defrag_volume`, the only place where it sets `already_satisfied`. -/
def growthDefragOpening (fs : Fat32) (requestedPercent : ℕ) : Except Halt GrowthOpening := do
  dieIf (requestedPercent = 0 ∨ requestedPercent > 25)
    "growth reserve percentage must be between 1 and 25"
  let scan ← scanFiles fs
  let objects ← buildGrowthObjects fs scan.files
  let preflight ← growthLayoutPreflight fs scan.files requestedPercent
  let canonical :=
    if objects.regularFiles ≠ 0 ∧ preflight.issue.triesCanonical then
      growthLayoutMatchesCanonical fs objects.objects requestedPercent
    else none
  let answer :=
    if preflight.issue = .ok ∨ canonical.isSome then
      some {
        alreadySatisfied := true
        canonicalLayoutVerified := canonical.isSome
        appliedPercent := requestedPercent
        reserveClusters := canonical.getD preflight.reserveClusters
        checkedFiles := objects.regularFiles
        checkedDirectories := objects.directories }
    else none
  return ⟨scan.files, objects, answer⟩

/-- `growth_layout_satisfied_for_map` -/
def growthLayoutSatisfiedForMap (fs : Fat32) (files : List FileRecord) (percent : ℕ) :
    Except Halt Bool := do
  let preflight ← growthLayoutPreflight fs files percent
  if preflight.issue.triesCanonical then
    let objects ← buildGrowthObjects fs files
    if objects.regularFiles ≠ 0 then
      return (growthLayoutMatchesCanonical fs objects.objects percent).isSome
    else return false
  else return preflight.issue = .ok

/-! ### Runs and reserves -/

/-- No cluster of the run is bad. -/
def UsableRun (fs : Fat32) (start n : ℕ) : Prop :=
  ∀ c, start ≤ c → c < start + n → growthClusterIsBarrier fs c = false

/-- `start` is the lowest place from `cursor` on where `n` clusters fit below the limit with no bad
cluster among them. -/
structure FirstRun (fs : Fat32) (cursor n limit start : ℕ) : Prop where
  ge : cursor ≤ start
  le : start + n ≤ limit
  usable : UsableRun fs start n
  first : ∀ s, cursor ≤ s → s < start → ¬UsableRun fs s n

/-- Number of clusters among the `k` from `start` on that are not bad. -/
def usableCount (fs : Fat32) (start k : ℕ) : ℕ :=
  (List.range' start k).countP fun c ↦ !growthClusterIsBarrier fs c

/-- The `k` clusters from `start` on are just enough for a reserve. -/
structure ReserveRun (fs : Fat32) (start reserve k : ℕ) : Prop where
  count : usableCount fs start k = reserve
  least : ∀ j < k, usableCount fs start j < reserve

/-- Going up from `start` and not counting bad clusters, the next `n` clusters are free. -/
def FollowedByFree (fs : Fat32) (start n : ℕ) : Prop :=
  ∃ k, start + k ≤ fs.maxCluster + 1 ∧ n ≤ usableCount fs start k ∧
    ∀ c, start ≤ c → c < start + k → growthClusterIsBarrier fs c = false → fs.fatIsFree c = true

theorem usableCount_zero (fs : Fat32) (start : ℕ) : usableCount fs start 0 = 0 := rfl

theorem usableCount_succ (fs : Fat32) (start k : ℕ) : usableCount fs start (k + 1) =
    usableCount fs (start + 1) k + if growthClusterIsBarrier fs start then 0 else 1 := by
  rw [usableCount, range'_succ, countP_cons, usableCount]
  cases growthClusterIsBarrier fs start <;> rfl

variable {start reserve : ℕ}

theorem findRunFrom_eq_some {fs : Fat32} {n limit fuel cursor : ℕ} (hn : 0 < n)
    (hfuel : limit ≤ fuel + cursor) :
    findRunFrom fs n limit fuel cursor = some start ↔ FirstRun fs cursor n limit start := by
  induction fuel generalizing cursor with
  | zero =>
    refine iff_of_false (by simp [findRunFrom]) fun h ↦ ?_
    have := h.ge
    have := h.le
    omega
  | succ fuel ih =>
    rw [findRunFrom]
    split_ifs with hlt hend
    · refine iff_of_false (by simp) fun h ↦ ?_
      have := h.ge
      have := h.le
      omega
    · cases hfind : (range' cursor n).find? (growthClusterIsBarrier fs) with
      | none =>
        have husable : UsableRun fs cursor n := fun c hge hc ↦ by
          simpa using find?_eq_none.1 hfind c (mem_range'_1.2 ⟨hge, hc⟩)
        constructor
        · rintro ⟨⟩
          exact ⟨le_rfl, by omega, husable, fun s hge hs ↦ by omega⟩
        · intro h
          rcases h.ge.eq_or_lt with rfl | hlt'
          · rfl
          · exact absurd husable (h.first cursor le_rfl hlt')
      | some barrier =>
        have hbad := find?_some hfind
        have hmem := mem_range'_1.1 (mem_of_find?_eq_some hfind)
        -- no run that starts up to the barrier avoids it
        have hblocked : ∀ s, cursor ≤ s → s < barrier + 1 → ¬UsableRun fs s n := by
          intro s hge hs husable
          rw [husable barrier (by omega) (by omega)] at hbad
          exact Bool.false_ne_true hbad
        rw [ih (by omega)]
        constructor
        · intro h
          refine ⟨by have := h.ge; omega, h.le, h.usable, fun s hge hs ↦ ?_⟩
          rcases lt_or_ge s (barrier + 1) with hs' | hs'
          · exact hblocked s hge hs'
          · exact h.first s hs' hs
        · intro h
          have hge : barrier + 1 ≤ start := by
            by_contra hlt'
            exact hblocked start h.ge (by omega) h.usable
          exact ⟨hge, h.le, h.usable, fun s hs hlt' ↦ h.first s (by omega) hlt'⟩
    · refine iff_of_false (by simp) fun h ↦ ?_
      have := h.ge
      have := h.le
      omega

/-- **The search finds the first run that fits.** -/
theorem growthFindUsableRun_eq_some {fs : Fat32} {cursor n limit : ℕ} (hn : 0 < n)
    (hcursor : 2 ≤ cursor) : growthFindUsableRun fs cursor n limit = some start ↔
      FirstRun fs cursor n limit start := by
  rw [growthFindUsableRun, if_neg (by omega)]
  exact findRunFrom_eq_some hn (Nat.le_add_right _ _)

theorem advanceFrom_eq_some {fs : Fat32} {left c c' : ℕ} :
    advanceFrom fs left reserve c = some c' ↔ ∃ k ≤ left, c' = c + k ∧
    ReserveRun fs c reserve k := by
  induction left generalizing reserve c with
  | zero =>
    cases reserve with
    | zero =>
      simp only [advanceFrom, Option.some.injEq, Nat.le_zero]
      constructor
      · rintro rfl
        exact ⟨0, rfl, rfl, rfl, by simp⟩
      · rintro ⟨k, rfl, rfl, -⟩
        rfl
    | succ reserve =>
      refine iff_of_false (by simp [advanceFrom]) ?_
      rintro ⟨k, hk, -, h⟩
      obtain rfl := Nat.le_zero.1 hk
      exact absurd h.count (by simp [usableCount_zero])
  | succ left ih =>
    cases reserve with
    | zero =>
      simp only [advanceFrom, Option.some.injEq]
      constructor
      · rintro rfl
        exact ⟨0, Nat.zero_le _, rfl, rfl, by simp⟩
      · rintro ⟨k, -, rfl, h⟩
        rcases k.eq_zero_or_pos with rfl | hk
        · rfl
        · exact absurd (h.least 0 hk) (Nat.not_lt_zero _)
    | succ reserve =>
      rw [advanceFrom, ih]
      constructor
      · rintro ⟨k, hk, rfl, h⟩
        refine ⟨k + 1, by omega, by omega, ?_, fun j hj ↦ ?_⟩
        · rw [usableCount_succ, h.count]
          split_ifs <;> rfl
        · cases j with
          | zero => exact Nat.succ_pos _
          | succ j =>
            have := h.least j (by omega)
            rw [usableCount_succ]
            split_ifs at this ⊢ <;> omega
      · rintro ⟨k, hk, rfl, h⟩
        cases k with
        | zero => exact absurd h.count (by simp [usableCount_zero])
        | succ k =>
          have hcount := h.count
          rw [usableCount_succ] at hcount
          refine ⟨k, by omega, by omega, ?_, fun j hj ↦ ?_⟩
          · split_ifs at hcount ⊢ <;> omega
          · have := h.least (j + 1) (by omega)
            rw [usableCount_succ] at this
            split_ifs at this ⊢ <;> omega

theorem availableFrom_eq_iff {fs : Fat32} {m a : ℕ} :
    reserve ≤ availableFrom fs reserve (range' start m) a ↔
      ∃ k ≤ m, reserve ≤ a + usableCount fs start k ∧ ∀ c, start ≤ c → c < start + k →
        growthClusterIsBarrier fs c = false → fs.fatIsFree c = true := by
  induction m generalizing start a with
  | zero =>
    rw [range'_zero, availableFrom]
    constructor
    · intro h
      exact ⟨0, le_rfl, h, fun c hge hc ↦ by omega⟩
    · rintro ⟨k, hk, h, -⟩
      obtain rfl := Nat.le_zero.1 hk
      exact h
  | succ m ih =>
    rw [range'_succ, availableFrom]
    by_cases hdone : reserve ≤ a
    · rw [if_pos hdone]
      exact iff_of_true hdone ⟨0, Nat.zero_le _, hdone, fun c hge hc ↦ by omega⟩
    rw [if_neg hdone]
    -- a stretch that is long enough contains the next cluster
    have hstep : ∀ {b : ℕ}, (growthClusterIsBarrier fs start = false → fs.fatIsFree start = true) →
        b = a + (if growthClusterIsBarrier fs start then 0 else 1) →
        (reserve ≤ availableFrom fs reserve (range' (start + 1) m) b ↔
          ∃ k ≤ m + 1, reserve ≤ a + usableCount fs start k ∧ ∀ c, start ≤ c → c < start + k →
            growthClusterIsBarrier fs c = false → fs.fatIsFree c = true) := by
      intro b hfree hb
      rw [ih]
      constructor
      · rintro ⟨k, hk, hcount, hall⟩
        refine ⟨k + 1, by omega, by rw [usableCount_succ]; omega, fun c hge hc ↦ ?_⟩
        rcases hge.eq_or_lt with rfl | hlt
        · exact hfree
        · exact hall c hlt (by omega)
      · rintro ⟨k, hk, hcount, hall⟩
        cases k with
        | zero => exact absurd hcount (by rw [usableCount_zero]; omega)
        | succ k =>
          rw [usableCount_succ] at hcount
          exact ⟨k, by omega, by omega, fun c hge hc ↦ hall c (by omega) (by omega)⟩
    by_cases hbad : fs.value start = fs.fatType.badValue
    · rw [if_pos hbad]
      have hbar : growthClusterIsBarrier fs start = true := by simp [growthClusterIsBarrier, hbad]
      exact hstep (by simp [hbar]) (by simp [hbar])
    have hbar : growthClusterIsBarrier fs start = false := by simp [growthClusterIsBarrier, hbad]
    rw [if_neg hbad]
    by_cases hfree : fs.fatIsFree start = true
    · rw [if_pos hfree]
      exact hstep (fun _ ↦ hfree) (by simp [hbar])
    · rw [if_neg hfree]
      refine iff_of_false hdone ?_
      rintro ⟨k, -, hcount, hall⟩
      cases k with
      | zero => exact hdone hcount
      | succ k => exact hfree (hall start le_rfl (by omega) hbar)

/-- **The preflight finds a reserve just if it is there.** -/
theorem le_availableReserve {fs : Fat32} (hstart : start ≤ fs.maxCluster + 1) :
    reserve ≤ availableReserve fs reserve start ↔ FollowedByFree fs start reserve := by
  rw [availableReserve, availableFrom_eq_iff, FollowedByFree]
  refine exists_congr fun k ↦ ?_
  rw [Nat.zero_add]
  exact and_congr_left fun _ ↦ by omega


/-! ### What a plan is -/

/-- Clusters the plan reserves after an object. -/
def GrowthObject.reserveFor (o : GrowthObject) (percent : ℕ) : ℕ :=
  if o.isDir then 0 else growthReserve o.clusters percent

/-- **The growth layout.** From a cursor on, each object goes to the first run that holds it, and
the next object starts behind its reserve; `last` is where the cursor ends. -/
inductive Planned (fs : Fat32) (percent limit : ℕ) :
    ℕ → List GrowthObject → List GrowthObject → ℕ → Prop
  | nil {cursor : ℕ} : Planned fs percent limit cursor [] [] cursor
  | cons {cursor target k last : ℕ} {o : GrowthObject} {rest os : List GrowthObject}
    (hrun : FirstRun fs cursor o.clusters limit target)
    (hreserve : ReserveRun fs (target + o.clusters) (o.reserveFor percent) k)
    (hfits : target + o.clusters + k ≤ limit)
    (hrest : Planned fs percent limit (target + o.clusters + k) rest os last) :
    Planned fs percent limit cursor (o :: rest)
      ({ o with target, reserveAfter := o.reserveFor percent } :: os) last

theorem reserveRun_zero {fs : Fat32} {k : ℕ} : ReserveRun fs start 0 k ↔ k = 0 := by
  constructor
  · intro h
    by_contra hk
    exact Nat.not_lt_zero _ (h.least 0 (Nat.pos_of_ne_zero hk))
  · rintro rfl
    exact ⟨rfl, by simp⟩

theorem growthAdvanceReserve_eq_some {fs : Fat32} {cursor limit c : ℕ} (hle : cursor ≤ limit) :
    growthAdvanceReserve fs cursor reserve limit = some c ↔
      ∃ k, cursor + k ≤ limit ∧ c = cursor + k ∧ ReserveRun fs cursor reserve k := by
  rw [growthAdvanceReserve, advanceFrom_eq_some]
  exact exists_congr fun k ↦ and_congr_left fun _ ↦ by omega

/-- **`plan_growth_layout` computes the growth layout, if it exists.** -/
theorem planFrom_eq_some {fs : Fat32} {percent limit cursor total last : ℕ}
    {objects os : List GrowthObject} (hpos : ∀ o ∈ objects, 0 < o.clusters) (hcursor : 2 ≤ cursor) :
    planFrom fs percent limit cursor objects = some (os, total, last) ↔
      Planned fs percent limit cursor objects os last ∧
        total = (os.map GrowthObject.reserveAfter).sum := by
  induction objects generalizing cursor os total with
  | nil =>
    constructor
    · rintro ⟨⟩
      exact ⟨.nil, rfl⟩
    · rintro ⟨⟨⟩, rfl⟩
      rfl
  | cons o rest ih =>
    obtain ⟨ho, hrest⟩ := forall_mem_cons.1 hpos
    rw [planFrom]
    simp only [bind, Option.bind_eq_some_iff]
    constructor
    · rintro ⟨target, hfind, h⟩
      have hrun := (growthFindUsableRun_eq_some ho hcursor).1 hfind
      have hge := hrun.ge
      rw [if_neg (by have := hrun.le; omega)] at h
      split_ifs at h with hdir
      · obtain ⟨⟨os', total', last'⟩, hplan, h⟩ := Option.bind_eq_some_iff.1 h
        cases h
        obtain ⟨hp, rfl⟩ := (ih hrest (by omega)).1 hplan
        have hzero : o.reserveFor percent = 0 := by rw [GrowthObject.reserveFor, if_pos hdir]
        refine ⟨?_, by simp⟩
        have := Planned.cons hrun (by rw [hzero]; exact reserveRun_zero.2 rfl) hrun.le hp
        rwa [hzero] at this
      · obtain ⟨c, hadv, h⟩ := Option.bind_eq_some_iff.1 h
        obtain ⟨k, hk, rfl, hres⟩ := (growthAdvanceReserve_eq_some hrun.le).1 hadv
        obtain ⟨⟨os', total', last'⟩, hplan, h⟩ := Option.bind_eq_some_iff.1 h
        cases h
        obtain ⟨hp, rfl⟩ := (ih hrest (by omega)).1 hplan
        have hres' : o.reserveFor percent = growthReserve o.clusters percent := by
          rw [GrowthObject.reserveFor, if_neg hdir]
        refine ⟨?_, by simp⟩
        have := Planned.cons hrun (by rwa [hres']) hk hp
        rwa [hres'] at this
    · rintro ⟨hplan, rfl⟩
      cases hplan with
      | @cons _ target k _ _ _ os' hrun hres hfits hp =>
        have hge := hrun.ge
        have htail := (ih hrest (by omega)).2 ⟨hp, rfl⟩
        refine ⟨target, (growthFindUsableRun_eq_some ho hcursor).2 hrun, ?_⟩
        rw [if_neg (by have := hrun.le; omega)]
        by_cases hdir : o.isDir = true
        · have hzero : o.reserveFor percent = 0 := by rw [GrowthObject.reserveFor, if_pos hdir]
          rw [hzero] at hres
          obtain rfl := reserveRun_zero.1 hres
          rw [if_pos hdir, show target + o.clusters = target + o.clusters + 0 from rfl, htail]
          simp [hzero]
        · have hres' : o.reserveFor percent = growthReserve o.clusters percent := by
            rw [GrowthObject.reserveFor, if_neg hdir]
          rw [hres'] at hres
          rw [if_neg hdir, (growthAdvanceReserve_eq_some hrun.le).2 ⟨k, hfits, rfl, hres⟩]
          simp [hres', htail]

namespace Planned

variable {fs : Fat32} {percent limit cursor last : ℕ} {objects os : List GrowthObject}

section

variable (h : Planned fs percent limit cursor objects os last)
include h

theorem le_target : ∀ o ∈ os, cursor ≤ o.target := by
  induction h with
  | nil => simp
  | cons hrun _ _ _ ih =>
    have hge := hrun.ge
    rintro o (_ | ⟨_, ho⟩)
    · exact hge
    · have := ih o ho
      omega

/-- The plan changes nothing of an object but its target and reserve. -/
theorem forall₂ : Forall₂ (fun o o' ↦
      o' = { o with target := o'.target, reserveAfter := o.reserveFor percent }) objects os := by
  induction h with
  | nil => exact .nil
  | cons _ _ _ _ ih => exact .cons rfl ih

/-- **Nothing is planned into a reserve**: the reserve of an object is a stretch right behind it,
and every planned object lies before or behind both. -/
theorem reserve_apart {o : GrowthObject}
    (ho : o ∈ os) : ∃ k, ReserveRun fs (o.target + o.clusters) o.reserveAfter k ∧
      o.target + o.clusters + k ≤ limit ∧ ∀ o' ∈ os, o' = o ∨ o'.target + o'.clusters ≤ o.target ∨
        o.target + o.clusters + k ≤ o'.target := by
  induction h with
  | nil => exact absurd ho not_mem_nil
  | @cons cursor target k last o₀ rest os hrun hres hfits hrest ih =>
    rcases mem_cons.1 ho with rfl | ho'
    · refine ⟨k, hres, hfits, fun o' ho' ↦ ?_⟩
      rcases mem_cons.1 ho' with rfl | ho'
      · exact .inl rfl
      · exact .inr (.inr (hrest.le_target o' ho'))
    · obtain ⟨k', hres', hfits', hall⟩ := ih ho'
      refine ⟨k', hres', hfits', fun o' ho'' ↦ ?_⟩
      rcases mem_cons.1 ho'' with rfl | ho''
      · have := hrest.le_target o ho'
        exact .inr (.inl (by simp only; omega))
      · exact hall o' ho''

end

end Planned

end LinuxDefragger.Fat
