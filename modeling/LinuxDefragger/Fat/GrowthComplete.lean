import LinuxDefragger.Fat.GrowthPlan

/-!
# The growth planner is complete

`plan_growth_layout` puts the objects of a volume one after the other, each at the first place that
holds it. So it fails only if no layout exists at all: whatever a layout does, the planner's cursor
is never ahead of it (`GrowthLayout.exists_planned`).

The planner asks `fat_value` about clusters, which ends the program outside the table. `Checked` is
the planner with these questions asked; it finds what `planGrowthLayout` finds below the end of the
table.
-/

open Except List Storage

namespace LinuxDefragger.Fat

/-! ### The planner with its table lookups -/

namespace Checked

/-- `growth_cluster_is_barrier` -/
def growthClusterIsBarrier (fs : Fat32) (cluster : ℕ) : Except Halt Bool := do
  return (← fs.fatValue cluster) = fs.fatType.badValue

/-- The inner loop of `growth_find_usable_run`: the first barrier among the next clusters. -/
def firstBarrier (fs : Fat32) : ℕ → ℕ → Except Halt (Option ℕ)
  | 0, _ => pure none
  | n + 1, cluster => do
    let barrier ← growthClusterIsBarrier fs cluster
    if barrier then return some cluster else firstBarrier fs n (cluster + 1)

/-- The outer loop of `growth_find_usable_run`; the start moves up in every round. -/
def findRunFrom (fs : Fat32) (length limit : ℕ) : ℕ → ℕ → OptionT (Except Halt) ℕ
  | 0, _ => failure
  | fuel + 1, start =>
    if start < limit then
      if start + length > limit then failure
      else do
        match ← OptionT.lift (firstBarrier fs length start) with
        | none => return start
        | some barrier => findRunFrom fs length limit fuel (barrier + 1)
    else failure

/-- `growth_find_usable_run` -/
def growthFindUsableRun (fs : Fat32) (cursor length limit : ℕ) : OptionT (Except Halt) ℕ :=
  if length = 0 ∨ cursor < 2 then failure else findRunFrom fs length limit limit cursor

/-- The loop of `growth_advance_reserve`; `left` is the number of clusters below the limit. -/
def advanceFrom (fs : Fat32) : ℕ → ℕ → ℕ → OptionT (Except Halt) ℕ
  | _, 0, c => pure c
  | 0, _ + 1, _ => failure
  | left + 1, remaining + 1, c => do
    let barrier ← OptionT.lift (growthClusterIsBarrier fs c)
    advanceFrom fs left (if barrier then remaining + 1 else remaining) (c + 1)

/-- `growth_advance_reserve` -/
def growthAdvanceReserve (fs : Fat32) (cursor reserve limit : ℕ) : OptionT (Except Halt) ℕ :=
  advanceFrom fs (limit - cursor) reserve cursor

/-- The loop of `plan_growth_layout` from a cursor. -/
def planFrom (fs : Fat32) (percent limit : ℕ) :
    ℕ → List GrowthObject → OptionT (Except Halt) (List GrowthObject × ℕ × ℕ)
  | cursor, [] => pure ([], 0, cursor)
  | cursor, o :: rest => do
    let target ← growthFindUsableRun fs cursor o.clusters limit
    if target + o.clusters > limit then failure
    else if o.isDir then
      let (os, total, last) ← planFrom fs percent limit (target + o.clusters) rest
      return ({ o with target, reserveAfter := 0 } :: os, total, last)
    else
      let reserve := growthReserve o.clusters percent
      let cursor ← growthAdvanceReserve fs (target + o.clusters) reserve limit
      let (os, total, last) ← planFrom fs percent limit cursor rest
      return ({ o with target, reserveAfter := reserve } :: os, reserve + total, last)

/-- `plan_growth_layout` -/
def planGrowthLayout (fs : Fat32) (objects : List GrowthObject) (percent workspaceStart : ℕ) :
    OptionT (Except Halt) (List GrowthObject × ℕ × ℕ) := do
  let (os, total, cursor) ← planFrom fs percent workspaceStart 2 objects
  return (os, total, if cursor = 0 then 0 else cursor - 1)

end Checked

/-! ### Lookups inside the table -/

section Returns

variable {α β : Type}

/-- The computation ends with a value, neither failing nor ending the program. -/
def Returns (x : OptionT (Except Halt) α) (a : α) : Prop := x.run = .ok (some a)

instance [DecidableEq α] (x : OptionT (Except Halt) α) (a : α) : Decidable (Returns x a) :=
  inferInstanceAs (Decidable (x.run = .ok (some a)))

theorem returns_bind {x : OptionT (Except Halt) α} {f : α → OptionT (Except Halt) β} {b : β} :
    Returns (x >>= f) b ↔ ∃ a, Returns x a ∧ Returns (f a) b := by
  unfold Returns
  rw [OptionT.run_bind, Option.elimM, bind_eq_ok]
  constructor
  · rintro ⟨o, ho, h⟩
    cases o with
    | none => cases h
    | some a => exact ⟨a, ho, h⟩
  · rintro ⟨a, ha, h⟩
    exact ⟨some a, ha, h⟩

theorem returns_pure {a b : α} : Returns (pure a) b ↔ a = b := by
  unfold Returns
  rw [OptionT.run_pure, pure_eq_ok, ok.injEq, Option.some.injEq]

theorem not_returns_failure (a : α) : ¬Returns failure a := nofun

theorem returns_lift {x : Except Halt α} {a : α} : Returns (OptionT.lift x) a ↔ x = .ok a := by
  unfold Returns
  rw [OptionT.run_lift, bind_eq_ok]
  simp [pure_eq_ok]

end Returns

variable {c n limit r cursor : ℕ}

section Lookups

variable {fs : Fat32}

theorem checked_barrier_eq_ok {b : Bool} : Checked.growthClusterIsBarrier fs c = .ok b ↔
    c < fs.fatEntryCount ∧ growthClusterIsBarrier fs c = b := by
  unfold Checked.growthClusterIsBarrier Fat32.fatValue growthClusterIsBarrier
  rw [bind_assoc, dieIf_bind_eq_ok, pure_bind, pure_eq_ok, ok.injEq, not_le]

/-- Clusters of the table are looked up in it. -/
theorem firstBarrier_eq_find (h : c + n ≤ fs.fatEntryCount) :
    Checked.firstBarrier fs n c = .ok ((range' c n).find? (growthClusterIsBarrier fs)) := by
  induction n generalizing c with
  | zero => rfl
  | succ n ih =>
    unfold Checked.firstBarrier
    rw [checked_barrier_eq_ok.2 ⟨by omega, rfl⟩, ok_bind, range'_succ, find?_cons]
    cases growthClusterIsBarrier fs c with
    | true => rfl
    | false => exact ih (by omega)

/-- The loop ends without a barrier only inside the table, and a barrier is inside the table. -/
theorem firstBarrier_eq_ok (hn : 0 < n) {r : Option ℕ} (h : Checked.firstBarrier fs n c = .ok r) :
    match r with
    | none => c + n ≤ fs.fatEntryCount
    | some barrier => c ≤ barrier := by
  induction n generalizing c with
  | zero => exact absurd hn (lt_irrefl 0)
  | succ n ih =>
    unfold Checked.firstBarrier at h
    obtain ⟨barrier, hbarrier, h⟩ := bind_eq_ok.1 h
    have hlt := (checked_barrier_eq_ok.1 hbarrier).1
    cases barrier with
    | true =>
      obtain rfl := ok.inj h
      exact le_rfl
    | false =>
      rcases n.eq_zero_or_pos with rfl | hpos
      · obtain rfl := ok.inj h
        exact hlt
      · have := ih hpos h
        cases r with
        | none =>
          dsimp only at this ⊢
          omega
        | some barrier =>
          dsimp only at this ⊢
          omega

theorem findRunFrom_eq_none {fuel start : ℕ} (h : limit < start + n) :
    findRunFrom fs n limit fuel start = none := by
  cases fuel with
  | zero => rfl
  | succ fuel =>
    rw [findRunFrom]
    split_ifs <;> rfl

theorem checked_findRunFrom_iff {fuel start : ℕ} (hn : 0 < n) :
    Returns (Checked.findRunFrom fs n limit fuel start) r ↔
      findRunFrom fs n (min limit fs.fatEntryCount) fuel start = some r := by
  induction fuel generalizing start with
  | zero => exact iff_of_false (not_returns_failure r) fun h ↦ by cases h
  | succ fuel ih =>
    by_cases hfits : start + n ≤ min limit fs.fatEntryCount
    · unfold Checked.findRunFrom findRunFrom
      rw [if_pos (by omega), if_neg (by omega), if_pos (by omega), if_neg (by omega), returns_bind,
        firstBarrier_eq_find (by omega)]
      cases hfind : (range' start n).find? (growthClusterIsBarrier fs) with
      | none => simp [returns_lift, returns_pure]
      | some barrier => simp [returns_lift, ih]
    · -- the run does not fit into the table: the search goes on without success
      rw [findRunFrom_eq_none (by omega)]
      refine iff_of_false (fun h ↦ ?_) fun h ↦ by cases h
      unfold Checked.findRunFrom at h
      split_ifs at h with hlt hend
      · exact not_returns_failure r h
      · obtain ⟨o, ho, h⟩ := returns_bind.1 h
        have hlow := firstBarrier_eq_ok hn (returns_lift.1 ho)
        cases o with
        | none =>
          dsimp only at hlow
          omega
        | some barrier =>
          rw [ih, findRunFrom_eq_none (by dsimp only at hlow; omega)] at h
          cases h
      · exact not_returns_failure r h

theorem checked_growthFindUsableRun_iff :
    Returns (Checked.growthFindUsableRun fs cursor n limit) r ↔
      growthFindUsableRun fs cursor n (min limit fs.fatEntryCount) = some r := by
  unfold Checked.growthFindUsableRun growthFindUsableRun
  split_ifs with h
  · exact iff_of_false (not_returns_failure r) nofun
  · have hn : 0 < n := by omega
    rw [checked_findRunFrom_iff hn, findRunFrom_eq_some hn (by omega),
      findRunFrom_eq_some hn (by omega)]

theorem checked_advanceFrom_iff {left reserve : ℕ} :
    Returns (Checked.advanceFrom fs left reserve c) r ↔
      advanceFrom fs (min left (fs.fatEntryCount - c)) reserve c = some r := by
  induction left generalizing reserve c with
  | zero =>
    cases reserve with
    | zero => simp [Checked.advanceFrom, advanceFrom, returns_pure]
    | succ reserve => simp [Checked.advanceFrom, advanceFrom, not_returns_failure]
  | succ left ih =>
    cases reserve with
    | zero => simp [Checked.advanceFrom, advanceFrom, returns_pure]
    | succ reserve =>
      unfold Checked.advanceFrom
      rw [returns_bind]
      simp only [returns_lift, checked_barrier_eq_ok, ih]
      by_cases hc : c < fs.fatEntryCount
      · have hleft : min (left + 1) (fs.fatEntryCount - c) = min left (fs.fatEntryCount - (c + 1)) +
          1 := by omega
        simp [hc, hleft, advanceFrom]
      · have hleft : min (left + 1) (fs.fatEntryCount - c) = 0 := by omega
        simp [hc, hleft, advanceFrom]

theorem checked_growthAdvanceReserve_iff {reserve : ℕ} :
    Returns (Checked.growthAdvanceReserve fs cursor reserve limit) r ↔
      growthAdvanceReserve fs cursor reserve (min limit fs.fatEntryCount) = some r := by
  unfold Checked.growthAdvanceReserve growthAdvanceReserve
  rw [checked_advanceFrom_iff, Nat.sub_min_sub_right]

theorem growthFindUsableRun_le {target : ℕ}
    (h : growthFindUsableRun fs cursor n limit = some target) : 0 < n ∧ target + n ≤ limit := by
  unfold growthFindUsableRun at h
  split_ifs at h with hrefused
  have hn : 0 < n := by omega
  exact ⟨hn, ((findRunFrom_eq_some hn (by omega)).1 h).le⟩

/-- The plan is the one that only looks at clusters below the end of the table. -/
theorem checked_planFrom_iff {percent : ℕ} {objects : List GrowthObject}
    {r : List GrowthObject × ℕ × ℕ} :
    Returns (Checked.planFrom fs percent limit cursor objects) r ↔
      planFrom fs percent (min limit fs.fatEntryCount) cursor objects = some r := by
  induction objects generalizing cursor r with
  | nil => simp [Checked.planFrom, planFrom, returns_pure]
  | cons o rest ih =>
    unfold Checked.planFrom planFrom
    rw [returns_bind]
    simp only [Option.bind_eq_bind, Option.bind_eq_some_iff, checked_growthFindUsableRun_iff]
    refine exists_congr fun target ↦ and_congr_right fun hfind ↦ ?_
    have hle := (growthFindUsableRun_le hfind).2
    have hlimit : ¬target + o.clusters > limit := by omega
    rw [if_neg hlimit, if_neg (not_lt.2 hle)]
    split_ifs with hdir
    · rw [returns_bind]
      simp only [Option.bind_eq_some_iff, ih, returns_pure, Option.pure_def, Option.some.injEq]
    · rw [returns_bind]
      simp only [Option.bind_eq_some_iff, returns_bind, checked_growthAdvanceReserve_iff, ih,
        returns_pure,
        Option.pure_def, Option.some.injEq]

end Lookups

/-! ### Counting clusters that are not bad -/

section Counting

variable {fs : Fat32}

theorem usableCount_add (fs : Fat32) (a j k : ℕ) :
    usableCount fs a (j + k) = usableCount fs a j + usableCount fs (a + j) k := by
  unfold usableCount
  rw [← countP_append, range'_append_1]

theorem usableCount_mono {a j k : ℕ} (h : j ≤ k) : usableCount fs a j ≤ usableCount fs a k := by
  obtain ⟨d, rfl⟩ := Nat.exists_eq_add_of_le h
  rw [usableCount_add]
  exact Nat.le_add_right _ _

/-- A stretch with enough clusters has one that is just long enough. -/
theorem exists_reserveRun {a reserve m : ℕ} (h : reserve ≤ usableCount fs a m) :
    ∃ k ≤ m, ReserveRun fs a reserve k := by
  classical
  have hex : ∃ k, reserve ≤ usableCount fs a k := ⟨m, h⟩
  refine ⟨Nat.find hex, Nat.find_le h, le_antisymm ?_ (Nat.find_spec hex), fun j hj ↦
    not_le.1 (Nat.find_min hex hj)⟩
  cases hk : Nat.find hex with
  | zero => exact Nat.zero_le _
  | succ k =>
    have hbefore := not_le.1 (Nat.find_min hex (by omega : k < Nat.find hex))
    have hone : usableCount fs (a + k) 1 ≤ 1 := by
      unfold usableCount
      exact countP_le_length
    rw [usableCount_add]
    omega

/-- A run that holds the object is not in front of the first one. -/
theorem exists_firstRun {s : ℕ} (hcursor : cursor ≤ s) (hrun : UsableRun fs s n)
    (hle : s + n ≤ limit) : ∃ t ≤ s, FirstRun fs cursor n limit t := by
  classical
  have hex : ∃ t, cursor ≤ t ∧ UsableRun fs t n := ⟨s, hcursor, hrun⟩
  have hfirst := Nat.find_le (h := hex) ⟨hcursor, hrun⟩
  refine ⟨Nat.find hex, hfirst, (Nat.find_spec hex).1, by omega, (Nat.find_spec hex).2,
    fun t hge ht hrun' ↦ ?_⟩
  exact Nat.find_min hex ht ⟨hge, hrun'⟩

end Counting

/-! ### Layouts -/

/-- A cluster that has an entry in the table, which does not mark it as bad. -/
def Fat32.NotBad (fs : Fat32) (c : ℕ) : Prop :=
    c < fs.fatEntryCount ∧ fs.value c ≠ fs.fatType.badValue

instance (fs : Fat32) : DecidablePred fs.NotBad := fun c ↦
  inferInstanceAs (Decidable (c < fs.fatEntryCount ∧ fs.value c ≠ fs.fatType.badValue))

/-- The clusters of `[a, b)` that are not bad. -/
def notBadCount (fs : Fat32) (a b : ℕ) : ℕ := (List.range' a (b - a)).countP fun c ↦ fs.NotBad c

/-- **An assignment of start clusters as the planner is asked for.** Every object lies on clusters
from 2 on that are not bad, ends before the next one starts, or the workspace behind the last one,
and a regular file has its reserve of clusters in between. -/
structure GrowthLayout (fs : Fat32) (percent workspaceStart : ℕ) (objects : List GrowthObject)
    (starts : List ℕ) : Prop where
  length_eq : starts.length = objects.length
  two_le : ∀ s ∈ starts, 2 ≤ s
  not_bad : ∀ (i : ℕ) (o : GrowthObject) (s : ℕ), objects[i]? = some o → starts[i]? = some s →
    ∀ c, s ≤ c → c < s + o.clusters → fs.NotBad c
  ordered : ∀ (i : ℕ) (o : GrowthObject) (s : ℕ), objects[i]? = some o → starts[i]? = some s →
    s + o.clusters ≤ starts.getD (i + 1) workspaceStart
  reserve : ∀ (i : ℕ) (o : GrowthObject) (s : ℕ), objects[i]? = some o → starts[i]? = some s →
    o.isDir = false →
    growthReserve o.clusters percent ≤ notBadCount fs (s + o.clusters)
      (starts.getD (i + 1) workspaceStart)

section Layout

variable {fs : Fat32} {percent workspaceStart : ℕ} {objects : List GrowthObject} {starts : List ℕ}

theorem notBad_iff : fs.NotBad c ↔ c < fs.fatEntryCount ∧ growthClusterIsBarrier fs c = false := by
  unfold Fat32.NotBad growthClusterIsBarrier
  rw [decide_eq_false_iff_not]

/-- Only clusters of the table count. -/
theorem notBadCount_eq (a b : ℕ) :
    notBadCount fs a b = usableCount fs a (min b fs.fatEntryCount - a) := by
  have hsplit :
    b - a = (min b fs.fatEntryCount - a) + (b - a - (min b fs.fatEntryCount - a)) := by omega
  unfold notBadCount usableCount
  rw [hsplit, ← range'_append_1, countP_append, Nat.add_eq_left.2]
  · refine countP_congr fun c hc ↦ ?_
    have hmem := mem_range'_1.1 hc
    simp only [decide_eq_true_eq, notBad_iff, Bool.not_eq_true']
    exact and_iff_right (by omega)
  · refine countP_eq_zero.2 fun c hc ↦ ?_
    have hmem := mem_range'_1.1 hc
    simp only [decide_eq_true_eq, notBad_iff]
    omega

theorem growthLayout_nil : GrowthLayout fs percent workspaceStart [] [] :=
    ⟨rfl, nofun, nofun, nofun, nofun⟩

/-- The first object of a layout and the layout of the others. -/
theorem growthLayout_cons {o : GrowthObject} {s : ℕ} :
    GrowthLayout fs percent workspaceStart (o :: objects) (s :: starts) ↔
      (2 ≤ s ∧ (∀ c, s ≤ c → c < s + o.clusters → fs.NotBad c) ∧
        s + o.clusters ≤ starts.headD workspaceStart ∧
        o.reserveFor percent ≤ notBadCount fs (s + o.clusters) (starts.headD workspaceStart)) ∧
      GrowthLayout fs percent workspaceStart objects starts := by
  have hnext : (s :: starts).getD (0 + 1) workspaceStart = starts.headD workspaceStart := by
    cases starts <;> rfl
  constructor
  · intro h
    have hreserve := h.reserve 0 o s rfl rfl
    rw [hnext] at hreserve
    refine ⟨⟨h.two_le s mem_cons_self, h.not_bad 0 o s rfl rfl,
      hnext ▸ h.ordered 0 o s rfl rfl, ?_⟩,
      ⟨Nat.succ.inj h.length_eq, fun t ht ↦ h.two_le t (mem_cons_of_mem _ ht), fun i ↦
        h.not_bad (i + 1),
        fun i ↦ h.ordered (i + 1), fun i ↦ h.reserve (i + 1)⟩⟩
    unfold GrowthObject.reserveFor
    split_ifs with hdir
    · exact Nat.zero_le _
    · exact hreserve (Bool.eq_false_of_not_eq_true hdir)
  · rintro ⟨⟨htwo, hrun, hord, hreserve⟩, h⟩
    refine ⟨congrArg Nat.succ h.length_eq, forall_mem_cons.2 ⟨htwo, h.two_le⟩, ?_, ?_, ?_⟩
    · rintro (_ | i) o' s' ho hs
      · obtain ⟨rfl, rfl⟩ := And.intro (Option.some.inj ho) (Option.some.inj hs)
        exact hrun
      · exact h.not_bad i o' s' ho hs
    · rintro (_ | i) o' s' ho hs
      · obtain ⟨rfl, rfl⟩ := And.intro (Option.some.inj ho) (Option.some.inj hs)
        exact hnext.symm ▸ hord
      · exact h.ordered i o' s' ho hs
    · rintro (_ | i) o' s' ho hs hdir
      · obtain ⟨rfl, rfl⟩ := And.intro (Option.some.inj ho) (Option.some.inj hs)
        rw [hnext]
        rwa [GrowthObject.reserveFor, hdir] at hreserve
      · exact h.reserve i o' s' ho hs hdir

section

variable (h : GrowthLayout fs percent workspaceStart objects starts)
include h

/-- A layout stays below the workspace. -/
theorem GrowthLayout.headD_le : starts.headD workspaceStart ≤ workspaceStart := by
  induction objects generalizing starts with
  | nil =>
    obtain rfl := length_eq_zero_iff.1 h.length_eq
    exact le_rfl
  | cons o objects ih =>
    cases starts with
    | nil => exact le_rfl
    | cons s starts =>
      obtain ⟨⟨-, -, hord, -⟩, h⟩ := growthLayout_cons.1 h
      have := ih h
      show s ≤ workspaceStart
      omega

/-- **The planner is never behind a layout**, so it finds a plan if there is a layout. -/
theorem GrowthLayout.exists_planned
    (hpos : ∀ o ∈ objects, 0 < o.clusters) (hcursor : cursor ≤ starts.headD workspaceStart) :
    ∃ os last, Planned fs percent (min workspaceStart fs.fatEntryCount) cursor objects os last := by
  induction objects generalizing starts cursor with
  | nil => exact ⟨[], cursor, .nil⟩
  | cons o objects ih =>
    cases starts with
    | nil => exact absurd h.length_eq nofun
    | cons s starts =>
      obtain ⟨⟨-, hrun, hord, hreserve⟩, h⟩ := growthLayout_cons.1 h
      obtain ⟨ho, hpos⟩ := forall_mem_cons.1 hpos
      replace hcursor : cursor ≤ s := hcursor
      have hnext := h.headD_le
      have htable := (hrun (s + o.clusters - 1) (by omega) (by omega)).1
      -- the first run does not start behind `s`
      have husable : UsableRun fs s o.clusters := fun c hge hlt ↦ (notBad_iff.1 (hrun c hge hlt)).2
      obtain ⟨t, ht, hfirst⟩ := exists_firstRun hcursor husable
        (by omega : s + o.clusters ≤ min workspaceStart fs.fatEntryCount)
      -- nor does the reserve end behind the start of the next object
      have hcount : o.reserveFor percent ≤ usableCount fs (t + o.clusters)
          ((s - t) + (min (starts.headD workspaceStart) fs.fatEntryCount - (s + o.clusters))) := by
        rw [notBadCount_eq] at hreserve
        rw [usableCount_add, show t + o.clusters + (s - t) = s + o.clusters by omega]
        omega
      obtain ⟨k, hk, hres⟩ := exists_reserveRun hcount
      obtain ⟨os, last, hplan⟩ :=
        ih h hpos (by omega : t + o.clusters + k ≤ starts.headD workspaceStart)
      exact ⟨_, last, .cons hfirst hres (by omega) hplan⟩

end

/-- The targets of a plan are a layout. -/
theorem Planned.growthLayout {last : ℕ} {os : List GrowthObject}
    (h : Planned fs percent (min workspaceStart fs.fatEntryCount) cursor objects os last)
    (hcursor : 2 ≤ cursor) :
    GrowthLayout fs percent workspaceStart objects (os.map GrowthObject.target) ∧
      (cursor ≤ workspaceStart → cursor ≤ (os.map GrowthObject.target).headD workspaceStart) := by
  induction h with
  | nil => exact ⟨growthLayout_nil, id⟩
  | @cons cursor target k last o rest os hrun hres hfits hrest ih =>
    have hge := hrun.ge
    obtain ⟨hlayout, hhead⟩ := ih (by omega)
    have hhead := hhead (by omega)
    refine ⟨growthLayout_cons.2 ⟨⟨by show 2 ≤ target; omega, fun c hlow hhigh ↦ ?_, ?_, ?_⟩,
      hlayout⟩, fun _ ↦ hge⟩
    · exact notBad_iff.2 ⟨by show c < _; dsimp only at hhigh; omega, hrun.usable c hlow hhigh⟩
    · show target + o.clusters ≤ _
      omega
    · show o.reserveFor percent ≤ notBadCount fs (target + o.clusters) _
      rw [notBadCount_eq, ← hres.count]
      exact usableCount_mono (by omega)

end Layout

/-! ### Completeness -/

theorem planFrom_pos {fs : Fat32} {percent : ℕ} {objects : List GrowthObject}
    {r : List GrowthObject × ℕ × ℕ} (h : planFrom fs percent limit cursor objects = some r) :
    ∀ o ∈ objects, 0 < o.clusters := by
  induction objects generalizing cursor r with
  | nil => exact nofun
  | cons o rest ih =>
    unfold planFrom at h
    obtain ⟨target, hfind, h⟩ := Option.bind_eq_some_iff.1 h
    refine forall_mem_cons.2 ⟨(growthFindUsableRun_le hfind).1, ?_⟩
    split_ifs at h
    · obtain ⟨r', hplan, -⟩ := Option.bind_eq_some_iff.1 h
      exact ih hplan
    · obtain ⟨c, -, h⟩ := Option.bind_eq_some_iff.1 h
      obtain ⟨r', hplan, -⟩ := Option.bind_eq_some_iff.1 h
      exact ih hplan

theorem checked_planGrowthLayout_iff {fs : Fat32} {objects os : List GrowthObject}
    {percent workspaceStart total layoutEnd : ℕ} :
    Returns (Checked.planGrowthLayout fs objects percent workspaceStart) (os, total, layoutEnd) ↔
      ∃ last, planFrom fs percent (min workspaceStart fs.fatEntryCount) 2 objects =
        some (os, total, last) ∧
        layoutEnd = if last = 0 then 0 else last - 1 := by
  unfold Checked.planGrowthLayout
  rw [returns_bind]
  simp only [checked_planFrom_iff, returns_pure, Prod.mk.injEq]
  constructor
  · rintro ⟨⟨os', total', last⟩, hplan, rfl, rfl, rfl⟩
    exact ⟨last, hplan, rfl⟩
  · rintro ⟨last, hplan, rfl⟩
    exact ⟨_, hplan, rfl, rfl, rfl⟩

/-- **The growth planner is complete.** It succeeds just if there is a layout, for objects that have
clusters, and then its targets are one. -/
theorem plan_growth_layout_complete (fs : Fat32) (objects : List GrowthObject)
    (percent workspaceStart : ℕ) :
    ((∃ r, Returns (Checked.planGrowthLayout fs objects percent workspaceStart) r) ↔
      (∀ o ∈ objects, 0 < o.clusters) ∧
      ∃ starts, GrowthLayout fs percent workspaceStart objects starts) ∧
    ∀ os total layoutEnd,
      Returns (Checked.planGrowthLayout fs objects percent workspaceStart) (os, total, layoutEnd) →
        GrowthLayout fs percent workspaceStart objects (os.map GrowthObject.target) := by
  have hsound : ∀ os total layoutEnd,
      Returns (Checked.planGrowthLayout fs objects percent workspaceStart) (os, total, layoutEnd) →
        (∀ o ∈ objects, 0 < o.clusters) ∧
          GrowthLayout fs percent workspaceStart objects (os.map GrowthObject.target) := by
    intro os total layoutEnd h
    obtain ⟨last, hplan, -⟩ := checked_planGrowthLayout_iff.1 h
    have hpos := planFrom_pos hplan
    exact ⟨hpos, (((planFrom_eq_some hpos le_rfl).1 hplan).1.growthLayout le_rfl).1⟩
  refine ⟨⟨?_, ?_⟩, fun os total layoutEnd h ↦ (hsound os total layoutEnd h).2⟩
  · rintro ⟨⟨os, total, layoutEnd⟩, h⟩
    obtain ⟨hpos, hlayout⟩ := hsound os total layoutEnd h
    exact ⟨hpos, _, hlayout⟩
  · rintro ⟨hpos, starts, h⟩
    obtain ⟨os, last, hplan⟩ :
        ∃ os last, Planned fs percent (min workspaceStart fs.fatEntryCount) 2 objects os last := by
      cases starts with
      | nil =>
        obtain rfl := length_eq_zero_iff.1 h.length_eq.symm
        exact ⟨[], 2, .nil⟩
      | cons s starts => exact h.exists_planned hpos (h.two_le s mem_cons_self)
    exact ⟨_,
      checked_planGrowthLayout_iff.2 ⟨last, (planFrom_eq_some hpos le_rfl).2 ⟨hplan, rfl⟩, rfl⟩⟩

/-- A file of two clusters and its reserve of one go around a bad cluster 3. -/
def badClusterDevice : Device := floppy [0xF8, 0xFF, 0xFF, 0x00, 0x70, 0xFF] []

theorem plan_growth_layout_badClusterDevice :
    ∃ os total layoutEnd, Returns (Checked.planGrowthLayout (floppyVolume badClusterDevice)
      [⟨false, false, [0x41], 2, 2, 0, 0⟩] 10 10) (os, total, layoutEnd) ∧
        os.map GrowthObject.target = [4] ∧
      GrowthLayout (floppyVolume badClusterDevice) 10 10 [⟨false, false, [0x41], 2, 2, 0, 0⟩]
        (os.map GrowthObject.target) := by
  have hplan : Returns (Checked.planGrowthLayout (floppyVolume badClusterDevice)
      [⟨false, false, [0x41], 2, 2, 0, 0⟩] 10 10) ([⟨false, false, [0x41], 2, 2, 4, 1⟩], 1, 6) := by
    decide +kernel
  exact ⟨_, _, _, hplan, rfl, (plan_growth_layout_complete _ _ _ _).2 _ _ _ hplan⟩

end LinuxDefragger.Fat
