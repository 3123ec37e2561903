import LinuxDefragger.Ntfs.Bitmap
import LinuxDefragger.Storage.Intervals

/-!
# The fast paths of the bitmap

The engine searches and changes its bitmap byte by byte where it can. Here are the same functions
one bit at a time, and what the fast ones do is compared with them. The searches are exact:
`_free_runs_before` returns the maximal free runs below the bound, `_next_free_run` the first of
them behind the start.

`_set_range` is exact as long as the range lies in the bitmap. Behind its end a single bit cannot be
set; but the byte-wide part assigns a slice, which makes the bitmap longer instead (`Overruns`).
-/

open List Storage

namespace LinuxDefragger.Ntfs

/-! ### One bit at a time -/

/-- One past the highest allocated cluster below `n`. -/
def highestUsedBits (bitmap : List UInt8) : ℕ → ℕ
  | 0 => 0
  | n + 1 => if bit bitmap n then n + 1 else highestUsedBits bitmap n

/-- The free runs of the next `n` clusters, with the start of the run that is open. -/
def freeRunsBits (bitmap : List UInt8) : ℕ → ℕ → Option ℕ → List Run
  | 0, cluster, start => closeRun start cluster
  | n + 1, cluster, start =>
    if bit bitmap cluster then closeRun start cluster ++ freeRunsBits bitmap n (cluster + 1) none
    else freeRunsBits bitmap n (cluster + 1) (start.or (some cluster))

/-- The first of the next `n` clusters whose bit is not `value`, or the one behind them. -/
def skipBits (bitmap : List UInt8) (value : Bool) : ℕ → ℕ → ℕ
  | 0, cluster => cluster
  | n + 1, cluster => if bit bitmap cluster = value then skipBits bitmap value n (cluster + 1)
    else cluster

/-- The first free run from `start` on, below the limit. -/
def nextFreeRunBits (bitmap : List UInt8) (start limit : ℕ) : Option Run :=
  let runStart := skipBits bitmap true (limit - start) start
  if runStart ≥ limit then none
  else some ⟨some runStart, skipBits bitmap false (limit - runStart) runStart - runStart⟩

/-- Gaps, free clusters and first gap among the next `n` clusters; `inGap` says that the cluster
before was free. -/
def gapStatsBits (bitmap : List UInt8) : ℕ → ℕ → Bool → ℕ × ℕ × Option ℕ → ℕ × ℕ × Option ℕ
  | 0, _, _, stats => stats
  | n + 1, cluster, inGap, (count, clusters, first) =>
    if bit bitmap cluster then gapStatsBits bitmap n (cluster + 1) false (count, clusters, first)
    else gapStatsBits bitmap n (cluster + 1) true
      (if inGap then count else count + 1, clusters + 1, first.or (some cluster))

/-! ### Stretches of equal bits -/

variable {c n fuel a count : ℕ} {start : Option ℕ}

section Stretches

variable {bitmap : List UInt8} {limit : ℕ}

theorem skipBits_add {value : Bool} {k : ℕ} (h : ∀ d, c ≤ d → d < c + k → bit bitmap d = value) :
    skipBits bitmap value (k + n) c = skipBits bitmap value n (c + k) := by
  induction k generalizing c with
  | zero => rw [Nat.zero_add, Nat.add_zero]
  | succ k ih =>
    rw [Nat.add_right_comm, skipBits, if_pos (h c le_rfl (by omega)), ih fun d h₁ h₂ ↦
      h d (by omega) (by omega),
      Nat.add_right_comm]
    rfl

theorem freeRunsBits_free {k : ℕ} (hk : 0 < k) (h : FreeRange bitmap c (c + k)) :
    freeRunsBits bitmap (k + n) c start = freeRunsBits bitmap n (c + k) (start.or (some c)) := by
  induction k generalizing c start with
  | zero => exact absurd hk (lt_irrefl 0)
  | succ k ih =>
    rw [Nat.add_right_comm, freeRunsBits, h c le_rfl (by omega), if_neg Bool.false_ne_true]
    rcases k.eq_zero_or_pos with rfl | hpos
    · rw [Nat.zero_add]
    · rw [ih hpos (h.mono (by omega) (by omega)), Option.or_assoc, Option.some_or,
        Nat.add_right_comm]
      rfl

theorem freeRunsBits_used {k : ℕ} (hk : 0 < k) (h : ∀ d, c ≤ d → d < c + k → bit bitmap d = true) :
    freeRunsBits bitmap
      (k + n) c start = closeRun start c ++ freeRunsBits bitmap n (c + k) none := by
  induction k generalizing c start with
  | zero => exact absurd hk (lt_irrefl 0)
  | succ k ih =>
    rw [Nat.add_right_comm, freeRunsBits, if_pos (h c le_rfl (by omega))]
    rcases k.eq_zero_or_pos with rfl | hpos
    · rw [Nat.zero_add]
    · rw [ih hpos fun d h₁ h₂ ↦ h d (by omega) (by omega), Nat.add_right_comm]
      rfl

/-- The loop of `_free_runs_before` is the one over single bits. -/
theorem freeRunsFrom_eq (hc : c ≤ limit) (hfuel : limit ≤ fuel + c) :
    freeRunsFrom bitmap limit fuel c start = freeRunsBits bitmap (limit - c) c start := by
  induction fuel generalizing c start with
  | zero =>
    obtain rfl : c = limit := by omega
    rw [Nat.sub_self]
    rfl
  | succ fuel ih =>
    rw [freeRunsFrom]
    split_ifs with hlt hzero hfull hbit
    · obtain ⟨hle, hfree⟩ := freeRange_of_wholeByte hzero
      rw [ih hle (by omega), show limit - c = 8 + (limit - (c + 8)) by omega,
        freeRunsBits_free (by decide) hfree]
    · obtain ⟨hle, hset⟩ := bit_of_wholeByte (v := true) hfull
      rw [ih hle (by omega), show limit - c = 8 + (limit - (c + 8)) by omega,
        freeRunsBits_used (by decide) hset]
    · rw [ih hlt (by omega), show limit - c = (limit - (c + 1)) + 1 by omega, freeRunsBits,
        if_pos hbit]
    · rw [ih hlt (by omega), show limit - c = (limit - (c + 1)) + 1 by omega, freeRunsBits,
        if_neg hbit]
    · obtain rfl : c = limit := by omega
      rw [Nat.sub_self]
      rfl

theorem skipUsed_eq (hfuel : limit ≤ fuel + c) :
    skipUsed bitmap limit fuel c = skipBits bitmap true (limit - c) c := by
  induction fuel generalizing c with
  | zero =>
    rw [show limit - c = 0 by omega]
    rfl
  | succ fuel ih =>
    rw [skipUsed]
    split_ifs with hlt hfull hzero hbit
    · obtain ⟨hle, hset⟩ := bit_of_wholeByte (v := true) hfull
      rw [ih (by omega), show limit - c = 8 + (limit - (c + 8)) by omega, skipBits_add hset]
    · have hfree := (freeRange_of_wholeByte hzero).2 c le_rfl (by omega)
      rw [show limit - c = (limit - (c + 1)) + 1 by omega, skipBits, hfree,
        if_neg Bool.false_ne_true]
    · rw [ih (by omega), show limit - c = (limit - (c + 1)) + 1 by omega, skipBits, if_pos hbit]
    · rw [show limit - c = (limit - (c + 1)) + 1 by omega, skipBits, if_neg hbit]
    · rw [show limit - c = 0 by omega]
      rfl

theorem skipFree_eq (hfuel : limit ≤ fuel + c) :
    skipFree bitmap limit fuel c = skipBits bitmap false (limit - c) c := by
  induction fuel generalizing c with
  | zero =>
    rw [show limit - c = 0 by omega]
    rfl
  | succ fuel ih =>
    rw [skipFree]
    split_ifs with hlt hzero hfull hbit
    · obtain ⟨hle, hfree⟩ := freeRange_of_wholeByte hzero
      rw [ih (by omega), show limit - c = 8 + (limit - (c + 8)) by omega, skipBits_add hfree]
    · have hset := (bit_of_wholeByte (v := true) hfull).2 c le_rfl (by omega)
      rw [show limit - c = (limit - (c + 1)) + 1 by omega, skipBits, hset,
        if_neg Bool.false_ne_true.symm]
    · rw [show limit - c = (limit - (c + 1)) + 1 by omega, skipBits, hbit,
        if_neg Bool.false_ne_true.symm]
    · rw [ih (by omega), show limit - c = (limit - (c + 1)) + 1 by omega, skipBits,
        if_pos (Bool.eq_false_of_not_eq_true hbit)]
    · rw [show limit - c = 0 by omega]
      rfl

end Stretches

/-! ### The searches are exact -/

section Searches

variable {bitmap : List UInt8}

theorem freeRunsBefore_eq (bitmap : List UInt8) (before : ℕ) : freeRunsBefore bitmap before =
    freeRunsBits bitmap (min before (bitmap.length * 8)) 0 none :=
  freeRunsFrom_eq (Nat.zero_le _) le_rfl

theorem nextFreeRun_eq (bitmap : List UInt8) (start before : ℕ) : nextFreeRun bitmap start before =
    nextFreeRunBits bitmap start (min before (bitmap.length * 8)) := by
  unfold nextFreeRun nextFreeRunBits
  dsimp only
  rw [skipUsed_eq (by omega), skipFree_eq (by omega)]

theorem HighWater.unique {before high high' : ℕ} (h : HighWater bitmap before high)
    (h' : HighWater bitmap before high') : high = high' := by
  have key : ∀ {a b : ℕ}, HighWater bitmap before a → HighWater bitmap before b → ¬a < b := by
    intro a b ha hb hlt
    have hused := hb.used (by omega)
    have hle := hb.le
    exact Bool.false_ne_true ((ha.free (b - 1) (by omega) (by omega)).symm.trans hused)
  exact le_antisymm (not_lt.1 (key h' h)) (not_lt.1 (key h h'))

theorem highestUsedBits_spec (bitmap : List UInt8) (n : ℕ) :
    HighWater bitmap n (highestUsedBits bitmap n) := by
  induction n with
  | zero => exact .zero bitmap
  | succ n ih => exact ih.succ

/-! ### Maximal runs -/

/-- The clusters of a run as an interval. -/
def Run.interval (r : Run) : ℕ × ℕ := (r.lcn.getD 0, r.lcn.getD 0 + r.length)

section

variable (h : ∀ s ∈ start, s < c)
include h

theorem lt_of_mem_or : ∀ s ∈ start.or (some c), s < c + 1 := by
  cases start with
  | none => exact fun s hs ↦ (Option.some.inj hs) ▸ Nat.lt_succ_self c
  | some s' => exact fun s hs ↦ (h s hs).trans (Nat.lt_succ_self c)

/-- The run that is closed, if one is open. -/
theorem closeRun_separated : Separated ((closeRun start c).map Run.interval) ∧
      (∀ r ∈ (closeRun start c).map Run.interval, start.getD c ≤ r.1 ∧ r.2 = c) ∧
      ∀ u, Covers ((closeRun start c).map Run.interval) u ↔ ∃ s ∈ start, s ≤ u ∧ u < c := by
  cases start with
  | none => exact ⟨.nil, nofun, fun u ↦ iff_of_false (not_covers_nil u) nofun⟩
  | some s =>
    have hlt := h s rfl
    have hlist : (closeRun (some s) c).map Run.interval = [(s, c)] := by
      show [(s, s + (c - s))] = [(s, c)]
      rw [Nat.add_sub_of_le hlt.le]
    rw [hlist]
    refine ⟨.singleton hlt, fun r hr ↦ ?_, fun u ↦ ?_⟩
    · rw [mem_singleton.1 hr]
      exact ⟨le_rfl, rfl⟩
    · simp [Covers]

/-- The runs found from a cluster on are in order with allocated clusters between them, and they
hold the free clusters and what the open run has passed. -/
theorem freeRunsBits_separated : Separated ((freeRunsBits bitmap n c start).map Run.interval) ∧
      (∀ r ∈ (freeRunsBits bitmap n c start).map Run.interval, start.getD c ≤ r.1) ∧
      ∀ u, Covers ((freeRunsBits bitmap n c start).map Run.interval) u ↔
        (∃ s ∈ start, s ≤ u ∧ u < c) ∨ (c ≤ u ∧ u < c + n ∧ bit bitmap u = false) := by
  induction n generalizing c start with
  | zero =>
    obtain ⟨hsep, hlow, hcov⟩ := closeRun_separated h
    refine ⟨hsep, fun r hr ↦ (hlow r hr).1, fun u ↦ (hcov u).trans (or_iff_left ?_).symm⟩
    omega
  | succ n ih =>
    rw [freeRunsBits]
    split_ifs with hbit
    · -- an allocated cluster closes the run
      obtain ⟨hsep, hlow, hcov⟩ := closeRun_separated h
      obtain ⟨hsep', hlow', hcov'⟩ := @ih (c + 1) none nofun
      rw [map_append]
      refine ⟨hsep.append hsep' fun a ha b hb ↦ ?_, fun r hr ↦ ?_, fun u ↦ ?_⟩
      · have hend := (hlow a ha).2
        have hstart : c + 1 ≤ b.1 := hlow' b hb
        omega
      · rcases mem_append.1 hr with hr | hr
        · exact (hlow r hr).1
        · have hstart : c + 1 ≤ r.1 := hlow' r hr
          cases start with
          | none => exact (Nat.le_succ c).trans hstart
          | some s =>
            have := h s rfl
            show s ≤ r.1
            omega
      · rw [covers_append, hcov, hcov']
        refine or_congr_right ((or_iff_right nofun).trans ?_)
        constructor
        · rintro ⟨hge, hlt, hfree⟩
          exact ⟨by omega, by omega, hfree⟩
        · rintro ⟨hge, hlt, hfree⟩
          have hne : c ≠ u := fun hcu ↦ Bool.false_ne_true (hfree.symm.trans (hcu ▸ hbit))
          exact ⟨by omega, by omega, hfree⟩
    · have hfree := Bool.eq_false_of_not_eq_true hbit
      obtain ⟨hsep, hlow, hcov⟩ := ih (lt_of_mem_or h)
      refine ⟨hsep, fun r hr ↦ ?_, fun u ↦ (hcov u).trans ?_⟩
      · have := hlow r hr
        cases start <;> exact this
      · -- the cluster goes from those ahead to those the open run has passed
        have hsplit : (c ≤ u ∧ u < c + (n + 1) ∧ bit bitmap u = false) ↔
            u = c ∨ (c + 1 ≤ u ∧ u < c + 1 + n ∧ bit bitmap u = false) := by
          constructor
          · rintro ⟨hge, hlt, hu⟩
            rcases hge.eq_or_lt with rfl | hgt
            · exact .inl rfl
            · exact .inr ⟨hgt, by omega, hu⟩
          · rintro (rfl | ⟨hge, hlt, hu⟩)
            · exact ⟨le_rfl, by omega, hfree⟩
            · exact ⟨by omega, by omega, hu⟩
        rw [hsplit, ← or_assoc]
        refine or_congr_left ?_
        cases start with
        | none =>
          simp only [Option.none_or, Option.mem_def, Option.some.injEq, exists_eq_left',
            reduceCtorEq, false_and,
            exists_false, false_or]
          omega
        | some s =>
          have := h s rfl
          simp only [Option.some_or, Option.mem_def, Option.some.injEq, exists_eq_left']
          omega

end

/-- The part of a run from `start` on. -/
def cutRun (start : ℕ) (r : Run) : Option Run :=
  r.lcn.bind fun lcn ↦
    if start < lcn + r.length then some ⟨some (max start lcn), lcn + r.length - max start lcn⟩
      else none

/-- A run that is closed before the cut is dropped. -/
theorem filterMap_closeRun_of_le (h : ∀ s ∈ start, s < c) (hc : c ≤ a) :
    (closeRun start c).filterMap (cutRun a) = [] := by
  cases start with
  | none => rfl
  | some s =>
    have := h s rfl
    have hdrop : cutRun a ⟨some s, c - s⟩ = none := if_neg (by dsimp only; omega)
    exact filterMap_cons_none hdrop

/-- One that is closed behind the cut loses what is before it. -/
theorem filterMap_closeRun_of_lt (h : ∀ s ∈ start, s < c ∧ a < c) :
    (closeRun start c).filterMap (cutRun a) = closeRun (start.map (max a)) c := by
  cases start with
  | none => rfl
  | some s =>
    obtain ⟨hs, ha⟩ := h s rfl
    have hend : s + (c - s) = c := by omega
    have hkeep : cutRun a ⟨some s, c - s⟩ = some ⟨some (max a s), c - max a s⟩ := by
      show (if a < s + (c - s) then _ else _) = _
      rw [hend, if_pos ha]
    exact filterMap_cons_some hkeep

theorem filterMap_freeRunsBits_of_le (hac : a ≤ c) (h : ∀ s ∈ start, s < c ∧ a < c) :
    (freeRunsBits bitmap n c start).filterMap (cutRun a) =
      freeRunsBits bitmap n c (start.map (max a)) := by
  induction n generalizing c start with
  | zero => exact filterMap_closeRun_of_lt h
  | succ n ih =>
    rw [freeRunsBits, freeRunsBits]
    split_ifs with hbit
    · rw [filterMap_append, filterMap_closeRun_of_lt h, @ih (c + 1) none (by omega) nofun]
      rfl
    · rw [ih (by omega) fun s hs ↦ ⟨lt_of_mem_or (fun s hs ↦ (h s hs).1) s hs, by omega⟩]
      cases start with
      | none => rw [Option.none_or, Option.map_some, Option.map_none, Option.none_or,
        max_eq_right hac]
      | some s => rfl

/-- **The runs behind a cut** are those found from there on. -/
theorem filterMap_freeRunsBits (hca : c ≤ a) (han : a ≤ c + n) (h : ∀ s ∈ start, s < c) :
    (freeRunsBits bitmap n c start).filterMap (cutRun a) = freeRunsBits bitmap (c + n - a) a
      none := by
  induction n generalizing c start with
  | zero =>
    obtain rfl : c = a := by omega
    rw [show c + 0 - c = 0 by omega]
    exact filterMap_closeRun_of_le h le_rfl
  | succ n ih =>
    rw [freeRunsBits]
    rcases hca.eq_or_lt with rfl | hlt
    · have hopen := lt_of_mem_or h
      rw [show c + (n + 1) - c = n + 1 by omega, freeRunsBits]
      split_ifs with hbit
      · rw [filterMap_append, filterMap_closeRun_of_le h le_rfl, nil_append]
        exact @filterMap_freeRunsBits_of_le (c + 1) n c none bitmap (by omega) nofun
      · rw [filterMap_freeRunsBits_of_le (by omega) fun s hs ↦ ⟨hopen s hs, Nat.lt_succ_self c⟩]
        cases start with
        | none => rw [Option.none_or, Option.map_some, max_self]
        | some s =>
          rw [Option.some_or, Option.map_some, max_eq_left (h s rfl).le]
          rfl
    · rw [show c + (n + 1) - a = c + 1 + n - a by omega]
      split_ifs with hbit
      · rw [filterMap_append, filterMap_closeRun_of_le h hca, nil_append]
        exact @ih (c + 1) none hlt (by omega) nofun
      · exact ih hlt (by omega) (lt_of_mem_or h)

theorem skipBits_ge {value : Bool} :
    c ≤ skipBits bitmap value n c ∧ skipBits bitmap value n c ≤ c + n := by
  induction n generalizing c with
  | zero => exact ⟨le_rfl, le_rfl⟩
  | succ n ih =>
    rw [skipBits]
    split_ifs
    · have := @ih (c + 1)
      omega
    · omega

theorem head?_freeRunsBits_some {s : ℕ} :
    (freeRunsBits bitmap n c (some s)).head? = some ⟨some s, skipBits bitmap false n c - s⟩ := by
  induction n generalizing c with
  | zero => rfl
  | succ n ih =>
    rw [freeRunsBits, skipBits]
    split_ifs with hbit hfree hfree
    · exact absurd (hfree.symm.trans hbit) Bool.false_ne_true
    · rfl
    · exact ih
    · exact absurd (Bool.eq_false_of_not_eq_true hbit) hfree

/-- The first run is where the search for one stops. -/
theorem head?_freeRunsBits {start limit : ℕ} :
    (freeRunsBits bitmap (limit - start) start none).head? = nextFreeRunBits bitmap start
      limit := by
  unfold nextFreeRunBits
  dsimp only
  generalize hn : limit - start = n
  induction n generalizing start with
  | zero => rw [skipBits, if_pos (by omega)]; rfl
  | succ n ih =>
    rw [freeRunsBits, skipBits]
    by_cases hbit : bit bitmap start = true
    · rw [if_pos hbit, if_pos hbit]
      exact ih (by omega)
    · have hfree := Bool.eq_false_of_not_eq_true hbit
      rw [if_neg hbit, if_neg hbit, if_neg (by omega), hn, skipBits, if_pos hfree]
      exact head?_freeRunsBits_some

/-- **`_next_free_run` is the first of the free runs behind the start**, cut there. -/
theorem nextFreeRun_eq_head? (bitmap : List UInt8) (start before : ℕ) :
    nextFreeRun bitmap start before =
      ((freeRunsBefore bitmap before).filterMap (cutRun start)).head? := by
  rw [nextFreeRun_eq, ← head?_freeRunsBits]
  rcases le_or_gt start (min before (bitmap.length * 8)) with hle | hgt
  · rw [freeRunsBefore_eq, @filterMap_freeRunsBits 0 _ start none bitmap (Nat.zero_le _)
      (by omega) nofun,
      Nat.zero_add]
  · -- nothing ends behind a start beyond the bound
    have hnone : (freeRunsBefore bitmap before).filterMap (cutRun start) = [] := by
      refine filterMap_eq_nil_iff.2 fun r hr ↦ ?_
      obtain ⟨lcn, hlcn, -, hle, -⟩ := freeRunsBefore_free r hr
      rw [cutRun, hlcn]
      exact if_neg (by omega)
    rw [hnone, show min before (bitmap.length * 8) - start = 0 by omega]
    rfl

/-! ### Gap statistics -/

theorem skipBits_stop {value : Bool} (h : skipBits bitmap value n c < c + n) :
    bit bitmap (skipBits bitmap value n c) ≠ value := by
  induction n generalizing c with
  | zero => exact absurd h (lt_irrefl c)
  | succ n ih =>
    rw [skipBits] at h ⊢
    split_ifs at h ⊢ with hbit
    · exact ih (by omega)
    · exact hbit

theorem gapStatsBits_used {stats : ℕ × ℕ × Option ℕ} : gapStatsBits bitmap n c false stats =
    gapStatsBits bitmap (c + n - skipBits bitmap true n c)
      (skipBits bitmap true n c) false stats := by
  induction n generalizing c with
  | zero => rw [skipBits, Nat.add_sub_cancel_left]
  | succ n ih =>
    rw [skipBits]
    split_ifs with hbit
    · rw [gapStatsBits, if_pos hbit, ih, show c + 1 + n = c + (n + 1) by omega]
    · rw [Nat.add_sub_cancel_left]

theorem gapStatsBits_free {clusters f : ℕ} :
    gapStatsBits bitmap n c true (count, clusters, some f) =
      gapStatsBits bitmap (c + n - skipBits bitmap false n c) (skipBits bitmap false n c) false
        (count, clusters + (skipBits bitmap false n c - c), some f) := by
  induction n generalizing c clusters with
  | zero => rw [skipBits, Nat.add_sub_cancel_left, Nat.sub_self]; rfl
  | succ n ih =>
    rw [skipBits, gapStatsBits]
    by_cases hbit : bit bitmap c = true
    · rw [if_pos hbit, hbit, if_neg Bool.false_ne_true.symm, Nat.add_sub_cancel_left, Nat.sub_self,
        gapStatsBits,
        if_pos hbit]
      rfl
    · have hge := (@skipBits_ge (c + 1) n bitmap false).1
      rw [if_neg hbit, if_pos rfl, if_pos (Bool.eq_false_of_not_eq_true hbit), Option.some_or, ih,
        show c + 1 + n = c + (n + 1) by omega,
        show clusters + 1 + (skipBits bitmap false n (c + 1) - (c + 1)) =
          clusters + (skipBits bitmap false n (c + 1) - c) by omega]

/-- **One gap**: up to its end, with the run that the search for the next one finds. -/
theorem gapStatsBits_gap {limit cursor clusters : ℕ} {first : Option ℕ} :
    gapStatsBits bitmap (limit - cursor) cursor false (count, clusters, first) =
      match nextFreeRunBits bitmap cursor limit with
      | none => (count, clusters, first)
      | some run => gapStatsBits bitmap (limit - (run.lcn.getD 0 + run.length))
        (run.lcn.getD 0 + run.length) false
          (count + 1, clusters + run.length, first.or run.lcn) := by
  unfold nextFreeRunBits
  dsimp only
  rw [gapStatsBits_used]
  obtain ⟨hge, hle⟩ := @skipBits_ge cursor (limit - cursor) bitmap true
  have hstop := @skipBits_stop cursor (limit - cursor) bitmap true
  generalize skipBits bitmap true (limit - cursor) cursor = s at hge hle hstop ⊢
  by_cases hend : s ≥ limit
  · rw [if_pos hend, show cursor + (limit - cursor) - s = 0 by omega]
    rfl
  · have hfree : bit bitmap s = false := Bool.eq_false_of_not_eq_true (hstop (by omega))
    have hgt := (@skipBits_ge (s + 1) (limit - (s + 1)) bitmap false).1
    rw [if_neg hend, show cursor + (limit - cursor) - s = limit - (s + 1) + 1 by omega,
      gapStatsBits, hfree,
      if_neg Bool.false_ne_true, if_neg Bool.false_ne_true]
    obtain ⟨f, hf⟩ : ∃ f, first.or (some s) = some f := by
      cases first with
      | none => exact ⟨s, rfl⟩
      | some f => exact ⟨f, rfl⟩
    have hskip :
        skipBits bitmap false (limit - s) s = skipBits bitmap false (limit - (s + 1)) (s + 1) := by
      rw [show limit - s = limit - (s + 1) + 1 by omega, skipBits, if_pos hfree]
    rw [hf, gapStatsBits_free, hskip]
    generalize skipBits bitmap false (limit - (s + 1)) (s + 1) = e at hgt ⊢
    show _ = gapStatsBits bitmap (limit - (s + (e - s))) (s + (e - s)) false
      (count + 1, clusters + (e - s), first.or (some s))
    rw [hf, show s + (e - s) = e by omega, show s + 1 + (limit - (s + 1)) - e = limit - e by omega,
      show clusters + 1 + (e - (s + 1)) = clusters + (e - s) by omega]

/-- The loop of `_free_gap_stats` is the one over single bits. -/
theorem freeGapStatsFrom_eq {before cursor : ℕ} {stats : ℕ × ℕ × Option ℕ}
    (hfuel : min before (bitmap.length * 8) ≤ fuel + cursor) :
    freeGapStatsFrom bitmap before fuel cursor stats =
      gapStatsBits bitmap (min before (bitmap.length * 8) - cursor) cursor false stats := by
  induction fuel generalizing cursor stats with
  | zero =>
    rw [show min before (bitmap.length * 8) - cursor = 0 by omega]
    rfl
  | succ fuel ih =>
    obtain ⟨count, clusters, first⟩ := stats
    rw [freeGapStatsFrom, nextFreeRun_eq, gapStatsBits_gap]
    cases hnext : nextFreeRunBits bitmap cursor (min before (bitmap.length * 8)) with
    | none => rfl
    | some run =>
      dsimp only
      -- the cursor has moved, since the run is not empty and starts behind it
      obtain ⟨⟨lcn, hlcn, hpos, -⟩, hge⟩ :=
        nextFreeRun_eq_some ((nextFreeRun_eq bitmap cursor before).trans hnext)
      have hle := hge lcn hlcn
      rw [hlcn, Option.getD_some]
      exact ih (by omega)

theorem freeGapStats_eq (bitmap : List UInt8) (before start : ℕ) :
    freeGapStats bitmap before start =
    gapStatsBits bitmap (min before (bitmap.length * 8) - start) start false (0, 0, none) :=
  freeGapStatsFrom_eq (by omega)

end Searches

/-! ### Changing a range -/

section SetRange

variable {bitmap : List UInt8} {value : Bool}

/-- A range that `_set_range` writes although its end is not in the bitmap: the end is on a byte
boundary, and the byte-wide part is reached. -/
def Overruns (bitmap : List UInt8) (start length : ℕ) : Prop :=
  0 < length ∧ bitmap.length * 8 < start + length ∧ (start + length) % 8 = 0 ∧
    (start % 8 = 0 ∨ start < bitmap.length * 8)

/-- Bitmaps are equal if their bits are. -/
theorem RangeSet.unique {b : ℕ} {bm bm' : List UInt8} (h : RangeSet value a b bitmap bm)
    (h' : RangeSet value a b bitmap bm') : bm = bm' := by
  refine ext_getElem (h.length.trans h'.length.symm) fun k hk hk' ↦ byteBit_ext fun j hj ↦ ?_
  have hbit := (h.bit (8 * k + j)).trans (h'.bit (8 * k + j)).symm
  unfold Ntfs.bit bitAt at hbit
  rwa [show (8 * k + j) / 8 = k by omega, show (8 * k + j) % 8 = j by omega, getD_eq_getElem _ _ hk,
    getD_eq_getElem _ _ hk'] at hbit

/-- One bit at a time, the end of the bitmap is an error. -/
theorem setBits_overrun {start : ℕ} (hcount : 0 < count) (h : bitmap.length * 8 < start + count) :
    setBits value count start bitmap = .error .indexError := by
  induction count generalizing start bitmap with
  | zero => exact absurd hcount (lt_irrefl 0)
  | succ count ih =>
    rw [setBits]
    by_cases hstart : start < bitmap.length * 8
    · obtain ⟨bm, hset, hrange⟩ := setBit_eq_ok value hstart
      rw [hset, ok_bind]
      exact ih (by omega) (by rw [hrange.length]; omega)
    · rw [setBit, if_neg (by omega)]
      rfl

/-- The first loop ends at a byte boundary of the bitmap, or at the end of the range. -/
theorem setUntilAligned_of_lt {start : ℕ} (h : start < bitmap.length * 8) :
    ∃ reached bm, setUntilAligned value count start bitmap = .ok (reached, bm) ∧ start ≤ reached ∧
      reached ≤ bitmap.length * 8 ∧ reached ≤ start + count ∧
      (reached % 8 = 0 ∨ reached = start + count) ∧
      bm.length = bitmap.length := by
  induction count generalizing start bitmap with
  | zero => exact ⟨start, bitmap, rfl, le_rfl, h.le, le_rfl, .inr rfl, rfl⟩
  | succ count ih =>
    rw [setUntilAligned]
    split_ifs with halign
    · obtain ⟨bm, hset, hrange⟩ := setBit_eq_ok value h
      rw [hset, ok_bind]
      by_cases hend : start + 1 < bitmap.length * 8
      · obtain ⟨reached, bm', hreach, hge, hle, hcount, hstop, hlen⟩ :=
          ih (by rw [hrange.length]; exact hend)
        rw [hrange.length] at hle hlen
        exact ⟨reached, bm', hreach, by omega, hle, by omega, by omega, hlen⟩
      · -- the end of the bitmap is a byte boundary
        refine ⟨start + 1, bm, ?_, by omega, by omega, by omega, .inl (by omega), hrange.length⟩
        cases count with
        | zero => rfl
        | succ count => rw [setUntilAligned, if_neg (by omega)]; rfl
    · exact ⟨start, bitmap, rfl, le_rfl, h.le, by omega, .inl (by omega), rfl⟩

/-- What `_set_range` does after its first loop. -/
def setAligned (value : Bool) (bitmap : List UInt8) (reached stop : ℕ) :
    Except PyError (List UInt8) :=
  if stop / 8 > reached / 8 then
    setBits value (stop - stop / 8 * 8) (stop / 8 * 8) (putSlice bitmap (reached / 8) (stop / 8)
      (List.replicate (stop / 8 - reached / 8) (fillByte value)))
  else setBits value (stop - reached) reached bitmap

theorem setRange_eq_setAligned {start length reached : ℕ} {bm : List UInt8}
    (h : setUntilAligned value length start bitmap = .ok (reached, bm)) :
    setRange bitmap start length value = setAligned value bm reached (start + length) := by
  rw [setRange, h, ok_bind]
  rfl

theorem setUntilAligned_aligned {start : ℕ} (h : start % 8 = 0) :
    setUntilAligned value count start bitmap = .ok (start, bitmap) := by
  cases count with
  | zero => rfl
  | succ count =>
    rw [setUntilAligned, if_neg (not_not.2 h)]
    rfl

/-- From a byte boundary on, `_set_range` fails behind the end unless the range ends on one. -/
theorem setAligned_overrun {reached stop : ℕ} (halign : reached % 8 = 0) (hle : reached ≤ stop)
    (h : bitmap.length * 8 < stop) :
    if stop % 8 = 0 then ∃ bm, setAligned value bitmap reached stop = .ok bm
    else setAligned value bitmap reached stop = .error .indexError := by
  unfold setAligned
  by_cases hend : stop % 8 = 0
  · -- no bit is left behind the slice, or behind the first loop
    rw [if_pos hend]
    split_ifs with hbytes
    · rw [show stop - stop / 8 * 8 = 0 by omega]
      exact ⟨_, rfl⟩
    · rw [show stop - reached = 0 by omega]
      exact ⟨_, rfl⟩
  · rw [if_neg hend]
    split_ifs with hbytes
    · -- behind the slice the bitmap ends
      refine setBits_overrun (by omega) ?_
      have hlen : (putSlice bitmap (reached / 8) (stop / 8)
          (replicate (stop / 8 - reached / 8) (fillByte value))).length ≤ stop / 8 := by
        simp only [putSlice, length_append, length_take, length_drop, length_replicate]
        omega
      omega
    · exact setBits_overrun (by omega) (by omega)

/-- **When `_set_range` is exact.** -/
theorem setRange_eq_iff {start length : ℕ} :
    setRange bitmap start length value = setBits value length start bitmap ↔
        ¬Overruns bitmap start length := by
  rcases length.eq_zero_or_pos with rfl | hpos
  · refine iff_of_true ?_ fun h ↦ lt_irrefl 0 h.1
    have hreach : setUntilAligned value 0 start bitmap = .ok (start, bitmap) := rfl
    rw [setRange_eq_setAligned hreach, setAligned, if_neg (by omega), Nat.add_zero, Nat.sub_self]
  by_cases hin : start + length ≤ bitmap.length * 8
  · refine iff_of_true ?_ fun h ↦ by have := h.2.1; omega
    obtain ⟨bm, hset, hrange⟩ := setRange_eq_ok value hin
    obtain ⟨bm', hset', hrange'⟩ := setBits_eq_ok value length start hin
    rw [hset, hset', hrange.unique hrange']
  have hover := not_le.1 hin
  rw [setBits_overrun hpos hover]
  -- what the first loop reaches decides whether the byte-wide part is
  have key : ∀ {reached : ℕ} {bm : List UInt8}, setUntilAligned value length start bitmap =
    .ok (reached, bm) →
      reached % 8 = 0 → reached ≤ start + length → bm.length = bitmap.length →
      (setRange bitmap start length value = .error .indexError ↔ (start + length) % 8 ≠ 0) := by
    intro reached bm hreach halign hle hlen
    have hset :=
      @setAligned_overrun bm value reached (start + length) halign hle (hlen.symm ▸ hover)
    rw [setRange_eq_setAligned hreach]
    split_ifs at hset with hend
    · obtain ⟨bm', hset⟩ := hset
      rw [hset]
      exact iff_of_false nofun (not_not.2 hend)
    · exact iff_of_true hset hend
  by_cases halign : start % 8 = 0
  · rw [key (setUntilAligned_aligned halign) halign (by omega) rfl]
    exact not_congr ⟨fun h ↦ ⟨hpos, hover, h, .inl halign⟩, fun h ↦ h.2.2.1⟩
  by_cases hstart : start < bitmap.length * 8
  · obtain ⟨reached, bm, hreach, hge, hle, hcount, hstop, hlen⟩ :=
      @setUntilAligned_of_lt length bitmap value start hstart
    rw [key hreach (by omega) hcount hlen]
    exact not_congr ⟨fun h ↦ ⟨hpos, hover, h, .inr hstart⟩, fun h ↦ h.2.2.1⟩
  · -- the first bit is already behind the end
    refine iff_of_true ?_ fun h ↦ h.2.2.2.elim halign hstart
    obtain ⟨count, rfl⟩ := Nat.exists_eq_add_of_lt hpos
    rw [setRange, Nat.zero_add, setUntilAligned, if_pos halign, setBit, if_neg (by omega)]
    rfl

end SetRange

/-! ### Exactness -/

/-- **The bitmap functions give what single bits give.** -/
structure BitmapExact (bitmap : List UInt8) (start length before : ℕ) (value : Bool) : Prop where
  set_range : setRange bitmap start length value = setBits value length start bitmap
  highest_used :
    highestUsedBefore bitmap before = highestUsedBits bitmap (min before (bitmap.length * 8))
  free_runs :
    freeRunsBefore bitmap before = freeRunsBits bitmap (min before (bitmap.length * 8)) 0 none
  /-- The runs are in order with allocated clusters between them and hold exactly the free
  clusters. -/
  maximal : Separated ((freeRunsBefore bitmap before).map Run.interval) ∧
    ∀ u, Covers ((freeRunsBefore bitmap before).map Run.interval) u ↔
      u < min before (bitmap.length * 8) ∧ bit bitmap u = false
  next_free :
    nextFreeRun bitmap start before = nextFreeRunBits bitmap start (min before (bitmap.length * 8))
  first_run : nextFreeRun bitmap start before =
    ((freeRunsBefore bitmap before).filterMap (cutRun start)).head?
  gap_stats : freeGapStats bitmap before start =
    gapStatsBits bitmap (min before (bitmap.length * 8) - start) start false (0, 0, none)

/-- **The fast paths are exact on every input except the ranges that overrun the bitmap.** -/
theorem bitmap_exact_iff (bitmap : List UInt8) (start length before : ℕ) (value : Bool) :
    BitmapExact bitmap start length before value ↔ ¬Overruns bitmap start length := by
  refine ⟨fun h ↦ setRange_eq_iff.1 h.set_range, fun h ↦ ?_⟩
  obtain ⟨hsep, -, hcov⟩ :=
    @freeRunsBits_separated 0 (min before (bitmap.length * 8)) none bitmap nofun
  rw [← freeRunsBefore_eq] at hsep hcov
  refine ⟨setRange_eq_iff.2 h, (highestUsedBefore_spec bitmap before).unique
    (highestUsedBits_spec bitmap _),
    freeRunsBefore_eq bitmap before, ⟨hsep, fun u ↦ ?_⟩, nextFreeRun_eq bitmap start before,
    nextFreeRun_eq_head? bitmap start before, freeGapStats_eq bitmap before start⟩
  rw [hcov, Nat.zero_add]
  exact (or_iff_right nofun).trans (and_iff_right (Nat.zero_le u))

/-- **Two bytes are set in a bitmap of one byte.** -/
theorem setRange_grows : setRange [0x00] 0 16 true = .ok [0xFF, 0xFF] ∧
    setBits true 16 0 [0x00] = .error .indexError ∧ ¬BitmapExact [0x00] 0 16 8 true := by
  have hset : setRange [0x00] 0 16 true = .ok [0xFF, 0xFF] := by decide
  have hbits : setBits true 16 0 [0x00] = .error .indexError := by decide
  refine ⟨hset, hbits, fun h ↦ ?_⟩
  have := h.set_range
  rw [hset, hbits] at this
  cases this

end LinuxDefragger.Ntfs
