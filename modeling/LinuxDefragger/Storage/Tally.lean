import Mathlib.Data.Fintype.BigOperators

/-!
# Counting on intervals

`tally f a b k` is the number of arguments in `[a, b)` at which `f` takes the value `k`. A program
that sweeps over an interval counts a piece at a time. `Tiles a l z` says that the pieces of `l`
cover `[a, z)` in order.
-/

open List

namespace Storage

variable {κ : Type} [DecidableEq κ]

/-- How many numbers of `[a, b)` have the value `k`. -/
def tally (f : ℕ → κ) (a b : ℕ) (k : κ) : ℕ := (List.range' a (b - a)).countP fun u ↦ f u = k

/-- `f` with the value `v` from `s` to `e`. -/
def paint {κ : Type} (f : ℕ → κ) (s e : ℕ) (v : κ) : ℕ → κ :=
    fun u ↦ if s ≤ u ∧ u < e then v else f u

section

variable {f g : ℕ → κ} {a b c : ℕ} {k : κ}

theorem tally_of_le (h : b ≤ a) : tally f a b k = 0 := by
  rw [tally, Nat.sub_eq_zero_of_le h]
  rfl

theorem tally_append (hab : a ≤ b) (hbc : b ≤ c) :
    tally f a c k = tally f a b k + tally f b c k := by
  have hsplit : range' a (c - a) = range' a (b - a) ++ range' b (c - b) := by
    have hjoin := @range'_append_1 a (b - a) (c - b)
    rw [Nat.add_sub_cancel' hab] at hjoin
    rw [hjoin]
    congr 1
    omega
  rw [tally, hsplit, countP_append]
  rfl

theorem tally_congr (h : ∀ u, a ≤ u → u < b → f u = g u) : tally f a b k = tally g a b k := by
  refine countP_congr fun u hu ↦ ?_
  obtain ⟨hle, hlt⟩ := mem_range'_1.1 hu
  rw [h u hle (by omega)]

/-- A piece on which the function does not change. -/
theorem tally_const {v : κ} (h : ∀ u, a ≤ u → u < b → f u = v) :
    tally f a b k = if v = k then b - a else 0 := by
  rw [tally_congr (g := fun _ ↦ v) h, tally]
  split_ifs with hv
  · simp [hv]
  · simp [hv]

theorem tally_eq_zero (h : ∀ u, a ≤ u → u < b → f u ≠ k) : tally f a b k = 0 := by
  refine countP_eq_zero.2 fun u hu ↦ ?_
  obtain ⟨hle, hlt⟩ := mem_range'_1.1 hu
  simpa using h u hle (by omega)

theorem tally_shift (d : ℕ) : tally (fun u ↦ f (u + d)) a b k = tally f (a + d) (b + d) k := by
  rw [tally, tally, Nat.add_sub_add_right, show range' (a + d) (b - a) =
    (range' a (b - a)).map (· + d) by simp [map_add_range', Nat.add_comm], countP_map]
  rfl

/-- A function that tells the value `v` from the others keeps its tally. -/
theorem tally_comp {ι : Type} [DecidableEq ι] {p : ℕ → ι} {i : ι} (g : ι → κ)
    (hg : ∀ j, g j = g i → j = i) : tally (g ∘ p) a b (g i) = tally p a b i := by
  refine countP_congr fun u _ ↦ ?_
  simp only [decide_eq_true_eq, Function.comp]
  exact ⟨hg (p u), congrArg g⟩

/-- Every number of the interval has one value. -/
theorem sum_tally [Fintype κ] (f : ℕ → κ) (a b : ℕ) : ∑ k, tally f a b k = b - a := by
  have hlist : ∀ l : List ℕ, ∑ k, l.countP (fun u ↦ f u = k) = l.length := by
    intro l
    induction l with
    | nil => simp
    | cons u l ih => simp [countP_cons, Finset.sum_add_distrib, ih]
  have hsum := hlist (range' a (b - a))
  rwa [length_range'] at hsum

theorem tally_false (f : ℕ → Bool) (a b : ℕ) : tally f a b false = (b - a) - tally f a b true := by
  have hsum := sum_tally f a b
  rw [Fintype.sum_bool] at hsum
  omega

/-- Painting over one value moves the overlap from its count to the new one's. -/
theorem tally_paint {s e : ℕ} {w : κ} (v : κ)
    (hw : ∀ u, s ≤ u → u < e → f u = w) :
    tally (paint f s e v) a b k + (if w = k then min e b - max s a else 0) =
      tally f a b k + if v = k then min e b - max s a else 0 := by
  rcases Nat.le_total (min e b) (max s a) with hnone | hsome
  · rw [Nat.sub_eq_zero_of_le hnone, ite_self, ite_self]
    exact congrArg (· + 0) (tally_congr fun u hle hlt ↦ if_neg (by omega))
  · have hsplit : ∀ g : ℕ → κ, tally g a b k = tally g a (max s a) k +
        (tally g (max s a) (min e b) k + tally g (min e b) b k) := by
      intro g
      rw [← tally_append hsome (min_le_right _ _), ← tally_append (le_max_right _ _) (by omega)]
    have hpainted : tally (paint f s e v) (max s a) (min e b) k = if v = k then _ else 0 :=
      tally_const fun u hle hlt ↦ if_pos (by omega)
    have hold : tally f (max s a) (min e b) k = if w = k then _ else 0 :=
      tally_const fun u hle hlt ↦ hw u (by omega) (by omega)
    have hbefore : tally (paint f s e v) a (max s a) k = tally f a (max s a) k :=
      tally_congr fun u hle hlt ↦ if_neg (by omega)
    have hbehind : tally (paint f s e v) (min e b) b k = tally f (min e b) b k :=
      tally_congr fun u hle hlt ↦ if_neg (by omega)
    rw [hsplit, hsplit f, hpainted, hold, hbefore, hbehind]
    omega

end

/-! ### Tilings -/

/-- The nonempty intervals of the list follow on each other from `a` to `z`. -/
inductive Tiles : ℕ → List (ℕ × ℕ) → ℕ → Prop
  | nil (a : ℕ) : Tiles a [] a
  | cons {a b z : ℕ} {l : List (ℕ × ℕ)} (h : a < b) (hl : Tiles b l z) : Tiles a ((a, b) :: l) z

namespace Tiles

variable {a z : ℕ} {l : List (ℕ × ℕ)}

section

variable (h : Tiles a l z)
include h

theorem le : a ≤ z := by
  induction h with
  | nil => exact le_rfl
  | cons h _ ih => exact h.le.trans ih

theorem mem : ∀ p ∈ l, a ≤ p.1 ∧ p.1 < p.2 ∧ p.2 ≤ z := by
  induction h with
  | nil => exact fun p hp ↦ by cases hp
  | cons h hl ih =>
    refine forall_mem_cons.2 ⟨⟨le_rfl, h, hl.le⟩, fun p hp ↦ ?_⟩
    obtain ⟨hle, hlt, hz⟩ := ih p hp
    exact ⟨h.le.trans hle, hlt, hz⟩

theorem pairwise : l.Pairwise fun p q ↦ p.2 ≤ q.1 := by
  induction h with
  | nil => exact .nil
  | cons _ hl ih => exact .cons (fun q hq ↦ (hl.mem q hq).1) ih

/-- **A tiling lists every number of its interval once, in order.** -/
theorem flatMap_range' : l.flatMap (fun p ↦ range' p.1 (p.2 - p.1)) = range' a (z - a) := by
  induction h with
  | nil => simp
  | @cons a b z l h hl ih =>
    have hjoin := @range'_append_1 a (b - a) (z - b)
    rw [Nat.add_sub_cancel' h.le] at hjoin
    rw [flatMap_cons, ih, hjoin]
    congr 1
    have := hl.le
    omega

/-- A tiling that is moved up. -/
theorem map_add (d : ℕ) : Tiles (a + d) (l.map fun p ↦ (p.1 + d, p.2 + d)) (z + d) := by
  induction h with
  | nil => exact .nil _
  | cons h _ ih => exact .cons (Nat.add_lt_add_right h d) ih

end

end Tiles

section Proportional

variable {total n : ℕ} (hpos : 0 < n) (hle : n ≤ total)
include hpos hle

/-- A proportional part ends at least one unit after its start. -/
theorem proportional_lt (i : ℕ) : i * total / n + 1 ≤ (i + 1) * total / n := by
  rw [← Nat.add_div_right _ hpos, Nat.succ_mul]
  exact Nat.div_le_div_right (Nat.add_le_add_left hle _)

/-- **Proportional parts tile the whole** if there are not more of them than units. -/
theorem tiles_proportional :
    Tiles 0 ((range n).map fun i ↦ (i * total / n, (i + 1) * total / n)) total := by
  have hfrom : ∀ m i, Tiles (i * total / n)
      ((range' i m).map fun j ↦ (j * total / n, (j + 1) * total / n)) ((i + m) * total / n) := by
    intro m
    induction m with
    | zero => exact fun i ↦ .nil _
    | succ m ih =>
      intro i
      have hrest := ih (i + 1)
      rw [Nat.add_assoc, Nat.add_comm 1 m] at hrest
      rw [range'_succ, map_cons]
      exact .cons (proportional_lt hpos hle i) hrest
  have hall := hfrom n 0
  rwa [Nat.zero_mul, Nat.zero_div, Nat.zero_add, Nat.mul_div_cancel_left _ hpos,
    ← range_eq_range'] at hall

end Proportional

end Storage
