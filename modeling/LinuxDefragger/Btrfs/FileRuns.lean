import LinuxDefragger.Gui.MergeRanges

/-!
# Runs of a file

Both Btrfs scanners describe a file by runs and coalesce runs that continue each other, in the file
and on the device. A file is fragmented when more than one run is left.

The scanners cut the same extents into different runs. `Splits` says when a list of runs is a finer
cut of one run; a file cut finer is fragmented just if it was, and its runs cover the same bytes of
the device (`coalesce_splits`), in whatever order the extents come.
-/

open List Storage

open scoped List

namespace LinuxDefragger.Btrfs

/-- `_FileRun` -/
structure FileRun where
  logical : ℕ
  physical : ℕ
  length : ℕ
  diskStart : ℕ
  diskLength : ℕ
  encoded : Bool
  deriving DecidableEq, Repr

/-- The second run continues the first, in the file and on the device. -/
def FileRun.Joins (a b : FileRun) : Prop :=
  a.encoded = false ∧ b.encoded = false ∧ a.logical + a.length = b.logical ∧
    a.physical + a.length = b.physical

instance (a b : FileRun) : Decidable (a.Joins b) := inferInstanceAs (Decidable (_ ∧ _))

/-- The run with what continues it. -/
def FileRun.extend (old run : FileRun) : FileRun :=
  ⟨old.logical, old.physical, old.length + run.length, old.diskStart,
    old.diskLength + run.diskLength, false⟩

/-- One run of `_coalesce_file_runs`. The output has its last run first. -/
def coalesceStep (output : List FileRun) (run : FileRun) : List FileRun :=
  if run.length = 0 then output
  else
    match output with
    | [] => [run]
    | old :: rest =>
      if old.Joins run then old.extend run :: rest else run :: old :: rest

/-- The runs in the order of their offsets in the file. -/
def sortRuns (runs : List FileRun) : List FileRun :=
  runs.insertionSort fun a b ↦ a.logical ≤ b.logical

/-- `_coalesce_file_runs` -/
def coalesceFileRuns (runs : List FileRun) : List FileRun :=
  ((sortRuns runs).foldl coalesceStep []).reverse

/-- What a fragmented file adds to the fragmented ranges. -/
def diskRanges (runs : List FileRun) : List (ℕ × ℕ) :=
  runs.map fun run ↦ (run.diskStart, run.diskStart + run.diskLength)

/-- A run as the scanners make it: not empty and, unless encoded, stored as it is. -/
structure FileRun.Plain (r : FileRun) : Prop where
  pos : 0 < r.length
  stored : r.encoded = false → r.diskStart = r.physical ∧ r.diskLength = r.length

/-! ### Coalescing -/

section Coalesce

variable {runs rest : List FileRun} {old run : FileRun}

theorem coalesceStep_of_joins (hrun : run.Plain) (h : old.Joins run) :
    coalesceStep (old :: rest) run = old.extend run :: rest := by
  rw [coalesceStep, if_neg (Nat.pos_iff_ne_zero.1 hrun.pos)]
  exact if_pos h

theorem coalesceStep_of_not_joins (hrun : run.Plain) (h : ¬old.Joins run) :
    coalesceStep (old :: rest) run = run :: old :: rest := by
  rw [coalesceStep, if_neg (Nat.pos_iff_ne_zero.1 hrun.pos)]
  exact if_neg h

theorem coalesceStep_nil (hrun : run.Plain) : coalesceStep [] run = [run] := by
  rw [coalesceStep, if_neg (Nat.pos_iff_ne_zero.1 hrun.pos)]

/-- **The number of runs left.** Coalescing goes on with `old`, which ends as the run `last` does;
no run more is left just if the runs to come continue each other and it. -/
theorem length_foldl_coalesceStep (old last : FileRun) (rest : List FileRun)
    (hruns : ∀ r ∈ runs, r.Plain) (hencoded : old.encoded = last.encoded)
    (hlogical : old.logical + old.length = last.logical + last.length)
    (hphysical : old.physical + old.length = last.physical + last.length) :
    rest.length + 1 ≤ (runs.foldl coalesceStep (old :: rest)).length ∧
      ((runs.foldl coalesceStep (old :: rest)).length ≤ rest.length + 1 ↔
        (last :: runs).IsChain FileRun.Joins) := by
  induction runs generalizing old last rest with
  | nil => simp
  | cons run runs ih =>
    obtain ⟨hrun, hruns⟩ := forall_mem_cons.1 hruns
    have hjoins : old.Joins run ↔ last.Joins run := by
      unfold FileRun.Joins
      rw [hencoded, hlogical, hphysical]
    rw [foldl_cons, isChain_cons_cons, ← hjoins]
    by_cases hj : old.Joins run
    · rw [coalesceStep_of_joins hrun hj]
      have h := ih (old.extend run) run rest hruns hj.2.1.symm
        (by rw [← hj.2.2.1]; exact (Nat.add_assoc _ _ _).symm)
        (by rw [← hj.2.2.2]; exact (Nat.add_assoc _ _ _).symm)
      exact h.imp_right fun h ↦ h.trans (and_iff_right hj).symm
    · rw [coalesceStep_of_not_joins hrun hj]
      have hmore := (ih run run (old :: rest) hruns rfl rfl rfl).1
      rw [length_cons] at hmore
      exact ⟨by omega, fun h ↦ by omega, fun h ↦ absurd h.1 hj⟩

section

variable (hruns : ∀ r ∈ runs, r.Plain)
include hruns

/-- The runs left are one at most just if the runs, in order, continue each other. -/
theorem length_coalesceFileRuns_le :
    (coalesceFileRuns runs).length ≤ 1 ↔ (sortRuns runs).IsChain FileRun.Joins := by
  have hsorted : ∀ r ∈ sortRuns runs, r.Plain := fun r hr ↦ hruns r ((mem_insertionSort _).1 hr)
  rw [coalesceFileRuns, length_reverse]
  cases h : sortRuns runs with
  | nil => simp
  | cons run rest =>
    rw [h] at hsorted
    obtain ⟨hrun, hrest⟩ := forall_mem_cons.1 hsorted
    rw [foldl_cons, coalesceStep_nil hrun]
    exact (length_foldl_coalesceStep run run [] hrest rfl rfl rfl).2

/-- Coalescing covers on the device what it is given. -/
theorem covers_foldl_coalesceStep {output : List FileRun}
    (houtput : ∀ r ∈ output, r.Plain) (u : ℕ) :
    Covers (diskRanges (runs.foldl coalesceStep output)) u ↔
      Covers (diskRanges output) u ∨ Covers (diskRanges runs) u := by
  induction runs generalizing output with
  | nil => simp [diskRanges, not_covers_nil]
  | cons run runs ih =>
    obtain ⟨hrun, hruns⟩ := forall_mem_cons.1 hruns
    rw [foldl_cons, diskRanges, diskRanges, diskRanges, map_cons, covers_cons]
    cases output with
    | nil =>
      rw [coalesceStep_nil hrun]
      refine (ih hruns (by simpa using hrun)).trans ?_
      simp [diskRanges, covers_cons, not_covers_nil]
    | cons old rest =>
      obtain ⟨hold, hrest⟩ := forall_mem_cons.1 houtput
      by_cases hj : old.Joins run
      · obtain ⟨hplain, hplain', hl, hp⟩ := hj
        have hjoined : (old.extend run).Plain := by
          refine ⟨Nat.add_pos_left hold.pos _, fun _ ↦ ⟨(hold.stored hplain).1, ?_⟩⟩
          simp only [FileRun.extend, (hold.stored hplain).2, (hrun.stored hplain').2]
        rw [coalesceStep_of_joins hrun ⟨hplain, hplain', hl, hp⟩]
        refine (ih hruns (forall_mem_cons.2 ⟨hjoined, hrest⟩)).trans ?_
        -- the joined run covers what the two did
        have h₁ := hold.stored hplain
        have h₂ := hrun.stored hplain'
        have hcover : (old.diskStart ≤ u ∧ u < old.diskStart + (old.diskLength + run.diskLength)) ↔
            (old.diskStart ≤ u ∧ u < old.diskStart + old.diskLength) ∨
              (run.diskStart ≤ u ∧ u < run.diskStart + run.diskLength) := by omega
        simp only [diskRanges, map_cons, covers_cons, FileRun.extend, hcover]
        tauto
      · rw [coalesceStep_of_not_joins hrun hj]
        refine (ih hruns (forall_mem_cons.2 ⟨hrun, houtput⟩)).trans ?_
        simp only [diskRanges, map_cons, covers_cons]
        tauto

theorem covers_coalesceFileRuns (u : ℕ) :
    Covers (diskRanges (coalesceFileRuns runs)) u ↔ Covers (diskRanges runs) u := by
  have hsorted : ∀ r ∈ sortRuns runs, r.Plain := fun r hr ↦ hruns r ((mem_insertionSort _).1 hr)
  have hreverse : Covers (diskRanges (coalesceFileRuns runs)) u ↔
      Covers (diskRanges ((sortRuns runs).foldl coalesceStep [])) u :=
    covers_congr fun r ↦ by simp [diskRanges, coalesceFileRuns]
  have hsort : Covers (diskRanges (sortRuns runs)) u ↔ Covers (diskRanges runs) u :=
    covers_congr fun r ↦ by simp [diskRanges, sortRuns]
  rw [hreverse, covers_foldl_coalesceStep hsorted (fun _ h ↦ absurd h not_mem_nil), hsort]
  exact or_iff_right (not_covers_nil u)

end

end Coalesce

/-! ### Runs that continue each other -/

section Chains

variable {runs : List FileRun}

/-- Runs that continue each other follow each other in the file. -/
theorem pairwise_of_isChain (h : runs.IsChain FileRun.Joins) :
    runs.Pairwise fun a b ↦ a.logical + a.length ≤ b.logical := by
  have htrans : IsTrans FileRun fun a b ↦ a.logical + a.length ≤ b.logical :=
    ⟨fun a b c hab hbc ↦ by omega⟩
  exact isChain_iff_pairwise.1 (h.imp fun a b hab ↦ hab.2.2.1.le)

/-- Runs with increasing offsets are what sorting makes of any arrangement of them. -/
theorem sortRuns_eq_of_perm {sorted : List FileRun} (hperm : runs ~ sorted)
    (hlt : sorted.Pairwise fun a b ↦ a.logical < b.logical) : sortRuns runs = sorted := by
  have htotal : Std.Total fun a b : FileRun ↦ a.logical ≤ b.logical :=
    ⟨fun a b ↦ le_total a.logical b.logical⟩
  have htrans : IsTrans FileRun fun a b ↦ a.logical ≤ b.logical :=
    ⟨fun a b c hab hbc ↦ hab.trans hbc⟩
  have hsort : sortRuns runs ~ sorted := (perm_insertionSort _ runs).trans hperm
  have hnodup : (sorted.map FileRun.logical).Nodup := pairwise_map.2 (hlt.imp fun h ↦ h.ne)
  refine hsort.eq_of_pairwise (fun a b ha hb hab hba ↦ ?_)
    (pairwise_insertionSort _ runs) (hlt.imp fun h ↦ h.le)
  exact inj_on_of_nodup_map hnodup (hsort.mem_iff.1 ha) hb (le_antisymm hab hba)

/-- An offset between the start of the first run and the end of a later one lies in a run. -/
theorem exists_run_of_isChain {first : FileRun} (h : (first :: runs).IsChain FileRun.Joins) {o : ℕ}
    (hlow : first.logical ≤ o) {r : FileRun} (hr : r ∈ first :: runs)
    (hhigh : o < r.logical + r.length) :
    ∃ s ∈ first :: runs, s.logical ≤ o ∧ o < s.logical + s.length := by
  induction runs generalizing first with
  | nil =>
    obtain rfl := mem_singleton.1 hr
    exact ⟨r, hr, hlow, hhigh⟩
  | cons next runs ih =>
    obtain ⟨hj, hchain⟩ := isChain_cons_cons.1 h
    rcases lt_or_ge o (first.logical + first.length) with ho | ho
    · exact ⟨first, mem_cons_self, hlow, ho⟩
    · have hnext : next.logical ≤ o := hj.2.2.1 ▸ ho
      rcases mem_cons.1 hr with rfl | hr
      · omega
      · obtain ⟨s, hs, hmem⟩ := ih hchain hnext hr
        exact ⟨s, mem_cons_of_mem _ hs, hmem⟩

end Chains

/-! ### Finer cuts -/

/-- The runs are a finer cut of the run. An encoded run is not cut; its length in the file may be
given differently. -/
structure Splits (r : FileRun) (pieces : List FileRun) : Prop where
  plain : r.Plain
  pieces_plain : ∀ p ∈ pieces, p.Plain
  encoded : ∀ p ∈ pieces, p.encoded = r.encoded
  chain : pieces.IsChain FileRun.Joins
  first : ∃ p rest, pieces = p :: rest ∧ p.logical = r.logical ∧ p.physical = r.physical
  last : ∀ p ∈ pieces.getLast?, r.encoded = false →
    p.logical + p.length = r.logical + r.length ∧ p.physical + p.length = r.physical + r.length
  covers : ∀ u, Covers (diskRanges pieces) u ↔ Covers (diskRanges [r]) u

section Splits

variable {cuts : List (FileRun × List FileRun)}

/-- The order of the runs before they are cut. -/
def sortCuts (cuts : List (FileRun × List FileRun)) : List (FileRun × List FileRun) :=
  cuts.insertionSort fun a b ↦ a.1.logical ≤ b.1.logical

theorem sortRuns_map_fst (cuts : List (FileRun × List FileRun)) :
    sortRuns (cuts.map Prod.fst) = (sortCuts cuts).map Prod.fst :=
  (map_insertionSort _ _ Prod.fst cuts fun _ _ _ _ ↦ .rfl).symm

/-- Whole runs continue each other just if their pieces do. -/
theorem isChain_pieces_iff (h : ∀ c ∈ cuts, Splits c.1 c.2) :
    (cuts.flatMap Prod.snd).IsChain FileRun.Joins ↔ (cuts.map Prod.fst).IsChain FileRun.Joins := by
  have hne : [] ∉ cuts.map Prod.snd := by
    intro hmem
    obtain ⟨c, hc, hnil⟩ := mem_map.1 hmem
    obtain ⟨p, rest, heq, -⟩ := (h c hc).first
    rw [hnil] at heq
    cases heq
  rw [flatMap_def, isChain_flatten hne, isChain_map, isChain_map, and_iff_right]
  · refine List.IsChain.iff_of_mem_imp fun a b ha hb ↦ ?_
    obtain ⟨q, rest, hq, hlogical, hphysical⟩ := (h b hb).first
    obtain ⟨p, rest', hp, -⟩ := (h a ha).first
    obtain ⟨l, hl⟩ : ∃ l, a.2.getLast? = some l :=
      ⟨_, by rw [hp]; exact getLast?_eq_some_getLast (by simp)⟩
    have hlmem := mem_of_getLast? hl
    have hla := (h a ha).encoded l hlmem
    have hqb := (h b hb).encoded q (hq ▸ mem_cons_self)
    have hlast := (h a ha).last l hl
    rw [hl, hq, head?_cons]
    simp only [Option.mem_def, Option.some.injEq, forall_eq', FileRun.Joins, hla, hqb, hlogical,
      hphysical]
    refine and_congr_right fun hplain ↦ ?_
    rw [(hlast hplain).1, (hlast hplain).2]
  · intro pieces hpieces
    obtain ⟨c, hc, rfl⟩ := mem_map.1 hpieces
    exact (h c hc).chain

/-- Two runs have no offset of the file in common. -/
def FileRun.Disjoint (a b : FileRun) : Prop :=
  a.logical + a.length ≤ b.logical ∨ b.logical + b.length ≤ a.logical

section

variable (h : ∀ c ∈ cuts, Splits c.1 c.2)
include h

/-- If no two pieces overlap, they are in order when the runs they are cut from are. -/
theorem pairwise_pieces (hsorted : cuts.Pairwise fun a b ↦ a.1.logical ≤ b.1.logical)
    (hdisjoint : (cuts.flatMap Prod.snd).Pairwise FileRun.Disjoint) :
    (cuts.flatMap Prod.snd).Pairwise fun a b ↦ a.logical < b.logical := by
  rw [pairwise_flatMap] at hdisjoint ⊢
  refine ⟨fun c hc ↦ ?_, ?_⟩
  · refine (pairwise_of_isChain (h c hc).chain).imp_of_mem fun {a b} ha _ hab ↦ ?_
    have := ((h c hc).pieces_plain a ha).pos
    omega
  · refine (hsorted.and hdisjoint.2).imp_of_mem fun {c d} hc hd hcd p hp q hq ↦ ?_
    obtain ⟨p₀, rest, hpieces, hstart, -⟩ := (h c hc).first
    obtain ⟨q₀, rest', hpieces', hstart', -⟩ := (h d hd).first
    have hq₀ : q₀ ∈ d.2 := hpieces' ▸ mem_cons_self
    have hppos := ((h c hc).pieces_plain p hp).pos
    have hqpos := ((h d hd).pieces_plain q₀ hq₀).pos
    -- the first piece of the later run starts behind the earlier run, or it would meet a piece of
    -- it
    have hbehind : p.logical + p.length ≤ q₀.logical := by
      refine not_lt.1 fun hlt ↦ ?_
      have hlow : p₀.logical ≤ q₀.logical := hstart ▸ hstart' ▸ hcd.1
      obtain ⟨s, hs, hs₁, hs₂⟩ :=
        exists_run_of_isChain (hpieces ▸ (h c hc).chain) hlow (hpieces ▸ hp) hlt
      rcases hcd.2 s (hpieces ▸ hs) q₀ hq₀ with hap | hap <;> omega
    have hfirst : q₀.logical ≤ q.logical := by
      rw [hpieces'] at hq
      rcases mem_cons.1 hq with rfl | hq
      · exact le_rfl
      · have hchain := pairwise_of_isChain (hpieces' ▸ (h d hd).chain)
        have := rel_of_pairwise_cons hchain hq
        omega
    omega

/-- **A finer cut** leaves the pieces in one run just if the whole runs are left in one. -/
theorem isChain_sortRuns_pieces_iff : (sortRuns (cuts.flatMap Prod.snd)).IsChain FileRun.Joins ↔
      (sortRuns (cuts.map Prod.fst)).IsChain FileRun.Joins := by
  have hcuts : sortCuts cuts ~ cuts := perm_insertionSort _ cuts
  have h' : ∀ c ∈ sortCuts cuts, Splits c.1 c.2 := fun c hc ↦ h c (hcuts.mem_iff.1 hc)
  have hperm : cuts.flatMap Prod.snd ~ (sortCuts cuts).flatMap Prod.snd :=
    (hcuts.flatMap_right _).symm
  rw [sortRuns_map_fst, ← isChain_pieces_iff h']
  suffices hlt : (sortRuns (cuts.flatMap Prod.snd)).IsChain FileRun.Joins ∨
      ((sortCuts cuts).flatMap Prod.snd).IsChain FileRun.Joins →
      ((sortCuts cuts).flatMap Prod.snd).Pairwise fun a b ↦ a.logical < b.logical by
    constructor
    · intro hchain
      rwa [sortRuns_eq_of_perm hperm (hlt (.inl hchain))] at hchain
    · intro hchain
      rwa [sortRuns_eq_of_perm hperm (hlt (.inr hchain))]
  intro hchain
  have htotal : Std.Total fun a b : FileRun × List FileRun ↦ a.1.logical ≤ b.1.logical :=
    ⟨fun a b ↦ le_total _ _⟩
  have htrans : IsTrans (FileRun × List FileRun) fun a b ↦ a.1.logical ≤ b.1.logical :=
    ⟨fun a b c hab hbc ↦ hab.trans hbc⟩
  refine pairwise_pieces h' (pairwise_insertionSort _ cuts) ?_
  have hsymm : ∀ {a b : FileRun}, a.Disjoint b → b.Disjoint a := fun hab ↦ hab.symm
  rcases hchain with hchain | hchain
  · have hsort : sortRuns (cuts.flatMap Prod.snd) ~ (sortCuts cuts).flatMap Prod.snd :=
      (perm_insertionSort _ _).trans hperm
    exact (hsort.pairwise_iff hsymm).1 ((pairwise_of_isChain hchain).imp .inl)
  · exact (pairwise_of_isChain hchain).imp .inl

/-- **A finer cut changes nothing.** The file is fragmented or not as before, and its runs cover the
same bytes of the device. -/
theorem coalesce_splits : ((coalesceFileRuns (cuts.map Prod.fst)).length ≤ 1 ↔
      (coalesceFileRuns (cuts.flatMap Prod.snd)).length ≤ 1) ∧
    ∀ u, Covers (diskRanges (coalesceFileRuns (cuts.map Prod.fst))) u ↔
      Covers (diskRanges (coalesceFileRuns (cuts.flatMap Prod.snd))) u := by
  have hwhole : ∀ r ∈ cuts.map Prod.fst, r.Plain := by
    intro r hr
    obtain ⟨c, hc, rfl⟩ := mem_map.1 hr
    exact (h c hc).plain
  have hpieces : ∀ r ∈ cuts.flatMap Prod.snd, r.Plain := by
    intro r hr
    obtain ⟨c, hc, hr⟩ := mem_flatMap.1 hr
    exact (h c hc).pieces_plain r hr
  refine ⟨?_, fun u ↦ ?_⟩
  · rw [length_coalesceFileRuns_le hwhole, length_coalesceFileRuns_le hpieces,
      isChain_sortRuns_pieces_iff h]
  · rw [covers_coalesceFileRuns hwhole, covers_coalesceFileRuns hpieces]
    have hflat : diskRanges (cuts.flatMap Prod.snd) = cuts.flatMap fun c ↦ diskRanges c.2 :=
      map_flatMap
    have hmap : diskRanges (cuts.map Prod.fst) = cuts.flatMap fun c ↦ diskRanges [c.1] := by
      rw [diskRanges, map_map, map_eq_flatMap]
      rfl
    rw [hflat, hmap, covers_flatMap, covers_flatMap]
    exact exists_congr fun c ↦ and_congr_right fun hc ↦ ((h c hc).covers u).symm

end

end Splits

end LinuxDefragger.Btrfs
