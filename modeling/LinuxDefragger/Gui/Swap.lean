import LinuxDefragger.Gui.RangeSweep
import Mathlib.Data.Finset.Sort
import Mathlib.Order.Interval.Finset.Nat

/-!
# Inactive swap areas

The header of a swap area lists bad pages. The map draws each of them once, and only those behind
the header page and inside the device; the free bytes are counted in the same way. The number of
free pages in the details is counted from the length of the list.
-/

open Except List Storage

namespace LinuxDefragger.Gui

/-! ### The backend -/

/-- What `map` uses of a header that `_header` has read. -/
structure SwapHeader where
  pageSize : ℕ
  lastPage : ℕ
  badPages : List ℕ
  pageSize_mem : pageSize ∈ [4096, 8192, 16384, 32768, 65536]

/-- `sorted({p for p in bad_pages if 1 <= p < total_units})`, as a set. -/
def reservedPages (totalUnits : ℕ) (badPages : List ℕ) : Finset ℕ :=
  (badPages.filter fun p ↦ 1 ≤ p ∧ p < totalUnits).toFinset

/-- The loop of `_state_ranges`, and what comes after it. -/
def pageRanges (totalUnits : ℕ) (slotState : ℤ) (cursor : ℕ) : List ℕ → List StateRange
  | [] => if cursor < totalUnits then [⟨cursor, totalUnits, slotState⟩] else []
  | page :: pages =>
    (if page > cursor then [⟨cursor, page, slotState⟩] else []) ++
      ⟨page, (page + 1 : ℕ), 3⟩ :: pageRanges totalUnits slotState (page + 1) pages

/-- `_state_ranges` -/
def stateRanges (totalUnits : ℕ) (badPages : List ℕ) (active : Bool) : List StateRange :=
  if totalUnits = 0 then [⟨0, 1, 2⟩]
  else ⟨0, 1, 2⟩ :: pageRanges totalUnits (if active then 2 else 0) 1
    ((reservedPages totalUnits badPages).sort)

/-- The details that `map` adds. -/
structure SwapDetails where
  active : Bool
  usedPages : ℕ
  freePages : ℕ

/-- The size of the device, or the one in the header. -/
def physicalBytes (size : ℕ) (header : SwapHeader) : ℕ :=
  if size ≠ 0 then size
  else if header.lastPage ≠ 0 then (header.lastPage + 1) * header.pageSize else header.pageSize

/-- `map`; `runtime` is what `_runtime_usage` finds. -/
def swapMap (size : ℕ) (header : SwapHeader) (runtime : Option (ℕ × ℕ)) (cells : ℤ) :
    Except MapError (MapResult × SwapDetails) := do
  let pageSize := header.pageSize
  let bytes := physicalBytes size header
  let totalUnits := max 1 ((bytes + pageSize - 1) / pageSize)
  let result ← aggregateRanges totalUnits cells pageSize "swap"
    (stateRanges totalUnits header.badPages runtime.isSome) "summary"
  match runtime with
  | some (total, used) =>
    return ({ result with
      totalBytes := total, usedBytes := used, freeBytes := total - used, unknownBytes := total },
      ⟨true, (used + pageSize - 1) / pageSize, (total - used) / pageSize⟩)
  | none =>
    let badBytes := (reservedPages totalUnits header.badPages).card * pageSize
    return ({ result with
      usedBytes := 0
      freeBytes := bytes - pageSize - badBytes
      unknownBytes := min (pageSize + badBytes) bytes },
      ⟨false, 0, totalUnits - 1 - header.badPages.length⟩)

/-! ### The ranges -/

/-- The ranges follow on each other from `cursor` on, up to the end of the volume, and have the
states that `f` gives to their units. -/
structure Charts (totalUnits : ℕ) (f : ℕ → UnitState) (cursor : ℕ) (ranges : List StateRange) :
    Prop where
  ordered : ranges.Pairwise fun r r' ↦ r.stop ≤ r'.start
  start_le : ∀ r ∈ ranges, cursor ≤ r.start
  state_eq : ∀ r ∈ ranges, ∀ u : ℕ, r.Has u → UnitState.ofInt? r.state = some (f u)
  exists_has : ∀ u, cursor ≤ u → u < totalUnits → ∃ r ∈ ranges, r.Has u

section Charts

variable {totalUnits cursor : ℕ} {f : ℕ → UnitState} {ranges : List StateRange}

theorem Charts.nil (hend : totalUnits ≤ cursor) : Charts totalUnits f cursor [] :=
  ⟨.nil, forall_mem_nil _, forall_mem_nil _, fun u hle hlt ↦ by omega⟩

theorem Charts.cons {next : ℕ} {state : ℤ} (h : Charts totalUnits f next ranges)
    (hle : cursor ≤ next)
    (hstate : ∀ u, cursor ≤ u → u < next → UnitState.ofInt? state = some (f u)) :
    Charts totalUnits f cursor (⟨cursor, next, state⟩ :: ranges) where
  ordered := .cons h.start_le h.ordered
  start_le := forall_mem_cons.2 ⟨le_rfl, fun r hr ↦ (Int.ofNat_le.2 hle).trans (h.start_le r hr)⟩
  state_eq := forall_mem_cons.2
    ⟨fun u hu ↦ hstate u (Int.ofNat_le.1 hu.1) (Int.ofNat_lt.1 hu.2), h.state_eq⟩
  exists_has u hu hlt := by
    rcases Nat.lt_or_ge u next with hbefore | hbehind
    · exact ⟨_, mem_cons_self, Int.ofNat_le.2 hu, Int.ofNat_lt.2 hbefore⟩
    · obtain ⟨r, hr, h⟩ := h.exists_has u hbehind hlt
      exact ⟨r, mem_cons_of_mem _ hr, h⟩

/-- **Ranges in order are drawn as they are.** -/
theorem Charts.aggregateRanges_eq_mapOf (h : Charts totalUnits f 0 ranges) (htotal : 0 < totalUnits)
    (cells : ℤ) (unitSize : ℕ) (filesystem accuracy : String) :
    aggregateRanges totalUnits cells unitSize filesystem ranges accuracy =
      .ok (mapOf f totalUnits cells unitSize filesystem accuracy) := by
  have hdisjoint : NonOverlapping totalUnits ranges := by
    refine h.ordered.imp fun hle ↦ ?_
    rintro ⟨u, -, hu, hu'⟩
    exact absurd (hu.2.trans_le (hle.trans hu'.1)) (lt_irrefl _)
  have hvalid : ∀ r ∈ ranges, ValidState totalUnits r := fun r hr u _ hu ↦ by
    rw [h.state_eq r hr u hu]
    rfl
  obtain ⟨spans, hspans⟩ := normaliseStateRanges_eq_ok_iff.2 ⟨hdisjoint, hvalid⟩
  rw [aggregateRanges_eq htotal hspans]
  refine congrArg Except.ok (mapOf_congr htotal (fun u hu ↦ ?_) ..)
  obtain ⟨r, hr, hru⟩ := h.exists_has u u.zero_le hu
  have hstate := (spanState_of_normalise hspans hu).1 r hr hru
  rw [h.state_eq r hr u hru] at hstate
  exact Option.some.inj hstate

/-- The state of a unit of an inactive area. -/
def swapState (reserved : Finset ℕ) (u : ℕ) : UnitState :=
  if u = 0 then .unknown else if u ∈ reserved then .bad else .free

theorem charts_pageRanges {pages : List ℕ} (hsorted : pages.Pairwise (· < ·))
    (hlow : ∀ p ∈ pages, cursor ≤ p)
    (hf : ∀ u, cursor ≤ u → f u = if u ∈ pages then .bad else .free) :
    Charts totalUnits f cursor (pageRanges totalUnits 0 cursor pages) := by
  induction pages generalizing cursor with
  | nil =>
    rw [pageRanges]
    split_ifs with hlt
    · exact (Charts.nil le_rfl).cons hlt.le fun u hu _ ↦ by rw [hf u hu]; rfl
    · exact .nil (by omega)
  | cons page pages ih =>
    obtain ⟨hpage, hsorted⟩ := pairwise_cons.1 hsorted
    have hle := hlow page mem_cons_self
    have hrest := ih hsorted hpage fun u hu ↦ by
      simp only [hf u (by omega), mem_cons, show u ≠ page by omega, false_or]
    have hbad : Charts totalUnits f page (⟨page, (page + 1 : ℕ), 3⟩ ::
        pageRanges totalUnits 0 (page + 1) pages) := hrest.cons (by omega) fun u hu hlt ↦ by
      obtain rfl : u = page := by omega
      rw [hf u hle, if_pos mem_cons_self]
      rfl
    rw [pageRanges]
    split_ifs with hgt
    · refine hbad.cons hle fun u hu hlt ↦ ?_
      rw [hf u hu, if_neg]
      · rfl
      · intro hmem
        rcases mem_cons.1 hmem with rfl | hmem
        · omega
        · have := hpage u hmem
          omega
    · obtain rfl : page = cursor := by omega
      exact hbad

theorem charts_stateRanges (htotal : 0 < totalUnits) (badPages : List ℕ) :
    Charts totalUnits (swapState (reservedPages totalUnits badPages)) 0
      (stateRanges totalUnits badPages false) := by
  have hpages : Charts totalUnits (swapState (reservedPages totalUnits badPages)) 1
      (pageRanges totalUnits 0 1 (reservedPages totalUnits badPages).sort) := by
    refine charts_pageRanges (Finset.sortedLT_sort _).pairwise (fun p hp ↦ ?_) fun u hu ↦ ?_
    · rw [Finset.mem_sort, reservedPages, mem_toFinset, mem_filter] at hp
      exact (of_decide_eq_true hp.2).1
    · simp only [swapState, show u ≠ 0 by omega, if_false, Finset.mem_sort]
  rw [stateRanges, if_neg htotal.ne']
  refine hpages.cons zero_le_one fun u _ hu ↦ ?_
  obtain rfl : u = 0 := by omega
  rfl

end Charts

/-! ### The numbers -/

theorem sum_tally_tiles {a z : ℕ} {l : List (ℕ × ℕ)} (h : Tiles a l z) (f : ℕ → UnitState)
    (k : UnitState) : (l.map fun p ↦ tally f p.1 p.2 k).sum = tally f a z k := by
  induction h with
  | nil => exact (tally_of_le le_rfl).symm
  | cons h hl ih => rw [map_cons, sum_cons, ih, ← tally_append h.le hl.le]

section

variable (totalUnits : ℕ) (badPages : List ℕ)

theorem reservedPages_subset : reservedPages totalUnits badPages ⊆ Finset.Ico 1 totalUnits := by
  intro p hp
  rw [reservedPages, mem_toFinset, mem_filter, decide_eq_true_iff] at hp
  exact Finset.mem_Ico.2 hp.2

theorem card_reservedPages_le : (reservedPages totalUnits badPages).card ≤ badPages.length :=
  (toFinset_card_le _).trans (length_filter_le _ _)

variable {totalUnits badPages}

theorem tally_swapState (htotal : 0 < totalUnits) :
    tally (swapState (reservedPages totalUnits badPages)) 0 totalUnits .free =
      totalUnits - 1 - (reservedPages totalUnits badPages).card := by
  set s := reservedPages totalUnits badPages
  have hbad : tally (fun u ↦ decide (u ∈ s)) 1 totalUnits true = s.card := by
    have hfilter : ((range' 1 (totalUnits - 1)).filter fun u ↦ u ∈ s).toFinset = s := by
      ext u
      rw [mem_toFinset, mem_filter, decide_eq_true_iff, mem_range'_1, and_iff_right_of_imp]
      intro hu
      have := Finset.mem_Ico.1 (reservedPages_subset _ _ hu)
      omega
    rw [tally, countP_eq_length_filter, ← toFinset_card_of_nodup ((nodup_range').filter _)]
    simpa using congrArg Finset.card hfilter
  have hfree : tally (swapState s) 1 totalUnits .free =
      tally (fun u ↦ decide (u ∈ s)) 1 totalUnits false := by
    refine countP_congr fun u hu ↦ ?_
    have hpos : u ≠ 0 := by
      have := (mem_range'_1.1 hu).1
      omega
    by_cases hmem : u ∈ s <;> simp [swapState, hpos, hmem]
  have hheader : tally (swapState s) 0 1 .free = 0 := rfl
  rw [tally_append zero_le_one htotal, hheader, hfree, tally_false, hbad, Nat.zero_add]

theorem card_reservedPages_eq_length_iff :
    (reservedPages totalUnits badPages).card = badPages.length ↔
      badPages.Nodup ∧ ∀ p ∈ badPages, 1 ≤ p ∧ p < totalUnits := by
  constructor
  · intro h
    rw [reservedPages, card_toFinset] at h
    have hall := ((dedup_sublist _).trans filter_sublist).eq_of_length h
    refine ⟨hall ▸ nodup_dedup _, fun p hp ↦ ?_⟩
    rw [← hall, mem_dedup, mem_filter] at hp
    exact of_decide_eq_true hp.2
  · rintro ⟨hnodup, hvalid⟩
    rw [reservedPages, filter_eq_self.2 fun p hp ↦ decide_eq_true (hvalid p hp),
      toFinset_card_of_nodup hnodup]

theorem card_reservedPages_eq_iff : (reservedPages totalUnits badPages).card = totalUnits - 1 ↔
    ∀ p, 1 ≤ p → p < totalUnits → p ∈ badPages := by
  constructor
  · intro h p hle hlt
    have hall := Finset.eq_of_subset_of_card_le (reservedPages_subset _ badPages)
      (by rw [Nat.card_Ico, h])
    have hp := hall ▸ Finset.mem_Ico.2 ⟨hle, hlt⟩
    rw [reservedPages, mem_toFinset, mem_filter] at hp
    exact hp.1
  · intro h
    have hall : Finset.Ico 1 totalUnits ⊆ reservedPages totalUnits badPages := by
      intro p hp
      obtain ⟨hle, hlt⟩ := Finset.mem_Ico.1 hp
      rw [reservedPages, mem_toFinset, mem_filter, decide_eq_true_iff]
      exact ⟨h p hle hlt, hle, hlt⟩
    rw [(reservedPages_subset _ _).antisymm hall, Nat.card_Ico]

end

theorem SwapHeader.pageSize_pos (header : SwapHeader) : 0 < header.pageSize :=
  (by decide : ∀ n ∈ [4096, 8192, 16384, 32768, 65536], 0 < n) _ header.pageSize_mem

/-- The three totals of an inactive area. -/
theorem swapMap_inactive {size : ℕ} {header : SwapHeader} (hwhole : header.pageSize ∣ size)
    (cells : ℤ) :
    ∃ m details, swapMap size header none cells = .ok (m, details) ∧
      physicalBytes size header = m.totalUnits * header.pageSize ∧
      details.freePages = m.totalUnits - 1 - header.badPages.length ∧
      (m.cells.map Cell.free).sum =
        m.totalUnits - 1 - (reservedPages m.totalUnits header.badPages).card ∧
      m.freeBytes / header.pageSize =
        m.totalUnits - 1 - (reservedPages m.totalUnits header.badPages).card := by
  have hpos := header.pageSize_pos
  -- the device is a whole number of pages
  obtain ⟨total, htotal, hbytes⟩ : ∃ total, 0 < total ∧
      physicalBytes size header = total * header.pageSize := by
    obtain ⟨pages, hpages⟩ := hwhole
    unfold physicalBytes
    split_ifs with hsize hlast
    · refine ⟨pages, Nat.pos_of_ne_zero ?_, hpages.trans (Nat.mul_comm _ _)⟩
      rintro rfl
      exact hsize hpages
    · exact ⟨header.lastPage + 1, Nat.succ_pos _, rfl⟩
    · exact ⟨1, one_pos, (Nat.one_mul _).symm⟩
  have hunits : max 1 ((total * header.pageSize + header.pageSize - 1) / header.pageSize) =
      total := by
    rw [Nat.add_sub_assoc hpos, Nat.mul_comm, Nat.mul_add_div hpos, Nat.div_eq_of_lt (by omega)]
    omega
  refine ⟨_, _, by
    rw [swapMap]
    dsimp only
    rw [hbytes, hunits, show (none : Option (ℕ × ℕ)).isSome = false from rfl,
      (charts_stateRanges htotal _).aggregateRanges_eq_mapOf htotal, ok_bind]
    rfl, hbytes, rfl, ?_, ?_⟩
  · show (((mapOf (swapState (reservedPages total header.badPages)) total cells
      header.pageSize "swap"
      "summary").cells).map Cell.free).sum = total - 1 - (reservedPages total header.badPages).card
    rw [← tally_swapState htotal, ← sum_tally_tiles (tiles_bounds htotal cells)]
    exact congrArg List.sum (map_map ..)
  · show (total * header.pageSize - header.pageSize - _ * header.pageSize) / header.pageSize = _
    rw [← Nat.sub_one_mul, ← Nat.sub_mul, Nat.mul_div_cancel _ hpos]
    rfl

/-- **When the summary of an inactive area agrees with its map**: the header lists no page twice and
none outside the slots, or it lists all pages. -/
theorem free_pages_iff (size : ℕ) (header : SwapHeader) (cells : ℤ)
    (hwhole : header.pageSize ∣ size) :
    ∃ m details, swapMap size header none cells = .ok (m, details) ∧
      ((details.freePages = (m.cells.map Cell.free).sum ∧
        details.freePages = m.freeBytes / header.pageSize) ↔
        (header.badPages.Nodup ∧ ∀ p ∈ header.badPages,
            1 ≤ p ∧ p < physicalBytes size header / header.pageSize) ∨
          ∀ p, 1 ≤ p → p < physicalBytes size header / header.pageSize → p ∈ header.badPages) := by
  obtain ⟨m, details, hmap, hunits, hpages, hsum, hbytes⟩ := swapMap_inactive hwhole cells
  refine ⟨m, details, hmap, ?_⟩
  rw [hunits, Nat.mul_div_cancel _ header.pageSize_pos]
  rw [hpages, hsum, hbytes, and_self, ← card_reservedPages_eq_length_iff,
    ← card_reservedPages_eq_iff]
  have hle := card_reservedPages_le m.totalUnits header.badPages
  have hmost := Finset.card_le_card (reservedPages_subset m.totalUnits header.badPages)
  rw [Nat.card_Ico] at hmost
  omega

/-- A bad page behind the header page. -/
theorem free_pages_one_bad : ∃ m details, swapMap 16384 ⟨4096, 3, [2], by decide⟩ none 2 =
    .ok (m, details) ∧ details.freePages = (m.cells.map Cell.free).sum ∧
      details.freePages = m.freeBytes / 4096 := by
  obtain ⟨m, details, hmap, hiff⟩ := free_pages_iff 16384 ⟨4096, 3, [2], by decide⟩ 2 (by decide)
  exact ⟨m, details, hmap, hiff.2 (.inl ⟨nodup_singleton _, forall_mem_singleton.2 (by decide)⟩)⟩

/-- Page 0 is listed, which is no slot: two free pages in the details, and three on the map. -/
theorem free_pages_header_listed : ∃ m details, swapMap 16384 ⟨4096, 3, [0], by decide⟩ none 2 =
    .ok (m, details) ∧ details.freePages = 2 ∧ (m.cells.map Cell.free).sum = 3 ∧
      m.freeBytes / 4096 = 3 := by
  obtain ⟨m, details, hmap, hbytes, hpages, hsum, hfree⟩ :=
    @swapMap_inactive 16384 ⟨4096, 3, [0], by decide⟩ (by decide) 2
  have hbytes : 16384 = m.totalUnits * 4096 := hbytes
  obtain hfour : m.totalUnits = 4 := by omega
  rw [hfour] at hpages hsum hfree
  exact ⟨m, details, hmap, hpages, hsum, hfree⟩

end LinuxDefragger.Gui
