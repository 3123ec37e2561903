import LinuxDefragger.Ntfs.Runs
import Mathlib.Data.List.Sort

/-!
# The run lists of the read-only analyser

The map of an NTFS volume is drawn by a second reader of mapping pairs, written apart from the
engine's. It counts the fragments of a stream on the fly where the engine merges its runs first.

The two counts are the same (`streamFragments_eq`). The two readers are not: the engine accepts what
the analyser accepts and what also is `SignedPairs` (`decodeRunlist_eq_ok_iff`), so they disagree on
the mapping pairs that only the analyser takes.
-/

open Except List Storage

namespace LinuxDefragger.Ntfs

/-! ### The analyser's reader -/

/-- The loop of `_runlist` from a previous location on. Every round reads a header byte, so as many
rounds as there are bytes are enough. -/
def analyserRunsFrom : ℕ → ℤ → List UInt8 → Except PyError (List Run)
  | 0, _, _ => pure []
  -- the generator ends with its data
  | _ + 1, _, [] => pure []
  | fuel + 1, lcn, header :: data =>
    if header = 0 then pure []
    else do
      let lsz := header.toNat &&& 0x0F
      let osz := header.toNat >>> 4
      raiseIf (lsz = 0 ∨ lsz + osz > data.length) "invalid NTFS runlist" []
      let length := leNat (data.take lsz)
      let data := data.drop lsz
      raiseIf (length ≤ 0) "invalid zero-length NTFS run" []
      if osz = 0 then do
        let rest ← analyserRunsFrom fuel lcn (data.drop osz)
        return ⟨none, length⟩ :: rest
      else do
        let lcn := lcn + leInt (data.take osz)
        raiseIf (lcn < 0) "invalid negative NTFS logical cluster number" []
        let rest ← analyserRunsFrom fuel lcn (data.drop osz)
        return ⟨some lcn.toNat, length⟩ :: rest

/-- `list(_runlist(data))` -/
def analyserRunlist (data : List UInt8) : Except PyError (List Run) :=
  analyserRunsFrom (data.length + 1) 0 data

/-- The variables of `_stream_fragments` that live through its inner loop. -/
structure FragmentState where
  fragments : ℕ
  previousLcnEnd : Option ℕ
  broken : Bool
  deriving DecidableEq, Repr

/-- One run in the inner loop of `_stream_fragments`. -/
def FragmentState.step (st : FragmentState) (run : Run) : FragmentState :=
  match run.lcn with
  | none => { st with previousLcnEnd := none, broken := true }
  | some lcn =>
    { fragments := if st.broken ∨ st.previousLcnEnd ≠ some lcn then st.fragments + 1
        else st.fragments
      previousLcnEnd := some (lcn + run.length)
      broken := false }

/-- One round of the outer loop of `_stream_fragments`, with `previous_vcn_end`. -/
def segmentStep (acc : FragmentState × Option ℕ) (segment : ℕ × List Run) :
    FragmentState × Option ℕ :=
  let st := if acc.2 ≠ some segment.1 then { acc.1 with broken := true } else acc.1
  (segment.2.foldl FragmentState.step st, some (segment.1 + runsLength segment.2))

/-- `_stream_fragments` -/
def streamFragments (segments : List (ℕ × List Run)) : ℕ :=
  ((segments.insertionSort fun a b ↦ a.1 ≤ b.1).foldl segmentStep
    (⟨0, none, true⟩, none)).1.fragments

/-! ### Counting fragments -/

/-- Where the last of the merged runs ends on the device. -/
def extentEnd : List Run → Option ℕ
  | ⟨some lcn, n⟩ :: _ => some (lcn + n)
  | _ => none

/-- The merged runs that are stored. -/
def storedRuns (merged : List Run) : ℕ := (merged.filter fun r ↦ r.lcn ≠ none).length

section

variable {merged : List Run} {n : ℕ}

theorem coalesceStep_sparse (hn : n ≠ 0) :
    storedRuns (coalesceStep merged ⟨none, n⟩) = storedRuns merged ∧
      extentEnd (coalesceStep merged ⟨none, n⟩) = none := by
  rcases merged with _ | ⟨⟨_ | lcn, n'⟩, rest⟩ <;>
    simp [coalesceStep, storedRuns, extentEnd, hn]

/-- A stored run joins the last extent or is a new one. -/
theorem coalesceStep_stored (lcn : ℕ) (hn : n ≠ 0) :
    storedRuns (coalesceStep merged ⟨some lcn, n⟩) =
        (if extentEnd merged ≠ some lcn then storedRuns merged + 1 else storedRuns merged) ∧
      extentEnd (coalesceStep merged ⟨some lcn, n⟩) = some (lcn + n) := by
  rcases merged with _ | ⟨⟨_ | lcn', n'⟩, rest⟩
  · simp [coalesceStep, storedRuns, extentEnd, hn]
  · simp [coalesceStep, storedRuns, extentEnd, hn]
  · by_cases hjoin : lcn' + n' = lcn
    · simp [coalesceStep, storedRuns, extentEnd, hn, hjoin, ← Nat.add_assoc]
    · simp [coalesceStep, storedRuns, extentEnd, hn, hjoin]

end

/-- What the analyser's loop knows of the runs that the engine has merged, the last one first. -/
structure Counts (st : FragmentState) (merged : List Run) : Prop where
  fragments : st.fragments = storedRuns merged
  extentEnd : (if st.broken then none else st.previousLcnEnd) = extentEnd merged

/-- **One run**: a fragment is counted just if the run is not merged into the last one. -/
theorem Counts.step {st : FragmentState} {merged : List Run} (h : Counts st merged) {run : Run}
    (hpos : 0 < run.length) : Counts (st.step run) (coalesceStep merged run) := by
  obtain ⟨lcn, n⟩ := run
  have hne : n ≠ 0 := hpos.ne'
  cases lcn with
  | none =>
    have ⟨hstored, hend⟩ := @coalesceStep_sparse merged n hne
    exact ⟨by rw [hstored, ← h.fragments]; rfl, by rw [hend]; rfl⟩
  | some lcn =>
    have ⟨hstored, hend⟩ := @coalesceStep_stored merged n lcn hne
    have hnew : (st.broken = true ∨ st.previousLcnEnd ≠ some lcn) ↔
        Ntfs.extentEnd merged ≠ some lcn := by
      rw [← h.extentEnd]
      cases st.broken <;> simp
    refine ⟨?_, by rw [hend]; rfl⟩
    rw [hstored, ← h.fragments]
    simp only [FragmentState.step, hnew]

variable {runs : List Run} {data : List UInt8} {lcn : ℤ} {fuel : ℕ}

theorem Counts.foldl {st : FragmentState} {merged : List Run} (h : Counts st merged)
    (hpos : ∀ run ∈ runs, 0 < run.length) :
    Counts (runs.foldl FragmentState.step st) (runs.foldl coalesceStep merged) := by
  induction runs generalizing st merged with
  | nil => exact h
  | cons run runs ih =>
    obtain ⟨hrun, hruns⟩ := forall_mem_cons.1 hpos
    exact ih (h.step hrun) hruns

/-- **The analyser and the engine count the same fragments.** -/
theorem streamFragments_eq (lowestVcn : ℕ) (hpos : ∀ run ∈ runs, 0 < run.length) :
    streamFragments [(lowestVcn, runs)] = physicalFragmentCount runs := by
  have hcounts : Counts ⟨0, none, true⟩ [] := ⟨rfl, rfl⟩
  rw [physicalFragmentCount, coalesceRuns, filter_reverse, length_reverse]
  exact (hcounts.foldl hpos).fragments

/-! ### Comparing the readers -/

/-- The loop of `SignedPairs`. -/
def signedPairsFrom : ℕ → List UInt8 → Bool
  | 0, _ => false
  | _ + 1, [] => false
  | fuel + 1, header :: data =>
    if header = 0 then true
    else
      let lsz := header.toNat &&& 0x0F
      let osz := header.toNat >>> 4
      lsz ≤ 8 && osz ≤ 8 && (data.take lsz).getLastD 0 &&& 0x80 = 0 &&
        signedPairsFrom fuel (data.drop (lsz + osz))

/-- Mapping pairs that end with a zero header and in which no field is longer than eight bytes and
no length has its top bit set. -/
def SignedPairs (data : List UInt8) : Prop := signedPairsFrom (data.length + 1) data = true

/-- Whether a pair before the first zero header has no length field, is cut off, has length zero or
leads below cluster 0. -/
def brokenPairsFrom : ℕ → ℤ → List UInt8 → Bool
  | 0, _, _ => false
  | _ + 1, _, [] => false
  | fuel + 1, lcn, header :: data =>
    if header = 0 then false
    else
      let lsz := header.toNat &&& 0x0F
      let osz := header.toNat >>> 4
      let next := lcn + leInt ((data.drop lsz).take osz)
      lsz = 0 || data.length < lsz + osz || leNat (data.take lsz) = 0 ||
        if osz = 0 then brokenPairsFrom fuel lcn (data.drop lsz)
        else next < 0 || brokenPairsFrom fuel next (data.drop (lsz + osz))

/-- Mapping pairs of which one is broken. -/
def BrokenPairs (data : List UInt8) : Prop := brokenPairsFrom (data.length + 1) 0 data = true

/-- A length field is a positive signed number just if it is a nonzero number with a clear top
bit. -/
theorem leInt_pos_iff {field : List UInt8} (h : field ≠ []) :
    0 < leInt field ↔ 0 < leNat field ∧ field.getLastD 0 &&& 0x80 = 0 := by
  rw [getLastD_and_eq_zero_iff h, leInt]
  have hlt : (leNat field : ℤ) < 256 ^ field.length := by exact_mod_cast leNat_lt field
  split_ifs with hsign
  · simp [hsign]
  · constructor
    · intro hpos
      omega
    · exact fun hpos ↦ absurd hpos.2 hsign

/-- The number a positive length field holds, signed or not. -/
theorem leInt_toNat_of_pos {field : List UInt8} (h : 0 < leInt field) :
    (leInt field).toNat = leNat field := by
  have hlt : (leNat field : ℤ) < 256 ^ field.length := by exact_mod_cast leNat_lt field
  rw [leInt] at h ⊢
  split_ifs at h ⊢ with hsign
  · exact Int.toNat_natCast _
  · omega

/-- The rest of a round: it reads the location and goes on with the next pair. -/
def pairTail (next : ℤ → List UInt8 → Except PyError (List Run)) (lcn : ℤ) (osz length : ℕ)
    (data : List UInt8) : Except PyError (List Run) :=
  if osz = 0 then do
    let rest ← next lcn (data.drop osz)
    return ⟨none, length⟩ :: rest
  else do
    let lcn := lcn + leInt (data.take osz)
    raiseIf (lcn < 0) "invalid negative NTFS logical cluster number" []
    let rest ← next lcn (data.drop osz)
    return ⟨some lcn.toNat, length⟩ :: rest

/-- Readers of the next pairs of which one accepts what the other accepts and `c` admits. -/
theorem pairTail_eq_ok_iff {next next' : ℤ → List UInt8 → Except PyError (List Run)}
    {osz length : ℕ} {c : Prop}
    (h : ∀ lcn runs, next lcn (data.drop osz) = .ok runs ↔ next' lcn (data.drop osz) =
      .ok runs ∧ c) :
    pairTail next lcn osz length data = .ok runs ↔ pairTail next' lcn osz length data =
      .ok runs ∧ c := by
  rw [pairTail, pairTail]
  split_ifs
  · simp only [bind_eq_ok, h]
    tauto
  · simp only [bind_eq_ok, h]
    tauto

theorem decodeRunsFrom_cons {header : UInt8} (hheader : header ≠ 0) {lsz osz : ℕ}
    (hl : header.toNat &&& 0x0F = lsz) (ho : header.toNat >>> 4 = osz) :
    decodeRunsFrom (fuel + 1) lcn (header :: data) = .ok runs ↔
      (lsz ≠ 0 ∧ lsz ≤ 8 ∧ osz ≤ 8 ∧ lsz + osz ≤ data.length) ∧ 0 < leInt (data.take lsz) ∧
      pairTail (decodeRunsFrom fuel) lcn osz (leInt (data.take lsz)).toNat (data.drop lsz) =
        .ok runs := by
  rw [decodeRunsFrom, if_neg hheader, raiseIf_bind_eq_ok, raiseIf_bind_eq_ok, hl, ho, not_le,
    pairTail]
  simp only [not_or, gt_iff_lt, not_lt, ne_eq]
  refine and_congr_right fun _ ↦ and_congr_right fun _ ↦ ?_
  split_ifs with hosz
  · rw [hosz, drop_zero]
  · rfl

theorem analyserRunsFrom_cons {header : UInt8} (hheader : header ≠ 0) {lsz osz : ℕ}
    (hl : header.toNat &&& 0x0F = lsz) (ho : header.toNat >>> 4 = osz) :
    analyserRunsFrom (fuel + 1) lcn (header :: data) = .ok runs ↔
      (lsz ≠ 0 ∧ lsz + osz ≤ data.length) ∧ 0 < leNat (data.take lsz) ∧
      pairTail (analyserRunsFrom fuel) lcn osz (leNat (data.take lsz)) (data.drop lsz) =
        .ok runs := by
  rw [analyserRunsFrom, if_neg hheader, raiseIf_bind_eq_ok, raiseIf_bind_eq_ok, hl, ho, not_le]
  simp only [not_or, gt_iff_lt, not_lt, ne_eq]
  rfl

/-- **What the engine accepts**, from any location on. -/
theorem decodeRunsFrom_eq_ok_iff : decodeRunsFrom fuel lcn data = .ok runs ↔
      analyserRunsFrom fuel lcn data = .ok runs ∧ signedPairsFrom fuel data = true := by
  induction fuel generalizing lcn data runs with
  | zero => exact iff_of_false (fun h ↦ by cases h) fun h ↦ by cases h.2
  | succ fuel ih =>
    rcases data with _ | ⟨header, data⟩
    · exact iff_of_false (fun h ↦ by cases h) fun h ↦ by cases h.2
    rcases eq_or_ne header 0 with rfl | hheader
    · exact (and_iff_left rfl).symm
    obtain ⟨lsz, hl⟩ : ∃ lsz, header.toNat &&& 0x0F = lsz := ⟨_, rfl⟩
    obtain ⟨osz, ho⟩ : ∃ osz, header.toNat >>> 4 = osz := ⟨_, rfl⟩
    rw [decodeRunsFrom_cons hheader hl ho, analyserRunsFrom_cons hheader hl ho, signedPairsFrom,
      if_neg hheader, hl, ho]
    simp only [Bool.and_eq_true, decide_eq_true_eq]
    have htail : ∀ length, pairTail (decodeRunsFrom fuel) lcn osz length (data.drop lsz) =
      .ok runs ↔
        pairTail (analyserRunsFrom fuel) lcn osz length (data.drop lsz) = .ok runs ∧
          signedPairsFrom fuel (data.drop (lsz + osz)) = true := by
      intro length
      refine pairTail_eq_ok_iff fun lcn runs ↦ ?_
      rw [drop_drop]
      exact ih
    -- a length field that is there and not empty is positive for the engine just if it is positive
    -- for the analyser and has a clear top bit
    have hfield : lsz ≠ 0 → lsz + osz ≤ data.length → data.take lsz ≠ [] := by
      intro hne hle hnil
      rw [take_eq_nil_iff] at hnil
      rcases hnil with hnil | rfl
      · exact hne hnil
      · rw [length_nil] at hle
        omega
    rw [htail]
    constructor
    · rintro ⟨⟨hne, h8, h8', hle⟩, hpos, hruns, hrest⟩
      rw [leInt_toNat_of_pos hpos] at hruns
      obtain ⟨hnat, htop⟩ := (leInt_pos_iff (hfield hne hle)).1 hpos
      exact ⟨⟨⟨hne, hle⟩, hnat, hruns⟩, ⟨⟨h8, h8'⟩, htop⟩, hrest⟩
    · rintro ⟨⟨⟨hne, hle⟩, hnat, hruns⟩, ⟨⟨h8, h8'⟩, htop⟩, hrest⟩
      have hpos := (leInt_pos_iff (hfield hne hle)).2 ⟨hnat, htop⟩
      rw [← leInt_toNat_of_pos hpos] at hruns
      exact ⟨⟨hne, h8, h8', hle⟩, hpos, hruns, hrest⟩

/-- A value that is only wrapped is there if the computation succeeds. -/
theorem exists_ok_bind_pure {α β : Type} {x : Except PyError α} {f : α → β} :
    (∃ b, (x >>= fun a ↦ pure (f a)) = .ok b) ↔ ∃ a, x = .ok a := by
  cases x with
  | error e => exact iff_of_false nofun nofun
  | ok a => exact iff_of_true ⟨f a, rfl⟩ ⟨a, rfl⟩

/-- **What the analyser rejects**, from any location on. -/
theorem analyserRunsFrom_isOk_iff : (∃ runs, analyserRunsFrom fuel lcn data = .ok runs) ↔
    brokenPairsFrom fuel lcn data = false := by
  induction fuel generalizing lcn data with
  | zero => exact iff_of_true ⟨[], rfl⟩ rfl
  | succ fuel ih =>
    rcases data with _ | ⟨header, data⟩
    · exact iff_of_true ⟨[], rfl⟩ rfl
    rcases eq_or_ne header 0 with rfl | hheader
    · exact iff_of_true ⟨[], rfl⟩ rfl
    obtain ⟨lsz, hl⟩ : ∃ lsz, header.toNat &&& 0x0F = lsz := ⟨_, rfl⟩
    obtain ⟨osz, ho⟩ : ∃ osz, header.toNat >>> 4 = osz := ⟨_, rfl⟩
    simp only [analyserRunsFrom_cons hheader hl ho, exists_and_left]
    rw [brokenPairsFrom, if_neg hheader, hl, ho]
    simp only [Bool.or_eq_false_iff, decide_eq_false_iff_not, not_lt, and_assoc,
      Nat.pos_iff_ne_zero]
    refine and_congr_right fun _ ↦ and_congr_right fun _ ↦ and_congr_right fun _ ↦ ?_
    simp only [pairTail]
    split_ifs with hosz
    · rw [← ih]
      simp only [hosz, drop_zero]
      exact exists_ok_bind_pure
    · rw [Bool.or_eq_false_iff, decide_eq_false_iff_not, ← ih, ← drop_drop]
      simp only [raiseIf_bind_eq_ok, exists_and_left]
      exact and_congr_right fun _ ↦ exists_ok_bind_pure

/-- Both readers accept positive lengths only. -/
theorem analyserRunsFrom_pos (h : analyserRunsFrom fuel lcn data = .ok runs) :
    ∀ run ∈ runs, 0 < run.length := by
  induction fuel generalizing lcn data runs with
  | zero =>
    obtain rfl := ok.inj h
    exact fun _ hrun ↦ by cases hrun
  | succ fuel ih =>
    rcases data with _ | ⟨header, data⟩
    · obtain rfl := ok.inj h
      exact fun _ hrun ↦ by cases hrun
    rcases eq_or_ne header 0 with rfl | hheader
    · obtain rfl := ok.inj h
      exact fun _ hrun ↦ by cases hrun
    obtain ⟨-, hpos, h⟩ := (analyserRunsFrom_cons hheader rfl rfl).1 h
    rw [pairTail] at h
    split_ifs at h
    · obtain ⟨rest, hrest, h⟩ := bind_eq_ok.1 h
      obtain rfl := ok.inj h
      exact forall_mem_cons.2 ⟨hpos, ih hrest⟩
    · obtain ⟨-, h⟩ := raiseIf_bind_eq_ok.1 h
      obtain ⟨rest, hrest, h⟩ := bind_eq_ok.1 h
      obtain rfl := ok.inj h
      exact forall_mem_cons.2 ⟨hpos, ih hrest⟩

/-- **What the engine accepts**: what the analyser accepts, with the same runs, if the pairs are
also signed. -/
theorem decodeRunlist_eq_ok_iff :
    decodeRunlist data = .ok runs ↔ analyserRunlist data = .ok runs ∧ SignedPairs data :=
  decodeRunsFrom_eq_ok_iff

/-- **The analyser and the engine agree just on the signed pairs and on what both reject.** For
every byte string, the two readers accept it with the same runs or both reject it, and the fragments
of an accepted list are counted alike, just if a pair is broken or they are `SignedPairs`. -/
theorem readers_agree_iff (data : List UInt8) :
    ((∀ runs, analyserRunlist data = .ok runs ↔ decodeRunlist data = .ok runs) ∧
      ∀ runs lowestVcn, analyserRunlist data = .ok runs →
        streamFragments [(lowestVcn, runs)] = physicalFragmentCount runs) ↔
    BrokenPairs data ∨ SignedPairs data := by
  constructor
  · rintro ⟨hagree, -⟩
    by_cases hbroken : BrokenPairs data
    · exact .inl hbroken
    · obtain ⟨runs, h⟩ := analyserRunsFrom_isOk_iff.2 (Bool.eq_false_of_not_eq_true hbroken)
      exact .inr (decodeRunlist_eq_ok_iff.1 ((hagree runs).1 h)).2
  · intro h
    refine ⟨fun runs ↦ ?_, fun runs lowestVcn hruns ↦ ?_⟩
    · rw [decodeRunlist_eq_ok_iff]
      rcases h with hbroken | hsigned
      · have hnot : analyserRunlist data ≠ .ok runs := fun h ↦
          Bool.false_ne_true ((analyserRunsFrom_isOk_iff.1 ⟨runs, h⟩).symm.trans hbroken)
        exact iff_of_false hnot fun h ↦ hnot h.1
      · exact (and_iff_left hsigned).symm
    · exact streamFragments_eq lowestVcn (analyserRunsFrom_pos hruns)

/-- A length of 128 in one byte, an array without a terminator and a length of nine bytes: the
analyser reads a run from each, and the engine rejects each. -/
theorem readers_disagree :
    (analyserRunlist [0x11, 0x80, 0x0A, 0x00] = .ok [⟨some 10, 128⟩] ∧
      decodeRunlist [0x11, 0x80, 0x0A, 0x00] =
        .error (.engine "invalid non-positive NTFS run length" [])) ∧
    (analyserRunlist [0x11, 0x05, 0x0A] = .ok [⟨some 10, 5⟩] ∧
      decodeRunlist [0x11, 0x05, 0x0A] =
        .error (.engine "unterminated NTFS mapping-pairs array" [])) ∧
    analyserRunlist [0x19, 5, 0, 0, 0, 0, 0, 0, 0, 0, 0x0A, 0] = .ok [⟨some 10, 5⟩] ∧
      decodeRunlist [0x19, 5, 0, 0, 0, 0, 0, 0, 0, 0, 0x0A, 0] =
        .error (.engine "invalid NTFS mapping-pairs array" []) := by
  decide +kernel

end LinuxDefragger.Ntfs
