import LinuxDefragger.Python
import Mathlib.Algebra.Order.BigOperators.Group.List
import Mathlib.Data.Nat.Size

/-!
# NTFS run lists

The clusters of a nonresident stream are a list of runs. On disk a run list is the *mapping pairs*
array: per run a header byte with two sizes, the length and the distance from the previous location.

`mapping_pairs_round_trip` is the round trip, with arbitrary bytes behind the terminator, and says
that no array of mapping pairs is shorter than the one written for its runs.
-/

open Except List Storage

namespace LinuxDefragger.Ntfs

/-- A run without a location is sparse. -/
structure Run where
  lcn : Option ℕ
  length : ℕ
  deriving DecidableEq, Repr

/-- The clusters of a run, in order. -/
def Run.clusters (r : Run) : List ℕ :=
  match r.lcn with
  | none => []
  | some lcn => List.range' lcn r.length

/-- The clusters a run list names, in order. -/
def runClusters (runs : List Run) : List ℕ := runs.flatMap Run.clusters

/-- `sum(run.length for run in runs)` -/
def runsLength (runs : List Run) : ℕ := (runs.map Run.length).sum

/-! ### Mapping pairs -/

/-- `_signed_min_bytes` -/
def signedMinBytes (value : ℤ) : Except PyError (List UInt8) :=
  match (List.range' 1 8).findSome? fun size ↦
    match toSignedBytes size value with
    | .ok encoded => if leInt encoded = value then some encoded else none
    | .error _ => none with
  | some encoded => pure encoded
  | none => throw (.engine "NTFS runlist delta exceeds 64-bit encoding" [])

/-- `_unsigned_min_bytes` -/
def unsignedMinBytes (value : ℕ) : Except PyError (List UInt8) := do
  raiseIf (value = 0) "NTFS run length must be positive" []
  let encoded := leBytes (max 1 ((value.size + 7) / 8)) value
  -- run lengths are decoded as signed integers
  let encoded := if (encoded.getLastD 0) &&& 0x80 ≠ 0 then encoded ++ [0] else encoded
  raiseIf (encoded.length > 8) "NTFS run length exceeds signed 64-bit encoding" []
  return encoded

/-- The loop of `_encode_runlist` from a previous location on. -/
def encodeRunsFrom : ℕ → List Run → Except PyError (List UInt8)
  | _, [] => pure [0]
  | previous, run :: rest => do
    let lengthBytes ← unsignedMinBytes run.length
    match run.lcn with
    | none => do
      let tail ← encodeRunsFrom previous rest
      return UInt8.ofNat lengthBytes.length :: lengthBytes ++ tail
    | some lcn => do
      let offsetBytes ← signedMinBytes ((lcn : ℤ) - previous)
      let tail ← encodeRunsFrom lcn rest
      return UInt8.ofNat (offsetBytes.length <<< 4 ||| lengthBytes.length) ::
        lengthBytes ++ offsetBytes ++ tail

/-- `_encode_runlist` -/
def encodeRunlist (runs : List Run) : Except PyError (List UInt8) := encodeRunsFrom 0 runs

/-- The loop of `_decode_runlist` from a previous location on. Every round reads a header byte, so
as many rounds as there are bytes are enough. -/
def decodeRunsFrom : ℕ → ℤ → List UInt8 → Except PyError (List Run)
  | 0, _, _ => throw (.engine "unterminated NTFS mapping-pairs array" [])
  | _ + 1, _, [] => throw (.engine "unterminated NTFS mapping-pairs array" [])
  | fuel + 1, previous, header :: data =>
    if header = 0 then pure []
    else do
      let lengthSize := header.toNat &&& 0x0F
      let offsetSize := header.toNat >>> 4
      raiseIf (lengthSize = 0 ∨ lengthSize > 8 ∨ offsetSize > 8 ∨
        lengthSize + offsetSize > data.length) "invalid NTFS mapping-pairs array" []
      let length := leInt (data.take lengthSize)
      let data := data.drop lengthSize
      raiseIf (length ≤ 0) "invalid non-positive NTFS run length" []
      if offsetSize = 0 then do
        let rest ← decodeRunsFrom fuel previous data
        return ⟨none, length.toNat⟩ :: rest
      else do
        let lcn := previous + leInt (data.take offsetSize)
        raiseIf (lcn < 0) "invalid negative NTFS logical cluster number" []
        let rest ← decodeRunsFrom fuel lcn (data.drop offsetSize)
        return ⟨some lcn.toNat, length.toNat⟩ :: rest

/-- `_decode_runlist` -/
def decodeRunlist (data : List UInt8) : Except PyError (List Run) :=
  decodeRunsFrom (data.length + 1) 0 data

/-! ### Shapes of run lists -/

/-- One round of `_coalesce_runs`; the list of merged runs has the last one first. -/
def coalesceStep (merged : List Run) (run : Run) : List Run :=
  if run.length = 0 then merged
  else match merged, run.lcn with
    | ⟨some lcn, n⟩ :: rest, some lcn' =>
      if lcn + n = lcn' then ⟨some lcn, n + run.length⟩ :: rest else run :: merged
    | ⟨none, n⟩ :: rest, none => ⟨none, n + run.length⟩ :: rest
    | _, _ => run :: merged

/-- `_coalesce_runs` -/
def coalesceRuns (runs : List Run) : List Run := (runs.foldl coalesceStep []).reverse

theorem coalesceRuns_single (lcn n : ℕ) :
    coalesceRuns [⟨some lcn, n⟩] = if n = 0 then [] else [⟨some lcn, n⟩] := by
  by_cases hn : n = 0 <;> simp [coalesceRuns, coalesceStep, hn]

theorem length_coalesceStep_le (merged : List Run) (run : Run) :
    (coalesceStep merged run).length ≤ merged.length + 1 := by
  unfold coalesceStep
  split_ifs
  · exact Nat.le_succ _
  · split
    · split_ifs <;> simp
    · simp
    · simp

/-- Coalescing does not make more runs. -/
theorem length_coalesceRuns_le (runs : List Run) : (coalesceRuns runs).length ≤ runs.length := by
  have hfold : ∀ merged : List Run,
      (runs.foldl coalesceStep merged).length ≤ merged.length + runs.length := by
    induction runs with
    | nil => exact fun merged ↦ le_rfl
    | cons run rest ih =>
      intro merged
      have := length_coalesceStep_le merged run
      have := ih (coalesceStep merged run)
      rw [foldl_cons, length_cons]
      omega
  rw [coalesceRuns, length_reverse]
  exact (hfold []).trans (by simp)

/-- `_physical_fragment_count` -/
def physicalFragmentCount (runs : List Run) : ℕ :=
  ((coalesceRuns runs).filter fun r ↦ r.lcn ≠ none).length

/-- `sum(run.length for run in runs if run.lcn is not None)`: the property `clusters`. -/
def physicalClusters (runs : List Run) : ℕ :=
  runsLength (runs.filter fun r ↦ r.lcn ≠ none)

variable {runs : List Run} {lcn previous : ℕ} {data : List UInt8}

/-- A stream with a fragment has a run with clusters. -/
theorem exists_stored (h : 0 < physicalFragmentCount runs) :
    ∃ run ∈ runs, run.lcn ≠ none ∧ run.length ≠ 0 := by
  by_contra! hnone
  replace hnone : ∀ run ∈ runs, run.lcn = none ∨ run.length = 0 := fun run hrun ↦
    or_iff_not_imp_left.2 (hnone run hrun)
  -- no round adds a stored run
  have hfold : ∀ merged : List Run, (∀ r ∈ merged, r.lcn = none) →
      ∀ r ∈ runs.foldl coalesceStep merged, r.lcn = none := by
    clear h
    induction runs with
    | nil => exact fun merged h ↦ h
    | cons run rest ih =>
      intro merged hmerged
      obtain ⟨hrun, hrest⟩ := forall_mem_cons.1 hnone
      refine ih hrest _ fun r hr ↦ ?_
      unfold coalesceStep at hr
      split_ifs at hr with hlen
      · exact hmerged r hr
      · rw [hrun.resolve_right hlen] at hr
        split at hr
        · rename_i hlcn
          cases hlcn
        · rcases mem_cons.1 hr with rfl | hr
          · rfl
          · exact hmerged r (mem_cons_of_mem _ hr)
        · rcases mem_cons.1 hr with rfl | hr
          · exact hrun.resolve_right hlen
          · exact hmerged r hr
  rw [physicalFragmentCount, length_pos_iff_exists_mem] at h
  obtain ⟨r, hr⟩ := h
  obtain ⟨hmem, hstored⟩ := mem_filter.1 hr
  exact of_decide_eq_true hstored (hfold [] (by simp) r (mem_reverse.1 hmem))

theorem physicalClusters_pos (h : 0 < physicalFragmentCount runs) : 0 < physicalClusters runs := by
  obtain ⟨run, hrun, hstored, hlen⟩ := exists_stored h
  refine (Nat.pos_of_ne_zero hlen).trans_le (le_sum_of_mem ?_)
  exact mem_map_of_mem (mem_filter.2 ⟨hrun, decide_eq_true hstored⟩)

/-- The property `highest_lcn`: one past the highest cluster. -/
def highestLcn (runs : List Run) : ℕ :=
  (runs.filterMap fun r ↦ r.lcn.map (· + r.length)).foldl max 0

/-- The property `lowest_lcn`. -/
def lowestLcn (runs : List Run) : ℕ :=
  match runs.filterMap Run.lcn with
  | [] => 0
  | lcn :: rest => rest.foldl min lcn

variable {rest : List Run} {run : Run} {fuel n : ℕ}

/-- The lowest location is not above the first one. -/
theorem lowestLcn_le (h : run.lcn = some lcn) : lowestLcn (run :: rest) ≤ lcn := by
  have hfold : ∀ (l : List ℕ) (a : ℕ), l.foldl min a ≤ a := by
    intro l
    induction l with
    | nil => exact fun a ↦ le_rfl
    | cons b l ih => exact fun a ↦ (ih _).trans (min_le_left a b)
  rw [lowestLcn, filterMap_cons_some h]
  exact hfold _ _

/-! ### Ranges of a stream -/

/-- The loop of `_stream_segments`. The generator's consumers see the exceptions only after the
segments before them; every range the engine writes was read before, so none occurs there. -/
def segmentsFrom (clusterSize : ℕ) :
    List Run → ℕ → ℕ → ℕ → Except PyError (List (ℕ × ℕ))
  | [], _, remaining, _ =>
    if remaining ≠ 0 then
      throw (.engine "NTFS stream runlist is shorter than requested range" [])
    else pure []
  | run :: rest, cursor, remaining, wanted =>
    let runBytes := run.length * clusterSize
    if wanted ≥ cursor + runBytes then
      segmentsFrom clusterSize rest (cursor + runBytes) remaining wanted
    else
      let within := wanted - cursor
      let take := min remaining (runBytes - within)
      match run.lcn with
      | none => throw (.engine "sparse run encountered in a metadata stream" [])
      | some lcn =>
        if remaining - take = 0 then pure [(lcn * clusterSize + within, take)]
        else do
          let tail ← segmentsFrom clusterSize rest (cursor + runBytes) (remaining - take)
            (wanted + take)
          return (lcn * clusterSize + within, take) :: tail

/-- `_stream_segments` -/
def streamSegments (runs : List Run) (clusterSize logicalOffset length : ℕ) :
    Except PyError (List (ℕ × ℕ)) :=
  segmentsFrom clusterSize runs 0 length logicalOffset

/-- Where byte `i` of a stream lies on the device, if it is stored. -/
def byteAddr (clusterSize : ℕ) : List Run → ℕ → Option ℕ
  | [], _ => none
  | run :: rest, i =>
    if i < run.length * clusterSize then run.lcn.map fun lcn ↦ lcn * clusterSize + i
    else byteAddr clusterSize rest (i - run.length * clusterSize)

/-! ### The round trip of mapping pairs -/

theorem signedMinBytes_eq_ok {value : ℤ} (h : signedMinBytes value = .ok data) :
    leInt data = value ∧ 1 ≤ data.length ∧ data.length ≤ 8 := by
  rw [signedMinBytes] at h
  split at h
  · rename_i encoded hfind
    obtain rfl := ok.inj h
    obtain ⟨size, hsize, hsome⟩ := exists_of_findSome?_eq_some hfind
    cases hbytes : toSignedBytes size value with
    | error e => simp [hbytes] at hsome
    | ok bytes =>
      obtain ⟨hval, hlen⟩ := leInt_toSignedBytes hbytes
      simp only [hbytes, hval, if_true, Option.some.injEq] at hsome
      subst hsome
      have := mem_range'_1.1 hsize
      exact ⟨hval, by omega, by omega⟩
  · cases h

theorem byte_and_eq_zero_iff (b : UInt8) : b &&& 0x80 = 0 ↔ 2 * b.toNat < 256 := by
  have hnat : ∀ n < 256, n &&& 128 = 0 ↔ 2 * n < 256 := by decide +kernel
  rw [← UInt8.toNat_inj, UInt8.toNat_and]
  exact hnat b.toNat b.toNat_lt

/-- The top bit of the last byte decides the sign. -/
theorem getLastD_and_eq_zero_iff (h : data ≠ []) :
    data.getLastD 0 &&& 0x80 = 0 ↔ 2 * leNat data < 256 ^ data.length := by
  induction data with
  | nil => exact absurd rfl h
  | cons b rest ih =>
    cases rest with
    | nil => exact byte_and_eq_zero_iff b
    | cons b' rest =>
      have hlast : (b :: b' :: rest).getLastD 0 = (b' :: rest).getLastD 0 := rfl
      have hpow : 256 ^ (b :: b' :: rest).length = 256 * 256 ^ (b' :: rest).length := pow_succ' ..
      have heven : 256 ^ (b' :: rest).length = 2 * (128 * 256 ^ rest.length) := by
        rw [length_cons, pow_succ]
        omega
      have hb := b.toNat_lt
      rw [hlast, ih (cons_ne_nil _ _), hpow, show leNat (b :: b' :: rest) =
        b.toNat + 256 * leNat (b' :: rest) from rfl, heven]
      omega

theorem leInt_of_lt (h : 2 * leNat data < 256 ^ data.length) :
    leInt data = leNat data := by rw [leInt, if_pos h]

theorem lt_pow_of_size (v : ℕ) : v < 256 ^ max 1 ((v.size + 7) / 8) := by
  calc v < 2 ^ v.size := Nat.lt_size_self v
    _ ≤ 2 ^ (8 * max 1 ((v.size + 7) / 8)) := Nat.pow_le_pow_right (by decide) (by omega)
    _ = 256 ^ max 1 ((v.size + 7) / 8) := by rw [Nat.pow_mul]

theorem leNat_append_zero (data : List UInt8) : leNat (data ++ [0]) = leNat data := by
  induction data with
  | nil => rfl
  | cons b rest ih => rw [cons_append, leNat, ih, leNat]

theorem unsignedMinBytes_eq_ok {value : ℕ} (h : unsignedMinBytes value = .ok data) :
    leInt data = value ∧ 0 < value ∧ 1 ≤ data.length ∧ data.length ≤ 8 := by
  rw [unsignedMinBytes, raiseIf_bind_eq_ok, raiseIf_bind_eq_ok] at h
  obtain ⟨hpos, hlen, h⟩ := h
  obtain rfl := ok.inj h
  set size := max 1 ((value.size + 7) / 8) with hsize
  have hlt : value < 256 ^ size := lt_pow_of_size value
  have hval : leNat (leBytes size value) = value := by
    rw [leNat_leBytes, Nat.mod_eq_of_lt hlt]
  have hne : leBytes size value ≠ [] := by
    rw [← length_pos_iff, leBytes_length]
    omega
  refine ⟨?_, by omega, ?_, by omega⟩
  · split_ifs with htop
    · -- the appended zero byte keeps the number and clears the sign
      rw [leInt_of_lt, leNat_append_zero, hval]
      rw [leNat_append_zero, hval, length_append, length_singleton, pow_succ, leBytes_length]
      omega
    · rw [leInt_of_lt ((getLastD_and_eq_zero_iff hne).1 (not_not.1 htop)), hval]
  · split_ifs
    · simp
    · rw [leBytes_length]
      omega

theorem header_sizes {o l : ℕ} (ho : o ≤ 8) (hl : 1 ≤ l ∧ l ≤ 8) :
    UInt8.ofNat (o <<< 4 ||| l) ≠ 0 ∧ (UInt8.ofNat (o <<< 4 ||| l)).toNat &&& 0x0F = l ∧
      (UInt8.ofNat (o <<< 4 ||| l)).toNat >>> 4 = o := by
  obtain ⟨h₁, h₂⟩ := hl
  interval_cases o <;> interval_cases l <;> decide

/-- **Decoding an encoded run list** gives the runs back, whatever follows the terminator. -/
theorem decodeRunsFrom_encode {tail : List UInt8} (h : encodeRunsFrom previous runs = .ok data)
    (hfuel : runs.length < fuel) : decodeRunsFrom fuel previous (data ++ tail) = .ok runs := by
  induction runs generalizing previous fuel data with
  | nil =>
    obtain rfl := ok.inj h
    obtain ⟨fuel, rfl⟩ := Nat.exists_eq_succ_of_ne_zero hfuel.ne'
    rfl
  | cons run rest ih =>
    obtain ⟨fuel, rfl⟩ := Nat.exists_eq_succ_of_ne_zero (Nat.ne_zero_of_lt hfuel)
    have hfuel' : rest.length < fuel := Nat.lt_of_succ_lt_succ hfuel
    obtain ⟨lcn, n⟩ := run
    rw [encodeRunsFrom, bind_eq_ok] at h
    obtain ⟨lengthBytes, hlength, h⟩ := h
    obtain ⟨hlen, hpos, hl⟩ := unsignedMinBytes_eq_ok hlength
    cases lcn with
    | none =>
      obtain ⟨t, ht, h⟩ := bind_eq_ok.1 h
      obtain rfl := ok.inj h
      obtain ⟨hne, hlow, hhigh⟩ := header_sizes (Nat.zero_le 8) hl
      rw [Nat.zero_shiftLeft, Nat.zero_or] at hne hlow hhigh
      have hfits : ¬(lengthBytes.length = 0 ∨ lengthBytes.length > 8 ∨ 0 > 8 ∨
          lengthBytes.length + 0 > (lengthBytes ++ (t ++ tail)).length) := by
        rw [length_append]
        omega
      rw [cons_append, cons_append, append_assoc, decodeRunsFrom, if_neg hne, hlow,
        hhigh, raiseIf_bind_of_not hfits, take_left, hlen, raiseIf_bind_of_not (by omega),
        if_pos rfl, drop_left, ih ht hfuel']
      rfl
    | some lcn =>
      obtain ⟨offsetBytes, hoffset, h⟩ := bind_eq_ok.1 h
      obtain ⟨hdelta, ho⟩ := signedMinBytes_eq_ok hoffset
      obtain ⟨t, ht, h⟩ := bind_eq_ok.1 h
      obtain rfl := ok.inj h
      obtain ⟨hne, hlow, hhigh⟩ := header_sizes ho.2 hl
      have hfits : ¬(lengthBytes.length = 0 ∨ lengthBytes.length > 8 ∨ offsetBytes.length > 8 ∨
          lengthBytes.length + offsetBytes.length >
            (lengthBytes ++ (offsetBytes ++ (t ++ tail))).length) := by
        rw [length_append, length_append]
        omega
      have hback : (previous : ℤ) + (lcn - previous) = (lcn : ℕ) := by omega
      rw [cons_append, cons_append, cons_append, append_assoc,
        append_assoc, decodeRunsFrom, if_neg hne, hlow, hhigh, raiseIf_bind_of_not hfits,
        take_left, hlen, raiseIf_bind_of_not (by omega), if_neg (by omega), drop_left,
        take_left, hdelta, hback, raiseIf_bind_of_not (by omega), drop_left, ih ht hfuel']
      rfl

/-- Every run takes a byte of the encoding. -/
theorem length_lt_of_encode (h : encodeRunsFrom previous runs = .ok data) :
    runs.length < data.length := by
  induction runs generalizing previous data with
  | nil =>
    obtain rfl := ok.inj h
    exact Nat.one_pos
  | cons run rest ih =>
    rw [encodeRunsFrom, bind_eq_ok] at h
    obtain ⟨lengthBytes, -, h⟩ := h
    cases hlcn : run.lcn with
    | none =>
      rw [hlcn] at h
      obtain ⟨tail, htail, h⟩ := bind_eq_ok.1 h
      obtain rfl := ok.inj h
      have := ih htail
      simp only [length_cons, cons_append, length_append]
      omega
    | some lcn =>
      rw [hlcn] at h
      obtain ⟨offsetBytes, -, h⟩ := bind_eq_ok.1 h
      obtain ⟨tail, htail, h⟩ := bind_eq_ok.1 h
      obtain rfl := ok.inj h
      have := ih htail
      simp only [length_cons, cons_append, length_append]
      omega

/-! ### Mapping pairs are as short as they can be -/

theorem leInt_bounds (data : List UInt8) :
    -(256 ^ data.length : ℤ) ≤ 2 * leInt data ∧ 2 * leInt data < 256 ^ data.length := by
  have hlt : (leNat data : ℤ) < 256 ^ data.length := by exact_mod_cast leNat_lt data
  rw [leInt]
  split_ifs with hsign
  · have hsmall : 2 * (leNat data : ℤ) < 256 ^ data.length := by exact_mod_cast hsign
    omega
  · have hlarge : (256 ^ data.length : ℤ) ≤ 2 * leNat data := by exact_mod_cast not_lt.1 hsign
    omega

/-- A difference that fits `n` bytes is stored in at most `n` bytes. -/
theorem signedMinBytes_of_fits (value : ℤ) (hn : 1 ≤ n ∧ n ≤ 8)
    (hfits : -(256 ^ n : ℤ) ≤ 2 * value ∧ 2 * value < 256 ^ n) :
    ∃ data, signedMinBytes value = .ok data ∧ data.length ≤ n := by
  have htry : ∃ bytes, toSignedBytes n value = .ok bytes :=
    ⟨_, by rw [toSignedBytes, if_pos hfits]; rfl⟩
  obtain ⟨bytes, hbytes⟩ := htry
  set attempt : ℕ → Option (List UInt8) := fun size ↦
    match toSignedBytes size value with
    | .ok encoded => if leInt encoded = value then some encoded else none
    | .error _ => none with hattempt
  have hlength : ∀ size encoded, attempt size = some encoded → encoded.length = size := by
    intro size encoded h
    cases hsize : toSignedBytes size value with
    | error e => simp [hattempt, hsize] at h
    | ok bytes =>
      obtain ⟨hval, hlen⟩ := leInt_toSignedBytes hsize
      simp only [hattempt, hsize, hval, if_true, Option.some.injEq] at h
      rw [← h, hlen]
  -- the sizes up to `n` contain one that works, so the first one that works is among them
  have hsplit : range' 1 8 = range' 1 n ++ range' (1 + n) (8 - n) := by
    rw [range'_append_1, Nat.add_sub_cancel' hn.2]
  have hsome : ((range' 1 n).findSome? attempt).isSome := by
    rw [findSome?_isSome_iff]
    refine ⟨n, mem_range'_1.2 (by omega), ?_⟩
    simp [hattempt, hbytes, (leInt_toSignedBytes hbytes).1]
  obtain ⟨data, hdata⟩ := Option.isSome_iff_exists.1 hsome
  obtain ⟨size, hsize, hfound⟩ := exists_of_findSome?_eq_some hdata
  refine ⟨data, ?_, ?_⟩
  · have hall : (range' 1 8).findSome? attempt = some data := by
      rw [hsplit, findSome?_append, hdata, Option.some_or]
    rw [signedMinBytes]
    simp only [hattempt] at hall
    rw [hall]
    rfl
  · rw [hlength size data hfound]
    have := mem_range'_1.1 hsize
    omega

/-- A length that fits `n` bytes with a clear sign is stored in at most `n` bytes. -/
theorem unsignedMinBytes_of_fits {value : ℕ} (hpos : 0 < value) (hn : n ≤ 8)
    (hfits : 2 * value < 256 ^ n) :
    ∃ data, unsignedMinBytes value = .ok data ∧ data.length ≤ n := by
  set size := max 1 ((value.size + 7) / 8) with hsize
  have hn₁ : n ≠ 0 := by
    rintro rfl
    rw [pow_zero] at hfits
    omega
  have hbits : value.size ≤ 8 * n - 1 := by
    rw [Nat.size_le]
    have hpow : 256 ^ n = 2 * 2 ^ (8 * n - 1) := by
      rw [show (256 : ℕ) = 2 ^ 8 from rfl, ← pow_mul, ← pow_succ']
      congr 1
      omega
    omega
  have hle : size ≤ n := by omega
  have hne : leBytes size value ≠ [] := by
    rw [← length_pos_iff, leBytes_length]
    omega
  set encoded := if (leBytes size value).getLastD 0 &&& 0x80 ≠ 0 then leBytes size value ++ [0]
    else leBytes size value with hencoded
  have hlen : encoded.length ≤ n := by
    rw [hencoded]
    split_ifs with htop
    · -- the sign bit is set, so the number does not fit `size` bytes and `size` is below `n`
      have hlarge := mt (getLastD_and_eq_zero_iff hne).2 htop
      rw [leNat_leBytes, leBytes_length, Nat.mod_eq_of_lt (lt_pow_of_size value)] at hlarge
      have hstrict : size ≠ n := by
        intro heq
        rw [heq] at hlarge
        exact hlarge hfits
      rw [length_append, leBytes_length, length_singleton]
      omega
    · rwa [leBytes_length]
  refine ⟨encoded, ?_, hlen⟩
  rw [unsignedMinBytes, raiseIf_bind_of_not hpos.ne',
    raiseIf_bind_of_not (not_lt.2 (hlen.trans hn))]
  rfl

/-- Runs whose numbers fit 64 bits with a sign have an encoding. -/
theorem encodeRunsFrom_eq_ok (hprevious : previous < 2 ^ 63)
    (hruns : ∀ run ∈ runs, (1 ≤ run.length ∧ run.length < 2 ^ 63) ∧ ∀ lcn ∈ run.lcn, lcn < 2 ^ 63) :
    ∃ data, encodeRunsFrom previous runs = .ok data := by
  induction runs generalizing previous with
  | nil => exact ⟨[0], rfl⟩
  | cons run rest ih =>
    obtain ⟨⟨hlength, hlcn⟩, hrest⟩ := forall_mem_cons.1 hruns
    obtain ⟨lengthBytes, hl, -⟩ := unsignedMinBytes_of_fits hlength.1 le_rfl
      (show 2 * run.length < 256 ^ 8 by omega)
    rw [encodeRunsFrom, hl, ok_bind]
    cases hrun : run.lcn with
    | none =>
      obtain ⟨tail, ht⟩ := ih hprevious hrest
      exact ⟨_, by rw [ht]; rfl⟩
    | some lcn =>
      have hlt := hlcn lcn hrun
      obtain ⟨offsetBytes, ho, -⟩ := signedMinBytes_of_fits ((lcn : ℤ) - previous)
        (n := 8) (by omega) (by omega)
      obtain ⟨tail, ht⟩ := ih hlt hrest
      exact ⟨_, by dsimp only; rw [ho, ok_bind, ht]; rfl⟩

/-- The bytes that `_decode_runlist` has read when it returns, the terminator included. -/
def runlistEnd : ℕ → List UInt8 → ℕ
  | 0, _ => 0
  | _ + 1, [] => 0
  | fuel + 1, header :: data =>
    if header = 0 then 1
    else
      let size := (header.toNat &&& 0x0F) + header.toNat >>> 4
      1 + size + runlistEnd fuel (data.drop size)

/-- **Encoding decoded runs** needs no more bytes than were decoded. -/
theorem encodeRunsFrom_decode (h : decodeRunsFrom fuel previous data = .ok runs) :
    ∃ encoded, encodeRunsFrom previous runs = .ok encoded ∧
      encoded.length ≤ runlistEnd fuel data := by
  induction fuel generalizing previous data runs with
  | zero => cases h
  | succ fuel ih =>
    cases data with
    | nil => cases h
    | cons header data =>
      rw [decodeRunsFrom] at h
      rw [runlistEnd]
      split_ifs at h ⊢ with hend
      · obtain rfl := ok.inj h
        exact ⟨[0], rfl, le_rfl⟩
      · dsimp only at h ⊢
        set lengthSize := header.toNat &&& 0x0F
        set offsetSize := header.toNat >>> 4
        obtain ⟨hsizes, h⟩ := raiseIf_bind_eq_ok.1 h
        obtain ⟨hpositive, h⟩ := raiseIf_bind_eq_ok.1 h
        push Not at hsizes hpositive
        obtain ⟨hl₀, hl₈, ho₈, hdata⟩ := hsizes
        have hlen : (data.take lengthSize).length = lengthSize := length_take_of_le (by omega)
        have hbound := leInt_bounds (data.take lengthSize)
        rw [hlen] at hbound
        obtain ⟨lengthBytes, hlength, hle⟩ := unsignedMinBytes_of_fits (n := lengthSize)
          (show 0 < (leInt (data.take lengthSize)).toNat by omega) hl₈ (by zify; omega)
        split_ifs at h with hsparse
        · obtain ⟨rest, hrest, h⟩ := bind_eq_ok.1 h
          obtain rfl := ok.inj h
          obtain ⟨tail, htail, htailLen⟩ := ih hrest
          refine ⟨UInt8.ofNat lengthBytes.length :: lengthBytes ++ tail, ?_, ?_⟩
          · rw [encodeRunsFrom, hlength, ok_bind]
            dsimp only
            rw [htail]
            rfl
          · rw [hsparse, Nat.add_zero, cons_append, length_cons, length_append]
            omega
        · obtain ⟨hneg, h⟩ := raiseIf_bind_eq_ok.1 h
          obtain ⟨rest, hrest, h⟩ := bind_eq_ok.1 h
          obtain rfl := ok.inj h
          have hoffset : ((data.drop lengthSize).take offsetSize).length = offsetSize :=
            length_take_of_le (by rw [length_drop]; omega)
          have hdelta := leInt_bounds ((data.drop lengthSize).take offsetSize)
          rw [hoffset] at hdelta
          set lcn := (previous : ℤ) + leInt ((data.drop lengthSize).take offsetSize) with hlcn
          have hcast : ((lcn.toNat : ℕ) : ℤ) = lcn := Int.toNat_of_nonneg (by omega)
          obtain ⟨offsetBytes, hbytes, hbytesLen⟩ := signedMinBytes_of_fits
            ((lcn.toNat : ℤ) - previous) (n := offsetSize) (by omega)
            (by rw [hcast, hlcn]; simpa using hdelta)
          rw [← hcast] at hrest
          obtain ⟨tail, htail, htailLen⟩ := ih hrest
          rw [drop_drop] at htailLen
          refine ⟨UInt8.ofNat (offsetBytes.length <<< 4 ||| lengthBytes.length) ::
            lengthBytes ++ offsetBytes ++ tail, ?_, ?_⟩
          · rw [encodeRunsFrom, hlength, ok_bind]
            dsimp only
            rw [hbytes, ok_bind, htail]
            rfl
          · rw [cons_append, cons_append, length_cons, length_append, length_append]
            omega

/-- What `_decode_runlist` has read was there. -/
theorem runlistEnd_le {previous : ℤ} (h : decodeRunsFrom fuel previous data = .ok runs) :
    runlistEnd fuel data ≤ data.length := by
  induction fuel generalizing previous data runs with
  | zero => cases h
  | succ fuel ih =>
    cases data with
    | nil => cases h
    | cons header data =>
      rw [decodeRunsFrom] at h
      rw [runlistEnd, length_cons]
      split_ifs at h ⊢ with hend
      · omega
      · dsimp only at h ⊢
        obtain ⟨hsizes, h⟩ := raiseIf_bind_eq_ok.1 h
        obtain ⟨-, h⟩ := raiseIf_bind_eq_ok.1 h
        have hrest : ∃ previous' rest, decodeRunsFrom fuel previous'
            (data.drop ((header.toNat &&& 0x0F) + header.toNat >>> 4)) = .ok rest := by
          split_ifs at h with hsparse
          · obtain ⟨rest, hrest, -⟩ := bind_eq_ok.1 h
            exact ⟨_, rest, by rwa [hsparse, Nat.add_zero]⟩
          · obtain ⟨-, h⟩ := raiseIf_bind_eq_ok.1 h
            obtain ⟨rest, hrest, -⟩ := bind_eq_ok.1 h
            exact ⟨_, rest, by rwa [drop_drop] at hrest⟩
        obtain ⟨previous', rest, hrest⟩ := hrest
        have := ih hrest
        rw [length_drop] at this
        omega

/-- Two numbers that fit `l` and `w` bytes with a clear sign have a sum that fits `l + w` bytes. -/
theorem add_fits {a b l w : ℕ} (hl : 1 ≤ l) (ha : 2 * a < 256 ^ l) (hb : 2 * b < 256 ^ w) :
    2 * (a + b) < 256 ^ (l + w) := by
  rcases Nat.eq_zero_or_pos w with rfl | hw
  · rw [pow_zero] at hb
    rw [Nat.add_zero, show b = 0 by omega]
    omega
  · have hx : 2 ≤ 256 ^ l := le_trans (by decide) (Nat.le_self_pow (by omega) 256)
    have hy : 2 ≤ 256 ^ w := le_trans (by decide) (Nat.le_self_pow (by omega) 256)
    calc 2 * (a + b) < 256 ^ l + 256 ^ w := by omega
      _ ≤ 256 ^ l * 256 ^ w := Nat.add_le_mul hx hy
      _ = 256 ^ (l + w) := (pow_add ..).symm

/-- The mapping pairs of a stored run and of those behind it. -/
theorem encodeRunsFrom_cons (h : encodeRunsFrom previous (run :: rest) = .ok data)
    (hlcn : run.lcn = some lcn) :
    ∃ l o tail, (1 ≤ l ∧ 2 * run.length < 256 ^ l) ∧
      ((1 ≤ o ∧ o ≤ 8) ∧ 2 * ((lcn : ℤ) - previous) < 256 ^ o) ∧
      encodeRunsFrom lcn rest = .ok tail ∧ data.length = 1 + l + o + tail.length := by
  rw [encodeRunsFrom] at h
  obtain ⟨lengthBytes, hlength, h⟩ := bind_eq_ok.1 h
  rw [hlcn] at h
  obtain ⟨offsetBytes, hoffset, h⟩ := bind_eq_ok.1 h
  obtain ⟨tail, htail, h⟩ := bind_eq_ok.1 h
  obtain rfl := ok.inj h
  obtain ⟨hvalue, -, hl, -⟩ := unsignedMinBytes_eq_ok hlength
  obtain ⟨hdelta, ho⟩ := signedMinBytes_eq_ok hoffset
  have hfits := (leInt_bounds lengthBytes).2
  rw [hvalue] at hfits
  refine ⟨lengthBytes.length, offsetBytes.length, tail, ⟨hl, by exact_mod_cast hfits⟩, ⟨ho, ?_⟩,
    htail, ?_⟩
  · rw [← hdelta]
    exact (leInt_bounds offsetBytes).2
  · simp only [length_cons, cons_append, length_append]
    omega

/-- The mapping pairs of stored runs: room for their length, and two more bytes for every run. -/
theorem width_of_encode (h : encodeRunsFrom previous runs = .ok data)
    (hstored : ∀ run ∈ runs, run.lcn ≠ none) :
    ∃ w, 2 * runsLength runs < 256 ^ w ∧ w + 2 * runs.length + 1 ≤ data.length := by
  induction runs generalizing previous data with
  | nil =>
    obtain rfl := ok.inj h
    exact ⟨0, by decide, by decide⟩
  | cons run rest ih =>
    obtain ⟨hrun, hrest⟩ := forall_mem_cons.1 hstored
    obtain ⟨lcn, hlcn⟩ := Option.ne_none_iff_exists'.1 hrun
    obtain ⟨l, o, tail, ⟨hl, hfits⟩, ⟨ho, -⟩, htail, hlen⟩ := encodeRunsFrom_cons h hlcn
    obtain ⟨w, hw, hlen'⟩ := ih htail hrest
    refine ⟨l + w, ?_, ?_⟩
    · rw [runsLength, map_cons, sum_cons]
      exact add_fits hl hfits hw
    · rw [length_cons]
      omega

/-- The first location of a run list has its bytes in the mapping pairs, too. -/
theorem offset_of_encode (h : encodeRunlist (run :: rest) = .ok data) (hlcn : run.lcn = some lcn)
    (hstored : ∀ run ∈ rest, run.lcn ≠ none) :
    ∃ w o, 2 * runsLength (run :: rest) < 256 ^ w ∧ 2 * lcn < 256 ^ o ∧ (1 ≤ o ∧ o ≤ 8) ∧
      w + o + 2 ≤ data.length := by
  obtain ⟨l, o, tail, ⟨hl, hfits⟩, ⟨ho, hlcnFits⟩, htail, hlen⟩ := encodeRunsFrom_cons h hlcn
  obtain ⟨w, hw, hlen'⟩ := width_of_encode htail hstored
  rw [Nat.cast_zero, sub_zero] at hlcnFits
  refine ⟨l + w, o, ?_, by exact_mod_cast hlcnFits, ho, by omega⟩
  rw [runsLength, map_cons, sum_cons]
  exact add_fits hl hfits hw

/-- The mapping pairs of one run need two bytes besides those of its length and its location. -/
theorem encode_single_of_fits {w o : ℕ} (hpos : 0 < n) (hw : w ≤ 8) (hn : 2 * n < 256 ^ w)
    (ho : 1 ≤ o ∧ o ≤ 8) (hlcn : 2 * lcn < 256 ^ o) :
    ∃ data, encodeRunlist [⟨some lcn, n⟩] = .ok data ∧ data.length ≤ w + o + 2 := by
  obtain ⟨lengthBytes, hlength, hl⟩ := unsignedMinBytes_of_fits hpos hw hn
  obtain ⟨offsetBytes, hoffset, hoLen⟩ := signedMinBytes_of_fits (lcn : ℤ) ho
    ⟨by have : (0 : ℤ) < 256 ^ o := by positivity
        omega, by exact_mod_cast hlcn⟩
  refine ⟨UInt8.ofNat (offsetBytes.length <<< 4 ||| lengthBytes.length) ::
    lengthBytes ++ offsetBytes ++ [0], ?_, ?_⟩
  · rw [encodeRunlist, encodeRunsFrom, hlength, ok_bind]
    dsimp only
    rw [Nat.cast_zero, sub_zero, hoffset]
    rfl
  · simp only [length_cons, cons_append, length_append, length_nil]
    omega

/-- **The mapping pairs of a run list.** A run list of 64-bit numbers has an encoding that decodes
to it, whatever follows the terminator; and the runs of an accepted array are encoded in no more
bytes than the decoder read. -/
theorem mapping_pairs_round_trip :
    (∀ runs : List Run,
      (∀ run ∈ runs, (1 ≤ run.length ∧ run.length < 2 ^ 63) ∧ ∀ lcn ∈ run.lcn, lcn < 2 ^ 63) →
      ∃ data, encodeRunlist runs = .ok data ∧ ∀ tail, decodeRunlist (data ++ tail) = .ok runs) ∧
    ∀ data runs, decodeRunlist data = .ok runs → ∃ encoded, encodeRunlist runs = .ok encoded ∧
      encoded.length ≤ runlistEnd (data.length + 1) data := by
  refine ⟨fun runs hruns ↦ ?_, fun data runs h ↦ encodeRunsFrom_decode h⟩
  obtain ⟨data, hdata⟩ := encodeRunsFrom_eq_ok (Nat.two_pow_pos 63) hruns
  refine ⟨data, hdata, fun tail ↦ decodeRunsFrom_encode hdata ?_⟩
  have := length_lt_of_encode hdata
  rw [length_append]
  omega

/-- Both directions at a run list with a backward step and a sparse run. -/
theorem mapping_pairs_round_trip_small :
    (∃ data, encodeRunlist [⟨some 200, 3⟩, ⟨none, 128⟩, ⟨some 7, 1⟩] = .ok data ∧
      ∀ tail, decodeRunlist (data ++ tail) = .ok [⟨some 200, 3⟩, ⟨none, 128⟩, ⟨some 7, 1⟩]) ∧
    ∃ encoded, encodeRunlist [⟨some 5, 1⟩] = .ok encoded ∧
      encoded.length ≤ runlistEnd 8 [0x32, 1, 0, 5, 0, 0, 0] :=
  ⟨mapping_pairs_round_trip.1 _ (by decide),
    mapping_pairs_round_trip.2 [0x32, 1, 0, 5, 0, 0, 0] [⟨some 5, 1⟩] (by decide)⟩

end LinuxDefragger.Ntfs
