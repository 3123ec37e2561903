import LinuxDefragger.Ntfs.Runs
import LinuxDefragger.Storage.Bits

/-!
# The allocation bitmap

Searching and changing the in-memory copy of `$Bitmap`. The searches skip whole bytes where they
can; what they find is stated bit by bit.
-/

open List Storage

namespace LinuxDefragger.Ntfs

/-- The engine asks only about clusters that the bitmap covers. -/
def bit (bitmap : List UInt8) (cluster : ℕ) : Bool := bitAt bitmap cluster

/-- `_set_bit` -/
def setBit (bitmap : List UInt8) (cluster : ℕ) (value : Bool) : Except PyError (List UInt8) :=
  if cluster / 8 < bitmap.length then pure (setBitAt bitmap cluster value) else throw .indexError

/-- `count` bits from `start` on, one at a time: the last loop of `_set_range`. -/
def setBits (value : Bool) : ℕ → ℕ → List UInt8 → Except PyError (List UInt8)
  | 0, _, bitmap => pure bitmap
  | count + 1, start, bitmap => do
    let bitmap ← setBit bitmap start value
    setBits value count (start + 1) bitmap

/-- The first loop of `_set_range`: bits up to the next byte boundary, `count` at most. Returns the
position reached. -/
def setUntilAligned (value : Bool) :
    ℕ → ℕ → List UInt8 → Except PyError (ℕ × List UInt8)
  | 0, start, bitmap => pure (start, bitmap)
  | count + 1, start, bitmap =>
    if start % 8 ≠ 0 then do
      let bitmap ← setBit bitmap start value
      setUntilAligned value count (start + 1) bitmap
    else pure (start, bitmap)

/-- `_set_range` -/
def setRange (bitmap : List UInt8) (start length : ℕ) (value : Bool) :
    Except PyError (List UInt8) := do
  let stop := start + length
  let (start, bitmap) ← setUntilAligned value length start bitmap
  let byteEnd := stop / 8
  let byteStart := start / 8
  if byteEnd > byteStart then
    let bitmap := putSlice bitmap byteStart byteEnd
      (List.replicate (byteEnd - byteStart) (fillByte value))
    setBits value (stop - byteEnd * 8) (byteEnd * 8) bitmap
  else setBits value (stop - start) start bitmap

/-! ### Searches -/

/-- The byte loop of `_highest_used_before` over the lowest `n` bytes. -/
def highestUsedInBytes (bitmap : List UInt8) : ℕ → ℕ
  | 0 => 0
  | n + 1 =>
    let value := bitmap.getD n 0
    if value ≠ 0 then n * 8 + (Nat.log2 value.toNat + 1) else highestUsedInBytes bitmap n

/-- The bit loop of `_highest_used_before`, from cluster `n - 1` down to a byte boundary. -/
def highestUsedFrom (bitmap : List UInt8) : ℕ → ℕ
  | 0 => 0
  | n + 1 =>
    if n % 8 ≠ 7 then
      if bit bitmap n then n + 1 else highestUsedFrom bitmap n
    else highestUsedInBytes bitmap ((n + 1) / 8)

/-- `_highest_used_before` -/
def highestUsedBefore (bitmap : List UInt8) (before : ℕ) : ℕ :=
  highestUsedFrom bitmap (min before (bitmap.length * 8))

/-- The byte at a byte boundary, if all of it is below the limit. -/
def wholeByte (bitmap : List UInt8) (limit cluster : ℕ) : Option UInt8 :=
  if cluster % 8 = 0 ∧ cluster + 8 ≤ limit then some (bitmap.getD (cluster / 8) 0) else none

/-- The free run that ends at `cluster`, if one is open. -/
def closeRun (start : Option ℕ) (cluster : ℕ) : List Run :=
  match start with
  | none => []
  | some s => [⟨some s, cluster - s⟩]

/-- The loop of `_free_runs_before`; the cluster goes up in every round. -/
def freeRunsFrom (bitmap : List UInt8) (limit : ℕ) : ℕ → ℕ → Option ℕ → List Run
  | 0, _, start => closeRun start limit
  | fuel + 1, cluster, start =>
    if cluster < limit then
      if wholeByte bitmap limit cluster = some 0x00 then
        freeRunsFrom bitmap limit fuel (cluster + 8) (start.or (some cluster))
      else if wholeByte bitmap limit cluster = some 0xFF then
        closeRun start cluster ++ freeRunsFrom bitmap limit fuel (cluster + 8) none
      else if bit bitmap cluster then
        closeRun start cluster ++ freeRunsFrom bitmap limit fuel (cluster + 1) none
      else freeRunsFrom bitmap limit fuel (cluster + 1) (start.or (some cluster))
    else closeRun start limit

/-- `_free_runs_before` -/
def freeRunsBefore (bitmap : List UInt8) (before : ℕ) : List Run :=
  freeRunsFrom bitmap (min before (bitmap.length * 8)) (min before (bitmap.length * 8)) 0 none

/-- `_find_free_run` -/
def findFreeRun (bitmap : List UInt8) (length before : ℕ) : Option ℕ :=
  if length = 0 then none
  else ((freeRunsBefore bitmap before).find? fun r ↦ length ≤ r.length).bind Run.lcn

/-- The first loop of `_next_free_run`: skip allocated clusters. -/
def skipUsed (bitmap : List UInt8) (limit : ℕ) : ℕ → ℕ → ℕ
  | 0, cluster => cluster
  | fuel + 1, cluster =>
    if cluster < limit then
      if wholeByte bitmap limit cluster = some 0xFF then skipUsed bitmap limit fuel (cluster + 8)
      else if wholeByte bitmap limit cluster = some 0x00 then cluster
      else if bit bitmap cluster then skipUsed bitmap limit fuel (cluster + 1)
      else cluster
    else cluster

/-- The second loop of `_next_free_run`: skip free clusters. -/
def skipFree (bitmap : List UInt8) (limit : ℕ) : ℕ → ℕ → ℕ
  | 0, cluster => cluster
  | fuel + 1, cluster =>
    if cluster < limit then
      if wholeByte bitmap limit cluster = some 0x00 then skipFree bitmap limit fuel (cluster + 8)
      else if wholeByte bitmap limit cluster = some 0xFF then cluster
      else if bit bitmap cluster then cluster
      else skipFree bitmap limit fuel (cluster + 1)
    else cluster

/-- `_next_free_run` -/
def nextFreeRun (bitmap : List UInt8) (start before : ℕ) : Option Run :=
  let limit := min before (bitmap.length * 8)
  let runStart := skipUsed bitmap limit limit start
  if runStart ≥ limit then none
  else some ⟨some runStart, skipFree bitmap limit limit runStart - runStart⟩

/-- The loop of `_free_gap_stats`: gap count, free clusters and first gap below `before`. -/
def freeGapStatsFrom (bitmap : List UInt8) (before : ℕ) :
    ℕ → ℕ → ℕ × ℕ × Option ℕ → ℕ × ℕ × Option ℕ
  | 0, _, stats => stats
  | fuel + 1, cursor, (count, clusters, first) =>
    match nextFreeRun bitmap cursor before with
    | none => (count, clusters, first)
    | some run =>
      freeGapStatsFrom bitmap before fuel (run.lcn.getD 0 + run.length)
        (count + 1, clusters + run.length, first.or run.lcn)

/-- `_free_gap_stats` -/
def freeGapStats (bitmap : List UInt8) (before start : ℕ) : ℕ × ℕ × Option ℕ :=
  freeGapStatsFrom bitmap before before start (0, 0, none)

/-! ### What the searches find -/

/-- All clusters from `a` up to `b` are free. -/
def FreeRange (bitmap : List UInt8) (a b : ℕ) : Prop := ∀ c, a ≤ c → c < b → bit bitmap c = false

variable {a b c fuel before : ℕ} {start : Option ℕ}

section Searches

variable {bitmap : List UInt8} {limit : ℕ}

theorem FreeRange.extend (h : FreeRange bitmap a b) (h' : FreeRange bitmap b c) :
    FreeRange bitmap a c := fun d ha hc ↦
  if hb : d < b then h d ha hb else h' d (not_lt.1 hb) hc

theorem FreeRange.mono {a' b' : ℕ} (h : FreeRange bitmap a b) (ha : a ≤ a') (hb : b' ≤ b) :
    FreeRange bitmap a' b' := fun d h₁ h₂ ↦ h d (ha.trans h₁) (h₂.trans_le hb)

theorem FreeRange.single (h : bit bitmap c = false) : FreeRange bitmap c (c + 1) :=
  fun d h₁ h₂ ↦ by rwa [show d = c by omega]

/-- A byte of the fast path decides eight clusters. -/
theorem bit_of_wholeByte {v : Bool} (h : wholeByte bitmap limit c = some (fillByte v)) :
    c + 8 ≤ limit ∧ ∀ d, c ≤ d → d < c + 8 → bit bitmap d = v := by
  rw [wholeByte] at h
  split_ifs at h with hbyte
  obtain ⟨halign, hle⟩ := hbyte
  refine ⟨hle, fun d h₁ h₂ ↦ ?_⟩
  rw [bit, bitAt, show d / 8 = c / 8 by omega, Option.some.inj h]
  exact byteBit_fillByte v (Nat.mod_lt _ (by decide))

theorem freeRange_of_wholeByte (h : wholeByte bitmap limit c = some 0x00) :
    c + 8 ≤ limit ∧ FreeRange bitmap c (c + 8) :=
  bit_of_wholeByte (v := false) h

/-- An open run of the free-run search: it is free up to the current cluster. -/
def OpenRun (bitmap : List UInt8) (start : Option ℕ) (cluster : ℕ) : Prop :=
  ∀ s ∈ start, s < cluster ∧ FreeRange bitmap s cluster

/-- A run that a search may return. -/
def FreeRun (bitmap : List UInt8) (limit : ℕ) (r : Run) : Prop :=
  ∃ lcn, r.lcn = some lcn ∧ 0 < r.length ∧ lcn + r.length ≤ limit ∧
    FreeRange bitmap lcn (lcn + r.length)

theorem OpenRun.none : OpenRun bitmap none c := fun _ h ↦ by cases h

theorem OpenRun.extend {c' : ℕ} (h : OpenRun bitmap start c) (hlt : c < c')
    (hfree : FreeRange bitmap c c') : OpenRun bitmap (start.or (some c)) c' := by
  intro s hs
  cases start with
  | none =>
    obtain rfl : c = s := by simpa using hs
    exact ⟨hlt, hfree⟩
  | some s' =>
    obtain rfl : s' = s := by simpa using hs
    obtain ⟨hs', hopen⟩ := h s' rfl
    exact ⟨hs'.trans hlt, hopen.extend hfree⟩

theorem OpenRun.closeRun (h : OpenRun bitmap start c) (hc : c ≤ limit) :
    ∀ r ∈ closeRun start c, FreeRun bitmap limit r := by
  intro r hr
  cases start with
  | none => exact absurd hr not_mem_nil
  | some s =>
    obtain rfl := mem_singleton.1 hr
    obtain ⟨hlt, hfree⟩ := h s rfl
    exact ⟨s, rfl, Nat.sub_pos_of_lt hlt, by simp only; omega,
      hfree.mono le_rfl (by simp only; omega)⟩

theorem freeRunsFrom_free (hc : c ≤ limit) (hfuel : limit ≤ fuel + c)
    (hopen : OpenRun bitmap start c) :
    ∀ r ∈ freeRunsFrom bitmap limit fuel c start, FreeRun bitmap limit r := by
  induction fuel generalizing c start with
  | zero =>
    obtain rfl : c = limit := by omega
    exact hopen.closeRun le_rfl
  | succ fuel ih =>
    rw [freeRunsFrom]
    split_ifs with hlt hzero hfull hbit
    · obtain ⟨hle, hfree⟩ := freeRange_of_wholeByte hzero
      exact ih hle (by omega) (hopen.extend (by omega) hfree)
    · obtain ⟨hle, -⟩ := bit_of_wholeByte (v := true) hfull
      intro r hr
      rcases mem_append.1 hr with hr | hr
      · exact hopen.closeRun hc r hr
      · exact ih hle (by omega) OpenRun.none r hr
    · intro r hr
      rcases mem_append.1 hr with hr | hr
      · exact hopen.closeRun hc r hr
      · exact ih hlt (by omega) OpenRun.none r hr
    · refine ih hlt (by omega) (hopen.extend (by omega) ?_)
      exact FreeRange.single (Bool.eq_false_of_not_eq_true hbit)
    · obtain rfl : c = limit := by omega
      exact hopen.closeRun le_rfl

/-- **Every run that `_free_runs_before` returns is free and below the bound.** -/
theorem freeRunsBefore_free :
    ∀ r ∈ freeRunsBefore bitmap before, FreeRun bitmap (min before (bitmap.length * 8)) r :=
  freeRunsFrom_free (Nat.zero_le _) le_rfl OpenRun.none

/-- **What `_find_free_run` finds.** -/
theorem findFreeRun_eq_some {length start : ℕ} (h : findFreeRun bitmap length before = some start) :
    0 < length ∧
      start + length ≤ min before (bitmap.length * 8) ∧
      FreeRange bitmap start (start + length) := by
  rw [findFreeRun] at h
  split_ifs at h with hzero
  obtain ⟨r, hfind, hlcn⟩ := Option.bind_eq_some_iff.1 h
  obtain ⟨lcn, hl, -, hle, hfree⟩ := freeRunsBefore_free r (mem_of_find?_eq_some hfind)
  obtain rfl : lcn = start := Option.some.inj (hl.symm.trans hlcn)
  have hlen : length ≤ r.length := by simpa using find?_some hfind
  exact ⟨Nat.pos_of_ne_zero hzero, by omega, hfree.mono le_rfl (by omega)⟩

/-- The run covers the clusters from `a` up to `b`. -/
def Run.Covers (r : Run) (a b : ℕ) : Prop := ∃ lcn, r.lcn = some lcn ∧ lcn ≤ a ∧ b ≤ lcn + r.length

theorem covers_of_mem_closeRun {s : ℕ} (hs : s ≤ a) (hab : a < b) (hc : b ≤ c) :
    ∃ r ∈ closeRun (some s) c, r.Covers a b :=
  ⟨⟨some s, c - s⟩, mem_singleton_self _, s, rfl, hs, by dsimp only; omega⟩

/-- The loop does not miss a free range that is still ahead, or that the open run has reached. -/
theorem freeRunsFrom_covers (hc : c ≤ limit) (hfuel : limit ≤ fuel + c) (hab : a < b)
    (hb : b ≤ limit) (hfree : FreeRange bitmap a b) (hle : ∀ s ∈ start, s ≤ c)
    (hstart : c ≤ a ∨ ∃ s, start = some s ∧ s ≤ a) :
    ∃ r ∈ freeRunsFrom bitmap limit fuel c start, r.Covers a b := by
  induction fuel generalizing c start with
  | zero =>
    obtain rfl : c = limit := by omega
    obtain ⟨s, rfl, hs⟩ := hstart.resolve_left (by omega)
    exact covers_of_mem_closeRun hs hab hb
  | succ fuel ih =>
    -- over free clusters the run stays open
    have hkeep : ∀ c' > c, c' ≤ limit →
        ∃ r ∈ freeRunsFrom bitmap limit fuel c' (start.or (some c)), r.Covers a b := by
      intro c' hc' hlimit
      cases start with
      | none =>
        refine ih hlimit (by omega) (fun s hs ↦ (Option.some.inj hs) ▸ hc'.le) ?_
        rcases hstart with hca | ⟨s, hs, -⟩
        · exact .inr ⟨c, rfl, hca⟩
        · cases hs
      | some s =>
        refine ih hlimit (by omega) (fun s' hs' ↦ (hle s' hs').trans hc'.le) (.inr ⟨s, rfl, ?_⟩)
        rcases hstart with hca | ⟨s', hs', hsa⟩
        · exact (hle s rfl).trans hca
        · rwa [Option.some.inj hs']
    -- over set bits the range is still ahead, or the open run has passed all of it
    have hclose : ∀ c' > c, c' ≤ limit → (∀ d, c ≤ d → d < c' → bit bitmap d = true) →
        ∃ r ∈ closeRun start c ++ freeRunsFrom bitmap limit fuel c' none, r.Covers a b := by
      intro c' hc' hlimit hset
      have hout : ∀ d, c ≤ d → d < c' → d < a ∨ b ≤ d := fun d h₁ h₂ ↦ by
        by_contra hin
        push Not at hin
        exact absurd ((hfree d hin.1 hin.2).symm.trans (hset d h₁ h₂)) Bool.false_ne_true
      have hahead : c ≤ a →
          ∃ r ∈ closeRun start c ++ freeRunsFrom bitmap limit fuel c' none, r.Covers a b := by
        intro hca
        have hca' : c' ≤ a := by
          by_contra hlt
          have := hout a hca (by omega)
          omega
        obtain ⟨r, hr, hcovers⟩ :=
          @ih c' none hlimit (by omega) (fun s hs ↦ by cases hs) (.inl hca')
        exact ⟨r, mem_append_right _ hr, hcovers⟩
      rcases hstart with hca | ⟨s, rfl, hs⟩
      · exact hahead hca
      · rcases hout c le_rfl hc' with hca | hbc
        · exact hahead hca.le
        · obtain ⟨r, hr, hcovers⟩ := covers_of_mem_closeRun hs hab hbc
          exact ⟨r, mem_append_left _ hr, hcovers⟩
    rw [freeRunsFrom]
    split_ifs with hlt hzero hfull hbit
    · exact hkeep (c + 8) (by omega) (freeRange_of_wholeByte hzero).1
    · obtain ⟨hle', hset⟩ := bit_of_wholeByte (v := true) hfull
      exact hclose (c + 8) (by omega) hle' hset
    · exact hclose (c + 1) (by omega) hlt fun d h₁ h₂ ↦ by rwa [show d = c by omega]
    · exact hkeep (c + 1) (by omega) hlt
    · obtain rfl : c = limit := by omega
      obtain ⟨s, rfl, hs⟩ := hstart.resolve_left (by omega)
      exact covers_of_mem_closeRun hs hab hb

/-- **A free range is found**: if there is one of the length below the bound, `_find_free_run`
returns a cluster. -/
theorem findFreeRun_isSome {length : ℕ} (hpos : 0 < length)
    (hle : a + length ≤ min before (bitmap.length * 8)) (hfree : FreeRange bitmap a (a + length)) :
    ∃ start, findFreeRun bitmap length before = some start := by
  obtain ⟨r, hr, lcn, hlcn, hlow, hhigh⟩ := freeRunsFrom_covers (Nat.zero_le _) le_rfl
    (show a < a + length by omega) hle hfree (show ∀ s ∈ none, s ≤ 0 from nofun)
      (.inl (Nat.zero_le a))
  have hfind : ((freeRunsBefore bitmap before).find? fun r ↦ length ≤ r.length).isSome := by
    rw [find?_isSome]
    exact ⟨r, hr, decide_eq_true (by omega)⟩
  obtain ⟨found, hfound⟩ := Option.isSome_iff_exists.1 hfind
  obtain ⟨start, hstart, -⟩ := freeRunsBefore_free found (mem_of_find?_eq_some hfound)
  exact ⟨start, by rw [findFreeRun, if_neg hpos.ne', hfound, Option.bind_some, hstart]⟩

theorem skipUsed_ge : c ≤ skipUsed bitmap limit fuel c := by
  induction fuel generalizing c with
  | zero => exact le_rfl
  | succ fuel ih =>
    rw [skipUsed]
    split_ifs
    · exact (Nat.le_add_right _ _).trans ih
    · exact le_rfl
    · exact (Nat.le_add_right _ _).trans ih
    · exact le_rfl
    · exact le_rfl

/-- The first loop stops at a free cluster, or at the limit. -/
theorem skipUsed_free (hfuel : limit ≤ fuel + c) (hlt : skipUsed bitmap limit fuel c < limit) :
    bit bitmap (skipUsed bitmap limit fuel c) = false := by
  induction fuel generalizing c with
  | zero =>
    rw [skipUsed] at hlt
    omega
  | succ fuel ih =>
    rw [skipUsed] at hlt ⊢
    split_ifs at hlt ⊢ with hc hfull hzero hbit
    · exact ih (by omega) hlt
    · exact (freeRange_of_wholeByte hzero).2 c le_rfl (by omega)
    · exact ih (by omega) hlt
    · exact Bool.eq_false_of_not_eq_true hbit
    · exact absurd hlt hc

/-- The second loop passes only free clusters and stays below the limit. -/
theorem skipFree_spec (bitmap : List UInt8) (fuel : ℕ) (hc : c ≤ limit) :
    c ≤ skipFree bitmap limit fuel c ∧ skipFree bitmap limit fuel c ≤ limit ∧
      FreeRange bitmap c (skipFree bitmap limit fuel c) := by
  induction fuel generalizing c with
  | zero => exact ⟨le_rfl, hc, fun d h₁ h₂ ↦ absurd h₂ (not_lt.2 h₁)⟩
  | succ fuel ih =>
    rw [skipFree]
    split_ifs with hlt hzero hfull hbit
    · obtain ⟨hle, hfree⟩ := freeRange_of_wholeByte hzero
      obtain ⟨h₁, h₂, h₃⟩ := ih hle
      exact ⟨by omega, h₂, hfree.extend h₃⟩
    · exact ⟨le_rfl, hc, fun d h₁ h₂ ↦ absurd h₂ (not_lt.2 h₁)⟩
    · exact ⟨le_rfl, hc, fun d h₁ h₂ ↦ absurd h₂ (not_lt.2 h₁)⟩
    · obtain ⟨h₁, h₂, h₃⟩ := ih (c := c + 1) hlt
      exact ⟨by omega, h₂, (FreeRange.single (Bool.eq_false_of_not_eq_true hbit)).extend h₃⟩
    · exact ⟨le_rfl, hc, fun d h₁ h₂ ↦ absurd h₂ (not_lt.2 h₁)⟩

/-- The second loop passes the free cluster it starts at. -/
theorem skipFree_gt (hc : c < limit) (hfree : bit bitmap c = false) :
    c < skipFree bitmap limit (fuel + 1) c := by
  rw [skipFree, if_pos hc]
  split_ifs with hzero hfull hbit
  · have := (skipFree_spec bitmap fuel (freeRange_of_wholeByte hzero).1).1
    omega
  · have := (bit_of_wholeByte (v := true) hfull).2 c le_rfl (by omega)
    exact absurd (hfree.symm.trans this) Bool.false_ne_true
  · exact absurd (hfree.symm.trans hbit) Bool.false_ne_true
  · exact (skipFree_spec bitmap fuel hc).1

/-- **What `_next_free_run` finds.** -/
theorem nextFreeRun_eq_some {start : ℕ} {r : Run} (h : nextFreeRun bitmap start before = some r) :
    FreeRun bitmap (min before (bitmap.length * 8)) r ∧ ∀ lcn ∈ r.lcn, start ≤ lcn := by
  rw [nextFreeRun] at h
  set limit := min before (bitmap.length * 8)
  split_ifs at h with hge
  obtain rfl := Option.some.inj h
  have hlt : skipUsed bitmap limit limit start < limit := by omega
  have hfree := skipUsed_free (Nat.le_add_right _ _) hlt
  obtain ⟨n, hn⟩ : ∃ n, limit = n + 1 := ⟨limit - 1, by omega⟩
  have hpos : skipUsed bitmap limit limit start <
      skipFree bitmap limit limit (skipUsed bitmap limit limit start) := by
    conv_rhs => rw [show skipFree bitmap limit limit = skipFree bitmap limit (n + 1) by rw [← hn]]
    exact skipFree_gt hlt hfree
  obtain ⟨h₁, h₂, h₃⟩ := skipFree_spec bitmap limit hlt.le
  refine ⟨⟨_, rfl, Nat.sub_pos_of_lt hpos, by simp only; omega, ?_⟩, ?_⟩
  · exact h₃.mono le_rfl (by simp only; omega)
  · intro lcn hlcn
    obtain rfl := Option.some.inj hlcn
    exact skipUsed_ge

end Searches

/-! ### The high-water mark -/

section HighWater

variable {bitmap : List UInt8}

/-- `high` is one past the highest allocated cluster below `before`. -/
structure HighWater (bitmap : List UInt8) (before high : ℕ) : Prop where
  le : high ≤ before
  used : high ≠ 0 → bit bitmap (high - 1) = true
  free : FreeRange bitmap high before

theorem HighWater.zero (bitmap : List UInt8) : HighWater bitmap 0 0 :=
  ⟨le_rfl, fun h ↦ absurd rfl h, fun c h₁ h₂ ↦ absurd h₂ (by omega)⟩

theorem HighWater.succ {n high : ℕ} (h : HighWater bitmap n high) :
    HighWater bitmap (n + 1) (if bit bitmap n = true then n + 1 else high) := by
  split_ifs with hbit
  · exact ⟨le_rfl, fun _ ↦ hbit, fun c h₁ h₂ ↦ absurd h₂ (by omega)⟩
  · refine ⟨h.le.trans (by omega), h.used, h.free.extend (FreeRange.single ?_)⟩
    exact Bool.eq_false_of_not_eq_true hbit

theorem highestUsedInBytes_spec (bitmap : List UInt8) (n : ℕ) :
    HighWater bitmap (n * 8) (highestUsedInBytes bitmap n) := by
  induction n with
  | zero => exact .zero bitmap
  | succ n ih =>
    rw [highestUsedInBytes]
    split_ifs with hbyte
    · -- the highest bit of the byte
      obtain ⟨hset, hlt, habove⟩ := byteBit_log2 hbyte
      generalize Nat.log2 (bitmap.getD n 0).toNat = k at hset hlt habove ⊢
      refine ⟨by omega, fun _ ↦ ?_, fun c h₁ h₂ ↦ ?_⟩
      · rw [bit, bitAt, show (n * 8 + (k + 1) - 1) / 8 = n by omega,
          show (n * 8 + (k + 1) - 1) % 8 = k by omega, hset]
      · rw [bit, bitAt, show c / 8 = n by omega]
        exact habove _ (by omega)
    · refine ⟨ih.le.trans (by omega), ih.used, ih.free.extend fun c h₁ h₂ ↦ ?_⟩
      rw [bit, bitAt, show c / 8 = n by omega, not_not.1 hbyte, byteBit_zero]

theorem highestUsedFrom_spec (n : ℕ) : HighWater bitmap n (highestUsedFrom bitmap n) := by
  induction n with
  | zero => exact .zero bitmap
  | succ n ih =>
    rw [highestUsedFrom]
    split
    · exact ih.succ
    · have hspec := highestUsedInBytes_spec bitmap ((n + 1) / 8)
      rwa [show (n + 1) / 8 * 8 = n + 1 by omega] at hspec

/-- **`_highest_used_before` finds the high-water mark.** -/
theorem highestUsedBefore_spec (bitmap : List UInt8) (before : ℕ) :
    HighWater bitmap (min before (bitmap.length * 8)) (highestUsedBefore bitmap before) :=
  highestUsedFrom_spec _

end HighWater

/-! ### Changing a range -/

section SetRange

variable {bitmap bitmap' : List UInt8} {value : Bool}

/-- `bitmap'` is `bitmap` with the clusters from `a` up to `b` set to `value`. -/
structure RangeSet (value : Bool) (a b : ℕ) (bitmap bitmap' : List UInt8) : Prop where
  length : bitmap'.length = bitmap.length
  bit : ∀ c, bit bitmap' c = if a ≤ c ∧ c < b then value else bit bitmap c

theorem RangeSet.refl (value : Bool) (bitmap : List UInt8) (a : ℕ) :
    RangeSet value a a bitmap bitmap :=
  ⟨rfl, fun c ↦ by rw [if_neg (by omega)]⟩

theorem RangeSet.trans {bitmap'' : List UInt8} (h : RangeSet value a b bitmap bitmap')
    (h' : RangeSet value b c bitmap' bitmap'') (hab : a ≤ b) (hbc : b ≤ c) :
    RangeSet value a c bitmap bitmap'' := by
  refine ⟨h'.length.trans h.length, fun d ↦ ?_⟩
  rw [h'.bit, h.bit]
  by_cases hlow : d < b
  · rw [if_neg (by omega)]
    exact if_congr (by omega) rfl rfl
  · by_cases hin : d < c
    · rw [if_pos (by omega), if_pos (by omega)]
    · rw [if_neg (by omega), if_neg (by omega), if_neg (by omega)]

theorem setBit_eq_ok (value : Bool) (hc : c < bitmap.length * 8) :
    ∃ bitmap', setBit bitmap c value = .ok bitmap' ∧ RangeSet value c (c + 1) bitmap bitmap' := by
  rw [setBit, if_pos (by omega)]
  refine ⟨_, rfl, length_setBitAt .., fun d ↦ ?_⟩
  rw [bit, bitAt_setBitAt (by omega)]
  exact if_congr (by omega) rfl rfl

theorem setBits_eq_ok (value : Bool) (count start : ℕ) (h : start + count ≤ bitmap.length * 8) :
    ∃ bitmap', setBits value count start bitmap = .ok bitmap' ∧
      RangeSet value start (start + count) bitmap bitmap' := by
  induction count generalizing start bitmap with
  | zero => exact ⟨bitmap, rfl, RangeSet.refl _ _ _⟩
  | succ count ih =>
    obtain ⟨bm₁, h₁, hset₁⟩ := setBit_eq_ok value (show start < bitmap.length * 8 by omega)
    obtain ⟨bm₂, h₂, hset₂⟩ := ih (start + 1) (show _ ≤ bm₁.length * 8 by rw [hset₁.length]; omega)
    refine ⟨bm₂, by rw [setBits, h₁]; exact h₂, ?_⟩
    have := hset₁.trans hset₂ (by omega) (by omega)
    rwa [show start + 1 + count = start + (count + 1) by omega] at this

theorem setUntilAligned_eq_ok (value : Bool) (count start : ℕ)
    (h : start + count ≤ bitmap.length * 8) :
    ∃ reached bitmap', setUntilAligned value count start bitmap = .ok (reached, bitmap') ∧
      start ≤ reached ∧ reached ≤ start + count ∧ (reached % 8 = 0 ∨ reached = start + count) ∧
      RangeSet value start reached bitmap bitmap' := by
  induction count generalizing start bitmap with
  | zero => exact ⟨start, bitmap, rfl, le_rfl, le_rfl, .inr rfl, RangeSet.refl _ _ _⟩
  | succ count ih =>
    rw [setUntilAligned]
    split_ifs with halign
    · obtain ⟨bm₁, h₁, hset₁⟩ := setBit_eq_ok value (show start < bitmap.length * 8 by omega)
      obtain ⟨reached, bm₂, h₂, hge, hle, hstop, hset₂⟩ :=
        ih (start + 1) (show _ ≤ bm₁.length * 8 by rw [hset₁.length]; omega)
      refine ⟨reached, bm₂, by rw [h₁]; exact h₂, by omega, by omega, by omega, ?_⟩
      exact hset₁.trans hset₂ (by omega) hge
    · exact ⟨start, bitmap, rfl, le_rfl, by omega, .inl (not_not.1 halign), RangeSet.refl _ _ _⟩

/-- **`_set_range` changes the range and nothing else.** -/
theorem setRange_eq_ok (value : Bool) {start length : ℕ} (h : start + length ≤ bitmap.length * 8) :
    ∃ bitmap', setRange bitmap start length value = .ok bitmap' ∧
      RangeSet value start (start + length) bitmap bitmap' := by
  obtain ⟨reached, bm₁, h₁, hge, hle, hstop, hset₁⟩ := setUntilAligned_eq_ok value length start h
  rw [setRange, h₁, ok_bind]
  dsimp only
  split_ifs with hbytes
  · -- the byte-wide part starts where the first loop stopped
    have halign : reached % 8 = 0 := by omega
    set byteEnd := (start + length) / 8
    set bm₂ := putSlice bm₁ (reached / 8) byteEnd
      (replicate (byteEnd - reached / 8) (fillByte value)) with hbm₂
    have hset₂ : RangeSet value reached (byteEnd * 8) bm₁ bm₂ := by
      refine ⟨?_, fun c ↦ ?_⟩
      · simp only [hbm₂, putSlice, length_append, length_take, length_drop,
          length_replicate, hset₁.length]
        omega
      · rw [hbm₂, putSlice, Nat.max_eq_right hbytes.le, bit,
          bitAt_fill hbytes.le (by rw [hset₁.length]; omega)]
        exact if_congr (by omega) rfl rfl
    obtain ⟨bm₃, h₃, hset₃⟩ := setBits_eq_ok value (start + length - byteEnd * 8)
      (byteEnd * 8) (show _ ≤ bm₂.length * 8 by rw [hset₂.length, hset₁.length]; omega)
    refine ⟨bm₃, h₃, ?_⟩
    have := (hset₁.trans hset₂ hge (by omega)).trans hset₃ (by omega) (by omega)
    rwa [show byteEnd * 8 + (start + length - byteEnd * 8) = start + length by omega] at this
  · obtain ⟨bm₂, h₂, hset₂⟩ := setBits_eq_ok value (start + length - reached) reached
      (show _ ≤ bm₁.length * 8 by rw [hset₁.length]; omega)
    refine ⟨bm₂, h₂, ?_⟩
    have := hset₁.trans hset₂ hge (by omega)
    rwa [show reached + (start + length - reached) = start + length by omega] at this

end SetRange

end LinuxDefragger.Ntfs
