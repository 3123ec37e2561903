import LinuxDefragger.Ntfs.Volume

/-!
# Reading and writing streams

`readStream` and `writeStream` go through the run list of a stream. Here they are described by the
addresses of the bytes of the stream (`IsAddrs`).
-/

open Except List Storage

namespace LinuxDefragger.Ntfs

/-! ### Addresses of a range -/

/-- The bytes from `offset` on of a stream lie at `addrs`, one after the other. -/
def IsAddrs (clusterSize : ℕ) (runs : List Run) (offset length : ℕ) (addrs : List ℕ) : Prop :=
  addrs.map some = (List.range' offset length).map (byteAddr clusterSize runs)

/-- The addresses that physical segments cover, in order. -/
def segmentAddrs (segments : List (ℕ × ℕ)) : List ℕ :=
  segments.flatMap fun (physical, take) ↦ List.range' physical take

variable {segments : List (ℕ × ℕ)}

section Addrs

variable {cs off n : ℕ} {run : Run} {runs : List Run} {addrs : List ℕ}

section

variable (h : IsAddrs cs runs off n addrs)
include h

theorem IsAddrs.length : addrs.length = n := by
  simpa using congrArg List.length h

theorem IsAddrs.get {k : ℕ} (hk : k < n) : byteAddr cs runs (off + k) = some (addrs.getD k 0) := by
  have hlen : k < addrs.length := h.length ▸ hk
  have hget := congrArg (fun l : List (Option ℕ) ↦ l[k]?) h
  simp only [getElem?_map, getElem?_range' hk, getElem?_eq_getElem hlen,
    Option.map_some, Nat.one_mul] at hget
  rw [getD_eq_getElem?_getD, getElem?_eq_getElem hlen, Option.getD_some, ← Option.some.inj hget]

/-- The addresses of a range are determined. -/
theorem IsAddrs.unique {addrs' : List ℕ} (h' : IsAddrs cs runs off n addrs') : addrs = addrs' :=
  map_injective_iff.2 (Option.some_injective ℕ) (h.trans h'.symm)

/-- The part of a range. -/
theorem IsAddrs.slice {a b : ℕ} (hb : a + b ≤ n) :
    IsAddrs cs runs (off + a) b ((addrs.drop a).take b) := by
  rw [IsAddrs, map_take, map_drop, h, ← map_drop, ← map_take]
  congr 1
  have hsplit : range' off n = range' off a ++ range' (off + a) b ++
      range' (off + a + b) (n - a - b) := by
    rw [range'_append_1, Nat.add_assoc off, range'_append_1]
    congr 1
    omega
  rw [hsplit, append_assoc, drop_left' length_range', take_left' length_range']

end

theorem byteAddr_shift (run : Run) (runs : List Run) (k : ℕ) :
    byteAddr cs (run :: runs) (run.length * cs + k) = byteAddr cs runs k := by
  rw [byteAddr, if_neg (by omega), Nat.add_sub_cancel_left]

theorem map_byteAddr_shift (run : Run) (runs : List Run) (k n : ℕ) :
    (range' (run.length * cs + k) n).map (byteAddr cs (run :: runs)) =
      (range' k n).map (byteAddr cs runs) := by
  rw [← map_add_range', map_map]
  exact map_congr_left fun i _ ↦ byteAddr_shift run runs i

theorem map_byteAddr_head {lcn k n : ℕ} (hlcn : run.lcn = some lcn)
    (hle : k + n ≤ run.length * cs) :
    (range' k n).map (byteAddr cs (run :: runs)) = (range' (lcn * cs + k) n).map some := by
  rw [← map_add_range', map_map]
  refine map_congr_left fun i hi ↦ ?_
  obtain ⟨-, hhigh⟩ := mem_range'_1.1 hi
  rw [byteAddr, if_pos (by omega), hlcn]
  rfl

/-- **The segments of a range cover its addresses.** -/
theorem segmentsFrom_addrs {cursor remaining wanted : ℕ} (hcursor : cursor ≤ wanted)
    (h : segmentsFrom cs runs cursor remaining wanted = .ok segments) :
    IsAddrs cs runs (wanted - cursor) remaining (segmentAddrs segments) := by
  induction runs generalizing cursor remaining wanted segments with
  | nil =>
    rw [segmentsFrom] at h
    split_ifs at h with hrem
    obtain rfl := ok.inj h
    rw [not_not.1 hrem]
    rfl
  | cons run runs ih =>
    rw [segmentsFrom] at h
    dsimp only at h
    by_cases hskip : wanted ≥ cursor + run.length * cs
    · rw [if_pos hskip] at h
      have hrest := ih hskip h
      rw [IsAddrs] at hrest ⊢
      rw [hrest, ← map_byteAddr_shift run runs,
        show run.length * cs + (wanted - (cursor + run.length * cs)) = wanted - cursor by omega]
    · rw [if_neg hskip] at h
      cases hlcn : run.lcn with
      | none =>
        rw [hlcn] at h
        cases h
      | some lcn =>
        rw [hlcn] at h
        dsimp only at h
        set take := min remaining (run.length * cs - (wanted - cursor)) with htake
        split_ifs at h with hlast
        · obtain rfl := ok.inj h
          have htaken : take = remaining := by omega
          rw [IsAddrs, map_byteAddr_head hlcn (by omega), htaken]
          simp [segmentAddrs]
        · obtain ⟨tail, htail, h⟩ := bind_eq_ok.1 h
          obtain rfl := ok.inj h
          have hrest := ih (by omega) htail
          rw [show wanted + take - (cursor + run.length * cs) = 0 by omega, IsAddrs] at hrest
          have hsplit : range' (wanted - cursor) remaining = range' (wanted - cursor) take ++
                range' (run.length * cs + 0) (remaining - take) := by
            rw [show run.length * cs + 0 = wanted - cursor + take by omega, range'_append_1]
            congr 1
            omega
          rw [IsAddrs, hsplit, map_append, map_byteAddr_shift, ← hrest,
            map_byteAddr_head hlcn (by omega), ← map_append]
          simp [segmentAddrs]

/-- A stored range has segments. -/
theorem segmentsFrom_eq_ok {cursor remaining wanted : ℕ} (hcursor : cursor ≤ wanted)
    (hpos : 0 < remaining) (haddrs : IsAddrs cs runs (wanted - cursor) remaining addrs) :
    ∃ segments, segmentsFrom cs runs cursor remaining wanted = .ok segments := by
  induction runs generalizing cursor remaining wanted addrs with
  | nil => exact absurd (haddrs.get hpos) (by simp [byteAddr])
  | cons run runs ih =>
    rw [segmentsFrom]
    dsimp only
    by_cases hskip : wanted ≥ cursor + run.length * cs
    · rw [if_pos hskip]
      refine ih hskip hpos (?_ : IsAddrs _ _ _ _ addrs)
      rw [IsAddrs] at haddrs ⊢
      rw [haddrs, ← map_byteAddr_shift run runs (wanted - (cursor + run.length * cs)),
        show run.length * cs + (wanted - (cursor + run.length * cs)) = wanted - cursor by omega]
    · rw [if_neg hskip]
      have hfirst := haddrs.get hpos
      rw [byteAddr, if_pos (by omega)] at hfirst
      cases hlcn : run.lcn with
      | none =>
        rw [hlcn] at hfirst
        cases hfirst
      | some lcn =>
        dsimp only
        set take := min remaining (run.length * cs - (wanted - cursor)) with htake
        split_ifs with hlast
        · exact ⟨_, rfl⟩
        · have hrest := haddrs.slice (a := take) (b := remaining - take) (by omega)
          rw [show wanted - cursor + take = run.length * cs + 0 by omega, IsAddrs,
            map_byteAddr_shift,
            show 0 = wanted + take - (cursor + run.length * cs) by omega] at hrest
          obtain ⟨tail, htail⟩ := ih (by omega) (by omega) hrest
          rw [htail]
          exact ⟨_, rfl⟩

theorem streamSegments_addrs (h : streamSegments runs cs off n = .ok segments) :
    IsAddrs cs runs off n (segmentAddrs segments) :=
  segmentsFrom_addrs (Nat.zero_le _) h

theorem streamSegments_eq_ok (hpos : 0 < n) (haddrs : IsAddrs cs runs off n addrs) :
    ∃ segments, streamSegments runs cs off n = .ok segments ∧ segmentAddrs segments = addrs := by
  obtain ⟨segments, h⟩ := segmentsFrom_eq_ok (Nat.zero_le off) hpos haddrs
  exact ⟨segments, h, (streamSegments_addrs h).unique haddrs⟩

end Addrs

/-! ### Reading -/

variable {data : List UInt8}

section Read

variable {J : Type} {disk : Disk J} {volume : Volume} {runs : List Run} {off n : ℕ}
  {raw : List UInt8} {addrs : List ℕ}

theorem preadExact_eq_ok {p t : ℕ} : preadExact disk t p = .ok data ↔
      (∀ a ∈ range' p t, a < disk.size) ∧ data = (range' p t).map disk.image := by
  have hlen : (disk.pread t p).length = t ↔ ∀ a ∈ range' p t, a < disk.size := by
    rw [Disk.pread_length]
    constructor
    · intro h a ha
      obtain ⟨hlow, hhigh⟩ := mem_range'_1.1 ha
      omega
    · intro h
      rcases Nat.eq_zero_or_pos t with rfl | hpos
      · exact Nat.zero_min _
      · have := h (p + t - 1) (mem_range'_1.2 (by omega))
        omega
  rw [← hlen]
  constructor
  · intro h
    rw [preadExact] at h
    split_ifs at h with hread
    rw [not_not] at hread
    refine ⟨hread, ?_⟩
    rw [← ok.inj h, ← Image.read_eq_map_range', Disk.pread, ← Disk.pread_length, hread]
  · rintro ⟨hread, rfl⟩
    rw [preadExact, if_neg (not_not.2 hread), ← Image.read_eq_map_range', Disk.pread,
      ← Disk.pread_length,
      hread]
    rfl

theorem pieces_eq {pieces : List (List UInt8)}
    (h : Forall₂ (fun s piece ↦ preadExact disk s.2 s.1 = .ok piece) segments pieces) :
    (∀ a ∈ segmentAddrs segments, a < disk.size) ∧
      pieces.flatten = (segmentAddrs segments).map disk.image := by
  induction h with
  | nil => exact ⟨fun a ha ↦ absurd ha not_mem_nil, rfl⟩
  | cons hpiece _ ih =>
    obtain ⟨hsize, rfl⟩ := preadExact_eq_ok.1 hpiece
    obtain ⟨hrest, htail⟩ := ih
    refine ⟨fun a ha ↦ ?_, ?_⟩
    · rcases mem_append.1 ha with hfirst | hlater
      · exact hsize a hfirst
      · exact hrest a hlater
    · rw [flatten_cons, htail]
      simp [segmentAddrs]

/-- **What a read of a stream returns.** -/
theorem readStream_eq_ok (h : readStream disk volume runs off n = .ok raw) :
    ∃ addrs, IsAddrs volume.clusterSize runs off n addrs ∧ (∀ a ∈ addrs, a < disk.size) ∧
      raw = addrs.map disk.image := by
  rw [readStream] at h
  obtain ⟨segments, hsegments, h⟩ := bind_eq_ok.1 h
  obtain ⟨pieces, hpieces, h⟩ := bind_eq_ok.1 h
  obtain rfl := ok.inj h
  refine ⟨segmentAddrs segments, streamSegments_addrs hsegments, ?_⟩
  exact pieces_eq (mapM_eq_ok.1 hpieces)

/-- A stored range can be read. -/
theorem readStream_of_addrs (hpos : 0 < n) (haddrs : IsAddrs volume.clusterSize runs off n addrs)
    (hsize : ∀ a ∈ addrs, a < disk.size) :
    readStream disk volume runs off n = .ok (addrs.map disk.image) := by
  obtain ⟨segments, hsegments, rfl⟩ := streamSegments_eq_ok hpos haddrs
  rw [readStream, hsegments, ok_bind]
  have hpieces : segments.mapM (fun (physical, take) ↦ preadExact disk take physical) =
      .ok (segments.map fun (physical, take) ↦ (range' physical take).map disk.image) := by
    rw [mapM_eq_ok, forall₂_map_right_iff, forall₂_same]
    intro segment hsegment
    exact preadExact_eq_ok.2 ⟨fun a ha ↦ hsize a (mem_flatMap.2 ⟨segment, hsegment, ha⟩), rfl⟩
  rw [hpieces]
  simp only [ok_bind, pure_eq_ok, segmentAddrs, map_flatMap]
  rw [flatMap_def]

/-- Reading a part of a range that can be read. -/
theorem readStream_slice (h : readStream disk volume runs off n = .ok raw) {a b : ℕ} (hpos : 0 < b)
    (hle : a + b ≤ n) :
    readStream disk volume runs (off + a) b = .ok (slice raw a (a + b)) := by
  obtain ⟨addrs, haddrs, hsize, rfl⟩ := readStream_eq_ok h
  have hpart : ∀ x ∈ (addrs.drop a).take b, x ∈ addrs := fun x hx ↦
    mem_of_mem_drop (mem_of_mem_take hx)
  rw [readStream_of_addrs hpos (haddrs.slice hle) fun x hx ↦ hsize x (hpart x hx)]
  rw [slice, ← map_take, ← map_drop, drop_take, Nat.add_sub_cancel_left]

theorem length_of_readStream (h : readStream disk volume runs off n = .ok raw) :
    raw.length = n := by
  obtain ⟨addrs, haddrs, -, rfl⟩ := readStream_eq_ok h
  rw [length_map, haddrs.length]

/-- A record is read as a range of the MFT. -/
theorem readMftRecord_eq_ok {number offset : ℕ} {fixed : List UInt8}
    (h : readMftRecord disk volume runs number = .ok (offset, raw, fixed)) :
    readStream disk volume runs (number * volume.mftRecordSize) volume.mftRecordSize = .ok raw ∧
      applyFixups raw volume.bytesPerSector = .ok fixed := by
  rw [readMftRecord] at h
  obtain ⟨raw', hraw, h⟩ := bind_eq_ok.1 h
  obtain ⟨fixed', hfixed, h⟩ := bind_eq_ok.1 h
  obtain ⟨segments, -, h⟩ := bind_eq_ok.1 h
  obtain ⟨-, rfl, rfl⟩ : _ ∧ raw' = raw ∧ fixed' = fixed := by simpa using ok.inj h
  exact ⟨hraw, hfixed⟩

end Read

/-! ### What a range shares with the rest of the disk -/

/-- The addresses of a range of a stream. -/
def streamAddrs (clusterSize : ℕ) (runs : List Run) (offset length : ℕ) : Set ℕ :=
  {a | ∃ i, offset ≤ i ∧ i < offset + length ∧ byteAddr clusterSize runs i = some a}

section Frame

variable {J : Type} {disk disk' : Disk J} {volume : Volume} {runs : List Run}
  {cs off n a i j : ℕ}

theorem IsAddrs.mem_streamAddrs {addrs : List ℕ} (h : IsAddrs cs runs off n addrs)
    (ha : a ∈ addrs) :
    a ∈ streamAddrs cs runs off n := by
  have hmem : some a ∈ addrs.map some := mem_map_of_mem ha
  rw [show addrs.map some = _ from h] at hmem
  obtain ⟨i, hi, hbyte⟩ := mem_map.1 hmem
  obtain ⟨hlow, hhigh⟩ := mem_range'_1.1 hi
  exact ⟨i, hlow, hhigh, hbyte⟩

/-- Reading a range looks at its addresses only. -/
theorem readStream_congr (hsize : disk'.size = disk.size)
    (himage : ∀ a ∈ streamAddrs volume.clusterSize runs off n, disk'.image a = disk.image a) :
    readStream disk' volume runs off n = readStream disk volume runs off n := by
  rw [readStream, readStream]
  cases hsegments : streamSegments runs volume.clusterSize off n with
  | error e => rfl
  | ok segments =>
    have haddrs := streamSegments_addrs hsegments
    have hread : segments.mapM (fun (physical, take) ↦ preadExact disk' take physical) =
        segments.mapM fun (physical, take) ↦ preadExact disk take physical := by
      refine mapM_congr fun segment hsegment ↦ ?_
      have hbytes : disk'.pread segment.2 segment.1 = disk.pread segment.2 segment.1 := by
        rw [Disk.pread, Disk.pread, hsize]
        refine Image.read_congr fun k hk ↦ himage _ (haddrs.mem_streamAddrs ?_)
        exact mem_flatMap.2 ⟨segment, hsegment, mem_range'_1.2 (by omega)⟩
      change preadExact disk' segment.2 segment.1 = preadExact disk segment.2 segment.1
      rw [preadExact, preadExact, hbytes]
    rw [ok_bind, ok_bind, hread]

theorem mem_segmentAddrs_of_covers {w : Write} (hw : w ∈ segmentWrites segments data)
    (ha : w.Covers a) : a ∈ segmentAddrs segments := by
  induction segments generalizing data with
  | nil => cases hw
  | cons segment segments ih =>
    refine mem_append.2 ?_
    rcases mem_cons.1 hw with rfl | hw
    · have hlen := length_take_le segment.2 data
      have hlow := ha.1
      have hhigh := ha.2
      exact .inl (mem_range'_1.2 ⟨hlow, by dsimp only at hhigh; omega⟩)
    · exact .inr (ih hw)

/-- Writing a range changes its addresses only. -/
theorem writeStream_changes (h : writeStream disk volume runs off data = .ok disk') :
    ChangesWithin (streamAddrs volume.clusterSize runs off data.length) disk disk' := by
  rw [writeStream] at h
  obtain ⟨segments, hsegments, h⟩ := bind_eq_ok.1 h
  obtain rfl := ok.inj h
  have haddrs := streamSegments_addrs hsegments
  refine .issue disk fun w hw a hcovers ↦ haddrs.mem_streamAddrs ?_
  exact mem_segmentAddrs_of_covers hw hcovers

/-- A byte of a stream lies in one of its clusters. -/
theorem byteAddr_div (hcs : 0 < cs) (h : byteAddr cs runs i = some a) :
    a / cs ∈ runClusters runs := by
  induction runs generalizing i with
  | nil => cases h
  | cons run runs ih =>
    rw [byteAddr] at h
    rw [runClusters, flatMap_cons, mem_append]
    split_ifs at h with hin
    · obtain ⟨lcn, hlcn, rfl⟩ := Option.map_eq_some_iff.1 h
      have hdiv : i / cs < run.length := Nat.div_lt_of_lt_mul (by rwa [Nat.mul_comm] at hin)
      refine .inl ?_
      rw [Run.clusters, hlcn, Nat.mul_comm, Nat.mul_add_div hcs]
      exact mem_range'_1.2 ⟨Nat.le_add_right _ _, Nat.add_lt_add_left hdiv _⟩
    · exact .inr (ih h)

/-- Different bytes of a stream without shared clusters lie at different addresses. -/
theorem byteAddr_inj (hcs : 0 < cs) (hnodup : (runClusters runs).Nodup)
    (hi : byteAddr cs runs i = some a) (hj : byteAddr cs runs j = some a) : i = j := by
  induction runs generalizing i j with
  | nil => cases hi
  | cons run runs ih =>
    rw [runClusters, flatMap_cons] at hnodup
    obtain ⟨-, htail, hdisjoint⟩ := nodup_append.1 hnodup
    -- a byte of the first run and a later byte have different clusters
    have hapart : ∀ {k l : ℕ}, k < run.length * cs → byteAddr cs (run :: runs) k = some a →
        byteAddr cs runs l ≠ some a := by
      intro k l hk hfirst hlater
      have hmem := byteAddr_div hcs (show byteAddr cs [run] k = some a by
        rwa [byteAddr, if_pos hk] at hfirst ⊢)
      rw [runClusters, flatMap_singleton] at hmem
      exact hdisjoint _ hmem _ (byteAddr_div hcs hlater) rfl
    by_cases hik : i < run.length * cs <;> by_cases hjk : j < run.length * cs
    · rw [byteAddr, if_pos hik] at hi
      rw [byteAddr, if_pos hjk] at hj
      obtain ⟨lcn, hlcn, rfl⟩ := Option.map_eq_some_iff.1 hi
      rw [hlcn] at hj
      exact (Nat.add_left_cancel (Option.some.inj hj)).symm
    · have hlater := hj
      rw [byteAddr, if_neg hjk] at hlater
      exact absurd hlater (hapart hik hi)
    · have hlater := hi
      rw [byteAddr, if_neg hik] at hlater
      exact absurd hlater (hapart hjk hj)
    · rw [byteAddr, if_neg hik] at hi
      rw [byteAddr, if_neg hjk] at hj
      have := ih htail hi hj
      omega

/-- Ranges of a stream that do not overlap have no address in common. -/
theorem disjoint_streamAddrs {off' n' : ℕ} (hcs : 0 < cs) (hnodup : (runClusters runs).Nodup)
    (hapart : off + n ≤ off' ∨ off' + n' ≤ off) (ha : a ∈ streamAddrs cs runs off n) :
    a ∉ streamAddrs cs runs off' n' := by
  rintro ⟨j, hlow', hhigh', hj⟩
  obtain ⟨i, hlow, hhigh, hi⟩ := ha
  have := byteAddr_inj hcs hnodup hi hj
  omega

theorem streamAddrs_div (hcs : 0 < cs) (ha : a ∈ streamAddrs cs runs off n) :
    a / cs ∈ runClusters runs := by
  obtain ⟨i, -, -, hi⟩ := ha
  exact byteAddr_div hcs hi

end Frame

end LinuxDefragger.Ntfs
