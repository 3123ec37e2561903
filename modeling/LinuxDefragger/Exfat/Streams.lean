import LinuxDefragger.Exfat.Volume

/-!
# Reading and writing streams

A cluster is a range of the device, and different clusters are ranges that do not meet. So a stream
that was written can be read back (`writeStream_spec`), and everything outside its clusters is as it
was.
-/

open Except List Storage

namespace LinuxDefragger.Exfat

namespace Boot

variable (b : Boot)

/-- The address of a cluster. -/
def clusterAt (c : ℕ) : ℕ := (b.heapOff + (c - 2) * b.spc) * b.bps

/-- The address is in the cluster. -/
def InCluster (c a : ℕ) : Prop := b.clusterAt c ≤ a ∧ a < b.clusterAt c + b.cs

/-- The cluster is one of the volume, and on the device. -/
structure OnDevice (size c : ℕ) : Prop where
  two_le : 2 ≤ c
  lt : c < b.cc + 2
  end_le : b.clusterAt c + b.cs ≤ size

variable {b}

theorem clusterAt_eq (c : ℕ) : b.clusterAt c = b.heapOff * b.bps + (c - 2) * b.cs := by
  rw [clusterAt, cs, Nat.add_mul, Nat.mul_assoc, Nat.mul_comm b.spc]

/-- Different clusters do not meet. -/
theorem eq_of_inCluster {c c' a : ℕ} (hc : 2 ≤ c) (hc' : 2 ≤ c') (h : b.InCluster c a)
    (h' : b.InCluster c' a) : c = c' := by
  obtain ⟨hle, hlt⟩ := h
  obtain ⟨hle', hlt'⟩ := h'
  rw [clusterAt_eq] at hle hlt hle' hlt'
  by_contra hne
  rcases Nat.lt_or_gt_of_ne hne with hcc | hcc
  · have : (c - 2 + 1) * b.cs ≤ (c' - 2) * b.cs := Nat.mul_le_mul_right _ (by omega)
    rw [Nat.add_mul] at this
    omega
  · have : (c' - 2 + 1) * b.cs ≤ (c - 2) * b.cs := Nat.mul_le_mul_right _ (by omega)
    rw [Nat.add_mul] at this
    omega

theorem coff_eq_ok {c o : ℕ} : b.coff c = .ok o ↔ 2 ≤ c ∧ c < b.cc + 2 ∧ b.clusterAt c = o := by
  unfold coff clusterAt
  split_ifs with h
  · exact ⟨nofun, fun h' ↦ absurd h (by omega)⟩
  · rw [pure_eq_ok, ok.injEq]
    exact ⟨fun h' ↦ ⟨by omega, by omega, h'⟩, fun h' ↦ h'.2.2⟩

end Boot

theorem Device.read_eq_ok {d : Device} {offset n : ℕ} {data : List UInt8} :
    d.read offset n = .ok data ↔ n ≤ d.size - offset ∧ d.image.read offset n = data := by
  unfold Device.read
  split_ifs with h
  · simp [h]
  · exact ⟨nofun, fun h' ↦ absurd h'.1 h⟩

theorem Device.write_eq_ok {d d' : Device} {offset : ℕ} {data : List UInt8} :
    d.write offset data = .ok d' ↔
      data.length ≤ d.size - offset ∧ { d with image := d.image.write offset data } = d' := by
  unfold Device.write
  split_ifs with h
  · simp [h]
  · exact ⟨nofun, fun h' ↦ absurd h'.1 h⟩

section Streams

variable {d d' : Device} {b : Boot} {clusters : List ℕ} {data : List UInt8}

/-- What a stream holds. -/
theorem readClusters_eq_ok : readClusters d b clusters = .ok data ↔
    (∀ c ∈ clusters, b.OnDevice d.size c) ∧
      (clusters.flatMap fun c ↦ d.image.read (b.clusterAt c) b.cs) = data := by
  unfold readClusters
  rw [bind_eq_ok]
  have hstep : ∀ c chunk, (do d.read (← b.coff c) b.cs) = .ok chunk ↔
      b.OnDevice d.size c ∧ d.image.read (b.clusterAt c) b.cs = chunk := by
    intro c chunk
    have := b.cs_pos
    rw [bind_eq_ok]
    constructor
    · rintro ⟨o, ho, hread⟩
      obtain ⟨htwo, hlt, rfl⟩ := Boot.coff_eq_ok.1 ho
      obtain ⟨hsize, hchunk⟩ := Device.read_eq_ok.1 hread
      exact ⟨⟨htwo, hlt, by omega⟩, hchunk⟩
    · rintro ⟨hon, hchunk⟩
      exact ⟨_, Boot.coff_eq_ok.2 ⟨hon.two_le, hon.lt, rfl⟩,
        Device.read_eq_ok.2 ⟨by have := hon.end_le; omega, hchunk⟩⟩
  induction clusters generalizing data with
  | nil => simp [eq_comm]
  | cons c clusters ih =>
    rw [forall_mem_cons, flatMap_cons]
    constructor
    · rintro ⟨chunks, hchunks, hdata⟩
      rw [mapM_cons] at hchunks
      obtain ⟨chunk, hchunk, hchunks⟩ := bind_eq_ok.1 hchunks
      obtain ⟨rest, hrest, hchunks⟩ := bind_eq_ok.1 hchunks
      obtain rfl := ok.inj hchunks
      obtain rfl := ok.inj hdata
      obtain ⟨hon, rfl⟩ := (hstep c chunk).1 hchunk
      obtain ⟨hons, hdata⟩ := ih.1 ⟨rest, hrest, rfl⟩
      exact ⟨⟨hon, hons⟩, by rw [flatten_cons, hdata]⟩
    · rintro ⟨⟨hon, hons⟩, rfl⟩
      obtain ⟨rest, hrest, hdata⟩ := ih.2 ⟨hons, rfl⟩
      refine ⟨d.image.read (b.clusterAt c) b.cs :: rest, ?_, ?_⟩
      · rw [mapM_cons, (hstep c _).2 ⟨hon, rfl⟩, ok_bind, hrest]
        rfl
      · rw [flatten_cons, ok.inj hdata]
        rfl

theorem length_readClusters (h : readClusters d b clusters = .ok data) :
    data.length = clusters.length * b.cs := by
  obtain ⟨-, rfl⟩ := readClusters_eq_ok.1 h
  induction clusters with
  | nil => simp
  | cons c clusters ih =>
    obtain ⟨-, hons⟩ := forall_mem_cons.1 (readClusters_eq_ok.1 h).1
    rw [flatMap_cons, length_append, ih (readClusters_eq_ok.2 ⟨hons, rfl⟩), Image.read_length,
      length_cons, Nat.add_mul, Nat.one_mul, Nat.add_comm]

/-- A stream is what its clusters hold. -/
theorem readClusters_congr (hsize : d'.size = d.size)
    (h : ∀ c ∈ clusters, 2 ≤ c → ∀ a, b.InCluster c a → d'.image a = d.image a) :
    readClusters d' b clusters = readClusters d b clusters := by
  unfold readClusters
  refine congrArg (· >>= _) (mapM_congr fun c hc ↦ ?_)
  cases hoff : b.coff c with
  | error e => rfl
  | ok o =>
    obtain ⟨htwo, -, rfl⟩ := Boot.coff_eq_ok.1 hoff
    rw [ok_bind, ok_bind, Device.read, Device.read, hsize]
    split
    · refine congrArg _ (Image.read_congr fun i hi ↦ h c hc htwo _ ⟨by omega, by omega⟩)
    · rfl

theorem padded_append {n cs : ℕ} (data : List UInt8) :
    padded cs (data.take cs) ++ padded (n * cs) (data.drop cs) = padded ((n + 1) * cs) data := by
  rw [Nat.add_mul, Nat.one_mul]
  rcases Nat.le_total cs data.length with h | h
  · rw [padded, length_take_of_le h, Nat.sub_self, replicate_zero, append_nil, padded,
      padded, ← append_assoc, take_append_drop, length_drop]
    exact congrArg (fun k ↦ data ++ replicate k (0 : UInt8)) (by omega)
  · rw [take_of_length_le h, drop_of_length_le h, padded, padded, padded, append_assoc,
      nil_append, replicate_append_replicate]
    exact congrArg (fun k ↦ data ++ replicate k (0 : UInt8)) (by simp; omega)

theorem padded_of_length {n : ℕ} (h : data.length = n) : padded n data = data := by
  rw [padded, h, Nat.sub_self, replicate_zero, append_nil]

theorem length_padded {n : ℕ} (h : data.length ≤ n) : (padded n data).length = n := by
  rw [padded, length_append, length_replicate]
  omega

theorem read_write_of_length {m : Image} {off n : ℕ} (h : data.length = n) :
    (m.write off data).read off n = data := h ▸ Image.read_write_self

/-- What writing a stream does. -/
structure Written (b : Boot) (d d' : Device) (clusters : List ℕ) (data : List UInt8) : Prop where
  size : d'.size = d.size
  stream : readClusters d' b clusters = .ok (padded (clusters.length * b.cs) data)
  frame : ∀ a, (∀ c ∈ clusters, ¬b.InCluster c a) → d'.image a = d.image a

/-- **Writing a stream** to clusters of the device. -/
theorem writeStream_spec (hnodup : clusters.Nodup) (hon : ∀ c ∈ clusters, b.OnDevice d.size c)
    (hlength : data.length ≤ clusters.length * b.cs) :
    ∃ d', writeStream b d clusters data = .ok d' ∧ Written b d d' clusters data := by
  induction clusters generalizing d data with
  | nil =>
    obtain rfl : data = [] := eq_nil_of_length_eq_zero (by simpa using hlength)
    exact ⟨d, rfl, rfl, readClusters_eq_ok.2 ⟨nofun, by simp [padded]⟩, fun _ _ ↦ rfl⟩
  | cons c clusters ih =>
    obtain ⟨hc, hnodup⟩ := nodup_cons.1 hnodup
    obtain ⟨honc, hon⟩ := forall_mem_cons.1 hon
    rw [length_cons, Nat.add_mul, Nat.one_mul] at hlength
    have hchunk : (padded b.cs (data.take b.cs)).length = b.cs := length_padded (length_take_le _ _)
    obtain ⟨d', hwrite, hd'⟩ :=
      ih (d := { d with image := d.image.write (b.clusterAt c) (padded b.cs (data.take b.cs)) })
        hnodup hon
        (show (data.drop b.cs).length ≤ _ by rw [length_drop]; omega)
    -- the later clusters leave the first one alone
    have hfirst : d'.image.read (b.clusterAt c) b.cs = padded b.cs (data.take b.cs) := by
      refine Eq.trans (Image.read_congr fun i hi ↦ hd'.frame _ fun c' hc' hin ↦ ?_)
        (read_write_of_length hchunk)
      refine hc (Boot.eq_of_inCluster honc.two_le (hon c' hc').two_le (a := b.clusterAt c + i) ?_
        hin ▸ hc')
      exact ⟨by omega, by omega⟩
    refine ⟨d', ?_, hd'.size, ?_, fun a ha ↦ ?_⟩
    · rw [writeStream, Boot.coff_eq_ok.2 ⟨honc.two_le, honc.lt, rfl⟩, ok_bind,
        Device.write_eq_ok.2 ⟨by have := honc.end_le; omega, rfl⟩, ok_bind, hwrite]
    · obtain ⟨-, hrest⟩ := readClusters_eq_ok.1 hd'.stream
      refine readClusters_eq_ok.2 ⟨?_, ?_⟩
      · rw [hd'.size]
        exact forall_mem_cons.2 ⟨honc, hon⟩
      · rw [flatMap_cons, hfirst, hrest, length_cons]
        exact padded_append data
    · obtain ⟨hac, ha⟩ := forall_mem_cons.1 ha
      rw [hd'.frame a ha]
      refine Image.write_apply_of_not_mem ?_
      rw [hchunk]
      by_contra hin
      exact hac ⟨by omega, by omega⟩

end Streams

end LinuxDefragger.Exfat
