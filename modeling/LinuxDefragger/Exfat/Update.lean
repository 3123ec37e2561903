import LinuxDefragger.Exfat.Relocation
import LinuxDefragger.Exfat.Streams

/-!
# Updating an entry

`update_entry` writes a new first cluster and a new flag into the stream extension of a set,
recomputes the checksum of the set and writes the directory back.

The changed bytes are few: the first cluster and the flags of one secondary slot and the checksum of
the primary one (`Patched`). So the scan of the directory comes to the same sets, each of them is as
it was except the one that was updated, and all are accepted again (`dirSets_patched`).
-/

open Except List Storage

namespace LinuxDefragger.Exfat

/-! ### The engine's function -/

/-- The first stream extension among the secondary slots. -/
def streamOffset (data : List UInt8) (off : ℕ) : List ℕ → Except PyError ℕ
  | [] => throw (.engine "stream extension missing" [])
  | j :: rest => do
    let type ← byteAt data (off + j * 32)
    if type = 0xC0 then pure (off + j * 32) else streamOffset data off rest

/-- `data[stream_off+1]|=2` or `data[stream_off+1]&=~2` -/
def putFlag (flags : UInt8) (nofat : Bool) : UInt8 := if nofat then flags ||| 2 else flags &&& ~~~2

/-- `checksum_set` of a buffer, which raises behind its end. -/
def checksumOf (data : List UInt8) (off count : ℕ) : Except PyError ℕ :=
  if off + count * 32 ≤ data.length then pure (checksumSet (bytesImage data) off count)
  else throw .indexError

/-- The part of `update_entry` that works on the bytes of the directory. -/
def patchSet (data : List UInt8) (off count first : ℕ) (nofat : Bool) :
    Except PyError (List UInt8) := do
  let stream ← streamOffset data off (List.range' 1 (count - 1))
  let data ← packU32 data (stream + 20) first
  let flags ← byteAt data (stream + 1)
  let data := putSlice data (stream + 1) (stream + 2) [putFlag flags nofat]
  packU16 data (off + 2) (← checksumOf data off count)

/-- `update_entry` -/
def Volume.updateEntry (v : Volume) (e : Entry) (first : ℕ) (nofat : Bool) :
    Except PyError Volume := do
  let data ← v.dirData e.parentClusters
  let data ← patchSet data e.entryOff e.entryCount first nofat
  v.writeStream e.parentClusters data

/-! ### What a set depends on -/

variable {data data' : List UInt8} {s : FileSet}

section Sets

variable {p q : Image} {o off total stream first : ℕ} {nofat : Bool}

/-- The checksum depends on the bytes of the set except its own place. -/
theorem checksumSet_congr (h : ∀ i < total * 32, i ≠ 2 → i ≠ 3 → q (off + i) = p (off + i)) :
    checksumSet q off total = checksumSet p off total := by
  refine foldl_ext _ _ 0 fun s i hi ↦ ?_
  rw [checksumStep, checksumStep]
  split
  · rfl
  · rw [h i (mem_range.1 hi) (by omega) (by omega)]

theorem checksumSet_lt (p : Image) (off total : ℕ) : checksumSet p off total < 65536 := by
  unfold checksumSet
  induction total * 32 with
  | zero => exact Nat.zero_lt_succ _
  | succ n ih =>
    rw [range_succ, foldl_append, foldl_cons, foldl_nil, checksumStep]
    split
    · exact ih
    · exact lt_of_le_of_lt Nat.and_le_right (by decide)

theorem mem_secondaries {type : UInt8} {s : ℕ} : s ∈ secondaries p off total type ↔
    ∃ j, 1 ≤ j ∧ j < total ∧ off + j * 32 = s ∧ p s = type := by
  rw [secondaries, mem_filter, mem_map, decide_eq_true_eq]
  constructor
  · rintro ⟨⟨j, hj, rfl⟩, htype⟩
    rw [mem_range'_1] at hj
    exact ⟨j, by omega, by omega, rfl, htype⟩
  · rintro ⟨j, hj₁, hj₂, rfl, htype⟩
    exact ⟨⟨j, by rw [mem_range'_1]; omega, rfl⟩, htype⟩

/-- Which secondary slots have a type depends on the types. -/
theorem secondaries_congr {type : UInt8}
    (h : ∀ j, 1 ≤ j → j < total → q (off + j * 32) = p (off + j * 32)) :
    secondaries q off total type = secondaries p off total type := by
  refine filter_congr fun s hs ↦ ?_
  obtain ⟨j, hj, rfl⟩ := mem_map.1 hs
  rw [mem_range'_1] at hj
  rw [h j (by omega) (by omega)]

/-- A set depends on its own bytes. -/
theorem fileSet_congr (htotal : 0 < total) (h : ∀ i < total * 32, q (off + i) = p (off + i)) :
    fileSet q off total = fileSet p off total := by
  have hsecondaries : ∀ type, secondaries q off total type = secondaries p off total type :=
    fun type ↦ secondaries_congr fun j _ hj ↦ h (j * 32) (by omega)
  have hslot : ∀ type, ∀ s ∈ secondaries p off total type, ∀ i < 32, q (s + i) = p (s + i) := by
    intro type s hs i hi
    obtain ⟨j, -, hj, rfl, -⟩ := mem_secondaries.1 hs
    rw [Nat.add_assoc]
    exact h _ (by omega)
  have hnames : ((secondaries p off total 0xC1).map fun n ↦ q.read (n + 2) 30) =
      (secondaries p off total 0xC1).map fun n ↦ p.read (n + 2) 30 := by
    refine map_congr_left fun n hn ↦ Image.read_congr fun i hi ↦ ?_
    rw [Nat.add_assoc]
    exact hslot _ n hn _ (by omega)
  have hattributes : rd16 q (off + 4) = rd16 p (off + 4) :=
    rd16_congr (h 4 (by omega)) (h 5 (by omega))
  unfold fileSet
  rw [hsecondaries, hsecondaries]
  cases hlast : (secondaries p off total 0xC0).getLast? with
  | none => rfl
  | some s =>
    have hs := hslot _ s (mem_of_getLast? hlast)
    have hword : ∀ k, k + 4 ≤ 32 → rd32 q (s + k) = rd32 p (s + k) := by
      intro k hk
      refine rd32_congr fun i hi ↦ ?_
      rw [Nat.add_assoc]
      exact hs _ (by omega)
    have hlong : ∀ k, k + 8 ≤ 32 → rd64 q (s + k) = rd64 p (s + k) := by
      intro k hk
      rw [rd64, rd64, hword k (by omega), Nat.add_assoc, hword (k + 4) (by omega)]
    simp only [Option.map_some, hattributes, hnames, hs 3 (by omega), hs 1 (by omega),
      hword 20 (by omega), hlong 24 (by omega), hlong 8 (by omega)]

/-! ### What the patch changes -/

/-- The address is one that `update_entry` may change: the checksum in the primary slot, or the
flags or the first cluster in the stream extension. -/
def IsPatched (off stream a : ℕ) : Prop :=
  a = off + 2 ∨ a = off + 3 ∨ a = stream + 1 ∨ (stream + 20 ≤ a ∧ a < stream + 24)

/-- A buffer before and after the patch of a set. -/
structure Patched (p q : Image) (off total stream first : ℕ) (nofat : Bool) : Prop where
  frame : ∀ a, ¬IsPatched off stream a → q a = p a
  first : rd32 q (stream + 20) = first
  flag : (q (stream + 1) &&& 2 ≠ 0) ↔ nofat = true
  checksum : rd16 q (off + 2) = checksumSet q off total

theorem putFlag_and (flags : UInt8) (nofat : Bool) :
    (putFlag flags nofat &&& 2 ≠ 0) ↔ nofat = true := by
  cases nofat with
  | false =>
    have hclear : putFlag flags false &&& 2 = 0 := by
      rw [putFlag, if_neg (by decide), UInt8.and_assoc, show (~~~2 &&& 2 : UInt8) = 0 by decide,
        UInt8.and_zero]
    simp [hclear]
  | true =>
    have hset : (putFlag flags true &&& 2).toBitVec.getLsbD 1 = true := by simp [putFlag]
    refine ⟨fun _ ↦ rfl, fun _ hzero ↦ ?_⟩
    rw [hzero] at hset
    simp at hset

theorem streamOffset_eq_ok {js : List ℕ} (hlen : ∀ j ∈ js, off + j * 32 < data.length)
    (h : ((js.map fun j ↦ off + j * 32).filter fun s ↦ bytesImage data s = 0xC0).head? =
      some stream) :
    streamOffset data off js = .ok stream := by
  induction js with
  | nil => cases h
  | cons j js ih =>
    obtain ⟨hj, hlen⟩ := forall_mem_cons.1 hlen
    rw [streamOffset, byteAt_eq_ok.2 ⟨hj, rfl⟩, ok_bind]
    by_cases htype : bytesImage data (off + j * 32) = 0xC0
    · rw [map_cons, filter_cons_of_pos (by simpa using htype)] at h
      rw [if_pos htype]
      exact congrArg Except.ok (Option.some.inj h)
    · rw [map_cons, filter_cons_of_neg (by simpa using htype)] at h
      rw [if_neg htype]
      exact ih hlen h

/-- **The patch of a set** that is complete and has a stream extension. -/
theorem patchSet_spec (nofat : Bool) (hend : off + total * 32 ≤ data.length)
    (hstream : (secondaries (bytesImage data) off total 0xC0).head? = some stream)
    (hfirst : first < 2 ^ 32) :
    ∃ data', patchSet data off total first nofat = .ok data' ∧ data'.length = data.length ∧
      Patched (bytesImage data) (bytesImage data') off total stream first nofat := by
  obtain ⟨j, hj₁, hj₂, hj, -⟩ := mem_secondaries.1 (mem_of_head? hstream)
  have hsearch : streamOffset data off (range' 1 (total - 1)) = .ok stream := by
    refine streamOffset_eq_ok (fun k hk ↦ ?_) hstream
    rw [mem_range'_1] at hk
    omega
  have hfit : stream + 20 + 4 ≤ data.length := by omega
  obtain ⟨d₁, h₁, hl₁, hi₁⟩ := packU32_spec hfit hfirst
  have hl₂ :
    (putSlice d₁ (stream + 1) (stream + 2) [putFlag (bytesImage d₁ (stream + 1)) nofat]).length =
      d₁.length := length_putSlice rfl (by omega)
  have hi₂ : bytesImage (putSlice d₁ (stream + 1) (stream + 2)
      [putFlag (bytesImage d₁ (stream + 1)) nofat]) = (bytesImage d₁).write (stream + 1)
        [putFlag (bytesImage d₁ (stream + 1)) nofat] := bytesImage_putSlice rfl (by omega)
  generalize hflag : putFlag (bytesImage d₁ (stream + 1)) nofat = flag at hl₂ hi₂
  generalize hd₂ : putSlice d₁ (stream + 1) (stream + 2) [flag] = d₂ at hl₂ hi₂
  have hsum : checksumOf d₂ off total = .ok (checksumSet (bytesImage d₂) off total) :=
    if_pos (by omega)
  have hfit' : off + 2 + 2 ≤ d₂.length := by omega
  obtain ⟨d₃, h₃, hl₃, hi₃⟩ := packU16_spec hfit' (checksumSet_lt (bytesImage d₂) off total)
  have hframe : ∀ a, a ≠ off + 2 → a ≠ off + 3 → bytesImage d₃ a = bytesImage d₂ a := by
    intro a h2 h3
    rw [hi₃]
    exact Image.write_apply_of_not_mem (by rw [wr16_length]; omega)
  have hflagByte : bytesImage d₃ (stream + 1) = flag := by
    rw [hframe _ (by omega) (by omega), hi₂]
    exact Image.write_apply_add _ (stream + 1) [flag] Nat.one_pos
  refine ⟨d₃, ?_, by omega, fun a ha ↦ ?_, ?_, ?_, ?_⟩
  · rw [patchSet, hsearch, ok_bind, h₁, ok_bind, byteAt_eq_ok.2 ⟨by omega, rfl⟩, ok_bind,
      hflag, hd₂]
    dsimp only
    rw [hsum, ok_bind, h₃]
  · unfold IsPatched at ha
    rw [hframe a (by omega) (by omega), hi₂, Image.write_apply_of_not_mem (by simp; omega), hi₁,
      Image.write_apply_of_not_mem (by rw [wr32_length]; omega)]
  · have hword : rd32 (bytesImage d₃) (stream + 20) = rd32 (bytesImage d₁) (stream + 20) := by
      refine rd32_congr fun i hi ↦ ?_
      rw [hframe _ (by omega) (by omega), hi₂]
      exact Image.write_apply_of_not_mem (by simp; omega)
    rw [hword, hi₁, rd32_write_wr32]
    exact Nat.mod_eq_of_lt hfirst
  · rw [hflagByte, ← hflag]
    exact putFlag_and _ nofat
  · rw [hi₃, rd16_write_wr16, Nat.mod_eq_of_lt (checksumSet_lt _ _ _), ← hi₃]
    exact (checksumSet_congr fun i _ h2 h3 ↦ hframe _ (by omega) (by omega)).symm

/-! ### The directory after the patch -/

theorem fileSet_place (h : fileSet p off total = some s) : s.offset = off ∧ s.total = total := by
  obtain ⟨_, -, rfl⟩ := Option.map_eq_some_iff.1 h
  exact ⟨rfl, rfl⟩

/-- **The patched set** has the new first cluster and the new flag; the rest is as it was. It has
one stream extension: the engine writes to the first one and reads the last one. -/
theorem fileSet_patched (hone : secondaries p off total 0xC0 = [stream])
    (h : Patched p q off total stream first nofat) (hs : fileSet p off total = some s) :
    fileSet q off total = some { s with first := first, nofat := nofat } := by
  obtain ⟨j, hj₁, hj₂, rfl, hstream⟩ := mem_secondaries.1 (hone ▸ mem_singleton_self stream)
  have hsecondaries : ∀ type, secondaries q off total type = secondaries p off total type :=
    fun type ↦ secondaries_congr fun k _ _ ↦ h.frame _ (by unfold IsPatched; omega)
  have hnames : ((secondaries p off total 0xC1).map fun n ↦ q.read (n + 2) 30) =
      (secondaries p off total 0xC1).map fun n ↦ p.read (n + 2) 30 := by
    refine map_congr_left fun n hn ↦ Image.read_congr fun i hi ↦ h.frame _ ?_
    obtain ⟨k, hk₁, -, rfl, hname⟩ := mem_secondaries.1 hn
    -- a slot with a name is not the stream extension
    have hkj : k ≠ j := by
      rintro rfl
      exact absurd (hstream.symm.trans hname) (by decide)
    unfold IsPatched
    omega
  have hsame :
      ∀ i, i ≠ 1 → (i < 20 ∨ 24 ≤ i) → i < 32 → q (off + j * 32 + i) = p (off + j * 32 + i) := by
    intro i hi hi' hi''
    exact h.frame _ (by unfold IsPatched; omega)
  have hattributes : rd16 q (off + 4) = rd16 p (off + 4) :=
    rd16_congr (h.frame _ (by unfold IsPatched; omega)) (h.frame _ (by unfold IsPatched; omega))
  have hword : ∀ k, (k = 8 ∨ k = 12 ∨ k = 24 ∨ k = 28) →
      rd32 q (off + j * 32 + k) = rd32 p (off + j * 32 + k) := by
    intro k hk
    refine rd32_congr fun i hi ↦ ?_
    rw [Nat.add_assoc (off + j * 32)]
    exact hsame _ (by omega) (by omega) (by omega)
  have hvalid : rd64 q (off + j * 32 + 8) = rd64 p (off + j * 32 + 8) := by
    rw [rd64, rd64, hword 8 (by omega), Nat.add_assoc (off + j * 32), hword 12 (by omega)]
  have hlength : rd64 q (off + j * 32 + 24) = rd64 p (off + j * 32 + 24) := by
    rw [rd64, rd64, hword 24 (by omega), Nat.add_assoc (off + j * 32), hword 28 (by omega)]
  unfold fileSet at hs ⊢
  rw [hsecondaries, hsecondaries]
  rw [hone, getLast?_singleton, Option.map_some] at hs ⊢
  obtain rfl := Option.some.inj hs
  simp only [hattributes, hnames, hsame 3 (by omega) (by omega) (by omega), hvalid,
    hlength, h.first,
    decide_eq_decide.2 h.flag, Bool.decide_eq_true]

/-- **The directory after the patch** of one of its sets is accepted, and lists the same sets. -/
theorem dirSets_patched (haccepted : DirAccepted data) (hs : s ∈ dirSets data)
    (hone : secondaries (bytesImage data) s.offset s.total 0xC0 = [stream])
    (hlen : data'.length = data.length)
    (h : Patched (bytesImage data) (bytesImage data') s.offset s.total stream first nofat) :
    DirAccepted data' ∧ dirSets data' = (dirSets data).map fun t ↦
      if t.offset = s.offset then { t with first := first, nofat := nofat } else t := by
  obtain ⟨hoff, hset⟩ := mem_setsAt.1 hs
  obtain ⟨-, htotal⟩ := fileSet_place hset
  obtain ⟨hbehind, hpairs⟩ := dirOffsets_pairwise data
  obtain ⟨hmod, -⟩ := hbehind s.offset hoff
  obtain ⟨j, hj₁, hj₂, rfl, hstream⟩ := mem_secondaries.1 (hone ▸ mem_singleton_self stream)
  have hoffsets : dirOffsets data' = dirOffsets data := by
    rw [dirOffsets, dirOffsets, hlen]
    refine setOffsets_congr (fun o' _ ho' ↦ h.frame o' ?_) fun o' _ ho' htype ↦ h.frame _ ?_
    · unfold IsPatched
      omega
    · have hne : o' ≠ s.offset + j * 32 := by
        rintro rfl
        exact absurd (hstream.symm.trans htype) (by decide)
      unfold IsPatched
      omega
  -- the other sets are in front of the patched one or behind it
  have hother : ∀ o ∈ dirOffsets data, o ≠ s.offset → ∀ i < setTotal (bytesImage data) o * 32,
      bytesImage data' (o + i) = bytesImage data (o + i) := by
    intro o ho hne i hi
    have hapart := or_of_pairwise hpairs ho hoff hne
    refine h.frame _ ?_
    unfold IsPatched
    omega
  have hsetTotal :
      ∀ o ∈ dirOffsets data, setTotal (bytesImage data') o = setTotal (bytesImage data) o := by
    intro o ho
    obtain ⟨homod, htype⟩ := hbehind o ho
    refine congrArg (1 + UInt8.toNat ·) (h.frame _ ?_)
    have hne : o ≠ s.offset + j * 32 := by
      rintro rfl
      exact absurd (hstream.symm.trans htype) (by decide)
    unfold IsPatched
    omega
  constructor
  · intro o ho
    rw [hoffsets] at ho
    rw [hsetTotal o ho, hlen]
    obtain ⟨hend, hcheck⟩ := haccepted o ho
    refine ⟨hend, ?_⟩
    by_cases hne : o = s.offset
    · rw [hne, ← htotal, checksumCheck, raiseIf, if_neg (not_not.2 h.checksum)]
      rfl
    · have hpos := setTotal_pos (bytesImage data) o
      rw [checksumCheck, rd16_congr (hother o ho hne 2 (by omega)) (hother o ho hne 3 (by omega)),
        checksumSet_congr fun i hi _ _ ↦ hother o ho hne i hi]
      exact hcheck
  · rw [dirSets, dirSets, hoffsets, setsAt, setsAt, map_filterMap]
    refine filterMap_congr fun o ho ↦ ?_
    rw [hsetTotal o ho]
    by_cases hne : o = s.offset
    · rw [← htotal] at hset
      rw [hne, ← htotal, fileSet_patched hone h hset, hset, Option.map_some, if_pos rfl]
    · rw [fileSet_congr (setTotal_pos _ _) (hother o ho hne)]
      cases hfile : fileSet (bytesImage data) o (setTotal (bytesImage data) o) with
      | none => rfl
      | some t => rw [Option.map_some, if_neg ((fileSet_place hfile).1 ▸ hne)]

end Sets

namespace Volume

variable {v : Volume} {entries : List Entry} {root C D : List ℕ} {e : Entry} {first : ℕ}
  {nofat : Bool}
  {new : List ℕ}

/-! ### The tree around a directory -/

theorem dirData_eq_readClusters (v : Volume) (C : List ℕ) :
    v.dirData C = readClusters v.device v.boot C := by
  unfold dirData readStream
  cases hread : readClusters v.device v.boot C with
  | error e => rfl
  | ok data =>
    rw [ok_bind, ← length_readClusters hread, take_length]
    rfl

/-- What the update of an entry asks of the tree: no directory starts where another one does, and
the one that lists the entry has no cluster in common with another one. -/
structure DirsApart (v : Volume) (entries : List Entry) (e : Entry) : Prop where
  ne_root : ∀ x ∈ entries, x.isDir = true → x.clusters.head? ≠ some v.boot.root
  heads : entries.Pairwise fun x y ↦ x.isDir = true → y.isDir = true → x.clusters ≠ [] →
    x.clusters.head? ≠ y.clusters.head?
  root : ∀ rootcl, v.rootChain = .ok rootcl → e.parentClusters.head? ≠ some v.boot.root →
    rootcl.Disjoint e.parentClusters
  parent : ∀ x ∈ entries, x.isDir = true → x.clusters ≠ e.parentClusters →
    x.clusters.Disjoint e.parentClusters

section

variable (h : v.DirsApart entries e)
include h

theorem DirsApart.isDirectory_disjoint (hroot : v.HasRoot root) (hC : IsDirectory root entries C)
    (hparent : IsDirectory root entries e.parentClusters) (hne : C ≠ e.parentClusters) :
    C.Disjoint e.parentClusters := by
  rcases hC with rfl | ⟨x, hx, hxdir, rfl, -⟩
  · obtain ⟨rootcl, hrootcl, -⟩ := hroot.chain
    rcases hparent with hself | ⟨y, hy, hydir, hclusters, -⟩
    · exact absurd hself.symm hne
    · have hhead := h.ne_root y hy hydir
      rw [hclusters] at hhead
      exact fun c hc ↦ h.root rootcl hrootcl hhead ((hroot.beginning hrootcl).subset hc)
  · exact h.parent x hx hxdir hne

theorem DirsApart.headsDiffer (hroot : v.HasRoot root) : HeadsDiffer root entries where
  ne_root x hx hdir := by
    rw [hroot.head]
    exact h.ne_root x hx hdir
  entries x hx y hy hxdir hydir hne hhead := by
    by_contra hxy
    have hney : y.clusters ≠ [] := by
      intro hnil
      rw [hnil, head?_nil, head?_eq_none_iff] at hhead
      exact hne hhead
    exact (or_of_pairwise h.heads hx hy hxy).elim (fun h ↦ h hxdir hydir hne hhead)
      fun h ↦ h hydir hxdir hney hhead.symm

/-- A directory is not listed in itself. -/
theorem DirsApart.parent_ne (hroot : v.HasRoot root) (he : e ∈ entries)
    (hlisted : v.Listed root entries e) (hdir : e.isDir = true) :
    e.parentClusters ≠ e.clusters := by
  intro hself
  rcases hlisted.parent_ne with hparent | ⟨y, hy, hydir, hclusters, hne, hye⟩
  · refine h.ne_root e he hdir ?_
    rw [← hself, hparent, hroot.head]
  · have hsame : y.clusters = e.clusters := hclusters.trans hself
    refine hye ((h.headsDiffer hroot).entries y hy e he hydir hdir ?_ (by rw [hsame]))
    rwa [hclusters]

end

theorem isDirectory_ne_nil (hroot : v.HasRoot root) (hC : IsDirectory root entries C) : C ≠ [] := by
  rcases hC with rfl | ⟨x, -, -, -, hne⟩
  · exact ne_nil_of_head hroot.head
  · exact hne

theorem isDirectory_nodup (hroot : v.HasRoot root)
    (hlisted : ∀ x ∈ entries, v.Listed root entries x)
    (hC : IsDirectory root entries C) : C.Nodup := by
  rcases hC with rfl | ⟨x, hx, -, rfl, hne⟩
  · obtain ⟨_, -, hchain⟩ := hroot.chain
    exact chain_nodup hchain
  · obtain ⟨_, _, s, -, -, -, -, hfcl, -⟩ := (hlisted x hx).set
    exact chain_nodup ((fileClusters_eq_ok hfcl).2 hne).1

/-! ### The update -/

/-- The set of the entry has one stream extension. -/
def OneStream (v : Volume) (e : Entry) : Prop :=
  ∀ data, v.dirData e.parentClusters = .ok data →
    (secondaries (bytesImage data) e.entryOff e.entryCount 0xC0).length = 1

/-- What `update_entry` has done. -/
structure Updated (v v' : Volume) (e : Entry) (first : ℕ) (nofat : Bool) (data data' : List UInt8) :
    Prop where
  eq : v' = { v with device := v'.device }
  written : Written v.boot v.device v'.device e.parentClusters data'
  length : data'.length = data.length
  patched : ∃ stream, secondaries (bytesImage data) e.entryOff e.entryCount 0xC0 = [stream] ∧
    Patched (bytesImage data) (bytesImage data') e.entryOff e.entryCount stream first nofat

/-- **The update of an entry** of an accepted directory goes through. -/
theorem updateEntry_spec (nofat : Bool) (hwritable : v.writable = true)
    (hdata : v.dirData e.parentClusters = .ok data) (hnodup : e.parentClusters.Nodup)
    (haccepted : DirAccepted data) (hs : s ∈ dirSets data) (hoff : s.offset = e.entryOff)
    (htotal : s.total = e.entryCount) (hone : v.OneStream e) (hfirst : first < 2 ^ 32) :
    ∃ v' data', v.updateEntry e first nofat = .ok v' ∧ Updated v v' e first nofat data data' := by
  obtain ⟨stream, hstream⟩ := length_eq_one_iff.1 (hone data hdata)
  obtain ⟨hmem, hset⟩ := mem_setsAt.1 hs
  obtain ⟨hend, -⟩ := haccepted s.offset hmem
  rw [← (fileSet_place hset).2, hoff, htotal] at hend
  obtain ⟨data', hpatch, hlength, hpatched⟩ :=
    patchSet_spec nofat hend (by rw [hstream]; rfl) hfirst
  have hread := hdata
  rw [dirData_eq_readClusters] at hread
  have hdatalen := length_readClusters hread
  obtain ⟨d', hwrite, hwritten⟩ := writeStream_spec hnodup (readClusters_eq_ok.1 hread).1
    (show data'.length ≤ e.parentClusters.length * v.boot.cs by omega)
  refine ⟨{ v with device := d' }, data', ?_, rfl, hwritten, hlength, stream, hstream, hpatched⟩
  rw [updateEntry, hdata, ok_bind, hpatch, ok_bind, Volume.writeStream,
    raiseIf_bind_of_not (by simp [hwritable]),
    hwrite]
  rfl

theorem Updated.dirData_eq {v' : Volume} (h : Updated v v' e first nofat data data')
    (hdata : v.dirData e.parentClusters = .ok data) : v'.dirData e.parentClusters = .ok data' := by
  rw [dirData_eq_readClusters] at hdata ⊢
  rw [h.eq]
  rw [h.written.stream, padded_of_length (h.length.trans (length_readClusters hdata))]

/-- What is outside the directory is as it was. -/
theorem Updated.dirData_of_disjoint {v' : Volume} (h : Updated v v' e first nofat data data')
    (hdisjoint : C.Disjoint e.parentClusters) : v'.dirData C = v.dirData C := by
  have hon := (readClusters_eq_ok.1 h.written.stream).1
  rw [dirData_eq_readClusters, dirData_eq_readClusters, h.eq]
  refine readClusters_congr h.written.size fun c hc htwo a ha ↦
    h.written.frame a fun c' hc' ha' ↦ ?_
  obtain rfl := Boot.eq_of_inCluster htwo (hon c' hc').two_le ha ha'
  exact hdisjoint hc hc'

/-- Where a directory may move: outside the directory that lists it, and not to the first cluster of
another one. -/
structure MayMove (v : Volume) (entries : List Entry) (e : Entry) (first : ℕ) (new : List ℕ) :
    Prop where
  disjoint : new.Disjoint e.parentClusters
  ne_root : first ≠ v.boot.root
  ne_first : ∀ x ∈ entries, x.isDir = true → x ≠ e → x.clusters.head? ≠ some first

/-- An accepted tree whose directories are apart, after the update of an entry. -/
theorem Updated.carried {v' : Volume} (h : Updated v v' e first nofat data data')
    (hroot : v.HasRoot root) (hlisted : ∀ x ∈ entries, v.Listed root entries x)
    (hplaces : entries.Pairwise fun x y ↦ ¬SamePlace x y) (hapart : v.DirsApart entries e)
    (he : e ∈ entries) (hdata : v.dirData e.parentClusters = .ok data) (hs : s ∈ dirSets data)
    (hoff : s.offset = e.entryOff) (htotal : s.total = e.entryCount)
    (hnew : v.fileClusters first e.length nofat = .ok new)
    (hsame : e.isDir = true → v.dirData new = v.dirData e.clusters)
    (hmove : e.isDir = true → e.clusters ≠ [] → v.MayMove entries e first new) :
    Carried v v' root entries ⟨e, first, nofat, new⟩ where
  boot := by rw [h.eq]
  hasRoot := by rw [h.eq]; exact ⟨hroot.chain, hroot.head⟩
  mem := he
  places _ hx := eq_of_samePlace hplaces hx he
  heads := hapart.headsDiffer hroot
  other x hx _ := by
    obtain ⟨_, _, t, -, -, -, -, hfcl, hxt⟩ := (hlisted x hx).set
    rw [h.eq, hxt]
    exact hfcl
  moved := by rw [h.eq]; exact hnew
  empty hdir := by
    have hlength : ∀ {C : List ℕ}, v.dirData C = .ok [] ↔ C = [] := by
      intro C
      refine ⟨fun hC ↦ ?_, fun hC ↦ hC ▸ by rw [dirData_eq_readClusters]; rfl⟩
      rw [dirData_eq_readClusters] at hC
      have hmul := length_readClusters hC
      have := v.boot.cs_pos
      exact eq_nil_of_length_eq_zero ((Nat.mul_eq_zero.1 hmul.symm).resolve_right this.ne')
    exact hlength.symm.trans (hsame hdir ▸ hlength)
  sets C hC dataC hdataC haccepted := by
    have hparent := (hlisted e he).parent
    by_cases hCp : C = e.parentClusters
    · -- the directory that was written
      subst hCp
      obtain rfl := ok.inj (hdata.symm.trans hdataC)
      have hstay :
          Relocation.directory ⟨e, first, nofat, new⟩ e.parentClusters = e.parentClusters :=
        if_neg fun hself ↦ hapart.parent_ne hroot he (hlisted e he) hself.1 hself.2
      obtain ⟨stream, hstream, hpatched⟩ := h.patched
      obtain ⟨haccepted', hsets⟩ := dirSets_patched haccepted hs (by rwa [hoff, htotal]) h.length
        (by rwa [hoff, htotal])
      refine ⟨data', by rw [hstay, h.dirData_eq hdata], haccepted',
        hsets.trans (map_congr_left fun t _ ↦ ?_)⟩
      simp only [Relocation.set, hoff, true_and]
    · have hsets : Relocation.set ⟨e, first, nofat, new⟩ C = id :=
        funext fun t ↦ if_neg fun hplace ↦ hCp hplace.1
      refine ⟨dataC, ?_, haccepted, by rw [hsets, List.map_id]⟩
      by_cases hmoved : e.isDir = true ∧ C = e.clusters
      · -- the directory that has moved
        obtain ⟨hdir, rfl⟩ := hmoved
        rw [Relocation.directory, if_pos ⟨hdir, rfl⟩]
        have hne := isDirectory_ne_nil hroot hC
        rw [h.dirData_of_disjoint (hmove hdir hne).disjoint, hsame hdir, hdataC]
      · rw [Relocation.directory, if_neg hmoved,
          h.dirData_of_disjoint (hapart.isDirectory_disjoint hroot hC hparent hCp), hdataC]
  fresh hdir hne C hC hCe hhead := by
    rcases hC with rfl | ⟨x, hx, hxdir, rfl, -⟩
    · exact (hmove hdir hne).ne_root (Option.some.inj (hhead.symm.trans hroot.head))
    · exact (hmove hdir hne).ne_first x hx hxdir (ne_of_apply_ne Entry.clusters hCe) hhead

/-- **Updating an entry is exact.** -/
theorem update_entry_exact (hwritable : v.writable = true) (hparse : v.parse = .ok entries)
    (hapart : v.DirsApart entries e) (he : e ∈ entries) (hone : v.OneStream e)
    (hfirst : first < 2 ^ 32)
    (hnew : v.fileClusters first e.length nofat = .ok new)
    (hsame : e.isDir = true → v.dirData new = v.dirData e.clusters)
    (hmove : e.isDir = true → e.clusters ≠ [] → v.MayMove entries e first new) :
    ∃ v', v.updateEntry e first nofat = .ok v' ∧
      v'.parse = .ok (entries.map (Relocation.apply ⟨e, first, nofat, new⟩)) := by
  obtain ⟨root, hroot, hlisted, hplaces⟩ := parse_tree hparse (ne_nil_of_mem he)
  obtain ⟨path, data, s, -, hdata, haccepted, hs, -, hentry⟩ := (hlisted e he).set
  have hoff : s.offset = e.entryOff := by rw [hentry]; rfl
  have htotal : s.total = e.entryCount := by rw [hentry]; rfl
  obtain ⟨v', data', hupdate, hupdated⟩ := updateEntry_spec nofat hwritable hdata
    (isDirectory_nodup hroot hlisted (hlisted e he).parent) haccepted hs hoff htotal hone hfirst
  refine ⟨v', hupdate, ?_⟩
  refine (hupdated.carried hroot hlisted hplaces hapart he hdata hs hoff htotal hnew hsame
    hmove).parse_carried
    hroot hparse ?_
  rw [hupdated.eq]
  rfl

end Volume

/-! ### Where the update is not exact

The engine's two halves treat a set with several stream extensions differently: `parse` takes the
last one, `update_entry` changes the first one. The other cases are about directories: the entries
inside a moved directory are found in its new clusters, directories may share a cluster, and the new
clusters of a directory may be in use by another one. -/

/-- The bytes of a set without a name: flags, first cluster and length of its stream extensions. -/
def setBytes (attributes : UInt8) (streams : List (UInt8 × ℕ × ℕ)) : List UInt8 :=
  let set := [0x85, UInt8.ofNat streams.length, 0, 0, attributes] ++ List.replicate 27 0 ++
    streams.flatMap fun (flags, first, length) ↦
      [0xC0, flags] ++ List.replicate 18 0 ++ wr32 first ++ wr32 length ++ List.replicate 4 0
  set.take 2 ++ wr16 (checksumSet (bytesImage set) 0 (1 + streams.length)) ++ set.drop 4

/-- The boot sector of a volume with 14 clusters of 128 bytes. -/
def exampleBoot : List UInt8 :=
  [0, 0, 0, 0x45, 0x58, 0x46, 0x41, 0x54, 0x20, 0x20, 0x20] ++ List.replicate 69 0 ++
    wr32 4 ++ wr32 1 ++
    wr32 5 ++ wr32 14 ++ wr32 3 ++ List.replicate 8 0 ++ [7, 0, 1]

/-- The slot of the root directory for the bitmap in cluster 2. -/
def bitmapSlot : List UInt8 := [0x81] ++ List.replicate 19 0 ++ wr32 2 ++ [2] ++ List.replicate 7 0

/-- A volume with 14 clusters of 128 bytes: the bitmap in 2, the root directory in 3 and 4, and the
rest of the heap. -/
def exampleDevice (fat : List ℕ) (root : List UInt8) (heap : List (List UInt8)) : Device where
  size := 2432
  image a :=
    if a < 512 then bytesImage exampleBoot a
    else if a < 640 then
      bytesImage ((0 :: 0 :: 0xFFFFFFFF :: 4 :: 0xFFFFFFFF :: fat).flatMap wr32) (a - 512)
    else
      let clusters :=
        [0xFF, 0x3F] :: (bitmapSlot ++ root).take 128 :: (bitmapSlot ++ root).drop 128 :: heap
      bytesImage (clusters.getD ((a - 640) / 128) []) ((a - 640) % 128)

/-- A file without clusters. -/
def emptyFile : List UInt8 := setBytes 0x20 [(1, 0, 0)]

/-- A cluster of a directory with unused slots only. -/
def unusedSlots : List UInt8 := (List.replicate 4 (0x05 :: List.replicate 31 0)).flatten

/-- A file with two stream extensions. -/
def twoStreams : Device := exampleDevice [] (setBytes 0x20 [(3, 5, 128), (3, 5, 128)]) []

/-- A directory with a file, and a copy of it. -/
def movedDirectory : Device := exampleDevice [] (setBytes 0x10 [(3, 5, 128)]) [emptyFile, emptyFile]

/-- Two directories that have their second cluster in common. -/
def sharedCluster : Device :=
  exampleDevice [7, 7, 0xFFFFFFFF] (setBytes 0x10 [(1, 5, 256)] ++ setBytes 0x10 [(1, 6, 256)])
    [unusedSlots, unusedSlots, emptyFile]

/-- Two directories with the same contents. -/
def twinDirectories : Device :=
  exampleDevice [] (setBytes 0x10 [(3, 5, 128)] ++ setBytes 0x10 [(3, 6, 128)])
    [emptyFile, emptyFile]

/-- A directory whose second cluster is a copy of the first one of the root directory. -/
def copiedRoot : Device :=
  exampleDevice [6, 0xFFFFFFFF, 3] (setBytes 0x10 [(1, 5, 256)])
    [unusedSlots, bitmapSlot ++ setBytes 0x10 [(1, 5, 256)], unusedSlots]

/-- An entry of one of these volumes, where names are empty. -/
def exampleEntry (depth : ℕ) (isDir : Bool) (first length : ℕ) (nofat : Bool) (parents : List ℕ)
    (offset count : ℕ) (clusters : List ℕ) : Entry :=
  ⟨List.replicate depth [], isDir, first, length, 0, nofat, parents, offset, count, clusters⟩

/-- After the update of an entry to a place with the same data, `parse` accepts the tree, but lists
something else than the entries with this one at its new place. -/
def UpdateDiffers (d : Device) (entries : List Entry) (m : Relocation) : Prop :=
  m.entry ∈ entries ∧ ∃ v v' entries', Volume.open d true = .ok v ∧ v.parse = .ok entries ∧
    v.fileClusters m.first m.entry.length m.nofat = .ok m.clusters ∧
    v.dirData m.clusters = v.dirData m.entry.clusters ∧
    v.updateEntry m.entry m.first m.nofat = .ok v' ∧ v'.parse = .ok entries' ∧
    entries' ≠ entries.map m.place

/-- `UpdateDiffers`, evaluated. -/
def updateDiffers (d : Device) (entries : List Entry) (m : Relocation) : Bool :=
  m.entry ∈ entries && (Volume.open d true).toOption.any fun v ↦
    v.parse.toOption.any (· = entries) &&
    (v.fileClusters m.first m.entry.length m.nofat).toOption.any (· = m.clusters) &&
    (v.dirData m.clusters).toOption.any (fun data ↦
      (v.dirData m.entry.clusters).toOption.any (data = ·)) &&
    (v.updateEntry m.entry m.first m.nofat).toOption.any fun v' ↦
      v'.parse.toOption.any (· ≠ entries.map m.place)

/-- A test for a given result. -/
theorem eq_ok_of_any {α : Type} [DecidableEq α] {x : Except PyError α} {a : α}
    (h : x.toOption.any (· = a) = true) : x = .ok a := by
  obtain ⟨r, hx, hr⟩ := exists_ok_of_any h
  rw [hx, of_decide_eq_true hr]

theorem updateDiffers_sound {d : Device} {entries : List Entry} {m : Relocation}
    (h : updateDiffers d entries m = true) : UpdateDiffers d entries m := by
  obtain ⟨hmem, h⟩ := Bool.and_eq_true_iff.1 h
  obtain ⟨v, hopen, h⟩ := exists_ok_of_any h
  simp only [Bool.and_eq_true] at h
  obtain ⟨⟨⟨hparse, hnew⟩, hdata⟩, hupdate⟩ := h
  obtain ⟨data, hdata, hsame⟩ := exists_ok_of_any hdata
  obtain ⟨data', hdata', hsame⟩ := exists_ok_of_any hsame
  obtain ⟨v', hupdate, h⟩ := exists_ok_of_any hupdate
  obtain ⟨entries', hparse', h⟩ := exists_ok_of_any h
  refine ⟨of_decide_eq_true hmem, v, v', entries', hopen, eq_ok_of_any hparse,
    eq_ok_of_any hnew, ?_, hupdate,
    hparse', of_decide_eq_true h⟩
  rw [hdata, hdata', of_decide_eq_true hsame]

/-- The five updates, by evaluation. -/
theorem updateDiffers_examples :
    updateDiffers twoStreams [exampleEntry 1 false 5 128 true [3, 4] 32 3 [5]]
      ⟨exampleEntry 1 false 5 128 true [3, 4] 32 3 [5], 6, true, [6]⟩ ∧
    updateDiffers movedDirectory
      [exampleEntry 1 true 5 128 true [3, 4] 32 2 [5], exampleEntry 2 false 0 0 false [5] 0 2 []]
      ⟨exampleEntry 1 true 5 128 true [3, 4] 32 2 [5], 6, true, [6]⟩ ∧
    updateDiffers sharedCluster
      [exampleEntry 1 true 5 256 false [3, 4] 32 2 [5, 7],
        exampleEntry 2 false 0 0 false [5, 7] 128 2 [],
        exampleEntry 1 true 6 256 false [3, 4] 96 2 [6, 7],
          exampleEntry 2 false 0 0 false [6, 7] 128 2 []]
      ⟨exampleEntry 2 false 0 0 false [5, 7] 128 2 [], 9, false, []⟩ ∧
    updateDiffers twinDirectories
      [exampleEntry 1 true 5 128 true [3, 4] 32 2 [5], exampleEntry 2 false 0 0 false [5] 0 2 [],
        exampleEntry 1 true 6 128 true [3, 4] 96 2 [6], exampleEntry 2 false 0 0 false [6] 0 2 []]
      ⟨exampleEntry 1 true 5 128 true [3, 4] 32 2 [5], 6, true, [6]⟩ ∧
    updateDiffers copiedRoot
      [exampleEntry 1 true 5 256 false [3, 4] 32 2 [5, 6],
        exampleEntry 2 true 5 256 false [5, 6] 160 2 [5, 6]]
      ⟨exampleEntry 1 true 5 256 false [3, 4] 32 2 [5, 6], 7, false, [7, 3]⟩ := by
  refine ⟨?_, ?_, ?_, ?_, ?_⟩ <;> decide +kernel

/-- **The update is not exact** for a set with two stream extensions, for a directory with entries,
for an entry in a cluster of two directories, and for a directory that moves to where another one
starts or into the directory that lists it. -/
theorem update_entry_not_exact : (∃ entries m, UpdateDiffers twoStreams entries m) ∧
    (∃ entries m, UpdateDiffers movedDirectory entries m) ∧
    (∃ entries m, UpdateDiffers sharedCluster entries m) ∧
    (∃ entries m, UpdateDiffers twinDirectories entries m) ∧
    ∃ entries m, UpdateDiffers copiedRoot entries m := by
  obtain ⟨hstreams, hmoved, hshared, htwin, hroot⟩ := updateDiffers_examples
  exact ⟨⟨_, _, updateDiffers_sound hstreams⟩, ⟨_, _, updateDiffers_sound hmoved⟩,
    ⟨_, _, updateDiffers_sound hshared⟩, ⟨_, _, updateDiffers_sound htwin⟩,
    _, _, updateDiffers_sound hroot⟩

/-- The directory with a file moves to its copy. -/
theorem update_entry_exact_moved :
    ∃ v v', Volume.open movedDirectory true = .ok v ∧
      v.parse = .ok [exampleEntry 1 true 5 128 true [3, 4] 32 2 [5],
        exampleEntry 2 false 0 0 false [5] 0 2 []] ∧
      v.updateEntry (exampleEntry 1 true 5 128 true [3, 4] 32 2 [5]) 6 true = .ok v' ∧
      v'.parse = .ok [exampleEntry 1 true 6 128 true [3, 4] 32 2 [6],
        exampleEntry 2 false 0 0 false [6] 0 2 []] := by
  obtain ⟨v, hopen, hv⟩ := exists_ok_of_any (x := Volume.open movedDirectory true)
    (p := fun v ↦ v.writable && v.boot.root = 3 && v.rootChain.toOption.any (· = [3, 4]) &&
      v.parse.toOption.any (· = [exampleEntry 1 true 5 128 true [3, 4] 32 2 [5],
        exampleEntry 2 false 0 0 false [5] 0 2 []]) &&
      (v.fileClusters 6 128 true).toOption.any (· = [6]) &&
      (v.dirData [6]).toOption.any (fun data ↦ (v.dirData [5]).toOption.any (data = ·)) &&
      (v.dirData [3, 4]).toOption.any fun data ↦
        (secondaries (bytesImage data) 32 2 0xC0).length = 1) (by decide +kernel)
  simp only [Bool.and_eq_true] at hv
  obtain ⟨⟨⟨⟨⟨⟨hwritable, hfirst⟩, hroot⟩, hparse⟩, hnew⟩, hsame⟩, hone⟩ := hv
  obtain ⟨data, hdata, hsame⟩ := exists_ok_of_any hsame
  obtain ⟨data', hdata', hsame⟩ := exists_ok_of_any hsame
  obtain ⟨rootData, hrootData, hone⟩ := exists_ok_of_any hone
  have hapart : v.DirsApart [exampleEntry 1 true 5 128 true [3, 4] 32 2 [5],
      exampleEntry 2 false 0 0 false [5] 0 2 []]
      (exampleEntry 1 true 5 128 true [3, 4] 32 2 [5]) := by
    refine ⟨?_, by simp [exampleEntry], fun _ _ hhead ↦ ?_, by simp [exampleEntry]⟩
    · simp [exampleEntry, of_decide_eq_true hfirst]
    · exact absurd (congrArg some (of_decide_eq_true hfirst).symm) hhead
  have hstream : v.OneStream (exampleEntry 1 true 5 128 true [3, 4] 32 2 [5]) := by
    intro data hdata
    obtain rfl := ok.inj (hrootData.symm.trans hdata)
    exact of_decide_eq_true hone
  have hcopy : v.dirData [6] = v.dirData [5] := by rw [hdata, hdata', of_decide_eq_true hsame]
  obtain ⟨v', hupdate, hparse'⟩ := Volume.update_entry_exact hwritable (eq_ok_of_any hparse) hapart
    mem_cons_self hstream (by decide) (eq_ok_of_any hnew) (fun _ ↦ hcopy)
    fun _ _ ↦ ⟨by simp [exampleEntry], by rw [of_decide_eq_true hfirst]; decide, by decide⟩
  exact ⟨v, v', hopen, eq_ok_of_any hparse, hupdate, hparse'⟩

end LinuxDefragger.Exfat
