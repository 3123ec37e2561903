import LinuxDefragger.Ntfs.Record

/-!
# What a record's attributes are

`attributeAt` and `attributesFrom` say how the attributes of a record are decoded. `Decodes` says
which bytes of the record an attribute is made of, and `Parses` which attributes stand one behind
the other from a position on. An attribute depends on its own bytes alone (`Decodes.congr`), so it
can be followed when a record is rewritten around it.
-/

open Except List Storage

namespace LinuxDefragger.Ntfs

/-! ### One attribute -/

/-- The fields of a nonresident attribute at `pos`. -/
structure Mapped (m : Image) (pos : ℕ) (a : Attribute) : Prop where
  le_length : 64 ≤ a.length
  lowestVcn : rd64 m (pos + 16) = a.lowestVcn
  highestVcn : rd64 m (pos + 24) = a.highestVcn
  runOffset : rd16 m (pos + 32) = a.runOffset
  le_runOffset : 64 ≤ a.runOffset
  runOffset_lt : a.runOffset < a.length
  runs : decodeRunlist (m.read (pos + a.runOffset) (a.length - a.runOffset)) = .ok a.runs
  vcns : (runsLength a.runs : ℤ) = a.highestVcn - a.lowestVcn + 1
  dataSize : rd64 m (pos + 48) = a.dataSize

/-- The attribute `a` is the one at `pos`. -/
structure Decodes (m : Image) (pos : ℕ) (a : Attribute) : Prop where
  offset : a.offset = pos
  atype : rd32 m pos = a.atype
  ne_marker : a.atype ≠ 0xFFFFFFFF
  length : rd32 m (pos + 4) = a.length
  le_length : 24 ≤ a.length
  nonresident : a.nonresident = true ↔ m (pos + 8) ≠ 0
  flags : rd16 m (pos + 12) = a.flags
  name : m.read (pos + rd16 m (pos + 10)) ((m (pos + 9)).toNat * 2) = a.name
  name_inside : m (pos + 9) ≠ 0 → 16 ≤ rd16 m (pos + 10) ∧
    rd16 m (pos + 10) + (m (pos + 9)).toNat * 2 ≤ a.length
  resident : a.nonresident = false →
    a = { offset := a.offset, length := a.length, atype := a.atype, name := a.name
          flags := a.flags, nonresident := false }
  mapped : a.nonresident = true → Mapped m pos a

section

variable {record : List UInt8} {inUse pos : ℕ} {a : Attribute}

theorem attributeName_eq_ok {length nameLen nameOff : ℕ} {name : List UInt8}
    (hlength : pos + length ≤ record.length) :
    attributeName record pos length nameLen nameOff = .ok name ↔
      (nameLen ≠ 0 → 16 ≤ nameOff ∧ nameOff + nameLen * 2 ≤ length) ∧
        (bytesImage record).read (pos + nameOff) (nameLen * 2) = name := by
  unfold attributeName
  split_ifs with hzero
  · rw [raiseIf_bind_eq_ok, pure_eq_ok, forall_prop_of_true hzero]
    push Not
    refine and_congr_right fun hinside ↦ ?_
    rw [slice_eq_read (n := nameLen * 2) (by omega) (by omega), ok.injEq]
  · rw [not_not] at hzero
    subst hzero
    simp [pure_eq_ok, Image.read]

theorem attributeAt_eq_none : attributeAt record inUse pos = .ok none ↔
      pos + 4 ≤ record.length ∧ rd32 (bytesImage record) pos = 0xFFFFFFFF := by
  rw [← u32_eq_ok]
  refine ⟨fun h ↦ ?_, fun h ↦ by rw [attributeAt, h]; rfl⟩
  rw [attributeAt] at h
  obtain ⟨atype, htype, h⟩ := bind_eq_ok.1 h
  split_ifs at h with hmarker
  · rw [htype, hmarker]
  -- every other way through the code ends in an attribute
  obtain ⟨length, -, h⟩ := bind_eq_ok.1 h
  obtain ⟨-, h⟩ := raiseIf_bind_eq_ok.1 h
  obtain ⟨nonresident, -, h⟩ := bind_eq_ok.1 h
  obtain ⟨nameLen, -, h⟩ := bind_eq_ok.1 h
  obtain ⟨nameOff, -, h⟩ := bind_eq_ok.1 h
  obtain ⟨flags, -, h⟩ := bind_eq_ok.1 h
  obtain ⟨name, -, h⟩ := bind_eq_ok.1 h
  split_ifs at h with hzero
  · obtain ⟨-, h⟩ := raiseIf_bind_eq_ok.1 h
    obtain ⟨lowestVcn, -, h⟩ := bind_eq_ok.1 h
    obtain ⟨highestVcn, -, h⟩ := bind_eq_ok.1 h
    obtain ⟨runOffset, -, h⟩ := bind_eq_ok.1 h
    obtain ⟨-, h⟩ := raiseIf_bind_eq_ok.1 h
    obtain ⟨runs, -, h⟩ := bind_eq_ok.1 h
    obtain ⟨-, h⟩ := raiseIf_bind_eq_ok.1 h
    obtain ⟨dataSize, -, h⟩ := bind_eq_ok.1 h
    cases h
  · cases h

/-- What an attribute returned by `attributeAt` is. -/
theorem decodes_of_attributeAt (hin : inUse ≤ record.length)
    (h : attributeAt record inUse pos = .ok (some a)) :
    Decodes (bytesImage record) pos a ∧ pos + a.length ≤ inUse := by
  rw [attributeAt] at h
  obtain ⟨atype, htype, h⟩ := bind_eq_ok.1 h
  split_ifs at h with hmarker
  · cases h
  obtain ⟨length, hlength, h⟩ := bind_eq_ok.1 h
  obtain ⟨hbounds, h⟩ := raiseIf_bind_eq_ok.1 h
  obtain ⟨nonresident, hnonresident, h⟩ := bind_eq_ok.1 h
  obtain ⟨nameLen, hnameLen, h⟩ := bind_eq_ok.1 h
  obtain ⟨nameOff, hnameOff, h⟩ := bind_eq_ok.1 h
  obtain ⟨flags, hflags, h⟩ := bind_eq_ok.1 h
  obtain ⟨name, hname, h⟩ := bind_eq_ok.1 h
  push Not at hbounds
  rw [attributeName_eq_ok (by omega)] at hname
  rw [u32_eq_ok] at htype hlength
  rw [byteAt_eq_ok] at hnonresident hnameLen
  rw [u16_eq_ok] at hnameOff hflags
  rw [← hnameOff.2, ← hnameLen.2] at hname
  have hinside : bytesImage record (pos + 9) ≠ 0 → _ := fun h0 ↦
    hname.1 fun hzero ↦ h0 (UInt8.toNat_inj.1 hzero)
  split_ifs at h with hzero
  · obtain ⟨hshort, h⟩ := raiseIf_bind_eq_ok.1 h
    obtain ⟨lowestVcn, hlowest, h⟩ := bind_eq_ok.1 h
    obtain ⟨highestVcn, hhighest, h⟩ := bind_eq_ok.1 h
    obtain ⟨runOffset, hrunOffset, h⟩ := bind_eq_ok.1 h
    obtain ⟨hoffset, h⟩ := raiseIf_bind_eq_ok.1 h
    obtain ⟨runs, hruns, h⟩ := bind_eq_ok.1 h
    obtain ⟨hvcns, h⟩ := raiseIf_bind_eq_ok.1 h
    obtain ⟨dataSize, hdataSize, h⟩ := bind_eq_ok.1 h
    push Not at hshort hoffset hvcns
    rw [slice_eq_read (n := length - runOffset) (by omega) (by omega)] at hruns
    obtain rfl := Option.some.inj (ok.inj h)
    refine ⟨⟨rfl, htype.2, hmarker, hlength.2, hbounds.1, ?_, hflags.2, hname.2, hinside,
      (fun hresident ↦ by cases hresident), fun _ ↦ ?_⟩, hbounds.2⟩
    · simpa [hnonresident.2] using hzero
    · exact ⟨hshort, (u64_eq_ok.1 hlowest).2, (u64_eq_ok.1 hhighest).2, (u16_eq_ok.1 hrunOffset).2,
        hoffset.1, hoffset.2, hruns, hvcns, (u64_eq_ok.1 hdataSize).2⟩
  · obtain rfl := Option.some.inj (ok.inj h)
    refine ⟨⟨rfl, htype.2, hmarker, hlength.2, hbounds.1, ?_, hflags.2, hname.2, hinside,
      fun _ ↦ rfl, fun hnonresident ↦ by cases hnonresident⟩, hbounds.2⟩
    simpa [hnonresident.2] using hzero

/-- An attribute inside the record is returned by `attributeAt`. -/
theorem Decodes.attributeAt_eq (h : Decodes (bytesImage record) pos a) (hin : inUse ≤ record.length)
    (hend : pos + a.length ≤ inUse) : attributeAt record inUse pos = .ok (some a) := by
  have hlow := h.le_length
  have htype : u32 record pos = .ok a.atype := u32_eq_ok.2 ⟨by omega, h.atype⟩
  have hlength : u32 record (pos + 4) = .ok a.length := u32_eq_ok.2 ⟨by omega, h.length⟩
  have hnonresident : byteAt record (pos + 8) = .ok (bytesImage record (pos + 8)) :=
    byteAt_eq_ok.2 ⟨by omega, rfl⟩
  have hnameLen : byteAt record (pos + 9) = .ok (bytesImage record (pos + 9)) :=
    byteAt_eq_ok.2 ⟨by omega, rfl⟩
  have hnameOff : u16 record (pos + 10) = .ok (rd16 (bytesImage record) (pos + 10)) :=
    u16_eq_ok.2 ⟨by omega, rfl⟩
  have hflags : u16 record (pos + 12) = .ok a.flags := u16_eq_ok.2 ⟨by omega, h.flags⟩
  have hname : attributeName record pos a.length (bytesImage record (pos + 9)).toNat
      (rd16 (bytesImage record) (pos + 10)) = .ok a.name :=
    (attributeName_eq_ok (by omega)).2 ⟨fun h0 ↦ h.name_inside fun hzero ↦ h0 (by rw [hzero]; rfl),
      h.name⟩
  rw [attributeAt, htype, ok_bind, if_neg h.ne_marker, hlength, ok_bind,
    raiseIf_bind_of_not (by omega), hnonresident, ok_bind, hnameLen, ok_bind, hnameOff, ok_bind,
    hflags, ok_bind, hname, ok_bind]
  cases hres : a.nonresident with
  | true =>
    obtain ⟨hshort, hlowest, hhighest, hoffset, hle, hlt, hruns, hvcns, hsize⟩ := h.mapped hres
    rw [← slice_eq_read (b := pos + a.length) (by omega) (by omega)] at hruns
    rw [if_pos (h.nonresident.1 hres), raiseIf_bind_of_not (by omega),
      u64_eq_ok.2 ⟨by omega, hlowest⟩, ok_bind, u64_eq_ok.2 ⟨by omega, hhighest⟩, ok_bind,
      u16_eq_ok.2 ⟨by omega, hoffset⟩, ok_bind, raiseIf_bind_of_not (by omega), hruns, ok_bind,
      raiseIf_bind_of_not (not_not.2 hvcns), u64_eq_ok.2 ⟨by omega, hsize⟩, ok_bind, ← hres,
      ← h.offset]
    rfl
  | false =>
    rw [if_neg fun h0 ↦ by simp [h.nonresident.2 h0] at hres, ← h.offset]
    exact congrArg (Except.ok ∘ some) (h.resident hres).symm

end

section Congr

variable {m m' : Image} {pos pos' n : ℕ} {a : Attribute}

section

variable (h : ∀ i < n, m' (pos' + i) = m (pos + i))
include h

theorem read_shift : m'.read pos' n = m.read pos n := map_congr_left fun i hi ↦ h i (mem_range.1 hi)

theorem rd16_shift {k : ℕ} (hk : k + 2 ≤ n) : rd16 m' (pos' + k) = rd16 m (pos + k) :=
  rd16_congr (h k (by omega)) (h (k + 1) (by omega))

theorem rd32_shift {k : ℕ} (hk : k + 4 ≤ n) : rd32 m' (pos' + k) = rd32 m (pos + k) :=
  rd32_congr fun i hi ↦ by rw [Nat.add_assoc, Nat.add_assoc, h (k + i) (by omega)]

theorem rd64_shift {k : ℕ} (hk : k + 8 ≤ n) : rd64 m' (pos' + k) = rd64 m (pos + k) := by
  rw [rd64, rd64, rd32_shift h (by omega), Nat.add_assoc, Nat.add_assoc, rd32_shift h (by omega)]

end

theorem Mapped.congr (ha : Mapped m pos a) (h : ∀ i < a.length, m' (pos' + i) = m (pos + i)) :
    Mapped m' pos' { a with offset := pos' } := by
  have hlong := ha.le_length
  have hlt := ha.runOffset_lt
  have hruns : m'.read (pos' + a.runOffset) (a.length - a.runOffset) =
      m.read (pos + a.runOffset) (a.length - a.runOffset) :=
    read_shift fun i hi ↦ by rw [Nat.add_assoc, Nat.add_assoc, h _ (by omega)]
  refine ⟨hlong, ?_, ?_, ?_, ha.le_runOffset, hlt, by rw [hruns]; exact ha.runs, ha.vcns, ?_⟩
  · rw [rd64_shift h (by omega), ha.lowestVcn]
  · rw [rd64_shift h (by omega), ha.highestVcn]
  · rw [rd16_shift h (by omega), ha.runOffset]
  · rw [rd64_shift h (by omega), ha.dataSize]

/-- **An attribute is made of its own bytes**: where they stand again, it is read again. -/
theorem Decodes.congr (ha : Decodes m pos a) (h : ∀ i < a.length, m' (pos' + i) = m (pos + i)) :
    Decodes m' pos' { a with offset := pos' } := by
  have hlong := ha.le_length
  have hoff := rd16_shift (k := 10) h (by omega)
  have hlen := h 9 (by omega)
  refine ⟨rfl, ?_, ha.ne_marker, ?_, hlong, ?_, ?_, ?_, ?_, fun hres ↦ ?_, fun hres ↦ ?_⟩
  · exact (rd32_shift (k := 0) h (by omega)).trans ha.atype
  · rw [rd32_shift h (by omega), ha.length]
  · rw [h 8 (by omega)]
    exact ha.nonresident
  · rw [rd16_shift h (by omega), ha.flags]
  · rw [hoff, hlen]
    refine Eq.trans ?_ ha.name
    by_cases hzero : m (pos + 9) = 0
    · rw [hzero]
      rfl
    · have := ha.name_inside hzero
      exact read_shift fun i hi ↦ by rw [Nat.add_assoc, Nat.add_assoc, h _ (by omega)]
  · rw [hoff, hlen]
    exact ha.name_inside
  · rw [ha.resident hres]
  · exact (ha.mapped hres).congr h

end Congr

/-! ### The attributes of a record -/

/-- The attributes from `pos` on, up to the end marker or the end of the used bytes. -/
inductive Parses (m : Image) (inUse : ℕ) : ℕ → List Attribute → Prop
  | stop {pos : ℕ} (h : inUse < pos + 16) : Parses m inUse pos []
  | marker {pos : ℕ} (h : pos + 16 ≤ inUse) (hm : rd32 m pos = 0xFFFFFFFF) : Parses m inUse pos []
  | cons {pos : ℕ} {a : Attribute} {attrs : List Attribute} (h : pos + 16 ≤ inUse)
      (ha : Decodes m pos a) (hend : pos + a.length ≤ inUse)
      (hrest : Parses m inUse (pos + a.length) attrs) : Parses m inUse pos (a :: attrs)

section Parse

variable {record : List UInt8} {m : Image} {inUse pos : ℕ} {attrs : List Attribute}
  {a b : Attribute}

theorem parses_of_attributesFrom (hin : inUse ≤ record.length) {fuel : ℕ}
    (hfuel : inUse ≤ pos + fuel) (h : attributesFrom record inUse fuel pos = (attrs, .ok ())) :
    Parses (bytesImage record) inUse pos attrs := by
  induction fuel generalizing pos attrs with
  | zero =>
    obtain rfl : [] = attrs := congrArg Prod.fst h
    exact .stop (by omega)
  | succ fuel ih =>
    rw [attributesFrom] at h
    split_ifs at h with hpos
    · cases hat : attributeAt record inUse pos with
      | error e => simp [hat] at h
      | ok found =>
        cases found with
        | none =>
          obtain rfl : [] = attrs := by simpa [hat] using congrArg Prod.fst h
          exact .marker hpos (attributeAt_eq_none.1 hat).2
        | some a =>
          rw [hat] at h
          dsimp only at h
          obtain ⟨hdecodes, hend⟩ := decodes_of_attributeAt hin hat
          have hlong := hdecodes.le_length
          cases hrest : attributesFrom record inUse fuel (pos + a.length) with
          | mk rest ending =>
            rw [hrest] at h
            obtain ⟨rfl, rfl⟩ := Prod.mk.inj h
            exact .cons hpos hdecodes hend (ih (by omega) hrest)
    · obtain rfl : [] = attrs := congrArg Prod.fst h
      exact .stop (by omega)

theorem Parses.attributesFrom_eq (h : Parses (bytesImage record) inUse pos attrs)
    (hin : inUse ≤ record.length) {fuel : ℕ} (hfuel : inUse ≤ pos + fuel) :
    attributesFrom record inUse fuel pos = (attrs, .ok ()) := by
  induction h generalizing fuel with
  | stop h =>
    cases fuel with
    | zero => rfl
    | succ fuel =>
      rw [attributesFrom, if_neg (by omega)]
      rfl
  | @marker pos h hm =>
    obtain ⟨fuel, rfl⟩ := Nat.exists_eq_succ_of_ne_zero (show fuel ≠ 0 by omega)
    have hnone : attributeAt record inUse pos = .ok none := attributeAt_eq_none.2 ⟨by omega, hm⟩
    rw [attributesFrom, if_pos h, hnone]
    rfl
  | @cons pos a attrs h ha hend hrest ih =>
    obtain ⟨fuel, rfl⟩ := Nat.exists_eq_succ_of_ne_zero (show fuel ≠ 0 by omega)
    have hlong := ha.le_length
    rw [attributesFrom, if_pos h, ha.attributeAt_eq hin hend]
    dsimp only
    rw [ih (by omega)]

/-- **What `list(_attributes(record))` returns.** -/
theorem attributeList_eq_ok : attributeList record = .ok attrs ↔ 28 ≤ record.length ∧
    Parses (bytesImage record) (min record.length (rd32 (bytesImage record) 24))
      (rd16 (bytesImage record) 20) attrs := by
  have hin := min_le_left record.length (rd32 (bytesImage record) 24)
  constructor
  · intro h
    obtain ⟨⟨found, ending⟩, hfound, h⟩ := bind_eq_ok.1 h
    obtain ⟨⟨⟩, rfl, h⟩ := bind_eq_ok.1 h
    obtain rfl := ok.inj h
    obtain ⟨pos, hpos, hfound⟩ := bind_eq_ok.1 hfound
    obtain ⟨inUse, hinUse, hfound⟩ := bind_eq_ok.1 hfound
    obtain ⟨-, rfl⟩ := u16_eq_ok.1 hpos
    obtain ⟨hsize, rfl⟩ := u32_eq_ok.1 hinUse
    exact ⟨hsize, parses_of_attributesFrom hin (by omega) (ok.inj hfound)⟩
  · rintro ⟨hsize, h⟩
    rw [attributeList, attributes, u16_eq_ok.2 ⟨by omega, rfl⟩, ok_bind,
      u32_eq_ok.2 ⟨by omega, rfl⟩, ok_bind, h.attributesFrom_eq hin (by omega)]
    rfl

/-- The attributes lie behind the first position and in the used bytes. -/
theorem Parses.bounds (h : Parses m inUse pos attrs) (ha : a ∈ attrs) :
    pos ≤ a.offset ∧ a.offset + a.length ≤ inUse ∧ Decodes m a.offset a := by
  induction h with
  | stop | marker => cases ha
  | cons h hdecodes hend hrest ih =>
    rcases mem_cons.1 ha with rfl | ha
    · have hoffset := hdecodes.offset
      exact ⟨hoffset.ge, by omega, by rwa [hoffset]⟩
    · obtain ⟨hlow, hrest⟩ := ih ha
      exact ⟨by omega, hrest⟩

/-- Two attributes are the same, or one lies behind the other. -/
theorem Parses.apart (h : Parses m inUse pos attrs) (ha : a ∈ attrs) (hb : b ∈ attrs) :
    a = b ∨ a.offset + a.length ≤ b.offset ∨ b.offset + b.length ≤ a.offset := by
  induction h with
  | stop | marker => cases ha
  | cons h hdecodes hend hrest ih =>
    have hoffset := hdecodes.offset
    rcases mem_cons.1 ha with rfl | ha' <;> rcases mem_cons.1 hb with rfl | hb'
    · exact .inl rfl
    · have := (hrest.bounds hb').1
      exact .inr (.inl (by omega))
    · have := (hrest.bounds ha').1
      exact .inr (.inr (by omega))
    · exact ih ha' hb'

end Parse

end LinuxDefragger.Ntfs
