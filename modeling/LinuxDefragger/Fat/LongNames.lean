import LinuxDefragger.Fat.Names

/-!
# The text of a long name

`lfn_name` turns the UTF-16 units of a long name into UTF-8. What it should give are the characters
of the units (`decodeUnits`): a surrogate pair is one character, and a surrogate without its partner
is the replacement character. The bytes are those of these characters, except for a name whose last
unit is a high surrogate: this one is encoded as if it were a character (`lfnName_decodes_iff`).
-/

open List Storage

namespace LinuxDefragger.Fat

/-! ### The characters of a name -/

/-- The code point of a unit that is not part of a pair: the replacement character for a surrogate,
and `_` for what separates paths. -/
def unitCode (w : ℕ) : ℕ :=
  if isHighSurrogate w || isLowSurrogate w then 0xFFFD else if w = 0x2F ∨ w = 0x5C then 0x5F else w

/-- The character of a unit that is not part of a pair. -/
def unitChar (w : ℕ) : Char := Char.ofNat (unitCode w)

/-- The character of a surrogate pair. -/
def pairChar (high low : ℕ) : Char := Char.ofNat (surrogatePair high low)

/-- **The characters of UTF-16 units**, up to the first one that ends a name. -/
def decodeUnits : List ℕ → List Char
  | [] => []
  | [w] => if endsName w then [] else [unitChar w]
  | w :: low :: rest =>
    if endsName w then []
    else if isHighSurrogate w && isLowSurrogate low then pairChar w low :: decodeUnits rest
    else unitChar w :: decodeUnits (low :: rest)

/-- UTF-8 -/
def utf8 (chars : List Char) : List UInt8 := chars.flatMap String.utf8EncodeChar

/-- The units of a name. -/
def LfnState.units (state : LfnState) : List ℕ := (List.range (state.slots * 13)).map state.chars

/-- The name has no end mark, and its last unit is a high surrogate. -/
def EndsOpen (units : List ℕ) : Prop :=
  (∀ w ∈ units, endsName w = false) ∧ ∃ w ∈ units.getLast?, isHighSurrogate w = true

/-! ### The encoder -/

/-- A code point that is a character, and not a surrogate. -/
def IsScalar (cp : ℕ) : Prop := cp < 0xD800 ∨ 0xDFFF < cp ∧ cp ≤ 0x10FFFF

variable {cp low w : ℕ} {out : List UInt8}

theorem IsScalar.toNat_ofNat (h : IsScalar cp) : (Char.ofNat cp).val.toNat = cp := by
  have hvalid : cp.isValidChar := by
    unfold IsScalar at h
    unfold Nat.isValidChar
    omega
  rw [Char.ofNat, dif_pos hvalid]
  rfl

/-- A continuation byte. -/
theorem or_and_eq_add (x : ℕ) : 0x80 ||| (x &&& 0x3F) = x % 64 + 128 := by
  have hmod : x &&& 0x3F = x % 64 := Nat.and_two_pow_sub_one_eq_mod x 6
  have hor := Nat.two_pow_add_eq_or_of_lt (Nat.mod_lt x (show 0 < 2 ^ 6 by decide)) 2
  rw [hmod, Nat.add_comm]
  exact hor.symm

/-- The first byte of several, where `k` bits of the code point are left. -/
theorem lead_or_eq_add {x i k : ℕ} (a : ℕ) (hki : k ≤ i) (hx : x < 2 ^ k) :
    2 ^ i * a ||| x = x % 2 ^ k + 2 ^ i * a := by
  rw [← Nat.two_pow_add_eq_or_of_lt (hx.trans_le (Nat.pow_le_pow_right Nat.two_pos hki)),
    Nat.mod_eq_of_lt hx,
    Nat.add_comm]

/-- The bytes that UTF-8 has for a number, whether it is a character or not. -/
def codeBytes (cp : ℕ) : List UInt8 :=
  if cp ≤ 0x7F then [UInt8.ofNat cp]
  else if cp ≤ 0x7FF then [UInt8.ofNat (cp / 64 % 32 + 192), UInt8.ofNat (cp % 64 + 128)]
  else if cp ≤ 0xFFFF then
    [UInt8.ofNat (cp / 4096 % 16 + 224), UInt8.ofNat (cp / 64 % 64 + 128),
      UInt8.ofNat (cp % 64 + 128)]
  else
    [UInt8.ofNat (cp / 262144 % 8 + 240), UInt8.ofNat (cp / 4096 % 64 + 128),
      UInt8.ofNat (cp / 64 % 64 + 128),
      UInt8.ofNat (cp % 64 + 128)]

theorem IsScalar.codeBytes_eq (h : IsScalar cp) :
    codeBytes cp = String.utf8EncodeChar (Char.ofNat cp) := by
  conv_lhs => rw [← h.toNat_ofNat]
  rfl

theorem length_codeBytes_le (h : cp ≤ 0xFFFF) : (codeBytes cp).length ≤ 3 := by
  unfold codeBytes
  split_ifs <;> simp

theorem length_codeBytes_of_lt (h : 0xFFFF < cp) : (codeBytes cp).length = 4 := by
  unfold codeBytes
  rw [if_neg (by omega), if_neg (by omega), if_neg (by omega)]
  rfl

/-- **The encoder is UTF-8**, if there is room in the buffer. -/
theorem utf8Append_eq {c : ℕ} {o : List UInt8} (hcp : cp ≤ 0x10FFFF)
    (hplain : ¬(cp = 0x2F ∨ cp = 0x5C ∨ cp = 0)) (hroom : o.length + (codeBytes cp).length < c) :
    utf8Append c o cp = o ++ codeBytes cp := by
  unfold utf8Append
  unfold codeBytes at hroom ⊢
  simp only [if_neg hplain, or_and_eq_add, Nat.shiftRight_eq_div_pow, Nat.pow_zero, Nat.div_one]
  split_ifs at hroom ⊢ with h₁ h₂ h₃
  all_goals simp only [length_cons, length_nil] at hroom
  · rfl
  · omega
  · have hlead := lead_or_eq_add (i := 6) (k := 5) 3 (by decide) (show cp / 64 < 2 ^ 5 by omega)
    exact congrArg (fun b ↦ o ++ [UInt8.ofNat b, UInt8.ofNat (cp % 64 + 128)]) hlead
  · omega
  · have hlead := lead_or_eq_add (i := 5) (k := 4) 7 (by decide) (show cp / 4096 < 2 ^ 4 by omega)
    exact congrArg
      (fun b ↦ o ++ [UInt8.ofNat b, UInt8.ofNat (cp / 64 % 64 + 128), UInt8.ofNat (cp % 64 + 128)])
      hlead
  · omega
  · have hlead :=
      lead_or_eq_add (i := 4) (k := 3) 15 (by decide) (show cp / 262144 < 2 ^ 3 by omega)
    exact congrArg (fun b ↦ o ++ [UInt8.ofNat b, UInt8.ofNat (cp / 4096 % 64 + 128),
      UInt8.ofNat (cp / 64 % 64 + 128), UInt8.ofNat (cp % 64 + 128)]) hlead
  · omega

/-! ### The loop over the units -/

theorem isScalar_surrogatePair {high : ℕ} (hhigh : isHighSurrogate high = true)
    (hlow : isLowSurrogate low = true) :
    0xFFFF < surrogatePair high low ∧ surrogatePair high low ≤ 0x10FFFF := by
  simp only [isHighSurrogate, isLowSurrogate, Bool.and_eq_true, decide_eq_true_eq] at hhigh hlow
  unfold surrogatePair
  rw [Nat.shiftLeft_eq]
  omega

theorem isScalar_unitCode (hw : w < 0x10000) (hend : endsName w = false) :
    IsScalar (unitCode w) ∧ unitCode w ≤ 0xFFFF ∧
    ¬(unitCode w = 0x2F ∨ unitCode w = 0x5C ∨ unitCode w = 0) := by
  simp only [endsName, Bool.or_eq_false_iff, decide_eq_false_iff_not] at hend
  unfold unitCode IsScalar
  simp only [isHighSurrogate, isLowSurrogate, Bool.or_eq_true, Bool.and_eq_true, decide_eq_true_eq]
  split_ifs
  · decide
  · decide
  · omega

theorem encode_unitChar (hw : w < 0x10000) (hend : endsName w = false) :
    String.utf8EncodeChar (unitChar w) = codeBytes (unitCode w) :=
  (isScalar_unitCode hw hend).1.codeBytes_eq.symm

/-- A unit that is not part of a pair. -/
theorem utf8Append_unit (hw : w < 0x10000) (hend : endsName w = false)
    (hroom : out.length + 3 < 1041) :
    utf8Append 1041 out (if isHighSurrogate w || isLowSurrogate w then 0xFFFD else w) =
      out ++ String.utf8EncodeChar (unitChar w) := by
  obtain ⟨-, hle, hplain⟩ := isScalar_unitCode hw hend
  have hlength := length_codeBytes_le hle
  have hcode :=
    utf8Append_eq (c := 1041) (o := out) (show unitCode w ≤ 0x10FFFF by omega) hplain (by omega)
  rw [encode_unitChar hw hend, ← hcode]
  unfold unitCode
  split_ifs with hsurrogate hslash
  · rfl
  · -- the encoder has its own underscore
    rcases hslash with rfl | rfl
    · rfl
    · rfl
  · rfl

/-- A surrogate pair. -/
theorem utf8Append_pair {high : ℕ} (hhigh : isHighSurrogate high = true)
    (hlow : isLowSurrogate low = true) (hroom : out.length + 4 < 1041) :
    utf8Append 1041 out (surrogatePair high low) = out ++ String.utf8EncodeChar
      (pairChar high low) := by
  obtain ⟨hgt, hle⟩ := isScalar_surrogatePair hhigh hlow
  have hscalar : IsScalar (surrogatePair high low) := .inr ⟨by omega, hle⟩
  have hlength := length_codeBytes_of_lt hgt
  rw [utf8Append_eq hle (by omega) (by omega), hscalar.codeBytes_eq]
  rfl

/-- A pair is one character of four bytes. -/
theorem length_encode_pairChar {high : ℕ} (hhigh : isHighSurrogate high = true)
    (hlow : isLowSurrogate low = true) :
    (String.utf8EncodeChar (pairChar high low)).length = 4 := by
  obtain ⟨hgt, hle⟩ := isScalar_surrogatePair hhigh hlow
  have hscalar : IsScalar (surrogatePair high low) := .inr ⟨by omega, hle⟩
  rw [pairChar, ← hscalar.codeBytes_eq, length_codeBytes_of_lt hgt]

/-- A high surrogate in the last unit is encoded itself, and not the replacement character. -/
theorem utf8Append_open_ne (hhigh : isHighSurrogate w = true) (hroom : out.length + 3 < 1041) :
    utf8Append 1041 out (if isLowSurrogate w then 0xFFFD else w) ≠
      out ++ String.utf8EncodeChar (unitChar w) := by
  have hunit : unitCode w = 0xFFFD := by rw [unitCode, hhigh, Bool.true_or, if_pos rfl]
  simp only [isHighSurrogate, Bool.and_eq_true, decide_eq_true_eq] at hhigh
  have hlow : ¬isLowSurrogate w = true := by
    simp only [isLowSurrogate, Bool.and_eq_true, decide_eq_true_eq]
    omega
  have hlength := length_codeBytes_le (show w ≤ 0xFFFF by omega)
  rw [if_neg hlow, utf8Append_eq (by omega) (by omega) (by omega), unitChar, hunit]
  intro heq
  have hbytes : codeBytes w = [0xEF, 0xBF, 0xBD] := append_cancel_left heq
  -- the first byte of a surrogate is another one
  rw [codeBytes, if_neg (by omega), if_neg (by omega), if_pos (by omega)] at hbytes
  have hfirst := (List.cons.inj hbytes).1
  rw [show w / 4096 = 13 by omega] at hfirst
  exact absurd hfirst (by decide)

theorem endsOpen_singleton : EndsOpen [w] ↔ isHighSurrogate w = true := by
  refine ⟨fun h ↦ ?_, fun h ↦ ⟨fun w' hw' ↦ ?_, w, rfl, h⟩⟩
  · obtain ⟨-, w', hw', hhigh⟩ := h
    rwa [← Option.some.inj hw'] at hhigh
  · rw [mem_singleton.1 hw']
    simp only [isHighSurrogate, Bool.and_eq_true, decide_eq_true_eq] at h
    simp only [endsName, Bool.or_eq_false_iff, decide_eq_false_iff_not]
    omega

theorem endsOpen_cons {rest : List ℕ} :
    EndsOpen (w :: low :: rest) ↔ endsName w = false ∧ EndsOpen (low :: rest) := by
  unfold EndsOpen
  rw [forall_mem_cons, getLast?_cons_cons, and_assoc]

/-- The low half of a pair does not end a name openly. -/
theorem endsOpen_of_isLowSurrogate {rest : List ℕ} (hlow : isLowSurrogate low = true) :
    EndsOpen (low :: rest) ↔ EndsOpen rest := by
  simp only [isLowSurrogate, Bool.and_eq_true, decide_eq_true_eq] at hlow
  cases rest with
  | nil =>
    rw [endsOpen_singleton]
    refine ⟨fun hhigh ↦ ?_, fun h ↦ ?_⟩
    · simp only [isHighSurrogate, Bool.and_eq_true, decide_eq_true_eq] at hhigh
      omega
    · obtain ⟨-, w, hw, -⟩ := h
      cases hw
  | cons w rest =>
    rw [endsOpen_cons]
    refine and_iff_right ?_
    simp only [endsName, Bool.or_eq_false_iff, decide_eq_false_iff_not]
    omega

/-- **The loop of `lfn_name`** gives the bytes of the characters, unless the name ends openly. -/
theorem utf16Name_eq_iff {units : List ℕ} (hunits : ∀ w ∈ units, w < 0x10000)
    (hroom : out.length + 3 * units.length < 1041) :
    utf16Name units out = out ++ utf8 (decodeUnits units) ↔ ¬EndsOpen units := by
  fun_induction utf16Name units out with
  | case1 out => simp [decodeUnits, utf8, EndsOpen]
  | case2 w out hend =>
    have hclosed : ¬EndsOpen [w] := fun h ↦ by
      rw [h.1 w mem_cons_self] at hend
      cases hend
    simp [decodeUnits, hend, utf8, hclosed]
  | case3 w out hend =>
    rw [endsOpen_singleton, decodeUnits, if_neg hend, utf8, flatMap_singleton]
    rw [Bool.not_eq_true] at hend
    have hw := hunits w mem_cons_self
    have hroom : out.length + 3 < 1041 := hroom
    have hunit := utf8Append_unit hw hend hroom
    cases hhigh : isHighSurrogate w with
    | true =>
      simp only [not_true_eq_false, iff_false]
      exact utf8Append_open_ne hhigh hroom
    | false =>
      rw [hhigh, Bool.false_or] at hunit
      simp only [hunit, Bool.false_eq_true, not_false_eq_true]
  | case4 w low rest out hend =>
    have hclosed : ¬EndsOpen (w :: low :: rest) := fun h ↦ by
      rw [h.1 w mem_cons_self] at hend
      cases hend
    simp [decodeUnits, hend, utf8, hclosed]
  | case5 w low rest out hend hpair ih =>
    obtain ⟨hhigh, hlow⟩ := Bool.and_eq_true_iff.1 hpair
    rw [length_cons, length_cons] at hroom
    rw [utf8Append_pair hhigh hlow (by omega)] at ih ⊢
    rw [endsOpen_cons, endsOpen_of_isLowSurrogate hlow, and_iff_right (Bool.eq_false_iff.2 hend)]
    rw [decodeUnits, if_neg hend, if_pos hpair, utf8, flatMap_cons, ← append_assoc]
    refine ih (fun u hu ↦ hunits u (mem_cons_of_mem _ (mem_cons_of_mem _ hu))) ?_
    rw [length_append, length_encode_pairChar hhigh hlow]
    omega
  | case6 w low rest out hend hpair ih =>
    have hw := hunits w mem_cons_self
    have hgo := Bool.eq_false_iff.2 hend
    have hlength := length_codeBytes_le (isScalar_unitCode hw hgo).2.1
    rw [length_cons] at hroom
    rw [utf8Append_unit hw hgo (by omega)] at ih ⊢
    rw [endsOpen_cons, and_iff_right hgo]
    rw [decodeUnits, if_neg hend, if_neg hpair, utf8, flatMap_cons, ← append_assoc]
    refine ih (fun u hu ↦ hunits u (mem_cons_of_mem _ hu)) ?_
    rw [length_append, encode_unitChar hw hgo]
    omega

/-! ### The names of a scan -/

/-- What the slots of a name hold: at most twenty slots of 16-bit units. -/
structure LfnState.Held (state : LfnState) : Prop where
  slots_le : state.slots ≤ 20
  chars_lt : ∀ i, state.chars i < 0x10000

theorem LfnState.Held.reset : lfnReset.Held := ⟨by decide, fun _ ↦ show 0xFFFF < 0x10000 by decide⟩

theorem LfnState.Held.accept {state : LfnState} (h : state.Held) (entry : Image) :
    (lfnAcceptEntry state entry).Held := by
  unfold lfnAcceptEntry
  dsimp only
  split_ifs with hslot hfirst
  all_goals first | exact .reset | skip
  · have hle : (entry 0).toNat &&& 0x1F ≤ 20 := by omega
    refine ⟨hle, fun i ↦ ?_⟩
    dsimp only
    split_ifs
    · exact rd16_lt _ _
    · exact LfnState.Held.reset.chars_lt i
  · refine ⟨h.slots_le, fun i ↦ ?_⟩
    dsimp only
    split_ifs
    · exact rd16_lt _ _
    · exact h.chars_lt i

/-- The state after the entries of a directory, each of them accepted. -/
def lfnState (entries : List Image) : LfnState := entries.foldl lfnAcceptEntry lfnReset

theorem lfnState_held (entries : List Image) : (lfnState entries).Held :=
  List.foldlRecOn entries lfnAcceptEntry .reset fun _ h entry _ ↦ h.accept entry

/-- The bytes are well-formed UTF-8, and they are those of the characters of the units. -/
def DecodesTo (units : List ℕ) (bytes : List UInt8) : Prop :=
  bytes.toByteArray.IsValidUTF8 ∧ bytes = utf8 (decodeUnits units)

/-- **When long names decode to UTF-8.** -/
theorem lfnName_decodes_iff (entries : List Image) (shortEntry : Image)
    (hname : lfnName (lfnState entries) shortEntry ≠ []) :
    DecodesTo (lfnState entries).units (lfnName (lfnState entries) shortEntry) ↔
      ¬EndsOpen (lfnState entries).units := by
  have hheld := lfnState_held entries
  have hunits : ∀ w ∈ (lfnState entries).units, w < 0x10000 := by
    intro w hw
    obtain ⟨i, -, rfl⟩ := mem_map.1 hw
    exact hheld.chars_lt i
  have hlength : (lfnState entries).units.length = (lfnState entries).slots * 13 := by
    rw [LfnState.units, length_map, length_range]
  have hslots := hheld.slots_le
  have hloop :=
    utf16Name_eq_iff hunits (show ([] : List UInt8).length + _ < 1041 by rw [length_nil]; omega)
  have heq : lfnName (lfnState entries) shortEntry = utf16Name (lfnState entries).units [] := by
    unfold lfnName at hname ⊢
    split_ifs at hname ⊢
    · exact absurd rfl hname
    · rfl
    · exact absurd rfl hname
  rw [heq, ← hloop, nil_append, DecodesTo]
  exact and_iff_right_of_imp fun h ↦ ⟨decodeUnits _, by rw [h]; rfl⟩

/-- The entry of a file `A` of 512 bytes in cluster 2. -/
def shortEntryA : Image := fun i ↦
  if i = 0 then 0x41 else if i ≤ 11 then 0x20 else if i = 26 ∨ i = 29 then 2 else 0

/-- The only slot of a name with these units, before the entry of the file. -/
def onlySlot (units : List ℕ) : Image := fun i ↦
  if i = 0 then 0x41
  else if i = 11 then 0x0F
  else if i = 13 then lfnShortChecksum shortEntryA
  else
    -- the byte before `i` or `i` itself is where a unit starts
    match lfnOffsets.idxOf? i with
    | some k => UInt8.ofNat (units.getD k 0xFFFF)
    | none =>
      match lfnOffsets.idxOf? (i - 1) with
      | some k => UInt8.ofNat (units.getD k 0xFFFF / 256)
      | none => 0

/-- **A name that ends with a high surrogate is not UTF-8.** -/
theorem lfnName_not_utf8 : ∃ entries,
    lfnName (lfnState entries) shortEntryA = List.replicate 12 0x41 ++ [0xED, 0xA0, 0x80] ∧
      ¬(lfnName (lfnState entries) shortEntryA).toByteArray.IsValidUTF8 := by
  have hname : lfnName (lfnState [onlySlot (replicate 12 0x41 ++ [0xD800])]) shortEntryA =
      replicate 12 0x41 ++ [0xED, 0xA0, 0x80] := by decide +kernel
  refine ⟨_, hname, ?_⟩
  rw [hname]
  decide

/-- A name with a surrogate pair, a low surrogate and a letter. -/
theorem lfnName_decodes_pair :
    lfnName (lfnState [onlySlot [0xD83D, 0xDE00, 0xDE00, 0x41, 0]]) shortEntryA =
        [0xF0, 0x9F, 0x98, 0x80, 0xEF, 0xBF, 0xBD, 0x41] ∧
      DecodesTo (lfnState [onlySlot [0xD83D, 0xDE00, 0xDE00, 0x41, 0]]).units
        (lfnName (lfnState [onlySlot [0xD83D, 0xDE00, 0xDE00, 0x41, 0]]) shortEntryA) := by
  refine ⟨by decide +kernel, (lfnName_decodes_iff _ _ (by decide +kernel)).2 fun h ↦ ?_⟩
  exact absurd (h.1 0 (by decide +kernel)) (by decide +kernel)

end LinuxDefragger.Fat
