import Mathlib.Data.List.Basic
import Mathlib.Data.List.TakeWhile
import Mathlib.Tactic.Ring

/-!
# Text records through the C library

Numbers as `fprintf` prints them and as `strtoul`, `strtol` and `sscanf` read them back, and lines
as `getline` cuts them. Texts are lists of characters, which stand for C strings and text files.
-/

open List

namespace CText

/-! ### Digits -/

/-- The value of a character as a digit in the largest base; characters that are no digit in any
base get a value no base reaches. -/
def digitVal (c : Char) : ℕ :=
  if '0' ≤ c ∧ c ≤ '9' then c.toNat - '0'.toNat
  else if 'a' ≤ c ∧ c ≤ 'z' then c.toNat - 'a'.toNat + 10
  else if 'A' ≤ c ∧ c ≤ 'Z' then c.toNat - 'A'.toNat + 10
  else 255

/-- Read digits while there are any. -/
def scanDigits (base : ℕ) : ℕ → List Char → ℕ × List Char
  | acc, [] => (acc, [])
  | acc, c :: cs =>
    if digitVal c < base then scanDigits base (acc * base + digitVal c) cs else (acc, c :: cs)

/-- The text does not go on with a digit. -/
def NoDigit (base : ℕ) (cs : List Char) : Prop := ∀ c ∈ cs.head?, base ≤ digitVal c

theorem digitVal_digitChar {d : ℕ} (h : d < 16) : digitVal (Nat.digitChar d) = d := by
  revert d
  decide

variable {base n : ℕ} {cs key : List Char} {c : Char}

theorem scanDigits_of_noDigit (h : NoDigit base cs) (acc : ℕ) :
    scanDigits base acc cs = (acc, cs) := by
  cases cs with
  | nil => rfl
  | cons c cs => exact if_neg (Nat.not_lt.2 (h c rfl))

/-- The digits of a number are those of its quotient, then its last one. -/
theorem toDigits_eq_append (hb : 1 < base) (hn : base ≤ n) :
    Nat.toDigits base n = Nat.toDigits base (n / base) ++ [Nat.digitChar (n % base)] := by
  have hmod := Nat.mod_lt n (show 0 < base by omega)
  rw [← Nat.toDigits_of_lt_base hmod,
    Nat.toDigits_append_toDigits hb (Nat.div_pos hn (by omega)) hmod, Nat.div_add_mod]

/-- **Scanning the digits of `n` leaves `n`.** -/
theorem scanDigits_toDigits (hb : 1 < base) (hb' : base ≤ 16) (n : ℕ) (cs : List Char) :
    scanDigits base 0 (Nat.toDigits base n ++ cs) = scanDigits base n cs := by
  induction n using Nat.strong_induction_on generalizing cs with
  | _ n ih =>
    rcases Nat.lt_or_ge n base with hn | hn
    · rw [Nat.toDigits_of_lt_base hn, singleton_append, scanDigits,
        digitVal_digitChar (by omega), if_pos hn, Nat.zero_mul, Nat.zero_add]
    · have hmod := Nat.mod_lt n (show 0 < base by omega)
      rw [toDigits_eq_append hb hn, append_assoc, ih _ (Nat.div_lt_self (by omega) hb),
        singleton_append, scanDigits, digitVal_digitChar (by omega), if_pos hmod,
        Nat.div_add_mod']

theorem digitVal_of_mem_toDigits (hb : 1 < base) (hb' : base ≤ 16) (h : c ∈ Nat.toDigits base n) :
    digitVal c < base := by
  induction n using Nat.strong_induction_on with
  | _ n ih =>
    rcases Nat.lt_or_ge n base with hn | hn
    · rw [Nat.toDigits_of_lt_base hn, mem_singleton] at h
      rw [h, digitVal_digitChar (by omega)]
      exact hn
    · rw [toDigits_eq_append hb hn, mem_append, mem_singleton] at h
      rcases h with h | rfl
      · exact ih _ (Nat.div_lt_self (by omega) hb) h
      · have hmod := Nat.mod_lt n (show 0 < base by omega)
        rw [digitVal_digitChar (by omega)]
        exact hmod

theorem toDigits_ne_nil (hb : 1 < base) (n : ℕ) : Nat.toDigits base n ≠ [] := by
  rcases Nat.lt_or_ge n base with hn | hn
  · rw [Nat.toDigits_of_lt_base hn]
    exact cons_ne_nil _ _
  · rw [toDigits_eq_append hb hn]
    exact append_ne_nil_of_right_ne_nil _ (cons_ne_nil _ _)

/-- A digit of the bases in use is none of the characters that readers treat specially. -/
theorem ne_of_digitVal_lt {d : Char} (h : digitVal c < 16) (hd : 16 ≤ digitVal d) : c ≠ d := by
  rintro rfl
  omega

/-! ### Printing -/

/-- `%u`, `%zu` and their wider kin. -/
def dec (n : ℕ) : List Char := Nat.toDigits 10 n

/-- `%08x` -/
def hex8 (n : ℕ) : List Char :=
  List.replicate (8 - (Nat.toDigits 16 n).length) '0' ++ Nat.toDigits 16 n

/-- `%d` -/
def decInt (n : ℤ) : List Char := if n < 0 then '-' :: dec n.natAbs else dec n.natAbs

theorem digitVal_of_mem_dec (h : c ∈ dec n) : digitVal c < 10 :=
  digitVal_of_mem_toDigits (by decide) (by decide) h

theorem digitVal_of_mem_hex8 (h : c ∈ hex8 n) : digitVal c < 16 := by
  rcases mem_append.1 h with h | h
  · rw [eq_of_mem_replicate h]
    decide
  · exact digitVal_of_mem_toDigits (by decide) (by decide) h

theorem dec_ne_nil (n : ℕ) : dec n ≠ [] := toDigits_ne_nil (by decide) n

theorem hex8_ne_nil (n : ℕ) : hex8 n ≠ [] :=
  append_ne_nil_of_right_ne_nil _ (toDigits_ne_nil (by decide) n)

theorem scanDigits_dec (n : ℕ) (cs : List Char) :
    scanDigits 10 0 (dec n ++ cs) = scanDigits 10 n cs :=
  scanDigits_toDigits (by decide) (by decide) n cs

/-- Leading zeros do not count. -/
theorem scanDigits_hex8 (n : ℕ) (cs : List Char) :
    scanDigits 16 0 (hex8 n ++ cs) = scanDigits 16 n cs := by
  have hzeros : ∀ k ds, scanDigits 16 0 (replicate k '0' ++ ds) = scanDigits 16 0 ds := by
    intro k ds
    induction k with
    | zero => rfl
    | succ k ih => exact ih
  rw [hex8, append_assoc, hzeros, scanDigits_toDigits (by decide) (by decide)]

/-! ### Reading numbers -/

/-- `isspace` in the C locale. -/
def isSpace (c : Char) : Bool :=
  c = ' ' || c = '\t' || c = '\n' || c = '\x0b' || c = '\x0c' || c = '\r'

/-- An optional sign: whether it is a minus, and what follows. -/
def takeSign : List Char → Bool × List Char
  | '-' :: cs => (true, cs)
  | '+' :: cs => (false, cs)
  | cs => (false, cs)

/-- The `0x` that base sixteen allows in front of at least one digit. -/
def dropHexPrefix : List Char → List Char
  | '0' :: x :: d :: cs =>
    if (x = 'x' ∨ x = 'X') ∧ digitVal d < 16 then d :: cs else '0' :: x :: d :: cs
  | cs => cs

/-- Sign and unbounded magnitude of the number at the start of a text. -/
def magnitude (base : ℕ) (cs : List Char) : Bool × ℕ :=
  let (neg, cs) := takeSign (cs.dropWhile isSpace)
  (neg, (scanDigits base 0 (if base = 16 then dropHexPrefix cs else cs)).1)

/-- What an `unsigned long` makes of a sign and a magnitude: too large is the largest value, a minus
negates modulo the word size. -/
def toULong (neg : Bool) (v : ℕ) : ℕ :=
  if 2 ^ 64 ≤ v then 2 ^ 64 - 1 else if neg then (2 ^ 64 - v) % 2 ^ 64 else v

/-- `strtoul`, `strtoull` -/
def strtoul (base : ℕ) (cs : List Char) : ℕ :=
  let (neg, v) := magnitude base cs
  toULong neg v

/-- `strtol` in base ten -/
def strtol (cs : List Char) : ℤ :=
  let (neg, v) := magnitude 10 cs
  if neg then max (-(v : ℤ)) (-2 ^ 63) else min (v : ℤ) (2 ^ 63 - 1)

theorem isSpace_of_digit (h : digitVal c < 16) : isSpace c = false := by
  have hne : ∀ d, 16 ≤ digitVal d → c ≠ d := fun d ↦ ne_of_digitVal_lt h
  simp [isSpace, hne ' ' (by decide), hne '\t' (by decide), hne '\n' (by decide),
    hne '\x0b' (by decide), hne '\x0c' (by decide), hne '\r' (by decide)]

theorem takeSign_of_digit (h : digitVal c < 16) (cs : List Char) :
    takeSign (c :: cs) = (false, c :: cs) := by
  have h₁ : c ≠ '-' := ne_of_digitVal_lt h (by decide)
  have h₂ : c ≠ '+' := ne_of_digitVal_lt h (by decide)
  rw [takeSign]
  · exact fun _ heq ↦ h₁ (List.cons.inj heq).1
  · exact fun _ heq ↦ h₂ (List.cons.inj heq).1

theorem dropHexPrefix_of_digits (h : ∀ c ∈ cs, digitVal c < 16) : dropHexPrefix cs = cs := by
  rw [dropHexPrefix.eq_def]
  split
  · rename_i x d ds
    have hx : digitVal x < 16 := h x (by simp)
    rw [if_neg]
    rintro ⟨rfl | rfl, -⟩ <;> revert hx <;> decide
  · rfl

/-- **A text of digits is its own magnitude.** -/
theorem magnitude_of_digits (hb : base ≤ 16) (hne : cs ≠ []) (h : ∀ c ∈ cs, digitVal c < base) :
    magnitude base cs = (false, (scanDigits base 0 cs).1) := by
  obtain ⟨c, cs, rfl⟩ := exists_cons_of_ne_nil hne
  have hc : digitVal c < 16 := (h c mem_cons_self).trans_le hb
  rw [magnitude, dropWhile_cons_of_neg (by simp [isSpace_of_digit hc])]
  simp only [takeSign_of_digit hc]
  split_ifs
  · rw [dropHexPrefix_of_digits fun d hd ↦ (h d hd).trans_le hb]
  · rfl

theorem toULong_of_lt {v : ℕ} (h : v < 2 ^ 64) : toULong false v = v := by
  rw [toULong, if_neg (Nat.not_le.2 h), if_neg Bool.false_ne_true]

theorem magnitude_dec (n : ℕ) : magnitude 10 (dec n) = (false, n) := by
  have hscan := scanDigits_dec n []
  rw [append_nil] at hscan
  rw [magnitude_of_digits (by decide) (dec_ne_nil n) fun _ ↦ digitVal_of_mem_dec, hscan]
  rfl

/-- **`%u` and `strtoul`.** -/
theorem strtoul_dec (h : n < 2 ^ 64) : strtoul 10 (dec n) = n := by
  rw [strtoul, magnitude_dec]
  exact toULong_of_lt h

/-- **`%08x` and `strtoul` in base sixteen.** -/
theorem strtoul_hex8 (h : n < 2 ^ 64) : strtoul 16 (hex8 n) = n := by
  have hscan := scanDigits_hex8 n []
  rw [append_nil] at hscan
  rw [strtoul, magnitude_of_digits (by decide) (hex8_ne_nil n) fun _ ↦ digitVal_of_mem_hex8, hscan]
  exact toULong_of_lt h

/-- **`%d` and `strtol`.** -/
theorem strtol_decInt {n : ℤ} (h : n.natAbs < 2 ^ 63) : strtol (decInt n) = n := by
  rw [decInt, strtol]
  split_ifs with hn
  · -- the sign is taken off and the digits read as they are
    have hmag : magnitude 10 ('-' :: dec n.natAbs) = (true, n.natAbs) := by
      have hscan := scanDigits_dec n.natAbs []
      rw [append_nil] at hscan
      show (true, (scanDigits 10 0 (dec n.natAbs)).1) = _
      rw [hscan]
      rfl
    rw [hmag]
    simp only [if_true]
    omega
  · rw [magnitude_dec]
    simp only [Bool.false_eq_true, if_false]
    omega

/-! ### Records of numbers

`sscanf` with a format of unsigned conversions separated by commas. -/

/-- One conversion of the given width in bits: the value and the rest of the text. -/
def scanUnsigned (width : ℕ) (cs : List Char) : Option (ℕ × List Char) :=
  let (neg, cs) := takeSign (cs.dropWhile isSpace)
  match cs with
  | [] => none
  | c :: _ =>
    if digitVal c < 10 then
      let (v, rest) := scanDigits 10 0 cs
      some (toULong neg v % 2 ^ width, rest)
    else none

/-- All conversions, or `none` where `sscanf` returns fewer than were asked for. -/
def scanRecord : List ℕ → List Char → Option (List ℕ)
  | [], _ => some []
  | [width], cs => (scanUnsigned width cs).map fun r ↦ [r.1]
  | width :: widths, cs =>
    match scanUnsigned width cs with
    | some (v, ',' :: rest) => (scanRecord widths rest).map (v :: ·)
    | _ => none

/-- Numbers separated by commas. -/
def commaDec (vs : List ℕ) : List Char := [','].intercalate (vs.map dec)

theorem commaDec_cons_cons (v v' : ℕ) (vs : List ℕ) :
    commaDec (v :: v' :: vs) = dec v ++ ',' :: commaDec (v' :: vs) := by
  simp [commaDec, intercalate_cons_cons]

theorem scanUnsigned_dec {width v : ℕ} (hw : width ≤ 64) (hv : v < 2 ^ width)
    (hcs : NoDigit 10 cs) :
    scanUnsigned width (dec v ++ cs) = some (v, cs) := by
  obtain ⟨c, ds, hds⟩ := exists_cons_of_ne_nil (dec_ne_nil v)
  have hc : digitVal c < 10 := digitVal_of_mem_dec (n := v) (by rw [hds]; exact mem_cons_self)
  have hv64 : v < 2 ^ 64 := hv.trans_le (Nat.pow_le_pow_right (by decide) hw)
  have hscan := scanDigits_dec v cs
  rw [scanDigits_of_noDigit hcs, hds, cons_append] at hscan
  rw [scanUnsigned, hds, cons_append,
    dropWhile_cons_of_neg (by simp [isSpace_of_digit (hc.trans (by decide))])]
  simp only [takeSign_of_digit (hc.trans (by decide)), hc, if_true, hscan, toULong_of_lt hv64,
    Nat.mod_eq_of_lt hv]

variable {vs : List ℕ} {value : List Char}

/-- **Printed records read back.** -/
theorem scanRecord_commaDec {widths : List ℕ} (hw : ∀ w ∈ widths, w ≤ 64)
    (h : Forall₂ (fun w v ↦ v < 2 ^ w) widths vs) :
    scanRecord widths (commaDec vs) = some vs := by
  induction h with
  | nil => rfl
  | @cons w v ws vs hwv hrest ih =>
    have htail := ih fun x hx ↦ hw x (mem_cons_of_mem _ hx)
    have hw₁ := hw w mem_cons_self
    cases hrest with
    | nil =>
      have hone : scanUnsigned w (dec v ++ []) = some (v, []) :=
        scanUnsigned_dec hw₁ hwv (by simp [NoDigit])
      rw [append_nil] at hone
      simp only [commaDec, map_cons, map_nil, intercalate_singleton, scanRecord, hone,
        Option.map_some]
    | @cons w' v' ws' vs' hwv' hrest' =>
      have hone : scanUnsigned w (dec v ++ ',' :: commaDec (v' :: vs')) =
          some (v, ',' :: commaDec (v' :: vs')) :=
        scanUnsigned_dec hw₁ hwv (by simp [NoDigit]; decide)
      rw [commaDec_cons_cons, scanRecord, hone]
      · simp only [htail, Option.map_some]
      · simp

/-! ### Lines and fields -/

/-- The lines that repeated `getline` returns, each with its newline. -/
def lines : List Char → List (List Char)
  | [] => []
  | c :: cs =>
    if c = '\n' then ['\n'] :: lines cs
    else match lines cs with
      | [] => [[c]]
      | l :: ls => (c :: l) :: ls

/-- `line[strcspn(line, "\r\n")] = '\0'` -/
def chomp (line : List Char) : List Char := line.takeWhile fun c ↦ !(c = '\r' || c = '\n')

/-- The line cut at its first `=`: what is before it and what is after it. -/
def splitAtEq : List Char → Option (List Char × List Char)
  | [] => none
  | c :: cs => if c = '=' then some ([], cs) else (splitAtEq cs).map fun r ↦ (c :: r.1, r.2)

/-- The tokens that repeated `strtok_r` with a separator returns. -/
def tokens (sep : Char) (cs : List Char) : List (List Char) := (cs.splitOn sep).filter (· ≠ [])

/-- A line a writer prints. -/
def field (key value : List Char) : List Char := key ++ '=' :: value

theorem lines_cons_line {l : List Char} (h : '\n' ∉ l) (cs : List Char) :
    lines (l ++ '\n' :: cs) = (l ++ ['\n']) :: lines cs := by
  induction l with
  | nil => simp [lines]
  | cons c l ih =>
    rw [mem_cons, not_or] at h
    rw [cons_append, lines, if_neg (Ne.symm h.1), ih h.2]
    rfl

/-- **Lines that hold no newline are read back as they were printed.** -/
theorem lines_unlines {ls : List (List Char)} (h : ∀ l ∈ ls, '\n' ∉ l) :
    lines (ls.flatMap (· ++ ['\n'])) = ls.map (· ++ ['\n']) := by
  induction ls with
  | nil => rfl
  | cons l ls ih =>
    rw [flatMap_cons, append_assoc, singleton_append,
      lines_cons_line (h l mem_cons_self), ih fun k hk ↦ h k (mem_cons_of_mem _ hk),
      map_cons]

theorem chomp_line {l : List Char} (hr : '\r' ∉ l) (hn : '\n' ∉ l) : chomp (l ++ ['\n']) = l := by
  rw [chomp, takeWhile_append_of_pos]
  · simp
  · intro c hc
    have h₁ : c ≠ '\r' := fun h ↦ hr (h ▸ hc)
    have h₂ : c ≠ '\n' := fun h ↦ hn (h ▸ hc)
    simp [h₁, h₂]

theorem splitAtEq_field (h : '=' ∉ key) (value : List Char) :
    splitAtEq (field key value) = some (key, value) := by
  rw [field]
  induction key with
  | nil => rfl
  | cons c cs ih =>
    rw [mem_cons, not_or] at h
    rw [cons_append, splitAtEq, if_neg (Ne.symm h.1), ih h.2]
    rfl

section

variable (hc : 16 ≤ digitVal c)
include hc

/-- Printed numbers hold no special character. -/
theorem not_mem_dec : c ∉ dec n := fun h ↦ by
  have := digitVal_of_mem_dec h
  omega

theorem not_mem_hex8 : c ∉ hex8 n := fun h ↦ by
  have := digitVal_of_mem_hex8 h
  omega

theorem not_mem_decInt {n : ℤ} (hm : c ≠ '-') : c ∉ decInt n := by
  rw [decInt]
  split_ifs
  · rw [mem_cons, not_or]
    exact ⟨hm, not_mem_dec hc⟩
  · exact not_mem_dec hc

theorem not_mem_commaDec (hm : c ≠ ',') : c ∉ commaDec vs := by
  induction vs with
  | nil => simp [commaDec]
  | cons v vs ih =>
    cases vs with
    | nil => simpa [commaDec] using not_mem_dec hc
    | cons v' vs =>
      rw [commaDec_cons_cons, mem_append, mem_cons, not_or, not_or]
      exact ⟨not_mem_dec hc, hm, ih⟩

end

/-- **A printed list is read back token by token.** -/
theorem tokens_commaDec (h : vs ≠ []) : tokens ',' (commaDec vs) = vs.map dec := by
  have hsplit : (commaDec vs).splitOn ',' = vs.map dec := by
    refine splitOn_intercalate ',' ?_ (by simpa using h)
    intro l hl
    obtain ⟨v, -, rfl⟩ := mem_map.1 hl
    exact not_mem_dec (by decide)
  rw [tokens, hsplit, filter_eq_self]
  intro l hl
  obtain ⟨v, -, rfl⟩ := mem_map.1 hl
  simpa using dec_ne_nil v

/-- The text holds no line break of either kind. -/
def OneLine (cs : List Char) : Prop := '\r' ∉ cs ∧ '\n' ∉ cs

instance (cs : List Char) : Decidable (OneLine cs) := inferInstanceAs (Decidable (_ ∧ _))

theorem oneLine_dec (n : ℕ) : OneLine (dec n) := ⟨not_mem_dec (by decide), not_mem_dec (by decide)⟩

theorem oneLine_hex8 (n : ℕ) : OneLine (hex8 n) :=
  ⟨not_mem_hex8 (by decide), not_mem_hex8 (by decide)⟩

theorem oneLine_decInt (n : ℤ) : OneLine (decInt n) :=
  ⟨not_mem_decInt (by decide) (by decide), not_mem_decInt (by decide) (by decide)⟩

theorem oneLine_commaDec (vs : List ℕ) : OneLine (commaDec vs) :=
  ⟨not_mem_commaDec (by decide) (by decide), not_mem_commaDec (by decide) (by decide)⟩

theorem OneLine.field (hk : OneLine key) (hv : OneLine value) : OneLine (field key value) := by
  simp only [OneLine, CText.field, mem_append, mem_cons, not_or]
  exact ⟨⟨hk.1, by decide, hv.1⟩, hk.2, by decide, hv.2⟩

/-- **A printed field is read back as its key and its value.** -/
theorem splitAtEq_chomp_field (hk : OneLine key) (heq : '=' ∉ key) (hv : OneLine value) :
    splitAtEq (chomp (field key value ++ ['\n'])) = some (key, value) := by
  rw [chomp_line (hk.field hv).1 (hk.field hv).2, splitAtEq_field heq]

/-- Key and value of a field that can be printed on a line of its own. -/
def Printable (p : List Char × List Char) : Prop := OneLine p.1 ∧ '=' ∉ p.1 ∧ OneLine p.2

theorem printable (hk : OneLine key ∧ '=' ∉ key) (hv : OneLine value) : Printable (key, value) :=
  ⟨hk.1, hk.2, hv⟩

theorem Printable.splitAtEq {p : List Char × List Char} (h : Printable p) :
    splitAtEq (chomp (CText.field p.1 p.2 ++ ['\n'])) = some p :=
  splitAtEq_chomp_field h.1 h.2.1 h.2.2

theorem Printable.not_mem {p : List Char × List Char} (h : Printable p) :
    '\n' ∉ CText.field p.1 p.2 :=
  (h.1.field h.2.2).2

end CText
