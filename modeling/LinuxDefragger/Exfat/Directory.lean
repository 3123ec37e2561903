import LinuxDefragger.Exfat.Volume

/-!
# Directories

A directory is a stream of 32-byte slots. A file is a set of slots: a primary one with a checksum of
the set, and secondary ones, of which one is the stream extension with the place and the length of
the file.

`scanSets` is the loop that the engine and the analyser share, over a function that is called for
each set.
-/

open List Storage

namespace LinuxDefragger.Exfat

/-! ### Entry sets -/

/-- One byte of the checksum of a set. -/
def checksumStep (p : Image) (off : ℕ) (s i : ℕ) : ℕ :=
  if i = 2 ∨ i = 3 then s else ((s >>> 1 ||| (s &&& 1) <<< 15) + (p (off + i)).toNat) &&& 0xFFFF

/-- `checksum_set` -/
def checksumSet (p : Image) (off count : ℕ) : ℕ :=
  (List.range (count * 32)).foldl (checksumStep p off) 0

/-- A set with a stream extension. -/
structure FileSet where
  offset : ℕ
  total : ℕ
  isDir : Bool
  /-- The name in UTF-16, which is what the decoded name depends on. -/
  name : List UInt8
  first : ℕ
  length : ℕ
  validLength : ℕ
  nofat : Bool
  deriving DecidableEq, Repr

/-- The offsets of the secondary slots of a type. -/
def secondaries (p : Image) (off total : ℕ) (type : UInt8) : List ℕ :=
  ((List.range' 1 (total - 1)).map fun j ↦ off + j * 32).filter fun s ↦ p s = type

/-- The fields of a set, from its last stream extension and its names. -/
def fileSet (p : Image) (off total : ℕ) : Option FileSet :=
  (secondaries p off total 0xC0).getLast?.map fun s ↦
    { offset := off
      total
      isDir := rd16 p (off + 4) &&& 0x10 ≠ 0
      name := (((secondaries p off total 0xC1).map fun n ↦ p.read (n + 2) 30).flatten).take
        ((p (s + 3)).toNat * 2)
      first := rd32 p (s + 20)
      length := rd64 p (s + 24)
      validLength := rd64 p (s + 8)
      nofat := p (s + 1) &&& 2 ≠ 0 }

/-- The number of slots of the set at an offset. -/
def setTotal (p : Image) (off : ℕ) : ℕ := 1 + (p (off + 1)).toNat

section Scan

variable {σ : Type}

/-- The call for a set that has a stream extension. -/
def visitSet (visit : σ → FileSet → Except PyError σ) (st : σ) : Option FileSet → Except PyError σ
  | none => pure st
  | some s => visit st s

/-- The loop over the slots of a directory of `len` bytes, from offset `o` on. The set at an offset
is tested with `check` before `visit` is called for it. A round passes a slot at least. -/
def scanSets (check : ℕ → ℕ → Except PyError Unit) (visit : σ → FileSet → Except PyError σ)
    (p : Image) (len : ℕ) : ℕ → ℕ → σ → Except PyError σ
  | 0, _, st => pure st
  | fuel + 1, o, st =>
    if len < o + 32 ∨ p o = 0 then pure st
    else if p o = 0x85 then do
      raiseIf (len < o + setTotal p o * 32) "truncated directory entry set" []
      check o (setTotal p o)
      let st ← visitSet visit st (fileSet p o (setTotal p o))
      scanSets check visit p len fuel (o + setTotal p o * 32) st
    else scanSets check visit p len fuel (o + 32) st

/-- The engine's test of a set. -/
def checksumCheck (p : Image) (o total : ℕ) : Except PyError Unit :=
  raiseIf (rd16 p (o + 2) ≠ checksumSet p o total) "bad exFAT directory-set checksum at %s:%u" [o]

end Scan

/-! ### What a directory lists -/

/-- The offsets of the sets that a scan comes to. -/
def setOffsets (p : Image) (len : ℕ) : ℕ → ℕ → List ℕ
  | 0, _ => []
  | fuel + 1, o =>
    if len < o + 32 ∨ p o = 0 then []
    else if p o = 0x85 then o :: setOffsets p len fuel (o + setTotal p o * 32)
    else setOffsets p len fuel (o + 32)

/-- The sets with a stream extension among those at the offsets. -/
def setsAt (p : Image) (offsets : List ℕ) : List FileSet :=
  offsets.filterMap fun o ↦ fileSet p o (setTotal p o)

theorem setsAt_cons_none {p : Image} {o : ℕ} {offsets : List ℕ}
    (h : fileSet p o (setTotal p o) = none) : setsAt p (o :: offsets) = setsAt p offsets :=
  filterMap_cons_none h

theorem setsAt_cons_some {p : Image} {o : ℕ} {offsets : List ℕ} {s : FileSet}
    (h : fileSet p o (setTotal p o) = some s) : setsAt p (o :: offsets) = s :: setsAt p offsets :=
  filterMap_cons_some h

section Scan

variable {σ : Type} {check : ℕ → ℕ → Except PyError Unit}
  {visit : σ → FileSet → Except PyError σ} {p : Image} {len fuel o : ℕ} {st st' : σ}

/-- **A scan went through** just if all sets are complete and pass the test, and the calls for the
decoded sets went through. -/
theorem scanSets_eq_ok_iff : scanSets check visit p len fuel o st = .ok st' ↔
    (∀ o' ∈ setOffsets p len fuel o, o' + setTotal p o' * 32 ≤ len ∧
      check o' (setTotal p o') = .ok ()) ∧
      (setsAt p (setOffsets p len fuel o)).foldlM visit st = .ok st' := by
  induction fuel generalizing o st with
  | zero => simp [scanSets, setOffsets, setsAt]
  | succ fuel ih =>
    rw [scanSets, setOffsets]
    split
    · simp [setsAt]
    split
    · rw [raiseIf_bind_eq_ok, bind_eq_ok, forall_mem_cons, not_lt]
      cases hset : fileSet p o (setTotal p o) with
      | none =>
        rw [setsAt_cons_none hset, visitSet]
        simp only [pure_eq_ok, ok_bind, ih]
        tauto
      | some s =>
        rw [setsAt_cons_some hset, visitSet, foldlM_cons]
        simp only [bind_eq_ok, ih]
        constructor
        · rintro ⟨hlen, ⟨⟩, hcheck, st₁, hvisit, hrest, hfold⟩
          exact ⟨⟨⟨hlen, hcheck⟩, hrest⟩, st₁, hvisit, hfold⟩
        · rintro ⟨⟨⟨hlen, hcheck⟩, hrest⟩, st₁, hvisit, hfold⟩
          exact ⟨hlen, ⟨⟩, hcheck, st₁, hvisit, hrest, hfold⟩
    · exact ih

theorem setTotal_pos (p : Image) (o : ℕ) : 0 < setTotal p o := Nat.add_pos_left Nat.one_pos _

/-- A set is in front of the ones that come later. -/
theorem setOffsets_pairwise :
    (∀ o' ∈ setOffsets p len fuel o, o ≤ o' ∧ o' % 32 = o % 32 ∧ p o' = 0x85) ∧
      (setOffsets p len fuel o).Pairwise fun a b ↦ a + setTotal p a * 32 ≤ b := by
  induction fuel generalizing o with
  | zero => exact ⟨nofun, .nil⟩
  | succ fuel ih =>
    rw [setOffsets]
    split
    · exact ⟨nofun, .nil⟩
    split
    · rename_i htype
      obtain ⟨hbehind, hpairs⟩ := ih (o := o + setTotal p o * 32)
      refine ⟨forall_mem_cons.2 ⟨⟨le_rfl, rfl, htype⟩, fun o' ho' ↦ ?_⟩,
        pairwise_cons.2 ⟨fun o' ho' ↦ (hbehind o' ho').1, hpairs⟩⟩
      obtain ⟨hle, hmod, htype'⟩ := hbehind o' ho'
      exact ⟨by omega, by omega, htype'⟩
    · obtain ⟨hbehind, hpairs⟩ := ih (o := o + 32)
      refine ⟨fun o' ho' ↦ ?_, hpairs⟩
      obtain ⟨hle, hmod, htype'⟩ := hbehind o' ho'
      exact ⟨by omega, by omega, htype'⟩

/-- Which sets a scan comes to depends on the types of the slots and on the lengths of the sets. -/
theorem setOffsets_congr {q : Image} (htype : ∀ o' < len, o' % 32 = o % 32 → q o' = p o')
    (htotal : ∀ o' < len, o' % 32 = o % 32 → p o' = 0x85 → q (o' + 1) = p (o' + 1)) :
    setOffsets q len fuel o = setOffsets p len fuel o := by
  induction fuel generalizing o with
  | zero => rfl
  | succ fuel ih =>
    rw [setOffsets, setOffsets]
    by_cases hlen : len < o + 32
    · rw [if_pos (.inl hlen), if_pos (.inl hlen)]
    · have hslot := htype o (by omega) rfl
      rw [hslot]
      split
      · rfl
      split
      · rename_i h85
        have hsame : setTotal q o = setTotal p o := by
          rw [setTotal, setTotal, htotal o (by omega) rfl h85]
        rw [hsame]
        refine congrArg _ (ih (fun o' ho' hmod ↦ htype o' ho' ?_) fun o' ho' hmod ↦
          htotal o' ho' ?_)
        all_goals omega
      · refine ih (fun o' ho' hmod ↦ htype o' ho' ?_) fun o' ho' hmod ↦ htotal o' ho' ?_
        all_goals omega

end Scan

end LinuxDefragger.Exfat
