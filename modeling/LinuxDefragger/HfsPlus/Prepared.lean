import LinuxDefragger.HfsPlus.Move

/-!
# What the patches of a move store

The patches of the bitmap store the new bitmap and touch no byte that stays the same
(`bitmapPatches_put`); the patches of the descriptors store the descriptors of a contiguous fork
(`descriptorPatches_put`); the patches of the headers store the free count.
-/

open Except List Storage

namespace LinuxDefragger.HfsPlus

variable {J : Type}

/-! ### The bitmap -/

variable {m : Image} {ps : List Patch} {start : ℕ}

variable {old : List UInt8} {f : ForkMap} {run : List (UInt8 × UInt8)} {disk : Disk J}

/-- The patches of pieces store the data at their addresses. -/
theorem piecePatches_put {pieces : List (ℕ × ℕ)} {new : List UInt8}
    (hold : (pieceAddrs pieces).map m = old) (hnew : (pieceAddrs pieces).length = new.length) :
    PatchesPut m (piecePatches pieces old new) (pieceAddrs pieces) new := by
  induction pieces generalizing old new with
  | nil =>
    obtain rfl := length_eq_zero_iff.1 hnew.symm
    exact .nil m
  | cons p pieces ih =>
    obtain ⟨physical, count⟩ := p
    have hcons : pieceAddrs ((physical, count) :: pieces) =
        range' physical count ++ pieceAddrs pieces := rfl
    rw [hcons, length_append, length_range'] at hnew
    rw [hcons, map_append, ← Image.read_eq_map_range'] at hold
    have htake : old.take count = m.read physical count := by
      rw [← hold, take_left' (Image.read_length ..)]
    have hdrop : old.drop count = (pieceAddrs pieces).map m := by
      rw [← hold, drop_left' (Image.read_length ..)]
    have hlen : (new.take count).length = count := by
      rw [length_take]
      omega
    have hfirst := PatchesPut.one m physical (new.take count)
    rw [hlen, ← htake] at hfirst
    have hrest : (pieceAddrs pieces).length = (new.drop count).length := by
      rw [length_drop]
      omega
    have happ := hfirst.append (ih hdrop.symm hrest)
    rwa [take_append_drop, ← hcons] at happ

/-- Where all bytes differ, all bytes of the patches do. -/
theorem piecePatches_sharp {pieces : List (ℕ × ℕ)} {new : List UInt8}
    (h : ∀ (i : ℕ) (b : UInt8), old[i]? = some b → new[i]? ≠ some b) :
    ∀ p ∈ piecePatches pieces old new, p.Sharp := by
  induction pieces generalizing old new with
  | nil => simp [piecePatches]
  | cons p pieces ih =>
    obtain ⟨physical, count⟩ := p
    rw [piecePatches]
    refine forall_mem_cons.2 ⟨fun i b hb hb' ↦ ?_, ih fun i b hb ↦ ?_⟩
    · simp only at hb hb'
      rw [getElem?_take] at hb hb'
      split_ifs at hb hb' with hi
      exact h i b hb hb'
    · rw [getElem?_drop] at hb ⊢
      exact h _ b hb

/-- The patches of a stretch. -/
theorem runPatches_put (h : runPatches f (start, run) = .ok ps)
    (hold : ((f.addrs.drop start).take run.length).map m = run.map Prod.fst)
    (hdiff : ∀ p ∈ run, p.1 ≠ p.2) :
    PatchesPut m ps ((f.addrs.drop start).take run.length) (run.map Prod.snd) ∧
      ∀ p ∈ ps, p.Sharp := by
  rw [runPatches, bind_eq_ok] at h
  obtain ⟨pieces, hpieces, h⟩ := h
  obtain rfl := ok.inj h
  obtain ⟨haddrs, -, -⟩ := ForkMap.pieces_eq_ok hpieces
  simp only at haddrs
  have hlen := congrArg List.length hold
  rw [length_map, length_map] at hlen
  constructor
  · rw [← haddrs] at hold hlen ⊢
    exact piecePatches_put hold (hlen.trans (length_map _).symm)
  · refine piecePatches_sharp fun i b hb hb' ↦ ?_
    rw [getElem?_map, Option.map_eq_some_iff] at hb hb'
    obtain ⟨p, hp, rfl⟩ := hb
    obtain ⟨q, hq, heq⟩ := hb'
    rw [hp, Option.some.injEq] at hq
    exact hdiff p (mem_of_getElem? hp) (hq ▸ heq.symm)

/-- The addresses of a stretch and of what follows. -/
theorem take_drop_add (l : List ℕ) (start a b : ℕ) : (l.drop start).take (a + b) =
    (l.drop start).take a ++ (l.drop (start + a)).take b := by
  rw [take_add, drop_drop]

/-- The stretch that is open is closed. -/
theorem closeRun_put {lists : List (List Patch)}
    (h : (if run = [] then [] else [(start, run)]).mapM (runPatches f) = .ok lists)
    (hold : ((f.addrs.drop start).take run.length).map m = run.map Prod.fst)
    (hdiff : ∀ p ∈ run, p.1 ≠ p.2) :
    PatchesPut m lists.flatten ((f.addrs.drop start).take run.length) (run.map Prod.snd) ∧
      ∀ p ∈ lists.flatten, p.Sharp := by
  by_cases hrun : run = []
  · rw [if_pos hrun] at h
    obtain rfl := ok.inj h
    rw [hrun]
    exact ⟨.nil m, by simp⟩
  · rw [if_neg hrun, mapM_eq_ok] at h
    obtain ⟨ps, rest, hps, hrest, rfl⟩ := forall₂_cons_left_iff.1 h
    obtain rfl := forall₂_nil_left_iff.1 hrest
    rw [flatten_cons, flatten_nil, append_nil]
    exact runPatches_put hps hold hdiff

theorem mapM_append_eq_ok {α β : Type} {g : α → Except PyError β} {l l' : List α} {r : List β}
    (h : (l ++ l').mapM g = .ok r) : ∃ r₁ r₂, l.mapM g = .ok r₁ ∧ l'.mapM g = .ok r₂ ∧
      r = r₁ ++ r₂ := by
  rw [mapM_append, bind_eq_ok] at h
  obtain ⟨r₁, h₁, h⟩ := h
  obtain ⟨r₂, h₂, h⟩ := bind_eq_ok.1 h
  exact ⟨r₁, r₂, h₁, h₂, (ok.inj h).symm⟩

/-- The patches of all stretches. -/
theorem diffRuns_put {pairs : List (UInt8 × UInt8)} {lists : List (List Patch)}
    (h : (diffRuns start run pairs).mapM (runPatches f) = .ok lists)
    (hold : ((f.addrs.drop start).take (run.length + pairs.length)).map m =
      (run ++ pairs).map Prod.fst) (hdiff : ∀ p ∈ run, p.1 ≠ p.2) :
    PatchesPut m lists.flatten ((f.addrs.drop start).take (run.length + pairs.length))
      ((run ++ pairs).map Prod.snd) ∧ ∀ p ∈ lists.flatten, p.Sharp := by
  induction pairs generalizing start run lists with
  | nil =>
    rw [append_nil] at hold ⊢
    exact closeRun_put h hold hdiff
  | cons p pairs ih =>
    rw [diffRuns] at h
    by_cases hsame : p.1 = p.2
    · -- the stretch ends in front of a byte that stays
      rw [if_pos hsame] at h
      obtain ⟨l₁, l₂, h₁, h₂, rfl⟩ := mapM_append_eq_ok h
      have hlen : run.length + (p :: pairs).length = run.length + (1 + pairs.length) := by
        rw [length_cons, Nat.add_comm pairs.length]
      have hsplit : (f.addrs.drop start).take (run.length + (p :: pairs).length) =
          (f.addrs.drop start).take run.length ++ ((f.addrs.drop (start + run.length)).take 1 ++
            (f.addrs.drop (start + run.length + 1)).take pairs.length) := by
        rw [hlen, take_drop_add, take_drop_add]
      have hfull := congrArg List.length hold
      rw [length_map, length_map, length_take, length_drop, length_append, length_cons] at hfull
      have hrunlen : (((f.addrs.drop start).take run.length).map m).length =
          (run.map Prod.fst).length := by
        rw [length_map, length_map, length_take, length_drop]
        omega
      rw [hsplit, map_append, map_append, map_append] at hold
      obtain ⟨hrun, hrest⟩ := append_inj hold hrunlen
      have honelen :
          (((f.addrs.drop (start + run.length)).take 1).map m).length = [p.1].length := by
        rw [length_map, length_take, length_drop, length_singleton]
        omega
      obtain ⟨hone, hpairs⟩ := append_inj
        (show _ = [p.1] ++ pairs.map Prod.fst from hrest) honelen
      obtain ⟨hput₁, hsharp₁⟩ := closeRun_put h₁ hrun hdiff
      obtain ⟨hput₂, hsharp₂⟩ := ih h₂ (by rwa [length_nil, Nat.zero_add]) (by simp)
      rw [length_nil, Nat.zero_add, nil_append] at hput₂
      rw [hsame] at hone
      rw [hsplit, flatten_append, map_append]
      exact ⟨hput₁.append ((PatchesPut.same hone).append hput₂),
        forall_mem_append.2 ⟨hsharp₁, hsharp₂⟩⟩
    · rw [if_neg hsame] at h
      have hcons : run ++ p :: pairs = run ++ [p] ++ pairs := by
        rw [append_assoc, singleton_append]
      have hlen : run.length + (p :: pairs).length = (run ++ [p]).length + pairs.length := by
        rw [length_append, length_cons, length_singleton]
        omega
      rw [hcons, hlen] at hold ⊢
      refine ih h hold fun q hq ↦ ?_
      rcases mem_append.1 hq with hq | hq
      · exact hdiff q hq
      · rw [mem_singleton.1 hq]
        exact hsame

/-- **The patches of a bitmap** store the new one, and change every byte they touch. -/
theorem bitmapPatches_put {vol : Vol} {before after : List UInt8}
    (h : bitmapPatches vol before after = .ok ps) (hlen : after.length = before.length)
    (hold : (vol.allocationFork.addrs.take before.length).map m = before) :
    PatchesPut m ps (vol.allocationFork.addrs.take before.length) after ∧ ∀ p ∈ ps, p.Sharp := by
  rw [bitmapPatches, bind_eq_ok] at h
  obtain ⟨lists, hlists, h⟩ := h
  obtain rfl := ok.inj h
  have hzip : (before.zip after).length = before.length := by
    rw [length_zip, hlen, Nat.min_self]
  have hfst : (before.zip after).map Prod.fst = before := map_fst_zip hlen.ge
  have hsnd : (before.zip after).map Prod.snd = after := map_snd_zip hlen.le
  have hput := diffRuns_put (m := m) hlists
    (by rw [length_nil, Nat.zero_add, nil_append, hzip, hfst, drop_zero, hold])
    (by simp)
  rwa [length_nil, Nat.zero_add, nil_append, hzip, hsnd, drop_zero] at hput

/-! ### Bits -/

namespace Vol

theorem bitIndex_div (block : ℕ) : bitIndex block / 8 = block / 8 := by
  unfold bitIndex
  omega

theorem bitIndex_inj {b c : ℕ} : bitIndex b = bitIndex c ↔ b = c := by
  unfold bitIndex
  omega

end Vol

theorem markBlock_eq_ok {v : Bool} {bm bm' : List UInt8} {b : ℕ} (h : markBlock v bm b = .ok bm') :
    bm'.length = bm.length ∧ ∀ c, Vol.bitOf bm' c = if c = b then v else Vol.bitOf bm c := by
  rw [markBlock] at h
  split_ifs at h with hlt
  obtain rfl := ok.inj h
  refine ⟨length_setBitAt .., fun c ↦ ?_⟩
  rw [Vol.bitOf, bitAt_setBitAt (by rwa [Vol.bitIndex_div])]
  exact if_congr Vol.bitIndex_inj rfl rfl

/-- Marking the blocks of a list. -/
theorem foldlM_markBlock {v : Bool} {blocks : List ℕ} {bm bm' : List UInt8}
    (h : blocks.foldlM (markBlock v) bm = .ok bm') : bm'.length = bm.length ∧
      ∀ c, Vol.bitOf bm' c = if c ∈ blocks then v else Vol.bitOf bm c := by
  induction blocks generalizing bm with
  | nil =>
    obtain rfl := ok.inj h
    exact ⟨rfl, fun c ↦ by simp⟩
  | cons b blocks ih =>
    obtain ⟨bm₁, h₁, h⟩ := bind_eq_ok.1 h
    obtain ⟨hlen, hbits⟩ := ih h
    obtain ⟨hlen₁, hbits₁⟩ := markBlock_eq_ok h₁
    refine ⟨hlen.trans hlen₁, fun c ↦ ?_⟩
    rw [hbits c, hbits₁ c]
    by_cases hmem : c ∈ blocks
    · rw [if_pos hmem, if_pos (mem_cons_of_mem b hmem)]
    · simp only [hmem, if_false, mem_cons, or_false]

/-- **The bitmaps of a move.** -/
theorem makeBitmapStates_eq_ok {vol : Vol} {src dst : List ℕ} {stage final : List UInt8}
    (h : makeBitmapStates vol src dst = .ok (stage, final)) :
    stage.length = vol.bitmap.length ∧ final.length = vol.bitmap.length ∧
      (∀ c, Vol.bitOf stage c = if c ∈ dst then true else Vol.bitOf vol.bitmap c) ∧
      ∀ c, Vol.bitOf final c = if c ∈ src then false else Vol.bitOf stage c := by
  rw [makeBitmapStates, bind_eq_ok] at h
  obtain ⟨stage', hstage, h⟩ := h
  obtain ⟨final', hfinal, h⟩ := bind_eq_ok.1 h
  obtain ⟨rfl, rfl⟩ := Prod.mk.inj (ok.inj h)
  obtain ⟨hlen, hbits⟩ := foldlM_markBlock hstage
  obtain ⟨hlen', hbits'⟩ := foldlM_markBlock hfinal
  exact ⟨hlen, hlen'.trans hlen, hbits, hbits'⟩

/-- Bytes of bitmaps with the same bits are the same. -/
theorem byte_eq_of_bits {a b : List UInt8} {k : ℕ}
    (h : ∀ c, c / 8 = k → Vol.bitOf a c = Vol.bitOf b c) : a.getD k 0 = b.getD k 0 := by
  refine byteBit_ext fun j hj ↦ ?_
  have hbit := h (8 * k + (7 - j)) (by omega)
  have hindex : Vol.bitIndex (8 * k + (7 - j)) = 8 * k + j := by
    unfold Vol.bitIndex
    omega
  rwa [Vol.bitOf, Vol.bitOf, hindex, bitAt, bitAt, show (8 * k + j) / 8 = k by omega,
    show (8 * k + j) % 8 = j by omega] at hbit

/-- **What the first bitmap changes, the second changes too**, as long as the destination was free
and the source in use. -/
theorem final_ne_of_stage_ne {stage final : List UInt8} {src dst : List ℕ}
    (hstage : ∀ c, Vol.bitOf stage c = if c ∈ dst then true else Vol.bitOf old c)
    (hfinal : ∀ c, Vol.bitOf final c = if c ∈ src then false else Vol.bitOf stage c)
    (hdisj : ∀ c ∈ dst, c ∉ src) {k : ℕ} (h : stage.getD k 0 ≠ old.getD k 0) :
    final.getD k 0 ≠ old.getD k 0 := by
  intro hsame
  refine h (byte_eq_of_bits fun c hc ↦ ?_)
  by_cases hdst : c ∈ dst
  · have hbit : Vol.bitOf final c = Vol.bitOf old c := by
      have hk : Vol.bitIndex c / 8 = k := (Vol.bitIndex_div c).trans hc
      rw [Vol.bitOf, Vol.bitOf, bitAt, bitAt, hk, hsame]
    rw [← hbit, hfinal c, if_neg (hdisj c hdst)]
  · rw [hstage c, if_neg hdst]

/-! ### Descriptors and headers -/

@[simp] theorem length_be32Bytes (v : ℕ) : (be32Bytes v).length = 4 := rfl

theorem pack32_eq_ok {v : ℕ} {data : List UInt8} (h : pack32 v = .ok data) :
    v < 4294967296 ∧ data = be32Bytes v := by
  rw [pack32] at h
  split_ifs at h with hv
  exact ⟨by omega, (ok.inj h).symm⟩

/-- The addresses of a descriptor. -/
def DescriptorRef.addrs (ref : DescriptorRef) : List ℕ :=
  (ref.record.fork.addrs.drop (ref.record.logicalOffset + ref.relative)).take 8

/-- The eight bytes of an extent. -/
def Extent.bytes (e : Extent) : List UInt8 := be32Bytes e.start ++ be32Bytes e.count

/-- The extents of a contiguous fork, with as many blocks each as the old ones. -/
def contiguousExtents : ℕ → List DescriptorRef → List Extent
  | _, [] => []
  | cursor, ref :: rest =>
    ⟨cursor, ref.extent.count⟩ :: contiguousExtents (cursor + ref.extent.count) rest

theorem descriptorPatchesFrom_put {cursor last : ℕ} {refs : List DescriptorRef}
    (h : descriptorPatchesFrom disk cursor refs = .ok (last, ps)) :
    PatchesPut disk.image ps (refs.flatMap DescriptorRef.addrs)
        ((contiguousExtents cursor refs).flatMap Extent.bytes) ∧
      last = cursor + refBlocks refs ∧ (∀ p ∈ ps, p.old ≠ p.new) ∧
      ∀ e ∈ contiguousExtents cursor refs, e.start < 4294967296 ∧ e.count < 4294967296 := by
  induction refs generalizing cursor ps with
  | nil =>
    obtain ⟨rfl, rfl⟩ := Prod.mk.inj (ok.inj h)
    exact ⟨.nil _, rfl, by simp, by simp [contiguousExtents]⟩
  | cons ref refs ih =>
    rw [descriptorPatchesFrom, bind_eq_ok] at h
    obtain ⟨start, hstart, h⟩ := h
    obtain ⟨count, hcount, h⟩ := bind_eq_ok.1 h
    obtain ⟨first, hfirst, h⟩ := bind_eq_ok.1 h
    obtain ⟨⟨last', tail⟩, htail, h⟩ := bind_eq_ok.1 h
    obtain ⟨rfl, rfl⟩ := Prod.mk.inj (ok.inj h)
    obtain ⟨hlt, rfl⟩ := pack32_eq_ok hstart
    obtain ⟨hlt', rfl⟩ := pack32_eq_ok hcount
    obtain ⟨hput, hne⟩ := ForkMap.patches_put hfirst
    obtain ⟨hput', hlast, hne', hrest⟩ := ih htail
    refine ⟨hput.append hput', ?_, forall_mem_append.2 ⟨hne, hne'⟩,
      forall_mem_cons.2 ⟨⟨hlt, hlt'⟩, hrest⟩⟩
    rw [hlast, Nat.add_assoc, refBlocks, refBlocks, map_cons, sum_cons]

/-- **The patches of the descriptors** store those of a contiguous fork. -/
theorem descriptorPatches_put {obj : ForkObject} (h : descriptorPatches disk obj start = .ok ps) :
    PatchesPut disk.image ps (obj.descriptors.flatMap DescriptorRef.addrs)
        ((contiguousExtents start obj.descriptors).flatMap Extent.bytes) ∧
      refBlocks obj.descriptors = obj.totalBlocks ∧ (∀ p ∈ ps, p.old ≠ p.new) ∧
      ∀ e ∈ contiguousExtents start obj.descriptors, e.start < 4294967296 ∧
      e.count < 4294967296 := by
  rw [descriptorPatches, bind_eq_ok] at h
  obtain ⟨⟨last, ps'⟩, hfrom, h⟩ := h
  simp only at h
  rw [raiseIf_bind_eq_ok] at h
  obtain ⟨hlast, h⟩ := h
  obtain rfl := ok.inj h
  obtain ⟨hput, hcursor, hne, hlt⟩ := descriptorPatchesFrom_put hfrom
  exact ⟨hput, by omega, hne, hlt⟩

/-- The blocks of contiguous extents. -/
theorem blocks_contiguousExtents (cursor : ℕ) (refs : List DescriptorRef) :
    (contiguousExtents cursor refs).flatMap Extent.blocks = range' cursor (refBlocks refs) := by
  induction refs generalizing cursor with
  | nil => rfl
  | cons ref refs ih =>
    have hsum : refBlocks (ref :: refs) = ref.extent.count + refBlocks refs := by
      rw [refBlocks, refBlocks, map_cons, sum_cons]
    rw [contiguousExtents, flatMap_cons, ih, Extent.blocks, hsum, range'_append_1]

/-- The addresses of the free counts. -/
def headerAddrs (size : ℕ) : List ℕ := List.range' 1072 4 ++ List.range' (size - 1024 + 48) 4

/-- **The patches of the headers** store the free count in both. -/
theorem headerPatches_put {free : ℤ} (h : headerPatches disk free = .ok ps) :
    ∃ new : List UInt8, new.length = 4 ∧ pack32 free = .ok new ∧
      PatchesPut disk.image ps (headerAddrs disk.size) (new ++ new) ∧
      ∀ a, PatchesCover ps a ↔ a ∈ headerAddrs disk.size := by
  rw [headerPatches, bind_eq_ok] at h
  obtain ⟨new, hnew, h⟩ := h
  obtain ⟨primary, hprimary, h⟩ := bind_eq_ok.1 h
  obtain ⟨alternate, halternate, h⟩ := bind_eq_ok.1 h
  obtain rfl := ok.inj h
  obtain ⟨-, rfl⟩ := volumeRead_eq_ok.1 hprimary
  obtain ⟨-, rfl⟩ := volumeRead_eq_ok.1 halternate
  have hlen : new.length = 4 := by
    rw [pack32] at hnew
    split_ifs at hnew
    obtain rfl := ok.inj hnew
    rfl
  have hone (off : ℕ) : PatchesPut disk.image [⟨off, disk.image.read off 4, new⟩]
      (range' off 4) new := by
    have hput := PatchesPut.one disk.image off new
    rwa [hlen] at hput
  refine ⟨new, hlen, hnew, (hone 1072).append (hone (disk.size - 1024 + 48)), fun a ↦ ?_⟩
  rw [headerAddrs, mem_append, mem_range'_1, mem_range'_1]
  constructor
  · rintro ⟨p, hp, h₁, h₂⟩
    rcases mem_pair.1 hp with rfl | rfl
    · exact .inl ⟨h₁, by have : a < 1072 + new.length := h₂; omega⟩
    · exact .inr ⟨h₁, by have : a < disk.size - 1024 + 48 + new.length := h₂; omega⟩
  · rintro (⟨h₁, h₂⟩ | ⟨h₁, h₂⟩)
    · exact ⟨_, mem_cons_self, h₁, by show a < 1072 + new.length; omega⟩
    · exact ⟨_, mem_cons_of_mem _ mem_cons_self, h₁, by
        show a < disk.size - 1024 + 48 + new.length
        omega⟩

end LinuxDefragger.HfsPlus
