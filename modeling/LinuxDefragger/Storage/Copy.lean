import LinuxDefragger.Storage.Image
import Mathlib.Data.List.Nodup
import Mathlib.Data.List.Zip

/-!
# Copying between addresses

`Copied pairs source old new` says that `new` is `old` after the simultaneous assignment of every
source of `pairs` to its destination. A program makes such an assignment piece by piece and in an
order of its own: `Copied.append` puts two pieces together when the first writes nothing the second
looks at or writes, and `Copied.congr` forgets the order.
-/

open List

namespace Storage

section Copied

variable {α β γ : Type*} {P Q : List (α × β)} {s s' : α → γ} {m m₁ m₂ : β → γ}

/-- `new` is `old` with the value of `source` at `p.1` stored at `p.2` for every `p` of `pairs`, all
at once. -/
structure Copied (pairs : List (α × β)) (source : α → γ) (old new : β → γ) : Prop where
  copied : ∀ p ∈ pairs, new p.2 = source p.1
  kept : ∀ b, (∀ p ∈ pairs, p.2 ≠ b) → new b = old b

namespace Copied

theorem nil (s : α → γ) (m : β → γ) : Copied [] s m m :=
  ⟨fun _ h ↦ absurd h not_mem_nil, fun _ _ ↦ rfl⟩

theorem congr (h : Copied P s m m₁) (hPQ : ∀ p, p ∈ P ↔ p ∈ Q) : Copied Q s m m₁ :=
  ⟨fun p hp ↦ h.copied p ((hPQ p).2 hp), fun b hb ↦ h.kept b fun p hp ↦ hb p ((hPQ p).1 hp)⟩

/-- The second piece finds its sources as they were, and leaves the first piece's destinations. -/
theorem append (h : Copied P s m m₁) (h' : Copied Q s' m₁ m₂) (hsource : ∀ q ∈ Q, s' q.1 = s q.1)
    (hdestination : ∀ p ∈ P, ∀ q ∈ Q, p.2 ≠ q.2) : Copied (P ++ Q) s m m₂ := by
  refine ⟨fun p hp ↦ ?_, fun b hb ↦ ?_⟩
  · rcases mem_append.1 hp with hp | hp
    · rw [h'.kept p.2 fun q hq ↦ (hdestination p hp q hq).symm, h.copied p hp]
    · rw [h'.copied p hp, hsource p hp]
  · rw [h'.kept b fun q hq ↦ hb q (mem_append_right _ hq),
      h.kept b fun p hp ↦ hb p (mem_append_left _ hp)]

/-- Two pieces of a copy in place. -/
theorem append_self {P Q : List (α × α)} {m m₁ m₂ : α → γ} (h : Copied P m m m₁)
    (h' : Copied Q m₁ m₁ m₂) (hsource : ∀ p ∈ P, ∀ q ∈ Q, p.2 ≠ q.1)
    (hdestination : ∀ p ∈ P, ∀ q ∈ Q, p.2 ≠ q.2) : Copied (P ++ Q) m m m₂ :=
  h.append h' (fun q hq ↦ h.kept q.1 fun p hp ↦ hsource p hp q hq) hdestination

theorem map_eq {sources : List α} {destinations : List β}
    (h : Copied (sources.zip destinations) s m m₁) (hlen : sources.length = destinations.length) :
    destinations.map m₁ = sources.map s := by
  refine ext_getElem (by simp [hlen]) fun i hi _ ↦ ?_
  rw [length_map] at hi
  rw [getElem_map, getElem_map]
  refine h.copied (sources[i], destinations[i]) ?_
  rw [← getElem_zip]
  · exact getElem_mem _
  · rw [length_zip, hlen, Nat.min_self]
    exact hi

/-- What was loaded from `sources` into a buffer, and stored from there in `destinations`. -/
theorem through {δ : Type*} {sources : List α} {places : List δ} {destinations : List β} {b : δ → γ}
    (hload : ∀ p ∈ sources.zip places, b p.2 = s p.1) (h : Copied (places.zip destinations) b m m₁)
    (hlen : sources.length = places.length) (hlen' : places.length = destinations.length) :
    Copied (sources.zip destinations) s m m₁ := by
  refine ⟨fun p hp ↦ ?_, fun c hc ↦ h.kept c fun p hp hpc ↦ ?_⟩
  · obtain ⟨i, hi, rfl⟩ := mem_iff_getElem.1 hp
    rw [length_zip] at hi
    rw [getElem_zip]
    have hi₁ : i < (places.zip destinations).length := by rw [length_zip]; omega
    have hi₂ : i < (sources.zip places).length := by rw [length_zip]; omega
    have hstored := h.copied _ (getElem_mem hi₁)
    have hloaded := hload _ (getElem_mem hi₂)
    rw [getElem_zip] at hstored hloaded
    exact hstored.trans hloaded
  · obtain ⟨i, hi, rfl⟩ := mem_iff_getElem.1 hp
    rw [length_zip] at hi
    rw [getElem_zip] at hpc
    have hi₁ : i < (sources.zip destinations).length := by rw [length_zip]; omega
    refine hc _ (getElem_mem hi₁) ?_
    rw [getElem_zip]
    exact hpc

end Copied

end Copied

/-! ### Ranges of an image -/

theorem mem_zip_range' {a b t : ℕ} {p : ℕ × ℕ} :
    p ∈ (range' a t).zip (range' b t) ↔ ∃ i < t, p = (a + i, b + i) := by
  simp only [range'_eq_map_range, zip_map', mem_map, mem_range, eq_comm]

/-- A range that is read and stored elsewhere. The two may overlap. -/
theorem Copied.write (s m : Image) (a b t : ℕ) :
    Copied ((range' a t).zip (range' b t)) s m (m.write b (s.read a t)) := by
  refine ⟨fun p hp ↦ ?_, fun c hc ↦ ?_⟩
  · obtain ⟨i, hi, rfl⟩ := mem_zip_range'.1 hp
    rw [Image.write_apply_add m b _ (by simpa using hi), Image.getElem_read]
  · refine Image.write_apply_of_not_mem ?_
    rw [Image.read_length]
    by_contra hin
    refine hc (a + (c - b), b + (c - b)) (mem_zip_range'.2 ⟨c - b, by omega, rfl⟩) ?_
    show b + (c - b) = c
    omega

section Blocks

variable {ι : Type*} {start : ι → ℕ} {size : ℕ} {xs ys : List ι} {m m' : Image}

/-- The addresses of blocks of one size, in order. -/
def blockAddrs (start : ι → ℕ) (size : ℕ) (blocks : List ι) : List ℕ :=
  blocks.flatMap fun b ↦ List.range' (start b) size

theorem blockAddrs_cons (start : ι → ℕ) (size : ℕ) (x : ι) (xs : List ι) :
    blockAddrs start size (x :: xs) = range' (start x) size ++ blockAddrs start size xs :=
  flatMap_cons

theorem blockAddrs_append (start : ι → ℕ) (size : ℕ) (xs ys : List ι) :
    blockAddrs start size (xs ++ ys) = blockAddrs start size xs ++ blockAddrs start size ys :=
  flatMap_append

@[simp] theorem length_blockAddrs (start : ι → ℕ) (size : ℕ) (xs : List ι) :
    (blockAddrs start size xs).length = xs.length * size := by
  simp [blockAddrs, length_flatMap]

/-- No address is in two of the blocks. -/
def BlocksApart (start : ι → ℕ) (size : ℕ) (blocks : Set ι) : Prop :=
  ∀ x ∈ blocks, ∀ y ∈ blocks, ∀ a ∈ List.range' (start x) size, a ∈ List.range' (start y) size →
  x = y

theorem BlocksApart.nodup {S : Set ι} (h : BlocksApart start size S) (hxs : ∀ x ∈ xs, x ∈ S)
    (hnodup : xs.Nodup) : (blockAddrs start size xs).Nodup :=
  nodup_flatMap.2 ⟨fun _ _ ↦ nodup_range', hnodup.imp_of_mem fun hx hy hne a ha ha' ↦
    hne (h _ (hxs _ hx) _ (hxs _ hy) a ha ha')⟩

theorem BlocksApart.disjoint {S : Set ι} (h : BlocksApart start size S) (hxs : ∀ x ∈ xs, x ∈ S)
    (hys : ∀ y ∈ ys, y ∈ S) (hdisjoint : xs.Disjoint ys) :
    (blockAddrs start size xs).Disjoint (blockAddrs start size ys) := by
  intro a ha ha'
  obtain ⟨x, hx, hax⟩ := mem_flatMap.1 ha
  obtain ⟨y, hy, hay⟩ := mem_flatMap.1 ha'
  obtain rfl := h x (hxs x hx) y (hys y hy) a hax hay
  exact hdisjoint hx hy

/-- Blocks that follow each other make one range. -/
theorem blockAddrs_range' {start : ℕ → ℕ} {a n : ℕ}
    (h : ∀ k < n, start (a + k) = start a + k * size) :
    blockAddrs start size (range' a n) = range' (start a) (n * size) := by
  induction n with
  | zero => simp [blockAddrs]
  | succ n ih =>
    rw [range'_1_concat, blockAddrs_append, ih fun k hk ↦ h k (by omega), blockAddrs_cons,
      h n (Nat.lt_succ_self n), Nat.succ_mul, ← range'_append_1]
    exact congrArg _ (append_nil _)

theorem zip_blockAddrs (start : ι → ℕ) (size : ℕ) (xs ys : List ι) :
    (blockAddrs start size xs).zip (blockAddrs start size ys) = (xs.zip ys).flatMap fun p ↦
      (range' (start p.1) size).zip (range' (start p.2) size) := by
  induction xs generalizing ys with
  | nil => rfl
  | cons x xs ih =>
    rcases ys with _ | ⟨y, ys⟩
    · exact zip_nil_right
    · rw [blockAddrs_cons, blockAddrs_cons,
        zip_append (by rw [length_range', length_range']), zip_cons_cons,
        flatMap_cons, ← ih]

/-- Blocks that are copied address by address are copied as blocks. -/
theorem Copied.read_eq
    (h : Copied ((blockAddrs start size xs).zip (blockAddrs start size ys)) m m m') {p : ι × ι}
    (hp : p ∈ xs.zip ys) : m'.read (start p.2) size = m.read (start p.1) size := by
  rw [zip_blockAddrs] at h
  refine map_congr_left fun i hi ↦ ?_
  exact h.copied (start p.1 + i, start p.2 + i)
    (mem_flatMap.2 ⟨p, hp, mem_zip_range'.2 ⟨i, mem_range.1 hi, rfl⟩⟩)

end Blocks

end Storage
