import LinuxDefragger.Storage.Image

/-!
# Devices with a volatile cache, and what a crash can leave behind

A program that writes to a device leaves a **trace**: the writes it issued and the points at which
it waited for everything before them to be durable. `replay` runs a trace against an image.

Of the writes issued since the last completed sync, a crash leaves any subset of their
**sector-sized pieces**, independently of the other writes and of their order (`keepPieces`). The
sector size is a parameter, so the same definition describes a device that tears nothing smaller
than a sector and, at size one, a device that tears everywhere.
-/

open List

namespace Storage

/-- A write: `data` stored from `offset` on. -/
structure Write where
  offset : ℕ
  data : List UInt8

/-- What a program does to a device, seen from the device. -/
inductive Event
  | write (w : Write)
  | sync

namespace Write

/-- The write touches address `a`. -/
def Covers (w : Write) (a : ℕ) : Prop := w.offset ≤ a ∧ a < w.offset + w.data.length

instance (w : Write) (a : ℕ) : Decidable (w.Covers a) :=
  inferInstanceAs (Decidable (_ ∧ _))

/-- The image after a write. -/
def apply (w : Write) (m : Image) : Image := m.write w.offset w.data

theorem apply_of_not_covers {w : Write} {a : ℕ} (m : Image) (h : ¬w.Covers a) : w.apply m a = m a :=
  Image.write_apply_of_not_mem (by simp only [Covers] at h; omega)

/-- Inside its range a write does not look at the image below it. -/
theorem apply_of_covers {w : Write} {a : ℕ} (m m' : Image) (h : w.Covers a) :
    w.apply m a = w.apply m' a := by
  have hlt : a - w.offset < w.data.length := by simp only [Covers] at h; omega
  rw [apply, apply, Image.write_apply_of_mem h.1 hlt, Image.write_apply_of_mem h.1 hlt]

end Write

/-! ### Replaying a trace -/

/-- The image after a list of writes. -/
def applyAll (m : Image) (ws : List Write) : Image := ws.foldl (fun m w ↦ w.apply m) m

/-- The image after an event. -/
def Event.apply (m : Image) : Event → Image
  | .write w => w.apply m
  | .sync => m

/-- The image after a trace, as the program itself sees it. -/
def replay (m : Image) (es : List Event) : Image := es.foldl Event.apply m

section

variable (m : Image)
include m

@[simp] theorem applyAll_cons (w : Write) (ws : List Write) :
    applyAll m (w :: ws) = applyAll (w.apply m) ws := rfl

theorem applyAll_append (ws ws' : List Write) :
    applyAll m (ws ++ ws') = applyAll (applyAll m ws) ws' :=
  foldl_append

/-- **Frame.** An address no write covers keeps its byte. -/
theorem applyAll_of_not_covers {ws : List Write} {a : ℕ}
    (h : ∀ w ∈ ws, ¬w.Covers a) : applyAll m ws a = m a := by
  induction ws generalizing m with
  | nil => rfl
  | cons w ws ih =>
    rw [applyAll_cons, ih _ fun v hv ↦ h v (mem_cons_of_mem _ hv),
      Write.apply_of_not_covers m (h w mem_cons_self)]

/-- **Writes that agree with one image.** If every write puts the bytes of `g` where it writes, so
do they all together, in whatever way they overlap. -/
theorem applyAll_of_consistent {ws : List Write} {g : Image} (a : ℕ)
    (h : ∀ w ∈ ws, ∀ m, w.Covers a → w.apply m a = g a) :
    applyAll m ws a = if ∃ w ∈ ws, w.Covers a then g a else m a := by
  induction ws generalizing m with
  | nil => simp [applyAll]
  | cons w ws ih =>
    rw [applyAll_cons, ih _ fun v hv ↦ h v (mem_cons_of_mem _ hv)]
    by_cases hw : w.Covers a
    · rw [h w mem_cons_self m hw, ite_self, if_pos ⟨w, mem_cons_self, hw⟩]
    · rw [w.apply_of_not_covers m hw]
      simp only [mem_cons, exists_eq_or_imp, hw, false_or]

theorem replay_append (es es' : List Event) : replay m (es ++ es') = replay (replay m es) es' :=
  foldl_append

theorem replay_writes (ws : List Write) : replay m (ws.map .write) = applyAll m ws := by
  induction ws generalizing m with
  | nil => rfl
  | cons w ws ih => exact ih (w.apply m)

end

/-! ### Crash images -/

/-- Apply of each write only the sector-sized pieces that `keep` selects: `keep i s` decides on the
piece of the `i`-th write that falls into sector `s`. -/
def keepPieces (sec : ℕ) (keep : ℕ → ℕ → Bool) : ℕ → List Write → Image → Image
  | _, [], m => m
  | i, w :: ws, m =>
    keepPieces sec keep (i + 1) ws fun a ↦ if keep i (a / sec) then w.apply m a else m a

variable {sec i : ℕ} {keep : ℕ → ℕ → Bool} {m : Image} {ws : List Write}

/-- **Every byte is durable, or from an unsynced write that covers it.** -/
theorem keepPieces_apply (sec : ℕ) (keep : ℕ → ℕ → Bool) (i : ℕ) (ws : List Write) (m : Image)
    (a : ℕ) : keepPieces sec keep i ws m a = m a ∨
      ∃ w ∈ ws, w.Covers a ∧ keepPieces sec keep i ws m a = w.apply m a := by
  induction ws generalizing i m with
  | nil => exact .inl rfl
  | cons w ws ih =>
    rw [keepPieces]
    set m₁ : Image := fun a ↦ if keep i (a / sec) then w.apply m a else m a with hm₁
    rcases ih (i + 1) m₁ with h | ⟨v, hv, hc, h⟩
    · -- no later write reached the byte, so it is what the first write left
      by_cases hcov : w.Covers a
      · by_cases hk : keep i (a / sec)
        · exact .inr ⟨w, mem_cons_self, hcov, by rw [h, hm₁]; simp only [hk, if_true]⟩
        · exact .inl (by rw [h, hm₁]; simp only [hk]; rfl)
      · refine .inl (h.trans ?_)
        simp only [hm₁, w.apply_of_not_covers m hcov, ite_self]
    · exact .inr ⟨v, mem_cons_of_mem _ hv, hc, h.trans (v.apply_of_covers _ _ hc)⟩

theorem keepPieces_congr_keep {keep' : ℕ → ℕ → Bool}
    (h : ∀ j < ws.length, ∀ s, keep (i + j) s = keep' (i + j) s) :
    keepPieces sec keep i ws m = keepPieces sec keep' i ws m := by
  induction ws generalizing i m with
  | nil => rfl
  | cons w ws ih =>
    have h₀ := fun s ↦ h 0 (by simp) s
    simp only [Nat.add_zero] at h₀
    rw [keepPieces, keepPieces, ih (i := i + 1) fun j hj s ↦ ?_]
    · simp only [h₀]
    · have := h (j + 1) (by simpa using hj) s
      rwa [show i + (j + 1) = i + 1 + j by omega] at this

theorem keepPieces_append (ws ws' : List Write) : keepPieces sec keep i (ws ++ ws') m =
    keepPieces sec keep (i + ws.length) ws' (keepPieces sec keep i ws m) := by
  induction ws generalizing i m with
  | nil => rfl
  | cons w ws ih =>
    rw [cons_append, keepPieces, keepPieces, ih, length_cons]
    congr 1
    omega

theorem keepPieces_none (ws : List Write) (h : ∀ j s, i ≤ j → keep j s = false) :
    keepPieces sec keep i ws m = m := by
  induction ws generalizing i m with
  | nil => rfl
  | cons w ws ih =>
    rw [keepPieces, ih fun j s hj ↦ h j s (by omega)]
    simp only [h i _ le_rfl, Bool.false_eq_true, if_false]

/-- The writes a crash never got to are dropped pieces like any other. -/
theorem exists_keepPieces_of_prefix (sec : ℕ) (keep : ℕ → ℕ → Bool) (m : Image)
    {ws' : List Write} (h : ws' <+: ws) :
    ∃ keep', keepPieces sec keep 0 ws' m = keepPieces sec keep' 0 ws m := by
  obtain ⟨tail, rfl⟩ := h
  refine ⟨fun j s ↦ if j < ws'.length then keep j s else false, ?_⟩
  rw [keepPieces_append, keepPieces_none tail fun j s hj ↦ by simp; omega]
  exact keepPieces_congr_keep fun j hj s ↦ by simp [hj]

end Storage
