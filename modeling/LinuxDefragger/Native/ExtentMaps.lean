import LinuxDefragger.Native.ExchangePass

/-!
# A filesystem that nobody else modifies

`Kernel.Quiet` states what a kernel does to the extent maps of the files of a filesystem while only
the compactor works on it: opening, reading maps, copying into the collector and syncing leave every
map but the collector's own as it is; an exchange changes the two files, and in the source every
part of an extent that is not exchanged stays one extent at its place.

`mapKernel` is such a kernel: its state is the extent map of each inode, and an exchange cuts the
ranges out of both maps and puts each into the other (`mapKernel_quiet`).
-/

open Function List

namespace LinuxDefragger.Native

section Quiet

variable {σ : Type} (maps : σ → ℕ → List FiemapExtent) (own : ℕ → Prop)

/-- The maps of all files but the collector's own are the same in both states. -/
def Undisturbed (w w' : σ) : Prop := ∀ i, ¬own i → maps w' i = maps w i

/-- Of the other files only the source has changed, and there every part of an extent that lies
outside the exchanged range is still one extent at its place. -/
structure Exchanged (source offset length : ℕ) (w w' : σ) : Prop where
  others : ∀ i, ¬own i → i ≠ source → maps w' i = maps w i
  outside : ∀ a p n, 0 < n → a + n ≤ offset ∨ offset + length ≤ a →
    showsSlice (maps w source) a p n = true → showsSlice (maps w' source) a p n = true

/-- The state a call leaves, whether it returns or raises. -/
def stateAfter {ε α : Type} : EStateM.Result ε σ α → σ
  | .ok _ w => w
  | .error _ w => w

/-- **Nobody else modifies the filesystem**: `node` says which inode a path names, `own` which
inodes are the collector's. -/
structure Kernel.Quiet (K : Kernel σ) (blockSize : ℕ) (node : Path → ℕ) : Prop where
  opens : ∀ path w fd w', K.openFile path w = .ok fd w' → fd = node path
  open_leaves : ∀ path w, Undisturbed maps own w (stateAfter (K.openFile path w))
  fiemap_leaves : ∀ fd a n w, Undisturbed maps own w (stateAfter (K.fiemap fd a n w))
  copy_leaves : ∀ fd offset donor n donorOffset w,
    Undisturbed maps own w (stateAfter (K.copyRange fd offset donor n donorOffset w))
  fsync_leaves : ∀ fd w, Undisturbed maps own w (stateAfter (K.fsync fd w))
  /-- A slice that lies in one extent is shown in one extent. -/
  shows : ∀ fd a n w es w', K.fiemap fd a n w = .ok es w' → 0 < n → ∀ p,
    showsSlice (maps w fd) a p n = true → showsSlice es a p n = true
  move_refused : ∀ fd donor a b n w e w', K.moveExtents fd donor a b n w = .error e w' →
    Undisturbed maps own w w'
  move_made : ∀ fd donor a b n w w', own donor → K.moveExtents fd donor a b n w = .ok n w' →
    Exchanged maps own fd (a * blockSize) (n * blockSize) w w'
  range_refused : ∀ fd donor a b n w e w', K.exchangeRange fd donor a b n w = .error e w' →
    Undisturbed maps own w w'
  range_made : ∀ fd donor a b n w w', own donor → K.exchangeRange fd donor a b n w = .ok () w' →
    Exchanged maps own fd a n w w'

end Quiet

section Laws

variable {σ : Type} {maps : σ → ℕ → List FiemapExtent} {own : ℕ → Prop} {w w₁ w₂ : σ}

theorem Undisturbed.refl (w : σ) : Undisturbed maps own w w := fun _ _ ↦ rfl

theorem Undisturbed.trans (h : Undisturbed maps own w w₁) (h' : Undisturbed maps own w₁ w₂) :
    Undisturbed maps own w w₂ := fun i hi ↦ (h' i hi).trans (h i hi)

theorem Exchanged.trans_undisturbed {source offset length : ℕ}
    (h : Exchanged maps own source offset length w w₁) (h' : Undisturbed maps own w₁ w₂)
    (hsource : ¬own source) : Exchanged maps own source offset length w w₂ where
  others i hi hne := (h' i hi).trans (h.others i hi hne)
  outside a p n hn hout hshow := by
    rw [h' source hsource]
    exact h.outside a p n hn hout hshow

variable {K : Kernel σ} {blockSize : ℕ} {node : Path → ℕ} (hK : K.Quiet maps own blockSize node)
include hK

/-- **What the exchange of the pass does**, on either filesystem. -/
theorem Kernel.Quiet.exchange (filesystem : Filesystem) {donor : ℕ} (hdonor : own donor)
    (fd offset donorOffset length : ℕ) (w : σ) :
    (∀ reason w', Native.exchange K filesystem blockSize fd donor offset donorOffset length w =
      .error (.sourceNotMovable reason) w' → Undisturbed maps own w w') ∧
    (∀ w', Native.exchange K filesystem blockSize fd donor offset donorOffset length w = .ok () w' →
      Exchanged maps own fd offset length w w') ∧
    ∀ path w', Native.exchange K filesystem blockSize fd donor offset donorOffset length w ≠
      .error (.sourceChanged path) w' := by
  cases filesystem with
  | ext4 =>
    simp only [Native.exchange, ext4Exchange]
    split_ifs with haligned
    · refine ⟨fun reason w' h ↦ ?_, fun w' h ↦ ?_, fun path w' h ↦ ?_⟩ <;> cases h
    push Not at haligned
    cases hmove : K.moveExtents fd donor (offset / blockSize) (donorOffset / blockSize)
      (length / blockSize) w with
    | error e w₁ =>
      simp only
      split_ifs with href
      · refine ⟨fun reason w' h ↦ ?_, fun w' h ↦ ?_, fun path w' h ↦ ?_⟩ <;> cases h
        exact hK.move_refused _ _ _ _ _ _ _ _ hmove
      · refine ⟨fun reason w' h ↦ ?_, fun w' h ↦ ?_, fun path w' h ↦ ?_⟩ <;> cases h
    | ok moved w₁ =>
      simp only
      split_ifs with hall
      · refine ⟨fun reason w' h ↦ ?_, fun w' h ↦ ?_, fun path w' h ↦ ?_⟩ <;> cases h
      · refine ⟨fun reason w' h ↦ ?_, fun w' h ↦ ?_, fun path w' h ↦ ?_⟩ <;> cases h
        obtain rfl := not_not.1 hall
        have hmade := hK.move_made _ _ _ _ _ _ _ hdonor hmove
        rwa [Nat.div_mul_cancel (Nat.dvd_of_mod_eq_zero haligned.1),
          Nat.div_mul_cancel (Nat.dvd_of_mod_eq_zero haligned.2.2)] at hmade
  | xfs =>
    simp only [Native.exchange, xfsExchange]
    cases hmove : K.exchangeRange fd donor offset donorOffset length w with
    | error e w₁ =>
      simp only
      split_ifs with hun href
      all_goals refine ⟨fun reason w' h ↦ ?_, fun w' h ↦ ?_, fun path w' h ↦ ?_⟩ <;> cases h
      exact hK.range_refused _ _ _ _ _ _ _ _ hmove
    | ok u w₁ =>
      refine ⟨fun reason w' h ↦ ?_, fun w' h ↦ ?_, fun path w' h ↦ ?_⟩ <;> cases h
      exact hK.range_made _ _ _ _ _ _ _ hdonor hmove

end Laws

/-! ### Extent maps as the state -/

/-- The part of an extent before offset `a` of its file. -/
def cutBelow (a : ℕ) (e : FiemapExtent) : List FiemapExtent :=
  if e.logical < a then [{ e with length := min e.length (a - e.logical) }] else []

/-- The part of an extent from offset `b` of its file on. -/
def cutAbove (b : ℕ) (e : FiemapExtent) : List FiemapExtent :=
  if b < e.logical + e.length then
    [{ e with
      logical := max e.logical b
      physical := e.physical + (max e.logical b - e.logical)
      length := e.logical + e.length - max e.logical b }]
  else []

/-- The map without the range `[a, b)`. -/
def cutOut (a b : ℕ) (es : List FiemapExtent) : List FiemapExtent :=
  es.flatMap fun e ↦ cutBelow a e ++ cutAbove b e

/-- The map of the range `[a, b)` alone, moved to offset `c`. -/
def cutRange (a b c : ℕ) (es : List FiemapExtent) : List FiemapExtent :=
  ((es.flatMap (cutBelow b)).flatMap (cutAbove a)).map fun e ↦
    { e with logical := e.logical - a + c }

/-- The extent map of every inode. -/
abbrev Maps := ℕ → List FiemapExtent

/-- Two files exchange the mappings of a range each. -/
def Maps.exchange (w : Maps) (fd donor offset donorOffset length : ℕ) : Maps :=
  Function.update (Function.update w donor
      (cutOut donorOffset (donorOffset + length) (w donor) ++
        cutRange offset (offset + length) donorOffset (w fd)))
    fd (cutOut offset (offset + length) (w fd) ++
      cutRange donorOffset (donorOffset + length) offset (w donor))

/-- A kernel on extent maps alone. It opens the paths that have a node, refuses nothing and is never
interrupted. -/
def mapKernel (blockSize : ℕ) (node : Path → Option ℕ) : Kernel Maps where
  stopRequested _ := false
  openFile path w := match node path with
    | some fd => .ok fd w
    | none => .error (.osError .other) w
  fiemap fd a n w := .ok ((w fd).filter fun e ↦ e.logical < a + n ∧ a < e.logical + e.length) w
  copyRange _ _ _ _ _ w := .ok () w
  fsync _ w := .ok () w
  moveExtents fd donor a b n w :=
    .ok n (w.exchange fd donor (a * blockSize) (b * blockSize) (n * blockSize))
  exchangeRange fd donor a b n w := .ok () (w.exchange fd donor a b n)

variable {a n p : ℕ} {es : List FiemapExtent}

theorem showsSlice_iff : showsSlice es a p n = true ↔
    ∃ e ∈ es, e.logical ≤ a ∧ a + n ≤ e.logical + e.length ∧ e.physical + (a - e.logical) = p ∧
      e.flags &&& unmovableFiemapFlags = 0 := by
  simp only [showsSlice, any_eq_true, Bool.and_eq_true, decide_eq_true_eq, and_assoc]

/-- **Cutting a range out leaves the parts outside it in one extent each.** -/
theorem showsSlice_cutOut {b c : ℕ} (hn : 0 < n) (hout : a + n ≤ b ∨ c ≤ a)
    (h : showsSlice es a p n = true) :
    showsSlice (cutOut b c es) a p n = true := by
  obtain ⟨e, he, hlo, hhi, hp, hflags⟩ := showsSlice_iff.1 h
  rcases hout with hbelow | habove
  · refine showsSlice_iff.2 ⟨{ e with length := min e.length (b - e.logical) },
      mem_flatMap.2 ⟨e, he, mem_append_left _ ?_⟩, hlo, ?_, hp, hflags⟩
    · rw [cutBelow, if_pos (by omega)]
      exact mem_cons_self
    · simp only
      omega
  · refine showsSlice_iff.2 ⟨{ e with
      logical := max e.logical c
      physical := e.physical + (max e.logical c - e.logical)
      length := e.logical + e.length - max e.logical c },
      mem_flatMap.2 ⟨e, he, mem_append_right _ ?_⟩, ?_, ?_, ?_, hflags⟩
    · rw [cutAbove, if_pos (by omega)]
      exact mem_cons_self
    all_goals simp only; omega

theorem showsSlice_append_left {es' : List FiemapExtent} (h : showsSlice es a p n = true) :
    showsSlice (es ++ es') a p n = true := by
  obtain ⟨e, he, hrest⟩ := showsSlice_iff.1 h
  exact showsSlice_iff.2 ⟨e, mem_append_left _ he, hrest⟩

theorem Maps.exchanged (own : ℕ → Prop) (w : Maps) {fd donor offset donorOffset length : ℕ}
    (hdonor : own donor) :
    Exchanged (fun w : Maps ↦ w) own fd offset length w
      (w.exchange fd donor offset donorOffset length) where
  others i hi hne := by
    have hne' : i ≠ donor := fun heq ↦ hi (heq ▸ hdonor)
    rw [Maps.exchange, update_of_ne hne, update_of_ne hne']
  outside a p n hn hout hshow := by
    rw [Maps.exchange, update_self]
    exact showsSlice_append_left (showsSlice_cutOut hn hout hshow)

/-- **Extent maps make a quiet kernel**, whichever inodes the collector owns. -/
theorem mapKernel_quiet (blockSize : ℕ) (own : ℕ → Prop) {node : Path → Option ℕ} {inode : Path → ℕ}
    (hnode : ∀ path i, node path = some i → i = inode path) :
    (mapKernel blockSize node).Quiet (fun w ↦ w) own blockSize inode where
  opens path w fd w' h := by
    simp only [mapKernel] at h
    cases hn : node path with
    | none =>
      rw [hn] at h
      cases h
    | some i =>
      rw [hn] at h
      cases h
      exact hnode path _ hn
  open_leaves path w := by
    simp only [mapKernel]
    cases node path <;> exact .refl _
  fiemap_leaves _ _ _ w := .refl w
  copy_leaves _ _ _ _ _ w := .refl w
  fsync_leaves _ w := .refl w
  shows fd a n w es w' h hn p hshow := by
    cases h
    obtain ⟨e, he, hlo, hhi, hrest⟩ := showsSlice_iff.1 hshow
    refine showsSlice_iff.2 ⟨e, mem_filter.2 ⟨he, ?_⟩, hlo, hhi, hrest⟩
    simp only [decide_eq_true_eq]
    omega
  move_refused fd donor a b n w e w' h := by cases h
  move_made fd donor a b n w w' hdonor h := by
    cases h
    exact Maps.exchanged own w hdonor
  range_refused fd donor a b n w e w' h := by cases h
  range_made fd donor a b n w w' hdonor h := by
    cases h
    exact Maps.exchanged own w hdonor

end LinuxDefragger.Native
