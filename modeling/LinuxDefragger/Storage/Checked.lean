import Mathlib.Data.List.Forall2

/-!
# Computations that may stop

Inversion lemmas for `Except`: what a checked computation returned tells what each of its steps
returned. Proofs about the engines peel a computation apart with these and never unfold `bind`.
-/

open Except List

namespace Storage

variable {α β ε : Type}

variable {x : Except ε α} {l : List α} {r : List β} {b b' : β} {f : β → α → Except ε β}

variable {k : α → Except ε β}

theorem bind_eq_ok {r : β} : (x >>= k) = .ok r ↔ ∃ a, x = .ok a ∧ k a = .ok r := by
  cases x <;> simp [bind, Except.bind]

@[simp] theorem ok_bind (a : α) (k : α → Except ε β) : ((Except.ok a : Except ε α) >>= k) = k a :=
  rfl

@[simp] theorem pure_eq_ok (a : α) : (pure a : Except ε α) = .ok a := rfl

theorem mapM_eq_ok {f : α → Except ε β} :
    l.mapM f = .ok r ↔ Forall₂ (fun a b ↦ f a = .ok b) l r := by
  induction l generalizing r with
  | nil => simp [eq_comm]
  | cons a l ih =>
    rw [mapM_cons, bind_eq_ok, forall₂_cons_left_iff]
    constructor
    · rintro ⟨b, hb, h⟩
      obtain ⟨bs, hbs, h⟩ := bind_eq_ok.1 h
      exact ⟨b, bs, hb, ih.1 hbs, (ok.inj h).symm⟩
    · rintro ⟨b, bs, hb, hbs, rfl⟩
      exact ⟨b, hb, bind_eq_ok.2 ⟨bs, ih.2 hbs, rfl⟩⟩

/-- Two loops over related lists whose rounds give related results. -/
theorem mapM_forall₂ {α' β' : Type} {R : α → α' → Prop} {S : β → β' → Prop} {f : α → Except ε β}
    {g : α' → Except ε β'} {l' : List α'} (hl : Forall₂ R l l') (h : l.mapM f = .ok r)
    (hstep : ∀ a a' b, R a a' → f a = .ok b → ∃ b', g a' = .ok b' ∧ S b b') :
    ∃ r', l'.mapM g = .ok r' ∧ Forall₂ S r r' := by
  induction hl generalizing r with
  | nil =>
    obtain rfl := ok.inj h
    exact ⟨[], rfl, .nil⟩
  | cons ha _ ih =>
    rw [mapM_cons, bind_eq_ok] at h
    obtain ⟨b, hb, h⟩ := h
    obtain ⟨bs, hbs, h⟩ := bind_eq_ok.1 h
    obtain rfl := ok.inj h
    obtain ⟨b', hb', hS⟩ := hstep _ _ _ ha hb
    obtain ⟨bs', hbs', hSs⟩ := ih hbs
    exact ⟨b' :: bs', by rw [mapM_cons, hb', ok_bind, hbs']; rfl, .cons hS hSs⟩

theorem forM_eq_ok {f : α → Except ε Unit} : forM l f = .ok () ↔ ∀ a ∈ l, f a = .ok () := by
  induction l with
  | nil => simp
  | cons a l ih =>
    rw [forM_cons, bind_eq_ok, forall_mem_cons, ← ih]
    exact ⟨fun ⟨_, ha, hl⟩ ↦ ⟨ha, hl⟩, fun ⟨ha, hl⟩ ↦ ⟨(), ha, hl⟩⟩

theorem mapM_congr {f g : α → Except ε β} (h : ∀ a ∈ l, f a = g a) : l.mapM f = l.mapM g := by
  induction l with
  | nil => rfl
  | cons a l ih =>
    obtain ⟨hfirst, hrest⟩ := forall_mem_cons.1 h
    rw [mapM_cons, mapM_cons, hfirst, ih hrest]

/-- Loops whose rounds agree. -/
theorem foldlM_congr {g : β → α → Except ε β} (h : ∀ b, ∀ a ∈ l, f b a = g b a) :
    l.foldlM f b = l.foldlM g b := by
  induction l generalizing b with
  | nil => rfl
  | cons a l ih =>
    rw [foldlM_cons, foldlM_cons, h b a mem_cons_self]
    exact congrArg _ (funext fun b ↦ ih fun b a ha ↦ h b a (mem_cons_of_mem _ ha))

/-- A test of the result of a computation that went through. -/
theorem exists_ok_of_any {p : α → Bool} (h : x.toOption.any p = true) :
    ∃ a, x = .ok a ∧ p a = true := by
  cases x with
  | error e => cases h
  | ok a => exact ⟨a, rfl, h⟩

/-- **Invariants of a checked loop**: what every round keeps, the loop keeps. -/
theorem foldlM_invariant {P : β → Prop} (hstep : ∀ a ∈ l, ∀ b b', f b a = .ok b' → P b → P b')
    (h : l.foldlM f b = .ok b') (hb : P b) : P b' := by
  induction l generalizing b with
  | nil =>
    obtain rfl := ok.inj h
    exact hb
  | cons a l ih =>
    obtain ⟨b₁, h₁, h⟩ := bind_eq_ok.1 h
    obtain ⟨ha, hl⟩ := forall_mem_cons.1 hstep
    exact ih hl h (ha b b₁ h₁ hb)

/-- **Two checked loops** over one list whose rounds keep a relation. -/
theorem foldlM_rel {γ : Type} {R : β → γ → Prop} {g : γ → α → Except ε γ}
    (hstep : ∀ a ∈ l, ∀ b c b' c', R b c → f b a = .ok b' → g c a = .ok c' → R b' c') {c c' : γ}
    (hf : l.foldlM f b = .ok b') (hg : l.foldlM g c = .ok c') (h : R b c) : R b' c' := by
  induction l generalizing b c with
  | nil =>
    obtain rfl := ok.inj hf
    obtain rfl := ok.inj hg
    exact h
  | cons a l ih =>
    obtain ⟨ha, hl⟩ := forall_mem_cons.1 hstep
    obtain ⟨b₁, hb₁, hf⟩ := bind_eq_ok.1 hf
    obtain ⟨c₁, hc₁, hg⟩ := bind_eq_ok.1 hg
    exact ih hl hf hg (ha b c b₁ c₁ h hb₁ hc₁)

/-- What goes back through every round goes back through the loop. -/
theorem foldlM_back {E : β → Prop} (hback : ∀ a ∈ l, ∀ b b', f b a = .ok b' → E b' → E b)
    (h : l.foldlM f b = .ok b') (hend : E b') : E b := by
  induction l generalizing b with
  | nil => exact ok.inj h ▸ hend
  | cons a l ih =>
    obtain ⟨hback₁, hback⟩ := forall_mem_cons.1 hback
    obtain ⟨b₁, h₁, h⟩ := bind_eq_ok.1 h
    exact hback₁ b b₁ h₁ (ih hback h)

/-- **A checked loop carried over** by a map of its states and of its elements. `I` is what the
rounds keep, `E` what holds at the end and goes back through every round. -/
theorem foldlM_carry {α' β' : Type} {g : β' → α' → Except ε β'} {s : α → α'} {t : β → β'}
    {I E : β → Prop} (hback : ∀ a ∈ l, ∀ b b', f b a = .ok b' → E b' → E b)
    (hstep : ∀ a ∈ l, ∀ b b', f b a = .ok b' → I b → E b' → g (t b) (s a) = .ok (t b') ∧ I b')
    (h : l.foldlM f b = .ok b') (hb : I b) (hend : E b') :
    (l.map s).foldlM g (t b) = .ok (t b') ∧ I b' := by
  induction l generalizing b with
  | nil =>
    obtain rfl := ok.inj h
    exact ⟨rfl, hb⟩
  | cons a l ih =>
    obtain ⟨-, hback⟩ := forall_mem_cons.1 hback
    obtain ⟨hstep₁, hstep⟩ := forall_mem_cons.1 hstep
    obtain ⟨b₁, h₁, h⟩ := bind_eq_ok.1 h
    obtain ⟨hg, hI⟩ := hstep₁ b b₁ h₁ hb (foldlM_back hback h hend)
    obtain ⟨hfold, hI'⟩ := ih hback hstep h hI
    refine ⟨?_, hI'⟩
    rw [map_cons, foldlM_cons, hg, ok_bind, hfold]

/-- A list related element by element through a function is the mapped list. -/
theorem eq_map_of_forall₂ {R : α → β → Prop} {g : α → β} (h : Forall₂ R l r)
    (hg : ∀ a b, R a b → b = g a) : r = l.map g := by
  induction h with
  | nil => rfl
  | cons hab _ ih => rw [map_cons, hg _ _ hab, ih]

theorem exists_of_mem_forall₂ {R : α → β → Prop} (h : Forall₂ R l r) (hb : b ∈ r) :
    ∃ a ∈ l, R a b := by
  induction h with
  | nil => simp at hb
  | cons hab _ ih =>
    rcases mem_cons.1 hb with rfl | hb
    · exact ⟨_, mem_cons_self, hab⟩
    · obtain ⟨a, ha, hab⟩ := ih hb
      exact ⟨a, mem_cons_of_mem _ ha, hab⟩

/-! ### Errors that cannot occur -/

/-- A computation never stops with an error of the given kind. -/
def Avoids (bad : ε → Prop) (x : Except ε α) : Prop :=
  ∀ e, x = .error e → ¬bad e

namespace Avoids

variable {bad : ε → Prop}

theorem ok (a : α) : Avoids bad (.ok a : Except ε α) := fun _ h ↦ by cases h

theorem error {e : ε} (h : ¬bad e) : Avoids bad (.error e : Except ε α) := by
  rintro _ ⟨⟩
  exact h

theorem bind (hx : Avoids bad x) (hk : ∀ a, x = .ok a → Avoids bad (k a)) :
    Avoids bad (x >>= k) := by
  cases x with
  | error e => exact error (hx e rfl)
  | ok a => exact hk a rfl

/-- The first step of a computation that avoids an error avoids it. -/
theorem left_of_bind (h : Avoids bad (x >>= k)) : Avoids bad x := by
  rintro e rfl
  exact h e rfl

theorem mapM {f : α → Except ε β} (h : ∀ a ∈ l, Avoids bad (f a)) : Avoids bad (l.mapM f) := by
  induction l with
  | nil => exact ok _
  | cons a l ih =>
    obtain ⟨ha, hl⟩ := forall_mem_cons.1 h
    rw [mapM_cons]
    exact ha.bind fun _ _ ↦ (ih hl).bind fun _ _ ↦ ok _

theorem foldlM (h : ∀ b, ∀ a ∈ l, Avoids bad (f b a)) (b : β) : Avoids bad (l.foldlM f b) := by
  induction l generalizing b with
  | nil => exact ok _
  | cons a l ih =>
    rw [foldlM_cons]
    exact (h b a mem_cons_self).bind fun b _ ↦ ih (fun b a ha ↦ h b a (mem_cons_of_mem _ ha)) b

/-- A loop that avoids an error finishes if each round finishes or stops with that error. -/
theorem mapM_ok {f : α → Except ε β} (h : Avoids bad (l.mapM f))
    (hf : ∀ a ∈ l, (∃ b, f a = .ok b) ∨ ∃ e, f a = .error e ∧ bad e) :
    ∀ a ∈ l, ∃ b, f a = .ok b := by
  induction l with
  | nil => exact fun a ha ↦ by cases ha
  | cons a l ih =>
    obtain ⟨ha, hl⟩ := forall_mem_cons.1 hf
    rw [mapM_cons] at h
    rcases ha with ⟨b, hb⟩ | ⟨e, he, hbad⟩
    · rw [hb, ok_bind] at h
      exact forall_mem_cons.2 ⟨⟨b, hb⟩, ih h.left_of_bind hl⟩
    · exact absurd hbad (h.left_of_bind e he)

end Avoids

end Storage
