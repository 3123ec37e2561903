import LinuxDefragger.Exfat.Walk
import Mathlib.Data.Finset.Card
import Mathlib.Data.List.Chain

/-!
# FAT chains

A list of clusters is linked in the FAT (`LinkedTo`) if the entry of each cluster is the next one,
and that of the last cluster a given value. The clusters that `chain` lists are linked, and a list
that is linked is what `chain` lists, up to a count (`chain_of_linkedTo`) or up to the end of the
chain (`chain_none_of_linkedTo`).
-/

open Except List Storage

namespace LinuxDefragger.Exfat

/-- The end-of-chain mark. -/
def EOC : ℕ := 0xFFFFFFFF

/-- The entry of a cluster in the FAT. -/
def fatWord (fat : List UInt8) (c : ℕ) : ℕ := rd32 (bytesImage fat) (c * 4)

/-- Every cluster of the list has an entry that names the next one; that of the last one is
`last`. -/
def LinkedTo (fat : List UInt8) (last : ℕ) (clusters : List ℕ) : Prop :=
  ∀ k (h : k < clusters.length), fatWord fat clusters[k] = clusters.getD (k + 1) last

/-- The clusters are numbers that a chain may go through, with entries in the FAT. -/
def InFat (fat : List UInt8) (clusters : List ℕ) : Prop :=
  ∀ c ∈ clusters, 2 ≤ c ∧ c < 0xFFFFFFF8 ∧ c * 4 + 4 ≤ fat.length

variable {fat fat' : List UInt8} {count : Option ℕ} {fuel c first last n : ℕ} {nofat : Bool}
  {out r clusters : List ℕ}

theorem fatget_eq_ok {x : ℕ} : fatget fat c = .ok x ↔ c * 4 + 4 ≤ fat.length ∧ fatWord fat c = x :=
    u32_eq_ok

/-! ### A chain depends on the entries of its clusters -/

theorem chainLoop_congr (h : chainLoop fat count fuel c out = .ok r)
    (hlength : fat'.length = fat.length)
    (hsame : ∀ x ∈ r, fatWord fat' x = fatWord fat x) :
    chainLoop fat' count fuel c out = .ok r := by
  induction fuel generalizing c out with
  | zero => cases h
  | succ fuel ih =>
    rw [chainLoop] at h ⊢
    split_ifs at h ⊢ with hend hloop hcount
    · exact h
    · exact h
    · obtain ⟨next, hnext, h⟩ := bind_eq_ok.1 h
      obtain ⟨rest, hrest, -⟩ := chainLoop_append h
      have hmem : c ∈ r := by rw [hrest]; simp
      obtain ⟨hc, hnext⟩ := fatget_eq_ok.1 hnext
      rw [fatget_eq_ok.2 ⟨by rwa [hlength], (hsame c hmem).trans hnext⟩]
      exact ih h

theorem chain_congr (h : chain fat first count nofat = .ok r) (hlength : fat'.length = fat.length)
    (hsame : ∀ x ∈ r, fatWord fat' x = fatWord fat x) : chain fat' first count nofat = .ok r := by
  unfold chain at h ⊢
  rw [hlength]
  split_ifs at h ⊢ with hfirst
  · exact h
  · split at h
    · exact h
    · obtain ⟨out, hout, h⟩ := bind_eq_ok.1 h
      obtain ⟨hn, h⟩ := raiseIf_bind_eq_ok.1 h
      obtain rfl := ok.inj h
      rw [chainLoop_congr hout hlength hsame, ok_bind, raiseIf_bind_of_not hn]
      rfl
    · exact chainLoop_congr h hlength hsame

/-! ### What is listed is linked -/

theorem chainLoop_isChain (h : chainLoop fat count fuel c out = .ok r)
    (hout : (out ++ [c]).IsChain fun a b ↦ fatWord fat a = b) :
    r.IsChain fun a b ↦ fatWord fat a = b := by
  induction fuel generalizing c out with
  | zero => cases h
  | succ fuel ih =>
    rw [chainLoop] at h
    split at h
    · obtain rfl := ok.inj h
      exact hout.left_of_append
    split at h
    · cases h
    split at h
    · obtain rfl := ok.inj h
      exact hout
    obtain ⟨next, hnext, h⟩ := bind_eq_ok.1 h
    refine ih h (isChain_append.2 ⟨hout, isChain_singleton _, fun a ha b hb ↦ ?_⟩)
    simp only [getLast?_concat, Option.mem_some_iff] at ha
    simp only [head?_cons, Option.mem_some_iff] at hb
    rw [← ha, ← hb]
    exact (fatget_eq_ok.1 hnext).2

/-- **A counted chain is linked.** -/
theorem exists_linkedTo (h : chain fat first (some n) false = .ok clusters) :
    ∃ last, LinkedTo fat last clusters := by
  have hchain : clusters.IsChain fun a b ↦ fatWord fat a = b := by
    unfold chain at h
    split at h
    · exact ok.inj h ▸ isChain_nil
    · obtain ⟨out, hout, h⟩ := bind_eq_ok.1 h
      obtain ⟨-, h⟩ := raiseIf_bind_eq_ok.1 h
      exact ok.inj h ▸ chainLoop_isChain hout (isChain_singleton _)
  rw [isChain_iff_getElem] at hchain
  refine ⟨fatWord fat (clusters.getLastD 0), fun k hk ↦ ?_⟩
  rcases Nat.lt_or_ge (k + 1) clusters.length with hk' | hk'
  · rw [hchain k hk', getD_eq_getElem _ _ hk']
  · rw [getD_eq_default _ _ hk', getLastD_eq_getLast?, getLast?_eq_getElem?,
      getElem?_eq_getElem (by omega), Option.getD_some]
    congr 2
    omega

/-! ### What is linked is listed -/

/-- A walk with a count ends at that count, a walk without one where the chain ends. -/
theorem chainLoop_of_isChain {out rest : List ℕ} {count : Option ℕ}
    (hnodup : (out ++ c :: rest).Nodup) (hin : InFat fat (c :: rest))
    (hlinks : (c :: rest).IsChain fun a b ↦ fatWord fat a = b)
    (hcount : count = some (out ++ c :: rest).length ∨
      count = none ∧ ∀ x ∈ (c :: rest).getLast?, 0xFFFFFFF8 ≤ fatWord fat x)
    (hfuel : rest.length + 1 < fuel) : chainLoop fat count fuel c out = .ok (out ++ c :: rest) := by
  induction rest generalizing c out fuel with
  | nil =>
    obtain ⟨fuel, rfl⟩ := Nat.exists_eq_add_of_lt hfuel
    obtain ⟨h2, h8, hlength⟩ := hin c mem_cons_self
    have hc : c ∉ out := fun hmem ↦ disjoint_of_nodup_append hnodup hmem mem_cons_self
    rw [chainLoop, if_neg (by omega), if_neg hc]
    rcases hcount with rfl | ⟨rfl, hend⟩
    · rw [if_pos (by simp)]
      rfl
    · rw [if_neg (by simp), fatget_eq_ok.2 ⟨hlength, rfl⟩, ok_bind,
        show List.length ([] : List ℕ) + 1 + fuel = fuel + 1 by simp; omega, chainLoop,
        if_pos (.inr (hend c rfl))]
      rfl
  | cons next rest ih =>
    obtain ⟨fuel, rfl⟩ := Nat.exists_eq_add_of_lt hfuel
    obtain ⟨⟨h2, h8, hlength⟩, hin⟩ := forall_mem_cons.1 hin
    obtain ⟨hnext, hlinks⟩ := isChain_cons_cons.1 hlinks
    have hc : c ∉ out := fun hmem ↦ disjoint_of_nodup_append hnodup hmem mem_cons_self
    have happend : out ++ c :: next :: rest = (out ++ [c]) ++ next :: rest := by simp
    rw [chainLoop, if_neg (by omega), if_neg hc,
      if_neg (by rcases hcount with rfl | ⟨rfl, -⟩ <;> simp),
      fatget_eq_ok.2 ⟨hlength, hnext⟩, ok_bind]
    rw [happend] at hnodup hcount ⊢
    exact ih hnodup hin hlinks (by rwa [getLast?_cons_cons] at hcount) (by simp at hfuel ⊢; omega)

/-- A list of different numbers below a bound is not longer than the bound. -/
theorem length_le_of_nodup {l : List ℕ} (hnodup : l.Nodup) (h : ∀ c ∈ l, c < n) : l.length ≤ n := by
  rw [← toFinset_card_of_nodup hnodup, ← Finset.card_range n]
  exact Finset.card_le_card fun c hc ↦ Finset.mem_range.2 (h c (mem_toFinset.1 hc))

theorem InFat.length_le (h : InFat fat clusters) (hnodup : clusters.Nodup) :
    clusters.length ≤ fat.length / 4 := by
  refine length_le_of_nodup hnodup fun c hc ↦ ?_
  obtain ⟨-, -, hlength⟩ := h c hc
  omega

theorem LinkedTo.isChain (h : LinkedTo fat last clusters) :
    clusters.IsChain fun a b ↦ fatWord fat a = b := by
  rw [isChain_iff_getElem]
  intro k hk
  rw [h k (by omega), getD_eq_getElem _ _ hk]

theorem chainLoop_of_linkedTo {rest : List ℕ} {count : Option ℕ} (h : LinkedTo fat last (c :: rest))
    (hin : InFat fat (c :: rest)) (hnodup : (c :: rest).Nodup)
    (hcount : count = some (c :: rest).length ∨ count = none ∧ 0xFFFFFFF8 ≤ last) :
    chainLoop fat count (fat.length / 4 + 2) c [] = .ok (c :: rest) := by
  have hfuel := hin.length_le hnodup
  rw [length_cons] at hfuel
  refine chainLoop_of_isChain hnodup hin h.isChain (hcount.imp_right (And.imp_right ?_)) (by omega)
  intro hlast x hx
  have hx' := h rest.length (by simp)
  rw [getD_eq_default _ _ (by simp)] at hx'
  rw [getLast?_eq_getElem?, length_cons, Nat.add_sub_cancel, getElem?_eq_getElem (by simp)] at hx
  rwa [← Option.mem_some_iff.1 hx, hx']

section

variable (h : LinkedTo fat last clusters)
include h

/-- **A linked list is listed** up to its length. -/
theorem chain_of_linkedTo (hin : InFat fat clusters)
    (hnodup : clusters.Nodup) (hfirst : clusters.head? = some first) :
    chain fat first (some clusters.length) false = .ok clusters := by
  cases clusters with
  | nil => cases hfirst
  | cons c rest =>
    obtain rfl := Option.some.inj hfirst
    obtain ⟨h2, -, -⟩ := hin c mem_cons_self
    unfold chain
    rw [if_neg (by omega)]
    simp only [chainLoop_of_linkedTo h hin hnodup (.inl rfl), ok_bind]
    rw [raiseIf_bind_of_not (by simp)]
    rfl

/-- **A linked list that ends is listed** as a whole. -/
theorem chain_none_of_linkedTo (hin : InFat fat clusters)
    (hnodup : clusters.Nodup) (hfirst : clusters.head? = some first) (hlast : 0xFFFFFFF8 ≤ last) :
    chain fat first none false = .ok clusters := by
  cases clusters with
  | nil => cases hfirst
  | cons c rest =>
    obtain rfl := Option.some.inj hfirst
    obtain ⟨h2, -, -⟩ := hin c mem_cons_self
    unfold chain
    rw [if_neg (by omega)]
    exact chainLoop_of_linkedTo h hin hnodup (.inr ⟨rfl, hlast⟩)

/-! ### Replacing a cluster -/

/-- **A chain in which one cluster is replaced**: the new cluster names what the old one was
followed by, and the cluster in front of it names the new one. -/
theorem LinkedTo.set {i dest : ℕ} (hi : i < clusters.length)
    (hdest : fatWord fat' dest = (clusters.set i dest).getD (i + 1) EOC)
    (hpred : ∀ k (hk : k < clusters.length), k + 1 = i → fatWord fat' clusters[k] = dest)
    (hother : ∀ k (hk : k < clusters.length), k ≠ i → k + 1 ≠ i →
      fatWord fat' clusters[k] = fatWord fat clusters[k]) :
    LinkedTo fat' (if i + 1 = clusters.length then EOC else last) (clusters.set i dest) := by
  intro k hk
  have hlength : (clusters.set i dest).length = clusters.length := length_set
  rcases eq_or_ne i k with rfl | hik
  · rw [getElem_set_self, hdest]
    rcases Nat.lt_or_ge (i + 1) (clusters.set i dest).length with hnext | hend
    · rw [getD_eq_getElem _ _ hnext, getD_eq_getElem _ _ hnext]
    · rw [if_pos (by omega)]
  rw [getElem_set_ne hik]
  rcases eq_or_ne (k + 1) i with rfl | hne
  · rw [hpred k (by omega) rfl, getD_eq_getElem _ _ (by omega), getElem_set_self]
  · rw [hother k (by omega) hik.symm hne, h k (by omega), getD_eq_getElem?_getD,
      getD_eq_getElem?_getD, getElem?_set_ne hne.symm]
    rcases Nat.lt_or_ge (k + 1) clusters.length with hnext | hend
    · rw [getElem?_eq_getElem hnext, Option.getD_some, Option.getD_some]
    · rw [if_neg (by omega)]

end

end LinuxDefragger.Exfat
