import LinuxDefragger.Exfat.Parse

/-!
# What a walk lists

Facts about `Volume.walk` that hold whatever the volume is: it only adds to what was listed
(`walk_extends`), every entry is a set of a directory that is itself listed (`walk_listed`), and no
set is listed twice (`walk_places`).
-/

open Except List Storage

namespace LinuxDefragger.Exfat

/-! ### Chains and counts -/

variable {n c : ℕ} {count : Option ℕ} {r : List ℕ} {s : FileSet} {x : Entry}

theorem round53_pos (h : 0 < n) : 0 < round53 n := by
  unfold round53
  split
  · exact h
  have hunit : 2 ^ (n.log2 - 52) ≤ n :=
    (Nat.pow_le_pow_right (by decide) (Nat.sub_le _ _)).trans (Nat.log2_self_le h.ne')
  have hq : 0 < n / 2 ^ (n.log2 - 52) := Nat.div_pos hunit (Nat.two_pow_pos _)
  dsimp only
  split
  · exact Nat.mul_pos hq (Nat.two_pow_pos _)
  · exact Nat.mul_pos (Nat.succ_pos _) (Nat.two_pow_pos _)

theorem ceilDiv_pos {length cs : ℕ} (h : length ≠ 0) (hcs : 0 < cs) : 0 < ceilDiv length cs := by
  have := round53_pos (Nat.pos_of_ne_zero h)
  exact Nat.div_pos (by omega) hcs

theorem ne_nil_of_head {l : List ℕ} {f : ℕ} (h : l.head? = some f) : l ≠ [] := by
  rintro rfl
  cases h

variable {fat : List UInt8} {out : List Entry} {root : List ℕ}

theorem chainLoop_append {fuel : ℕ} {out : List ℕ} (h : chainLoop fat count fuel c out = .ok r) :
    ∃ rest, r = out ++ rest ∧ ∀ x ∈ rest.head?, x = c := by
  induction fuel generalizing c out with
  | zero => cases h
  | succ fuel ih =>
    rw [chainLoop] at h
    split at h
    · exact ⟨[], by rw [append_nil, ok.inj h], nofun⟩
    split at h
    · cases h
    split at h
    · exact ⟨[c], (ok.inj h).symm, fun x hx ↦ (Option.some.inj hx).symm⟩
    · obtain ⟨next, -, h⟩ := bind_eq_ok.1 h
      obtain ⟨rest, rfl, -⟩ := ih h
      exact ⟨c :: rest, by simp, fun x hx ↦ (Option.some.inj hx).symm⟩

/-- A counted chain has the length asked for and starts at its first cluster. -/
theorem chain_eq_ok {first : ℕ} {nofat : Bool} {clusters : List ℕ}
    (h : chain fat first (some n) nofat = .ok clusters) (hfirst : first ≠ 0) (hn : 0 < n) :
    clusters.length = n ∧ clusters.head? = some first := by
  unfold chain at h
  rw [if_neg hfirst] at h
  cases nofat with
  | true =>
    obtain rfl := ok.inj h
    obtain ⟨k, rfl⟩ := Nat.exists_eq_add_of_lt hn
    exact ⟨length_range', by rw [Nat.zero_add, range'_succ]; rfl⟩
  | false =>
    obtain ⟨out, hout, h⟩ := bind_eq_ok.1 h
    obtain ⟨hlength, h⟩ := raiseIf_bind_eq_ok.1 h
    obtain rfl := ok.inj h
    rw [not_not] at hlength
    obtain ⟨rest, hrest, hhead⟩ := chainLoop_append hout
    rw [nil_append] at hrest
    subst hrest
    cases out with
    | nil => exact absurd hlength.symm hn.ne'
    | cons x rest => exact ⟨hlength, congrArg some (hhead x rfl)⟩

theorem chainLoop_nodup {fuel : ℕ} {out : List ℕ} (h : chainLoop fat count fuel c out = .ok r)
    (hout : out.Nodup) : r.Nodup := by
  induction fuel generalizing c out with
  | zero => cases h
  | succ fuel ih =>
    rw [chainLoop] at h
    split at h
    · exact ok.inj h ▸ hout
    split at h
    · cases h
    rename_i hc
    have hnew : (out ++ [c]).Nodup :=
      nodup_append.2 ⟨hout, pairwise_singleton _ c, fun a ha b hb hab ↦
        hc (mem_singleton.1 hb ▸ hab ▸ ha)⟩
    split at h
    · exact ok.inj h ▸ hnew
    · obtain ⟨next, -, h⟩ := bind_eq_ok.1 h
      exact ih h hnew

/-- A chain does not come back to a cluster. -/
theorem chain_nodup {first : ℕ} {nofat : Bool} {clusters : List ℕ}
    (h : chain fat first count nofat = .ok clusters) : clusters.Nodup := by
  unfold chain at h
  split at h
  · exact ok.inj h ▸ nodup_nil
  split at h
  · exact ok.inj h ▸ nodup_range'
  · obtain ⟨out, hout, h⟩ := bind_eq_ok.1 h
    obtain ⟨-, h⟩ := raiseIf_bind_eq_ok.1 h
    exact ok.inj h ▸ chainLoop_nodup hout nodup_nil
  · exact chainLoop_nodup h nodup_nil

/-- A chain that is cut at a count is a prefix of the whole chain. -/
theorem chainLoop_prefix {fuel : ℕ} {out r' : List ℕ} (h : chainLoop fat none fuel c out = .ok r)
    (h' : chainLoop fat (some n) fuel c out = .ok r') : r' <+: r := by
  induction fuel generalizing c out with
  | zero => cases h
  | succ fuel ih =>
    rw [chainLoop] at h h'
    split at h
    · rename_i hend
      rw [if_pos hend] at h'
      obtain rfl := ok.inj (h.symm.trans h')
      exact prefix_rfl
    rename_i hend
    rw [if_neg hend] at h'
    split at h
    · cases h
    rename_i hnew
    rw [if_neg hnew] at h'
    obtain ⟨next, hnext, h⟩ := bind_eq_ok.1 h
    split at h'
    · rw [← ok.inj h']
      obtain ⟨rest, rfl, -⟩ := chainLoop_append h
      exact prefix_append _ _
    · rw [hnext] at h'
      exact ih h h'

/-- Two elements of a list that is related pair by pair. -/
theorem or_of_pairwise {α : Type} {R : α → α → Prop} {l : List α} (h : l.Pairwise R) {a b : α}
    (ha : a ∈ l)
    (hb : b ∈ l) (hne : a ≠ b) : R a b ∨ R b a := by
  have : Std.Symm fun a b ↦ R a b ∨ R b a := ⟨fun _ _ h ↦ h.symm⟩
  have hor : l.Pairwise fun a b ↦ R a b ∨ R b a := h.imp Or.inl
  exact hor.forall ha hb hne

/-! ### Directories -/

/-- The offsets of the sets of a directory. -/
def dirOffsets (data : List UInt8) : List ℕ :=
  setOffsets (bytesImage data) data.length (data.length / 32) 0

/-- The sets of a directory that have a stream extension. -/
def dirSets (data : List UInt8) : List FileSet := setsAt (bytesImage data) (dirOffsets data)

/-- All sets of a directory are complete and have the right checksum. -/
def DirAccepted (data : List UInt8) : Prop :=
  ∀ o ∈ dirOffsets data, o + setTotal (bytesImage data) o * 32 ≤ data.length ∧
    checksumCheck (bytesImage data) o (setTotal (bytesImage data) o) = .ok ()

theorem mem_setsAt {p : Image} {offsets : List ℕ} :
    s ∈ setsAt p offsets ↔ s.offset ∈ offsets ∧ fileSet p s.offset (setTotal p s.offset) =
      some s := by
  rw [setsAt, mem_filterMap]
  constructor
  · rintro ⟨o, ho, hs⟩
    have hoffset : s.offset = o := by
      unfold fileSet at hs
      obtain ⟨_, -, rfl⟩ := Option.map_eq_some_iff.1 hs
      rfl
    rw [hoffset]
    exact ⟨ho, hs⟩
  · rintro ⟨ho, hs⟩
    exact ⟨s.offset, ho, hs⟩

theorem dirOffsets_pairwise (data : List UInt8) :
    (∀ o ∈ dirOffsets data, o % 32 = 0 ∧ bytesImage data o = 0x85) ∧
      (dirOffsets data).Pairwise fun a b ↦ a + setTotal (bytesImage data) a * 32 ≤ b := by
  obtain ⟨hbehind, hpairs⟩ := setOffsets_pairwise (p := bytesImage data)
  exact ⟨fun o ho ↦ (hbehind o ho).2, hpairs⟩

theorem dirSets_pairwise (data : List UInt8) :
    (dirSets data).Pairwise fun a b ↦ a.offset < b.offset := by
  have hoffsets : (dirOffsets data).Pairwise (· < ·) := by
    refine (dirOffsets_pairwise data).2.imp fun {a b} hab ↦ ?_
    have := setTotal_pos (bytesImage data) a
    omega
  refine (pairwise_filterMap.2 (hoffsets.imp fun {a b} hab s hs t ht ↦ ?_))
  have hsa : s.offset = a := by
    obtain ⟨_, -, rfl⟩ := Option.map_eq_some_iff.1 hs
    rfl
  have htb : t.offset = b := by
    obtain ⟨_, -, rfl⟩ := Option.map_eq_some_iff.1 ht
    rfl
  rwa [hsa, htb]

/-! ### One round of a walk -/

/-- An entry is listed. -/
def ParseState.push (st : ParseState) (x : Entry) : ParseState := { st with out := st.out ++ [x] }

/-- A directory is entered. -/
def ParseState.enter (st : ParseState) (first : ℕ) : ParseState :=
  { st with visited := first :: st.visited }

namespace Volume

variable {v : Volume} {fuel : ℕ} {path : List (List UInt8)} {first length : ℕ} {nofat : Bool}
  {st st' : ParseState} {C : List ℕ}

/-- What the walk does for a set of the directory with clusters `C`. -/
def visitEntry (v : Volume) (fuel : ℕ) (path : List (List UInt8)) (C : List ℕ) (st : ParseState)
    (s : FileSet) : Except PyError ParseState := do
  let fcl ← v.fileClusters s.first s.length s.nofat
  if s.isDir ∧ s.first ≠ 0 ∧ s.length ≠ 0 then
    v.walk fuel (path ++ [s.name]) s.first s.length s.nofat (st.push (entryOf path C s fcl))
  else pure (st.push (entryOf path C s fcl))

theorem walk_of_mem (h : first ∈ st.visited) :
    v.walk (fuel + 1) path first length nofat st = .ok st := by
  rw [walk, if_pos h]
  rfl

/-- A directory that is entered. -/
theorem walk_eq_ok_iff (h : first ∉ st.visited) :
    v.walk (fuel + 1) path first length nofat st = .ok st' ↔
      ∃ C data, chain v.fat first (some (v.dirCount length)) nofat = .ok C ∧
      v.dirData C = .ok data ∧
        DirAccepted data ∧ (dirSets data).foldlM (v.visitEntry fuel path C) (st.enter first) =
          .ok st' := by
  rw [walk, if_neg h, bind_eq_ok]
  refine exists_congr fun C ↦ ?_
  constructor
  · rintro ⟨hC, h⟩
    obtain ⟨data, hdata, h⟩ := bind_eq_ok.1 h
    exact ⟨data, hC, hdata, scanSets_eq_ok_iff.1 h⟩
  · rintro ⟨data, hC, hdata, h⟩
    exact ⟨hC, bind_eq_ok.2 ⟨data, hdata, scanSets_eq_ok_iff.2 h⟩⟩

/-- The clusters of a file or directory that has some. -/
theorem fileClusters_eq_ok (h : v.fileClusters first length nofat = .ok C) :
    (C ≠ [] ↔ first ≠ 0 ∧ length ≠ 0) ∧
      (C ≠ [] → chain v.fat first (some (v.dirCount length)) nofat = .ok C ∧
        C.head? = some first) := by
  unfold fileClusters at h
  by_cases hlength : length = 0
  · rw [fileCount, if_pos hlength, if_pos rfl] at h
    obtain rfl := ok.inj h
    exact ⟨by simp [hlength], fun h ↦ absurd rfl h⟩
  have hpos := ceilDiv_pos hlength v.boot.cs_pos
  rw [fileCount, if_neg hlength, if_neg hpos.ne'] at h
  by_cases hfirst : first = 0
  · unfold chain at h
    rw [if_pos hfirst] at h
    obtain rfl := ok.inj h
    exact ⟨by simp [hfirst], fun h ↦ absurd rfl h⟩
  obtain ⟨hlen, hhead⟩ := chain_eq_ok h hfirst hpos
  exact ⟨⟨fun _ ↦ ⟨hfirst, hlength⟩, fun _ ↦ ne_nil_of_head hhead⟩, fun _ ↦
    ⟨by rwa [dirCount, if_neg hlength], hhead⟩⟩

/-- One set: an entry is listed, and entered if it is a directory with clusters. -/
theorem visitEntry_eq_ok_iff : v.visitEntry fuel path C st s = .ok st' ↔
    ∃ fcl, v.fileClusters s.first s.length s.nofat = .ok fcl ∧
      ((s.isDir = true ∧ fcl ≠ [] ∧ v.walk fuel (path ++ [s.name]) s.first s.length s.nofat
          (st.push (entryOf path C s fcl)) = .ok st') ∨
        (¬(s.isDir = true ∧ fcl ≠ []) ∧ st' = st.push (entryOf path C s fcl))) := by
  rw [visitEntry, bind_eq_ok]
  refine exists_congr fun fcl ↦ and_congr_right fun hfcl ↦ ?_
  have hiff : (s.isDir = true ∧ s.first ≠ 0 ∧ s.length ≠ 0) ↔ (s.isDir = true ∧ fcl ≠ []) :=
    and_congr_right fun _ ↦ (fileClusters_eq_ok hfcl).1.symm
  by_cases henter : s.isDir = true ∧ fcl ≠ []
  · rw [if_pos (hiff.2 henter)]
    simp [henter]
  · rw [if_neg (hiff.not.2 henter)]
    exact ⟨fun h ↦ .inr ⟨henter, (ok.inj h).symm⟩,
      fun h ↦ h.elim (fun h' ↦ absurd ⟨h'.1, h'.2.1⟩ henter) fun h' ↦ congrArg Except.ok h'.2.symm⟩

/-! ### A walk only adds -/

/-- The second state has all the first one has. -/
structure Extends (st st' : ParseState) : Prop where
  out : st.out <+: st'.out
  visited : ∀ f ∈ st.visited, f ∈ st'.visited

theorem Extends.refl (st : ParseState) : Extends st st := ⟨prefix_rfl, fun _ h ↦ h⟩

theorem Extends.trans {st'' : ParseState} (h : Extends st st') (h' : Extends st' st'') :
    Extends st st'' :=
  ⟨h.out.trans h'.out, fun f hf ↦ h'.visited f (h.visited f hf)⟩

theorem extends_push (st : ParseState) (x : Entry) : Extends st (st.push x) :=
  ⟨prefix_append _ _, fun _ h ↦ h⟩

theorem extends_enter (st : ParseState) (f : ℕ) : Extends st (st.enter f) :=
  ⟨prefix_rfl, fun _ h ↦ mem_cons_of_mem _ h⟩

theorem walk_extends (h : v.walk fuel path first length nofat st = .ok st') : Extends st st' := by
  induction fuel generalizing path first length nofat st st' with
  | zero => cases h
  | succ fuel ih =>
    by_cases hmem : first ∈ st.visited
    · rw [walk_of_mem hmem] at h
      exact ok.inj h ▸ .refl st
    obtain ⟨C, data, -, -, -, hfold⟩ := (walk_eq_ok_iff hmem).1 h
    refine foldlM_invariant (P := Extends st) (fun s _ b b' hb hst ↦ hst.trans ?_) hfold
      (extends_enter st first)
    obtain ⟨fcl, -, ⟨-, -, hwalk⟩ | ⟨-, rfl⟩⟩ := visitEntry_eq_ok_iff.1 hb
    · exact (extends_push b _).trans (ih hwalk)
    · exact extends_push b _

theorem visitEntry_extends (h : v.visitEntry fuel path C st s = .ok st') : Extends st st' := by
  obtain ⟨fcl, -, ⟨-, -, hwalk⟩ | ⟨-, rfl⟩⟩ := visitEntry_eq_ok_iff.1 h
  · exact (extends_push st _).trans (walk_extends hwalk)
  · exact extends_push st _

/-! ### Where an entry comes from -/

/-- The clusters are those of the root or of a listed directory. -/
def IsDirectory (root : List ℕ) (out : List Entry) (C : List ℕ) : Prop :=
  C = root ∨ ∃ x ∈ out, x.isDir = true ∧ x.clusters = C ∧ C ≠ []

/-- The clusters are those of the root or of the listed directory with this path. -/
def DirectoryAt (root : List ℕ) (out : List Entry) (path : List (List UInt8)) (C : List ℕ) : Prop :=
  C = root ∨ ∃ x ∈ out, x.isDir = true ∧ x.clusters = C ∧ C ≠ [] ∧ x.path = path

theorem DirectoryAt.mono {out' : List Entry} (h : DirectoryAt root out path C)
    (hsub : ∀ x ∈ out, x ∈ out') : DirectoryAt root out' path C :=
  h.imp id fun ⟨x, hx, hC⟩ ↦ ⟨x, hsub x hx, hC⟩

/-- The entry is a set of a listed directory. -/
structure Listed (v : Volume) (root : List ℕ) (out : List Entry) (x : Entry) : Prop where
  set : ∃ path data s, DirectoryAt root out path x.parentClusters ∧
    v.dirData x.parentClusters = .ok data ∧ DirAccepted data ∧ s ∈ dirSets data ∧
    v.fileClusters s.first s.length s.nofat = .ok x.clusters ∧
    x = entryOf path x.parentClusters s x.clusters

section

variable (h : v.Listed root out x)
include h

theorem Listed.mono {out' : List Entry} (hsub : ∀ y ∈ out, y ∈ out') : v.Listed root out' x := by
  obtain ⟨path, data, s, hparent, hset⟩ := h.set
  exact ⟨path, data, s, hparent.mono hsub, hset⟩

theorem Listed.parent : IsDirectory root out x.parentClusters := by
  obtain ⟨path, data, s, hparent, -⟩ := h.set
  exact hparent.imp id fun ⟨y, hy, hdir, hclusters, hne, _⟩ ↦ ⟨y, hy, hdir, hclusters, hne⟩

/-- The directory of an entry is the root or that of another entry. -/
theorem Listed.parent_ne :
    x.parentClusters = root ∨ ∃ y ∈ out, y.isDir = true ∧ y.clusters = x.parentClusters ∧
      x.parentClusters ≠ [] ∧ y ≠ x := by
  obtain ⟨path, data, s, hparent, -, -, -, -, hentry⟩ := h.set
  refine hparent.imp id fun ⟨y, hy, hdir, hclusters, hne, hpath⟩ ↦ ⟨y, hy, hdir, hclusters, hne, ?_⟩
  rintro rfl
  -- the path of an entry is longer than that of its directory
  have hlength := congrArg (fun e ↦ e.path.length) hentry
  simp only [entryOf, hpath, length_append, length_singleton] at hlength
  omega

end

/-- **Every entry is a set of a listed directory**, and only listed directories are entered. -/
theorem walk_listed (h : v.walk fuel path first length nofat st = .ok st')
    (hdir : ∀ C, chain v.fat first (some (v.dirCount length)) nofat = .ok C →
      DirectoryAt root st.out path C) (hout : ∀ x ∈ st.out, v.Listed root st.out x) :
    ∀ x ∈ st'.out, v.Listed root st'.out x := by
  induction fuel generalizing path first length nofat st st' with
  | zero => cases h
  | succ fuel ih =>
    by_cases hmem : first ∈ st.visited
    · rw [walk_of_mem hmem] at h
      exact ok.inj h ▸ hout
    obtain ⟨C, data, hC, hdata, haccepted, hfold⟩ := (walk_eq_ok_iff hmem).1 h
    refine (foldlM_invariant (P := fun b ↦ Extends st b ∧ ∀ x ∈ b.out, v.Listed root b.out x)
      (fun s hs b b' hb hst ↦ ⟨hst.1.trans (visitEntry_extends hb), ?_⟩) hfold
      ⟨extends_enter st first, hout⟩).2
    obtain ⟨fcl, hfcl, hcases⟩ := visitEntry_eq_ok_iff.1 hb
    have hpush : ∀ x ∈ (b.push (entryOf path C s fcl)).out,
        v.Listed root (b.push (entryOf path C s fcl)).out x := by
      intro x hx
      rcases mem_append.1 hx with hx | hx
      · exact (hst.2 x hx).mono fun y hy ↦ mem_append_left _ hy
      · obtain rfl := mem_singleton.1 hx
        exact ⟨path, data, s, ((hdir C hC).mono hst.1.out.subset).mono fun y hy ↦
          mem_append_left _ hy, hdata, haccepted, hs, hfcl, rfl⟩
    rcases hcases with ⟨hsdir, hne, hwalk⟩ | ⟨-, rfl⟩
    · refine ih hwalk
        (fun C' hC' ↦ .inr ⟨entryOf path C s fcl, by simp [ParseState.push], hsdir, ?_⟩)
        hpush
      obtain rfl := ok.inj (((fileClusters_eq_ok hfcl).2 hne).1.symm.trans hC')
      exact ⟨rfl, hne, rfl⟩
    · exact hpush

/-! ### No set is listed twice -/

/-- The entries are at the same offset of the same directory. -/
def SamePlace (x y : Entry) : Prop := x.parentClusters = y.parentClusters ∧ x.entryOff = y.entryOff

instance (x y : Entry) : Decidable (SamePlace x y) := inferInstanceAs (Decidable (_ ∧ _))

/-- The directory of an entry starts at a cluster that was entered between the two states. -/
def EnteredBetween (st st' : ParseState) (x : Entry) : Prop :=
  ∃ f, x.parentClusters.head? = some f ∧ f ∉ st.visited ∧ f ∈ st'.visited

theorem walk_places (h : v.walk fuel path first length nofat st = .ok st')
    (hhead : ∀ C, chain v.fat first (some (v.dirCount length)) nofat = .ok C →
      C.head? = some first) :
    ∃ added, st'.out = st.out ++ added ∧ (∀ x ∈ added, EnteredBetween st st' x) ∧
      added.Pairwise fun x y ↦ ¬SamePlace x y := by
  induction fuel generalizing path first length nofat st st' with
  | zero => cases h
  | succ fuel ih =>
    by_cases hmem : first ∈ st.visited
    · rw [walk_of_mem hmem] at h
      exact ⟨[], by rw [append_nil, ok.inj h], nofun, .nil⟩
    obtain ⟨C, data, hC, -, -, hfold⟩ := (walk_eq_ok_iff hmem).1 h
    have hChead := hhead C hC
    -- the sets of this directory, from some state on
    suffices hsets : ∀ (l : List FileSet) (b : ParseState),
        l.Pairwise (fun a b ↦ a.offset < b.offset) → first ∈ b.visited →
        l.foldlM (v.visitEntry fuel path C) b = .ok st' →
        ∃ added, st'.out = b.out ++ added ∧
          (∀ x ∈ added, (x.parentClusters = C ∧ ∃ s ∈ l, x.entryOff = s.offset) ∨
            EnteredBetween b st' x) ∧
          added.Pairwise fun x y ↦ ¬SamePlace x y by
      obtain ⟨added, hout, hadded, hpairs⟩ := hsets _ _ (dirSets_pairwise data) mem_cons_self hfold
      have hfirst : first ∈ st'.visited := by
        refine (foldlM_invariant (P := fun b ↦ first ∈ b.visited) (fun s _ b b' hb hmem ↦ ?_) hfold
          mem_cons_self)
        exact (visitEntry_extends hb).visited first hmem
      refine ⟨added, hout, fun x hx ↦ ?_, hpairs⟩
      rcases hadded x hx with ⟨hparent, -⟩ | ⟨f, hf, hnew, hin⟩
      · exact ⟨first, by rw [hparent, hChead], hmem, hfirst⟩
      · exact ⟨f, hf, fun hold ↦ hnew (mem_cons_of_mem _ hold), hin⟩
    intro l
    induction l with
    | nil =>
      intro b _ _ hb
      exact ⟨[], by rw [append_nil, ok.inj hb], nofun, .nil⟩
    | cons s l ihl =>
      intro b hsorted hfirst hb
      obtain ⟨hslt, hsorted⟩ := pairwise_cons.1 hsorted
      obtain ⟨b₁, hb₁, hb⟩ := bind_eq_ok.1 hb
      obtain ⟨rest, hrest, hadded, hpairs⟩ :=
        ihl b₁ hsorted ((visitEntry_extends hb₁).visited _ hfirst) hb
      have hext : Extends b₁ st' := by
        refine foldlM_invariant (P := Extends b₁) (fun t _ c c' hc hst ↦ ?_) hb (.refl b₁)
        exact hst.trans (visitEntry_extends hc)
      obtain ⟨fcl, hfcl, hcases⟩ := visitEntry_eq_ok_iff.1 hb₁
      -- what is listed inside the entry, if it is a directory
      obtain ⟨inner, hinner, hentered, hinnerPairs⟩ : ∃ inner,
          b₁.out = (b.push (entryOf path C s fcl)).out ++ inner ∧
          (∀ x ∈ inner, EnteredBetween b b₁ x) ∧ inner.Pairwise fun x y ↦ ¬SamePlace x y := by
        rcases hcases with ⟨-, hne, hwalk⟩ | ⟨-, rfl⟩
        · refine ih hwalk fun C' hC' ↦ ?_
          obtain ⟨hchain, hhead'⟩ := (fileClusters_eq_ok hfcl).2 hne
          obtain rfl := ok.inj (hchain.symm.trans hC')
          exact hhead'
        · exact ⟨[], (append_nil _).symm, nofun, .nil⟩
      refine ⟨entryOf path C s fcl :: (inner ++ rest), ?_, ?_, ?_⟩
      · rw [hrest, hinner]
        simp [ParseState.push]
      · intro x hx
        rcases mem_cons.1 hx with rfl | hx
        · exact .inl ⟨rfl, s, mem_cons_self, rfl⟩
        rcases mem_append.1 hx with hx | hx
        · obtain ⟨f, hf, hnew, hin⟩ := hentered x hx
          exact .inr ⟨f, hf, hnew, hext.visited f hin⟩
        · rcases hadded x hx with ⟨hparent, t, ht, hoff⟩ | ⟨f, hf, hnew, hin⟩
          · exact .inl ⟨hparent, t, mem_cons_of_mem _ ht, hoff⟩
          · exact .inr ⟨f, hf, fun hold ↦ hnew ((visitEntry_extends hb₁).visited f hold), hin⟩
      · refine pairwise_cons.2 ⟨fun y hy hsame ↦ ?_, pairwise_append.2
          ⟨hinnerPairs, hpairs, fun x hx y hy hsame ↦ ?_⟩⟩
        · -- the entry itself is in front of all others of its directory
          rcases mem_append.1 hy with hy | hy
          · obtain ⟨f, hf, hnew, -⟩ := hentered y hy
            rw [← hsame.1, show (entryOf path C s fcl).parentClusters = C from rfl, hChead] at hf
            exact hnew (Option.some.inj hf ▸ hfirst)
          · rcases hadded y hy with ⟨-, t, ht, hoff⟩ | ⟨f, hf, hnew, -⟩
            · have hlt := hslt t ht
              rw [← hoff, ← hsame.2] at hlt
              exact lt_irrefl _ hlt
            · rw [← hsame.1, show (entryOf path C s fcl).parentClusters = C from rfl, hChead] at hf
              exact hnew (Option.some.inj hf ▸ (visitEntry_extends hb₁).visited _ hfirst)
        · -- what is inside it belongs to directories entered on the way
          obtain ⟨f, hf, hnew, hin⟩ := hentered x hx
          rcases hadded y hy with ⟨hparent, -⟩ | ⟨g, hg, hnew', -⟩
          · rw [hsame.1, hparent, hChead] at hf
            exact hnew (Option.some.inj hf ▸ hfirst)
          · rw [hsame.1, hg] at hf
            exact hnew' (Option.some.inj hf ▸ hin)

/-! ### The whole tree -/

/-- The clusters of the root directory that the walk reads. -/
structure HasRoot (v : Volume) (root : List ℕ) : Prop where
  chain : ∃ rootcl, v.rootChain = .ok rootcl ∧
    chain v.fat v.boot.root (some (v.dirCount (rootcl.length * v.boot.cs))) false = .ok root
  head : root.head? = some v.boot.root

theorem dirCount_pos (v : Volume) (length : ℕ) : 0 < v.dirCount length := by
  unfold dirCount
  split
  · exact Nat.one_pos
  · rename_i hlength
    exact ceilDiv_pos hlength v.boot.cs_pos

/-- The walk reads the chain of the root directory, or less of it. -/
theorem HasRoot.beginning {rootcl : List ℕ} (h : v.HasRoot root)
    (hrootcl : v.rootChain = .ok rootcl) : root <+: rootcl := by
  obtain ⟨rootcl', hrootcl', hroot⟩ := h.chain
  obtain rfl := ok.inj (hrootcl.symm.trans hrootcl')
  unfold rootChain Exfat.chain at hrootcl
  unfold Exfat.chain at hroot
  split at hrootcl
  · rename_i hzero
    rw [if_pos hzero] at hroot
    obtain rfl := ok.inj (hrootcl.symm.trans hroot)
    exact prefix_rfl
  · rename_i hzero
    rw [if_neg hzero] at hroot
    obtain ⟨out, hout, hroot⟩ := bind_eq_ok.1 hroot
    obtain ⟨-, hroot⟩ := raiseIf_bind_eq_ok.1 hroot
    obtain rfl := ok.inj hroot
    exact chainLoop_prefix hrootcl hout

/-- **What `parse` lists**: sets of listed directories, each once. -/
theorem parse_tree {entries : List Entry} (h : v.parse = .ok entries) (hne : entries ≠ []) :
    ∃ root, v.HasRoot root ∧ (∀ x ∈ entries, v.Listed root entries x) ∧
      entries.Pairwise fun x y ↦ ¬SamePlace x y := by
  unfold parse at h
  obtain ⟨rootcl, hrootcl, h⟩ := bind_eq_ok.1 h
  obtain ⟨st, hwalk, h⟩ := bind_eq_ok.1 h
  obtain rfl := ok.inj h
  obtain ⟨root, data, hroot, hdata, -, hfold⟩ := (walk_eq_ok_iff not_mem_nil).1 hwalk
  have hfirst : v.boot.root ≠ 0 := by
    intro hzero
    unfold Exfat.chain at hroot
    rw [if_pos hzero] at hroot
    obtain rfl := ok.inj hroot
    -- without a first cluster there is nothing to read
    obtain rfl : data = [] := by rw [← ok.inj hdata]; exact take_nil
    obtain rfl := ok.inj hfold
    exact hne rfl
  have hhead := (chain_eq_ok hroot hfirst (v.dirCount_pos _)).2
  refine ⟨root, ⟨⟨rootcl, hrootcl, hroot⟩, hhead⟩, walk_listed hwalk (fun C hC ↦ ?_)
    (fun x hx ↦ absurd hx not_mem_nil), ?_⟩
  · exact .inl (ok.inj (hC.symm.trans hroot))
  · obtain ⟨added, hout, -, hpairs⟩ := walk_places hwalk fun C hC ↦ by
      rw [ok.inj (hC.symm.trans hroot), hhead]
    rw [hout]
    exact hpairs

end Volume

end LinuxDefragger.Exfat
