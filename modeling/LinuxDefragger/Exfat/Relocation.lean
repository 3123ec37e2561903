import LinuxDefragger.Exfat.Walk

/-!
# Moving an object

When an object has moved, its set names another first cluster and another way to find the clusters.
The tree that `parse` reads is the same otherwise, except that what is inside a moved directory is
now found in its new clusters.

`Carried v v'` says that the second volume is the first one after such a move, as far as a walk can
see: directory by directory, set by set.
-/

open Except Storage

namespace LinuxDefragger.Exfat

/-- An object, and where it is after a move. -/
structure Relocation where
  entry : Entry
  first : ℕ
  nofat : Bool
  clusters : List ℕ

namespace Relocation

variable (m : Relocation)

/-- Where a directory is after the move. -/
def directory (C : List ℕ) : List ℕ :=
  if m.entry.isDir = true ∧ C = m.entry.clusters then m.clusters else C

/-- A set of the directory with clusters `C` after the move. -/
def set (C : List ℕ) (s : FileSet) : FileSet :=
  if C = m.entry.parentClusters ∧ s.offset = m.entry.entryOff then
    { s with first := m.first, nofat := m.nofat }
  else s

/-- The moved object has its new place. -/
def place (x : Entry) : Entry :=
  if Volume.SamePlace x m.entry then
    { x with first := m.first, nofat := m.nofat, clusters := m.clusters }
  else x

/-- An entry after the move: the moved one has its new place, and what is inside it is found
there. -/
def apply (x : Entry) : Entry :=
  { m.place x with parentClusters := m.directory x.parentClusters }

section Fields

variable (x : Entry)

@[simp]
theorem apply_path : (m.apply x).path = x.path := by
  unfold apply place
  split_ifs <;> rfl

@[simp]
theorem apply_isDir : (m.apply x).isDir = x.isDir := by
  unfold apply place
  split_ifs <;> rfl

@[simp]
theorem apply_length : (m.apply x).length = x.length := by
  unfold apply place
  split_ifs <;> rfl

@[simp]
theorem apply_entryOff : (m.apply x).entryOff = x.entryOff := by
  unfold apply place
  split_ifs <;> rfl

@[simp]
theorem apply_entryCount : (m.apply x).entryCount = x.entryCount := by
  unfold apply place
  split_ifs <;> rfl

end Fields

/-- The first cluster of a directory after the move. -/
def head (f : ℕ) : ℕ :=
  if m.entry.isDir = true ∧ m.entry.clusters.head? = some f then m.first else f

/-- The variables of a walk after the move. -/
def state (st : ParseState) : ParseState := ⟨st.out.map m.apply, st.visited.map m.head⟩

end Relocation

namespace Volume

/-- No directory starts where another one does. -/
structure HeadsDiffer (root : List ℕ) (all : List Entry) : Prop where
  ne_root : ∀ x ∈ all, x.isDir = true → x.clusters.head? ≠ root.head?
  entries : ∀ x ∈ all, ∀ y ∈ all, x.isDir = true → y.isDir = true → x.clusters ≠ [] →
    x.clusters.head? = y.clusters.head? → x = y

theorem eq_of_samePlace {entries : List Entry} (h : entries.Pairwise fun x y ↦ ¬SamePlace x y)
    {x y : Entry} (hx : x ∈ entries) (hy : y ∈ entries) (hplace : SamePlace x y) : x = y := by
  by_contra hne
  exact (or_of_pairwise h hx hy hne).elim (· hplace) (· ⟨hplace.1.symm, hplace.2.symm⟩)

/-- **The second volume is the first one after a move.** -/
structure Carried (v v' : Volume) (root : List ℕ) (all : List Entry) (m : Relocation) : Prop where
  boot : v'.boot = v.boot
  hasRoot : v'.HasRoot root
  mem : m.entry ∈ all
  places : ∀ x ∈ all, SamePlace x m.entry → x = m.entry
  heads : HeadsDiffer root all
  other : ∀ x ∈ all, ¬SamePlace x m.entry → v'.fileClusters x.first x.length x.nofat =
    .ok x.clusters
  moved : v'.fileClusters m.first m.entry.length m.nofat = .ok m.clusters
  empty : m.entry.isDir = true → (m.clusters = [] ↔ m.entry.clusters = [])
  sets : ∀ C, IsDirectory root all C → ∀ data, v.dirData C = .ok data → DirAccepted data →
    ∃ data', v'.dirData (m.directory C) = .ok data' ∧ DirAccepted data' ∧
      dirSets data' = (dirSets data).map (m.set C)
  /-- A moved directory does not start where another one does. -/
  fresh : m.entry.isDir = true → m.entry.clusters ≠ [] → ∀ C, IsDirectory root all C →
    C ≠ m.entry.clusters → C.head? ≠ some m.first

namespace Carried

variable {v v' : Volume} {root : List ℕ} {all : List Entry} {m : Relocation} {C : List ℕ}
  {fuel : ℕ} {path : List (List UInt8)} {first length : ℕ} {nofat nofat' : Bool}
  {st st' : ParseState}

section

variable (h : Carried v v' root all m)
include h

theorem dirCount_eq (length : ℕ) : v'.dirCount length = v.dirCount length := by
  rw [dirCount, dirCount, h.boot]

/-- Only the moved directory has its clusters. -/
theorem directory_of_ne {x : Entry} (hx : x ∈ all) (hdir : x.isDir = true)
    (hne : x.clusters ≠ []) (hxm : x ≠ m.entry) : m.directory x.clusters = x.clusters := by
  refine if_neg fun hsame ↦ hxm ?_
  exact h.heads.entries x hx m.entry h.mem hdir hsame.1 hne (congrArg _ hsame.2)

theorem directory_root : m.directory root = root := by
  refine if_neg fun hsame ↦ h.heads.ne_root m.entry h.mem hsame.1 ?_
  rw [hsame.2]

/-- The map of first clusters is injective on those of directories. -/
theorem head_inj {D : List ℕ} {f g : ℕ} (hC : IsDirectory root all C)
    (hf : C.head? = some f) (hD : IsDirectory root all D) (hg : D.head? = some g)
    (hsame : m.head f = m.head g) : f = g := by
  unfold Relocation.head at hsame
  split at hsame <;> split at hsame <;> rename_i hmf hmg
  · exact Option.some.inj (hmf.2.symm.trans hmg.2)
  · refine absurd (hsame ▸ hg) (h.fresh hmf.1 (ne_nil_of_head hmf.2) D hD ?_)
    rintro rfl
    exact hmg ⟨hmf.1, hg⟩
  · refine absurd (hsame ▸ hf) (h.fresh hmg.1 (ne_nil_of_head hmg.2) C hC ?_)
    rintro rfl
    exact hmf ⟨hmg.1, hf⟩
  · exact hsame

end

/-- The walk has come to the first clusters of directories only. -/
def HeadsOf (root : List ℕ) (all : List Entry) (st : ParseState) : Prop :=
  ∀ f ∈ st.visited, ∃ C, IsDirectory root all C ∧ C.head? = some f

section

variable (h : Carried v v' root all m)
include h

theorem mem_visited_iff (hst : HeadsOf root all st)
    (hC : IsDirectory root all C) (hhead : C.head? = some first) :
    m.head first ∈ (m.state st).visited ↔ first ∈ st.visited := by
  refine ⟨fun hmem ↦ ?_, fun hmem ↦ List.mem_map_of_mem hmem⟩
  obtain ⟨g, hg, hsame⟩ := List.mem_map.1 hmem
  obtain ⟨D, hD, hDhead⟩ := hst g hg
  rwa [h.head_inj hC hhead hD hDhead hsame.symm]

/-- What a set turns into, and where its object is. -/
theorem set_carried {s : FileSet} {fcl : List ℕ}
    (hmem : entryOf path C s fcl ∈ all) (hfcl : v.fileClusters s.first s.length s.nofat = .ok fcl) :
    ∃ fcl', v'.fileClusters (m.set C s).first s.length (m.set C s).nofat = .ok fcl' ∧
      (s.isDir = true → (fcl' = [] ↔ fcl = [])) ∧
      entryOf path (m.directory C) (m.set C s) fcl' = m.apply (entryOf path C s fcl) ∧
      (s.isDir = true → fcl ≠ [] → fcl' = m.directory fcl ∧
        (m.set C s).first = m.head s.first) := by
  by_cases hplace : SamePlace (entryOf path C s fcl) m.entry
  · -- the set is that of the moved object
    have hentry := h.places _ hmem hplace
    have hset : m.set C s = { s with first := m.first, nofat := m.nofat } := if_pos hplace
    have hlength : s.length = m.entry.length := by rw [← hentry]; rfl
    have hclusters : fcl = m.entry.clusters := by rw [← hentry]; rfl
    have hdir : s.isDir = m.entry.isDir := by rw [← hentry]; rfl
    refine ⟨m.clusters, ?_, fun hsdir ↦ ?_, ?_, fun hsdir hne ↦ ?_⟩
    · rw [hset, hlength]
      exact h.moved
    · rw [h.empty (hdir ▸ hsdir), hclusters]
    · rw [hset, Relocation.apply, Relocation.place, if_pos hplace]
      rfl
    · rw [hdir] at hsdir
      refine ⟨(if_pos ⟨hsdir, hclusters⟩).symm, ?_⟩
      rw [hset, Relocation.head, if_pos ⟨hsdir, hclusters ▸ ((fileClusters_eq_ok hfcl).2 hne).2⟩]
  · have hset : m.set C s = s := if_neg hplace
    have hclusters := h.other _ hmem hplace
    refine ⟨fcl, ?_, fun _ ↦ Iff.rfl, ?_, fun hdir hne ↦ ?_⟩
    · rw [hset]
      exact hclusters
    · rw [hset, Relocation.apply, Relocation.place, if_neg hplace]
      rfl
    · have hne' : entryOf path C s fcl ≠ m.entry := by
        rintro heq
        exact hplace (heq ▸ ⟨rfl, rfl⟩)
      refine ⟨(h.directory_of_ne hmem hdir hne hne').symm, ?_⟩
      rw [hset]
      refine (if_neg fun hhead ↦ hne' ?_).symm
      exact h.heads.entries _ hmem _ h.mem hdir hhead.1 hne
        (((fileClusters_eq_ok hfcl).2 hne).2.trans hhead.2.symm)

/-- **The walk after the move** lists the moved entries. -/
theorem walk_carried
    (hwalk : v.walk fuel path first length nofat st = .ok st') (hall : ∀ x ∈ st'.out, x ∈ all)
    (hst : HeadsOf root all st) (hC : IsDirectory root all C) (hhead : C.head? = some first)
    (hchain : chain v.fat first (some (v.dirCount length)) nofat = .ok C)
    (hchain' : chain v'.fat (m.head first) (some (v.dirCount length)) nofat' =
      .ok (m.directory C)) :
    v'.walk fuel path (m.head first) length nofat' (m.state st) = .ok (m.state st') ∧
      HeadsOf root all st' := by
  induction fuel generalizing path first length nofat nofat' st st' C with
  | zero => cases hwalk
  | succ fuel ih =>
    by_cases hmem : first ∈ st.visited
    · rw [walk_of_mem hmem] at hwalk
      obtain rfl := ok.inj hwalk
      exact ⟨walk_of_mem ((h.mem_visited_iff hst hC hhead).2 hmem), hst⟩
    have hmem' := (h.mem_visited_iff hst hC hhead).not.2 hmem
    obtain ⟨C₁, data, hC₁, hdata, haccepted, hfold⟩ := (walk_eq_ok_iff hmem).1 hwalk
    obtain rfl := ok.inj (hchain.symm.trans hC₁)
    obtain ⟨data', hdata', haccepted', hsets⟩ := h.sets C hC data hdata haccepted
    have hround : ∀ s ∈ dirSets data, ∀ b b', v.visitEntry fuel path C b s = .ok b' →
        HeadsOf root all b → (∀ x ∈ b'.out, x ∈ all) →
        v'.visitEntry fuel path (m.directory C) (m.state b) (m.set C s) = .ok (m.state b') ∧
          HeadsOf root all b' := by
      intro s _ b b' hb hheads hall'
      obtain ⟨fcl, hfcl, hcases⟩ := visitEntry_eq_ok_iff.1 hb
      have hlisted : entryOf path C s fcl ∈ all := by
        refine hall' _ ?_
        rcases hcases with ⟨-, -, hwalk'⟩ | ⟨-, rfl⟩
        · exact (walk_extends hwalk').out.subset (by simp [ParseState.push])
        · simp [ParseState.push]
      obtain ⟨fcl', hfcl', hempty, hentry, hdirectory⟩ := h.set_carried hlisted hfcl
      have hsdir : (m.set C s).isDir = s.isDir := by unfold Relocation.set; split <;> rfl
      have hslength : (m.set C s).length = s.length := by unfold Relocation.set; split <;> rfl
      have hsname : (m.set C s).name = s.name := by unfold Relocation.set; split <;> rfl
      have hpush : (m.state b).push (entryOf path (m.directory C) (m.set C s) fcl') =
          m.state (b.push (entryOf path C s fcl)) := by
        rw [hentry]
        simp [ParseState.push, Relocation.state]
      rw [visitEntry_eq_ok_iff, hsdir, hslength, hsname]
      rcases hcases with ⟨hdir, hne, hwalk'⟩ | ⟨henter, rfl⟩
      · -- a directory is entered
        obtain ⟨rfl, hfirst⟩ := hdirectory hdir hne
        obtain ⟨hchain₁, hhead₁⟩ := (fileClusters_eq_ok hfcl).2 hne
        have hne' : m.directory fcl ≠ [] := (hempty hdir).not.2 hne
        have hchain₁' := ((fileClusters_eq_ok hfcl').2 hne').1
        rw [h.dirCount_eq, hfirst] at hchain₁'
        obtain ⟨hwalk'', hheads'⟩ :=
          ih hwalk' hall' hheads (.inr ⟨_, hlisted, hdir, rfl, hne⟩) hhead₁
          hchain₁ hchain₁'
        refine ⟨⟨_, hfcl', .inl ⟨hdir, hne', ?_⟩⟩, hheads'⟩
        rw [hpush, hfirst]
        exact hwalk''
      · refine ⟨⟨fcl', hfcl', .inr ⟨fun henter' ↦ henter ⟨henter'.1, ?_⟩, hpush.symm⟩⟩, hheads⟩
        exact (hempty henter'.1).not.1 henter'.2
    have hheads : HeadsOf root all (st.enter first) := by
      intro f hf
      rcases List.mem_cons.1 hf with rfl | hf
      · exact ⟨C, hC, hhead⟩
      · exact hst f hf
    obtain ⟨hfold', hheads'⟩ := foldlM_carry (E := fun b ↦ ∀ x ∈ b.out, x ∈ all)
      (fun s _ b b' hb hend x hx ↦ hend x ((visitEntry_extends hb).out.subset hx)) hround hfold
        hheads hall
    rw [← h.dirCount_eq] at hchain'
    exact ⟨(walk_eq_ok_iff hmem').2 ⟨_, data', hchain', hdata', haccepted', hsets ▸ hfold'⟩,
      hheads'⟩

/-- **The tree after a move**: the entries that `parse` listed, in the same order, with the moved
one at its new place. -/
theorem parse_carried (hroot : v.HasRoot root) (hparse : v.parse = .ok all)
    (hchain : v'.rootChain = v.rootChain) : v'.parse = .ok (all.map m.apply) := by
  obtain ⟨rootcl, hrootcl, hrootchain⟩ := hroot.chain
  obtain ⟨rootcl', hrootcl', hrootchain'⟩ := h.hasRoot.chain
  obtain rfl := ok.inj (hrootcl.symm.trans (hchain.symm.trans hrootcl'))
  unfold parse at hparse ⊢
  rw [hrootcl, ok_bind] at hparse
  obtain ⟨st, hwalk, hout⟩ := bind_eq_ok.1 hparse
  obtain rfl := ok.inj hout
  have hhead : m.head v.boot.root = v.boot.root := by
    refine if_neg fun hsame ↦ h.heads.ne_root m.entry h.mem hsame.1 ?_
    rw [hsame.2, hroot.head]
  rw [h.boot] at hrootchain'
  rw [h.dirCount_eq] at hrootchain'
  obtain ⟨hwalk', -⟩ := h.walk_carried hwalk (fun x hx ↦ hx) nofun (.inl rfl) hroot.head hrootchain
    (by rw [hhead, h.directory_root]; exact hrootchain')
  rw [hrootcl', ok_bind, h.boot]
  rw [hhead] at hwalk'
  exact bind_eq_ok.2 ⟨_, hwalk', rfl⟩

end

end Carried

end Volume

end LinuxDefragger.Exfat
