import LinuxDefragger.Native.Downward

/-!
# Scanning for sources

`scanSources` walks the directory tree with a stack and queues every movable extent of every regular
file it can open. It works by **name**: a file with two names is opened twice, and its extents are
queued twice. The first exchange of such an extent changes the map that the second one was taken
from, and the pass then stops with `sourceChanged`.

Where no file with a movable extent has two names, the sources are apart from each other and stay
what they are through the whole pass (`Intact`), on any filesystem that nobody else modifies.
-/

open Function List

namespace LinuxDefragger.Native

/-! ### The tree and the walk -/

/-- What a directory lists, one name after the other. -/
inductive Listing
  | nil
  | directory (name : String) (children rest : Listing)
  | file (name : String) (inode : ℕ) (rest : Listing)
  /-- Neither a directory nor a regular file. -/
  | other (name : String) (rest : Listing)

/-- The directories below a listing, which bound the rounds of the walk. -/
def Listing.directories : Listing → ℕ
  | .nil => 0
  | .directory _ children rest => 1 + children.directories + rest.directories
  | .file _ _ rest => rest.directories
  | .other _ rest => rest.directories

/-- A mounted filesystem, as the scan sees it. -/
structure Mounted where
  root : Listing
  /-- `os.scandir` of the directory succeeds. -/
  lists : Path → Bool
  /-- `os.open` of the file succeeds. -/
  opens : Path → Bool
  /-- The collector's workspace. -/
  excluded : Path
  xflags : ℕ → ℕ
  extents : ℕ → List FiemapExtent

namespace Mounted

variable (m : Mounted)

/-- One directory: the files that are opened, in order, and the directories that are pushed. -/
def readListing (dir : Path) : Listing → List (Path × ℕ) × List (Path × Listing)
  | .nil => ([], [])
  | .directory name children rest =>
    if dir ++ [name] = m.excluded then readListing dir rest
    else ((readListing dir rest).1, (dir ++ [name], children) :: (readListing dir rest).2)
  | .file name inode rest =>
    if dir ++ [name] = m.excluded ∨ m.opens (dir ++ [name]) = false then readListing dir rest
    else ((dir ++ [name], inode) :: (readListing dir rest).1, (readListing dir rest).2)
  | .other _ rest => readListing dir rest

/-- The `while stack` loop. The directory pushed last is read next. -/
def walk : ℕ → List (Path × Listing) → List (Path × ℕ)
  | 0, _ => []
  | _ + 1, [] => []
  | fuel + 1, (dir, listing) :: stack =>
    if m.lists dir then
      (m.readListing dir listing).1 ++ walk fuel ((m.readListing dir listing).2.reverse ++ stack)
    else walk fuel stack

/-- The extent can be queued as a source. -/
def isMovable (blockSize deviceBytes : ℕ) (e : FiemapExtent) : Bool :=
  e.flags &&& unmovableFiemapFlags = 0 && e.logical % blockSize = 0 && e.physical % blockSize = 0 &&
    e.length % blockSize = 0 && 0 < e.length && e.physical + e.length ≤ deviceBytes

/-- The extents of an inode that can be queued. -/
def movable (blockSize deviceBytes inode : ℕ) : List FiemapExtent :=
  if m.xflags inode &&& unmovableXflags ≠ 0 then []
  else (m.extents inode).filter (isMovable blockSize deviceBytes)

/-- The source made of an extent. -/
def source (path : Path) (e : FiemapExtent) : SourceExtent :=
  ⟨path, e.logical, e.physical, e.length, e.flags, 0⟩

/-- What `scan_sources` returns: the sources in the order of their tokens, the number of files and
of what was skipped. -/
structure Scan where
  sources : List SourceExtent
  files : ℕ
  skipped : ℕ

/-- One opened file. -/
def scanFile (blockSize deviceBytes : ℕ) (scan : Scan) (file : Path × ℕ) : Scan :=
  if m.xflags file.2 &&& unmovableXflags ≠ 0 then
    { scan with files := scan.files + 1, skipped := scan.skipped + 1 }
  else
    { sources := scan.sources ++
        ((m.extents file.2).filter (isMovable blockSize deviceBytes)).map (source file.1)
      files := scan.files + 1
      skipped := scan.skipped +
        ((m.extents file.2).filter fun e ↦ !isMovable blockSize deviceBytes e).length }

/-- `scan_sources` -/
def scanSources (blockSize deviceBytes : ℕ) : Scan :=
  (m.walk (1 + m.root.directories) [([], m.root)]).foldl (m.scanFile blockSize deviceBytes)
    ⟨[], 0, 0⟩

/-! ### The walk visits every name once -/

/-- The files with a name in or below a directory that the scan can reach and open. -/
def names (dir : Path) : Listing → List (Path × ℕ)
  | .nil => []
  | .directory name children rest =>
    (if dir ++ [name] ≠ m.excluded ∧ m.lists (dir ++ [name]) then names (dir ++ [name]) children
      else []) ++ names dir rest
  | .file name inode rest =>
    (if dir ++ [name] ≠ m.excluded ∧ m.opens (dir ++ [name]) then [(dir ++ [name], inode)]
      else []) ++ names dir rest
  | .other _ rest => names dir rest

/-- The names a directory on the stack stands for. -/
def pending (entry : Path × Listing) : List (Path × ℕ) :=
  if m.lists entry.1 then m.names entry.1 entry.2 else []

theorem readListing_perm (dir : Path) (listing : Listing) : (m.names dir listing).Perm
      ((m.readListing dir listing).1 ++ (m.readListing dir listing).2.flatMap m.pending) := by
  induction listing with
  | nil => exact .refl _
  | directory name children rest _ ih =>
    rw [names, readListing]
    by_cases hex : dir ++ [name] = m.excluded
    · rw [if_neg (fun h ↦ h.1 hex), if_pos hex]
      exact ih
    · have hpending : (if dir ++ [name] ≠ m.excluded ∧ m.lists (dir ++ [name]) then
          m.names (dir ++ [name]) children else []) = m.pending (dir ++ [name], children) := by
        simp only [pending, hex, ne_eq, not_false_eq_true, true_and]
      rw [if_neg hex, hpending]
      simp only [flatMap_cons]
      exact (ih.append_left _).trans (perm_append_comm_assoc _ _ _)
  | file name inode rest ih =>
    rw [names, readListing]
    by_cases hskip : dir ++ [name] = m.excluded ∨ m.opens (dir ++ [name]) = false
    · rw [if_neg (fun h ↦ hskip.elim h.1 (by simp [h.2])), if_pos hskip]
      exact ih
    · rw [if_pos (by simpa [not_or] using hskip), if_neg hskip]
      exact ih.cons _
  | other name rest ih => exact ih

theorem readListing_directories (dir : Path) (listing : Listing) :
    ((m.readListing dir listing).2.map fun entry ↦ 1 + entry.2.directories).sum ≤
      listing.directories := by
  induction listing with
  | nil => exact le_rfl
  | directory name children rest _ ih =>
    rw [readListing]
    split_ifs
    · exact ih.trans (Nat.le_add_left _ _)
    · simp only [map_cons, sum_cons, Listing.directories]
      omega
  | file name inode rest ih =>
    rw [readListing]
    split_ifs <;> exact ih
  | other name rest ih => exact ih

/-- **The walk opens every file once for each of its names**, in some order. -/
theorem walk_perm (fuel : ℕ) (stack : List (Path × Listing))
    (hfuel : (stack.map fun entry ↦ 1 + entry.2.directories).sum ≤ fuel) :
    (m.walk fuel stack).Perm (stack.flatMap m.pending) := by
  induction fuel generalizing stack with
  | zero =>
    cases stack with
    | nil => exact .refl _
    | cons entry stack =>
      rw [map_cons, sum_cons] at hfuel
      omega
  | succ fuel ih =>
    cases stack with
    | nil => exact .refl _
    | cons entry stack =>
      obtain ⟨dir, listing⟩ := entry
      rw [map_cons, sum_cons] at hfuel
      rw [walk, flatMap_cons, pending]
      split_ifs with hlist
      · have hpushed := m.readListing_directories dir listing
        have hrest := ih ((m.readListing dir listing).2.reverse ++ stack) (by
          rw [map_append, sum_append, map_reverse, sum_reverse]
          simp only at hfuel
          omega)
        rw [flatMap_append] at hrest
        have hreverse : ((m.readListing dir listing).2.reverse.flatMap m.pending).Perm
            ((m.readListing dir listing).2.flatMap m.pending) :=
          (reverse_perm _).flatMap_right _
        calc (m.readListing dir listing).1 ++ _
            ~ (m.readListing dir listing).1 ++
              ((m.readListing dir listing).2.flatMap m.pending ++ stack.flatMap m.pending) :=
              (hrest.trans (hreverse.append_right _)).append_left _
          _ ~ m.names dir listing ++ stack.flatMap m.pending := by
              rw [← append_assoc]
              exact (m.readListing_perm dir listing).symm.append_right _
      · rw [nil_append]
        exact ih stack (by omega)

/-- All names that the scan reaches and opens. -/
def allNames : List (Path × ℕ) := m.pending ([], m.root)

/-! ### The sources of a scan -/

variable {m} {blockSize deviceBytes : ℕ}

theorem foldl_scanFile (files : List (Path × ℕ)) (scan : Scan) :
    (files.foldl (m.scanFile blockSize deviceBytes) scan).sources = scan.sources ++
      files.flatMap fun file ↦ (m.movable blockSize deviceBytes file.2).map (source file.1) := by
  induction files generalizing scan with
  | nil => simp
  | cons file files ih =>
    rw [foldl_cons, ih, flatMap_cons, ← append_assoc]
    refine congrArg (· ++ _) ?_
    rw [scanFile, movable]
    split_ifs <;> simp

/-- **The sources are the movable extents of every name**, in some order. -/
theorem scanSources_perm : (m.scanSources blockSize deviceBytes).sources ~
    m.allNames.flatMap fun file ↦ (m.movable blockSize deviceBytes file.2).map (source file.1) := by
  have hwalk := m.walk_perm (1 + m.root.directories) [([], m.root)] (by simp)
  rw [flatMap_singleton] at hwalk
  rw [scanSources, foldl_scanFile, nil_append]
  exact hwalk.flatMap_right _

theorem mem_movable {inode : ℕ} {e : FiemapExtent} (h : e ∈ m.movable blockSize deviceBytes inode) :
    e ∈ m.extents inode ∧ e.flags &&& unmovableFiemapFlags = 0 ∧ e.logical % blockSize = 0 ∧
      e.physical % blockSize = 0 ∧ e.length % blockSize = 0 ∧ 0 < e.length := by
  rw [movable] at h
  split_ifs at h
  · cases h
  · obtain ⟨he, hmov⟩ := mem_filter.1 h
    simp only [isMovable, Bool.and_eq_true, decide_eq_true_eq] at hmov
    exact ⟨he, hmov.1.1.1.1.1, hmov.1.1.1.1.2, hmov.1.1.1.2, hmov.1.1.2, hmov.1.2⟩

/-- The extents of the filesystem: those of one file are apart in the file and on the device, and
those of two files are apart on the device. -/
structure Unshared (m : Mounted) : Prop where
  logical : ∀ i, (m.extents i).Pairwise fun a b ↦ Apart a.logical a.length b.logical b.length
  physical : ∀ i, (m.extents i).Pairwise fun a b ↦ Apart a.physical a.length b.physical b.length
  files : ∀ i j, i ≠ j → ∀ a ∈ m.extents i, ∀ b ∈ m.extents j,
    Apart a.physical a.length b.physical b.length

/-- No file that has a movable extent is reached by two names. -/
def NamedOnce (m : Mounted) (blockSize deviceBytes : ℕ) : Prop :=
  m.allNames.Pairwise fun a b ↦ a.2 = b.2 → m.movable blockSize deviceBytes a.2 = []

theorem pairwise_movable (inode : ℕ) {R : FiemapExtent → FiemapExtent → Prop}
    (h : (m.extents inode).Pairwise R) : (m.movable blockSize deviceBytes inode).Pairwise R := by
  rw [movable]
  split_ifs
  · exact .nil
  · exact h.filter _

/-- The places of two sources on the device are apart. -/
def SourcesApart (a b : SourceExtent) : Prop := Apart a.physical a.length b.physical b.length

/-- **The sources are apart just if no file with a movable extent has two names.** -/
theorem sources_pairwise_iff (h : m.Unshared) :
    (m.scanSources blockSize deviceBytes).sources.Pairwise SourcesApart ↔
      m.NamedOnce blockSize deviceBytes := by
  have hsymm : ∀ {a b : SourceExtent}, SourcesApart a b → SourcesApart b a := Apart.symm
  rw [scanSources_perm.pairwise_iff hsymm, pairwise_flatMap]
  have hself : ∀ file ∈ m.allNames,
      ((m.movable blockSize deviceBytes file.2).map (source file.1)).Pairwise SourcesApart := by
    intro file _
    rw [pairwise_map]
    exact pairwise_movable file.2 (h.physical file.2)
  rw [and_iff_right hself, NamedOnce]
  refine ⟨fun hp ↦ hp.imp fun {a b} hab heq ↦ ?_, fun hp ↦ hp.imp fun {a b} hab x hx y hy ↦ ?_⟩
  · -- a movable extent of both names would be apart from itself
    rw [eq_nil_iff_forall_not_mem]
    intro e he
    have hpos := (mem_movable he).2.2.2.2.2
    have hsame := hab _ (mem_map_of_mem he) _ (mem_map_of_mem (heq ▸ he))
    simp only [SourcesApart, source, Apart] at hsame
    omega
  · obtain ⟨e, he, rfl⟩ := mem_map.1 hx
    obtain ⟨e', he', rfl⟩ := mem_map.1 hy
    by_cases heq : a.2 = b.2
    · rw [hab heq] at he
      cases he
    · exact h.files a.2 b.2 heq e (mem_movable he).1 e' (mem_movable he').1

end Mounted

/-! ### Sources through a pass -/

section Intact

variable {σ : Type} {K : Kernel σ} {maps : σ → ℕ → List FiemapExtent} {own : ℕ → Prop}
  {blockSize t donorLogical index : ℕ} {node : Path → ℕ} {filesystem : Filesystem} {w : σ}
  {gap : CollectorExtent} {st' : PassState σ}

/-- What is left of every source is the bottom of what was scanned, and the filesystem still has it
in one movable extent at its place. -/
structure Intact (maps : σ → ℕ → List FiemapExtent) (node : Path → ℕ)
    (sources : List SourceExtent) (st : PassState σ) : Prop where
  bottom : ∀ t, (st.sources t).path = (sources.getD t default).path ∧
    (st.sources t).logical = (sources.getD t default).logical ∧
    (st.sources t).length ≤ (sources.getD t default).length
  shows : ∀ t, 0 < (st.sources t).length → showsSlice (maps st.world (node (st.sources t).path))
    (st.sources t).logical (st.sources t).physical (st.sources t).length = true

/-- Sources of one file are apart in the file, and no source belongs to the collector. -/
structure FilesApart (node : Path → ℕ) (own : ℕ → Prop) (sources : List SourceExtent) : Prop where
  logical : sources.Pairwise fun a b ↦
    node a.path = node b.path → Apart a.logical a.length b.logical b.length
  foreign : ∀ s ∈ sources, ¬own (node s.path)

theorem FilesApart.of_ne {sources : List SourceExtent} (h : FilesApart node own sources) {u : ℕ}
    (ht : t < sources.length) (hu : u < sources.length) (hne : t ≠ u)
    (hnode : node (sources.getD t default).path = node (sources.getD u default).path) :
    Apart (sources.getD t default).logical (sources.getD t default).length
      (sources.getD u default).logical (sources.getD u default).length := by
  rw [getD_eq_getElem _ _ ht, getD_eq_getElem _ _ hu] at *
  rcases Nat.lt_or_gt_of_ne hne with hlt | hlt
  · exact pairwise_iff_getElem.1 h.logical _ _ ht hu hlt hnode
  · exact (pairwise_iff_getElem.1 h.logical _ _ hu ht hlt hnode.symm).symm

variable {sources : List SourceExtent} {st : PassState σ}

namespace Intact

variable (h : Intact maps node sources st)
include h

/-- A source with something left is one that was scanned. -/
theorem lt_length (hpos : 0 < (st.sources t).length) : t < sources.length := by
  by_contra hge
  have hle := (h.bottom t).2.2
  rw [getD_eq_default _ _ (not_lt.1 hge)] at hle
  exact absurd (Nat.le_zero.1 hle) (Nat.ne_of_gt hpos)

variable (hf : FilesApart node own sources)
include hf

theorem foreign (hpos : 0 < (st.sources t).length) : ¬own (node (st.sources t).path) := by
  have ht := h.lt_length hpos
  rw [(h.bottom t).1, getD_eq_getElem _ _ ht]
  exact hf.foreign _ (getElem_mem ht)

/-- A call that leaves the files alone leaves the sources intact. -/
theorem of_undisturbed (hw : Undisturbed maps own st.world w) :
    Intact maps node sources { st with world := w } where
  bottom := h.bottom
  shows t hpos := by
    show showsSlice (maps w (node (st.sources t).path)) _ _ _ = true
    rw [hw _ (h.foreign hf hpos)]
    exact h.shows t hpos

theorem skip (hw : Undisturbed maps own st.world w) (token : ℕ) :
    Intact maps node sources (st.skip token w) := by
  have h' := h.of_undisturbed hf hw
  refine ⟨fun t ↦ ?_, fun t hpos ↦ ?_⟩
  · obtain ⟨h₁, h₂, h₃⟩ := h.bottom t
    by_cases ht : t = token
    · subst ht
      simp only [PassState.skip, update_self]
      exact ⟨h₁, h₂, Nat.zero_le _⟩
    · simp only [PassState.skip, update_of_ne ht]
      exact ⟨h₁, h₂, h₃⟩
  · by_cases ht : t = token
    · subst ht
      simp only [PassState.skip, update_self] at hpos
      omega
    · simp only [PassState.skip, update_of_ne ht] at hpos ⊢
      exact h'.shows t hpos

/-- **An exchange of the top of a source leaves the others, and the rest of it.** -/
theorem advance {x : Exchange} (hle : x.length ≤ (st.sources x.token).length)
    (hoffset : x.sourceOffset = (st.sources x.token).logical +
      (st.sources x.token).length - x.length)
    (hpos : 0 < (st.sources x.token).length)
    (hw : Exchanged maps own (node (st.sources x.token).path) x.sourceOffset x.length st.world w) :
    Intact maps node sources (st.advance x w) := by
  obtain ⟨hpath, hlogical, hphysical, hlength⟩ := advance_source st x w
  refine ⟨fun t ↦ ?_, fun t hlen ↦ ?_⟩
  · obtain ⟨h₁, h₂, h₃⟩ := h.bottom t
    by_cases ht : t = x.token
    · subst ht
      exact ⟨hpath.trans h₁, hlogical.trans h₂, hlength.trans_le ((Nat.sub_le _ _).trans h₃)⟩
    · rw [advance_source_of_ne _ _ _ ht]
      exact ⟨h₁, h₂, h₃⟩
  · show showsSlice (maps w _) _ _ _ = true
    by_cases ht : t = x.token
    · -- what is left of the source ends where the exchanged part begins
      subst ht
      rw [hpath, hlogical, hphysical, hlength]
      rw [hlength] at hlen
      refine hw.outside _ _ _ hlen (.inl (by omega)) ?_
      obtain ⟨e, he, hlo, hhi, hrest⟩ := showsSlice_iff.1 (h.shows x.token hpos)
      exact showsSlice_iff.2 ⟨e, he, hlo, by omega, hrest⟩
    · rw [advance_source_of_ne _ _ _ ht] at hlen ⊢
      by_cases hnode : node (st.sources t).path = node (st.sources x.token).path
      · -- another source of the same file is apart from this one in the file
        have hapart := hf.of_ne (h.lt_length hlen) (h.lt_length hpos) ht (by
          rw [← (h.bottom t).1, ← (h.bottom x.token).1]
          exact hnode)
        obtain ⟨-, ht₁, ht₂⟩ := h.bottom t
        obtain ⟨-, hx₁, hx₂⟩ := h.bottom x.token
        have hshow := h.shows t hlen
        rw [hnode] at hshow ⊢
        refine hw.outside _ _ _ hlen ?_ hshow
        unfold Apart at hapart
        omega
      · rw [hw.others _ (h.foreign hf hlen) hnode]
        exact h.shows t hlen

end Intact

/-- A call that returned left the state that is reported. -/
theorem Undisturbed.of_ok {α ε : Type} {x : EStateM ε σ α} {w' : σ} {a : α}
    (h : Undisturbed maps own w (stateAfter (x w))) (hx : x w = .ok a w') :
    Undisturbed maps own w w' := by
  rwa [hx] at h

/-- A round that did not find a source changed, and leaves the sources intact if the pass goes
on. -/
def KeepsIntact (maps : σ → ℕ → List FiemapExtent) (node : Path → ℕ) (sources : List SourceExtent)
    (r : Round) (st : PassState σ) : Prop :=
  (∀ path, r ≠ .ends (.raised (.sourceChanged path))) ∧
    ((∀ e, r ≠ .ends e) → Intact maps node sources st)

theorem KeepsIntact.ends {e : Ending} (he : ∀ path, e ≠ .raised (.sourceChanged path)) :
    KeepsIntact maps node sources (.ends e) st :=
  ⟨fun path heq ↦ he path (Round.ends.inj heq), fun hne ↦ absurd rfl (hne _)⟩

section Quiet

variable (hK : K.Quiet maps own blockSize node)
include hK

/-- **The checks and the copy before an exchange**: a slice that is in one movable extent is not
found changed, and no file but the collector is touched. -/
theorem prepareSlice_quiet {fd offset physical move : ℕ} (hmove : 0 < move)
    (hshow : showsSlice (maps w fd) offset physical move = true) (source : SourceExtent)
    (gap : CollectorExtent) (donorLogical cursor : ℕ) :
    (∀ path w', prepareSlice K fd source gap offset physical donorLogical cursor move w ≠
      .error (.sourceChanged path) w') ∧
    ∀ w', prepareSlice K fd source gap offset physical donorLogical cursor move w = .ok () w' →
      Undisturbed maps own w w' := by
  -- `_verify_source` can only raise what `fiemap` raises
  have hverify : ∀ e w', verifySource K fd source offset physical move w = .error e w' →
      ∃ f, e = .fault f := by
    intro e w' he
    rcases bind_eq_sysError.1 he with he | ⟨es, w₁, hes, he⟩
    · obtain ⟨f, -, rfl⟩ := call_eq_error.1 he
      exact ⟨f, rfl⟩
    · rw [if_pos (hK.shows _ _ _ _ _ _ (call_eq_ok.1 hes) hmove _ hshow)] at he
      cases he
  -- and `verify_slice` raises only its own message beside that
  have hslice : ∀ e w₁ w', verifySlice K gap donorLogical cursor move w₁ = .error e w' →
      ∀ path, e ≠ .sourceChanged path := by
    intro e w₁ w' he path
    rcases bind_eq_sysError.1 he with he | ⟨es, w₂, -, he⟩
    · obtain ⟨f, -, rfl⟩ := call_eq_error.1 he
      simp
    · split_ifs at he
      · cases he
      · cases he
        simp
  refine ⟨fun path w' he ↦ ?_, fun w' hok ↦ ?_⟩
  · rw [prepareSlice] at he
    rcases bind_eq_sysError.1 he with he | ⟨_, w₁, -, he⟩
    · obtain ⟨f, hf⟩ := hverify _ _ he
      cases hf
    rcases bind_eq_sysError.1 he with he | ⟨_, w₂, -, he⟩
    · exact hslice _ _ _ he path rfl
    rcases bind_eq_sysError.1 he with he | ⟨_, w₃, -, he⟩
    · obtain ⟨f, -, hf⟩ := call_eq_error.1 he
      cases hf
    · obtain ⟨f, -, hf⟩ := call_eq_error.1 he
      cases hf
  · rw [prepareSlice] at hok
    obtain ⟨_, w₁, h₁, hok⟩ := bind_eq_sysOk.1 hok
    obtain ⟨_, w₂, h₂, hok⟩ := bind_eq_sysOk.1 hok
    obtain ⟨_, w₃, h₃, hok⟩ := bind_eq_sysOk.1 hok
    have hmap : ∀ {fd' a n : ℕ} {b : List FiemapExtent → Bool} {e : NativeError} {w w' : σ},
        (call (K.fiemap fd' a n) >>= fun es ↦ if b es then pure () else throw e) w = .ok () w' →
          Undisturbed maps own w w' := by
      intro fd' a n b e w w' h
      obtain ⟨es, w₁, hes, h⟩ := bind_eq_sysOk.1 h
      have hleft := (hK.fiemap_leaves _ _ _ _).of_ok (call_eq_ok.1 hes)
      split_ifs at h
      · cases h
        exact hleft
      · cases h
    exact ((hmap h₁).trans (hmap h₂)).trans
      (((hK.copy_leaves _ _ _ _ _ _).of_ok (call_eq_ok.1 h₃)).trans
        ((hK.fsync_leaves _ _).of_ok (call_eq_ok.1 hok)))

theorem settleSlice_quiet (fd : ℕ) (gap : CollectorExtent) (w : σ) :
    (∀ path w', settleSlice K fd gap w ≠ .error (.sourceChanged path) w') ∧
      ∀ w', settleSlice K fd gap w = .ok () w' → Undisturbed maps own w w' := by
  refine ⟨fun path w' he ↦ ?_, fun w' hok ↦ ?_⟩
  · rcases bind_eq_sysError.1 he with he | ⟨_, w₁, -, he⟩ <;>
      obtain ⟨f, -, hf⟩ := call_eq_error.1 he <;> cases hf
  · obtain ⟨_, w₁, h₁, hok⟩ := bind_eq_sysOk.1 hok
    exact ((hK.fsync_leaves _ _).of_ok (call_eq_ok.1 h₁)).trans
      ((hK.fsync_leaves _ _).of_ok (call_eq_ok.1 hok))

variable (hf : FilesApart node own sources)
include hf

/-- **A round on an intact source never finds it changed**, and leaves the sources intact. -/
theorem exchangeRound_intact (h : Intact maps node sources st) (hgap : own gap.fd) {x : Exchange}
    (hfiles : x.sourceFd = node (st.sources x.token).path ∧ x.donorFd = gap.fd)
    (hxpos : 0 < x.length) (hle : x.length ≤ (st.sources x.token).length)
    (hoffset : x.sourceOffset = (st.sources x.token).logical +
      (st.sources x.token).length - x.length)
    (hphysical : x.sourcePhysical =
      (st.sources x.token).physical + (st.sources x.token).length - x.length) {r : Round}
    (hr : exchangeRound K filesystem blockSize gap x st = (r, st')) :
    KeepsIntact maps node sources r st' := by
  have hpos : 0 < (st.sources x.token).length := lt_of_lt_of_le hxpos hle
  have hforeign := h.foreign hf hpos
  rw [exchangeRound, hfiles.1, hfiles.2] at hr
  -- the slice is in the extent that still holds the source
  have hshow : showsSlice (maps st.world (node (st.sources x.token).path)) x.sourceOffset
      x.sourcePhysical x.length = true := by
    obtain ⟨e, he, hlo, hhi, hp, hflags⟩ := showsSlice_iff.1 (h.shows x.token hpos)
    exact showsSlice_iff.2 ⟨e, he, by omega, by omega, by omega, hflags⟩
  obtain ⟨hno, hprep⟩ := prepareSlice_quiet hK hxpos hshow (st.sources x.token) gap
    x.donorOffset x.destination
  cases hpre : prepareSlice K (node (st.sources x.token).path) (st.sources x.token) gap
    x.sourceOffset x.sourcePhysical x.donorOffset x.destination x.length st.world with
  | error e w₂ =>
    rw [hpre] at hr
    obtain ⟨rfl, rfl⟩ := Prod.mk.inj hr
    refine .ends fun path heq ↦ ?_
    cases heq
    exact hno _ _ hpre
  | ok u w₂ =>
  have hw₂ := hprep _ hpre
  obtain ⟨hrefused, hmade, hnot⟩ := hK.exchange filesystem hgap (node (st.sources x.token).path)
    x.sourceOffset x.donorOffset x.length w₂
  simp only [hpre] at hr
  cases hex : exchange K filesystem blockSize (node (st.sources x.token).path) gap.fd x.sourceOffset
    x.donorOffset x.length w₂ with
  | error e w₃ =>
    simp only [hex] at hr
    split at hr
    · rename_i heq
      obtain ⟨rfl, rfl⟩ := Prod.mk.inj hr
      cases heq
      exact ⟨by simp, fun _ ↦ h.skip hf (hw₂.trans (hrefused _ _ hex)) _⟩
    · rename_i heq
      obtain ⟨rfl, rfl⟩ := Prod.mk.inj hr
      cases heq
      refine .ends fun path heq ↦ ?_
      cases heq
      exact hnot _ _ hex
    · rename_i heq
      cases heq
  | ok u' w₃ =>
  simp only [hex] at hr
  have hw₃ := hmade _ hex
  obtain ⟨hsettle, hleft⟩ := settleSlice_quiet hK (node (st.sources x.token).path) gap w₃
  cases hset : settleSlice K (node (st.sources x.token).path) gap w₃ with
  | error e w₄ =>
    simp only [hset] at hr
    obtain ⟨rfl, rfl⟩ := Prod.mk.inj hr
    refine .ends fun path heq ↦ ?_
    cases heq
    exact hsettle _ _ hset
  | ok u'' w₄ =>
    simp only [hset] at hr
    obtain ⟨rfl, rfl⟩ := Prod.mk.inj hr
    refine ⟨by simp, fun _ ↦ ?_⟩
    have hex₄ := hw₃.trans_undisturbed (hleft _ hset) hforeign
    have h₂ : Intact maps node sources { st with world := w₂ } := h.of_undisturbed hf hw₂
    exact h₂.advance hf hle hoffset hpos hex₄

/-- A round of the pass, once the gap is the collector's. -/
theorem passRound_intact (h : Intact maps node sources st) (hgap : own gap.fd) {cursor : ℕ}
    {r : Round}
    (hr : passRound K filesystem blockSize index gap cursor donorLogical st = (r, st')) :
    KeepsIntact maps node sources r st' := by
  rw [passRound] at hr
  split_ifs at hr with hstop
  · obtain ⟨rfl, rfl⟩ := Prod.mk.inj hr
    exact .ends (by simp)
  cases hpop : popHighSource st.sources cursor st.heap.length st.heap with
  | mk popped rest =>
  rw [hpop] at hr
  cases popped with
  | none =>
    obtain ⟨rfl, rfl⟩ := Prod.mk.inj hr
    exact .ends (by simp)
  | some token =>
  simp only at hr
  split_ifs at hr with hzero
  · obtain ⟨rfl, rfl⟩ := Prod.mk.inj hr
    exact .ends (by simp)
  · have hle := (moveLength_spec blockSize (gap.physicalEnd - cursor)
      (st.sources token).length).2.1
    have h' : Intact maps node sources { st with heap := rest } := ⟨h.bottom, h.shows⟩
    have hw := hK.open_leaves (st.sources token).path st.world
    cases hopen : K.openFile (st.sources token).path st.world with
    | error f w₁ =>
      rw [hopen] at hr hw
      obtain ⟨rfl, rfl⟩ := Prod.mk.inj hr
      exact ⟨by simp, fun _ ↦ h'.skip hf hw token⟩
    | ok fd w₁ =>
      rw [hopen] at hr hw
      exact exchangeRound_intact hK hf (h'.of_undisturbed hf hw) hgap
        ⟨hK.opens _ _ _ _ hopen, rfl⟩ (Nat.pos_of_ne_zero hzero) hle rfl rfl hr

theorem fillGaps_intact {gaps : List CollectorExtent} (hgaps : ∀ g ∈ gaps, own g.fd) {fuel : ℕ}
    (h : Intact maps node sources st) (path : Path) :
    (fillGaps K filesystem blockSize fuel index gaps st).1 ≠ .raised (.sourceChanged path) := by
  -- the work on a gap that neither stops nor blocks the pass leaves the sources intact
  let Q : Ending × PassState σ → Prop := fun out ↦
    (∀ path, out.1 ≠ .raised (.sourceChanged path)) ∧ (out.1 = .returned →
      out.2.result.stopped ∨ out.2.result.blockedReason.isSome ∨ Intact maps node sources out.2)
  suffices hrun : Q (fillGaps K filesystem blockSize fuel index gaps st) from hrun.1 path
  refine fillGaps_rule (fun gap hgap index st hst ↦ ?_) (fun st hst hend ↦ ?_)
    (fun st hst ↦ ⟨nofun, fun _ ↦ .inr (.inr hst)⟩) h
  · refine fillGap_rule (I := fun _ _ ↦ Intact maps node sources) (fun c d st hst ↦ ?_)
      (fun _ _ st hst ↦ ⟨⟨nofun, nofun⟩, nofun, fun _ ↦ .inr (.inr hst)⟩) hst
    refine ⟨fun e st' hr ↦ ⟨fun path heq ↦ ?_, fun he ↦ ?_⟩, fun st' hr ↦ ?_, fun n st' hr ↦ ?_⟩
    · exact (passRound_intact hK hf hst (hgaps gap hgap) hr).1 path (congrArg Round.ends heq)
    · rcases passRound_cases hr with ⟨e', heq, -, hret, -⟩ |
        ⟨_, _, _, _, -, ⟨hr, -⟩ | ⟨_, -, hr, -⟩⟩
      · cases heq
        exact (hret he).imp_right .inl
      · cases hr
      · cases hr
    all_goals exact (passRound_intact hK hf hst (hgaps gap hgap) hr).2 (by simp)
  · rcases hst.2 rfl with hs | hb | hintact
    · exact absurd (.inl hs) hend
    · exact absurd (.inr hb) hend
    · exact hintact

/-- **A pass over intact sources never finds one changed.** -/
theorem pass_never_sourceChanged {gaps : List CollectorExtent} (hgaps : ∀ g ∈ gaps, own g.fd)
    (hshow : ∀ s ∈ sources,
      showsSlice (maps w (node s.path)) s.logical s.physical s.length = true) (fuel : ℕ)
    (path : Path) :
    (compactExtentPass K filesystem blockSize fuel gaps sources w).1 ≠
      .raised (.sourceChanged path) := by
  have hstart : Intact maps node sources (PassState.start w sources) := by
    refine ⟨fun t ↦ ⟨rfl, rfl, le_rfl⟩, fun t hpos ↦ ?_⟩
    have hget : (PassState.start w sources).sources t = sources.getD t default := rfl
    rw [hget] at hpos ⊢
    by_cases ht : t < sources.length
    · rw [getD_eq_getElem _ _ ht]
      exact hshow _ (getElem_mem ht)
    · rw [getD_eq_default _ _ (not_lt.1 ht)] at hpos
      exact absurd hpos (Nat.lt_irrefl 0)
  rw [compactExtentPass]
  split_ifs
  · simp
  · simp
  · exact fillGaps_intact hK hf hgaps hstart path

end Quiet

end Intact

/-! ### The scan and the pass together -/

namespace Mounted

variable {m : Mounted} {blockSize deviceBytes : ℕ}

/-- A source comes from a name and a movable extent of its file. -/
theorem mem_sources {s : SourceExtent} (hs : s ∈ (m.scanSources blockSize deviceBytes).sources) :
    ∃ file ∈ m.allNames, ∃ e ∈ m.movable blockSize deviceBytes file.2, s = source file.1 e := by
  obtain ⟨file, hfile, hs⟩ := mem_flatMap.1 (scanSources_perm.mem_iff.1 hs)
  obtain ⟨e, he, rfl⟩ := mem_map.1 hs
  exact ⟨file, hfile, e, he, rfl⟩

/-- Where files with movable extents have one name each, the sources of a file are apart in it. -/
theorem filesApart (h : m.Unshared) (hnamed : m.NamedOnce blockSize deviceBytes) {node : Path → ℕ}
    {own : ℕ → Prop} (hnode : ∀ file ∈ m.allNames, node file.1 = file.2 ∧ ¬own file.2) :
    FilesApart node own (m.scanSources blockSize deviceBytes).sources where
  logical := by
    have hsymm : ∀ {a b : SourceExtent},
        (node a.path = node b.path → Apart a.logical a.length b.logical b.length) →
        node b.path = node a.path → Apart b.logical b.length a.logical a.length :=
      fun hab heq ↦ (hab heq.symm).symm
    rw [scanSources_perm.pairwise_iff hsymm, pairwise_flatMap]
    refine ⟨fun file _ ↦ ?_, List.Pairwise.imp_of_mem (fun {a b} ha hb hab ↦ ?_) hnamed⟩
    · rw [pairwise_map]
      refine (pairwise_movable file.2 (h.logical file.2)).imp ?_
      exact fun hab _ ↦ hab
    · intro x hx y hy heq
      obtain ⟨e, he, rfl⟩ := mem_map.1 hx
      obtain ⟨e', he', rfl⟩ := mem_map.1 hy
      -- both names would be of one file
      have hsame : a.2 = b.2 := (hnode a ha).1.symm.trans (heq.trans (hnode b hb).1)
      rw [hab hsame] at he
      cases he
  foreign s hs := by
    obtain ⟨file, hfile, e, -, rfl⟩ := mem_sources hs
    show ¬own (node file.1)
    rw [(hnode file hfile).1]
    exact (hnode file hfile).2

/-- A kernel on which nobody else modifies this filesystem, in a state that has its extents. -/
structure QuietOn (m : Mounted) {σ : Type} (K : Kernel σ) (maps : σ → ℕ → List FiemapExtent)
    (own : ℕ → Prop) (blockSize : ℕ) (node : Path → ℕ) (w : σ) : Prop where
  quiet : K.Quiet maps own blockSize node
  node : ∀ file ∈ m.allNames, node file.1 = file.2 ∧ ¬own file.2
  extents : ∀ i, ¬own i → maps w i = m.extents i

/-- **When the sources of a compaction are disjoint.** On a filesystem whose files have disjoint
extents, the scanned sources are pairwise disjoint, and no pass over them on a kernel where nobody
else modifies the filesystem finds a source changed, exactly when no file with a movable extent is
reached by two names. -/
theorem sources_disjoint_iff (h : m.Unshared) :
    ((m.scanSources blockSize deviceBytes).sources.Pairwise SourcesApart ∧
      ∀ (σ : Type) (K : Kernel σ) (maps : σ → ℕ → List FiemapExtent) (own : ℕ → Prop)
        (node : Path → ℕ) (w : σ), m.QuietOn K maps own blockSize node w →
        ∀ (filesystem : Filesystem) (gaps : List CollectorExtent), (∀ g ∈ gaps, own g.fd) →
        ∀ fuel path, (compactExtentPass K filesystem blockSize fuel gaps
          (m.scanSources blockSize deviceBytes).sources w).1 ≠ .raised (.sourceChanged path)) ↔
      m.NamedOnce blockSize deviceBytes := by
  refine ⟨fun hboth ↦ (sources_pairwise_iff h).1 hboth.1, fun hnamed ↦
    ⟨(sources_pairwise_iff h).2 hnamed, ?_⟩⟩
  intro σ K maps own node w hon filesystem gaps hgaps fuel path
  refine pass_never_sourceChanged hon.quiet (filesApart h hnamed hon.node) hgaps ?_ fuel path
  intro s hs
  obtain ⟨file, hfile, e, he, rfl⟩ := mem_sources hs
  obtain ⟨hmem, hflags, -⟩ := mem_movable he
  obtain ⟨hnode, hforeign⟩ := hon.node file hfile
  show showsSlice (maps w (node file.1)) e.logical e.physical e.length = true
  rw [hnode, hon.extents _ hforeign]
  exact showsSlice_iff.2 ⟨e, hmem, le_rfl, le_rfl, by simp, hflags⟩

end Mounted

/-! ### Two files, and a file with two names -/

/-- A filesystem with two files of two extents each, listed under the given names. -/
def smallMount (root : Listing) : Mounted where
  root
  lists _ := true
  opens _ := true
  excluded := [".linux-defragger-compact"]
  xflags _ := 0
  extents i :=
    if i = 5 then [⟨0, 40960, 8192, 0⟩, ⟨8192, 57344, 4096, 1⟩]
    else if i = 6 then [⟨0, 49152, 4096, 0⟩, ⟨4096, 32768, 4096, 1⟩] else []

theorem smallMount_unshared (root : Listing) : (smallMount root).Unshared where
  logical i := by
    simp only [smallMount]
    split_ifs <;> decide
  physical i := by
    simp only [smallMount]
    split_ifs <;> decide
  files i j hne a ha b hb := by
    have hinode {i : ℕ} {e : FiemapExtent} (he : e ∈ (smallMount root).extents i) : i ∈ [5, 6] := by
      simp only [smallMount] at he
      split_ifs at he <;> simp_all
    have hall : ∀ i ∈ [5, 6], ∀ j ∈ [5, 6], i ≠ j → ∀ a ∈ (smallMount .nil).extents i,
        ∀ b ∈ (smallMount .nil).extents j, Apart a.physical a.length b.physical b.length := by
      decide
    exact hall i (hinode ha) j (hinode hb) hne a ha b hb

/-- Two files with a name each. -/
def twoFiles : Mounted := smallMount (.file "a" 5 (.file "b" 6 .nil))

/-- The file with a second, hard-linked name. -/
def twoNames : Mounted := smallMount (.file "a" 5 (.file "b" 5 .nil))

/-- Two free ranges of the collector, file 100, below the files. -/
def lowGaps : List CollectorExtent := [⟨100, 0, 4096, 8192, 0⟩, ⟨100, 8192, 16384, 4096, 0⟩]

/-- The extent maps of the files and of the collector. -/
def lowMaps : Maps := fun i ↦
  if i = 100 then [⟨0, 4096, 8192, 0⟩, ⟨8192, 16384, 4096, 1⟩] else (smallMount .nil).extents i

/-- A kernel on these maps is quiet on a mount whose names it resolves. -/
theorem smallMount_quietOn {root : Listing} (node : Path → ℕ)
    (hnode : ∀ file ∈ (smallMount root).allNames, node file.1 = file.2 ∧ file.2 ≠ 100) :
    (smallMount root).QuietOn (mapKernel 4096 fun path ↦ some (node path)) (fun w ↦ w)
      (· = 100) 4096
      node lowMaps where
  quiet := mapKernel_quiet 4096 _ fun _ _ h ↦ (Option.some.inj h).symm
  node := hnode
  extents _ hi := if_neg hi

/-- The equivalence at two files: the sources are apart, and a pass over them finds none changed. -/
theorem sources_disjoint_iff_twoFiles :
    (twoFiles.scanSources 4096 65536).sources.length = 4 ∧
    (twoFiles.scanSources 4096 65536).sources.Pairwise Mounted.SourcesApart ∧
    ∀ path, (compactExtentPass (mapKernel 4096 fun path ↦ some (if path = ["a"] then 5 else 6))
      .ext4
      4096 16 lowGaps (twoFiles.scanSources 4096 65536).sources lowMaps).1 ≠
        .raised (.sourceChanged path) := by
  have hnames : twoFiles.allNames = [(["a"], 5), (["b"], 6)] := by decide +kernel
  have hnamed : twoFiles.NamedOnce 4096 65536 := by
    rw [Mounted.NamedOnce, hnames]
    exact pairwise_pair.2 nofun
  obtain ⟨hapart, hpass⟩ := (Mounted.sources_disjoint_iff (smallMount_unshared _)).2 hnamed
  refine ⟨by decide +kernel, hapart, hpass _ _ _ (· = 100) _ _ (smallMount_quietOn _ ?_)
    .ext4 lowGaps
    (by decide) 16⟩
  intro file hfile
  rw [show (smallMount _).allNames = _ from hnames] at hfile
  rcases mem_pair.1 hfile with rfl | rfl <;> decide

/-- **A hard link stops the pass.** The file is queued under both names; after the first exchange
the second name's slice is no longer where it was scanned. -/
theorem hard_link_changes_source :
    twoNames.Unshared ∧
      twoNames.QuietOn (mapKernel 4096 fun _ ↦ some 5) (fun w ↦ w) (· = 100) 4096 (fun _ ↦ 5)
        lowMaps ∧
      ¬(twoNames.scanSources 4096 65536).sources.Pairwise Mounted.SourcesApart ∧
      (compactExtentPass (mapKernel 4096 fun _ ↦ some 5) .ext4 4096 8 lowGaps
        (twoNames.scanSources 4096 65536).sources lowMaps).1 = .raised (.sourceChanged ["b"]) := by
  have hnames : twoNames.allNames = [(["a"], 5), (["b"], 5)] := by decide +kernel
  refine ⟨smallMount_unshared _, smallMount_quietOn _ ?_, ?_, by decide +kernel⟩
  · intro file hfile
    rw [show (smallMount _).allNames = _ from hnames] at hfile
    rcases mem_pair.1 hfile with rfl | rfl <;> decide
  · intro hp
    have hnamed : twoNames.NamedOnce 4096 65536 :=
      (Mounted.sources_pairwise_iff (smallMount_unshared _)).1 hp
    rw [Mounted.NamedOnce, hnames] at hnamed
    have hempty := (pairwise_pair.1 hnamed) rfl
    exact absurd hempty (by decide +kernel)

end LinuxDefragger.Native
