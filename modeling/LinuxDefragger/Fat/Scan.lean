import LinuxDefragger.Fat.MoveJournal
import LinuxDefragger.Fat.Names
import Mathlib.Algebra.Order.Floor.Div

/-!
# Scanning a volume

`scanFiles` walks the directory tree of a FAT volume. For every entry with a name it reads the
cluster chain, claims its clusters, checks the chain against the file size and descends into
directories; it refuses a volume on which chains cross, directories recur or allocated clusters
belong to nothing.

The recursion over directories is on the depth that is left (the code's limit is 128), the loops
over the entries of a directory are on lists.

`ChainFrom fs c l` says that following the table from `c` visits exactly `l` and ends properly.
Reading a chain succeeds just on these (`fat32ReadChain_eq_ok`).
-/

open Except List Storage

namespace LinuxDefragger.Fat

/-! ### Cluster chains -/

/-- The value ends a chain improperly: a bad or reserved entry. -/
def Fat32.isBadLink (fs : Fat32) (next : ℕ) : Bool :=
  next = fs.fatType.badValue || (fs.fatType.reservedMin ≤ next && next < fs.fatType.eocMin)

/-- The loop of `fat32_read_chain` with the clusters read so far. -/
def readChainFrom (fs : Fat32) : ℕ → List ℕ → ℕ → Except Halt (List ℕ)
  | 0, _, _ => throw (.dieMsg "cluster chain exceeds volume cluster count")
  | fuel + 1, chain, cur => do
    dieIf (cur < 2 ∨ cur > fs.maxCluster) "cluster chain points outside data region"
    dieIf (cur ∈ chain) "cluster-chain loop detected"
    let next ← fs.fatValue cur
    if fs.fatIsEocFor next then return chain ++ [cur]
    else
      dieIf (next = 0) "allocated chain terminates in a free FAT entry"
      dieIf (fs.isBadLink next) "cluster chain reaches a bad or reserved FAT entry"
      readChainFrom fs fuel (chain ++ [cur]) next

/-- `fat32_read_chain` -/
def fat32ReadChain (fs : Fat32) (first : ℕ) : Except Halt (List ℕ) :=
  if first = 0 then pure []
  else do
    dieIf (first < 2 ∨ first > fs.maxCluster) "file begins at invalid cluster"
    readChainFrom fs (fs.clusterCount + 1) [] first

/-- `chain_fragments` -/
def chainFragments : List ℕ → ℕ
  | [] => 0
  | [_] => 1
  | a :: b :: rest => chainFragments (b :: rest) + if b ≠ a + 1 then 1 else 0

/-- `filesystem_root_chain` -/
def filesystemRootChain (fs : Fat32) : Except Halt (List ℕ) :=
  if fs.rootIsFixed then pure [] else fat32ReadChain fs fs.rootCluster

/-! ### The scan -/

/-- `FileRecord`, without the fragment count that is computed from the chain. -/
structure FileRecord where
  path : List UInt8
  direntOffset : ℕ
  firstCluster : ℕ
  sizeBytes : ℕ
  attr : UInt8
  isDir : Bool
  chain : List ℕ
  deriving DecidableEq, Repr

/-- What the scan has collected: the two lists it returns, and the clusters marked in
`visited_dirs` and `claimed_clusters`. -/
structure ScanState where
  files : List FileRecord
  dirRefs : List DirRef
  visited : List ℕ
  claimed : List ℕ
  deriving DecidableEq, Repr

/-- `claim_chain` -/
def claimChain (claimed chain : List ℕ) (owner : List UInt8) : Except Halt (List ℕ) :=
  chain.foldlM (fun claimed c ↦
    if c ∈ claimed then
      throw (.exitMsg "cross-linked cluster %u while scanning %s" (some c) owner)
    else pure (claimed ++ [c])) claimed

/-- First cluster of a directory entry. -/
def direntFirst (fs : Fat32) (e : Image) : ℕ :=
  (if fs.fatType = .fat32 then rd16 e 26 ||| rd16 e 20 <<< 16 else rd16 e 26) &&& fs.fatType.mask

/-- Clusters a file of `size` bytes must have. -/
def expectedClusters (fs : Fat32) (size : ℕ) : ℕ :=
  if size = 0 then 0 else (size + fs.clusterSize - 1) / fs.clusterSize

/-- A named entry: its chain is read, claimed and checked, and the record is appended. -/
def scanNamedEntry (fs : Fat32) (rec : FileRecord) (s : ScanState) : Except Halt ScanState := do
  let chain ← fat32ReadChain fs rec.firstCluster
  let claimed ← claimChain s.claimed chain rec.path
  if rec.isDir = false ∧ ((rec.sizeBytes = 0 ∧ rec.firstCluster ≠ 0) ∨
      (rec.sizeBytes ≠ 0 ∧ rec.firstCluster = 0) ∨
      chain.length ≠ expectedClusters fs rec.sizeBytes) then
    throw (.exitMsg "file size and cluster-chain length disagree for %s" none rec.path)
  else
    return { s with files := s.files ++ [{ rec with chain }], claimed }

/-- The record of an entry, before its chain is read. -/
def entryRecord (fs : Fat32) (path : List UInt8) (e : Image) (offset : ℕ) (name : List UInt8) :
    FileRecord where
  path := pathJoin path name
  direntOffset := offset
  firstCluster := direntFirst fs e
  sizeBytes := rd32 e 28
  attr := e 11
  isDir := e 11 &&& 0x10 ≠ 0
  chain := []

/-- The references an entry adds: one, if it names a cluster. -/
def ScanState.addRef (s : ScanState) (offset first : ℕ) : ScanState :=
  if first ≠ 0 then { s with dirRefs := s.dirRefs ++ [⟨offset, first⟩] } else s

/-- One round of the entry loop of `scan_directory`: `none` at the end of the directory, otherwise
the long-name state and the scan state. `descend` scans a directory one level down. -/
def scanEntry (fs : Fat32) (descend : ℕ → List UInt8 → ScanState → Except Halt ScanState)
    (path : List UInt8) (e : Image) (offset : ℕ) (lfn : LfnState) (s : ScanState) :
    Except Halt (Option (LfnState × ScanState)) :=
  if e 0 = 0x00 then pure none
  else if e 0 = 0xE5 then pure (some (lfnReset, s))
  else if e 11 = 0x0F then pure (some (lfnAcceptEntry lfn e, s))
  else if e 11 &&& 0x08 ≠ 0 then pure (some (lfnReset, s))
  else if isDotEntry e then pure (some (lfnReset, s.addRef offset (direntFirst fs e)))
  else if entryName lfn e = [] then pure (some (lfnReset, s.addRef offset (direntFirst fs e)))
  else do
    let rec' := entryRecord fs path e offset (entryName lfn e)
    let s ← scanNamedEntry fs rec' (s.addRef offset (direntFirst fs e))
    if rec'.isDir ∧ rec'.firstCluster ≠ 0 then
      let s ← descend rec'.firstCluster rec'.path s
      return some (lfnReset, s)
    else return some (lfnReset, s)

/-- The entry loop over one buffer of a directory; `true` once the end of the directory was met. -/
def scanEntries (fs : Fat32) (descend : ℕ → List UInt8 → ScanState → Except Halt ScanState)
    (path : List UInt8) (buf : Image) (offset : ℕ) :
    List ℕ → LfnState → ScanState → Except Halt (Bool × LfnState × ScanState)
  | [], lfn, s => pure (false, lfn, s)
  | k :: rest, lfn, s => do
    match ← scanEntry fs descend path (buf.view (k * 32)) (offset + k * 32) lfn s with
    | none => pure (true, lfnReset, s)
    | some (lfn, s) => scanEntries fs descend path buf offset rest lfn s

/-- The loop over the clusters of a directory, or over its one fixed region. -/
def scanUnits (fs : Fat32) (descend : ℕ → List UInt8 → ScanState → Except Halt ScanState)
    (path : List UInt8) (unitSize : ℕ) (unitOffset : ℕ → Except Halt ℕ) :
    List ℕ → LfnState → ScanState → Except Halt ScanState
  | [], _, s => pure s
  | unit :: rest, lfn, s => do
    let offset ← unitOffset unit
    let buf ← fs.dev.fullPread unitSize offset "read directory data"
    match ← scanEntries fs descend path buf offset (List.range (unitSize / 32)) lfn s with
    | (true, _, s) => pure s
    | (false, lfn, s) => scanUnits fs descend path unitSize unitOffset rest lfn s

/-- `scan_directory`, by recursion on the depth that is left: the code's `depth` is `128 - left`. -/
def scanDirectory (fs : Fat32) : ℕ → ℕ → List UInt8 → ScanState → Except Halt ScanState
  | 0, _, _, _ => throw (.dieMsg "directory recursion limit exceeded")
  | left + 1, firstCluster, path, s =>
    if fs.rootIsFixed ∧ firstCluster = 0 ∧ left = 128 then
      scanUnits fs (scanDirectory fs left) path fs.rootDirSize (fun _ ↦ pure fs.rootDirOffset)
        (if fs.rootDirSize = 0 then [] else [0]) lfnReset s
    else do
      dieIf (firstCluster < 2 ∨ firstCluster > fs.maxCluster) "invalid directory cluster"
      dieIf (firstCluster ∈ s.visited) "directory cycle or cross-link detected"
      let chain ← fat32ReadChain fs firstCluster
      scanUnits fs (scanDirectory fs left) path fs.clusterSize fs.clusterOffset chain lfnReset
        { s with visited := s.visited ++ [firstCluster] }

/-- The check of one table entry after the walk. -/
def checkCluster (fs : Fat32) (claimed : List ℕ) (c : ℕ) : Except Halt Unit := do
  let v ← fs.fatValue c
  if v = 0 ∨ v = fs.fatType.badValue then pure ()
  else if fs.fatType.reservedMin ≤ v ∧ v < fs.fatType.eocMin then
    throw (.exitMsg "reserved FAT value at cluster %u" (some c) [])
  else if c ∈ claimed then pure ()
  else throw (.exitMsg
    "allocated but unreferenced cluster %u detected; repair lost chains before defragmenting"
    (some c) [])

/-- `scan_files` -/
def scanFiles (fs : Fat32) : Except Halt ScanState := do
  let rootChain ← filesystemRootChain fs
  let claimed ← claimChain [] rootChain "<root directory>".toUTF8.toList
  let s ← scanDirectory fs 129 (if fs.rootIsFixed then 0 else fs.rootCluster) []
    ⟨[], [], [], claimed⟩
  forM (List.range' 2 (fs.maxCluster - 1)) (checkCluster fs s.claimed)
  return s

/-! ### What reading a chain means -/

/-- `c` links to `n`: its entry is the number `n` of a next cluster. -/
def Fat32.Link (fs : Fat32) (c n : ℕ) : Prop :=
  fs.value c = n ∧ fs.fatIsEocFor n = false ∧ n ≠ 0 ∧ fs.isBadLink n = false

/-- Following the table from `c` visits exactly the listed clusters and ends properly. -/
inductive ChainFrom (fs : Fat32) : ℕ → List ℕ → Prop
  | last {c : ℕ} (hc : 2 ≤ c ∧ c ≤ fs.maxCluster) (heoc : fs.fatIsEocFor (fs.value c) = true) :
    ChainFrom fs c [c]
  | link {c n : ℕ} {l : List ℕ} (hc : 2 ≤ c ∧ c ≤ fs.maxCluster) (hlink : fs.Link c n)
    (h : ChainFrom fs n l) : ChainFrom fs c (c :: l)

namespace ChainFrom

variable {fs : Fat32} {c : ℕ} {l l' : List ℕ}

section

variable (h : ChainFrom fs c l)
include h

theorem range : ∀ d ∈ l, 2 ≤ d ∧ d ≤ fs.maxCluster := by
  induction h with
  | last hc _ => simpa using hc
  | link hc _ _ ih =>
    rintro d (_ | ⟨_, hd⟩)
    · exact hc
    · exact ih d hd

theorem head : ∃ t, l = c :: t := by
  cases h with
  | last => exact ⟨[], rfl⟩
  | link => exact ⟨_, rfl⟩

theorem ne_nil : l ≠ [] := by
  obtain ⟨t, rfl⟩ := h.head
  exact cons_ne_nil _ _

/-- The table determines the chain. -/
theorem unique (h' : ChainFrom fs c l') : l = l' := by
  induction h generalizing l' with
  | last hc heoc =>
    cases h' with
    | last => rfl
    | link _ hlink _ =>
      rw [hlink.1, hlink.2.1] at heoc
      exact absurd heoc Bool.false_ne_true
  | link hc hlink _ ih =>
    cases h' with
    | last _ heoc =>
      rw [hlink.1, hlink.2.1] at heoc
      exact absurd heoc Bool.false_ne_true
    | link _ hlink' hrest =>
      obtain rfl : _ = _ := hlink.1.symm.trans hlink'.1
      rw [ih hrest]

/-- From any of its clusters on, a chain is the chain of that cluster. -/
theorem suffix {pre rest : List ℕ} {d : ℕ} (hl : l = pre ++ d :: rest) :
    ChainFrom fs d (d :: rest) := by
  induction h generalizing pre with
  | last hc heoc =>
    cases pre with
    | nil =>
      obtain ⟨rfl, rfl⟩ := List.cons.inj hl
      exact .last hc heoc
    | cons p pre =>
      have := (List.cons.inj hl).2
      simp at this
  | link hc hlink hrest ih =>
    cases pre with
    | nil =>
      obtain ⟨rfl, rfl⟩ := List.cons.inj hl
      exact .link hc hlink hrest
    | cons p pre => exact ih (List.cons.inj hl).2

/-- **A chain that ends has no loop.** -/
theorem nodup : l.Nodup := by
  induction h with
  | last => exact nodup_singleton _
  | @link c n l hc hlink hrest ih =>
    refine nodup_cons.2 ⟨fun hmem ↦ ?_, ih⟩
    -- a second visit would make the chain of `c` a proper suffix of itself
    obtain ⟨pre, rest, rfl⟩ := append_of_mem hmem
    have hlen := congrArg List.length ((hrest.suffix rfl).unique (.link hc hlink hrest))
    simp at hlen
    omega

/-- So a chain is no longer than the volume has clusters. -/
theorem length_le : l.length ≤ fs.maxCluster - 1 := by
  have hsub : l ⊆ range' 2 (fs.maxCluster - 1) := fun d hd ↦ by
    have := h.range d hd
    rw [mem_range'_1]
    omega
  have hle := (subperm_of_subset h.nodup hsub).length_le
  rwa [length_range'] at hle

end

end ChainFrom

/-- One round of the loop, once the cluster is in range and new. -/
theorem readChainFrom_succ {fs : Fat32} (h : fs.Layout) {fuel cur : ℕ} {seen : List ℕ}
    (hcur : 2 ≤ cur ∧ cur ≤ fs.maxCluster) (hnew : cur ∉ seen) :
    readChainFrom fs (fuel + 1) seen cur =
      if fs.fatIsEocFor (fs.value cur) then .ok (seen ++ [cur])
      else (do
        dieIf (fs.value cur = 0) "allocated chain terminates in a free FAT entry"
        dieIf (fs.isBadLink (fs.value cur)) "cluster chain reaches a bad or reserved FAT entry"
        readChainFrom fs fuel (seen ++ [cur]) (fs.value cur)) := by
  rw [readChainFrom, dieIf_bind_of_not (by omega), dieIf_bind_of_not hnew, h.fatValue_eq_ok hcur.2]
  rfl

/-- **The loop reads exactly the chains that avoid what was read before.** -/
theorem readChainFrom_eq_ok {fs : Fat32} (h : fs.Layout) {fuel cur : ℕ} {seen r : List ℕ} :
    readChainFrom fs fuel seen cur = .ok r ↔
      ∃ l, r = seen ++ l ∧ ChainFrom fs cur l ∧ (∀ d ∈ l, d ∉ seen) ∧ l.length ≤ fuel := by
  induction fuel generalizing seen cur with
  | zero =>
    refine iff_of_false (fun hr ↦ by cases hr) ?_
    rintro ⟨l, -, hl, -, hlen⟩
    exact hl.ne_nil (length_eq_zero_iff.1 (Nat.le_zero.1 hlen))
  | succ fuel ih =>
    constructor
    · intro hr
      have hr' := hr
      rw [readChainFrom] at hr'
      simp only [dieIf_bind_eq_ok] at hr'
      obtain ⟨hrange, hnew, -⟩ := hr'
      have hcur : 2 ≤ cur ∧ cur ≤ fs.maxCluster := by omega
      rw [readChainFrom_succ h hcur hnew] at hr
      split_ifs at hr with heoc
      · exact ⟨[cur], (ok.inj hr).symm, .last hcur heoc, by simpa using hnew, by simp⟩
      · simp only [dieIf_bind_eq_ok] at hr
        obtain ⟨hfree, hbad, hr⟩ := hr
        obtain ⟨l, rfl, hl, havoid, hlen⟩ := ih.1 hr
        refine ⟨cur :: l, by simp, .link hcur ⟨rfl, ?_, hfree, ?_⟩ hl, ?_, by simpa using hlen⟩
        · simpa using heoc
        · simpa using hbad
        · rintro d (_ | ⟨_, hd⟩)
          · exact hnew
          · exact fun hmem ↦ havoid d hd (mem_append_left _ hmem)
    · rintro ⟨l, rfl, hl, havoid, hlen⟩
      cases hl with
      | last hc heoc =>
        rw [readChainFrom_succ h hc (havoid cur mem_cons_self), if_pos heoc]
      | @link _ n l hc hlink hrest =>
        obtain ⟨rfl, heoc, hfree, hbad⟩ := hlink
        have hnodup := nodup_cons.1 (ChainFrom.link hc ⟨rfl, heoc, hfree, hbad⟩ hrest).nodup
        rw [readChainFrom_succ h hc (havoid cur mem_cons_self), if_neg (by simp [heoc]),
          dieIf_bind_of_not hfree, dieIf_bind_of_not (by simp [hbad])]
        refine ih.2 ⟨l, by simp, hrest, fun d hd hmem ↦ ?_, by simpa using hlen⟩
        rcases mem_append.1 hmem with hmem | hmem
        · exact havoid d (mem_cons_of_mem _ hd) hmem
        · exact hnodup.1 (mem_singleton.1 hmem ▸ hd)

variable {chain : List ℕ} {lfn : LfnState}

/-- **Reading a chain succeeds just on proper chains.** -/
theorem fat32ReadChain_eq_ok {fs : Fat32} (h : fs.Layout) {first : ℕ} :
    fat32ReadChain fs first = .ok chain ↔
      if first = 0 then chain = [] else ChainFrom fs first chain := by
  rw [fat32ReadChain]
  split_ifs with hzero
  · rw [pure_eq_ok, ok.injEq, eq_comm]
  · rw [dieIf_bind_eq_ok, readChainFrom_eq_ok h]
    constructor
    · rintro ⟨-, l, rfl, hl, -, -⟩
      exact hl
    · intro hl
      have hrange := hl.range first (by obtain ⟨t, rfl⟩ := hl.head; exact mem_cons_self)
      have hlen := hl.length_le
      have hmax := h.maxCluster
      exact ⟨by omega, chain, rfl, hl, by simp, by omega⟩

/-! ### What one round of the scan can do -/

/-- **A chain is claimed just if no cluster of it was.** -/
theorem claimChain_eq_ok {claimed r : List ℕ} {owner : List UInt8} :
    claimChain claimed chain owner = .ok r ↔
      (chain.Nodup ∧ ∀ c ∈ chain, c ∉ claimed) ∧ r = claimed ++ chain := by
  induction chain generalizing claimed with
  | nil => simp [claimChain, eq_comm]
  | cons c chain ih =>
    unfold claimChain at ih ⊢
    rw [foldlM_cons]
    by_cases hc : c ∈ claimed
    · rw [if_pos hc]
      exact iff_of_false (fun hr ↦ by cases hr) fun hr ↦ hr.1.2 c mem_cons_self hc
    · rw [if_neg hc]
      refine ih.trans ?_
      simp only [nodup_cons, forall_mem_cons, hc, not_false_eq_true, true_and,
        mem_append, mem_singleton, not_or, append_assoc, singleton_append]
      refine and_congr_left fun _ ↦ ?_
      constructor
      · rintro ⟨hnd, h⟩
        exact ⟨⟨fun hmem ↦ (h c hmem).2 rfl, hnd⟩, fun d hd ↦ (h d hd).1⟩
      · rintro ⟨⟨hnot, hnd⟩, h⟩
        exact ⟨hnd, fun d hd ↦ ⟨h d hd, fun heq ↦ hnot (heq ▸ hd)⟩⟩

/-- The size of a regular file and the length of its chain agree. -/
def SizeOk (fs : Fat32) (rec : FileRecord) : Prop :=
  rec.isDir = false → (rec.sizeBytes = 0 ↔ rec.firstCluster = 0) ∧
    rec.chain.length = expectedClusters fs rec.sizeBytes

/-- **What a named entry adds to the scan.** -/
theorem scanNamedEntry_eq_ok {fs : Fat32} {rec : FileRecord} {s s' : ScanState} :
    scanNamedEntry fs rec s = .ok s' ↔ ∃ chain, fat32ReadChain fs rec.firstCluster = .ok chain ∧
      (chain.Nodup ∧ ∀ c ∈ chain, c ∉ s.claimed) ∧ SizeOk fs { rec with chain } ∧
      s' = { s with files := s.files ++ [{ rec with chain }], claimed := s.claimed ++ chain } := by
  rw [scanNamedEntry, bind_eq_ok]
  refine exists_congr fun chain ↦ and_congr_right fun _ ↦ ?_
  rw [bind_eq_ok]
  have hsize : ¬(rec.isDir = false ∧ ((rec.sizeBytes = 0 ∧ rec.firstCluster ≠ 0) ∨
      (rec.sizeBytes ≠ 0 ∧ rec.firstCluster = 0) ∨
      chain.length ≠ expectedClusters fs rec.sizeBytes)) ↔ SizeOk fs { rec with chain } := by
    simp only [SizeOk]
    tauto
  constructor
  · rintro ⟨claimed, hclaim, hr⟩
    obtain ⟨hfresh, rfl⟩ := claimChain_eq_ok.1 hclaim
    split_ifs at hr with hbad
    exact ⟨hfresh, hsize.1 hbad, (ok.inj hr).symm⟩
  · rintro ⟨hfresh, hok, rfl⟩
    refine ⟨_, claimChain_eq_ok.2 ⟨hfresh, rfl⟩, ?_⟩
    rw [if_neg (hsize.2 hok)]
    rfl

section Steps

variable {fs : Fat32} {descend : ℕ → List UInt8 → ScanState → Except Halt ScanState}
  {path : List UInt8}

/-- **Everything one entry can do to the scan.** -/
theorem scanEntry_eq_some {e : Image} {offset : ℕ} {lfn' : LfnState} {s s' : ScanState}
    (h : scanEntry fs descend path e offset lfn s = .ok (some (lfn', s'))) :
    s' = s ∨ s' = s.addRef offset (direntFirst fs e) ∨
      ∃ s₁, scanNamedEntry fs (entryRecord fs path e offset (entryName lfn e))
          (s.addRef offset (direntFirst fs e)) = .ok s₁ ∧
        (s' = s₁ ∨ descend (direntFirst fs e) (pathJoin path (entryName lfn e)) s₁ = .ok s') := by
  rw [scanEntry] at h
  split_ifs at h
  · cases h
  · exact .inl (congrArg Prod.snd (Option.some.inj (ok.inj h))).symm
  · exact .inl (congrArg Prod.snd (Option.some.inj (ok.inj h))).symm
  · exact .inl (congrArg Prod.snd (Option.some.inj (ok.inj h))).symm
  · exact .inr (.inl (congrArg Prod.snd (Option.some.inj (ok.inj h))).symm)
  · exact .inr (.inl (congrArg Prod.snd (Option.some.inj (ok.inj h))).symm)
  · rw [bind_eq_ok] at h
    obtain ⟨s₁, hnamed, h⟩ := h
    refine .inr (.inr ⟨s₁, hnamed, ?_⟩)
    split_ifs at h
    · rw [bind_eq_ok] at h
      obtain ⟨s₂, hsub, h⟩ := h
      obtain rfl : s₂ = s' := congrArg Prod.snd (Option.some.inj (ok.inj h))
      exact .inr hsub
    · exact .inl (congrArg Prod.snd (Option.some.inj (ok.inj h))).symm

end Steps

/-! ### Invariants of the scan -/

/-- A property that every step of the walk over the directories keeps. -/
structure WalkInvariant (fs : Fat32) (P : ScanState → Prop) : Prop where
  addRef : ∀ s offset first, P s → P (s.addRef offset first)
  visit : ∀ s c, P s → P { s with visited := s.visited ++ [c] }
  entry : ∀ path e offset name s s', scanNamedEntry fs (entryRecord fs path e offset name)
    (s.addRef offset (direntFirst fs e)) = .ok s' → P s → P s'

/-- A property that every step of the scan keeps, for whatever record it is made. -/
structure ScanInvariant (fs : Fat32) (P : ScanState → Prop) : Prop where
  addRef : ∀ s offset first, P s → P (s.addRef offset first)
  visit : ∀ s c, P s → P { s with visited := s.visited ++ [c] }
  named : ∀ rec s s', scanNamedEntry fs rec s = .ok s' → P s → P s'

theorem ScanInvariant.walk {fs : Fat32} {P : ScanState → Prop} (hP : ScanInvariant fs P) :
    WalkInvariant fs P where
  addRef := hP.addRef
  visit := hP.visit
  entry _ _ _ _ _ _ hnamed hs := hP.named _ _ _ hnamed (hP.addRef _ _ _ hs)

namespace WalkInvariant

variable {fs : Fat32} {P : ScanState → Prop} (hP : WalkInvariant fs P)
  {descend : ℕ → List UInt8 → ScanState → Except Halt ScanState}
  (hsub : ∀ first path s s', descend first path s = .ok s' → P s → P s') {path : List UInt8}
include hP hsub

theorem scanEntries {buf : Image} {offset : ℕ} {ks : List ℕ} {s : ScanState}
    {r : Bool × LfnState × ScanState} (h : scanEntries fs descend path buf offset ks lfn s = .ok r)
    (hs : P s) : P r.2.2 := by
  induction ks generalizing lfn s with
  | nil =>
    obtain rfl := ok.inj h
    exact hs
  | cons k ks ih =>
    rw [Fat.scanEntries, bind_eq_ok] at h
    obtain ⟨o, hentry, h⟩ := h
    rcases o with _ | ⟨lfn', s'⟩
    · obtain rfl := ok.inj h
      exact hs
    · refine ih h ?_
      rcases scanEntry_eq_some hentry with rfl | rfl | ⟨s₁, hnamed, rfl | hdown⟩
      · exact hs
      · exact hP.addRef _ _ _ hs
      · exact hP.entry _ _ _ _ _ _ hnamed hs
      · exact hsub _ _ _ _ hdown (hP.entry _ _ _ _ _ _ hnamed hs)

theorem scanUnits {unitSize : ℕ} {unitOffset : ℕ → Except Halt ℕ} {units : List ℕ}
    {s s' : ScanState} (h : scanUnits fs descend path unitSize unitOffset units lfn s = .ok s')
    (hs : P s) : P s' := by
  induction units generalizing lfn s with
  | nil =>
    obtain rfl := ok.inj h
    exact hs
  | cons unit units ih =>
    rw [Fat.scanUnits, bind_eq_ok] at h
    obtain ⟨offset, -, h⟩ := h
    rw [bind_eq_ok] at h
    obtain ⟨buf, -, h⟩ := h
    rw [bind_eq_ok] at h
    obtain ⟨⟨ended, lfn', s₁⟩, hentries, h⟩ := h
    have hs₁ : P s₁ := hP.scanEntries hsub hentries hs
    cases ended with
    | true =>
      obtain rfl := ok.inj h
      exact hs₁
    | false => exact ih h hs₁

omit hsub in
/-- **Induction over the walk**: what every step keeps, the scan of a directory keeps. -/
theorem scanDirectory {left first : ℕ} {s s' : ScanState}
    (h : scanDirectory fs left first path s = .ok s') (hs : P s) : P s' := by
  induction left generalizing first path s s' with
  | zero => cases h
  | succ left ih =>
    have hdown : ∀ first path s s', Fat.scanDirectory fs left first path s = .ok s' → P s → P s' :=
      fun _ _ _ _ h hs ↦ ih h hs
    rw [Fat.scanDirectory] at h
    by_cases hfix : fs.rootIsFixed = true ∧ first = 0 ∧ left = 128
    · rw [if_pos hfix] at h
      exact hP.scanUnits hdown h hs
    · rw [if_neg hfix] at h
      simp only [dieIf_bind_eq_ok] at h
      obtain ⟨-, -, h⟩ := h
      rw [bind_eq_ok] at h
      obtain ⟨chain, -, h⟩ := h
      exact hP.scanUnits hdown h (hP.visit _ _ hs)

end WalkInvariant

/-! ### What a scanned volume is like -/

/-- What the scan of a volume establishes about the records it returns. -/
structure Scanned (fs : Fat32) (rootChain : List ℕ) (s : ScanState) : Prop where
  /-- The clusters claimed are those of the root directory, then those of the files in order. -/
  claimed : s.claimed = rootChain ++ s.files.flatMap FileRecord.chain
  nodup : s.claimed.Nodup
  chain : ∀ f ∈ s.files, fat32ReadChain fs f.firstCluster = .ok f.chain
  sizeOk : ∀ f ∈ s.files, SizeOk fs f

theorem scannedInvariant (fs : Fat32) (rootChain : List ℕ) :
    ScanInvariant fs (Scanned fs rootChain) where
  addRef s offset first h := by
    rw [ScanState.addRef]
    split_ifs
    · exact ⟨h.claimed, h.nodup, h.chain, h.sizeOk⟩
    · exact h
  visit s c h := ⟨h.claimed, h.nodup, h.chain, h.sizeOk⟩
  named rec s s' hr h := by
    obtain ⟨chain, hchain, ⟨hnd, hfresh⟩, hsize, rfl⟩ := scanNamedEntry_eq_ok.1 hr
    refine ⟨?_, ?_, ?_, ?_⟩
    · simp only [h.claimed, flatMap_append, flatMap_cons, flatMap_nil, append_nil, append_assoc]
    · refine h.nodup.append hnd ?_
      exact fun c hc hc' ↦ hfresh c hc' hc
    · intro f hf
      rcases mem_append.1 hf with hf | hf
      · exact h.chain f hf
      · obtain rfl := mem_singleton.1 hf
        exact hchain
    · intro f hf
      rcases mem_append.1 hf with hf | hf
      · exact h.sizeOk f hf
      · obtain rfl := mem_singleton.1 hf
        exact hsize

theorem checkCluster_eq_ok {fs : Fat32} (h : fs.Layout) {claimed : List ℕ} {c : ℕ}
    (hc : c ≤ fs.maxCluster) : checkCluster fs claimed c = .ok () ↔
      fs.value c = 0 ∨ fs.value c = fs.fatType.badValue ∨
        (¬(fs.fatType.reservedMin ≤ fs.value c ∧ fs.value c < fs.fatType.eocMin) ∧
          c ∈ claimed) := by
  rw [checkCluster, h.fatValue_eq_ok hc, ok_bind]
  split_ifs with h₁ h₂ h₃
  · exact iff_of_true rfl (by tauto)
  · exact iff_of_false (fun hr ↦ by cases hr) (by tauto)
  · exact iff_of_true rfl (by tauto)
  · exact iff_of_false (fun hr ↦ by cases hr) (by tauto)

/-- Every allocated cluster of the volume belongs to a chain of the scan. -/
def NoLostClusters (fs : Fat32) (claimed : List ℕ) : Prop :=
  ∀ c, 2 ≤ c → c ≤ fs.maxCluster → fs.value c ≠ 0 → fs.value c ≠ fs.fatType.badValue →
    ¬(fs.fatType.reservedMin ≤ fs.value c ∧ fs.value c < fs.fatType.eocMin) ∧ c ∈ claimed

/-- **What `scan_files` guarantees about a volume it accepts.** -/
theorem scanFiles_scanned {fs : Fat32} (h : fs.Layout) {s : ScanState} (hs : scanFiles fs = .ok s) :
    ∃ rootChain, filesystemRootChain fs = .ok rootChain ∧ Scanned fs rootChain s ∧
      NoLostClusters fs s.claimed := by
  rw [scanFiles, bind_eq_ok] at hs
  obtain ⟨rootChain, hroot, hs⟩ := hs
  rw [bind_eq_ok] at hs
  obtain ⟨claimed, hclaim, hs⟩ := hs
  rw [bind_eq_ok] at hs
  obtain ⟨s₁, hwalk, hs⟩ := hs
  rw [bind_eq_ok] at hs
  obtain ⟨_, hcheck, hs⟩ := hs
  obtain rfl := ok.inj hs
  obtain ⟨⟨hnd, -⟩, hclaimed⟩ := claimChain_eq_ok.1 hclaim
  rw [nil_append] at hclaimed
  refine ⟨rootChain, hroot, ?_, ?_⟩
  · refine (scannedInvariant fs rootChain).walk.scanDirectory hwalk ⟨?_, hclaimed ▸ hnd, ?_, ?_⟩
    · simpa using hclaimed
    · simp
    · simp
  · intro c h₂ hmax hfree hbad
    have hone := forM_eq_ok.1 hcheck c (mem_range'_1.2 ⟨h₂, by omega⟩)
    rcases (checkCluster_eq_ok h hmax).1 hone with h' | h' | h'
    · exact absurd h' hfree
    · exact absurd h' hbad
    · exact h'

/-! ### Soundness of the scan -/

theorem ChainFrom.allocated {fs : Fat32} {c : ℕ} {l : List ℕ} (h : ChainFrom fs c l) :
    ∀ d ∈ l, fs.value d ≠ 0 ∧ fs.value d ≠ fs.fatType.badValue := by
  induction h with
  | @last c _ heoc =>
    intro d hd
    rw [mem_singleton.1 hd]
    have hfree : fs.fatIsEocFor 0 = false := by
      unfold Fat32.fatIsEocFor
      cases fs.fatType <;> decide
    have hbad : fs.fatIsEocFor fs.fatType.badValue = false := by
      unfold Fat32.fatIsEocFor
      cases fs.fatType <;> decide
    constructor
    · intro hv
      rw [hv, hfree] at heoc
      cases heoc
    · intro hv
      rw [hv, hbad] at heoc
      cases heoc
  | link _ hlink _ ih =>
    obtain ⟨rfl, -, hfree, hbad⟩ := hlink
    rintro d (_ | ⟨_, hd⟩)
    · refine ⟨hfree, fun hv ↦ ?_⟩
      simp [Fat32.isBadLink, hv] at hbad
    · exact ih d hd

/-- Reading a chain gives allocated clusters of the volume. -/
theorem fat32ReadChain_allocated {fs : Fat32} (h : fs.Layout) {first : ℕ}
    (hr : fat32ReadChain fs first = .ok chain) {c : ℕ} (hc : c ∈ chain) :
    (2 ≤ c ∧ c ≤ fs.maxCluster) ∧ fs.value c ≠ 0 ∧ fs.value c ≠ fs.fatType.badValue := by
  have hchain := (fat32ReadChain_eq_ok h).1 hr
  split_ifs at hchain
  · rw [hchain] at hc
    cases hc
  · exact ⟨hchain.range c hc, hchain.allocated c hc⟩

/-- The entry of every object that has clusters is among the directory references. -/
def RefsListed (s : ScanState) : Prop :=
  ∀ f ∈ s.files, f.firstCluster ≠ 0 → ⟨f.direntOffset, f.firstCluster⟩ ∈ s.dirRefs

theorem dirRefs_subset_addRef (s : ScanState) (offset first : ℕ) :
    s.dirRefs ⊆ (s.addRef offset first).dirRefs := by
  rw [ScanState.addRef]
  split_ifs
  · exact subset_append_left ..
  · exact List.Subset.refl _

theorem files_addRef (s : ScanState) (offset first : ℕ) :
    (s.addRef offset first).files = s.files := by
  rw [ScanState.addRef]
  split_ifs <;> rfl

theorem refsListed_walk (fs : Fat32) : WalkInvariant fs RefsListed where
  addRef s offset first h := by
    intro f hf hne
    rw [files_addRef] at hf
    exact dirRefs_subset_addRef s offset first (h f hf hne)
  visit s c h := h
  entry path e offset name s s' hr h := by
    obtain ⟨chain, -, -, -, rfl⟩ := scanNamedEntry_eq_ok.1 hr
    intro f hf hne
    rw [files_addRef] at hf
    rcases mem_append.1 hf with hf | hf
    · exact dirRefs_subset_addRef s offset _ (h f hf hne)
    · -- the entry at hand: its reference was added before its record
      rw [mem_singleton.1 hf] at hne ⊢
      have hfirst : direntFirst fs e ≠ 0 := hne
      have hadd : (s.addRef offset (direntFirst fs e)).dirRefs =
          s.dirRefs ++ [⟨offset, direntFirst fs e⟩] := by
        rw [ScanState.addRef, if_pos hfirst]
      rw [hadd]
      exact mem_append_right _ mem_cons_self

theorem scanFiles_refsListed {fs : Fat32} {s : ScanState} (hs : scanFiles fs = .ok s) :
    RefsListed s := by
  rw [scanFiles, bind_eq_ok] at hs
  obtain ⟨rootChain, -, hs⟩ := hs
  rw [bind_eq_ok] at hs
  obtain ⟨claimed, -, hs⟩ := hs
  rw [bind_eq_ok] at hs
  obtain ⟨s₁, hwalk, hs⟩ := hs
  rw [bind_eq_ok] at hs
  obtain ⟨_, -, hs⟩ := hs
  obtain rfl := ok.inj hs
  exact (refsListed_walk fs).scanDirectory hwalk (by simp [RefsListed])

theorem expectedClusters_eq_ceilDiv (fs : Fat32) (size : ℕ) :
    expectedClusters fs size = size ⌈/⌉ fs.clusterSize := by
  rw [expectedClusters, Nat.ceilDiv_eq_add_pred_div]
  split_ifs with h
  · rw [h, Nat.zero_add]
    rcases Nat.eq_zero_or_pos fs.clusterSize with hz | hpos
    · rw [hz]
    · exact (Nat.div_eq_of_lt (Nat.sub_lt hpos Nat.one_pos)).symm
  · rfl

/-! ### Small volumes -/

/-- The 32 bytes of a directory entry for a regular file with a one-letter name. -/
def fileEntry (letter first : UInt8) (size : ℕ) : List UInt8 :=
  letter :: List.replicate 10 0x20 ++ [0x20] ++ List.replicate 14 0 ++ [first, 0] ++ wr32 size

/-- A FAT12 volume of sixteen sectors: the boot sector, one FAT, a root directory of sixteen entries
and thirteen clusters of 512 bytes. -/
def floppy (fat root : List UInt8) : Device where
  path := "/dev/fd0".toList
  writable := true
  sizeBytes := 16 * 512
  image := Image.write (Image.write (fun a ↦
    ([(12, 0x02), (13, 1), (14, 1), (16, 1), (17, 16), (19, 16), (22, 1), (510, 0x55),
      (511, 0xAA)].lookup a).getD 0) 512 fat) 1024 root
  log := []

/-- What loading such a volume gives. -/
def floppyVolume (dev : Device) : Fat32 :=
  (bootFields dev.image dev false).withFat (decodeTable .fat12 (dev.image.view 512) 341)

/-! ### The scan as a whole -/

/-- The chains of the root directory and of the objects that a scan returns. -/
def ScanState.chains (s : ScanState) (rootChain : List ℕ) : List (List ℕ) :=
  rootChain :: s.files.map FileRecord.chain

/-- **Soundness of the scan.** The chains of a volume that is loaded and scanned have no cluster
twice and none in common, and they hold exactly the allocated clusters. The chain of a regular file
is as long as its size needs, and the entry of an object with clusters is among the directory
references, with the first of them. -/
theorem scan_sound {fuel : ℕ} {dev : Device} {allow : Bool} {fs : Fat32} {s : ScanState}
    (hload : fat32Load fuel dev allow = .ok fs) (hs : scanFiles fs = .ok s) :
    ∃ rootChain, filesystemRootChain fs = .ok rootChain ∧
      (∀ chain ∈ s.chains rootChain, chain.Nodup) ∧
      (s.chains rootChain).Pairwise List.Disjoint ∧
      (∀ c, (∃ chain ∈ s.chains rootChain, c ∈ chain) ↔
        2 ≤ c ∧ c ≤ fs.maxCluster ∧ fs.value c ≠ 0 ∧ fs.value c ≠ fs.fatType.badValue) ∧
      (∀ f ∈ s.files, f.isDir = false → f.chain.length = f.sizeBytes ⌈/⌉ fs.clusterSize) ∧
      ∀ f ∈ s.files, ∀ c, f.chain.head? = some c → ⟨f.direntOffset, c⟩ ∈ s.dirRefs := by
  have hlayout := (fat32Load_loaded hload).1.toLayout
  obtain ⟨rootChain, hroot, hscan, hlost⟩ := scanFiles_scanned hlayout hs
  have hflat : (s.chains rootChain).flatten = s.claimed := by
    rw [hscan.claimed, ScanState.chains, flatten_cons, List.flatMap]
  have hnodup := hflat ▸ hscan.nodup
  refine ⟨rootChain, hroot, (nodup_flatten.1 hnodup).1, (nodup_flatten.1 hnodup).2,
    fun c ↦ ⟨?_, ?_⟩, fun f hf hfile ↦ ?_, fun f hf c hc ↦ ?_⟩
  · -- every chain was read from the table
    have hread : ∀ chain ∈ s.chains rootChain, ∃ first, fat32ReadChain fs first = .ok chain := by
      intro chain hchain
      rcases mem_cons.1 hchain with rfl | hchain
      · rw [filesystemRootChain] at hroot
        split_ifs at hroot
        · exact ⟨0, hroot⟩
        · exact ⟨_, hroot⟩
      · obtain ⟨f, hf, rfl⟩ := mem_map.1 hchain
        exact ⟨_, hscan.chain f hf⟩
    rintro ⟨chain, hchain, hc⟩
    obtain ⟨first, hr⟩ := hread chain hchain
    obtain ⟨⟨h₂, hmax⟩, hvalue⟩ := fat32ReadChain_allocated hlayout hr hc
    exact ⟨h₂, hmax, hvalue⟩
  · rintro ⟨h₂, hmax, hfree, hbad⟩
    have hclaimed := (hlost c h₂ hmax hfree hbad).2
    rw [← hflat] at hclaimed
    exact mem_flatten.1 hclaimed
  · rw [(hscan.sizeOk f hf hfile).2, expectedClusters_eq_ceilDiv]
  · have hchain := (fat32ReadChain_eq_ok hlayout).1 (hscan.chain f hf)
    by_cases hzero : f.firstCluster = 0
    · rw [if_pos hzero] at hchain
      rw [hchain] at hc
      cases hc
    · rw [if_neg hzero] at hchain
      obtain ⟨t, ht⟩ := hchain.head
      rw [ht, head?_cons, Option.some.injEq] at hc
      rw [← hc]
      exact scanFiles_refsListed hs f hf hzero

/-- A volume with one file of two clusters, 2 and 4. -/
def twoClusterDevice : Device :=
  floppy [0xF8, 0xFF, 0xFF, 0x04, 0x00, 0x00, 0xFF, 0x0F] (fileEntry 0x41 2 600)

theorem fat32Load_twoClusterDevice :
    fat32Load 2 twoClusterDevice false = .ok (floppyVolume twoClusterDevice) := rfl

theorem scanFiles_twoClusterDevice : scanFiles (floppyVolume twoClusterDevice) =
    .ok ⟨[⟨[0x41], 1024, 2, 600, 0x20, false, [2, 4]⟩], [⟨1024, 2⟩], [], [2, 4]⟩ := by
  decide +kernel

theorem scan_sound_twoClusterDevice :
    ∃ s, fat32Load 2 twoClusterDevice false = .ok (floppyVolume twoClusterDevice) ∧
      scanFiles (floppyVolume twoClusterDevice) = .ok s ∧ ∃ rootChain,
      filesystemRootChain (floppyVolume twoClusterDevice) = .ok rootChain ∧
      (∀ chain ∈ s.chains rootChain, chain.Nodup) ∧
      (s.chains rootChain).Pairwise List.Disjoint ∧
      (∀ c, (∃ chain ∈ s.chains rootChain, c ∈ chain) ↔
        2 ≤ c ∧ c ≤ (floppyVolume twoClusterDevice).maxCluster ∧
          (floppyVolume twoClusterDevice).value c ≠ 0 ∧
          (floppyVolume twoClusterDevice).value c ≠
            (floppyVolume twoClusterDevice).fatType.badValue) ∧
      (∀ f ∈ s.files, f.isDir = false →
        f.chain.length = f.sizeBytes ⌈/⌉ (floppyVolume twoClusterDevice).clusterSize) ∧
      ∀ f ∈ s.files, ∀ c, f.chain.head? = some c → ⟨f.direntOffset, c⟩ ∈ s.dirRefs :=
  ⟨_, fat32Load_twoClusterDevice, scanFiles_twoClusterDevice,
    scan_sound fat32Load_twoClusterDevice scanFiles_twoClusterDevice⟩

end LinuxDefragger.Fat
