import LinuxDefragger.Fat.GrowthPlan

/-!
# When "already satisfied" can be believed

Growth defragmentation answers *already satisfied* either because the preflight found nothing wrong,
or because the preflight stopped at a file whose reserve is short and every object has its lowest
cluster where a fresh plan would put it. `GrowthSatisfied` says what the answer is supposed to mean.

The second way in looks only at lowest clusters and at chain lengths. If every chain is contiguous
it implies the reserves (`canonical_reserves`), so it would contradict the preflight. It can only
succeed when a chain is fragmented and the preflight stopped before it got there: that is
`MisledLayout`, and `growth_verdict_sound_iff` shows that it is the only way the answer goes wrong.
-/

open Except List Storage

namespace LinuxDefragger.Fat

/-! ### The property -/

/-- A chain whose clusters are consecutive. -/
def Contiguous (chain : List ℕ) : Prop := ∃ start, chain = List.range' start chain.length

/-- The growth reserve of a regular file is free. -/
def HasReserve (fs : Fat32) (percent : ℕ) (f : FileRecord) : Prop :=
  f.isDir = false →
    FollowedByFree fs (f.chain.headD 0 + f.chain.length) (growthReserve f.chain.length percent)

/-- The chain is contiguous and the reserve is there. -/
def Settled (fs : Fat32) (percent : ℕ) (f : FileRecord) : Prop :=
  Contiguous f.chain ∧ HasReserve fs percent f

/-- **What "already satisfied" is supposed to mean.** -/
structure GrowthSatisfied (fs : Fat32) (root : List ℕ) (files : List FileRecord) (percent : ℕ) :
    Prop where
  root_contiguous : Contiguous root
  contiguous : ∀ f ∈ files, Contiguous f.chain
  reserves : ∀ f ∈ files, HasReserve fs percent f

variable {chain : List ℕ} {files : List FileRecord} {r : GrowthPreflight}

theorem contiguous_iff : Contiguous chain ↔ chain = range' (chain.headD 0) chain.length := by
  constructor
  · rintro ⟨start, h⟩
    cases chain with
    | nil => rfl
    | cons c rest =>
      rw [length_cons, range'_succ] at h
      obtain ⟨rfl, -⟩ := List.cons.inj h
      rwa [length_cons, range'_succ]
  · exact fun h ↦ ⟨_, h⟩

instance (chain : List ℕ) : Decidable (Contiguous chain) := decidable_of_iff' _ contiguous_iff

theorem chainIsExactRun_head (h : chain ≠ []) :
    chainIsExactRun chain (chain.headD 0) = true ↔ Contiguous chain := by
  rw [chainIsExactRun, decide_eq_true_eq, contiguous_iff]
  exact and_iff_right h

/-- A chain inside the volume leaves its end inside the volume, or one behind it. -/
theorem Contiguous.end_le {fs : Fat32} (h : Contiguous chain)
    (hmax : ∀ c ∈ chain, c ≤ fs.maxCluster) : chain.headD 0 + chain.length ≤ fs.maxCluster + 1 := by
  rcases eq_nil_or_concat' chain with rfl | ⟨init, c, rfl⟩
  · exact Nat.zero_le _
  · have hlast : c = (init ++ [c]).headD 0 + init.length := by
      have := congrArg (fun l ↦ l[init.length]?) (contiguous_iff.1 h)
      simpa using this
    have := hmax c (by simp)
    rw [length_append, length_singleton]
    omega

/-! ### The preflight -/

variable {f : FileRecord} {o : GrowthObject}

section Preflight

variable {fs : Fat32} {percent : ℕ}

theorem hasReserve_iff (hcont : Contiguous f.chain) (hmax : ∀ c ∈ f.chain, c ≤ fs.maxCluster)
    (hreg : f.isDir = false) :
    HasReserve fs percent f ↔ growthReserve f.chain.length percent ≤
      availableReserve fs (growthReserve f.chain.length percent)
        (f.chain.headD 0 + f.chain.length) := by
  rw [HasReserve, le_availableReserve (hcont.end_le hmax)]
  exact ⟨fun h ↦ h hreg, fun h _ ↦ h⟩

/-- A file without clusters needs nothing. -/
theorem settled_of_nil (h : f.chain = []) : Settled fs percent f := by
  refine ⟨⟨0, by rw [h]; rfl⟩, fun _ ↦ ⟨0, ?_, ?_, fun c hge hc ↦ by omega⟩⟩
  · rw [h]
    exact Nat.zero_le _
  · rw [h]
    exact Nat.le_of_eq (by simp [growthReserve, usableCount_zero])

open Classical in
/-- **What the preflight reports.** It depends on the first file in scan order that is not
settled. -/
theorem preflightFiles_issue (hmax : ∀ f ∈ files, ∀ c ∈ f.chain, c ≤ fs.maxCluster) :
    (preflightFiles fs percent files r).issue =
      match files.find? fun f ↦ ¬Settled fs percent f with
      | none => if r.regularFiles + (allocatedFiles files).length = 0 then .noFiles else .ok
      | some f => if Contiguous f.chain then .reserveShort else .objectFragmented := by
  induction files generalizing r with
  | nil => rfl
  | cons f rest ih =>
    obtain ⟨hf, hrest⟩ := forall_mem_cons.1 hmax
    rw [preflightFiles, find?_cons]
    by_cases hnil : f.chain = []
    · have hskip : allocatedFiles (f :: rest) = allocatedFiles rest := by
        simp [allocatedFiles, hnil]
      rw [if_pos hnil, ih hrest, decide_eq_false (not_not.2 (settled_of_nil hnil)), hskip]
    rw [if_neg hnil]
    by_cases hcont : Contiguous f.chain
    swap
    · -- a fragmented chain stops the loop
      have hrun : chainIsExactRun f.chain (f.chain.headD 0) = false := by
        rw [← Bool.not_eq_true, chainIsExactRun_head hnil]
        exact hcont
      rw [if_pos hrun, decide_eq_true (p := ¬Settled fs percent f) fun hs ↦ hcont hs.1]
      exact (if_neg hcont).symm
    have hrun : ¬chainIsExactRun f.chain (f.chain.headD 0) = false := by
      rw [Bool.not_eq_false, chainIsExactRun_head hnil]
      exact hcont
    rw [if_neg hrun]
    by_cases hdir : f.isDir = true
    · have hskip : allocatedFiles (f :: rest) = allocatedFiles rest := by
        simp [allocatedFiles, hdir]
      have hset : Settled fs percent f := ⟨hcont, by simp [HasReserve, hdir]⟩
      rw [if_pos hdir, ih hrest, decide_eq_false (not_not.2 hset), hskip]
    rw [if_neg hdir]
    have hreg : f.isDir = false := Bool.eq_false_of_not_eq_true hdir
    have hres : HasReserve fs percent f ↔ _ := hasReserve_iff hcont hf hreg
    by_cases hshort : HasReserve fs percent f
    · have hkeep : allocatedFiles (f :: rest) = f :: allocatedFiles rest := by
        simp [allocatedFiles, hnil, hreg]
      rw [if_neg (not_lt.2 (hres.1 hshort)), ih hrest, decide_eq_false (not_not.2 ⟨hcont, hshort⟩),
        hkeep, length_cons, Nat.add_right_comm, Nat.add_assoc]
    · rw [if_pos (not_le.1 fun hle ↦ hshort (hres.2 hle)),
        decide_eq_true (p := ¬Settled fs percent f) fun hs ↦ hshort hs.2]
      exact (if_pos hcont).symm

end Preflight

/-! ### The comparison with a fresh plan -/

/-- Every object has its lowest cluster where the growth layout puts the object. -/
def LowestClustersPlanned (fs : Fat32) (percent : ℕ) (objects : List GrowthObject) : Prop :=
  ∃ os last, Planned fs percent (fs.maxCluster + 1) 2 objects os last ∧
    ∀ o ∈ os, o.target = o.physicalFirst

theorem mem_pushedGrowthObjects {root : List ℕ} :
    o ∈ pushedGrowthObjects root files ↔ (root ≠ [] ∧ o = rootGrowthObject root) ∨
      ∃ f ∈ files, f.chain ≠ [] ∧ o = f.growthObject := by
  rw [pushedGrowthObjects, mem_append]
  refine or_congr ?_ ?_
  · split_ifs with h <;> simp [h]
  · simp only [mem_map, mem_filter, decide_eq_true_eq, and_assoc]
    exact exists_congr fun f ↦ and_congr_right fun _ ↦ and_congr_right fun _ ↦ eq_comm

theorem mem_sortedGrowthObjects {root : List ℕ} :
    o ∈ sortedGrowthObjects root files ↔ o ∈ pushedGrowthObjects root files :=
  (perm_insertionSort _ _).mem_iff

theorem clusters_pos_of_mem {root : List ℕ} :
    ∀ o ∈ sortedGrowthObjects root files, 0 < o.clusters := by
  intro o ho
  rcases mem_pushedGrowthObjects.1 (mem_sortedGrowthObjects.1 ho) with ⟨h, rfl⟩ | ⟨f, -, h, rfl⟩
  · exact length_pos_iff.2 h
  · exact length_pos_iff.2 h

theorem growthLayoutMatchesCanonical_isSome {fs : Fat32} {percent : ℕ} {objects : List GrowthObject}
    (hpos : ∀ o ∈ objects, 0 < o.clusters) (hne : objects ≠ []) :
    (growthLayoutMatchesCanonical fs objects percent).isSome = true ↔
      LowestClustersPlanned fs percent objects := by
  have hunfold : growthLayoutMatchesCanonical fs objects percent =
      (planFrom fs percent (fs.maxCluster + 1) 2 objects).bind fun p ↦
        if p.1.all (fun o ↦ o.target = o.physicalFirst) && !p.1.isEmpty then some p.2.1
            else none := by
    rw [growthLayoutMatchesCanonical, planGrowthLayout]
    cases planFrom fs percent (fs.maxCluster + 1) 2 objects <;> rfl
  rw [hunfold]
  constructor
  · intro h
    obtain ⟨total, h⟩ := Option.isSome_iff_exists.1 h
    obtain ⟨⟨os, _, last⟩, hplan, hmatch⟩ := Option.bind_eq_some_iff.1 h
    have hall := (Option.ite_none_right_eq_some.1 hmatch).1
    rw [Bool.and_eq_true, all_eq_true] at hall
    exact ⟨os, last, ((planFrom_eq_some hpos le_rfl).1 hplan).1,
      fun o ho ↦ of_decide_eq_true (hall.1 o ho)⟩
  · rintro ⟨os, last, hplan, hall⟩
    have hos : os ≠ [] := by
      rintro rfl
      exact hne (forall₂_nil_right_iff.1 hplan.forall₂)
    rw [(planFrom_eq_some hpos le_rfl).2 ⟨hplan, rfl⟩, Option.bind_some]
    simpa [hos] using hall

theorem foldl_min_range' (a s n : ℕ) : (range' s n).foldl min a = if n = 0 then a else min a s := by
  induction n generalizing a s with
  | zero => rfl
  | succ n ih =>
    rw [range'_succ, foldl_cons, ih, if_neg n.succ_ne_zero]
    by_cases hn : n = 0
    · rw [if_pos hn]
    · rw [if_neg hn]
      omega

/-- The lowest cluster of a contiguous chain is its first. -/
theorem Contiguous.chainMinCluster_eq (h : Contiguous chain) (hne : chain ≠ [])
    (hlt : chain.headD 0 < 4294967296) : chainMinCluster chain = chain.headD 0 := by
  have hlen := length_pos_iff.2 hne
  rw [contiguous_iff.1 h, chainMinCluster, foldl_min_range', if_neg hlen.ne', ← contiguous_iff.1 h]
  omega

theorem Contiguous.mem_iff (h : Contiguous chain) {c : ℕ} :
    c ∈ chain ↔ chain.headD 0 ≤ c ∧ c < chain.headD 0 + chain.length := by
  conv_lhs => rw [contiguous_iff.1 h]
  exact mem_range'_1

section Canonical

variable {fs : Fat32} {percent : ℕ} {root : List ℕ} {s : ScanState}

/-- The chains of a scanned volume lie in the data area. -/
theorem Scanned.range (hl : fs.Layout) (hroot : filesystemRootChain fs = .ok root)
    (hs : Scanned fs root s) : ∀ c ∈ s.claimed, 2 ≤ c ∧ c ≤ fs.maxCluster := by
  have hread : ∀ {first : ℕ} {chain : List ℕ}, fat32ReadChain fs first = .ok chain →
      ∀ c ∈ chain, 2 ≤ c ∧ c ≤ fs.maxCluster := by
    intro first chain hchain
    have hchain := (fat32ReadChain_eq_ok hl).1 hchain
    split_ifs at hchain with hzero
    · simp [hchain]
    · exact hchain.range
  intro c hc
  rw [hs.claimed, mem_append, mem_flatMap] at hc
  rcases hc with hc | ⟨f, hf, hc⟩
  · rw [filesystemRootChain] at hroot
    split_ifs at hroot
    · obtain rfl := ok.inj hroot
      exact absurd hc not_mem_nil
    · exact hread hroot c hc
  · exact hread (hs.chain f hf) c hc

theorem Scanned.head_range (hl : fs.Layout) (hroot : filesystemRootChain fs = .ok root)
    (hs : Scanned fs root s) (hsrc : chain = root ∨ ∃ f ∈ s.files, chain = f.chain)
    (hcont : Contiguous chain) (hne : chain ≠ []) :
    2 ≤ chain.headD 0 ∧ chainMinCluster chain = chain.headD 0 := by
  have hmem : chain.headD 0 ∈ chain := by
    rw [hcont.mem_iff]
    have := length_pos_iff.2 hne
    omega
  have hclaimed : chain.headD 0 ∈ s.claimed := by
    rw [hs.claimed, mem_append, mem_flatMap]
    rcases hsrc with rfl | ⟨f, hf, rfl⟩
    · exact .inl hmem
    · exact .inr ⟨f, hf, hmem⟩
  obtain ⟨hge, hle⟩ := hs.range hl hroot _ hclaimed
  have hlt : fs.fatEntryCount < 4294967296 := hl.fatEntryCount ▸ Nat.mod_lt _ (by decide)
  have := hl.maxCluster_lt
  exact ⟨hge, hcont.chainMinCluster_eq hne (by omega)⟩

/-- Where the plan puts the object of a chain, if it puts every object where it is. -/
theorem exists_planned {objects os : List GrowthObject} {last : ℕ}
    (hplan : Planned fs percent (fs.maxCluster + 1) 2 objects os last)
    (hat : ∀ o ∈ os, o.target = o.physicalFirst) (ho : o ∈ objects) :
    ∃ o' ∈ os, o'.target = o.physicalFirst ∧ o'.clusters = o.clusters ∧
      o'.reserveAfter = o.reserveFor percent := by
  obtain ⟨o', ho', heq⟩ := exists_of_mem_forall₂ hplan.forall₂.flip ho
  refine ⟨o', ho', ?_, ?_, ?_⟩
  · rw [hat o' ho', heq]
  · rw [heq]
  · rw [heq]

/-- Every claimed cluster is in the chain of an object. -/
theorem exists_object_of_mem {c : ℕ} (hc : c ∈ root ++ files.flatMap FileRecord.chain) :
    ∃ chain o, c ∈ chain ∧ (chain = root ∨ ∃ f ∈ files, chain = f.chain) ∧
      o ∈ sortedGrowthObjects root files ∧ o.physicalFirst = chainMinCluster chain ∧
      o.clusters = chain.length := by
  rw [mem_append, mem_flatMap] at hc
  rcases hc with hc | ⟨f, hf, hc⟩
  · refine ⟨root, rootGrowthObject root, hc, .inl rfl, ?_, rfl, rfl⟩
    exact mem_sortedGrowthObjects.2
      (mem_pushedGrowthObjects.2 (.inl ⟨ne_nil_of_mem hc, rfl⟩))
  · refine ⟨f.chain, f.growthObject, hc, .inr ⟨f, hf, rfl⟩, ?_, rfl, rfl⟩
    exact mem_sortedGrowthObjects.2
      (mem_pushedGrowthObjects.2 (.inr ⟨f, hf, ne_nil_of_mem hc, rfl⟩))

/-- **On a volume without fragments the second check implies the reserves.** A cluster of a planned
reserve that is not free would belong to some chain, and the object of that chain would have been
planned elsewhere. -/
theorem canonical_reserves (hl : fs.Layout) (hroot : filesystemRootChain fs = .ok root)
    (hs : Scanned fs root s) (hlost : NoLostClusters fs s.claimed) (hcroot : Contiguous root)
    (hcont : ∀ f ∈ s.files, Contiguous f.chain)
    (hplan : LowestClustersPlanned fs percent (sortedGrowthObjects root s.files)) :
    ∀ f ∈ s.files, HasReserve fs percent f := by
  intro f hf
  by_cases hnil : f.chain = []
  · exact (settled_of_nil hnil).2
  intro hreg
  obtain ⟨os, last, hplan, hat⟩ := hplan
  -- the plan keeps the file where it is
  obtain ⟨o, ho, htarget, hclusters, hreserve⟩ := exists_planned hplan hat
    (mem_sortedGrowthObjects.2 (mem_pushedGrowthObjects.2 (.inr ⟨f, hf, hnil, rfl⟩)))
  obtain ⟨hge, hmin⟩ := hs.head_range hl hroot (.inr ⟨f, hf, rfl⟩) (hcont f hf) hnil
  obtain ⟨k, hrun, hfits, hapart⟩ := hplan.reserve_apart ho
  have hstart : o.target + o.clusters = f.chain.headD 0 + f.chain.length := by
    rw [htarget, hclusters]
    exact congrArg (· + f.chain.length) hmin
  rw [hstart] at hrun hfits hapart
  refine ⟨k, hfits, ?_, fun c hc hlt hbar ↦ ?_⟩
  · rw [hrun.count, hreserve, GrowthObject.reserveFor, FileRecord.growthObject, hreg]
    exact le_rfl
  -- an allocated cluster of the reserve would be in the chain of a planned object
  by_contra hused
  have hne : fs.value c ≠ 0 := by simpa [Fat32.fatIsFree] using hused
  have hgood : fs.value c ≠ fs.fatType.badValue := by simpa [growthClusterIsBarrier] using hbar
  have hmem := (hlost c (by omega) (by omega) hne hgood).2
  rw [hs.claimed] at hmem
  obtain ⟨chain, p, hcp, hsrc, hp, hpmin, hplen⟩ := exists_object_of_mem hmem
  have hcontp : Contiguous chain := by
    rcases hsrc with rfl | ⟨g, hg, rfl⟩
    · exact hcroot
    · exact hcont g hg
  obtain ⟨-, hminp⟩ := hs.head_range hl hroot hsrc hcontp (ne_nil_of_mem hcp)
  obtain ⟨o', ho', htarget', hclusters', -⟩ := exists_planned hplan hat hp
  rw [hpmin, hminp] at htarget'
  rw [hplen] at hclusters'
  have hin := hcontp.mem_iff.1 hcp
  rcases hapart o' ho' with rfl | hbefore | hbehind
  · omega
  · omega
  · omega

end Canonical

/-! ### The verdict -/

/-- The engine says that the growth layout is there: `growth_defrag_volume` reports
`already_satisfied`, or the map reports `growth_10_satisfied`. -/
def ReportsSatisfied (fs : Fat32) (percent : ℕ) : Prop :=
  (∃ o stats, growthDefragOpening fs percent = .ok o ∧ o.answer = some stats ∧
      stats.alreadySatisfied = true) ∨
    (percent = 10 ∧ ∃ s, scanFiles fs = .ok s ∧
      growthLayoutSatisfiedForMap fs s.files 10 = .ok true)

/-- **The layouts that mislead the verdict.** The root directory is contiguous, every object has its
lowest cluster where the plan puts it, and in scan order a file whose reserve is short comes before
everything that is fragmented, with something fragmented behind it. -/
structure MisledLayout (fs : Fat32) (root : List ℕ) (files : List FileRecord) (percent : ℕ) :
    Prop where
  root_contiguous : Contiguous root
  lowest : LowestClustersPlanned fs percent (sortedGrowthObjects root files)
  short_first : ∃ pre f post, files = pre ++ f :: post ∧ (∀ g ∈ pre, Settled fs percent g) ∧
    Contiguous f.chain ∧ ¬HasReserve fs percent f ∧ ∃ g ∈ post, ¬Contiguous g.chain

section Verdict

variable {fs : Fat32} {percent : ℕ} {root : List ℕ} {s : ScanState}

/-- What both answers come down to, given what the preflight found. -/
def Verdict (fs : Fat32) (root : List ℕ) (files : List FileRecord) (percent : ℕ)
    (issue : GrowthPreflightIssue) : Prop :=
  issue = .ok ∨ (issue.triesCanonical = true ∧ allocatedFiles files ≠ [] ∧
    (growthLayoutMatchesCanonical fs (sortedGrowthObjects root files) percent).isSome = true)

open Classical in
section

variable (hroot : filesystemRootChain fs = .ok root)
include hroot

/-- The preflight with its look at the root directory. -/
theorem growthLayoutPreflight_eq_ok (hmax : ∀ f ∈ files, ∀ c ∈ f.chain, c ≤ fs.maxCluster) :
    ∃ r, growthLayoutPreflight fs files percent = .ok r ∧ r.issue =
      if Contiguous root then
        match files.find? fun f ↦ ¬Settled fs percent f with
        | none => if (allocatedFiles files).length = 0 then .noFiles else .ok
        | some f => if Contiguous f.chain then .reserveShort else .objectFragmented
      else .rootFragmented := by
  have hfrag : (root ≠ [] ∧ chainIsExactRun root (root.headD 0) = false) ↔ ¬Contiguous root := by
    by_cases hne : root = []
    · exact iff_of_false (fun h ↦ h.1 hne) (not_not.2 ⟨0, by rw [hne]; rfl⟩)
    · rw [← chainIsExactRun_head hne, Bool.not_eq_true]
      exact and_iff_right hne
  rw [growthLayoutPreflight, hroot, ok_bind]
  simp only [hfrag]
  by_cases hcont : Contiguous root
  · rw [if_neg (not_not.2 hcont), if_pos hcont]
    refine ⟨_, rfl, (preflightFiles_issue hmax).trans ?_⟩
    rw [Nat.zero_add]
  · rw [if_pos hcont, if_neg hcont]
    exact ⟨_, rfl, rfl⟩

theorem buildGrowthObjects_eq_ok : ∃ os, buildGrowthObjects fs files = .ok os ∧
      os.objects = sortedGrowthObjects root files ∧
      os.regularFiles = (allocatedFiles files).length := by
  rw [buildGrowthObjects, hroot, ok_bind]
  exact ⟨_, rfl, rfl, rfl⟩

theorem growthLayoutSatisfiedForMap_iff (hr : growthLayoutPreflight fs files percent = .ok r) :
    growthLayoutSatisfiedForMap fs files percent = .ok true ↔
      Verdict fs root files percent r.issue := by
  obtain ⟨os, hos, hobjects, hregular⟩ : ∃ os, buildGrowthObjects fs files = .ok os ∧ _ ∧ _ :=
    buildGrowthObjects_eq_ok hroot
  rw [growthLayoutSatisfiedForMap, hr, ok_bind, Verdict]
  by_cases htry : r.issue.triesCanonical = true
  · have hne : r.issue ≠ .ok := by
      rintro heq
      rw [heq] at htry
      exact Bool.false_ne_true htry
    rw [if_pos htry, hos, ok_bind, hobjects, hregular]
    by_cases hreg : allocatedFiles files = []
    · rw [hreg, length_nil, if_neg (not_not.2 rfl)]
      exact iff_of_false (fun h ↦ by cases h) (by simp [hne])
    · rw [if_pos fun h ↦ hreg (length_eq_zero_iff.1 h)]
      rw [pure_eq_ok, ok.injEq]
      simp [hne, htry, hreg]
  · rw [if_neg htry, pure_eq_ok, ok.injEq]
    simp [htry]

end

theorem growthDefragOpening_iff (hs : scanFiles fs = .ok s)
    (hroot : filesystemRootChain fs = .ok root) (hp : 1 ≤ percent ∧ percent ≤ 25)
    (hr : growthLayoutPreflight fs s.files percent = .ok r) :
    (∃ o stats, growthDefragOpening fs percent = .ok o ∧ o.answer = some stats ∧
      stats.alreadySatisfied = true) ↔ Verdict fs root s.files percent r.issue := by
  obtain ⟨os, hos, hobjects, hregular⟩ : ∃ os, buildGrowthObjects fs s.files = .ok os ∧ _ ∧ _ :=
    buildGrowthObjects_eq_ok hroot
  rw [growthDefragOpening, dieIf_bind_of_not (by omega), hs, ok_bind, hos, ok_bind, hr, ok_bind,
    hobjects, hregular]
  have hcanonical : (if (allocatedFiles s.files).length ≠ 0 ∧ r.issue.triesCanonical = true then
      growthLayoutMatchesCanonical fs (sortedGrowthObjects root s.files) percent else none).isSome =
        true ↔ r.issue.triesCanonical = true ∧ allocatedFiles s.files ≠ [] ∧
      (growthLayoutMatchesCanonical fs (sortedGrowthObjects root s.files) percent).isSome =
        true := by
    split_ifs with h
    · exact ⟨fun h' ↦ ⟨h.2, fun hnil ↦ h.1 (length_eq_zero_iff.2 hnil), h'⟩, fun h' ↦ h'.2.2⟩
    · refine iff_of_false (fun h' ↦ by cases h') fun h' ↦ h ⟨?_, h'.1⟩
      exact fun hlen ↦ h'.2.1 (length_eq_zero_iff.1 hlen)
  rw [Verdict, ← hcanonical]
  constructor
  · rintro ⟨o, stats, ho, hanswer, -⟩
    obtain rfl := ok.inj ho
    exact (Option.ite_none_right_eq_some.1 hanswer).1
  · intro h
    exact ⟨_, _, rfl, if_pos h, rfl⟩

/-- **Both commands answer by the same verdict.** -/
theorem reportsSatisfied_iff (hs : scanFiles fs = .ok s) (hroot : filesystemRootChain fs = .ok root)
    (hp : 1 ≤ percent ∧ percent ≤ 25) (hr : growthLayoutPreflight fs s.files percent = .ok r) :
    ReportsSatisfied fs percent ↔ Verdict fs root s.files percent r.issue := by
  rw [ReportsSatisfied, growthDefragOpening_iff hs hroot hp hr]
  refine or_iff_left_of_imp ?_
  rintro ⟨rfl, s', hs', h⟩
  obtain rfl := ok.inj (hs.symm.trans hs')
  exact (growthLayoutSatisfiedForMap_iff hroot hr).1 h

/-- A file that is not settled although its chain is contiguous is a regular file with clusters. -/
theorem allocatedFiles_ne_nil (hf : f ∈ files) (hshort : ¬HasReserve fs percent f) :
    allocatedFiles files ≠ [] := by
  refine ne_nil_of_mem (mem_filter.2 ⟨hf, decide_eq_true ⟨fun hnil ↦ ?_, ?_⟩⟩)
  · exact hshort (settled_of_nil hnil).2
  · by_contra hdir
    exact hshort fun hreg ↦ absurd hreg hdir

open Classical in
/-- **When the verdict is positive**: everything is settled, or the first file in scan order that is
not settled is contiguous and the lowest clusters are as planned. -/
theorem verdict_iff (hissue : r.issue =
      if Contiguous root then
        match files.find? fun f ↦ ¬Settled fs percent f with
        | none => if (allocatedFiles files).length = 0 then .noFiles else .ok
        | some f => if Contiguous f.chain then .reserveShort else .objectFragmented
      else .rootFragmented) :
    Verdict fs root files percent r.issue ↔ Contiguous root ∧
      ((allocatedFiles files ≠ [] ∧ ∀ f ∈ files, Settled fs percent f) ∨
        ((∃ pre f post, files = pre ++ f :: post ∧ (∀ g ∈ pre, Settled fs percent g) ∧
            Contiguous f.chain ∧ ¬HasReserve fs percent f) ∧
          LowestClustersPlanned fs percent (sortedGrowthObjects root files))) := by
  rw [hissue]
  by_cases hcroot : Contiguous root
  swap
  · rw [if_neg hcroot]
    exact iff_of_false (by simp [Verdict, GrowthPreflightIssue.triesCanonical]) fun h ↦ hcroot h.1
  rw [if_pos hcroot, and_iff_right hcroot]
  cases hfind : files.find? fun f ↦ ¬Settled fs percent f with
  | none =>
    have hall : ∀ f ∈ files, Settled fs percent f := by simpa using hfind
    simp only [length_eq_zero_iff]
    by_cases hnil : allocatedFiles files = []
    · rw [if_pos hnil]
      refine iff_of_false (by simp [Verdict, hnil]) ?_
      rintro (⟨hne, -⟩ | ⟨⟨pre, f, post, rfl, -, -, hshort⟩, -⟩)
      · exact hne hnil
      · exact hshort (hall f (by simp)).2
    · rw [if_neg hnil]
      exact iff_of_true (.inl rfl) (.inl ⟨hnil, hall⟩)
  | some f =>
    obtain ⟨hf, pre, post, rfl, hpre⟩ := find?_eq_some_iff_append.1 hfind
    have hf : ¬Settled fs percent f := of_decide_eq_true hf
    have hpre : ∀ g ∈ pre, Settled fs percent g := by simpa using hpre
    have hmem : f ∈ pre ++ f :: post := by simp
    dsimp only
    by_cases hcf : Contiguous f.chain
    · have hshort : ¬HasReserve fs percent f := fun h ↦ hf ⟨hcf, h⟩
      have hne := allocatedFiles_ne_nil hmem hshort
      have hobjects : sortedGrowthObjects root (pre ++ f :: post) ≠ [] := by
        refine ne_nil_of_mem (mem_sortedGrowthObjects.2 (mem_pushedGrowthObjects.2
          (.inr ⟨f, hmem, fun hnil ↦ hshort (settled_of_nil hnil).2, rfl⟩)))
      rw [if_pos hcf, Verdict, growthLayoutMatchesCanonical_isSome clusters_pos_of_mem hobjects]
      constructor
      · rintro (h | ⟨-, -, hlow⟩)
        · cases h
        · exact .inr ⟨⟨pre, f, post, rfl, hpre, hcf, hshort⟩, hlow⟩
      · rintro (⟨-, hall⟩ | ⟨-, hlow⟩)
        · exact absurd (hall f hmem) hf
        · exact .inr ⟨rfl, hne, hlow⟩
    · rw [if_neg hcf]
      refine iff_of_false (by simp [Verdict, GrowthPreflightIssue.triesCanonical]) ?_
      rintro (⟨-, hall⟩ | ⟨⟨pre', f', post', hsplit, hpre', hcf', hshort⟩, -⟩)
      · exact hf (hall f hmem)
      -- the first file that is not settled is only one
      · have hfind' : (pre ++ f :: post).find? (fun f ↦ ¬Settled fs percent f) = some f' :=
          find?_eq_some_iff_append.2 ⟨decide_eq_true fun h ↦ hshort h.2, pre', post', hsplit,
            fun g hg ↦ by simpa using hpre' g hg⟩
        obtain rfl := Option.some.inj (hfind.symm.trans hfind')
        exact hcf hcf'

/-- **The growth verdict is right on every volume except the misled layouts.** -/
theorem growth_verdict_sound_iff (hl : fs.Layout) (hs : scanFiles fs = .ok s)
    (hroot : filesystemRootChain fs = .ok root) (hp : 1 ≤ percent ∧ percent ≤ 25) :
    (ReportsSatisfied fs percent → GrowthSatisfied fs root s.files percent) ↔
      ¬MisledLayout fs root s.files percent := by
  obtain ⟨root', hroot', hscan, hlost⟩ := scanFiles_scanned hl hs
  obtain rfl := ok.inj (hroot.symm.trans hroot')
  have hmax : ∀ f ∈ s.files, ∀ c ∈ f.chain, c ≤ fs.maxCluster := fun f hf c hc ↦
    (hscan.range hl hroot c (hscan.claimed ▸
      mem_append_right _ (mem_flatMap.2 ⟨f, hf, hc⟩))).2
  obtain ⟨r, hr, hissue⟩ : ∃ r, growthLayoutPreflight fs s.files percent = .ok r ∧ _ :=
    growthLayoutPreflight_eq_ok hroot hmax
  rw [reportsSatisfied_iff hs hroot hp hr, verdict_iff hissue]
  constructor
  · rintro hsound ⟨hcroot, hlow, pre, f, post, hfiles, hpre, hcf, hshort, g, hg, hfrag⟩
    have hsat := hsound ⟨hcroot, .inr ⟨⟨pre, f, post, hfiles, hpre, hcf, hshort⟩, hlow⟩⟩
    refine hfrag (hsat.contiguous g ?_)
    rw [hfiles]
    exact mem_append_right _ (mem_cons_of_mem _ hg)
  · rintro hmisled ⟨hcroot, ⟨-, hall⟩ | ⟨⟨pre, f, post, hfiles, hpre, hcf, hshort⟩, hlow⟩⟩
    · exact ⟨hcroot, fun f hf ↦ (hall f hf).1, fun f hf ↦ (hall f hf).2⟩
    -- nothing behind the short file is fragmented, so the second check contradicts the first
    have hpost : ∀ g ∈ post, Contiguous g.chain := by
      by_contra hfrag
      push Not at hfrag
      exact hmisled ⟨hcroot, hlow, pre, f, post, hfiles, hpre, hcf, hshort, hfrag⟩
    have hcont : ∀ g ∈ s.files, Contiguous g.chain := by
      intro g hg
      rw [hfiles, mem_append, mem_cons] at hg
      rcases hg with hg | rfl | hg
      · exact (hpre g hg).1
      · exact hcf
      · exact hpost g hg
    refine absurd (canonical_reserves hl hroot hscan hlost hcroot hcont hlow f ?_) hshort
    rw [hfiles]
    exact mem_append_right _ mem_cons_self

end Verdict

/-- File `A` is cluster 5; file `B`, which the root directory lists behind it, is clusters 2 and
6. -/
def interleavedDevice : Device :=
  floppy [0xF8, 0xFF, 0xFF, 0x06, 0x00, 0x00, 0x00, 0xF0, 0xFF, 0xFF, 0x0F]
    (fileEntry 0x41 5 1 ++ fileEntry 0x42 2 600)

/-- What the scan of that volume returns. -/
def interleavedScan : ScanState where
  files := [⟨[0x41], 1024, 5, 1, 0x20, false, [5]⟩, ⟨[0x42], 1056, 2, 600, 0x20, false, [2, 6]⟩]
  dirRefs := [⟨1024, 5⟩, ⟨1056, 2⟩]
  visited := []
  claimed := [5, 2, 6]

theorem scanFiles_interleavedDevice :
    scanFiles (floppyVolume interleavedDevice) = .ok interleavedScan := by
  decide +kernel

/-- **A fragmented volume is reported as satisfied**, by growth defragmentation and by the map. -/
theorem growth_verdict_misled :
    fat32Load 2 interleavedDevice false = .ok (floppyVolume interleavedDevice) ∧
      scanFiles (floppyVolume interleavedDevice) = .ok interleavedScan ∧
      filesystemRootChain (floppyVolume interleavedDevice) = .ok [] ∧
      (∃ objects, growthDefragOpening (floppyVolume interleavedDevice) 10 =
        .ok ⟨interleavedScan.files, objects, some {
          alreadySatisfied := true, canonicalLayoutVerified := true, appliedPercent := 10
          reserveClusters := 2, checkedFiles := 2 }⟩) ∧
      growthLayoutSatisfiedForMap (floppyVolume interleavedDevice) interleavedScan.files 10 =
        .ok true ∧
      ¬GrowthSatisfied (floppyVolume interleavedDevice) [] interleavedScan.files 10 := by
  refine ⟨rfl, scanFiles_interleavedDevice, rfl, ⟨⟨[⟨false, false, [0x42], 2, 2, 0, 0⟩,
    ⟨false, false, [0x41], 1, 5, 0, 0⟩], 2, 3, 2, 0⟩, by decide +kernel⟩, by decide +kernel,
    fun h ↦ ?_⟩
  exact absurd (h.contiguous _ (mem_cons_of_mem _ mem_cons_self)) (by decide)

theorem growth_verdict_interleaved :
    (ReportsSatisfied (floppyVolume interleavedDevice) 10 →
      GrowthSatisfied (floppyVolume interleavedDevice) [] interleavedScan.files 10) ↔
    ¬MisledLayout (floppyVolume interleavedDevice) [] interleavedScan.files 10 :=
  have hload : fat32Load 2 interleavedDevice false = .ok (floppyVolume interleavedDevice) := rfl
  growth_verdict_sound_iff (fat32Load_loaded hload).1.toLayout scanFiles_interleavedDevice rfl
    (by decide)

end LinuxDefragger.Fat
