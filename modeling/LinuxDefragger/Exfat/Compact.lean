import LinuxDefragger.Exfat.Consistent
import Mathlib.Algebra.Order.BigOperators.Group.List
import Mathlib.Data.List.MinMax

/-!
# Compacting an exFAT volume

`compact` fills the lowest free cluster with the highest cluster that an object owns, one cluster at
a time, until no free cluster is left below an owned one. After every move the device is opened and
parsed again.

On a consistent volume every round works and keeps the volume consistent, so the run ends
(`compact_end_state`): the owned clusters have moved down, and an object without a FAT chain is as
it was or has a complete one. A second run moves nothing (`compact_idempotent`).
-/

open List Storage

namespace LinuxDefragger.Exfat

/-! ### The engine's loop -/

/-- A cluster with the entry it belongs to and its index there. -/
structure Owner where
  cluster : ℕ
  entry : Entry
  index : ℕ

/-- The two clusters of a move. -/
structure Move where
  source : ℕ
  destination : ℕ
  deriving DecidableEq

/-- The `owners` of all clusters. -/
def owners (entries : List Entry) : List Owner :=
  entries.flatMap fun e ↦ e.clusters.zipIdx.map fun c ↦ ⟨c.1, e, c.2⟩

namespace Volume

/-- `next((cluster for cluster in range(2,source) if not v.bit(cluster)),None)` -/
def nextFree (v : Volume) : List ℕ → Except PyError (Option ℕ)
  | [] => pure none
  | c :: rest => do if ← v.bit c then v.nextFree rest else return some c

/-- The cluster that a round moves and where it goes: the highest one with an owner and the lowest
free one below it. -/
def compactChoice (v : Volume) : Except PyError (Option (Owner × ℕ)) := do
  let entries := (← v.parse).filter fun e ↦ e.clusters ≠ []
  match (owners entries).argmax Owner.cluster with
  | none => return none
  | some o => return (← v.nextFree (List.range' 2 (o.cluster - 2))).map (o, ·)

/-- One round of `command` for `compact`: the move it made, and the volume opened again after it. -/
def compactRound (v : Volume) : Except PyError (Option (Move × Volume)) := do
  match ← v.compactChoice with
  | none => return none
  | some (o, destination) =>
    let moved ← v.moveTailCluster o.entry o.index destination
    return some (⟨o.cluster, destination⟩, ← Volume.open moved.device true)

/-- The loop of `command` for `compact`, after the moves in `moves`. `stop` says whether `STOP` is
set after so many moves; `none` is the result of a loop that has not ended in so many rounds. -/
def compactLoop (stop : ℕ → Bool) (maxFiles : Option ℤ) :
    ℕ → Volume → List Move → Except PyError (Option (Volume × List Move))
  | 0, _, _ => return none
  | fuel + 1, v, moves => do
    if stop moves.length then return some (v, moves)
    match ← v.compactRound with
    | none => return some (v, moves)
    | some (move, v) =>
      let moves := moves ++ [move]
      if maxFiles.any fun limit ↦ limit ≠ 0 ∧ limit ≤ (moves.length : ℤ) then return some (v, moves)
      compactLoop stop maxFiles fuel v moves

end Volume

/-- `command` for `compact`. -/
def compactCommand (mounted journalExists : Bool) (stop : ℕ → Bool) (maxFiles : Option ℤ) (fuel : ℕ)
    (d : Device) : Except PyError (Option (Volume × List Move)) := do
  raiseIf (mounted = true) "refusing to modify a mounted exFAT volume" []
  raiseIf (journalExists = true) "unfinished journal exists; run recover" []
  let v ← Volume.open d true
  v.compactLoop stop maxFiles fuel []

/-! ### The choice of a round -/

theorem mem_owners {entries : List Entry} {o : Owner} :
    o ∈ owners entries ↔ o.entry ∈ entries ∧ o.entry.clusters[o.index]? = some o.cluster := by
  obtain ⟨cluster, entry, index⟩ := o
  simp only [owners, mem_flatMap, mem_map, Owner.mk.injEq, Prod.exists, mem_zipIdx_iff_getElem?]
  constructor
  · rintro ⟨e, he, c, k, hc, rfl, rfl, rfl⟩
    exact ⟨he, hc⟩
  · rintro ⟨he, hc⟩
    exact ⟨entry, he, cluster, index, hc, rfl, rfl, rfl⟩

namespace Volume

variable {v v' : Volume} {entries : List Entry} {e : Entry} {index source destination : ℕ}

theorem nextFree_eq_ok (hlayout : v.Layout) :
    ∀ {clusters : List ℕ}, (∀ c ∈ clusters, v.IsCluster c) →
      v.nextFree clusters = .ok (clusters.find? fun c ↦ !v.isSet c)
  | [], _ => rfl
  | c :: rest, h => by
    unfold nextFree
    rw [bit_eq_isSet (hlayout.bit_lt (h c mem_cons_self)), ok_bind, find?_cons]
    cases v.isSet c with
    | true => exact nextFree_eq_ok hlayout fun c' hc' ↦ h c' (mem_cons_of_mem c hc')
    | false => rfl

/-- No cluster below an owned one is free. -/
def Packed (v : Volume) (entries : List Entry) : Prop :=
  ∀ e ∈ entries, ∀ c ∈ e.clusters, ∀ f, 2 ≤ f → f < c → v.isSet f = true

/-- **The choice of a round**: either there is nothing to do, or an owned cluster goes to a free
one. -/
theorem Consistent.compactChoice_spec (h : v.Consistent entries) :
    (v.compactChoice = .ok none ∧ v.Packed entries) ∨
      ∃ o destination, v.compactChoice = .ok (some (o, destination)) ∧ o.entry ∈ entries ∧
        o.entry.clusters[o.index]? = some o.cluster ∧ v.IsCluster destination ∧
        destination < o.cluster ∧ v.isSet destination = false := by
  have hmem : ∀ {e c}, e ∈ entries → c ∈ e.clusters →
      ∃ o ∈ owners (entries.filter fun e ↦ e.clusters ≠ []), o.cluster = c := by
    intro e c he hc
    obtain ⟨k, hk⟩ := mem_iff_getElem?.1 hc
    refine ⟨⟨c, e, k⟩, mem_owners.2 ⟨mem_filter.2 ⟨he, ?_⟩, hk⟩, rfl⟩
    exact decide_eq_true (ne_nil_of_mem hc)
  unfold compactChoice
  rw [h.parsed, ok_bind]
  dsimp only
  cases hmax : (owners (entries.filter fun e ↦ e.clusters ≠ [])).argmax Owner.cluster with
  | none =>
    refine .inl ⟨rfl, fun e he c hc ↦ ?_⟩
    obtain ⟨o, ho, -⟩ := hmem he hc
    rw [argmax_eq_none.1 hmax] at ho
    cases ho
  | some o =>
    obtain ⟨ho, hindex⟩ := mem_owners.1 (argmax_mem hmax)
    have ho := (mem_filter.1 ho).1
    have hsource := h.isCluster _ ho _ (mem_of_getElem? hindex)
    have hrange : ∀ c, c ∈ range' 2 (o.cluster - 2) ↔ 2 ≤ c ∧ c < o.cluster := by
      intro c
      rw [mem_range'_1]
      have := hsource.1
      omega
    have hclusters : ∀ c ∈ range' 2 (o.cluster - 2), v.IsCluster c := fun c hc ↦
      ⟨((hrange c).1 hc).1, ((hrange c).1 hc).2.trans hsource.2⟩
    dsimp only
    rw [nextFree_eq_ok h.layout hclusters, ok_bind]
    cases hfree : (range' 2 (o.cluster - 2)).find? fun c ↦ !v.isSet c with
    | none =>
      refine .inl ⟨rfl, fun e he c hc f hf hfc ↦ ?_⟩
      obtain ⟨o', ho', rfl⟩ := hmem he hc
      have hle := le_of_mem_argmax ho' hmax
      have := find?_eq_none.1 hfree f ((hrange f).2 ⟨hf, hfc.trans_le hle⟩)
      simpa using this
    | some destination =>
      have hin := (hrange destination).1 (mem_of_find?_eq_some hfree)
      have hunset := find?_some hfree
      exact .inr ⟨o, destination, rfl, ho, hindex, ⟨hin.1, hin.2.trans hsource.2⟩,
        hin.2, by simpa using hunset⟩

/-! ### What a move does to the objects -/

end Volume

/-- Where a cluster is after the move. -/
def Move.apply (m : Move) (c : ℕ) : ℕ := if c = m.source then m.destination else c

/-- Where a cluster is after all moves. -/
def finalPlace (moves : List Move) (c : ℕ) : ℕ := moves.foldl (fun c m ↦ m.apply c) c

theorem finalPlace_append (moves moves' : List Move) :
    finalPlace (moves ++ moves') = finalPlace moves' ∘ finalPlace moves :=
  funext fun _ ↦ foldl_append

namespace Volume

variable {v v' : Volume} {entries : List Entry} {e : Entry} {index source destination : ℕ}

/-- **What the moves keep of an object.** Its clusters are the places of the old ones, in the same
order. It is where it was, or it has a FAT chain now; this chain ends with the end mark if the old
one did, or if there was none. -/
structure Kept (v v' : Volume) (moves : List Move) (x y : Entry) : Prop where
  path : y.path = x.path
  isDir : y.isDir = x.isDir
  length : y.length = x.length
  clusters : y.clusters = x.clusters.map (finalPlace moves)
  nofat : (y.nofat = x.nofat ∧ y.clusters = x.clusters) ∨ (y.nofat = false ∧ y.clusters ≠ [])
  linked : y.nofat = false → x.nofat = true ∨ LinkedTo v.fat EOC x.clusters →
    LinkedTo v'.fat EOC y.clusters
  contents : x.isDir = false → readClusters v'.device v'.boot y.clusters =
    readClusters v.device v.boot x.clusters

theorem Kept.refl (v : Volume) (x : Entry) : Kept v v [] x x where
  path := rfl
  isDir := rfl
  length := rfl
  clusters := (map_id _).symm
  nofat := .inl ⟨rfl, rfl⟩
  linked h := fun hlinked ↦ hlinked.resolve_left (by rw [h]; decide)
  contents _ := rfl

theorem Kept.trans {v'' : Volume} {moves moves' : List Move} {x y z : Entry}
    (h : Kept v v' moves x y)
    (h' : Kept v' v'' moves' y z) : Kept v v'' (moves ++ moves') x z where
  path := h'.path.trans h.path
  isDir := h'.isDir.trans h.isDir
  length := h'.length.trans h.length
  clusters := by rw [h'.clusters, h.clusters, map_map, finalPlace_append]
  nofat := by
    rcases h'.nofat with ⟨hzy, hclusters⟩ | hz
    · rcases h.nofat with ⟨hyx, hclusters'⟩ | ⟨hy, hne⟩
      · exact .inl ⟨hzy.trans hyx, hclusters.trans hclusters'⟩
      · exact .inr ⟨hzy.trans hy, hclusters ▸ hne⟩
    · exact .inr hz
  linked hz hx := by
    refine h'.linked hz ?_
    cases hy : y.nofat with
    | true => exact .inl rfl
    | false => exact .inr (h.linked hy hx)
  contents hx := (h'.contents (h.isDir.trans hx)).trans (h.contents hx)

/-- The clusters of the moved object. -/
theorem MoveReady.set_eq_map {data : List UInt8} {s : FileSet}
    (h : v.MoveReady e index source destination data s) :
    e.clusters.set index destination = e.clusters.map (Move.apply ⟨source, destination⟩) := by
  refine ext_getElem (by simp) fun k hk hk' ↦ ?_
  rw [length_set] at hk
  obtain ⟨hindex, hsource⟩ := List.getElem?_eq_some_iff.1 h.source_eq
  have hiff : e.clusters[k] = source ↔ index = k := by
    rw [← hsource, h.nodup.getElem_inj_iff, eq_comm]
  rw [getElem_set, getElem_map, Move.apply]
  simp only [hiff]

/-- The sum of all owned clusters, which every move lowers. -/
def ownedTotal (entries : List Entry) : ℕ := (entries.map fun e ↦ e.clusters.sum).sum

namespace Consistent

section Moved

variable {data : List UInt8} {s : FileSet} (h : v.Consistent entries) (he : e ∈ entries)
  (hready : v.MoveReady e index source destination data s) {x : Entry}
include h he hready

/-- The clusters of the objects after a move. -/
theorem apply_clusters_eq_map (hplaces : ∀ x ∈ entries, SamePlace x e → x = e) (hx : x ∈ entries) :
    ((tailRelocation e index destination).apply x).clusters =
      x.clusters.map (Move.apply ⟨source, destination⟩) := by
  rw [apply_clusters hplaces hx]
  split_ifs with hxe
  · rw [hxe, hready.set_eq_map]
  · -- the source is not one of its clusters
    have hid : ∀ c ∈ x.clusters, Move.apply ⟨source, destination⟩ c = c := by
      intro c hc
      refine if_neg ?_
      rintro rfl
      exact h.disjoint hx he hxe hc hready.source_mem
    rw [map_congr_left hid, map_id']

/-- **What a move keeps.** -/
theorem kept (hmoved : TailMoved v v' e index source destination data) (hx : x ∈ entries) :
    Kept v v' [⟨source, destination⟩] x ((tailRelocation e index destination).apply x) := by
  obtain ⟨root, hroot, hrootChain, hlisted, hdiff⟩ := h.tree (ne_nil_of_mem he)
  have hplaces : ∀ x ∈ entries, SamePlace x e → x = e :=
    (h.carried he hready hmoved hroot hrootChain hlisted hdiff).places
  have hclusters : ((tailRelocation e index destination).apply x).clusters = _ :=
    apply_clusters hplaces hx
  have hnofat : ((tailRelocation e index destination).apply x).nofat = _ := apply_nofat hplaces hx
  refine ⟨Relocation.apply_path .., Relocation.apply_isDir .., Relocation.apply_length ..,
    h.apply_clusters_eq_map he hready hplaces hx, ?_, ?_, ?_⟩
  · rw [hnofat, hclusters]
    split_ifs with hxe
    · exact .inr ⟨rfl, mt (set_eq_nil_iff ..).1 (ne_nil_of_head hready.head)⟩
    · exact .inl ⟨rfl, rfl⟩
  · rw [hnofat, hclusters]
    split_ifs with hxe
    · obtain ⟨last, hlinked, hlast⟩ := hmoved.linked
      rintro - hold
      rwa [hlast (hxe ▸ hold)] at hlinked
    · intro hfalse hold k hk
      have hmem := getElem_mem hk
      rw [hmoved.fat_frame]
      · exact hold.resolve_left (by rw [hfalse]; decide) k hk
      · exact fun hmem' ↦ h.disjoint hx he hxe hmem hmem'
      · exact fun hd ↦ hready.dest_notMem_of_isSet (h.isSet x hx) (hd ▸ hmem)
  · intro hfile
    rw [hclusters, hmoved.sameShape.boot]
    split_ifs with hxe
    · rw [hxe]
      exact hmoved.readClusters_new hready (h.bitmap_apart e he)
        (h.disjoint_parent he hroot hrootChain (hlisted e he))
    · refine hmoved.readClusters_eq hready (h.bitmap_apart x hx) ?_
        (hready.dest_notMem_of_isSet (h.isSet x hx))
      exact h.disjoint_directory hrootChain hx (hlisted e he).parent
        fun hdir ↦ by rw [hfile] at hdir; cases hdir

theorem ownedTotal_lt (hplaces : ∀ x ∈ entries, SamePlace x e → x = e) :
    ownedTotal (entries.map (tailRelocation e index destination).apply) < ownedTotal entries := by
  have happly : ∀ c, Move.apply ⟨source, destination⟩ c ≤ c := by
    intro c
    unfold Move.apply
    split_ifs with hc
    · exact hc ▸ hready.lt.le
    · exact le_rfl
  have hle :
      ∀ x : Entry, (x.clusters.map (Move.apply ⟨source, destination⟩)).sum ≤ x.clusters.sum := by
    intro x
    conv_rhs => rw [← map_id x.clusters]
    exact sum_le_sum fun c _ ↦ happly c
  have hlt : (e.clusters.map (Move.apply ⟨source, destination⟩)).sum < e.clusters.sum := by
    conv_rhs => rw [← map_id e.clusters]
    refine sum_lt_sum _ _ (fun c _ ↦ happly c) ⟨source, hready.source_mem, ?_⟩
    rw [Move.apply, if_pos rfl]
    exact hready.lt
  unfold ownedTotal
  rw [map_map]
  refine sum_lt_sum _ _ (fun x hx ↦ ?_) ⟨e, he, ?_⟩
  · rw [Function.comp_apply, h.apply_clusters_eq_map he hready hplaces hx]
    exact hle x
  · rw [Function.comp_apply, h.apply_clusters_eq_map he hready hplaces he]
    exact hlt

end Moved

/-! ### The run -/

/-- **A round** either finds nothing to do, or moves a cluster down and keeps the volume
consistent. -/
theorem compactRound_spec (h : v.Consistent entries) :
    (v.compactRound = .ok none ∧ v.Packed entries) ∨
      ∃ m v' f, v.compactRound = .ok (some (m, v')) ∧ m.destination < m.source ∧
        v'.Consistent (entries.map f) ∧ (∀ x ∈ entries, Kept v v' [m] x (f x)) ∧
        ownedTotal (entries.map f) < ownedTotal entries := by
  rcases h.compactChoice_spec with ⟨hchoice, hpacked⟩ |
    ⟨o, destination, hchoice, ho, hindex, hdest, hlt, hfree⟩
  · refine .inl ⟨?_, hpacked⟩
    rw [compactRound, hchoice]
    rfl
  · obtain ⟨data, s, hready⟩ := h.moveReady ho hindex hdest hlt hfree
    obtain ⟨v', hmove, hmoved⟩ := hready.moveTailCluster_spec
    obtain ⟨root, hroot, hrootChain, hlisted, hdiff⟩ := h.tree (ne_nil_of_mem ho)
    have hplaces := (h.carried ho hready hmoved hroot hrootChain hlisted hdiff).places
    have hconsistent := h.moved ho hready hmoved
    refine .inr ⟨⟨o.cluster, destination⟩, v', _, ?_, hlt, hconsistent, ?_,
      h.ownedTotal_lt ho hready hplaces⟩
    · rw [compactRound, hchoice, ok_bind]
      dsimp only
      rw [hmove, ok_bind, hconsistent.opened]
      rfl
    · exact fun x hx ↦ h.kept ho hready hmoved hx

/-- **The whole run**, from any point on. -/
theorem compactLoop_spec {maxFiles : Option ℤ} (hlimit : ∀ limit ∈ maxFiles, limit = 0)
    (h : v.Consistent entries) (before : List Move) :
    ∃ v' f moves, (∀ fuel, ownedTotal entries < fuel →
        v.compactLoop (fun _ ↦ false) maxFiles fuel before = .ok (some (v', before ++ moves))) ∧
      v'.Consistent (entries.map f) ∧ v'.Packed (entries.map f) ∧
      (∀ m ∈ moves, m.destination < m.source) ∧ ∀ x ∈ entries, Kept v v' moves x (f x) := by
  -- every round lowers the sum of the owned clusters
  induction htotal :
    ownedTotal entries using Nat.strong_induction_on generalizing v entries before with
  | _ n ih =>
    subst htotal
    rcases h.compactRound_spec with ⟨hround, hpacked⟩ | ⟨m, v₁, g, hround, hlt, h₁, hkept, hless⟩
    · refine ⟨v, id, [], fun fuel hfuel ↦ ?_, by rwa [map_id], by rwa [map_id], by simp, ?_⟩
      · obtain ⟨fuel, rfl⟩ := Nat.exists_eq_add_one_of_ne_zero (Nat.ne_zero_of_lt hfuel)
        rw [compactLoop, if_neg Bool.false_ne_true, hround, append_nil]
        rfl
      · exact fun x _ ↦ .refl v x
    · obtain ⟨v', f, moves, hrun, h', hpacked, hdown, hkept'⟩ := ih _ hless h₁ (before ++ [m]) rfl
      rw [map_map] at h' hpacked
      refine ⟨v', f ∘ g, m :: moves, fun fuel hfuel ↦ ?_, h', hpacked, ?_, fun x hx ↦ ?_⟩
      · obtain ⟨fuel, rfl⟩ := Nat.exists_eq_add_one_of_ne_zero (Nat.ne_zero_of_lt hfuel)
        have hgo : ¬(maxFiles.any fun limit ↦ limit ≠ 0 ∧ limit ≤ ((before ++ [m]).length : ℤ)) =
            true := by
          rw [Option.any_eq_true]
          rintro ⟨limit, hmem, hreached⟩
          exact (of_decide_eq_true hreached).1 (hlimit limit hmem)
        rw [compactLoop, if_neg Bool.false_ne_true, hround, ok_bind]
        dsimp only
        rw [if_neg hgo, hrun fuel (by omega), append_assoc]
        rfl
      · intro m' hm'
        rcases mem_cons.1 hm' with rfl | hm'
        · exact hlt
        · exact hdown m' hm'
      · exact (hkept x hx).trans (hkept' _ (mem_map_of_mem hx))

/-- A chain that ends with the end mark is found without knowing its length. -/
theorem chain_of_linked (h : v.Consistent entries) (he : e ∈ entries) (hne : e.clusters ≠ [])
    (hlinked : LinkedTo v.fat EOC e.clusters) :
    Exfat.chain v.fat e.first none false = .ok e.clusters := by
  obtain ⟨root, -, -, hlisted, -⟩ := h.tree (ne_nil_of_mem he)
  obtain ⟨_, _, t, -, -, -, -, hfcl, het⟩ := (hlisted e he).set
  obtain ⟨hchain, hhead⟩ := (fileClusters_eq_ok hfcl).2 hne
  have hfirst : t.first = e.first := by rw [het]; rfl
  rw [hfirst] at hhead
  exact chain_none_of_linkedTo hlinked (h.layout.inFat (h.isCluster e he)) (chain_nodup hchain)
    hhead (by decide)

end Consistent

/-- **The end of a run of compact.** On a consistent volume a run that is neither stopped nor
limited comes to an end. Then no cluster below an owned one is free, every move went down, every
object is found with its clusters at their new places, and an object without a FAT chain is as it
was or has a complete one. -/
theorem compact_end_state {maxFiles : Option ℤ} (h : v.Consistent entries)
    (hlimit : ∀ limit ∈ maxFiles, limit = 0) :
    ∃ v' entries' moves,
      (∀ fuel, ownedTotal entries < fuel →
        compactCommand false false (fun _ ↦ false) maxFiles fuel v.device =
          .ok (some (v', moves))) ∧
      v'.parse = .ok entries' ∧ v'.Packed entries' ∧ (∀ m ∈ moves, m.destination < m.source) ∧
      List.Forall₂ (fun x y ↦ Kept v v' moves x y ∧ (x.nofat = true →
        (y.nofat = true ∧ y.clusters = x.clusters) ∨
          (y.nofat = false ∧ Exfat.chain v'.fat y.first none false = .ok y.clusters ∧
            LinkedTo v'.fat EOC y.clusters))) entries entries' := by
  obtain ⟨v', f, moves, hrun, h', hpacked, hdown, hkept⟩ := h.compactLoop_spec hlimit []
  refine ⟨v', entries.map f, moves, fun fuel hfuel ↦ ?_, h'.parsed, hpacked, hdown, ?_⟩
  · rw [compactCommand, raiseIf_bind_of_not (by decide), raiseIf_bind_of_not (by decide),
      h.opened, ok_bind]
    exact hrun fuel hfuel
  · rw [forall₂_map_right_iff, forall₂_same]
    refine fun x hx ↦ ⟨hkept x hx, fun hnofat ↦ ?_⟩
    rcases (hkept x hx).nofat with ⟨hsame, hclusters⟩ | ⟨hfat, hne⟩
    · exact .inl ⟨hsame.trans hnofat, hclusters⟩
    · have hlinked := (hkept x hx).linked hfat (.inl hnofat)
      exact .inr ⟨hfat, h'.chain_of_linked (mem_map_of_mem hx) hne hlinked, hlinked⟩

theorem Consistent.compactRound_of_packed (h : v.Consistent entries) (hpacked : v.Packed entries) :
    v.compactRound = .ok none := by
  rcases h.compactChoice_spec with ⟨hchoice, -⟩ | ⟨o, destination, -, ho, hindex, hdest, hlt, hfree⟩
  · rw [compactRound, hchoice]
    rfl
  · -- the destination would be free below an owned cluster
    rw [hpacked o.entry ho o.cluster (mem_of_getElem? hindex) destination hdest.1 hlt] at hfree
    cases hfree

/-- **Compacting twice is compacting once.** On a consistent volume `compact` ends, and any run on
the device it leaves moves nothing. -/
theorem compact_idempotent (h : v.Consistent entries) :
    ∃ v' moves, (∀ fuel, ownedTotal entries < fuel →
        compactCommand false false (fun _ ↦ false) none fuel v.device = .ok (some (v', moves))) ∧
      ∀ stop maxFiles fuel,
        compactCommand false false stop maxFiles (fuel + 1) v'.device = .ok (some (v', [])) := by
  obtain ⟨v', f, moves, hrun, h', hpacked, -⟩ :=
    h.compactLoop_spec (show ∀ limit ∈ (none : Option ℤ), limit = 0 from fun _ hmem ↦ by cases hmem)
      []
  refine ⟨v', moves, fun fuel hfuel ↦ ?_, fun stop maxFiles fuel ↦ ?_⟩
  all_goals rw [compactCommand, raiseIf_bind_of_not (by decide), raiseIf_bind_of_not (by decide)]
  · rw [h.opened, ok_bind]
    exact hrun fuel hfuel
  · rw [h'.opened, ok_bind, compactLoop, h'.compactRound_of_packed hpacked]
    split_ifs <;> rfl

end Volume

/-! ### A file above a free cluster -/

/-- A volume with a file in clusters 6 and 7, where cluster 5 is free. -/
def holeDevice : Device where
  size := 2432
  image a :=
    if a = 640 then 0x37
    else if a = 641 then 0
    else (exampleDevice [] (setBytes 0x20 [(3, 6, 256)]) []).image a

theorem holeDevice_consistent :
    ∃ v : Volume, v.device = holeDevice ∧
    v.Consistent [exampleEntry 1 false 6 256 true [3, 4] 32 2 [6, 7]] := by
  obtain ⟨v, hopen, hv⟩ := exists_ok_of_any (x := Volume.open holeDevice true)
    (p := fun v ↦ v.boot.activeFatOffset = 512 && v.fat.length = 128 && v.boot.heapOff *
      v.boot.bps = 640 &&
      v.boot.cc = 14 && v.boot.cs = 128 && v.bitmap.length = 2 && v.bitmapClusters = [2] &&
      [2, 3, 4, 6, 7].all v.isSet && v.rootChain.toOption.any (· = [3, 4]) &&
      v.parse.toOption.any (· = [exampleEntry 1 false 6 256 true [3, 4] 32 2 [6, 7]]) &&
      (v.dirData [3, 4]).toOption.any fun data ↦
        (secondaries (bytesImage data) 32 2 0xC0).length = 1) (by decide +kernel)
  simp only [Bool.and_eq_true, decide_eq_true_eq] at hv
  obtain ⟨⟨⟨⟨⟨⟨⟨⟨⟨⟨hfatOff, hfat⟩, hheap⟩, hcc⟩, hcs⟩, hbits⟩, hbitmap⟩, hset⟩, hroot⟩, hparse⟩,
    hone⟩ := hv
  obtain ⟨rootData, hrootData, hone⟩ := exists_ok_of_any hone
  have hdevice : v.device = holeDevice := (Volume.open_eq_ok_iff.1 hopen).1
  have hroot_eq : ∀ {root}, v.rootChain = .ok root → root = [3, 4] := fun h ↦
    Except.ok.inj (h.symm.trans (eq_ok_of_any hroot))
  have hset : ∀ c ∈ [2, 3, 4, 6, 7], v.isSet c = true := all_eq_true.1 hset
  refine ⟨v, hdevice, ?_⟩
  exact {
    opened := by rw [hdevice, hopen]
    layout := by
      refine ⟨by omega, by omega, ?_, by omega, by omega, by omega⟩
      rw [hheap, hcc, hcs, hdevice]
      decide
    parsed := eq_ok_of_any hparse
    oneStream := by
      intro e he data hdata
      rw [mem_singleton.1 he] at hdata ⊢
      obtain rfl := Except.ok.inj (hrootData.symm.trans hdata)
      exact of_decide_eq_true hone
    isCluster := by
      intro e he c hc
      rw [mem_singleton.1 he] at hc
      unfold Volume.IsCluster
      rw [hcc]
      revert c
      decide
    isSet := by
      intro e he c hc
      rw [mem_singleton.1 he] at hc
      refine hset c ?_
      revert c
      decide
    apart := pairwise_singleton ..
    root_isSet := by
      intro root h c hc
      rw [hroot_eq h] at hc
      refine hset c ?_
      revert c
      decide
    root_apart := by
      intro root h e he
      rw [hroot_eq h, mem_singleton.1 he]
      simp [exampleEntry]
    bitmap_isSet := by
      intro c hc
      rw [hbitmap] at hc
      refine hset c ?_
      revert c
      decide
    bitmap_apart := by
      intro e he
      rw [hbitmap, mem_singleton.1 he]
      simp [exampleEntry]
    bitmap_root := by
      intro root h
      rw [hroot_eq h, hbitmap]
      simp }

/-- The file of the volume is compacted. -/
theorem compact_end_state_holeDevice : ∃ v v' entries' moves,
    v.device = holeDevice ∧
      (∀ fuel, 13 < fuel →
        compactCommand false false (fun _ ↦ false) none fuel holeDevice = .ok (some (v', moves))) ∧
      v'.parse = .ok entries' ∧ v'.Packed entries' ∧ (∀ m ∈ moves, m.destination < m.source) ∧
      List.Forall₂ (Volume.Kept v v' moves)
        [exampleEntry 1 false 6 256 true [3, 4] 32 2 [6, 7]] entries' := by
  obtain ⟨v, hdevice, h⟩ := holeDevice_consistent
  obtain ⟨v', entries', moves, hrun, hparse, hpacked, hdown, hkept⟩ :=
    Volume.compact_end_state h (show ∀ limit ∈ (none : Option ℤ), limit = 0 from nofun)
  rw [hdevice] at hrun
  exact ⟨v, v', entries', moves, hdevice, hrun, hparse, hpacked, hdown, hkept.imp fun _ _ h ↦ h.1⟩

/-- The file in clusters 6 and 7 is moved once. -/
theorem compact_idempotent_holeDevice : ∃ v' moves,
    (∀ fuel, 13 < fuel →
      compactCommand false false (fun _ ↦ false) none fuel holeDevice = .ok (some (v', moves))) ∧
    ∀ fuel, compactCommand false false (fun _ ↦ false) none (fuel + 1) v'.device =
      .ok (some (v', [])) := by
  obtain ⟨v, hdevice, h⟩ := holeDevice_consistent
  obtain ⟨v', moves, hrun, hagain⟩ := Volume.compact_idempotent h
  rw [hdevice] at hrun
  exact ⟨v', moves, hrun, hagain _ _⟩

end LinuxDefragger.Exfat
