import LinuxDefragger.HfsPlus.ForkMap
import Mathlib.Data.List.Dedup
import Mathlib.Data.List.Sort

/-!
# Leaf records of a B-tree

The catalogue and the extents-overflow file are B-trees; the engine walks their leaf nodes along the
chain of next pointers and cuts each node into records with the table of offsets at its end.

Moving a fork rewrites extent descriptors inside records. `leafNodes_reread` says that this does not
disturb the walk: as long as only bytes inside records change, it finds the same nodes and the same
records, with new contents.
-/

open Except List Storage

namespace LinuxDefragger.HfsPlus

variable {J : Type}

/-! ### The walk -/

/-- `be16` with an offset that may be negative and then counts from the end, as `struct` has it. -/
def be16z (data : List UInt8) (offset : ℤ) : Except PyError ℕ :=
  if 0 ≤ offset then be16 data offset.toNat
  else if 0 ≤ offset + data.length then be16 data (offset + data.length).toNat
  else throw .structError

/-- The table of offsets at the end of a node. -/
def tableValues (node : List UInt8) (count : ℕ) : Except PyError (List ℕ) :=
  (List.range (count + 1)).mapM fun i : ℕ ↦ be16z node ((node.length : ℤ) - 2 * ((i : ℤ) + 1))

/-- `record_offsets`, from the table. -/
def recordOffsets (length : ℕ) (table : List ℕ) : List ℕ :=
  (table.dropLast.dedup.insertionSort (· ≤ ·)).filter fun v ↦ 14 ≤ v ∧ v < length

/-- A leaf node: its number, its bytes, its record count and its table of offsets. -/
structure LeafNode where
  number : ℕ
  bytes : List UInt8
  count : ℕ
  table : List ℕ
  deriving DecidableEq, Repr

/-- The records of a node, cut at the offsets. -/
def cutRecords (node : LeafNode) : List ℕ → List (ℕ × ℕ)
  | [] => []
  | [start] =>
    let stop := (node.table.filter (start < ·)).min?.getD (node.bytes.length - 2 * (node.count + 1))
    if start < stop then [(start, min stop node.bytes.length)] else []
  | start :: next :: rest => (start, next) :: cutRecords node (next :: rest)

/-- `TreeRecord` -/
structure TreeRecord where
  fork : ForkMap
  logicalOffset : ℕ
  raw : List UInt8
  deriving DecidableEq, Repr

/-- The leaf nodes from a node on. -/
def walkNodes (disk : Disk J) (fork : ForkMap) (nodeSize totalNodes : ℕ) :
    ℕ → List ℕ → ℕ → Except PyError (List LeafNode)
  | 0, _, _ => throw (.engine "HFS+ B-tree leaf chain is invalid" [])
  | fuel + 1, seen, number =>
    if number = 0 then pure []
    else do
      raiseIf (number ∈ seen ∨ number ≥ totalNodes) "HFS+ B-tree leaf chain is invalid" []
      let bytes ← fork.read disk (number * nodeSize) nodeSize
      let next ← be32 bytes 0
      let kind ← byteAt bytes 8
      let count ← be16 bytes 10
      raiseIf (kind ≠ 0xFF) "HFS+ B-tree leaf chain points to a non-leaf node" []
      let table ← tableValues bytes count
      let rest ← walkNodes disk fork nodeSize totalNodes fuel (number :: seen) next
      return ⟨number, bytes, count, table⟩ :: rest

/-- The head of `walk_leaf_records`: node size, first leaf and number of nodes. -/
def treeHeader (disk : Disk J) (fork : ForkMap) : Except PyError (ℕ × ℕ × ℕ) := do
  let head ← fork.read disk 0 (min fork.logicalSize 512)
  raiseIf (head.length < 40) "HFS+ B-tree header is truncated" []
  let nodeSize ← be16 head 32
  let firstLeaf ← be32 head 24
  let totalNodes ← be32 head 36
  raiseIf (nodeSize < 512 ∨ nodeSize > 65536 ∨ nodeSize &&& (nodeSize - 1) ≠ 0)
    "invalid HFS+ B-tree node size" []
  return (nodeSize, firstLeaf, totalNodes)

/-- The node size and the leaf nodes of a tree. -/
def leafNodes (disk : Disk J) (fork : ForkMap) : Except PyError (ℕ × List LeafNode) := do
  let (nodeSize, firstLeaf, totalNodes) ← treeHeader disk fork
  let nodes ← walkNodes disk fork nodeSize totalNodes (totalNodes + 1) [] firstLeaf
  return (nodeSize, nodes)

/-- The records of a node. -/
def nodeRecords (fork : ForkMap) (nodeSize : ℕ) (node : LeafNode) : List TreeRecord :=
  (cutRecords node (recordOffsets node.bytes.length node.table)).map fun (start, stop) ↦
    ⟨fork, node.number * nodeSize + start, slice node.bytes start stop⟩

/-- `walk_leaf_records` -/
def walkLeafRecords (disk : Disk J) (fork : ForkMap) : Except PyError (List TreeRecord) := do
  let (nodeSize, nodes) ← leafNodes disk fork
  return nodes.flatMap (nodeRecords fork nodeSize)

/-! ### Reading again -/

/-- The bytes of a fork at a range. -/
def ForkMap.bytesAt (f : ForkMap) (m : Image) (offset length : ℕ) : List UInt8 :=
  ((f.addrs.drop offset).take length).map m

/-- A node as another image has it. -/
def LeafNode.reread (f : ForkMap) (nodeSize : ℕ) (m : Image) (n : LeafNode) : LeafNode :=
  { n with bytes := f.bytesAt m (n.number * nodeSize) nodeSize }

/-- A record as another image has it. -/
def TreeRecord.reread (m : Image) (r : TreeRecord) : TreeRecord :=
  { r with raw := r.fork.bytesAt m r.logicalOffset r.raw.length }

/-- A node in which the records end before the table of offsets. -/
structure LeafNode.WellFormed (nodeSize : ℕ) (n : LeafNode) : Prop where
  room : 14 + 2 * (n.count + 1) ≤ nodeSize
  table : ∀ v ∈ n.table, v + 2 * (n.count + 1) ≤ nodeSize

/-- The parts of a node that the walk reads: the node descriptor and the table of offsets. -/
def LeafNode.Structural (nodeSize : ℕ) (n : LeafNode) (x : ℕ) : Prop :=
  n.number * nodeSize ≤ x ∧ x < n.number * nodeSize + nodeSize ∧
    (x < n.number * nodeSize + 14 ∨
      n.number * nodeSize + nodeSize ≤ x + 2 * (n.count + 1))

/-- Two images agree on a fork away from some of its bytes. -/
def AgreeOff (f : ForkMap) (m m' : Image) (D : ℕ → Prop) : Prop :=
  ∀ x a, f.addrs[x]? = some a → ¬ D x → m' a = m a

variable {offset length : ℕ}

section Words

variable {data data' : List UInt8}

/-- Words depend on their own bytes. -/
theorem beWord_congr {n v : ℕ} (h : beWord n data offset = .ok v)
    (hlen : data'.length = data.length)
    (heq : ∀ i < n, bytesImage data' (offset + i) = bytesImage data (offset + i)) :
    beWord n data' offset = .ok v := by
  rw [beWord] at h ⊢
  rw [hlen]
  split_ifs at h ⊢ with hle
  rw [← h, pure_eq_ok, pure_eq_ok, beAt_congr heq]

theorem byteAt_congr {b : UInt8} (h : byteAt data offset = .ok b)
    (hlen : data'.length = data.length) (heq : bytesImage data' offset = bytesImage data offset) :
    byteAt data' offset = .ok b := by
  rw [byteAt] at h ⊢
  rw [hlen]
  split_ifs at h ⊢ with hlt
  rw [← h]
  exact congrArg Except.ok heq

/-- A table that fits depends on its own bytes. -/
theorem tableValues_congr {count : ℕ} {table : List ℕ} (h : tableValues data count = .ok table)
    (hroom : 2 * (count + 1) ≤ data.length) (hlen : data'.length = data.length)
    (heq : ∀ x, data.length ≤ x + 2 * (count + 1) → bytesImage data' x = bytesImage data x) :
    tableValues data' count = .ok table := by
  rw [tableValues, mapM_eq_ok] at h ⊢
  refine forall₂_iff_zip.2 ⟨h.length_eq, fun {i v} hiv ↦ ?_⟩
  have hi := mem_range.1 (of_mem_zip hiv).1
  have hz := (forall₂_iff_zip.1 h).2 hiv
  have hnat : (data.length : ℤ) - 2 * ((i : ℤ) + 1) = ((data.length - 2 * (i + 1) : ℕ) : ℤ) := by
    omega
  rw [hlen, hnat]
  rw [hnat] at hz
  rw [be16z, if_pos (Int.natCast_nonneg _), Int.toNat_natCast] at hz ⊢
  exact beWord_congr hz hlen fun k _ ↦ heq _ (by omega)

end Words

/-! ### The walk and the bytes inside records -/

variable {fuel number x : ℕ} {seen : List ℕ}

section Reread

variable {disk disk' : Disk J} {f : ForkMap} {nodeSize totalNodes : ℕ} {D : ℕ → Prop}

theorem ForkMap.read_eq_bytesAt {data : List UInt8} (h : f.read disk offset length = .ok data) :
    data = f.bytesAt disk.image offset length :=
  (ForkMap.read_eq_ok h).1

theorem ForkMap.bytesAt_apply {m : Image} {i a : ℕ} (hi : i < length)
    (ha : f.addrs[offset + i]? = some a) : bytesImage (f.bytesAt m offset length) i = m a := by
  rw [bytesImage, getD_eq_getElem?_getD, bytesAt, getElem?_map,
    getElem?_take_of_lt hi, getElem?_drop, ha]
  rfl

/-- Where the images agree, so do the bytes of a fork. -/
theorem AgreeOff.bytesImage_eq {m m' : Image} (h : AgreeOff f m m' D) {i : ℕ} (hi : i < length)
    (hD : ¬ D (offset + i)) :
    bytesImage (f.bytesAt m' offset length) i = bytesImage (f.bytesAt m offset length) i := by
  rcases ha : f.addrs[offset + i]? with _ | a
  · simp only [bytesImage, getD_eq_getElem?_getD, ForkMap.bytesAt, getElem?_map,
      getElem?_take_of_lt hi, getElem?_drop, ha, Option.map_none]
  · rw [ForkMap.bytesAt_apply hi ha, ForkMap.bytesAt_apply hi ha, h _ a ha hD]

theorem ForkMap.length_bytesAt_eq (f : ForkMap) (m m' : Image) (offset length : ℕ) :
    (f.bytesAt m' offset length).length = (f.bytesAt m offset length).length := by
  simp [bytesAt]

/-- What a walk that succeeds read in one node. -/
theorem walkNodes_eq_ok {nodes : List LeafNode}
    (h : walkNodes disk f nodeSize totalNodes (fuel + 1) seen number = .ok nodes) :
    (number = 0 ∧ nodes = []) ∨ (number ≠ 0 ∧ number ∉ seen ∧ number < totalNodes ∧
      ∃ bytes next count table rest, f.read disk (number * nodeSize) nodeSize = .ok bytes ∧
        be32 bytes 0 = .ok next ∧ byteAt bytes 8 = .ok 0xFF ∧ be16 bytes 10 = .ok count ∧
        tableValues bytes count = .ok table ∧
        walkNodes disk f nodeSize totalNodes fuel (number :: seen) next = .ok rest ∧
        nodes = ⟨number, bytes, count, table⟩ :: rest) := by
  rw [walkNodes] at h
  by_cases hzero : number = 0
  · rw [if_pos hzero] at h
    exact .inl ⟨hzero, (ok.inj h).symm⟩
  rw [if_neg hzero, raiseIf_bind_eq_ok] at h
  obtain ⟨hseen, h⟩ := h
  push Not at hseen
  obtain ⟨bytes, hbytes, h⟩ := bind_eq_ok.1 h
  obtain ⟨next, hnext, h⟩ := bind_eq_ok.1 h
  obtain ⟨kind, hkind, h⟩ := bind_eq_ok.1 h
  obtain ⟨count, hcount, h⟩ := bind_eq_ok.1 h
  rw [raiseIf_bind_eq_ok] at h
  obtain ⟨hleaf, h⟩ := h
  obtain ⟨table, htable, h⟩ := bind_eq_ok.1 h
  obtain ⟨rest, hrest, h⟩ := bind_eq_ok.1 h
  obtain rfl := ok.inj h
  rw [not_not.1 hleaf] at hkind
  exact .inr ⟨hzero, hseen.1, hseen.2, bytes, next, count, table, rest, hbytes, hnext, hkind,
    hcount, htable, hrest, rfl⟩

/-- **The walk after a change inside records**: it visits the same nodes. -/
theorem walkNodes_reread {nodes : List LeafNode}
    (h : walkNodes disk f nodeSize totalNodes fuel seen number = .ok nodes)
    (hsize : disk'.size = disk.size) (hwf : ∀ n ∈ nodes, n.WellFormed nodeSize)
    (hagree : AgreeOff f disk.image disk'.image D)
    (hD : ∀ n ∈ nodes, ∀ x, n.Structural nodeSize x → ¬ D x) :
    walkNodes disk' f nodeSize totalNodes fuel seen number =
      .ok (nodes.map (LeafNode.reread f nodeSize disk'.image)) := by
  induction fuel generalizing seen number nodes with
  | zero => cases h
  | succ fuel ih =>
    rcases walkNodes_eq_ok h with ⟨rfl, rfl⟩ | ⟨hzero, hseen, hlt, bytes, next, count, table, rest,
      hbytes, hnext, hkind, hcount, htable, hrest, rfl⟩
    · rfl
    obtain ⟨hwf₀, hwf'⟩ := forall_mem_cons.1 hwf
    obtain ⟨hD₀, hD'⟩ := forall_mem_cons.1 hD
    obtain rfl := ForkMap.read_eq_bytesAt hbytes
    have hread : f.read disk' (number * nodeSize) nodeSize =
        .ok (f.bytesAt disk'.image (number * nodeSize) nodeSize) :=
      ForkMap.read_of_size hbytes hsize
    have hlen := f.length_bytesAt_eq disk.image disk'.image (number * nodeSize) nodeSize
    have hnode := ForkMap.length_of_read hbytes
    have hroom : 14 + 2 * (count + 1) ≤ nodeSize := hwf₀.room
    -- the node descriptor and the table are outside the change
    have hbyte (x : ℕ) (hx : x < nodeSize) (hstruct : x < 14 ∨ nodeSize ≤ x + 2 * (count + 1)) :
        bytesImage (f.bytesAt disk'.image (number * nodeSize) nodeSize) x =
          bytesImage (f.bytesAt disk.image (number * nodeSize) nodeSize) x := by
      refine hagree.bytesImage_eq hx (hD₀ _ ⟨Nat.le_add_right .., Nat.add_lt_add_left hx _, ?_⟩)
      exact hstruct.imp (fun hx ↦ Nat.add_lt_add_left hx _) fun hx ↦ by
        rw [Nat.add_assoc]
        exact Nat.add_le_add_left hx _
    have hnext' := beWord_congr hnext hlen fun i hi ↦ hbyte _ (by omega) (.inl (by omega))
    have hkind' := byteAt_congr hkind hlen (hbyte _ (by omega) (.inl (by omega)))
    have hcount' := beWord_congr hcount hlen fun i hi ↦ hbyte _ (by omega) (.inl (by omega))
    have htable' := tableValues_congr htable (by rw [hnode]; omega) hlen fun x hx ↦ by
      by_cases hlt : x < nodeSize
      · exact hbyte x hlt (.inr (hnode ▸ hx))
      · have hout (data : List UInt8) (hd : data.length = nodeSize) : bytesImage data x = 0 := by
          rw [bytesImage, getD_eq_default _ _ (by omega)]
        rw [hout _ (hlen.trans hnode), hout _ hnode]
    rw [walkNodes, if_neg hzero, raiseIf_bind_of_not (by push Not; exact ⟨hseen, hlt⟩), hread,
      ok_bind, be32, hnext', ok_bind, hkind', ok_bind, be16, hcount', ok_bind,
      raiseIf_bind_of_not (by simp), htable', ok_bind, ih hrest hwf' hD']
    rfl

theorem treeHeader_eq_ok {r : ℕ × ℕ × ℕ} (h : treeHeader disk f = .ok r) :
    512 ≤ r.1 ∧ ∃ head, f.read disk 0 (min f.logicalSize 512) = .ok head ∧ ¬ head.length < 40 ∧
      be16 head 32 = .ok r.1 ∧ be32 head 24 = .ok r.2.1 ∧ be32 head 36 = .ok r.2.2 ∧
      ¬ (r.1 < 512 ∨ r.1 > 65536 ∨ r.1 &&& (r.1 - 1) ≠ 0) := by
  rw [treeHeader, bind_eq_ok] at h
  obtain ⟨head, hhead, h⟩ := h
  rw [raiseIf_bind_eq_ok] at h
  obtain ⟨hlong, h⟩ := h
  obtain ⟨nodeSize, hns, h⟩ := bind_eq_ok.1 h
  obtain ⟨first, hfirst, h⟩ := bind_eq_ok.1 h
  obtain ⟨total, htotal, h⟩ := bind_eq_ok.1 h
  rw [raiseIf_bind_eq_ok] at h
  obtain ⟨hvalid, h⟩ := h
  obtain rfl := ok.inj h
  exact ⟨by omega, head, hhead, hlong, hns, hfirst, htotal, hvalid⟩

theorem treeHeader_reread {r : ℕ × ℕ × ℕ} (h : treeHeader disk f = .ok r)
    (hsize : disk'.size = disk.size) (hagree : AgreeOff f disk.image disk'.image D)
    (hD : ∀ x < 512, ¬ D x) : treeHeader disk' f = .ok r := by
  obtain ⟨-, head, hhead, hlong, hns, hfirst, htotal, hvalid⟩ := treeHeader_eq_ok h
  obtain rfl := ForkMap.read_eq_bytesAt hhead
  have hlen := f.length_bytesAt_eq disk.image disk'.image 0 (min f.logicalSize 512)
  have hfull := ForkMap.length_of_read hhead
  have hbyte (x : ℕ) (hx : x < 40) :
    bytesImage (f.bytesAt disk'.image 0 (min f.logicalSize 512)) x =
        bytesImage (f.bytesAt disk.image 0 (min f.logicalSize 512)) x :=
    hagree.bytesImage_eq (by omega) (hD _ (by omega))
  have hns' := beWord_congr hns hlen fun i hi ↦ hbyte _ (by omega)
  have hfirst' := beWord_congr hfirst hlen fun i hi ↦ hbyte _ (by omega)
  have htotal' := beWord_congr htotal hlen fun i hi ↦ hbyte _ (by omega)
  rw [treeHeader, ForkMap.read_of_size hhead hsize, ok_bind, ← ForkMap.bytesAt,
    raiseIf_bind_of_not (by rwa [hlen]), be16, hns', ok_bind, be32, hfirst', ok_bind, htotal',
    ok_bind, raiseIf_bind_of_not hvalid]
  rfl

/-- **The leaf nodes after a change inside records.** -/
theorem leafNodes_reread {nodes : List LeafNode} (h : leafNodes disk f = .ok (nodeSize, nodes))
    (hsize : disk'.size = disk.size) (hwf : ∀ n ∈ nodes, n.WellFormed nodeSize)
    (hagree : AgreeOff f disk.image disk'.image D) (hD₀ : ∀ x < 512, ¬ D x)
    (hD : ∀ n ∈ nodes, ∀ x, n.Structural nodeSize x → ¬ D x) :
    leafNodes disk' f = .ok (nodeSize, nodes.map (LeafNode.reread f nodeSize disk'.image)) := by
  rw [leafNodes, bind_eq_ok] at h
  obtain ⟨⟨ns, first, total⟩, hhead, h⟩ := h
  obtain ⟨nodes', hwalk, h⟩ := bind_eq_ok.1 h
  obtain ⟨rfl, rfl⟩ := Prod.mk.inj (ok.inj h)
  rw [leafNodes, treeHeader_reread hhead hsize hagree hD₀, ok_bind]
  simp only
  rw [walkNodes_reread hwalk hsize hwf hagree hD]
  rfl

end Reread

/-! ### Where the records are -/

variable {r : TreeRecord}

section Records

variable {disk disk' : Disk J} {f : ForkMap} {nodeSize totalNodes : ℕ}

theorem slice_bytesAt (f : ForkMap) (m : Image) (offset : ℕ) {start stop : ℕ} (h : stop ≤ length) :
    slice (f.bytesAt m offset length) start stop = f.bytesAt m (offset + start) (stop - start) := by
  rw [slice, ForkMap.bytesAt, ForkMap.bytesAt, ← map_take, ← map_drop, take_take,
    Nat.min_eq_left h, ← drop_drop, drop_take]

/-- The numbers of the nodes of a walk are new, in range and different; their bytes are on the
disk. -/
theorem walkNodes_numbers {nodes : List LeafNode}
    (h : walkNodes disk f nodeSize totalNodes fuel seen number = .ok nodes) :
    (∀ n ∈ nodes, n.number ∉ seen ∧ n.number ≠ 0 ∧
      f.read disk (n.number * nodeSize) nodeSize = .ok n.bytes) ∧
      (nodes.map LeafNode.number).Nodup := by
  induction fuel generalizing seen number nodes with
  | zero => cases h
  | succ fuel ih =>
    rcases walkNodes_eq_ok h with ⟨-, rfl⟩ | ⟨hzero, hseen, -, bytes, next, count, table, rest,
      hbytes, -, -, -, -, hrest, rfl⟩
    · simp
    obtain ⟨hall, hnd⟩ := ih hrest
    refine ⟨forall_mem_cons.2 ⟨⟨hseen, hzero, hbytes⟩, fun n hn ↦ ?_⟩, ?_⟩
    · obtain ⟨hnot, hne, hread⟩ := hall n hn
      exact ⟨fun hmem ↦ hnot (mem_cons_of_mem _ hmem), hne, hread⟩
    · refine nodup_cons.2 ⟨fun hmem ↦ ?_, hnd⟩
      obtain ⟨n, hn, heq⟩ := mem_map.1 hmem
      exact (hall n hn).1 (heq ▸ mem_cons_self)

theorem recordOffsets_sorted (length : ℕ) (table : List ℕ) :
    (recordOffsets length table).Pairwise (· < ·) := by
  have hsorted : (table.dropLast.dedup.insertionSort (· ≤ ·)).Pairwise (· ≤ ·) :=
    pairwise_insertionSort _ _
  have hnodup : (table.dropLast.dedup.insertionSort (· ≤ ·)).Nodup :=
    (perm_insertionSort _ _).nodup_iff.2 (nodup_dedup _)
  exact ((hsorted.and hnodup).imp fun h ↦ lt_of_le_of_ne h.1 h.2).filter _

theorem mem_recordOffsets {v : ℕ} {table : List ℕ} (h : v ∈ recordOffsets length table) :
    v ∈ table ∧ 14 ≤ v ∧ v < length := by
  obtain ⟨hmem, hrange⟩ := mem_filter.1 h
  have hmem' := mem_dedup.1 ((perm_insertionSort _ _).mem_iff.1 hmem)
  exact ⟨dropLast_subset _ hmem', by simpa using hrange⟩

/-- The records of a node lie one after the other, between the node descriptor and the table. -/
theorem cutRecords_spec {n : LeafNode} (hwf : n.WellFormed nodeSize)
    (hlen : n.bytes.length = nodeSize)
    {starts : List ℕ} (hsorted : starts.Pairwise (· < ·))
    (hstarts : ∀ v ∈ starts, v ∈ n.table ∧ 14 ≤ v ∧ v < n.bytes.length) :
    (∀ p ∈ cutRecords n starts, p.1 ∈ starts ∧ p.1 < p.2 ∧ p.2 + 2 * (n.count + 1) ≤ nodeSize) ∧
      (cutRecords n starts).Pairwise fun p q ↦ p.2 ≤ q.1 := by
  induction starts using cutRecords.induct n with
  | case1 => simp [cutRecords]
  | case2 start stop hlt =>
    rw [cutRecords, if_pos hlt]
    have hstop : stop + 2 * (n.count + 1) ≤ nodeSize := by
      have hroom := hwf.room
      change (n.table.filter (start < ·)).min?.getD _ + _ ≤ _
      rcases hmin : (n.table.filter (start < ·)).min? with _ | v
      · rw [Option.getD_none]
        omega
      · have hv := min?_mem hmin
        exact hwf.table v (mem_filter.1 hv).1
    refine ⟨fun p hp ↦ ?_, pairwise_singleton ..⟩
    rw [mem_singleton.1 hp]
    have hmin : min stop n.bytes.length = stop := Nat.min_eq_left (by omega)
    rw [hmin]
    exact ⟨mem_cons_self, hlt, hstop⟩
  | case3 start stop hlt =>
    rw [cutRecords, if_neg hlt]
    simp
  | case4 start next rest ih =>
    obtain ⟨hhead, htail⟩ := pairwise_cons.1 hsorted
    obtain ⟨-, hrest⟩ := forall_mem_cons.1 hstarts
    obtain ⟨hall, hpair⟩ := ih htail hrest
    rw [cutRecords]
    refine ⟨forall_mem_cons.2 ⟨⟨mem_cons_self, hhead next mem_cons_self, ?_⟩,
      fun p hp ↦ ?_⟩, pairwise_cons.2 ⟨fun q hq ↦ ?_, hpair⟩⟩
    · exact hwf.table next (hrest next mem_cons_self).1
    · obtain ⟨hmem, hp⟩ := hall p hp
      exact ⟨mem_cons_of_mem _ hmem, hp⟩
    · -- the next record starts where this one ends, the others later
      rcases mem_cons.1 (hall q hq).1 with heq | hmem
      · exact heq.ge
      · exact ((pairwise_cons.1 htail).1 _ hmem).le

/-- The cuts depend on the table, the record count and the length of a node. -/
theorem cutRecords_congr {n n' : LeafNode} (hcount : n'.count = n.count)
    (htable : n'.table = n.table)
    (hlen : n'.bytes.length = n.bytes.length) (starts : List ℕ) :
    cutRecords n' starts = cutRecords n starts := by
  induction starts using cutRecords.induct n with
  | case1 => rfl
  | case2 start => simp only [cutRecords, hcount, htable, hlen]
  | case3 start => simp only [cutRecords, hcount, htable, hlen]
  | case4 start next rest ih => rw [cutRecords, cutRecords, ih]

/-- The logical bytes of a record. -/
def TreeRecord.span (r : TreeRecord) : List ℕ := List.range' r.logicalOffset r.raw.length

/-- What is known of the leaf nodes of a tree that was walked. -/
structure Walked (disk : Disk J) (f : ForkMap) (nodeSize : ℕ) (nodes : List LeafNode) : Prop where
  nodeSize_le : 512 ≤ nodeSize
  read : ∀ n ∈ nodes, n.number ≠ 0 ∧ f.read disk (n.number * nodeSize) nodeSize = .ok n.bytes
  nodup : (nodes.map LeafNode.number).Nodup

theorem leafNodes_walked {nodes : List LeafNode} (h : leafNodes disk f = .ok (nodeSize, nodes)) :
    Walked disk f nodeSize nodes := by
  rw [leafNodes, bind_eq_ok] at h
  obtain ⟨⟨ns, first, total⟩, hhead, h⟩ := h
  obtain ⟨nodes', hwalk, h⟩ := bind_eq_ok.1 h
  obtain ⟨rfl, rfl⟩ := Prod.mk.inj (ok.inj h)
  obtain ⟨hall, hnd⟩ := walkNodes_numbers hwalk
  exact ⟨(treeHeader_eq_ok hhead).1, fun n hn ↦ (hall n hn).2, hnd⟩

namespace Walked

variable {nodes : List LeafNode} (hw : Walked disk f nodeSize nodes)
  (hwf : ∀ n ∈ nodes, n.WellFormed nodeSize)
include hw hwf

/-- A record of a node: where it is and what it holds. -/
theorem mem_nodeRecords {n : LeafNode} (hn : n ∈ nodes) (hr : r ∈ nodeRecords f nodeSize n) :
    ∃ start stop, (start, stop) ∈ cutRecords n (recordOffsets n.bytes.length n.table) ∧ 14 ≤ start ∧
      start < stop ∧ stop + 2 * (n.count + 1) ≤ nodeSize ∧
      r = ⟨f, n.number * nodeSize + start,
        f.bytesAt disk.image (n.number * nodeSize + start) (stop - start)⟩ ∧
      r.raw.length = stop - start := by
  obtain ⟨⟨start, stop⟩, hcut, rfl⟩ := mem_map.1 hr
  have hread := (hw.read n hn).2
  have hlen := ForkMap.length_of_read hread
  obtain ⟨hmem, hlt, hstop⟩ := (cutRecords_spec (hwf n hn) hlen (recordOffsets_sorted ..)
    fun v hv ↦ mem_recordOffsets hv).1 _ hcut
  have hslice : slice n.bytes start stop =
      f.bytesAt disk.image (n.number * nodeSize + start) (stop - start) := by
    rw [ForkMap.read_eq_bytesAt hread, slice_bytesAt _ _ _ (by omega)]
  refine ⟨start, stop, hcut, (mem_recordOffsets hmem).2.1, hlt, hstop, ?_, ?_⟩
  · simp only [hslice]
  · simp only [slice, length_drop, length_take]
    omega

/-- Where a byte of a record lies in its node. -/
theorem mem_span {n : LeafNode} (hn : n ∈ nodes) (hr : r ∈ nodeRecords f nodeSize n)
    (hx : x ∈ r.span) :
    n.number * nodeSize + 14 ≤ x ∧ x + 2 * (n.count + 1) < n.number * nodeSize + nodeSize := by
  obtain ⟨start, stop, -, h14, hlt, hstop, heq, hlen⟩ := hw.mem_nodeRecords hwf hn hr
  rw [TreeRecord.span, hlen, heq, mem_range'_1] at hx
  simp only at hx
  omega

omit hw hwf in
/-- Bytes in different nodes are different. -/
theorem number_eq {k l : ℕ} (hk : k * nodeSize ≤ x ∧ x < k * nodeSize + nodeSize)
    (hl : l * nodeSize ≤ x ∧ x < l * nodeSize + nodeSize) : k = l := by
  rcases Nat.lt_trichotomy k l with hlt | heq | hlt
  · have := Nat.mul_le_mul_right nodeSize (Nat.succ_le_of_lt hlt)
    rw [Nat.succ_mul] at this
    omega
  · exact heq
  · have := Nat.mul_le_mul_right nodeSize (Nat.succ_le_of_lt hlt)
    rw [Nat.succ_mul] at this
    omega

/-- **Bytes of records are not structure**: they lie behind the head of the tree, and outside the
descriptor and the table of every node. -/
theorem span_not_structural (hr : r ∈ nodes.flatMap (nodeRecords f nodeSize)) (hx : x ∈ r.span) :
    512 ≤ x ∧ ∀ n ∈ nodes, ¬ n.Structural nodeSize x := by
  obtain ⟨n, hn, hr⟩ := mem_flatMap.1 hr
  have hpos := hw.mem_span hwf hn hr hx
  have hnum := Nat.one_le_iff_ne_zero.2 (hw.read n hn).1
  have hle := Nat.mul_le_mul_right nodeSize hnum
  have hsize := hw.nodeSize_le
  refine ⟨by omega, fun n' hn' hstr ↦ ?_⟩
  have heq : n.number = n'.number := number_eq ⟨by omega, by omega⟩ ⟨hstr.1, hstr.2.1⟩
  have hsame : n = n' := inj_on_of_nodup_map hw.nodup hn hn' heq
  rw [← hsame] at hstr
  rcases hstr.2.2 with hlow | hhigh
  · omega
  · omega

/-- **Records do not overlap.** -/
theorem nodup_spans : ((nodes.flatMap (nodeRecords f nodeSize)).flatMap TreeRecord.span).Nodup := by
  rw [flatMap_assoc, nodup_flatMap]
  constructor
  · intro n hn
    rw [nodup_flatMap]
    refine ⟨fun r _ ↦ nodup_range', ?_⟩
    have hlen := ForkMap.length_of_read (hw.read n hn).2
    obtain ⟨hall, hpair⟩ := cutRecords_spec (hwf n hn) hlen (recordOffsets_sorted ..)
      fun v hv ↦ mem_recordOffsets hv
    rw [nodeRecords, pairwise_map]
    refine (hpair.imp_of_mem fun {p q} hp hq hpq ↦ ?_)
    obtain ⟨-, hp₁, hp₂⟩ := hall p hp
    obtain ⟨-, hq₁, hq₂⟩ := hall q hq
    refine disjoint_left.2 fun x hx hx' ↦ ?_
    simp only [TreeRecord.span, slice, length_drop, length_take, mem_range'_1] at hx hx'
    omega
  · refine (pairwise_map.1 hw.nodup).imp_of_mem fun {n n'} hn hn' hne ↦ ?_
    refine disjoint_left.2 fun x hx hx' ↦ ?_
    obtain ⟨r, hr, hx⟩ := mem_flatMap.1 hx
    obtain ⟨r', hr', hx'⟩ := mem_flatMap.1 hx'
    have h := hw.mem_span hwf hn hr hx
    have h' := hw.mem_span hwf hn' hr' hx'
    have hpos : n.number * nodeSize ≤ x ∧ x < n.number * nodeSize + nodeSize := by omega
    exact hne (number_eq hpos ⟨by omega, by omega⟩)

/-- The records of a node that is read again. -/
theorem nodeRecords_reread {n : LeafNode} (hn : n ∈ nodes) (m : Image) :
    nodeRecords f nodeSize (n.reread f nodeSize m) =
      (nodeRecords f nodeSize n).map (TreeRecord.reread m) := by
  have hread := (hw.read n hn).2
  have hlen := ForkMap.length_of_read hread
  have hlen' : (n.reread f nodeSize m).bytes.length = n.bytes.length := by
    rw [ForkMap.read_eq_bytesAt hread]
    exact f.length_bytesAt_eq _ _ _ _
  have hcut := cutRecords_congr (show (n.reread f nodeSize m).count = n.count from rfl)
    (show (n.reread f nodeSize m).table = n.table from rfl) hlen'
  rw [nodeRecords, nodeRecords, map_map, hlen', hcut]
  refine map_congr_left fun p hp ↦ ?_
  obtain ⟨start, stop⟩ := p
  obtain ⟨-, hlt, hstop⟩ := (cutRecords_spec (hwf n hn) hlen (recordOffsets_sorted ..)
    fun v hv ↦ mem_recordOffsets hv).1 _ hp
  simp only at hlt hstop
  have hraw : (slice n.bytes start stop).length = stop - start := by
    rw [slice, length_drop, length_take, Nat.min_eq_left (by omega)]
  have hslice : slice (n.reread f nodeSize m).bytes start stop =
      f.bytesAt m (n.number * nodeSize + start) (stop - start) := slice_bytesAt _ _ _ (by omega)
  simp only [Function.comp, TreeRecord.reread, hslice, hraw]
  rfl

end Walked

/-- The trees in which the records end before the tables of offsets. -/
def TreeWellFormed (disk : Disk J) (f : ForkMap) : Prop :=
  ∀ nodeSize nodes, leafNodes disk f = .ok (nodeSize, nodes) → ∀ n ∈ nodes, n.WellFormed nodeSize

instance (nodeSize : ℕ) (n : LeafNode) : Decidable (n.WellFormed nodeSize) :=
  decidable_of_iff (14 + 2 * (n.count + 1) ≤ nodeSize ∧
    ∀ v ∈ n.table, v + 2 * (n.count + 1) ≤ nodeSize) ⟨fun h ↦ ⟨h.1, h.2⟩, fun h ↦ ⟨h.1, h.2⟩⟩

instance (disk : Disk J) (f : ForkMap) : Decidable (TreeWellFormed disk f) :=
  match h : leafNodes disk f with
  | .error _ => isTrue fun nodeSize nodes hok ↦ by
    rw [h] at hok
    cases hok
  | .ok (nodeSize, nodes) => decidable_of_iff (∀ n ∈ nodes, n.WellFormed nodeSize)
    ⟨fun hall nodeSize' nodes' hok ↦ by
      obtain ⟨rfl, rfl⟩ := Prod.mk.inj (Except.ok.inj (h.symm.trans hok))
      exact hall, fun hwf ↦ hwf _ _ h⟩

theorem walkLeafRecords_eq_ok {rs : List TreeRecord} (h : walkLeafRecords disk f = .ok rs) :
    ∃ nodeSize nodes, leafNodes disk f = .ok (nodeSize, nodes) ∧
      rs = nodes.flatMap (nodeRecords f nodeSize) := by
  obtain ⟨⟨nodeSize, nodes⟩, hleaf, h⟩ := bind_eq_ok.1 h
  exact ⟨nodeSize, nodes, hleaf, (ok.inj h).symm⟩

section Records

variable {rs : List TreeRecord} (h : walkLeafRecords disk f = .ok rs) (hwf : TreeWellFormed disk f)
include h hwf

/-- **The records of a walk** hold the bytes of the fork at their place. -/
theorem mem_walkLeafRecords (hr : r ∈ rs) :
    r.fork = f ∧ r.raw = f.bytesAt disk.image r.logicalOffset r.raw.length ∧
      r.logicalOffset + r.raw.length ≤ f.addrs.length ∧
      r.logicalOffset + r.raw.length ≤ f.logicalSize := by
  obtain ⟨nodeSize, nodes, hleaf, rfl⟩ := walkLeafRecords_eq_ok h
  obtain ⟨n, hn, hr⟩ := mem_flatMap.1 hr
  obtain ⟨start, stop, -, -, hlt, hstop, heq, hlen⟩ :=
    (leafNodes_walked hleaf).mem_nodeRecords (hwf _ _ hleaf) hn hr
  obtain ⟨-, hsize, hle⟩ := ForkMap.read_eq_ok ((leafNodes_walked hleaf).read n hn).2
  have hsize' := (leafNodes_walked hleaf).nodeSize_le
  rw [hlen, heq]
  simp only
  exact ⟨trivial, trivial, by omega, by omega⟩

theorem nodup_spans : (rs.flatMap TreeRecord.span).Nodup := by
  obtain ⟨nodeSize, nodes, hleaf, rfl⟩ := walkLeafRecords_eq_ok h
  exact (leafNodes_walked hleaf).nodup_spans (hwf _ _ hleaf)

/-- **The records after a change inside records**: the same, with new contents. -/
theorem walkLeafRecords_reread (hsize : disk'.size = disk.size)
    (hagree : AgreeOff f disk.image disk'.image fun x ↦ ∃ r ∈ rs, x ∈ r.span) :
    walkLeafRecords disk' f = .ok (rs.map (TreeRecord.reread disk'.image)) ∧
      TreeWellFormed disk' f := by
  obtain ⟨nodeSize, nodes, hleaf, rfl⟩ := walkLeafRecords_eq_ok h
  have hw := leafNodes_walked hleaf
  have hnode := hwf _ _ hleaf
  have hreread := leafNodes_reread hleaf hsize hnode hagree
    (fun x hx ⟨r, hr, hspan⟩ ↦ by
      have := (hw.span_not_structural hnode hr hspan).1
      omega)
    fun n hn x hstr ⟨r, hr, hspan⟩ ↦ (hw.span_not_structural hnode hr hspan).2 n hn hstr
  constructor
  · rw [walkLeafRecords, hreread, ok_bind]
    simp only [pure_eq_ok, flatMap_map, map_flatMap]
    exact congrArg Except.ok (flatMap_congr fun n hn ↦ hw.nodeRecords_reread hnode hn _)
  · intro nodeSize' nodes' hleaf'
    obtain ⟨rfl, rfl⟩ := Prod.mk.inj (ok.inj (hreread.symm.trans hleaf'))
    intro n hn
    obtain ⟨n', hn', rfl⟩ := mem_map.1 hn
    exact ⟨(hnode n' hn').room, (hnode n' hn').table⟩

end Records

end Records

end LinuxDefragger.HfsPlus
