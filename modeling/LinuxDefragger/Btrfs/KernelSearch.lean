import LinuxDefragger.Btrfs.TreeScan

/-!
# Searching a tree through the kernel

`items_of_types` asks the kernel for the items of a tree between two keys, takes what fits in the
buffer, and goes on behind the last key that came. The kernel decides how many items it returns, and
may ask for a larger buffer first.

A request names a range of keys in the order of objectid, type and offset, not a range of each of
them. So the place to go on is the successor of a key in that order (`nextKey_spec`), and what lies
behind it is what is left of the range (`between_next`).
-/

open List Storage

namespace LinuxDefragger.Btrfs

/-! ### Keys -/

/-- `_U64_MAX` -/
def u64Max : ℕ := 2 ^ 64 - 1

/-- A key as the tuple that the code compares. -/
def Key.tuple (k : Key) : ℕ ×ₗ ℕ ×ₗ ℕ := toLex (k.objectid, toLex (k.type, k.offset))

/-- The fields of a key on disk. -/
structure Key.Valid (k : Key) : Prop where
  objectid : k.objectid ≤ u64Max
  type : k.type ≤ 255
  offset : k.offset ≤ u64Max

/-- `_next_key` -/
def nextKey (key : Key) : Option Key :=
  if key.offset < u64Max then some ⟨key.objectid, key.type, key.offset + 1⟩
  else if key.type < 255 then some ⟨key.objectid, key.type + 1, 0⟩
  else if key.objectid < u64Max then some ⟨key.objectid + 1, 0, 0⟩
  else none

section Keys

variable {k last : Key}

theorem Key.tuple_le {k k' : Key} : k.tuple ≤ k'.tuple ↔ k.objectid < k'.objectid ∨
    k.objectid = k'.objectid ∧ (k.type < k'.type ∨ k.type = k'.type ∧ k.offset ≤ k'.offset) := by
  rw [Key.tuple, Key.tuple, Prod.Lex.toLex_le_toLex, Prod.Lex.toLex_le_toLex]

theorem Key.tuple_lt {k k' : Key} : k.tuple < k'.tuple ↔ k.objectid < k'.objectid ∨
    k.objectid = k'.objectid ∧ (k.type < k'.type ∨ k.type = k'.type ∧ k.offset < k'.offset) := by
  rw [Key.tuple, Key.tuple, Prod.Lex.toLex_lt_toLex, Prod.Lex.toLex_lt_toLex]

/-- **The successor of a key**: nothing lies between the two, and the last key has none. -/
theorem nextKey_spec (hlast : last.Valid) (hk : k.Valid) :
    (∃ next ∈ nextKey last, next.tuple ≤ k.tuple) ↔ last.tuple < k.tuple := by
  obtain ⟨hobjectid, htype, hoffset⟩ := hlast
  obtain ⟨hobjectid', htype', hoffset'⟩ := hk
  unfold nextKey
  split_ifs <;> simp only [Option.mem_def, Option.some.injEq, exists_eq_left', reduceCtorEq,
    false_and, exists_false, Key.tuple_le, Key.tuple_lt, false_iff] <;> omega

end Keys

/-! ### The kernel -/

/-- What the tree-search ioctl does. -/
inductive Reply
  | items (found : List TreeItem)
  /-- `EOVERFLOW`, with the size of the buffer that it needs. -/
  | overflow (needed : ℕ)
  | failed

/-- The answer to a request, which may depend on how many there were before: for the items between
two keys, with a buffer of some size. -/
abbrev Kernel := ℕ → Key → Key → ℕ → Reply

/-- The items of a tree. -/
structure SearchTree where
  items : List TreeItem
  sorted : items.Pairwise fun a b ↦ a.key.tuple < b.key.tuple
  valid : ∀ item ∈ items, item.key.Valid

/-- The items of a tree between two keys. -/
def SearchTree.between (tree : SearchTree) (first last : Key) : List TreeItem :=
  tree.items.filter fun item ↦ first.tuple ≤ item.key.tuple ∧ item.key.tuple ≤ last.tuple

/-- What an item takes in the buffer: a header of 32 bytes and the payload. -/
def TreeItem.space (item : TreeItem) : ℕ := 32 + item.data.length

/-- The kernel answers for a tree: with some of the first items of the range, at least one if there
is one, or with a request for a larger buffer. It makes such requests only while the buffer is
smaller than some size, so finitely often. -/
structure Answers (tree : SearchTree) (kernel : Kernel) : Prop where
  answer : ∀ call first last size found, kernel call first last size = .items found →
    ∃ rest, tree.between first last = found ++ rest ∧ (found = [] → rest = []) ∧
      (found.map TreeItem.space).sum ≤ size
  larger : ∀ call first last size needed,
    kernel call first last size = .overflow needed → size < needed
  succeeds : ∀ call first last size, kernel call first last size ≠ .failed
  finitely : ∃ enough, ∀ call first last size needed,
    kernel call first last size = .overflow needed → size < enough

/-! ### The search -/

/-- The loop over the items of one reply, which occupies `size` bytes. -/
def parseItems (types : List ℕ) (current : Key) (size : ℕ) :
    ℕ → List TreeItem → Except PyError (List TreeItem)
  | _, [] => pure []
  | position, item :: items => do
    raiseIf (position + 32 > size) "truncated Btrfs tree-search header" []
    raiseIf (position + item.space > size) "truncated Btrfs tree-search payload" []
    raiseIf (item.key.type > 255) "Btrfs tree search returned an invalid item type" []
    raiseIf (item.key.tuple < current.tuple) "Btrfs tree search returned keys out of order" []
    let rest ← parseItems types current size (position + item.space) items
    return if item.key.type ∈ types then item :: rest else rest

/-- The loop of `items_of_types`, from the request with the number `call` on. It is `none` while
the fuel does not suffice. -/
def searchLoop (kernel : Kernel) (types : List ℕ) (maximum : Key) :
    ℕ → ℕ → ℕ → Key → Option (Except PyError (List TreeItem))
  | 0, _, _, _ => none
  | fuel + 1, call, bufferSize, current =>
    if maximum.tuple < current.tuple then some (pure [])
    else match kernel call current maximum bufferSize with
      | .failed => some (throw (.engine "Btrfs kernel tree search failed" []))
      | .overflow needed =>
        if needed ≤ bufferSize ∨ needed > 64 * 1024 * 1024 then
          some (throw (.engine "invalid Btrfs tree-search buffer requirement" []))
        else searchLoop kernel types maximum fuel (call + 1) needed current
      | .items found =>
        match found.getLast? with
        | none => some (pure [])
        | some last =>
          match parseItems types current (112 + bufferSize) 112 found with
          | .error e => some (throw e)
          | .ok items =>
            match nextKey last.key with
            | none => some (pure items)
            | some next =>
              (searchLoop kernel types maximum fuel (call + 1) bufferSize next).map fun rest ↦
                rest.map (items ++ ·)

/-- `list(items_of_types(...))`, with the size of the buffer at first. -/
def itemsOfTypes (kernel : Kernel) (bufferSize : ℕ) (types : List ℕ) (minObjectid maxObjectid : ℕ)
    (fuel : ℕ) : Option (Except PyError (List TreeItem)) :=
  match types.min?, types.max? with
  | some low, some high =>
    if ∃ t ∈ types, t > 255 then some (throw (.engine "invalid Btrfs item type" []))
    else searchLoop kernel types ⟨maxObjectid, high, u64Max⟩ fuel 0 bufferSize ⟨minObjectid, low, 0⟩
  | _, _ => some (pure [])

/-! ### Completeness -/

section Complete

variable {tree : SearchTree} {kernel : Kernel} {types : List ℕ} {current maximum : Key}

theorem SearchTree.mem_between {first last : Key} {item : TreeItem} :
    item ∈ tree.between first last ↔
      item ∈ tree.items ∧ first.tuple ≤ item.key.tuple ∧ item.key.tuple ≤ last.tuple := by
  simp [SearchTree.between]

/-- **What is left behind the last item** of an answer. -/
theorem between_next {found rest : List TreeItem} {last : TreeItem}
    (hbetween : tree.between current maximum = found ++ rest) (hlast : found.getLast? = some last) :
    (∀ next ∈ nextKey last.key, tree.between next maximum = rest) ∧
      (nextKey last.key = none → rest = []) := by
  obtain ⟨init, rfl⟩ := getLast?_eq_some_iff.1 hlast
  have hsorted : (init ++ [last] ++ rest).Pairwise fun a b ↦ a.key.tuple < b.key.tuple := by
    rw [← hbetween]
    exact tree.sorted.filter _
  obtain ⟨hfound, -, hafter⟩ := pairwise_append.1 hsorted
  have hlastMem : last ∈ tree.between current maximum := by simp [hbetween]
  obtain ⟨hlastMem, hcurrent, -⟩ := SearchTree.mem_between.1 hlastMem
  have hrest (item) (h : item ∈ rest) : item ∈ tree.items ∧ last.key.tuple < item.key.tuple :=
    ⟨(SearchTree.mem_between.1 (hbetween ▸ mem_append_right _ h)).1, hafter last (by simp) item h⟩
  refine ⟨fun next hnext ↦ ?_, fun hnone ↦ eq_nil_iff_forall_not_mem.2 fun item h ↦ ?_⟩
  · have hfilter : tree.between next maximum =
        (tree.between current maximum).filter fun item ↦ last.key.tuple < item.key.tuple := by
      rw [SearchTree.between, SearchTree.between, filter_filter]
      refine filter_congr fun item hitem ↦ ?_
      have hspec := nextKey_spec (tree.valid last hlastMem) (tree.valid item hitem)
      rw [Option.mem_def.1 hnext] at hspec
      simp only [Option.mem_def, Option.some.injEq, exists_eq_left'] at hspec
      rw [← Bool.decide_and, decide_eq_decide, hspec]
      exact ⟨fun h ↦ ⟨h.1, hcurrent.trans h.1.le, h.2⟩, fun h ↦ ⟨h.1, h.2.2⟩⟩
    have hnone :
        (init ++ [last]).filter (fun item ↦ decide (last.key.tuple < item.key.tuple)) = [] := by
      refine filter_eq_nil_iff.2 fun item hitem hlt ↦ ?_
      rcases mem_append.1 hitem with hinit | hitem
      · exact lt_asymm (of_decide_eq_true hlt)
          ((pairwise_append.1 hfound).2.2 item hinit last (by simp))
      · rw [mem_singleton.1 hitem] at hlt
        exact lt_irrefl _ (of_decide_eq_true hlt)
    rw [hfilter, hbetween, filter_append, hnone, nil_append]
    exact filter_eq_self.2 fun item h ↦ decide_eq_true (hrest item h).2
  · obtain ⟨hitem, hlt⟩ := hrest item h
    obtain ⟨next, hnext, -⟩ :=
      (nextKey_spec (tree.valid last hlastMem) (tree.valid item hitem)).2 hlt
    rw [hnone] at hnext
    cases hnext

/-- A reply that fits in the buffer is taken apart without an error. -/
theorem parseItems_eq_ok {size position : ℕ} {found : List TreeItem}
    (hvalid : ∀ item ∈ found, item.key.Valid ∧ current.tuple ≤ item.key.tuple)
    (hfits : position + (found.map TreeItem.space).sum ≤ size) :
    parseItems types current size position found =
      .ok (found.filter fun item ↦ item.key.type ∈ types) := by
  induction found generalizing position with
  | nil => rfl
  | cons item found ih =>
    obtain ⟨⟨hitem, hcurrent⟩, hvalid⟩ := forall_mem_cons.1 hvalid
    rw [map_cons, sum_cons] at hfits
    have hspace : 32 ≤ item.space := Nat.le_add_right ..
    rw [parseItems, raiseIf_bind_of_not (by omega), raiseIf_bind_of_not (by omega),
      raiseIf_bind_of_not (not_lt.2 hitem.type), raiseIf_bind_of_not (not_lt.2 hcurrent),
      ih hvalid (by omega), filter_cons]
    simp only [decide_eq_true_eq]
    rfl

/-- **The loop is complete.** What is left to do are the items that are left and the requests for a
larger buffer that may come. -/
theorem searchLoop_complete (h : Answers tree kernel) (hneeded : ∀ call first last size needed,
      kernel call first last size = .overflow needed → needed ≤ 64 * 1024 * 1024)
    {fuel call size : ℕ}
    (hfuel : (tree.between current maximum).length + (64 * 1024 * 1024 - size) < fuel) :
    searchLoop kernel types maximum fuel call size current =
      some (.ok ((tree.between current maximum).filter fun item ↦ item.key.type ∈ types)) := by
  induction fuel generalizing call size current with
  | zero => exact absurd hfuel (Nat.not_lt_zero _)
  | succ fuel ih =>
    rw [searchLoop]
    split_ifs with hend
    · -- no key is left
      have hnil : tree.between current maximum = [] :=
        eq_nil_iff_forall_not_mem.2 fun item hitem ↦ by
          obtain ⟨-, hlow, hhigh⟩ := SearchTree.mem_between.1 hitem
          exact absurd (hlow.trans hhigh) (not_le.2 hend)
      rw [hnil]
      rfl
    · cases hreply : kernel call current maximum size with
      | failed => exact absurd hreply (h.succeeds _ _ _ _)
      | overflow needed =>
        have hlarger := h.larger _ _ _ _ _ hreply
        have hbound := hneeded _ _ _ _ _ hreply
        dsimp only
        rw [if_neg (by omega)]
        exact ih (by omega)
      | items found =>
        obtain ⟨rest, hbetween, hnil, hfits⟩ := h.answer _ _ _ _ _ hreply
        dsimp only
        cases hlast : found.getLast? with
        | none =>
          have hfound := getLast?_eq_none_iff.1 hlast
          rw [hbetween, hnil hfound, hfound]
          rfl
        | some last =>
          obtain ⟨hnext, hnone⟩ := between_next hbetween hlast
          have hparse := @parseItems_eq_ok types current (112 + size) 112 found (fun item hitem ↦ by
            obtain ⟨hmem, hlow, -⟩ :=
              SearchTree.mem_between.1 (hbetween ▸ mem_append_left rest hitem)
            exact ⟨tree.valid item hmem, hlow⟩) (by omega)
          dsimp only
          rw [hparse, hbetween, filter_append]
          cases hkey : nextKey last.key with
          | none =>
            rw [hnone hkey, filter_nil, append_nil]
            rfl
          | some next =>
            have hlength : 0 < found.length := length_pos_of_mem (mem_of_getLast? hlast)
            have hleft := hnext next hkey
            rw [hbetween, length_append] at hfuel
            dsimp only
            rw [ih (by rw [hleft]; omega), hleft]
            rfl

/-- Among the wanted types the range of keys is the range of objectids. -/
theorem filter_between {low high minObjectid maxObjectid : ℕ} (hlow : ∀ t ∈ types, low ≤ t)
    (hhigh : ∀ t ∈ types, t ≤ high) :
    (tree.between ⟨minObjectid, low, 0⟩ ⟨maxObjectid, high, u64Max⟩).filter
        (fun item ↦ item.key.type ∈ types) =
      tree.items.filter fun item ↦ item.key.type ∈ types ∧
        minObjectid ≤ item.key.objectid ∧ item.key.objectid ≤ maxObjectid := by
  rw [SearchTree.between, filter_filter]
  refine filter_congr fun item hitem ↦ ?_
  rw [← Bool.decide_and, decide_eq_decide]
  refine and_congr_right fun htype ↦ ?_
  have hl := hlow _ htype
  have hh := hhigh _ htype
  have hoffset := (tree.valid item hitem).offset
  simp only [Key.tuple_le]
  omega

/-- **The search is complete.** A kernel that answers with some of the first items of the range, and
asks for larger buffers of at most 64 MiB finitely often: the search ends, with every item of the
wanted types and objectids, once and in the order of the keys. -/
theorem items_of_types_complete (h : Answers tree kernel)
    (hneeded : ∀ call first last size needed,
      kernel call first last size = .overflow needed → needed ≤ 64 * 1024 * 1024)
    (htypes : ∀ t ∈ types, t ≤ 255) (bufferSize minObjectid maxObjectid : ℕ) :
    ∃ enough, ∀ fuel ≥ enough,
      itemsOfTypes kernel bufferSize types minObjectid maxObjectid fuel =
        some (.ok (tree.items.filter fun item ↦ item.key.type ∈ types ∧
          minObjectid ≤ item.key.objectid ∧ item.key.objectid ≤ maxObjectid)) := by
  rcases eq_nil_or_concat' types with rfl | ⟨_, _, hne⟩
  · exact ⟨0, fun fuel _ ↦ by simp [itemsOfTypes, pure, Except.pure]⟩
  · have hne : types ≠ [] := by simp [hne]
    obtain ⟨low, hlow⟩ := Option.ne_none_iff_exists'.1 (mt min?_eq_none_iff.1 hne)
    obtain ⟨high, hhigh⟩ := Option.ne_none_iff_exists'.1 (mt max?_eq_none_iff.1 hne)
    refine ⟨(tree.between ⟨minObjectid, low, 0⟩ ⟨maxObjectid, high, u64Max⟩).length +
        64 * 1024 * 1024 + 1,
      fun fuel hfuel ↦ ?_⟩
    rw [itemsOfTypes, hlow, hhigh]
    dsimp only
    rw [if_neg (by push Not; exact htypes), searchLoop_complete h hneeded (by omega : _ < fuel),
      filter_between (fun t ht ↦ (min?_eq_some_iff.1 hlow).2 t ht)
        (fun t ht ↦ (max?_eq_some_iff.1 hhigh).2 t ht)]

end Complete

/-! ### A kernel that returns one item at a time -/

/-- A kernel that wants a buffer of some size, and then returns one item at a time. -/
def stepKernel (tree : SearchTree) (needed : ℕ) : Kernel := fun _ first last size ↦
  if size < needed then .overflow needed else .items ((tree.between first last).take 1)

theorem answers_stepKernel {tree : SearchTree} {needed : ℕ}
    (h : ∀ item ∈ tree.items, item.space ≤ needed) : Answers tree (stepKernel tree needed) where
  answer call first last size found hreply := by
    unfold stepKernel at hreply
    split_ifs at hreply with hsize
    obtain rfl := Reply.items.inj hreply
    refine ⟨(tree.between first last).drop 1, (take_append_drop ..).symm, ?_, ?_⟩
    · cases tree.between first last <;> simp
    · rcases hbetween : tree.between first last with _ | ⟨item, rest⟩
      · simp
      · have hmem : item ∈ tree.between first last := by simp [hbetween]
        have hspace := h item (SearchTree.mem_between.1 hmem).1
        simp only [take_succ_cons, take_zero, map_cons, map_nil, sum_cons, sum_nil]
        omega
  larger call first last size needed' hreply := by
    unfold stepKernel at hreply
    split_ifs at hreply with hsize
    exact Reply.overflow.inj hreply ▸ hsize
  succeeds call first last size hreply := by
    unfold stepKernel at hreply
    split_ifs at hreply
  finitely := by
    refine ⟨needed, fun call first last size needed' hreply ↦ ?_⟩
    unfold stepKernel at hreply
    split_ifs at hreply with hsize
    exact hsize

/-- Two inodes, and the name of the first in between. -/
def inodeTree : SearchTree where
  items := [⟨⟨256, 1, 0⟩, [3]⟩, ⟨⟨256, 12, 5⟩, [0, 1]⟩, ⟨⟨257, 1, 0⟩, [7]⟩]
  sorted := by decide
  valid := by
    simp only [List.forall_mem_cons]
    exact ⟨⟨by decide, by decide, by decide⟩, ⟨by decide, by decide, by decide⟩,
      ⟨by decide, by decide, by decide⟩, by simp⟩

/-- **A request for more than 64 MiB is refused**, and nothing of the tree is returned. -/
theorem search_refuses_large_buffer :
    Answers inodeTree (stepKernel inodeTree (64 * 1024 * 1024 + 1)) ∧ ∀ fuel,
      itemsOfTypes (stepKernel inodeTree (64 * 1024 * 1024 + 1)) (16 * 1024 * 1024) [1] 0 u64Max
          (fuel + 1) =
        some (.error (.engine "invalid Btrfs tree-search buffer requirement" [])) :=
  ⟨answers_stepKernel (by decide), fun _ ↦ rfl⟩

/-- A buffer of 100 bytes is wanted, and the items come one by one. -/
theorem items_of_types_inodeTree : ∃ enough, ∀ fuel ≥ enough,
    itemsOfTypes (stepKernel inodeTree 100) 64 [1] 0 u64Max fuel =
      some (.ok [⟨⟨256, 1, 0⟩, [3]⟩, ⟨⟨257, 1, 0⟩, [7]⟩]) := by
  refine items_of_types_complete (answers_stepKernel (by decide)) (fun _ _ _ _ needed h ↦ ?_)
    (by decide) 64 0 u64Max
  unfold stepKernel at h
  split_ifs at h
  exact Reply.overflow.inj h ▸ (by decide)

end LinuxDefragger.Btrfs
