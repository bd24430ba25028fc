import Savannah.Pmap.Defs

/-!
# What the page-table code does to the tree

A tree for pages of one size has its leaf entries at a fixed depth: `pagePath` leads to the table
and `leafIndex` selects the entry of the page of an address.  One step of the mapping loop is an
`insert` of the radix tree library (`mapPage_eq`), and so `mapRegion` changes the leaf entries of
the pages of its region and no others (`mapRegion_spec`); `unmap_memory` clears one leaf entry.
-/

namespace Savannah

open Foundation

/-- The page sizes that `map_memory` accepts. -/
def IsPageSize (pageSize : ℕ) : Prop :=
  pageSize = size4KB ∨ pageSize = size2MB ∨ pageSize = size1GB

/-- The indices that lead to the table with the leaf entry of `v`. -/
def pagePath (pageSize v : ℕ) : List ℕ :=
  if pageSize = size1GB then [tableIndex 39 v]
  else if pageSize = size2MB then [tableIndex 39 v, tableIndex 30 v]
  else [tableIndex 39 v, tableIndex 30 v, tableIndex 21 v]

/-- The index of the leaf entry of `v` in its table. -/
def leafIndex (pageSize v : ℕ) : ℕ :=
  if pageSize = size1GB then tableIndex 30 v
  else if pageSize = size2MB then tableIndex 21 v
  else tableIndex 12 v

/-- The number of interior levels of a tree. -/
def depth (pageSize : ℕ) : ℕ :=
  if pageSize = size1GB then 1 else if pageSize = size2MB then 2 else 3

section Paths

variable {pageSize v u : ℕ}

theorem tableIndex_lt (shift v : ℕ) : tableIndex shift v < 512 := Nat.mod_lt _ (by norm_num)

/-- Every tree has an interior table. -/
theorem depth_pos (pageSize : ℕ) : 0 < depth pageSize := by
  unfold depth
  split_ifs <;> norm_num

/-- A path has an index for each level. -/
theorem length_pagePath (pageSize v : ℕ) : (pagePath pageSize v).length = depth pageSize := by
  unfold pagePath depth
  split
  · rfl
  · split <;> rfl

/-- The indices of a path are below 512. -/
theorem validPath_pagePath (pageSize v : ℕ) : ValidPath 512 (pagePath pageSize v) := by
  unfold pagePath ValidPath
  split
  · simp [tableIndex_lt]
  · split <;> simp [tableIndex_lt]

theorem paths_4KB (v : ℕ) : depth size4KB = 3 ∧ leafIndex size4KB v = tableIndex 12 v ∧
    pagePath size4KB v = [tableIndex 39 v, tableIndex 30 v, tableIndex 21 v] := ⟨rfl, rfl, rfl⟩

theorem paths_2MB (v : ℕ) : depth size2MB = 2 ∧ leafIndex size2MB v = tableIndex 21 v ∧
    pagePath size2MB v = [tableIndex 39 v, tableIndex 30 v] := ⟨rfl, rfl, rfl⟩

theorem paths_1GB (v : ℕ) : depth size1GB = 1 ∧ leafIndex size1GB v = tableIndex 30 v ∧
    pagePath size1GB v = [tableIndex 39 v] := ⟨rfl, rfl, rfl⟩

/-- The addresses `u` and `v` have the same leaf entry. -/
def SameLeaf (pageSize u v : ℕ) : Prop :=
  pagePath pageSize u = pagePath pageSize v ∧ leafIndex pageSize u = leafIndex pageSize v

instance (pageSize u v : ℕ) : Decidable (SameLeaf pageSize u v) :=
  inferInstanceAs (Decidable (_ ∧ _))

/-- Two addresses below `2 ^ 48` have the same leaf entry iff they lie on the same page. -/
theorem sameLeaf_iff (hsize : IsPageSize pageSize) (hu : u < 2 ^ 48) (hv : v < 2 ^ 48) :
    SameLeaf pageSize u v ↔ u / pageSize = v / pageSize := by
  unfold SameLeaf
  rcases hsize with rfl | rfl | rfl
  · simp only [pagePath, leafIndex, tableIndex, size1GB, size2MB, size4KB]
    norm_num
    omega
  · simp only [pagePath, leafIndex, tableIndex, size1GB, size2MB]
    norm_num
    omega
  · simp only [pagePath, leafIndex, tableIndex, size1GB]
    norm_num
    omega

end Paths

/-- The leaf entry of the address `v` in the tree at `r`. -/
def leafEntry (m : Tables) (pageSize r v : ℕ) : ℕ :=
  entryAt m r (pagePath pageSize v) (leafIndex pageSize v)

/-- Without a first entry in the root nothing is mapped below `2 ^ 39`. -/
theorem leafEntry_of_root_zero {m : Tables} {r : ℕ} (h : m r 0 = 0) (hv : v < 2 ^ 39) :
    leafEntry m pageSize r v = 0 := by
  have hidx : tableIndex 39 v = 0 := by
    rw [tableIndex, Nat.div_eq_of_lt hv, Nat.zero_mod]
  unfold leafEntry pagePath
  rw [hidx]
  split
  · exact entryAt_cons_zero h _
  · split <;> exact entryAt_cons_zero h _

/-- The tables of the tree at `r`. -/
def treeTables (m : Tables) (pageSize r : ℕ) : Multiset ℕ := tables 512 m (depth pageSize) r

/-- Which entries of the interior tables may be in use: a condition on the number of levels below
and the index. -/
abbrev Shape := ℕ → ℕ → Prop

/-- The shape that allows all entries. -/
def Shape.all : Shape := fun _ _ => True

/-- The interior entries of a tree: they carry the flags `fl` and lie where `C` allows. -/
def tableEntry (fl : ℕ) (C : Shape) (d i e : ℕ) : Prop := e % 4096 = fl ∧ C d i

/-- The path to the leaf entry of `v` uses entries that the shape allows. -/
def Shape.Allows (C : Shape) (pageSize v : ℕ) : Prop :=
  ∀ fl < 4096, PathOk (tableEntry fl C) fl (pagePath pageSize v)

theorem Shape.all_allows (pageSize v : ℕ) : Shape.all.Allows pageSize v := by
  intro fl hfl
  have key : ∀ is, PathOk (tableEntry fl Shape.all) fl is := by
    intro is
    induction is with
    | nil => trivial
    | cons i is ih => exact ⟨fun a ha => ⟨by omega, trivial⟩, ih⟩
  exact key _

/-- `m` holds at `r` a tree for pages of one size, without shared tables. -/
structure IsTree (fl : ℕ) (C : Shape) (m : Tables) (pageSize r : ℕ) : Prop where
  nodup : (treeTables m pageSize r).Nodup
  interior : Interior 512 (tableEntry fl C) m (depth pageSize) r

/-- The tree at `r` in `m'` is that of `m` with fresh tables; nothing else, in particular no page of
`R`, was touched. -/
structure TreeGrown (fl : ℕ) (C : Shape) (m m' : Tables) (pageSize r : ℕ) (R : Multiset ℕ) :
    Prop where
  tree : IsTree fl C m' pageSize r
  le : treeTables m pageSize r ≤ treeTables m' pageSize r
  fresh : ∀ a ∈ treeTables m' pageSize r, a ∈ treeTables m pageSize r ∨ a ∉ R
  frame : ∀ u ∉ treeTables m' pageSize r, m' u = m u
  root : ∀ j, m r j ≠ 0 → m' r j = m r j

section Growth

variable {m m' m'' : Tables} {fl pageSize r : ℕ} {R N : Multiset ℕ} {C : Shape}

/-- A tree that does not grow. -/
theorem IsTree.grown_refl (h : IsTree fl C m pageSize r) : TreeGrown fl C m m pageSize r R :=
  ⟨h, le_rfl, fun _ ha => Or.inl ha, fun _ _ => rfl, fun _ _ => rfl⟩

/-- Growing twice. -/
theorem TreeGrown.trans (h : TreeGrown fl C m m' pageSize r R)
    (h' : TreeGrown fl C m' m'' pageSize r R) : TreeGrown fl C m m'' pageSize r R := by
  refine ⟨h'.tree, h.le.trans h'.le, fun a ha => ?_, fun u hu => ?_, fun j hj => ?_⟩
  · rcases h'.fresh a ha with ha | ha
    · exact h.fresh a ha
    · exact Or.inr ha
  · rw [h'.frame u hu, h.frame u fun hm => hu (Multiset.mem_of_le h'.le hm)]
  · have hkeep := h.root j hj
    rw [h'.root j (by rwa [hkeep]), hkeep]

/-- A grown tree, with its shape. -/
theorem treeGrown_of_grown (h : Grown 512 (tableEntry fl C) m m' (depth pageSize) r R N) :
    TreeGrown fl C m m' pageSize r R := by
  refine ⟨⟨h.nodup, h.interior⟩, ?_, fun a ha => ?_, h.frame, h.root (depth_pos pageSize)⟩
  · unfold treeTables
    rw [h.tables_eq]
    exact Multiset.le_add_left _ _
  · unfold treeTables at ha
    rw [h.tables_eq, Multiset.mem_add] at ha
    rcases ha with ha | ha
    · exact Or.inr (h.fresh a ha).2
    · exact Or.inl ha

end Growth

section Map

variable {ε σ : Type} {O : TableOps ε σ} {Owned : σ → Multiset ℕ → Prop} {E : ε → σ → Prop}
  {stop : Stop MapPanic → ε} {fl lf r pageSize v p n e : ℕ} {s : σ} {R : Multiset ℕ}
  {C : Shape}

/-- One step of the loop is an insertion into the radix tree. -/
theorem mapPage_eq (O : TableOps ε σ) (fl pml4 v pageSize e : ℕ) :
    mapPage O fl pml4 v pageSize e =
      O.insert fl pml4 (pagePath pageSize v) (leafIndex pageSize v) e := by
  unfold mapPage TableOps.insert pagePath leafIndex
  split
  · simp only [TableOps.ensurePath, bind_assoc, pure_bind]
  · split <;> simp only [TableOps.ensurePath, bind_assoc, pure_bind]

/-- Entering one page changes its leaf entry. -/
theorem mapPage_spec (hO : O.Lawful Owned E) (hfl : fl < 4096) (hC : C.Allows pageSize v)
    (htree : IsTree fl C (O.read s) pageSize r)
    (hown : Owned s (treeTables (O.read s) pageSize r + R)) :
    wp (mapPage O fl r v pageSize e) (fun _ s' =>
      TreeGrown fl C (O.read s) (O.read s') pageSize r R ∧
      Owned s' (treeTables (O.read s') pageSize r + R) ∧
      ∀ u, leafEntry (O.read s') pageSize r u =
        if SameLeaf pageSize u v then e else leafEntry (O.read s) pageSize r u) E s := by
  have hlen := length_pagePath pageSize v
  rw [mapPage_eq]
  unfold treeTables at *
  rw [← hlen] at hown
  refine (TableOps.insert_spec hO hfl (by rw [hlen]; exact htree.nodup)
    (by rw [hlen]; exact htree.interior) (validPath_pagePath pageSize v) (hC fl hfl)
    hown).mono ?_ fun _ _ h => h
  rintro - s' ⟨N, hgrown, hown', hent⟩
  rw [hlen] at hgrown hown' hent
  exact ⟨treeGrown_of_grown hgrown, hown', fun u =>
    hent _ (length_pagePath pageSize u) (validPath_pagePath pageSize u) _⟩

/-- The addresses of the mapping loop: the first one is as given, the later ones are computed with
64 bits. -/
def loopAddr (a pageSize j : ℕ) : ℕ := if j = 0 then a else (a + j * pageSize) % 2 ^ 64

/-- The address of the next round. -/
theorem loopAddr_succ (a pageSize j : ℕ) :
    loopAddr ((a + pageSize) % 2 ^ 64) pageSize j = loopAddr a pageSize (j + 1) := by
  unfold loopAddr
  rw [if_neg (Nat.succ_ne_zero j), Nat.add_mul, Nat.one_mul]
  split
  · rename_i hj
    rw [hj, Nat.zero_mul, Nat.zero_add]
  · rw [Nat.mod_add_mod, Nat.add_assoc, Nat.add_comm pageSize]

/-- The addresses do not wrap. -/
theorem loopAddr_eq {a j : ℕ} (h : a + j * pageSize < 2 ^ 64) :
    loopAddr a pageSize j = a + j * pageSize := by
  unfold loopAddr
  split
  · rename_i hj
    rw [hj, Nat.zero_mul, Nat.add_zero]
  · exact Nat.mod_eq_of_lt h

/-- The change of the leaf entries by the mapping loop over `n` pages from `v` to `p`.  Where it
enters a page twice, one of the two values remains. -/
def LoopWrites (pageSize lf n v p : ℕ) (old new : ℕ → ℕ) : Prop :=
  ∀ u, (∃ j < n, SameLeaf pageSize u (loopAddr v pageSize j) ∧
      new u = loopAddr p pageSize j ||| lf) ∨
    ((∀ j < n, ¬ SameLeaf pageSize u (loopAddr v pageSize j)) ∧ new u = old u)

/-- The mapping loop changes the leaf entries of its pages. -/
theorem mapLoop_spec (hO : O.Lawful Owned E) (hfl : fl < 4096)
    (hC : ∀ j < n, C.Allows pageSize (loopAddr v pageSize j))
    (htree : IsTree fl C (O.read s) pageSize r)
    (hown : Owned s (treeTables (O.read s) pageSize r + R)) :
    wp (mapLoop O fl r pageSize lf n v p) (fun _ s' =>
      TreeGrown fl C (O.read s) (O.read s') pageSize r R ∧
      Owned s' (treeTables (O.read s') pageSize r + R) ∧
      LoopWrites pageSize lf n v p (leafEntry (O.read s) pageSize r)
        (leafEntry (O.read s') pageSize r)) E s := by
  induction n generalizing s v p with
  | zero => exact ⟨htree.grown_refl, hown, fun u => Or.inr ⟨fun j hj => absurd hj (by omega), rfl⟩⟩
  | succ n ih =>
    unfold mapLoop
    refine (mapPage_spec hO hfl (hC 0 (by omega)) htree hown).bind ?_
    rintro - s₁ ⟨hgrown₁, hown₁, hent₁⟩
    refine (ih (fun j hj => ?_) hgrown₁.tree hown₁).mono ?_ fun _ _ h => h
    · rw [loopAddr_succ]
      exact hC (j + 1) (by omega)
    rintro - s₂ ⟨hgrown₂, hown₂, hent₂⟩
    refine ⟨hgrown₁.trans hgrown₂, hown₂, fun u => ?_⟩
    simp only [LoopWrites, loopAddr_succ] at hent₂
    rcases hent₂ u with ⟨j, hj, hsame, heq⟩ | ⟨hnone, heq⟩
    · exact Or.inl ⟨j + 1, by omega, hsame, heq⟩
    · rw [heq, hent₁ u]
      by_cases hu : SameLeaf pageSize u v
      · exact Or.inl ⟨0, by omega, hu, if_pos hu⟩
      · refine Or.inr ⟨fun j hj => ?_, if_neg hu⟩
        rcases Nat.eq_zero_or_pos j with rfl | hpos
        · exact hu
        · obtain ⟨i, rfl⟩ : ∃ i, j = i + 1 := ⟨j - 1, by omega⟩
          exact hnone i (by omega)

/-- The root of an existing tree, which must have an entry for the lowest addresses. -/
theorem mapRoot_update_spec (hnull : O.read s r 0 = 0 → E (stop (.panic .nullTables)) s) :
    wp (mapRoot O stop r mapUpdate) (fun a s' => a = r ∧ s' = s) E s := by
  unfold mapRoot
  rw [if_neg (by decide), if_pos rfl, wp_bind, wp_get, wp_ite]
  exact ⟨hnull, fun _ => ⟨rfl, rfl⟩⟩

/-- A new root is a tree without entries. -/
theorem mapRoot_new_spec (fl pageSize : ℕ) (C : Shape) (hO : O.Lawful Owned E) (hown : Owned s R) :
    wp (mapRoot O stop r mapNew) (fun a s' => IsTree fl C (O.read s') pageSize a ∧
      treeTables (O.read s') pageSize a = {a} ∧ Owned s' (treeTables (O.read s') pageSize a + R) ∧
      a ∉ R ∧ (∀ u, leafEntry (O.read s') pageSize a u = 0) ∧
      ∀ t, t ≠ a → O.read s' t = O.read s t) E s := by
  unfold mapRoot
  rw [if_pos rfl]
  refine (hO.newTable s R hown).mono ?_ fun _ _ h => h
  rintro a s' ⟨hown', hfresh, -, -, hempty, hframe⟩
  have htab : treeTables (O.read s') pageSize a = {a} := tables_empty hempty
  refine ⟨⟨?_, ?_⟩, htab, ?_, hfresh, fun u => entryAt_empty hempty _, hframe⟩
  · rw [htab]
    exact Multiset.nodup_singleton a
  · cases depth pageSize with
    | zero => trivial
    | succ d => exact fun i _ hi => absurd (hempty i) hi
  · rw [htab, Multiset.singleton_add]
    exact hown'

/-- The arguments pass the checks at the beginning of `map_memory`. -/
def RegionAccepted (pageSize startVaddr endVaddr startPaddr : ℕ) : Prop :=
  startVaddr < endVaddr ∧ IsPageSize pageSize ∧ startPaddr % pageSize = 0

/-- The number of pages does not fit into the `int` that the loop counts down from. -/
def RegionOverflows (pageSize startVaddr endVaddr : ℕ) : Prop :=
  int32 (pages (endVaddr - startVaddr) pageSize) < 0

/-- Only regions of at least `2 ^ 31` pages overflow. -/
theorem RegionOverflows.le_pages {a b : ℕ} (h : RegionOverflows pageSize a b) :
    2 ^ 31 ≤ pages (b - a) pageSize := by
  by_contra hlt
  unfold RegionOverflows at h
  rw [int32_of_lt (Nat.lt_of_not_le hlt)] at h
  omega

/-- The number of iterations of the mapping loop: the number of pages, converted to `int`. -/
def regionCount (pageSize startVaddr endVaddr : ℕ) : ℕ :=
  (int32 (pages (endVaddr - startVaddr) pageSize)).toNat

theorem regionCount_le (pageSize a b : ℕ) : regionCount pageSize a b ≤ pages (b - a) pageSize :=
  int32_toNat_le _

/-- The count is not cut to an `int`. -/
theorem regionCount_eq {a b : ℕ} (h : pages (b - a) pageSize < 2 ^ 31) :
    regionCount pageSize a b = pages (b - a) pageSize := by
  have hcount := int32_of_lt h
  unfold regionCount
  rw [hcount, Int.toNat_natCast]

/-- The flags of the leaf entries: those of the call, and for large pages their mark. -/
def sizedFlags (pageSize leafFlags : ℕ) : ℕ :=
  if pageSize = size4KB then leafFlags else leafFlags ||| pagePse

section Region

variable {a b : ℕ}

/-- After its checks and the choice of the root, `mapRegion` is the mapping loop. -/
theorem mapRegion_spec {Q : ℕ → σ → Prop} {P : ℕ → σ → Prop} {flags : ℕ}
    (hbad : ¬ RegionAccepted pageSize a b p → ∀ q, E (stop q) s)
    (hover : ¬ RegionOverflows pageSize a b)
    (hroot : wp (mapRoot O stop r flags) P E s)
    (hloop : ∀ pml4 s₁, P pml4 s₁ → wp (mapLoop O fl pml4 pageSize (sizedFlags pageSize lf)
      (regionCount pageSize a b) a p) (fun _ s₂ => Q pml4 s₂) E s₁) :
    wp (mapRegion O stop fl lf r a b p pageSize flags) Q E s := by
  unfold mapRegion
  refine wp_ite.mpr ⟨fun h => hbad (fun hacc => by have := hacc.1; omega) _, fun hle => ?_⟩
  refine wp_ite.mpr ⟨fun h => hbad (fun hacc => by have := hacc.1; omega) _, fun hne => ?_⟩
  refine wp_ite.mpr ⟨fun h => hbad (fun hacc => ?_) _, fun hsize => ?_⟩
  · have hsize := hacc.2.1
    unfold IsPageSize at hsize
    omega
  refine wp_ite.mpr ⟨fun h => hbad (fun hacc => h hacc.2.2) _, fun hal => ?_⟩
  refine hroot.bind fun pml4 s₁ hP => ?_
  dsimp only
  refine wp_ite.mpr ⟨fun hneg => absurd hneg hover, fun _ => ?_⟩
  exact (hloop pml4 s₁ hP).bind fun _ s₂ hQ => hQ

/-- `MAP_UPDATE`: the tree keeps its root, and the leaf entries of the region change. -/
theorem mapRegion_update_spec (hO : O.Lawful Owned E) (hfl : fl < 4096)
    (hbad : ¬ RegionAccepted pageSize a b p → ∀ q, E (stop q) s)
    (hover : ¬ RegionOverflows pageSize a b)
    (hnull : O.read s r 0 = 0 → E (stop (.panic .nullTables)) s)
    (hC : ∀ j < regionCount pageSize a b, C.Allows pageSize (loopAddr a pageSize j))
    (htree : IsTree fl C (O.read s) pageSize r)
    (hown : Owned s (treeTables (O.read s) pageSize r + R)) :
    wp (mapRegion O stop fl lf r a b p pageSize mapUpdate) (fun root s' => root = r ∧
      TreeGrown fl C (O.read s) (O.read s') pageSize r R ∧
      Owned s' (treeTables (O.read s') pageSize r + R) ∧
      LoopWrites pageSize (sizedFlags pageSize lf) (regionCount pageSize a b) a p
        (leafEntry (O.read s) pageSize r) (leafEntry (O.read s') pageSize r)) E s := by
  refine mapRegion_spec hbad hover (mapRoot_update_spec hnull) ?_
  rintro pml4 s₁ ⟨rfl, rfl⟩
  refine (mapLoop_spec hO hfl hC htree hown).mono (fun _ s₂ h => ?_) fun _ _ h => h
  exact ⟨rfl, h.1, h.2.1, h.2.2⟩

/-- `MAP_NEW`: a tree of fresh tables with the leaf entries of the region. -/
theorem mapRegion_new_spec (hO : O.Lawful Owned E) (hfl : fl < 4096)
    (hbad : ¬ RegionAccepted pageSize a b p → ∀ q, E (stop q) s)
    (hover : ¬ RegionOverflows pageSize a b)
    (hC : ∀ j < regionCount pageSize a b, C.Allows pageSize (loopAddr a pageSize j))
    (hown : Owned s R) :
    wp (mapRegion O stop fl lf r a b p pageSize mapNew) (fun root s' =>
      IsTree fl C (O.read s') pageSize root ∧ Owned s' (treeTables (O.read s') pageSize root + R) ∧
      (∀ t ∈ treeTables (O.read s') pageSize root, t ∉ R) ∧
      (∀ t ∉ treeTables (O.read s') pageSize root, O.read s' t = O.read s t) ∧
      LoopWrites pageSize (sizedFlags pageSize lf) (regionCount pageSize a b) a p
        (fun _ => 0) (leafEntry (O.read s') pageSize root)) E s := by
  refine mapRegion_spec hbad hover (mapRoot_new_spec fl pageSize C hO hown) ?_
  rintro root s₁ ⟨htree, htab, hown₁, hfresh, hzero, hframe⟩
  refine (mapLoop_spec hO hfl hC htree hown₁).mono ?_ fun _ _ h => h
  rintro - s₂ ⟨hgrown, hown₂, hent⟩
  refine ⟨hgrown.tree, hown₂, fun t ht => ?_, fun t ht => ?_, fun u => ?_⟩
  · rcases hgrown.fresh t ht with h | h
    · rw [htab] at h
      rw [Multiset.mem_singleton.mp h]
      exact hfresh
    · exact h
  · rw [hgrown.frame t ht]
    refine hframe t fun h => ht (Multiset.mem_of_le hgrown.le ?_)
    rw [htab, h]
    exact Multiset.mem_singleton_self root
  · rw [← hzero u]
    exact hent u

end Region

/-! ### `unmap_memory` -/

/-- A tree with `d` interior levels whose tables have addresses that fit into an entry. -/
structure SoundTree (fl : ℕ) (m : Tables) (d r : ℕ) : Prop where
  interior : Interior 512 (fun _ _ e => e % 4096 = fl) m d r
  addr : ∀ a ∈ tables 512 m d r, a ≠ 0 ∧ a < 2 ^ 52

section Sound

variable {m : Tables} {d i : ℕ}

/-- A tree with addresses in range is sound. -/
theorem IsTree.sound (h : IsTree fl C m pageSize r)
    (haddr : ∀ a ∈ treeTables m pageSize r, a ≠ 0 ∧ a < 2 ^ 52) :
    SoundTree fl m (depth pageSize) r := by
  have key : ∀ d r, Interior 512 (tableEntry fl C) m d r →
      Interior 512 (fun _ _ e => e % 4096 = fl) m d r := by
    intro d
    induction d with
    | zero => exact fun _ _ => trivial
    | succ d ih => exact fun r hr i hi hne => ⟨(hr i hi hne).1.1, ih _ (hr i hi hne).2⟩
  exact ⟨key _ r h.interior, haddr⟩

/-- A non-zero interior entry is the address of the root of a subtree with the table flags. -/
theorem SoundTree.child (h : SoundTree fl m (d + 1) r) (hi : i < 512) (hne : m r i ≠ 0) :
    SoundTree fl m d (tableAddr (m r i)) ∧ m r i = tableAddr (m r i) + fl ∧
      tableAddr (m r i) ≠ 0 ∧ tableAddr (m r i) < 2 ^ 52 := by
  obtain ⟨hfl, hsub⟩ := h.interior i hi hne
  have haddr : ∀ a ∈ tables 512 m d (tableAddr (m r i)), a ≠ 0 ∧ a < 2 ^ 52 :=
    fun a ha => h.addr a (child_mem_tables hi hne ha)
  refine ⟨⟨hsub, haddr⟩, ?_, haddr _ root_mem_tables⟩
  unfold tableAddr
  omega

/-- The flags of interior entries do not contain that of a large page. -/
theorem not_isPse_interior {e : ℕ} (hfl : fl < 128) (he : e = tableAddr e + fl) : ¬ IsPse e := by
  unfold IsPse tableAddr at *
  omega

end Sound

/-- `unmap_memory` assigns `0` to the leaf entry of the page, or leaves everything alone if that
entry does not exist or is `0` already. -/
theorem unmapMemory_cases (hsize : IsPageSize pageSize) (hfl : fl < 128)
    (htree : SoundTree fl (O.read s) (depth pageSize) r)
    (hpse : pageSize ≠ size4KB → leafEntry (O.read s) pageSize r v ≠ 0 →
      IsPse (leafEntry (O.read s) pageSize r v)) :
    wp (unmapMemory O r v) (fun _ s' => (leafEntry (O.read s) pageSize r v = 0 ∧ s' = s) ∨
      ∃ t, descend (O.read s) r (pagePath pageSize v) = some t ∧
        s' = O.write t (leafIndex pageSize v) 0 s) E s := by
  unfold unmapMemory
  rw [wp_bind, wp_get]
  set m := O.read s
  have hi := fun shift => tableIndex_lt shift v
  unfold leafEntry at hpse ⊢
  have h0 : tableAddr 0 = 0 := rfl
  rcases hsize with rfl | rfl | rfl
  · obtain ⟨hd, hleaf, hpath⟩ := paths_4KB v
    rw [hd] at htree
    rw [hleaf, hpath] at hpse ⊢
    by_cases h₁ : m r (tableIndex 39 v) = 0
    · rw [if_neg (by rw [h₁, h0]; exact fun h => h.1 rfl)]
      exact Or.inl ⟨entryAt_cons_zero h₁ _, rfl⟩
    obtain ⟨htree₁, -, hz₁, -⟩ := htree.child (hi 39) h₁
    by_cases h₂ : m (tableAddr (m r (tableIndex 39 v))) (tableIndex 30 v) = 0
    · rw [if_neg (by rw [h₂]; exact fun h => h.2 rfl)]
      exact Or.inl ⟨by rw [entryAt_cons h₁, entryAt_cons_zero h₂], rfl⟩
    obtain ⟨htree₂, he₂, hz₂, -⟩ := htree₁.child (hi 30) h₂
    rw [if_pos ⟨hz₁, h₂⟩, if_neg (not_isPse_interior hfl he₂)]
    by_cases h₃ : m (tableAddr (m (tableAddr (m r (tableIndex 39 v))) (tableIndex 30 v)))
        (tableIndex 21 v) = 0
    · rw [if_neg (by rw [h₃]; exact fun h => h.2 rfl)]
      exact Or.inl ⟨by rw [entryAt_cons h₁, entryAt_cons h₂, entryAt_cons_zero h₃], rfl⟩
    obtain ⟨-, he₃, -, -⟩ := htree₂.child (hi 21) h₃
    rw [if_pos ⟨hz₂, h₃⟩, if_neg (not_isPse_interior hfl he₃)]
    exact Or.inr ⟨_, by rw [descend_cons h₁, descend_cons h₂, descend_cons h₃, descend_nil], rfl⟩
  · obtain ⟨hd, hleaf, hpath⟩ := paths_2MB v
    rw [hd] at htree
    rw [hleaf, hpath] at hpse ⊢
    by_cases h₁ : m r (tableIndex 39 v) = 0
    · rw [if_neg (by rw [h₁, h0]; exact fun h => h.1 rfl)]
      exact Or.inl ⟨entryAt_cons_zero h₁ _, rfl⟩
    obtain ⟨htree₁, -, hz₁, -⟩ := htree.child (hi 39) h₁
    by_cases h₂ : m (tableAddr (m r (tableIndex 39 v))) (tableIndex 30 v) = 0
    · rw [if_neg (by rw [h₂]; exact fun h => h.2 rfl)]
      exact Or.inl ⟨by rw [entryAt_cons h₁, entryAt_cons_zero h₂], rfl⟩
    obtain ⟨-, he₂, hz₂, -⟩ := htree₁.child (hi 30) h₂
    rw [if_pos ⟨hz₁, h₂⟩, if_neg (not_isPse_interior hfl he₂)]
    rw [entryAt_cons h₁, entryAt_cons h₂, entryAt_nil] at hpse ⊢
    by_cases h₃ : m (tableAddr (m (tableAddr (m r (tableIndex 39 v))) (tableIndex 30 v)))
        (tableIndex 21 v) = 0
    · rw [if_neg (by rw [h₃]; exact fun h => h.2 rfl)]
      exact Or.inl ⟨h₃, rfl⟩
    · rw [if_pos ⟨hz₂, h₃⟩, if_pos (hpse (by decide) h₃)]
      exact Or.inr ⟨_, by rw [descend_cons h₁, descend_cons h₂, descend_nil], rfl⟩
  · obtain ⟨hd, hleaf, hpath⟩ := paths_1GB v
    rw [hd] at htree
    rw [hleaf, hpath] at hpse ⊢
    by_cases h₁ : m r (tableIndex 39 v) = 0
    · rw [if_neg (by rw [h₁, h0]; exact fun h => h.1 rfl)]
      exact Or.inl ⟨entryAt_cons_zero h₁ _, rfl⟩
    obtain ⟨-, -, hz₁, -⟩ := htree.child (hi 39) h₁
    rw [entryAt_cons h₁, entryAt_nil] at hpse ⊢
    by_cases h₂ : m (tableAddr (m r (tableIndex 39 v))) (tableIndex 30 v) = 0
    · rw [if_neg (by rw [h₂]; exact fun h => h.2 rfl)]
      exact Or.inl ⟨h₂, rfl⟩
    · rw [if_pos ⟨hz₁, h₂⟩, if_pos (hpse (by decide) h₂)]
      exact Or.inr ⟨_, by rw [descend_cons h₁, descend_nil], rfl⟩

/-- `unmap_memory` clears the leaf entry of the page and changes nothing else. -/
theorem unmapMemory_spec (hO : O.Lawful Owned E) (hsize : IsPageSize pageSize) (hfl : fl < 128)
    (htree : IsTree fl C (O.read s) pageSize r)
    (hown : Owned s (treeTables (O.read s) pageSize r + R)) (hv : v < 2 ^ 48)
    (hpse : pageSize ≠ size4KB → leafEntry (O.read s) pageSize r v ≠ 0 →
      IsPse (leafEntry (O.read s) pageSize r v)) :
    wp (unmapMemory O r v) (fun _ s' => TreeGrown fl C (O.read s) (O.read s') pageSize r R ∧
      Owned s' (treeTables (O.read s') pageSize r + R) ∧
      ∀ u < 2 ^ 48, leafEntry (O.read s') pageSize r u =
        if u / pageSize = v / pageSize then 0 else leafEntry (O.read s) pageSize r u) E s := by
  have hsound : SoundTree fl (O.read s) (depth pageSize) r :=
    htree.sound fun a ha => hO.owned_addr s _ hown a (Multiset.mem_add.mpr (Or.inl ha))
  refine (unmapMemory_cases hsize hfl hsound hpse).mono ?_ fun _ _ h => h
  rintro - s' (⟨hz, rfl⟩ | ⟨t, ht, rfl⟩)
  · refine ⟨htree.grown_refl, hown, fun u hu => ?_⟩
    split
    · rename_i huv
      obtain ⟨hpath, hleaf⟩ := (sameLeaf_iff hsize hu hv).mpr huv
      unfold leafEntry at hz ⊢
      rw [hpath, hleaf, hz]
    · rfl
  · have hlen := length_pagePath pageSize v
    have hvalid := validPath_pagePath pageSize v
    obtain ⟨htab, hflag, hent⟩ := set_leaf (i := leafIndex pageSize v) (e := 0)
      (P := tableEntry fl C) (by rw [hlen]; exact htree.nodup) hvalid ht
    rw [hlen] at htab hflag hent
    have hmem : t ∈ treeTables (O.read s) pageSize r := descend_mem ht hlen.le hvalid
    have htab' : treeTables ((O.read s).set t (leafIndex pageSize v) 0) pageSize r =
        treeTables (O.read s) pageSize r := htab
    rw [hO.read_write, htab']
    refine ⟨⟨⟨?_, hflag htree.interior⟩, htab'.ge, fun a ha => Or.inl ?_, fun u hu => ?_,
      fun j _ => ?_⟩, ?_, ?_⟩
    · rw [htab']
      exact htree.nodup
    · rwa [htab'] at ha
    · rw [htab'] at hu
      exact set_other _ _ fun h => hu (h ▸ hmem)
    · have hpath : 0 < (pagePath pageSize v).length := by
        rw [hlen]
        exact depth_pos pageSize
      rw [set_other _ _ (descend_ne_root (by rw [hlen]; exact htree.nodup) hvalid hpath ht)]
    · exact hO.owned_write _ _ _ _ _ hown (Multiset.mem_add.mpr (Or.inl hmem))
    · intro u hu
      unfold leafEntry
      rw [hent _ (length_pagePath pageSize u) (validPath_pagePath pageSize u)]
      simp only [← sameLeaf_iff hsize hu hv]
      rfl

end Map

end Savannah
