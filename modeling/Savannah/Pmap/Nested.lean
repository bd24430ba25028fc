import Savannah.Pmap.Walk

/-!
# The tables of a VM

A VM has guest page tables, an identity map of the first 4GB, and nested tables, in which among
other things the guest page tables themselves are mapped (`ept_map_page_tables`).  The boot loader
and PM build both with copies of the same code; here the access to the tables is a parameter.

`GuestTree` describes the guest page tables: six pages, with large pages only.  `Nested` describes
nested tables under construction.  They realize the calls made so far, and leave the pages `R`
alone, among them the guest page tables.
-/

namespace Savannah

open Foundation

/-! ### Calls one after the other -/

section Append

variable {k : TableKind} {pageSize v : ℕ} {ops ops' : List PmapOp}

/-- One of the calls that cover an address decides about it. -/
theorem exists_decides {op : PmapOp} (hop : op ∈ ops) (hcov : op.Covers pageSize v) :
    ∃ op' ∈ ops, op'.Covers pageSize v ∧
      (ops.reverse.find? fun op => op.Covers pageSize v) = some op' := by
  have hfind : (ops.reverse.find? fun op => op.Covers pageSize v).isSome := by
    rw [List.find?_isSome]
    exact ⟨op, List.mem_reverse.mpr hop, decide_eq_true hcov⟩
  obtain ⟨op', hop'⟩ := Option.isSome_iff_exists.mp hfind
  have hdec := List.find?_some hop'
  exact ⟨op', List.mem_reverse.mp (List.mem_of_find?_eq_some hop'), of_decide_eq_true hdec, hop'⟩

/-- The later calls decide where they cover an address. -/
theorem translationOf_append_of_covers {op : PmapOp} (hop : op ∈ ops')
    (hcov : op.Covers pageSize v) :
    translationOf k pageSize (ops ++ ops') v = translationOf k pageSize ops' v := by
  obtain ⟨op', -, -, hfind⟩ := exists_decides hop hcov
  unfold translationOf
  rw [List.reverse_append, List.find?_append, hfind, Option.some_or]

/-- Operations elsewhere do not matter. -/
theorem translationOf_append_of_not_covers (h : ∀ op ∈ ops', ¬ op.Covers pageSize v) :
    translationOf k pageSize (ops ++ ops') v = translationOf k pageSize ops v := by
  have hfind : (ops'.reverse.find? fun op => op.Covers pageSize v) = none := by
    rw [List.find?_eq_none]
    intro op hop
    simpa using h op (List.mem_reverse.mp hop)
  unfold translationOf
  rw [List.reverse_append, List.find?_append, hfind, Option.none_or]

/-- Where all calls that cover an address ask for the same, they get it. -/
theorem translationOf_eq_of_agree {x : Option Translation}
    (hsome : ∃ op ∈ ops, op.Covers pageSize v)
    (hall : ∀ op ∈ ops, op.Covers pageSize v → op.result k v = x) :
    translationOf k pageSize ops v = x := by
  obtain ⟨op, hop, hcov⟩ := hsome
  obtain ⟨op', hop', hcov', hfind⟩ := exists_decides hop hcov
  unfold translationOf
  rw [hfind, Option.bind_some]
  exact hall op' hop' hcov'

end Append

/-! ### Trees under construction -/

/-- The shape allows the pages of the region. -/
def Region.Within (g : Region) (C : Shape) (pageSize : ℕ) : Prop :=
  ∀ v, g.Covers pageSize v → C.Allows pageSize v

theorem Region.within_all (g : Region) (pageSize : ℕ) : g.Within .all pageSize := fun _ _ =>
  Shape.all_allows _ _

theorem Region.within_of_le {g : Region} {C : Shape} {pageSize limit : ℕ}
    (hC : ∀ v < limit, C.Allows pageSize v)
    (hle : g.start + pages (g.stop - g.start) pageSize * pageSize ≤ limit) : g.Within C pageSize :=
  fun v hv => hC v (hv.2.trans_le hle)

/-- The mapping loop stays inside the region. -/
theorem Region.Valid.covers_loopAddr {k : TableKind} {pageSize j : ℕ} {g : Region}
    (hsize : IsPageSize pageSize) (h : g.Valid k pageSize)
    (hj : j < regionCount pageSize g.start g.stop) :
    g.Covers pageSize (loopAddr g.start pageSize j) := by
  have hpos : 0 < pageSize := by rcases hsize with rfl | rfl | rfl <;> norm_num
  have hlt : j * pageSize < pages (g.stop - g.start) pageSize * pageSize :=
    Nat.mul_lt_mul_of_pos_right (hj.trans_le (regionCount_le _ _ _)) hpos
  have hle := h.vaddr_le
  rw [loopAddr_eq (by omega)]
  exact ⟨Nat.le_add_right _ _, by omega⟩

section Construction

variable {ε σ : Type} {O : TableOps ε σ} {Owned : σ → Multiset ℕ → Prop} {E : ε → σ → Prop}
  {stop : Stop MapPanic → ε} {k : TableKind} {C : Shape} {pageSize r : ℕ} {s : σ} {R : Multiset ℕ}
  {g : Region} {ops : List PmapOp} {m₀ : Tables}

/-- The tree at `r` realizes the calls; the pages `R` are not part of it and are as in `m₀`. -/
structure Nested (O : TableOps ε σ) (Owned : σ → Multiset ℕ → Prop) (k : TableKind) (C : Shape)
    (pageSize r : ℕ) (R : Multiset ℕ) (ops : List PmapOp) (m₀ : Tables) (s : σ) : Prop where
  tree : IsTree k.tableFlags C (O.read s) pageSize r
  owned : Owned s (treeTables (O.read s) pageSize r + R)
  realizes : Realizes k (O.read s) pageSize r ops
  apart : ∀ a ∈ treeTables (O.read s) pageSize r, a ∉ R
  keeps : ∀ u ∈ R, O.read s u = m₀ u

/-- The first call, with `MAP_NEW`. -/
theorem nested_new (hO : O.Lawful Owned E) (hsize : IsPageSize pageSize) (hg : g.Valid k pageSize)
    (hcount : g.Countable pageSize) (hC : g.Within C pageSize) (hown : Owned s R) :
    wp (g.mapCall O stop k pageSize 0 mapNew)
      (fun r s' => Nested O Owned k C pageSize r R [.map g] (O.read s) s') E s := by
  have hfl := k.tableFlags_lt
  rw [g.mapCall_eq]
  refine (mapRegion_new_spec hO (by omega) (fun hbad => ?_) hcount.not_overflows
    (fun j hj => hC _ (hg.covers_loopAddr hsize hj)) hown).mono ?_ fun _ _ h => h
  · exact absurd ⟨hg.nonempty, hsize, hg.paddr_aligned⟩ hbad
  rintro r s₁ ⟨htree, hown₁, hapart, hframe, hent⟩
  refine ⟨htree, hown₁, ?_, hapart, fun u hu => hframe u fun hmem => hapart u hmem hu⟩
  -- before the first call nothing is mapped
  have hzero : leafEntry (fun _ _ => 0) pageSize r = fun _ => 0 :=
    funext fun v => entryAt_empty (fun _ => rfl) _
  have hempty : Realizes k (fun _ _ => 0) pageSize r [] := by
    refine ⟨fun v _ => ?_, fun _ v _ hne => absurd (congrFun hzero v) hne⟩
    rw [hzero, leafResult_zero]
    rfl
  rw [← hzero] at hent
  exact hg.realizes hsize hcount hempty hent

/-- The root has a table. -/
theorem Nested.root_ne_zero (h : Nested O Owned k C pageSize r R ops m₀ s)
    (hnull : ¬ NullTables k pageSize ops) : O.read s r 0 ≠ 0 := by
  intro hzero
  refine hnull fun v hv => ?_
  rw [← h.realizes.result v (by omega), leafEntry_of_root_zero hzero hv, leafResult_zero]

/-- A later call, with `MAP_UPDATE`; something must be mapped in the lowest entry of the root. -/
theorem Nested.map_call (hO : O.Lawful Owned E) (hsize : IsPageSize pageSize)
    (hg : g.Valid k pageSize) (hcount : g.Countable pageSize) (hC : g.Within C pageSize)
    (hnull : ¬ NullTables k pageSize ops) (h : Nested O Owned k C pageSize r R ops m₀ s) :
    wp (g.mapCall O stop k pageSize r mapUpdate) (fun root s' => root = r ∧
      Nested O Owned k C pageSize r R (ops ++ [.map g]) m₀ s') E s := by
  have hfl := k.tableFlags_lt
  rw [g.mapCall_eq]
  refine (mapRegion_update_spec hO (by omega) (fun hbad => ?_) hcount.not_overflows
    (fun hzero => absurd hzero (h.root_ne_zero hnull))
    (fun j hj => hC _ (hg.covers_loopAddr hsize hj)) h.tree h.owned).mono ?_ fun _ _ h => h
  · exact absurd ⟨hg.nonempty, hsize, hg.paddr_aligned⟩ hbad
  rintro root s' ⟨rfl, hgrown, hown, hent⟩
  have hapart : ∀ a ∈ treeTables (O.read s') pageSize root, a ∉ R := fun a ha =>
    (hgrown.fresh a ha).elim (h.apart a) id
  refine ⟨rfl, hgrown.tree, hown, hg.realizes hsize hcount h.realizes hent, hapart, fun u hu => ?_⟩
  rw [hgrown.frame u fun hmem => hapart u hmem hu, h.keeps u hu]

/-- Mapping one more region. -/
theorem Nested.map (hO : O.Lawful Owned E) (hsize : IsPageSize pageSize) (hg : g.Valid k pageSize)
    (hcount : g.Countable pageSize) (hC : g.Within C pageSize) (hnull : ¬ NullTables k pageSize ops)
    (h : Nested O Owned k C pageSize r R ops m₀ s) :
    wp (PmapOp.run O stop k pageSize r (.map g))
      (fun _ s' => Nested O Owned k C pageSize r R (ops ++ [.map g]) m₀ s') E s :=
  (h.map_call hO hsize hg hcount hC hnull).bind fun _ _ h => h.2

/-- What is mapped stays mapped. -/
theorem NullTables.of_append {gs : List Region}
    (h : NullTables k pageSize (ops ++ gs.map .map)) : NullTables k pageSize ops := by
  intro v hv
  by_cases hcov : ∃ op ∈ gs.map PmapOp.map, op.Covers pageSize v
  · obtain ⟨op, hop, hcov⟩ := hcov
    obtain ⟨op', hop', -, hfind⟩ := exists_decides hop hcov
    obtain ⟨g, -, rfl⟩ := List.mem_map.mp hop'
    have hnone := h v hv
    rw [translationOf_append_of_covers hop hcov] at hnone
    unfold translationOf at hnone
    rw [hfind, Option.bind_some] at hnone
    cases hnone
  · rw [← translationOf_append_of_not_covers fun op hop hc => hcov ⟨op, hop, hc⟩]
    exact h v hv

/-- A sequence of later calls. -/
theorem Nested.maps {gs : List Region} (hO : O.Lawful Owned E) (hsize : IsPageSize pageSize)
    (hgs : ∀ g ∈ gs, g.Valid k pageSize ∧ g.Countable pageSize ∧ g.Within C pageSize)
    (hnull : ¬ NullTables k pageSize ops) (h : Nested O Owned k C pageSize r R ops m₀ s) :
    wp (gs.forM fun g => PmapOp.run O stop k pageSize r (.map g))
      (fun _ s' => Nested O Owned k C pageSize r R (ops ++ gs.map .map) m₀ s') E s := by
  induction gs generalizing ops s with
  | nil => simpa using h
  | cons g gs ih =>
    obtain ⟨⟨hg, hcount, hC⟩, hrest⟩ := List.forall_mem_cons.mp hgs
    change wp (PmapOp.run O stop k pageSize r (.map g) >>= fun _ => gs.forM _) _ E s
    refine (h.map hO hsize hg hcount hC hnull).bind fun _ s₁ h₁ => ?_
    have hnull₁ : ¬ NullTables k pageSize (ops ++ [g].map .map) := fun hn => hnull hn.of_append
    rw [List.map_cons, List.append_cons]
    exact ih hrest hnull₁ h₁

/-- One more call after the calls for the regions `done`. -/
theorem Nested.map_snoc {done : List Region} (hO : O.Lawful Owned E) (hsize : IsPageSize pageSize)
    (hg : g.Valid k pageSize ∧ g.Countable pageSize ∧ g.Within C pageSize)
    (hnull : ¬ NullTables k pageSize ops)
    (h : Nested O Owned k C pageSize r R (ops ++ done.map .map) m₀ s) :
    wp (PmapOp.run O stop k pageSize r (.map g))
      (fun _ s' => Nested O Owned k C pageSize r R (ops ++ (done ++ [g]).map .map) m₀ s') E s := by
  rw [List.map_append, ← List.append_assoc]
  exact h.map hO hsize hg.1 hg.2.1 hg.2.2 fun hn => hnull hn.of_append

/-- Changing what is not a table. -/
theorem Nested.transfer {Owned' : σ → Multiset ℕ → Prop} {s' : σ}
    (h : Nested O Owned k C pageSize r R ops m₀ s) (hread : O.read s' = O.read s)
    (hown : Owned' s' (treeTables (O.read s) pageSize r + R)) :
    Nested O Owned' k C pageSize r R ops m₀ s' := by
  refine ⟨?_, ?_, ?_, ?_, ?_⟩ <;> rw [hread]
  · exact h.tree
  · exact hown
  · exact h.realizes
  · exact h.apart
  · exact h.keeps

/-- The walk of a tree. -/
theorem Realizes.walk {m : Tables} (hsize : IsPageSize pageSize)
    (ht : IsTree k.tableFlags C m pageSize r)
    (haddr : ∀ a ∈ treeTables m pageSize r, a ≠ 0 ∧ a < 2 ^ 52) (h : Realizes k m pageSize r ops)
    {v : ℕ} (hv : v < 2 ^ 48) : walk k m r v = translationOf k pageSize ops v := by
  rw [walk_eq hsize (ht.sound haddr) fun hlarge => h.pse hlarge v hv, h.result v hv]

end Construction

/-! ### The guest page tables -/

/-- The regions of the guest page tables: with `PAGE_PCD` the first 2MB and the devices from
0xFEC00000 on. -/
def guestRegions : List Region :=
  [⟨0, size2MB, 0, 0x13, 0⟩, ⟨size2MB, 0xFEC00000, size2MB, 3, 0⟩,
    ⟨0xFEC00000, size1GB * 4, 0xFEC00000, 0x13, 0⟩]

/-- The three calls of `map_memory` for the guest page tables. -/
def guestTables {ε σ : Type} (O : TableOps ε σ) (stop : Stop MapPanic → ε) (pageSize : ℕ) :
    EStateM ε σ ℕ := do
  let root ← mapMemory O stop 0 0 size2MB 0 pageSize 0x13 mapNew
  let root ← mapMemory O stop root size2MB 0xFEC00000 size2MB pageSize 3 mapUpdate
  mapMemory O stop root 0xFEC00000 (size1GB * 4) 0xFEC00000 pageSize 0x13 mapUpdate

/-- A tree with 2MB pages for the first 4GB. -/
def guestShape : Shape := fun d i => (d = 1 → i = 0) ∧ (d = 0 → i < 4)

/-- The guest page tables at `r`. -/
structure GuestTree (m : Tables) (r : ℕ) : Prop where
  tree : IsTree 3 guestShape m size2MB r
  realizes : Realizes .page m size2MB r (guestRegions.map .map)

/-- The tables of the guest, in the order in which `ept_map_page_tables` visits them. -/
def guestList (m : Tables) (r : ℕ) : List ℕ :=
  let pdpe := tableAddr (m r 0)
  r :: pdpe :: (List.range 4).map fun i => tableAddr (m pdpe i)

section Guest

variable {m : Tables} {r v : ℕ}

/-- The guest tree reaches 4 GB. -/
theorem guestShape_allows (hv : v < 2 ^ 32) : guestShape.Allows size2MB v := by
  intro fl hfl
  have h₁ : tableIndex 39 v = 0 := by unfold tableIndex; omega
  have h₂ : tableIndex 30 v < 4 := by unfold tableIndex; omega
  rw [(paths_2MB v).2.2]
  refine ⟨fun a ha => ⟨by omega, fun _ => h₁, fun h => absurd h (by simp)⟩, fun a ha => ⟨by omega,
    fun h => absurd h (by simp), fun _ => h₂⟩, trivial⟩

/-- The regions of the guest are valid. -/
theorem guestRegions_valid : ∀ g ∈ guestRegions, g.Valid .page size2MB ∧ g.Countable size2MB ∧
    g.Within guestShape size2MB := by
  have hlow : ∀ g ∈ guestRegions, g.start + pages (g.stop - g.start) size2MB *
      size2MB ≤ 2 ^ 32 := by
    decide
  intro g hg
  refine ⟨?_, ?_, fun v hv => guestShape_allows (hv.2.trans_le (hlow g hg))⟩
  · simp only [guestRegions, List.mem_cons, List.not_mem_nil, or_false] at hg
    rcases hg with rfl | rfl | rfl <;>
      exact ⟨by decide, by decide, by decide, by decide, by decide, by decide, by decide,
        fun _ => by decide⟩
  · have hcount : ∀ g ∈ guestRegions, pages (g.stop - g.start) size2MB < 2 ^ 31 := by decide
    exact hcount g hg

/-- The protection in the guest page tables: without caches below 2MB and for the devices. -/
def guestProt (v : ℕ) : ℕ := if v < size2MB ∨ 0xFEC00000 ≤ v then 0x13 else 3

/-- The guest page tables map every address below 4GB to itself. -/
theorem guest_translation (hv : v < 2 ^ 32) :
    translationOf .page size2MB (guestRegions.map .map) v = some ⟨v, guestProt v, 0⟩ := by
  have hsize : size2MB = 0x200000 := rfl
  have hends : guestRegions.map (fun g => g.start + pages (g.stop - g.start) size2MB * size2MB) =
      [0x200000, 0xFEC00000, 2 ^ 32] := by decide
  simp only [guestRegions, List.map_cons, List.map_nil, List.cons.injEq, and_true] at hends
  refine translationOf_eq_of_agree ?_ ?_
  · simp only [guestRegions, List.map_cons, List.map_nil, List.mem_cons, List.not_mem_nil, or_false,
      exists_eq_or_imp, exists_eq_left, PmapOp.Covers, Region.Covers, hends]
    omega
  · -- the regions do not overlap, and each has the protection of its addresses
    simp only [guestRegions, List.map_cons, List.map_nil, List.forall_mem_cons, List.not_mem_nil,
      PmapOp.Covers, Region.Covers, hends, PmapOp.result, guestProt, Option.some.injEq,
      Translation.mk.injEq]
    refine ⟨fun h => ?_, fun h => ?_, fun h => ?_, fun _ h => h.elim⟩
    · rw [if_pos (by omega)]
      exact ⟨by omega, rfl, rfl⟩
    · rw [if_neg (by omega)]
      exact ⟨by omega, rfl, rfl⟩
    · rw [if_pos (by omega)]
      exact ⟨by omega, rfl, rfl⟩

/-- The interior entries of the guest page tables. -/
theorem GuestTree.entries (h : GuestTree m r) : m r 0 ≠ 0 ∧ (∀ i < 512, m r i ≠ 0 → i = 0) ∧
    (∀ i < 4, m (tableAddr (m r 0)) i ≠ 0) ∧
    (∀ i < 512, m (tableAddr (m r 0)) i ≠ 0 → i < 4) := by
  have hleaf : ∀ v < 2 ^ 32, leafEntry m size2MB r v ≠ 0 := fun v hv hzero => by
    have hres := h.realizes.result v (by omega)
    rw [hzero, leafResult_zero, guest_translation hv] at hres
    cases hres
  have hroot : m r 0 ≠ 0 :=
    fun hzero => hleaf 0 (by norm_num) (leafEntry_of_root_zero hzero (by norm_num))
  have hint := h.tree.interior
  refine ⟨hroot, fun i hi hne => (hint i hi hne).1.2.1 rfl, fun i hi hzero => ?_,
    fun i hi hne => ?_⟩
  · have hv : i * 2 ^ 30 < 2 ^ 32 := by omega
    have h₁ : tableIndex 39 (i * 2 ^ 30) = 0 := by unfold tableIndex; omega
    have h₂ : tableIndex 30 (i * 2 ^ 30) = i := by unfold tableIndex; omega
    refine hleaf _ hv ?_
    unfold leafEntry
    rw [(paths_2MB _).2.2, h₁, h₂, entryAt_cons hroot, entryAt_cons_zero hzero]
  · exact ((hint 0 (by norm_num) hroot).2 i hi hne).1.2.2 rfl

/-- There are six guest page tables. -/
theorem GuestTree.tables_eq (h : GuestTree m r) : treeTables m size2MB r = ↑(guestList m r) := by
  obtain ⟨hroot, honly, hpdpe, hfour⟩ := h.entries
  have hleaves : ∀ i ∈ Finset.range 512, i ∉ Finset.range 4 →
      (if m (tableAddr (m r 0)) i = 0 then 0 else
        tables 512 m 0 (tableAddr (m (tableAddr (m r 0)) i))) = 0 := fun i hi hnot => by
    rw [if_pos]
    by_contra hne
    exact hnot (Finset.mem_range.mpr (hfour i (Finset.mem_range.mp hi) hne))
  have hrest : ∀ i ∈ Finset.range 512, i ≠ 0 →
      (if m r i = 0 then 0 else tables 512 m 1 (tableAddr (m r i))) = 0 := fun i hi hne => by
    rw [if_pos]
    by_contra hz
    exact hne (honly i (Finset.mem_range.mp hi) hz)
  unfold treeTables
  rw [(paths_2MB r).1, tables_succ, Finset.sum_eq_single 0 hrest (by simp), if_neg hroot,
    tables_succ,
    ← Finset.sum_subset (Finset.range_subset_range.mpr (by norm_num)) hleaves]
  have hsum : ∑ i ∈ Finset.range 4, (if m (tableAddr (m r 0)) i = 0 then 0 else
      tables 512 m 0 (tableAddr (m (tableAddr (m r 0)) i))) =
      ∑ i ∈ Finset.range 4, {tableAddr (m (tableAddr (m r 0)) i)} :=
    Finset.sum_congr rfl fun i hi => by rw [if_neg (hpdpe i (Finset.mem_range.mp hi)), tables_zero]
  rw [hsum]
  simp [guestList, Finset.sum_range_succ, List.range_succ]
  rfl

/-- The leaf entries of the guest page tables are large pages. -/
theorem GuestTree.large (h : GuestTree m r) {i j : ℕ} (hi : i < 4) (hj : j < 512) :
    m (tableAddr (m (tableAddr (m r 0)) i)) j = 0 ∨
      IsPse (m (tableAddr (m (tableAddr (m r 0)) i)) j) := by
  obtain ⟨hroot, -, hpdpe, -⟩ := h.entries
  have hv : i * 2 ^ 30 + j * 2 ^ 21 < 2 ^ 48 := by omega
  have h₁ : tableIndex 39 (i * 2 ^ 30 + j * 2 ^ 21) = 0 := by unfold tableIndex; omega
  have h₂ : tableIndex 30 (i * 2 ^ 30 + j * 2 ^ 21) = i := by unfold tableIndex; omega
  have h₃ : tableIndex 21 (i * 2 ^ 30 + j * 2 ^ 21) = j := by unfold tableIndex; omega
  have hpse := h.realizes.pse (by decide) _ hv
  unfold leafEntry at hpse
  rw [(paths_2MB _).2.2, (paths_2MB _).2.1, h₁, h₂, h₃, entryAt_cons hroot,
    entryAt_cons (hpdpe i hi),
    entryAt_nil] at hpse
  exact or_iff_not_imp_left.mpr hpse

end Guest

/-! ### Keeping a tree -/

section Keep

variable {m m' : Tables} {pageSize r fl : ℕ} {C : Shape} {k : TableKind} {ops : List PmapOp}

/-- The tables depend on themselves only. -/
theorem treeTables_congr (h : ∀ t ∈ treeTables m pageSize r, m' t = m t) :
    treeTables m' pageSize r = treeTables m pageSize r := tables_congr h

/-- A leaf depends on the tables only. -/
theorem leafEntry_congr (h : ∀ t ∈ treeTables m pageSize r, m' t = m t) (v : ℕ) :
    leafEntry m' pageSize r v = leafEntry m pageSize r v :=
  entryAt_congr h (length_pagePath pageSize v).le (validPath_pagePath pageSize v) _

/-- A tree whose tables are not written stays. -/
theorem IsTree.congr (ht : IsTree fl C m pageSize r)
    (h : ∀ t ∈ treeTables m pageSize r, m' t = m t) : IsTree fl C m' pageSize r :=
  ⟨by rw [treeTables_congr h]; exact ht.nodup, ht.interior.congr h⟩

/-- The map depends on the tables only. -/
theorem Realizes.congr (hr : Realizes k m pageSize r ops)
    (h : ∀ t ∈ treeTables m pageSize r, m' t = m t) : Realizes k m' pageSize r ops := by
  refine ⟨fun v hv => ?_, fun hlarge v hv => ?_⟩
  · rw [leafEntry_congr h, hr.result v hv]
  · rw [leafEntry_congr h]
    exact hr.pse hlarge v hv

/-- The guest tree depends on its tables only. -/
theorem GuestTree.congr (hg : GuestTree m r) (h : ∀ t ∈ treeTables m size2MB r, m' t = m t) :
    GuestTree m' r ∧ guestList m' r = guestList m r := by
  refine ⟨⟨hg.tree.congr h, hg.realizes.congr h⟩, ?_⟩
  rw [hg.tables_eq] at h
  have hr : m' r = m r := h r (Multiset.mem_coe.mpr List.mem_cons_self)
  have hp : m' (tableAddr (m r 0)) = m (tableAddr (m r 0)) :=
    h _ (Multiset.mem_coe.mpr (List.mem_cons_of_mem _ List.mem_cons_self))
  simp only [guestList, hr, hp]

end Keep

/-! ### Mapping the guest page tables -/

/-- One page, mapped to itself with the memory type `EPT_MTYPE_WB`. -/
def identityRegion (page prot : ℕ) : Region := ⟨page, (page + size4KB) % 2 ^ 64, page, prot, 6⟩

/-- `ept_map_page_tables` -/
def mapPageTables {ε σ : Type} (O : TableOps ε σ) (stop : Stop MapPanic → ε) (ept pml4 prot : ℕ) :
    EStateM ε σ Unit := do
  let identity page := PmapOp.run O stop .ept size4KB ept (.map (identityRegion page prot))
  if pml4 = 0 then
    throw (stop (.panic .notCreated))
  identity pml4
  let pdpe := tableAddr (O.read (← get) pml4 0)
  if pdpe ≠ 0 then
    identity pdpe
    (List.range 4).forM fun i => do
      let e := O.read (← get) pdpe i
      if e ≠ 0 ∧ ¬ IsPse e then
        let pde := tableAddr e
        if pde ≠ 0 then
          identity pde
          (List.range pageTableEntries).forM fun j => do
            let e := O.read (← get) pde j
            if e ≠ 0 ∧ ¬ IsPse e then
              identity (tableAddr e)

section Build

variable {ε σ : Type} {O : TableOps ε σ} {Owned : σ → Multiset ℕ → Prop} {E : ε → σ → Prop}
  {stop : Stop MapPanic → ε} {C : Shape} {r ept prot : ℕ} {s : σ} {R : Multiset ℕ}
  {ops : List PmapOp} {m₀ : Tables}

/-- The guest page tables as three calls, the first of which makes an entry in the root. -/
theorem guestTables_calls (O : TableOps ε σ) (stop : Stop MapPanic → ε) :
    ∃ g₁ g₂ g₃, guestRegions = [g₁, g₂, g₃] ∧ ¬ NullTables .page size2MB [.map g₁] ∧
      guestTables O stop size2MB = (do
        let root ← g₁.mapCall O stop .page size2MB 0 mapNew
        let root ← g₂.mapCall O stop .page size2MB root mapUpdate
        g₃.mapCall O stop .page size2MB root mapUpdate) := by
  refine ⟨_, _, _, rfl, fun hn => ?_, rfl⟩
  have hnone := hn 0 (by norm_num)
  exact absurd hnone (by decide)

/-- Building the guest page tables, on a machine without 1GB pages. -/
theorem guestTables_spec (hO : O.Lawful Owned E) (hown : Owned s R) :
    wp (guestTables O stop size2MB) (fun r s' => GuestTree (O.read s') r ∧
      Owned s' (treeTables (O.read s') size2MB r + R) ∧
      (∀ a ∈ treeTables (O.read s') size2MB r, a ∉ R) ∧ ∀ u ∈ R, O.read s' u = O.read s u) E s := by
  have hsize : IsPageSize size2MB := Or.inr (Or.inl rfl)
  obtain ⟨g₁, g₂, g₃, hgs, hnull, hcall⟩ := guestTables_calls O stop
  have hvalid := guestRegions_valid
  rw [hgs] at hvalid
  obtain ⟨h₁, h₂, h₃⟩ : _ ∧ _ ∧ _ := by simpa using hvalid
  rw [hcall]
  refine (nested_new hO hsize h₁.1 h₁.2.1 h₁.2.2 hown).bind fun r s₁ n₁ => ?_
  refine (n₁.map_call hO hsize h₂.1 h₂.2.1 h₂.2.2 hnull).bind ?_
  rintro r s₂ ⟨rfl, n₂⟩
  have hnull₂ : ¬ NullTables .page size2MB ([.map g₁] ++ [g₂].map .map) :=
    fun hn => hnull hn.of_append
  refine (n₂.map_call hO hsize h₃.1 h₃.2.1 h₃.2.2 hnull₂).mono ?_ fun _ _ h => h
  rintro r s₃ ⟨rfl, n₃⟩
  refine ⟨⟨n₃.tree, ?_⟩, n₃.owned, n₃.apart, n₃.keeps⟩
  rw [hgs]
  exact n₃.realizes

/-- On a machine with 1GB pages the second region is not aligned. -/
theorem guestTables_1GB {Q : ℕ → σ → Prop} (hO : O.Lawful Owned E) (hown : Owned s R)
    (hbad : ∀ s', E (stop (.panic .notAligned)) s') : wp (guestTables O stop size1GB) Q E s := by
  have hvalid : (⟨0, size2MB, 0, 0x13, 0⟩ : Region).Valid .page size1GB :=
    ⟨by decide, by decide, by decide, by decide, by decide, by decide, by decide,
    fun _ => by decide⟩
  have hcount : pages (size2MB - 0) size1GB < 2 ^ 31 := by decide
  have hthrow : ∀ r, mapMemory O stop r size2MB 0xFEC00000 size2MB size1GB 3 mapUpdate =
      throw (stop (.panic .notAligned)) := fun _ => rfl
  refine (nested_new hO (Or.inr (Or.inr rfl)) hvalid hcount (Region.within_all _ _) hown).bind
    fun r s₁ _ => ?_
  rw [hthrow, wp_bind, wp_throw]
  exact hbad s₁

/-- A page mapped to itself. -/
theorem identityRegion_valid {page : ℕ} (hal : page % 4096 = 0) (hlt : page + 4096 ≤ 2 ^ 48)
    (hpos : 0 < prot)
    (hprot : prot < 8) : (identityRegion page prot).Valid .ept size4KB ∧
      (identityRegion page prot).Countable size4KB := by
  have hstop : (page + size4KB) % 2 ^ 64 = page + 4096 := Nat.mod_eq_of_lt (by
    have hsize : size4KB = 4096 := rfl
    omega)
  have hpages : pages ((identityRegion page prot).stop - (identityRegion page prot).start)
      size4KB = 1 := by
    simp only [identityRegion, hstop, Nat.add_sub_cancel_left]
    rfl
  have hsize : size4KB = 4096 := rfl
  have hmtype : (identityRegion page prot).mtype < 8 := by simp [identityRegion]
  refine ⟨⟨?_, hal, hal, ?_, ?_, hpos, hprot, hmtype⟩, ?_⟩
  · simp only [identityRegion, hstop]
    omega
  · rw [hpages]
    simp only [identityRegion]
    omega
  · rw [hpages]
    simp only [identityRegion]
    omega
  · unfold Region.Countable
    rw [hpages]
    norm_num

variable (stop prot) in
/-- The guest page tables are mapped to themselves. -/
theorem mapPageTables_spec (hO : O.Lawful Owned E) (hguest : GuestTree m₀ r)
    (hR : ∀ t ∈ guestList m₀ r, t ∈ R ∧ t ≠ 0 ∧ t % 4096 = 0 ∧ t + 4096 ≤ 2 ^ 48 ∧
      (identityRegion t prot).Within C size4KB)
    (hpos : 0 < prot) (hprot : prot < 8) (hnull : ¬ NullTables .ept size4KB ops)
    (h : Nested O Owned .ept C size4KB ept R ops m₀ s) :
    wp (mapPageTables O stop ept r prot) (fun _ s' => Nested O Owned .ept C size4KB ept R
      (ops ++ (guestList m₀ r).map fun t => .map (identityRegion t prot)) m₀ s') E s := by
  obtain ⟨hroot, -, hpdpe, -⟩ := hguest.entries
  have hstep : ∀ (done : List Region) t s, t ∈ guestList m₀ r →
      Nested O Owned .ept C size4KB ept R (ops ++ done.map .map) m₀ s →
      wp (PmapOp.run O stop .ept size4KB ept (.map (identityRegion t prot))) (fun _ s' =>
        Nested O Owned .ept C size4KB ept R
          (ops ++ (done ++ [identityRegion t prot]).map .map) m₀ s') E s := by
    intro done t s ht hn
    obtain ⟨-, -, hal, hlt, hw⟩ := hR t ht
    obtain ⟨hv, hc⟩ := identityRegion_valid hal hlt hpos hprot
    exact hn.map_snoc hO (Or.inl rfl) ⟨hv, hc, hw⟩ hnull
  -- the tables of the third level have large pages only, so that the inner loop does nothing
  have hmem : ∀ i < 4, tableAddr (m₀ (tableAddr (m₀ r 0)) i) ∈ guestList m₀ r := fun i hi =>
    List.mem_cons_of_mem _
    (List.mem_cons_of_mem _ (List.mem_map.mpr ⟨i, List.mem_range.mpr hi, rfl⟩))
  have hbody : ∀ i < 4, ∀ (done : List Region) s,
      Nested O Owned .ept C size4KB ept R (ops ++ done.map .map) m₀ s →
      wp (do
        let e := O.read (← get) (tableAddr (m₀ r 0)) i
        if e ≠ 0 ∧ ¬ IsPse e then
          let pde := tableAddr e
          if pde ≠ 0 then
            PmapOp.run O stop .ept size4KB ept (.map (identityRegion pde prot))
            (List.range pageTableEntries).forM fun j => do
              let e := O.read (← get) pde j
              if e ≠ 0 ∧ ¬ IsPse e then
                PmapOp.run O stop .ept size4KB ept (.map (identityRegion (tableAddr e) prot)))
        (fun _ s' => Nested O Owned .ept C size4KB ept R (ops ++ (done ++
          [identityRegion (tableAddr (m₀ (tableAddr (m₀ r 0)) i)) prot]).map .map) m₀ s') E s := by
    intro i hi done s hn
    have hread := congrFun (hn.keeps (tableAddr (m₀ r 0)) (hR _ (List.mem_cons_of_mem _
      List.mem_cons_self)).1) i
    obtain ⟨hpdeR, hpde, -⟩ := hR _ (hmem i hi)
    have hint := (hguest.tree.interior 0 (by norm_num) hroot).2 i (by omega) (hpdpe i hi)
    have hpse : ¬ IsPse (m₀ (tableAddr (m₀ r 0)) i) := by
      have hfl := hint.1.1
      unfold IsPse
      omega
    rw [wp_bind, wp_get, hread, if_pos ⟨hpdpe i hi, hpse⟩, if_pos hpde]
    refine (hstep done _ s (hmem i hi) hn).bind fun _ s₁ hn₁ => ?_
    have hl : ∀ j ∈ List.range pageTableEntries, j < 512 := fun j hj => List.mem_range.mp hj
    generalize List.range pageTableEntries = l at hl ⊢
    refine wp_forM_const (fun j hj s₂ hn₂ => ?_) hn₁
    have hjlt := hl j hj
    rw [wp_bind, wp_get, congrFun (hn₂.keeps _ hpdeR) j]
    rw [if_neg fun hc => (hguest.large hi hjlt).elim hc.1 hc.2]
    exact hn₂
  obtain ⟨-, hr0, -⟩ := hR r List.mem_cons_self
  obtain ⟨-, hp0, -⟩ := hR _ (List.mem_cons_of_mem r List.mem_cons_self)
  have h₀ : Nested O Owned .ept C size4KB ept R (ops ++ ([] : List Region).map .map) m₀ s := by
    simpa using h
  unfold mapPageTables
  simp only [if_neg hr0]
  refine (hstep [] r s List.mem_cons_self h₀).bind fun _ s₁ h₁ => ?_
  have hread : O.read s₁ r = m₀ r := h₁.keeps r (hR r List.mem_cons_self).1
  rw [wp_bind, wp_get, hread, if_pos hp0]
  refine (hstep _ _ s₁ (List.mem_cons_of_mem r List.mem_cons_self) h₁).bind fun _ s₂ h₂ => ?_
  have hfour : List.range 4 = [0, 1, 2, 3] := rfl
  rw [hfour]
  refine (hbody 0 (by norm_num) _ s₂ h₂).bind fun _ s₃ h₃ => ?_
  refine (hbody 1 (by norm_num) _ s₃ h₃).bind fun _ s₄ h₄ => ?_
  refine (hbody 2 (by norm_num) _ s₄ h₄).bind fun _ s₅ h₅ => ?_
  refine (hbody 3 (by norm_num) _ s₅ h₅).bind fun _ s₆ h₆ => ?_
  simpa [guestList, hfour] using h₆

end Build

end Savannah
