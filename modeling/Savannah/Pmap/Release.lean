import Savannah.Pmap.Walk

/-!
# Releasing the tables of a tree

`free_page_tables` walks a tree and releases its tables: it looks at the first entry of the root, at
four entries of the table behind it and at all entries of the tables behind those, and takes an
entry for a page where the flag of a large page is set.  `releaseList` is the sequence of addresses
that it releases.

For a tree that maps pages of one size below 4GB (`LowTree`) these are exactly the tables of the
tree, each once.  Such trees are what the mapping calls build, from whichever addresses, sizes and
protections (`mapRegion_low`); that a tree is used for one page size is what makes the flag decide
between tables and pages.
-/

namespace Savannah

open Foundation

/-! ### The released addresses -/

/-- What is released for one entry of a page directory: the table behind it. -/
def releasePte (m : Tables) (pde j : ℕ) : List ℕ :=
  if m pde j ≠ 0 ∧ ¬ IsPse (m pde j) then [tableAddr (m pde j)] else []

/-- What is released for the entry `i` of the table of page directories. -/
def releasePde (m : Tables) (pdpe i : ℕ) : List ℕ :=
  if m pdpe i ≠ 0 ∧ ¬ IsPse (m pdpe i) then
    if tableAddr (m pdpe i) ≠ 0 then
      (List.range pageTableEntries).flatMap (releasePte m (tableAddr (m pdpe i))) ++
        [tableAddr (m pdpe i)]
    else []
  else []

/-- The addresses that `free_page_tables` releases, in the order of its calls. -/
def releaseList (m : Tables) (base : ℕ) : List ℕ :=
  (if tableAddr (m base 0) ≠ 0 then (List.range 4).flatMap (releasePde m (tableAddr (m base 0)))
    else []) ++ [tableAddr (m base 0), base]

/-! ### Trees below 4GB -/

/-- The interior entries of a tree below 4GB: their flags are those of one of the mapping functions,
only the first entry of the root is in use, and of the table behind it the first four. -/
def lowEntry (pageSize d i e : ℕ) : Prop :=
  (e % 4096 = 3 ∨ e % 4096 = 7) ∧ (d + 1 = depth pageSize → i = 0) ∧
  (d + 2 = depth pageSize → i < 4)

/-- A tree for pages of one size below 4GB; the entries of large pages carry their flag. -/
structure LowTree (m : Tables) (pageSize r : ℕ) : Prop where
  nodup : (treeTables m pageSize r).Nodup
  interior : Interior 512 (lowEntry pageSize) m (depth pageSize) r
  large : pageSize ≠ size4KB → ∀ is i, is.length = depth pageSize → ValidPath 512 is →
    entryAt m r is i ≠ 0 → IsPse (entryAt m r is i)

/-- A list of addresses gathered from the indices below `n`, as a multiset. -/
theorem coe_flatMap_range (n : ℕ) (g : ℕ → List ℕ) :
    (↑((List.range n).flatMap g) : Multiset ℕ) = ∑ i ∈ Finset.range n, (↑(g i) : Multiset ℕ) := by
  induction n with
  | zero => rfl
  | succ n ih =>
    rw [List.range_succ, List.flatMap_append, ← Multiset.coe_add, ih, Finset.sum_range_succ]
    simp

section Released

variable {m : Tables} {pageSize r i j : ℕ}

theorem not_isPse_of_flags {e : ℕ} (h : e % 4096 = 3 ∨ e % 4096 = 7) : ¬ IsPse e := by
  unfold IsPse
  omega

/-- Tables of the last level: what is released for their parent is its children. -/
theorem releasePte_sum {pde : ℕ}
    (h : ∀ j < 512, m pde j ≠ 0 → m pde j % 4096 = 3 ∨ m pde j % 4096 = 7) :
    (↑((List.range pageTableEntries).flatMap (releasePte m pde) ++ [pde]) : Multiset ℕ) =
      tables 512 m 1 pde := by
  rw [← Multiset.coe_add, coe_flatMap_range, tables_succ, Multiset.coe_singleton, add_comm,
    Multiset.singleton_add]
  refine congrArg (Multiset.cons pde) (Finset.sum_congr rfl fun j hj => ?_)
  unfold releasePte
  by_cases hz : m pde j = 0
  · simp [hz]
  · rw [if_pos ⟨hz, not_isPse_of_flags (h j (Finset.mem_range.mp hj) hz)⟩, if_neg hz, tables_zero]
    rfl

/-- Pages of a directory: nothing is released for them. -/
theorem releasePte_pages {pde : ℕ} (h : ∀ j < 512, m pde j ≠ 0 → IsPse (m pde j)) :
    (List.range pageTableEntries).flatMap (releasePte m pde) = [] := by
  rw [List.flatMap_eq_nil_iff]
  intro j hj
  unfold releasePte
  refine if_neg fun hne => hne.2 (h j (List.mem_range.mp hj) hne.1)

/-- The children of the table of page directories. -/
theorem releasePde_sum {pdpe d : ℕ} (hfour : ∀ i < 512, m pdpe i ≠ 0 → i < 4)
    (h : ∀ i < 4, m pdpe i ≠ 0 →
      (↑(releasePde m pdpe i) : Multiset ℕ) = tables 512 m d (tableAddr (m pdpe i))) :
    (↑((List.range 4).flatMap (releasePde m pdpe) ++ [pdpe]) : Multiset ℕ) =
      tables 512 m (d + 1) pdpe := by
  rw [← Multiset.coe_add, coe_flatMap_range, tables_succ, Multiset.coe_singleton, add_comm,
    Multiset.singleton_add]
  refine congrArg (Multiset.cons pdpe) ?_
  have hsub : Finset.range 4 ⊆ Finset.range 512 := Finset.range_subset_range.mpr (by norm_num)
  rw [← Finset.sum_subset hsub]
  · refine Finset.sum_congr rfl fun i hi => ?_
    by_cases hz : m pdpe i = 0
    · simp [releasePde, hz]
    · rw [if_neg hz, h i (Finset.mem_range.mp hi) hz]
  · intro i hi hnot
    refine if_pos ?_
    by_contra hz
    exact hnot (Finset.mem_range.mpr (hfour i (Finset.mem_range.mp hi) hz))

/-- The released addresses are the tables of the tree. -/
theorem LowTree.releaseList_eq (h : LowTree m pageSize r) (hsize : IsPageSize pageSize)
    (haddr : ∀ a ∈ treeTables m pageSize r, a ≠ 0) (hroot : m r 0 ≠ 0) :
    (↑(releaseList m r) : Multiset ℕ) = treeTables m pageSize r := by
  set pdpe := tableAddr (m r 0) with hpdpe
  have hint := h.interior
  have hlarge := h.large
  unfold treeTables at haddr ⊢
  -- it is enough to look at the tree behind the first entry of the root
  have key : ∀ k, depth pageSize = k + 1 →
      (↑((List.range 4).flatMap (releasePde m pdpe) ++ [pdpe]) : Multiset ℕ) =
        tables 512 m k pdpe → (↑(releaseList m r) : Multiset ℕ) = tables 512 m
        (depth pageSize) r := by
    intro k hk htail
    rw [hk] at hint haddr ⊢
    have hne : pdpe ≠ 0 :=
      haddr pdpe (child_mem_tables (by norm_num) hroot root_mem_tables)
    have hsplit : releaseList m r = ((List.range 4).flatMap (releasePde m pdpe) ++ [pdpe]) ++
        [r] := by
      rw [releaseList, if_pos hne, List.append_assoc]
      rfl
    rw [hsplit, ← Multiset.coe_add, htail, tables_succ, Multiset.coe_singleton, add_comm,
      Multiset.singleton_add]
    refine congrArg (Multiset.cons r) ?_
    rw [Finset.sum_eq_single 0]
    · rw [if_neg hroot]
    · intro i hi hi0
      refine if_pos ?_
      by_contra hz
      exact hi0 ((hint i (Finset.mem_range.mp hi) hz).1.2.1 hk.symm)
    · exact fun h0 => absurd (Finset.mem_range.mpr (by norm_num)) h0
  have hsub : ∀ k, depth pageSize = k + 1 → Interior 512 (lowEntry pageSize) m k pdpe := by
    intro k hk
    rw [hk] at hint
    exact (hint 0 (by norm_num) hroot).2
  have haddr' : ∀ k, depth pageSize = k + 2 → ∀ i < 512, m pdpe i ≠ 0 →
      tableAddr (m pdpe i) ≠ 0 := by
    intro k hk i hi hz
    rw [hk] at haddr
    exact haddr _ (child_mem_tables (by norm_num) hroot (child_mem_tables hi hz root_mem_tables))
  rcases hsize with rfl | rfl | rfl
  · -- pages of 4KB: the page directories lead to tables
    refine key 2 rfl (releasePde_sum (fun i hi hz => ((hsub 2 rfl) i hi hz).1.2.2 rfl)
      fun i hi hz => ?_)
    have hi' : i < 512 := by omega
    obtain ⟨hflags, hpde⟩ := (hsub 2 rfl) i hi' hz
    rw [releasePde, if_pos ⟨hz, not_isPse_of_flags hflags.1⟩, if_pos (haddr' 1 rfl i hi' hz)]
    exact releasePte_sum fun j hj hj0 => (hpde j hj hj0).1.1
  · -- pages of 2MB: the page directories hold pages
    refine key 1 rfl (releasePde_sum (fun i hi hz => ((hsub 1 rfl) i hi hz).1.2.2 rfl)
      fun i hi hz => ?_)
    have hi' : i < 512 := by omega
    obtain ⟨hflags, -⟩ := (hsub 1 rfl) i hi' hz
    have hpages : ∀ j < 512, m (tableAddr (m pdpe i)) j ≠ 0 →
        IsPse (m (tableAddr (m pdpe i)) j) := by
      intro j hj hj0
      have hentry : entryAt m r [0, i] j = m (tableAddr (m pdpe i)) j := by
        rw [entryAt_cons hroot, entryAt_cons hz, entryAt_nil]
      rw [← hentry] at hj0 ⊢
      exact hlarge (by decide) [0, i] j rfl (by simp [ValidPath, hi']) hj0
    rw [releasePde, if_pos ⟨hz, not_isPse_of_flags hflags.1⟩, if_pos (haddr' 0 rfl i hi' hz),
      releasePte_pages hpages, tables_zero]
    rfl
  · -- pages of 1GB
    refine key 0 rfl ?_
    have hnone : (List.range 4).flatMap (releasePde m pdpe) = [] := by
      rw [List.flatMap_eq_nil_iff]
      intro i hi
      have hi' : i < 4 := List.mem_range.mp hi
      refine if_neg fun hne => hne.2 ?_
      have hentry : entryAt m r [0] i = m pdpe i := by rw [entryAt_cons hroot, entryAt_nil]
      rw [← hentry]
      exact hlarge (by decide) [0] i rfl (by simp [ValidPath]) (by rw [hentry]; exact hne.1)
    rw [hnone, tables_zero]
    rfl

end Released

/-! ### Building such trees -/

/-- A call of `map_memory` or of `ept_map_memory`. -/
structure MapCall where
  kind : TableKind
  region : Region

/-- The call with given flags, on the tree at `root`. -/
def MapCall.run {ε σ : Type} (O : TableOps ε σ) (stop : Stop MapPanic → ε) (pageSize root flags : ℕ)
    (c : MapCall) : EStateM ε σ ℕ :=
  c.region.mapCall O stop c.kind pageSize root flags

/-- A tree that the first call creates with `MAP_NEW` and the others extend. -/
def mapCalls {ε σ : Type} (O : TableOps ε σ) (stop : Stop MapPanic → ε) (pageSize : ℕ)
    (c : MapCall) (cs : List MapCall) : EStateM ε σ ℕ := do
  let root ← c.run O stop pageSize 0 mapNew
  cs.forM fun c => do
    let _ ← c.run O stop pageSize root mapUpdate
  return root

section Build

variable {ε σ : Type} {O : TableOps ε σ} {Owned : σ → Multiset ℕ → Prop} {E : ε → σ → Prop}
  {stop : Stop MapPanic → ε} {fl lf r pageSize v p n e : ℕ} {s : σ} {R : Multiset ℕ}

/-- The tree at `r` maps below 4GB, and its tables are held on top of `R`. -/
structure LowBuilt (O : TableOps ε σ) (Owned : σ → Multiset ℕ → Prop) (pageSize r : ℕ)
    (R : Multiset ℕ) (s : σ) : Prop where
  tree : LowTree (O.read s) pageSize r
  owned : Owned s (treeTables (O.read s) pageSize r + R)

theorem pathOk_low (hsize : IsPageSize pageSize) (hfl : fl = 3 ∨ fl = 7) (hv : v < 2 ^ 32) :
    PathOk (lowEntry pageSize) fl (pagePath pageSize v) := by
  have h₁ : tableIndex 39 v = 0 := by unfold tableIndex; omega
  have h₂ : tableIndex 30 v < 4 := by unfold tableIndex; omega
  have hflags : ∀ a, a % 4096 = 0 → (a + fl) % 4096 = 3 ∨ (a + fl) % 4096 = 7 :=
    fun a ha => by omega
  rcases hsize with rfl | rfl | rfl
  · rw [(paths_4KB v).2.2]
    exact ⟨fun a ha => ⟨hflags a ha, fun _ => h₁, fun h => absurd h (by simp [depth])⟩,
      fun a ha => ⟨hflags a ha, fun h => absurd h (by simp [depth]), fun _ => h₂⟩,
      fun a ha => ⟨hflags a ha, fun h => absurd h (by simp [depth]), fun h => absurd h
      (by simp [depth])⟩,
      trivial⟩
  · rw [(paths_2MB v).2.2]
    exact ⟨fun a ha => ⟨hflags a ha, fun _ => h₁, fun h => absurd h (by simp [depth])⟩,
      fun a ha => ⟨hflags a ha, fun h => absurd h (by simp [depth]), fun _ => h₂⟩, trivial⟩
  · rw [(paths_1GB v).2.2]
    exact ⟨fun a ha => ⟨hflags a ha, fun _ => h₁, fun h => absurd h (by simp [depth])⟩, trivial⟩

/-- The path to a page begins at the first entry of the root. -/
theorem pagePath_low (pageSize : ℕ) (hv : v < 2 ^ 32) : ∃ is, pagePath pageSize v = 0 :: is := by
  have h₁ : tableIndex 39 v = 0 := by unfold tableIndex; omega
  unfold pagePath
  rw [h₁]
  split
  · exact ⟨_, rfl⟩
  · split <;> exact ⟨_, rfl⟩

/-- Entering one page. -/
theorem mapPage_low (hO : O.Lawful Owned E) (hsize : IsPageSize pageSize) (hfl : fl = 3 ∨ fl = 7)
    (hv : v < 2 ^ 32) (he : pageSize ≠ size4KB → IsPse e) (h : LowBuilt O Owned pageSize r R s) :
    wp (mapPage O fl r v pageSize e)
      (fun _ s' => LowBuilt O Owned pageSize r R s' ∧ O.read s' r 0 ≠ 0) E s := by
  have hlen := length_pagePath pageSize v
  have hlt : fl < 4096 := by omega
  have hnd := h.tree.nodup
  have hint := h.tree.interior
  have hown := h.owned
  have hvalid := validPath_pagePath pageSize v
  have hpath := pathOk_low hsize hfl hv
  rw [mapPage_eq]
  unfold treeTables at hnd hown
  rw [← hlen] at hnd hint hown
  have hinsert := TableOps.insert_spec (i := leafIndex pageSize v) (e := e) hO hlt hnd
    hint hvalid hpath hown
  have hroot : wp (O.insert fl r (pagePath pageSize v) (leafIndex pageSize v) e)
      (fun _ s' => O.read s' r 0 ≠ 0) E s := by
    obtain ⟨is, his⟩ := pagePath_low pageSize hv
    rw [his] at hnd hint hvalid hpath hown ⊢
    exact TableOps.insert_root hO hlt hnd hint hvalid hpath hown
  refine (hinsert.and hroot).mono ?_ fun _ _ h => h.1
  rintro - s' ⟨⟨N, hgrown, hown', hent⟩, hroot'⟩
  rw [hlen] at hgrown hown' hent
  refine ⟨⟨⟨hgrown.nodup, hgrown.interior, fun hlarge is i his hv' => ?_⟩, hown'⟩, hroot'⟩
  rw [hent is his hv' i]
  split
  · exact fun _ => he hlarge
  · exact h.tree.large hlarge is i his hv'

/-- The mapping loop. -/
theorem mapLoop_low (hO : O.Lawful Owned E) (hsize : IsPageSize pageSize) (hfl : fl = 3 ∨ fl = 7)
    (hv : ∀ j < n, loopAddr v pageSize j < 2 ^ 32)
    (hlf : pageSize ≠ size4KB → ∀ a, IsPse (a ||| lf))
    (hroot : n = 0 → O.read s r 0 ≠ 0) (h : LowBuilt O Owned pageSize r R s) :
    wp (mapLoop O fl r pageSize lf n v p)
      (fun _ s' => LowBuilt O Owned pageSize r R s' ∧ O.read s' r 0 ≠ 0) E s := by
  induction n generalizing s v p with
  | zero => exact ⟨h, hroot rfl⟩
  | succ n ih =>
    unfold mapLoop
    refine (mapPage_low hO hsize hfl (hv 0 (by omega)) (fun hl => hlf hl p) h).bind ?_
    rintro - s₁ ⟨h₁, hroot₁⟩
    refine ih (fun j hj => ?_) (fun _ => hroot₁) h₁
    rw [loopAddr_succ]
    exact hv (j + 1) (by omega)

/-- The addresses of the loop stay below the end of the region. -/
theorem loopAddr_lt {a b j : ℕ} (hb : b ≤ 2 ^ 32) (hsize : IsPageSize pageSize)
    (hj : j < regionCount pageSize a b) : loopAddr a pageSize j < b := by
  have hpos : 0 < pageSize := by rcases hsize with rfl | rfl | rfl <;> norm_num
  have hj' := hj.trans_le (regionCount_le pageSize a b)
  have hspec := pages_spec (b - a) hpos
  have hlt : a + j * pageSize < b := by
    have hmul : (j + 1) * pageSize ≤ pages (b - a) pageSize * pageSize :=
      Nat.mul_le_mul_right _ hj'
    rw [Nat.succ_mul] at hmul
    omega
  rw [loopAddr_eq (by omega)]
  exact hlt

/-- The flags of large pages are set in their entries. -/
theorem isPse_sizedFlags (hlarge : pageSize ≠ size4KB) (a lf : ℕ) :
    IsPse (a ||| sizedFlags pageSize lf) := by
  have hbit : (a ||| sizedFlags pageSize lf).testBit 7 = true := by
    rw [sizedFlags, if_neg hlarge, Nat.testBit_lor, Nat.testBit_lor]
    simp [pagePse, Nat.testBit]
  rw [Nat.testBit_eq_decide_div_mod_eq, decide_eq_true_eq] at hbit
  exact hbit

/-- The loop of a call that is accepted makes at least one step. -/
theorem regionCount_pos {a b : ℕ} (hb : b ≤ 2 ^ 32) (hsize : IsPageSize pageSize) (hab : a < b) :
    0 < regionCount pageSize a b := by
  have hpos : 4096 ≤ pageSize := by rcases hsize with rfl | rfl | rfl <;> norm_num
  have hspec := pages_spec (b - a) (show 0 < pageSize by omega)
  have hlow : pages (b - a) pageSize * 4096 ≤ pages (b - a) pageSize * pageSize :=
    Nat.mul_le_mul_left _ hpos
  have hle : pageSize ≤ 2 ^ 30 := by rcases hsize with rfl | rfl | rfl <;> norm_num
  have hne : pages (b - a) pageSize ≠ 0 := fun h0 => by
    rw [h0] at hspec
    omega
  rw [regionCount_eq (by omega)]
  omega

/-- A call that is not accepted does not return. -/
theorem mapRegion_rejected {a b flags : ℕ} {Q : ℕ → σ → Prop}
    (h : ¬ RegionAccepted pageSize a b p) (hstop : ∀ q s, E (stop q) s) :
    wp (mapRegion O stop fl lf r a b p pageSize flags) Q E s := by
  unfold mapRegion
  refine wp_ite.mpr ⟨fun _ => hstop _ _, fun hle => wp_ite.mpr ⟨fun _ => hstop _ _, fun hne =>
    wp_ite.mpr ⟨fun _ => hstop _ _, fun hsize => wp_ite.mpr ⟨fun _ => hstop _ _, fun hal => ?_⟩⟩⟩⟩
  refine absurd ⟨by omega, ?_, not_not.mp hal⟩ h
  unfold IsPageSize
  omega

/-- A call that returns has built, or extended, a tree below 4GB. -/
theorem mapRegion_low {a b flags : ℕ} (hO : O.Lawful Owned E) (hfl : fl = 3 ∨ fl = 7)
    (hb : b ≤ 2 ^ 32) (hstop : ∀ q s, E (stop q) s)
    (hroot : wp (mapRoot O stop r flags)
      (fun root s' => LowBuilt O Owned pageSize root R s' ∧ (flags = mapUpdate → root = r)) E s) :
    wp (mapRegion O stop fl lf r a b p pageSize flags) (fun root s' =>
      LowBuilt O Owned pageSize root R s' ∧ O.read s' root 0 ≠ 0 ∧ IsPageSize pageSize ∧
        (flags = mapUpdate → root = r)) E s := by
  by_cases hacc : RegionAccepted pageSize a b p
  · have ⟨hab, hsize, _⟩ := hacc
    have hpos := regionCount_pos hb hsize hab
    have hover : ¬ RegionOverflows pageSize a b := fun hneg =>
      hpos.ne' (Int.toNat_of_nonpos (le_of_lt hneg))
    refine mapRegion_spec (fun h => absurd hacc h) hover hroot ?_
    rintro root s₁ ⟨hbuilt, hsame⟩
    refine (mapLoop_low hO hsize hfl (fun j hj => (loopAddr_lt hb hsize hj).trans_le hb)
      (fun hlarge a => isPse_sizedFlags hlarge a lf) (fun h0 => absurd h0 hpos.ne') hbuilt).mono
      (fun _ s₂ h₂ => ?_) fun _ _ h => h
    exact ⟨h₂.1, h₂.2, hsize, hsame⟩
  · exact mapRegion_rejected hacc hstop

/-- A new root is a tree without entries. -/
theorem mapRoot_low (hO : O.Lawful Owned E) (hown : Owned s R) :
    wp (mapRoot O stop r mapNew) (fun root s' => LowBuilt O Owned pageSize root R s' ∧
      (mapNew = mapUpdate → root = r)) E s := by
  unfold mapRoot
  rw [if_pos rfl]
  refine (hO.newTable s R hown).mono ?_ fun _ _ h => h
  rintro a s' ⟨hown', -, -, -, hempty, -⟩
  have htab : treeTables (O.read s') pageSize a = {a} := tables_empty hempty
  refine ⟨⟨⟨?_, ?_, fun _ is i _ _ hne => ?_⟩, ?_⟩, fun h => absurd h (by decide)⟩
  · rw [htab]
    exact Multiset.nodup_singleton a
  · cases depth pageSize with
    | zero => trivial
    | succ d => exact fun i _ hi => absurd (hempty i) hi
  · exact absurd (entryAt_empty hempty is) hne
  · rw [htab, Multiset.singleton_add]
    exact hown'

variable (stop pageSize) in
/-- Any sequence of calls below 4GB that returns has built such a tree, with an entry in its
root. -/
theorem mapCalls_low {c : MapCall} {cs : List MapCall} (hO : O.Lawful Owned E)
    (hstop : ∀ q s, E (stop q) s) (hlow : ∀ d ∈ c :: cs, d.region.stop ≤ 2 ^ 32)
    (hown : Owned s R) :
    wp (mapCalls O stop pageSize c cs) (fun root s' => LowBuilt O Owned pageSize root R s' ∧
      O.read s' root 0 ≠ 0 ∧ IsPageSize pageSize) E s := by
  have hcall : ∀ (d : MapCall) (root flags : ℕ) (s : σ), d.region.stop ≤ 2 ^ 32 →
      wp (mapRoot O stop root flags)
        (fun a s' => LowBuilt O Owned pageSize a R s' ∧ (flags = mapUpdate → a = root)) E s →
      wp (d.run O stop pageSize root flags) (fun a s' => LowBuilt O Owned pageSize a R s' ∧
        O.read s' a 0 ≠ 0 ∧ IsPageSize pageSize ∧ (flags = mapUpdate → a = root)) E s := by
    intro d root flags s hd hroot
    unfold MapCall.run Region.mapCall
    cases d.kind with
    | page => exact mapRegion_low hO (Or.inl rfl) hd hstop hroot
    | ept => exact mapRegion_low hO (Or.inr rfl) hd hstop hroot
  obtain ⟨hfirst, hrest⟩ := List.forall_mem_cons.mp hlow
  unfold mapCalls
  refine (hcall c 0 mapNew s hfirst (mapRoot_low hO hown)).bind ?_
  rintro root s₁ ⟨hbuilt, hroot, hsize, -⟩
  refine (wp_forM_const (I := fun s => LowBuilt O Owned pageSize root R s ∧ O.read s root 0 ≠ 0)
    (fun d hd s hs => ?_) ⟨hbuilt, hroot⟩).bind fun _ s₂ h₂ => ⟨h₂.1, h₂.2, hsize⟩
  have hupdate : wp (mapRoot O stop root mapUpdate) (fun a s' => a = root ∧ s' = s) E s :=
    mapRoot_update_spec fun h0 => absurd h0 hs.2
  refine (hcall d root mapUpdate s (hrest d hd) (hupdate.mono ?_ fun _ _ h => h)).bind ?_
  · rintro a s' ⟨rfl, rfl⟩
    exact ⟨hs.1, fun _ => rfl⟩
  · rintro a s' ⟨hb, hr, -, hsame⟩
    obtain rfl := hsame rfl
    exact ⟨hb, hr⟩

end Build

end Savannah
