import Savannah.Pmap.Nested

/-!
# How many tables the page-table code needs

A call of `map_memory` or `ept_map_memory` creates at most three tables for each page of its region,
and the root.  From a state with a large enough reserve (`Funded`) the calls therefore do not stop
for lack of a table.
-/

namespace Savannah

open Foundation

variable {ε σ : Type} {O : TableOps ε σ} {P : ℕ → σ → Prop} {E : ε → σ → Prop}
  {stop : Stop MapPanic → ε} {fl lf r pageSize v p n k : ℕ} {s : σ}

theorem length_pagePath_le (pageSize v : ℕ) : (pagePath pageSize v).length ≤ 3 := by
  unfold pagePath
  split_ifs <;> simp

/-- A page takes at most three tables. -/
theorem mapPage_funded (hO : O.Funded P E) (e : ℕ) (h : P (n + 3) s) :
    wp (mapPage O fl r v pageSize e) (fun _ s' => P n s') E s := by
  rw [mapPage_eq]
  exact hO.insert _ _ _ _ _ (hO.of_le h (Nat.add_le_add_left (length_pagePath_le pageSize v) n))

/-- So does every page of a loop. -/
theorem mapLoop_funded (hO : O.Funded P E) (h : P (n + 3 * k) s) :
    wp (mapLoop O fl r pageSize lf k v p) (fun _ s' => P n s') E s := by
  induction k generalizing s v p with
  | zero => exact h
  | succ k ih => exact (mapPage_funded hO _ h).bind fun _ s₁ h₁ => ih h₁

/-- The reserve that a call for a region uses up. -/
def regionCost (pageSize start stop : ℕ) : ℕ := 3 * pages (stop - start) pageSize + 1

/-- What a region takes. -/
theorem mapRegion_funded (hO : O.Funded P E)
    (hstop : ∀ q n s, P n s → q ≠ .panic .allocFailed → E (stop q) s) {a b flags : ℕ}
    (h : P (n + regionCost pageSize a b) s) :
    wp (mapRegion O stop fl lf r a b p pageSize flags) (fun _ s' => P n s') E s := by
  have hroot : wp (mapRoot O stop r flags)
      (fun _ s' => P (n + 3 * pages (b - a) pageSize) s') E s := by
    unfold mapRoot
    refine wp_ite.mpr ⟨fun _ => hO.newTable _ s h, fun _ => wp_ite.mpr ⟨fun _ => ?_, fun _ => ?_⟩⟩
    · rw [wp_bind, wp_get]
      exact wp_ite.mpr ⟨fun _ => hstop _ _ _ h nofun, fun _ => hO.less _ s h⟩
    · exact hstop _ _ _ h nofun
  unfold mapRegion
  refine wp_ite.mpr ⟨fun _ => hstop _ _ _ h nofun, fun _ => ?_⟩
  refine wp_ite.mpr ⟨fun _ => hstop _ _ _ h nofun, fun _ => ?_⟩
  refine wp_ite.mpr ⟨fun _ => hstop _ _ _ h nofun, fun _ => ?_⟩
  refine wp_ite.mpr ⟨fun _ => hstop _ _ _ h nofun, fun _ => ?_⟩
  refine hroot.bind fun pml4 s₁ h₁ => ?_
  refine wp_ite.mpr ⟨fun hneg => ?_, fun _ => ?_⟩
  · have hmany : 2 ^ 31 ≤ pages (b - a) pageSize := RegionOverflows.le_pages hneg
    exact (mapLoop_funded (k := 2 ^ 31) hO (hO.of_le h₁ (by omega))).bind
      fun _ s₂ h₂ => hstop _ n s₂ h₂ nofun
  have hcount : regionCount pageSize a b ≤ pages (b - a) pageSize := regionCount_le pageSize a b
  exact (mapLoop_funded (k := regionCount pageSize a b) hO (hO.of_le h₁ (by omega))).bind
    fun _ s₂ h₂ => h₂

/-- `unmap_memory` needs no table. -/
theorem unmapMemory_funded (hO : O.Funded P E) (h : P n s) :
    wp (unmapMemory O r v) (fun _ s' => P n s') E s := by
  unfold unmapMemory
  rw [wp_bind, wp_get]
  refine wp_ite.mpr ⟨fun _ => wp_ite.mpr ⟨fun _ => hO.write _ _ _ _ _ h, fun _ => ?_⟩, fun _ => h⟩
  refine wp_ite.mpr ⟨fun _ => wp_ite.mpr ⟨fun _ => ?_, fun _ => ?_⟩, fun _ => h⟩
  · exact hO.write _ _ _ _ _ h
  · exact hO.write _ _ _ _ _ h

/-- The reserve that an operation uses up. -/
def PmapOp.cost (pageSize : ℕ) : PmapOp → ℕ
  | map g => regionCost pageSize g.start g.stop
  | unmap _ => 0

/-- An operation has its cost. -/
theorem PmapOp.run_funded (op : PmapOp) (hO : O.Funded P E)
    (hstop : ∀ q n s, P n s → q ≠ .panic .allocFailed → E (stop q) s) {t : TableKind}
    (h : P (n + op.cost pageSize) s) :
    wp (op.run O stop t pageSize r) (fun _ s' => P n s') E s := by
  cases op with
  | map g =>
    have hcall : wp (g.mapCall O stop t pageSize r mapUpdate) (fun _ s' => P n s') E s := by
      rw [g.mapCall_eq]
      exact mapRegion_funded hO hstop h
    exact hcall.bind fun _ _ h => h
  | unmap a => exact unmapMemory_funded hO h

/-- Iterations with given costs. -/
theorem forM_funded {ι : Type} {l : List ι} {f : ι → EStateM ε σ PUnit} {c : ι → ℕ}
    (hf : ∀ i ∈ l, ∀ n s, P (n + c i) s → wp (f i) (fun _ s' => P n s') E s)
    (h : P (n + (l.map c).sum) s) : wp (l.forM f) (fun _ s' => P n s') E s := by
  have hloop := wp_forM (l := l) (g := f) (E := E) (s := s)
    (I := fun is s => P (n + (is.map c).sum) s) (fun i is s₁ ⟨pre, hpre⟩ h₁ => ?_) h
  · exact hloop
  · refine hf i (hpre ▸ List.mem_append_right pre List.mem_cons_self) _ s₁ ?_
    rwa [List.map_cons, List.sum_cons, Nat.add_comm (c i), ← Nat.add_assoc] at h₁

/-- The number of tables that suffices for a tree created for `g` and the operations on it. -/
def buildCost (pageSize : ℕ) (g : Region) (ops : List PmapOp) : ℕ :=
  (ops.map (PmapOp.cost pageSize)).sum + regionCost pageSize g.start g.stop

/-- Building a tree stops for another reason than a lack of tables. -/
theorem buildTree_funded (hO : O.Funded P E)
    (hstop : ∀ q n s, P n s → q ≠ .panic .allocFailed → E (stop q) s) {t : TableKind} {g : Region}
    {ops : List PmapOp} (h : P (buildCost pageSize g ops) s) :
    wp (buildTree O stop t pageSize g ops) (fun _ _ => True) E s := by
  unfold buildTree
  rw [g.mapCall_eq]
  refine (mapRegion_funded hO hstop h).bind fun root s₁ h₁ => ?_
  rw [← Nat.zero_add (List.sum _)] at h₁
  exact (forM_funded (fun op _ n s hs => op.run_funded hO hstop hs) h₁).bind fun _ _ _ => trivial

theorem forM_funded_const {ι : Type} {l : List ι} {f : ι → EStateM ε σ PUnit} {c : ℕ}
    (hf : ∀ i ∈ l, ∀ n s, P (n + c) s → wp (f i) (fun _ s' => P n s') E s)
    (h : P (n + l.length * c) s) : wp (l.forM f) (fun _ s' => P n s') E s :=
  forM_funded (c := fun _ => c) hf (by rwa [List.map_const', List.sum_replicate, smul_eq_mul])

/-- What an identity page takes. -/
theorem identityRegion_cost (page prot : ℕ) :
    regionCost size4KB (identityRegion page prot).start (identityRegion page prot).stop ≤ 4 := by
  have hle : (page + size4KB) % 2 ^ 64 - page ≤ 4096 := by
    have := Nat.mod_le (page + size4KB) (2 ^ 64)
    rw [show size4KB = 4096 from rfl] at *
    omega
  unfold regionCost identityRegion
  dsimp only
  generalize (page + size4KB) % 2 ^ 64 - page = d at hle
  have hspec := pages_spec d (show 0 < size4KB by decide)
  rw [show size4KB = 4096 from rfl] at *
  omega

section Tables

variable (hO : O.Funded P E) (hstop : ∀ q n s, P n s → q ≠ .panic .allocFailed → E (stop q) s)

include hO hstop

/-- Mapping an identity page. -/
theorem identityPage_funded {ept page prot : ℕ} (h : P (n + 4) s) :
    wp (PmapOp.run O stop .ept size4KB ept (.map (identityRegion page prot)))
      (fun _ s' => P n s') E s :=
  PmapOp.run_funded _ hO hstop
    (hO.of_le h (Nat.add_le_add_left (identityRegion_cost page prot) n))

/-- The guest page tables, on a machine without 1GB pages. -/
theorem guestTables_funded (h : P (n + 6147) s) :
    wp (guestTables O stop size2MB) (fun _ s' => P n s') E s := by
  have hcost : regionCost size2MB 0 size2MB = 4 ∧ regionCost size2MB size2MB 0xFEC00000 = 6112 ∧
      regionCost size2MB 0xFEC00000 (size1GB * 4) = 31 := by decide
  obtain ⟨h₁, h₂, h₃⟩ := hcost
  unfold guestTables
  refine (mapRegion_funded (n := n + 6143) hO hstop (by rw [h₁]; exact h)).bind fun r s₁ hs₁ => ?_
  refine (mapRegion_funded (n := n + 31) hO hstop (by rw [h₂]; exact hs₁)).bind fun r s₂ hs₂ => ?_
  exact mapRegion_funded hO hstop (by rw [h₃]; exact hs₂)

/-- Mapping guest page tables, whatever they contain. -/
theorem mapPageTables_funded {ept pml4 prot : ℕ} (h : P (n + 8216) s) :
    wp (mapPageTables O stop ept pml4 prot) (fun _ s' => P n s') E s := by
  unfold mapPageTables
  refine wp_ite.mpr ⟨fun _ => hstop _ _ _ h nofun, fun _ => ?_⟩
  refine (identityPage_funded (n := n + 8212) hO hstop h).bind fun _ s₁ h₁ => ?_
  rw [wp_bind, wp_get]
  refine wp_ite.mpr ⟨fun _ => ?_, fun _ => hO.of_le h₁ (Nat.le_add_right n _)⟩
  refine (identityPage_funded (n := n + 8208) hO hstop h₁).bind fun _ s₂ h₂ => ?_
  have hlen : (List.range 4).length * 2052 = 8208 := rfl
  rw [← hlen] at h₂
  refine forM_funded_const (fun i _ n s h => ?_) h₂
  rw [wp_bind, wp_get]
  refine wp_ite.mpr ⟨fun _ => ?_, fun _ => hO.of_le h (Nat.le_add_right n _)⟩
  refine wp_ite.mpr ⟨fun _ => ?_, fun _ => hO.of_le h (Nat.le_add_right n _)⟩
  refine (identityPage_funded (n := n + 2048) hO hstop h).bind fun _ s₃ h₃ => ?_
  have hlen : (List.range pageTableEntries).length * 4 = 2048 := by
    rw [List.length_range]
    rfl
  rw [← hlen] at h₃
  generalize List.range pageTableEntries = l at h₃ ⊢
  refine forM_funded_const (fun j _ n s h => ?_) h₃
  rw [wp_bind, wp_get]
  exact wp_ite.mpr
    ⟨fun _ => identityPage_funded hO hstop h, fun _ => hO.of_le h (Nat.le_add_right n _)⟩

end Tables

/-! ### The exact number

A tree of a given shape needs no more tables than the shape has room for. -/

section Exact

variable {Owned : σ → Multiset ℕ → Prop} {C : Shape} [∀ d i, Decidable (C d i)] {total : ℕ}
  {R : Multiset ℕ} {t : TableKind} {g : Region} {ops : List PmapOp} {m₀ : Tables}

/-- As long as fewer than `total` tables are held, one more can be had. -/
structure Supplied (O : TableOps ε σ) (Owned : σ → Multiset ℕ → Prop) (P : ℕ → σ → Prop)
    (E : ε → σ → Prop) (total : ℕ) : Prop where
  lawful : O.Lawful Owned fun _ _ => True
  funded : O.Funded P E
  reserve : ∀ s N n, Owned s N → N.card + n ≤ total → P n s

/-- A tree with room maps a page. -/
theorem mapPage_supplied (hO : Supplied O Owned P E total) (hfl : fl < 4096)
    (hC : C.Allows pageSize v) (hroom : capacity 512 C (depth pageSize) + R.card ≤ total)
    (htree : IsTree fl C (O.read s) pageSize r)
    (hown : Owned s (treeTables (O.read s) pageSize r + R)) (e : ℕ) :
    wp (mapPage O fl r v pageSize e) (fun _ s' => IsTree fl C (O.read s') pageSize r ∧
      Owned s' (treeTables (O.read s') pageSize r + R)) E s := by
  have hlen := length_pagePath pageSize v
  have hle := card_add_missing_le (C := C) (fun _ _ _ h => h.2) (validPath_pagePath pageSize v)
    (hC fl hfl) (by rw [hlen]; exact htree.interior)
  rw [hlen] at hle
  have hcost : P (0 + missing (O.read s) r (pagePath pageSize v)) s := by
    refine hO.reserve s _ _ hown ?_
    rw [Multiset.card_add]
    unfold treeTables
    omega
  have htotal := hO.funded.insert_missing fl r _ (leafIndex pageSize v) e hcost
  rw [← mapPage_eq] at htotal
  exact ((mapPage_spec hO.lawful hfl hC htree hown).and htotal).mono
    (fun _ _ h => ⟨h.1.1.tree, h.1.2.1⟩) fun _ _ h => h.2

/-- A tree with room maps the pages of a loop. -/
theorem mapLoop_supplied (hO : Supplied O Owned P E total) (hfl : fl < 4096)
    (hC : ∀ j < n, C.Allows pageSize (loopAddr v pageSize j))
    (hroom : capacity 512 C (depth pageSize) + R.card ≤ total)
    (htree : IsTree fl C (O.read s) pageSize r)
    (hown : Owned s (treeTables (O.read s) pageSize r + R)) :
    wp (mapLoop O fl r pageSize lf n v p) (fun _ _ => True) E s := by
  induction n generalizing s v p with
  | zero => trivial
  | succ n ih =>
    unfold mapLoop
    refine (mapPage_supplied hO hfl (hC 0 (by omega)) hroom htree hown _).bind ?_
    rintro - s₁ ⟨htree₁, hown₁⟩
    refine ih (fun j hj => ?_) htree₁ hown₁
    rw [loopAddr_succ]
    exact hC (j + 1) (by omega)

/-- The first call, with `MAP_NEW`. -/
theorem nested_new_supplied (hO : Supplied O Owned P E total) (hsize : IsPageSize pageSize)
    (hg : g.Valid t pageSize) (hcount : g.Countable pageSize) (hC : g.Within C pageSize)
    (hroom : capacity 512 C (depth pageSize) + R.card ≤ total) (hown : Owned s R) :
    wp (g.mapCall O stop t pageSize 0 mapNew)
      (fun r s' => Nested O Owned t C pageSize r R [.map g] (O.read s) s') E s := by
  have hfl := t.tableFlags_lt
  have hpos : 0 < capacity 512 C (depth pageSize) := by
    cases depth pageSize with
    | zero => exact Nat.one_pos
    | succ d => exact Nat.lt_of_lt_of_le Nat.one_pos (Nat.le_add_right 1 _)
  have hnew : wp (mapRoot O stop 0 mapNew) (fun _ s' => P 0 s') E s := by
    unfold mapRoot
    rw [if_pos rfl]
    exact hO.funded.newTable 0 s (hO.reserve s R 1 hown (by omega))
  have hroot := ((mapRoot_new_spec t.tableFlags pageSize C hO.lawful hown).and hnew).mono
    (fun _ _ h => h.1) fun _ _ h => h.2
  have htotal : wp (g.mapCall O stop t pageSize 0 mapNew) (fun _ _ => True) E s := by
    rw [g.mapCall_eq]
    refine mapRegion_spec (fun hbad => ?_) hcount.not_overflows hroot ?_
    · exact absurd ⟨hg.nonempty, hsize, hg.paddr_aligned⟩ hbad
    · rintro root s₁ ⟨htree, -, hown₁, -⟩
      exact mapLoop_supplied hO (by omega) (fun j hj => hC _ (hg.covers_loopAddr hsize hj)) hroom
        htree hown₁
  exact ((nested_new hO.lawful hsize hg hcount hC hown).and htotal).mono (fun _ _ h => h.1)
    fun _ _ h => h.2

/-- A later call, with `MAP_UPDATE`. -/
theorem map_call_supplied (hO : Supplied O Owned P E total) (hsize : IsPageSize pageSize)
    (hg : g.Valid t pageSize) (hcount : g.Countable pageSize) (hC : g.Within C pageSize)
    (hroom : capacity 512 C (depth pageSize) + R.card ≤ total)
    (hnull : ¬ NullTables t pageSize ops) (h : Nested O Owned t C pageSize r R ops m₀ s) :
    wp (g.mapCall O stop t pageSize r mapUpdate) (fun root s' => root = r ∧
      Nested O Owned t C pageSize r R (ops ++ [.map g]) m₀ s') E s := by
  have hfl := t.tableFlags_lt
  have htotal : wp (g.mapCall O stop t pageSize r mapUpdate) (fun _ _ => True) E s := by
    rw [g.mapCall_eq]
    refine mapRegion_spec (fun hbad => ?_) hcount.not_overflows
      (mapRoot_update_spec fun hzero => absurd hzero (h.root_ne_zero hnull)) ?_
    · exact absurd ⟨hg.nonempty, hsize, hg.paddr_aligned⟩ hbad
    · rintro root s₁ ⟨rfl, rfl⟩
      exact mapLoop_supplied hO (by omega) (fun j hj => hC _ (hg.covers_loopAddr hsize hj)) hroom
        h.tree h.owned
  exact ((h.map_call hO.lawful hsize hg hcount hC hnull).and htotal).mono (fun _ _ h => h.1)
    fun _ _ h => h.2

instance (d i : ℕ) : Decidable (guestShape d i) := inferInstanceAs (Decidable (_ ∧ _))

/-- The guest page tables have room for six tables. -/
theorem capacity_guestShape : capacity 512 guestShape (depth size2MB) = 6 := by
  have hsum : ∀ (d k c : ℕ), (∀ i < 512, guestShape d i ↔ i < k) → k ≤ 512 →
      ∑ i ∈ Finset.range 512, (if guestShape d i then c else 0) = k * c := by
    intro d k c hshape hk
    have hsub : Finset.range k ⊆ Finset.range 512 := Finset.range_subset_range.mpr hk
    rw [← Finset.sum_subset hsub fun i hi hnot => if_neg fun h =>
      hnot (Finset.mem_range.mpr ((hshape i (Finset.mem_range.mp hi)).mp h))]
    rw [Finset.sum_congr rfl fun i hi => if_pos ((hshape i (Finset.mem_range.mp (hsub hi))).mpr
      (Finset.mem_range.mp hi)), Finset.sum_const, Finset.card_range, smul_eq_mul]
  have hone := hsum 0 4 1 (fun i _ => by simp [guestShape]) (by norm_num)
  have htwo := hsum 1 1 5 (fun i _ => by simp [guestShape]) (by norm_num)
  rw [(paths_2MB 0).1, capacity, capacity, capacity, hone, htwo]

/-- With six tables the guest page tables are built. -/
theorem guestTables_supplied (hO : Supplied O Owned P E 6) (hown : Owned s 0) :
    wp (guestTables O stop size2MB) (fun _ _ => True) E s := by
  have hsize : IsPageSize size2MB := Or.inr (Or.inl rfl)
  have hroom : capacity 512 guestShape (depth size2MB) + Multiset.card (0 : Multiset ℕ) ≤ 6 := by
    rw [capacity_guestShape, Multiset.card_zero]
  obtain ⟨g₁, g₂, g₃, hgs, hnull, hcall⟩ := guestTables_calls O stop
  have hvalid := guestRegions_valid
  rw [hgs] at hvalid
  obtain ⟨h₁, h₂, h₃⟩ : _ ∧ _ ∧ _ := by simpa using hvalid
  rw [hcall]
  refine (nested_new_supplied hO hsize h₁.1 h₁.2.1 h₁.2.2 hroom hown).bind fun r s₁ n₁ => ?_
  refine (map_call_supplied hO hsize h₂.1 h₂.2.1 h₂.2.2 hroom hnull n₁).bind ?_
  rintro r s₂ ⟨rfl, n₂⟩
  have hnull₂ : ¬ NullTables .page size2MB ([.map g₁] ++ [g₂].map .map) :=
    fun hn => hnull hn.of_append
  exact (map_call_supplied hO hsize h₃.1 h₃.2.1 h₃.2.2 hroom hnull₂ n₂).mono (fun _ _ _ => trivial)
    fun _ _ h => h

end Exact

end Savannah
