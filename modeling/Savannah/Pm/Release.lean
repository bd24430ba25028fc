import Savannah.Pmap.Release
import Savannah.Pm.Supply

/-!
# Releasing the tables of a VM

`free_page_tables` reads the tables and releases pages; releasing changes no table, so that the
whole call is the iteration of `free_mem_pages` over the addresses that it finds
(`freePageTables_eq`).  For a tree of one page size below 4GB these are the tables of the tree,
which PM holds, so that the call returns and what is left are the blocks that were held before the
tree was built.
-/

namespace Savannah

open Foundation PmState MemoryState

/-! ### The sequence of calls -/

section Sequence

variable {s : PmState} {w : ℕ → ℕ → ℕ}

/-- Releasing a page when the allocator accepts it. -/
theorem freePages_ok {a : ℕ} {m' : MemoryState} (h : freeMemPages a s.memory = .ok m') :
    freePages a s = .ok () { s with memory := m' } := by
  unfold freePages withMemory
  dsimp only
  rw [h]
  rfl

theorem freePages_words {a : ℕ} {s' : PmState} (h : freePages a s = .ok () s') :
    s'.words = s.words := by
  unfold freePages withMemory at h
  split at h
  · cases h
    rfl
  · cases h

theorem forM_freePages_words {l : List ℕ} {s' : PmState} (h : l.forM freePages s = .ok () s') :
    s'.words = s.words := by
  induction l generalizing s with
  | nil =>
    cases h
    rfl
  | cons a l ih =>
    change (freePages a >>= fun _ => l.forM freePages) s = _ at h
    simp only [bind, EStateM.bind] at h
    cases hfree : freePages a s with
    | ok u s₁ =>
      rw [hfree] at h
      rw [ih h, freePages_words hfree]
    | error e s₁ =>
      rw [hfree] at h
      cases h

/-- Two steps, of which the first is an iteration of `free_mem_pages`. -/
theorem bind_freePages {x y : Pm Unit} {l k : List ℕ} (hs : s.words = w)
    (hx : x s = l.forM freePages s) (hy : ∀ s, s.words = w → y s = k.forM freePages s) :
    (x >>= fun _ => y) s = (l ++ k).forM freePages s := by
  have happ : (l ++ k).forM freePages = (l.forM freePages >>= fun _ => k.forM freePages) :=
    List.forM_append
  rw [happ]
  simp only [bind, EStateM.bind]
  rw [hx]
  cases hrun : l.forM freePages s with
  | ok u s₁ => exact hy s₁ ((forM_freePages_words hrun).trans hs)
  | error e s₁ => rfl

/-- A loop whose iterations are such. -/
theorem forM_flatMap_freePages {f : ℕ → Pm Unit} {g : ℕ → List ℕ} (is : List ℕ)
    (h : ∀ i s, s.words = w → f i s = (g i).forM freePages s) (hs : s.words = w) :
    is.forM f s = (is.flatMap g).forM freePages s := by
  induction is generalizing s with
  | nil => rfl
  | cons i is ih =>
    rw [List.flatMap_cons]
    exact bind_freePages hs (h i s hs) fun s₁ hs₁ => ih hs₁

theorem forM_singleton_freePages (a : ℕ) (s : PmState) : [a].forM freePages s = freePages a s := by
  change (freePages a >>= fun _ => pure ()) s = _
  exact congrFun (bind_pure _) s

/-- The addresses that `free_page_tables` releases. -/
theorem freePageTables_eq (base : ℕ) (s : PmState) :
    freePageTables base s = (releaseList s.words base).forM freePages s := by
  -- no call changes the tables, so that every read is one of the tables at the start
  have hpte : ∀ pde j s₁, s₁.words = s.words →
      (get >>= fun t : PmState => if t.words pde j ≠ 0 ∧ ¬ IsPse (t.words pde j) then
        freePages (tableAddr (t.words pde j)) else pure ()) s₁ =
        (releasePte s.words pde j).forM freePages s₁ := by
    intro pde j s₁ hs₁
    change (if s₁.words pde j ≠ 0 ∧ ¬ IsPse (s₁.words pde j) then _ else _ : Pm Unit) s₁ = _
    rw [hs₁]
    unfold releasePte
    split
    · exact (forM_singleton_freePages _ s₁).symm
    · rfl
  have hpde : ∀ pdpe i s₁, s₁.words = s.words →
      (get >>= fun t : PmState => if t.words pdpe i ≠ 0 ∧ ¬ IsPse (t.words pdpe i) then
        (if tableAddr (t.words pdpe i) ≠ 0 then
          ((List.range pageTableEntries).forM fun j => get >>= fun u : PmState =>
            if u.words (tableAddr (t.words pdpe i)) j ≠ 0 ∧
                ¬ IsPse (u.words (tableAddr (t.words pdpe i)) j) then
              freePages (tableAddr (u.words (tableAddr (t.words pdpe i)) j)) else pure ()) >>=
            fun _ => freePages (tableAddr (t.words pdpe i)) else pure ()) else pure ()) s₁ =
        (releasePde s.words pdpe i).forM freePages s₁ := by
    intro pdpe i s₁ hs₁
    change (if s₁.words pdpe i ≠ 0 ∧ ¬ IsPse (s₁.words pdpe i) then _ else _ : Pm Unit) s₁ = _
    rw [hs₁]
    unfold releasePde
    split
    · split
      · exact bind_freePages hs₁ (forM_flatMap_freePages _ (hpte _) hs₁)
          fun s₂ _ => (forM_singleton_freePages _ s₂).symm
      · rfl
    · rfl
  have htail : ∀ pdpe s₁, s₁.words = s.words →
      (freePages pdpe >>= fun _ => freePages base) s₁ = [pdpe, base].forM freePages s₁ :=
    fun pdpe s₁ hs₁ => bind_freePages hs₁ (forM_singleton_freePages _ s₁).symm
      fun s₂ _ => (forM_singleton_freePages _ s₂).symm
  unfold freePageTables releaseList
  change (if tableAddr (s.words base 0) ≠ 0 then _ else _ : Pm Unit) s = _
  split
  · exact bind_freePages rfl (forM_flatMap_freePages _ (hpde _) rfl) (htail _)
  · exact htail _ s rfl

end Sequence

/-! ### Releasing what is held -/

/-- Releasing pages that are held returns, and the others stay held. -/
theorem forM_freePages_ledger {l : List ℕ} {s : PmState} {pool : ℕ} {X S : Multiset (ℕ × ℕ)}
    (h : Ledger s.memory pool (pageBlocks ↑l + X) S) :
    ∃ m', l.forM freePages s = .ok () { s with memory := m' } ∧ SameLayout s.memory m' ∧
      Ledger m' pool X S := by
  induction l generalizing s with
  | nil =>
    rw [Multiset.coe_nil, pageBlocks_zero, Multiset.zero_add] at h
    exact ⟨s.memory, rfl, .refl _, h⟩
  | cons a l ih =>
    rw [← Multiset.cons_coe, pageBlocks_cons, Multiset.cons_add] at h
    obtain ⟨m₁, hm₁, hlay, hled⟩ := h.freeExclusive (Multiset.mem_cons_self (a, 1) _)
    rw [Multiset.erase_cons_head] at hled
    obtain ⟨m', hs', hlay', hled'⟩ := ih (s := { s with memory := m₁ }) hled
    refine ⟨m', ?_, hlay.trans hlay', hled'⟩
    change (freePages a >>= fun _ => l.forM freePages) s = _
    simp only [bind, EStateM.bind, freePages_ok hm₁]
    exact hs'

/-- For a tree that `MAP_NEW` and any sequence of mapping calls of one page size below 4GB have
built, `free_page_tables` calls `free_mem_pages` once for each of the tables of the tree and for
nothing else, in whichever state the allocator is; these are the pages that the calls took from the
allocator.  It returns, and what was allocated before the tree was built is what is allocated
then. -/
theorem freePageTables_exact {s s' : PmState} {pool pageSize r : ℕ} {X S : Multiset (ℕ × ℕ)}
    {c : MapCall} {cs : List MapCall} (h : Ledger s.memory pool X S)
    (hlow : ∀ d ∈ c :: cs, d.region.stop ≤ 2 ^ 32)
    (hrun : mapCalls pmTables mapStop pageSize c cs s = .ok r s') :
    ∃ (n : ℕ) (l : List ℕ), s'.memory = afterPages n s.memory ∧
      (nextPages n s.memory).length = n ∧ l.Perm (nextPages n s.memory) ∧
      ↑l = treeTables s'.words pageSize r ∧ l.Nodup ∧
      (∀ m, freePageTables r { s' with memory := m } =
        l.forM freePages { s' with memory := m }) ∧
      ∃ s'', freePageTables r s' = .ok () s'' ∧ Ledger s''.memory pool X S := by
  have hlaw : pmTables.Lawful (fun t N => HoldsTables pool X S s t N ∧ TakesNext s.memory t N)
      fun _ _ => True := pmTables_takesNext s.memory fun _ _ => trivial
  have hstart : HoldsTables pool X S s s 0 ∧ TakesNext s.memory s 0 := by
    refine ⟨⟨?_, SameLayout.refl _, rfl, fun _ _ _ => rfl, fun _ _ _ => rfl, rfl⟩, 0, rfl, rfl, rfl⟩
    rwa [pageBlocks_zero, Multiset.zero_add]
  have hspec := mapCalls_low mapStop pageSize (R := 0) hlaw (fun _ _ => trivial) hlow hstart
  unfold wp at hspec
  rw [hrun] at hspec
  obtain ⟨⟨htree, hown⟩, hroot, hsize⟩ := hspec
  rw [add_zero] at hown
  obtain ⟨hold, n, hnext, hlen, hmem⟩ := hown
  have hne : ∀ a ∈ treeTables s'.words pageSize r, a ≠ 0 := fun a ha =>
    (hlaw.owned_addr s' _ ⟨hold, n, hnext, hlen, hmem⟩ a ha).1
  have hlist : ↑(releaseList s'.words r) = treeTables s'.words pageSize r :=
    htree.releaseList_eq hsize hne hroot
  refine ⟨n, releaseList s'.words r, hmem, hlen, ?_, hlist, ?_, fun m => ?_, ?_⟩
  · rw [← Multiset.coe_eq_coe, hlist]
    exact hnext
  · rw [← Multiset.coe_nodup, hlist]
    exact htree.nodup
  · exact freePageTables_eq r { s' with memory := m }
  · rw [freePageTables_eq]
    obtain ⟨m', hok, -, hled⟩ := forM_freePages_ledger (l := releaseList s'.words r)
      (by rw [hlist]; exact hold.ledger)
    exact ⟨_, hok, hled⟩

/-- One page mapped at 1MB in a machine with 1GB of memory. -/
theorem freePageTables_exact_page :
    ∃ (m : MemoryState) (s' : PmState) (r n : ℕ) (l : List ℕ),
      memoryInit (fun _ => default) 4096 (2 ^ 30) = .ok m ∧
      mapCalls pmTables mapStop size4KB ⟨.ept, 0x100000, 0x101000, 0x100000, 3, 0⟩ []
        (PmState.initial m (fun _ => default) 0 0) = .ok r s' ∧
      s'.memory = afterPages n m ∧ l.Perm (nextPages n m) ∧ l.Nodup ∧
      freePageTables r s' = l.forM freePages s' := by
  obtain ⟨m, hm, -, hopen, hled⟩ := memoryInit_1GB
  set s := PmState.initial m (fun _ => default) 0 0
  have hO : pmTables.Funded (fun n s => s.Reserve 260095 n ∧ True) (fun _ _ => False) :=
    pmTables_funded fun _ _ _ _ h => h
  have hres : s.Reserve 260095 (0 + 3 * 1 + 1) ∧ True :=
    ⟨⟨.of_openEnd hopen (by norm_num), rfl⟩, trivial⟩
  have hone : pages (0x101000 - 0x100000) size4KB = 1 := by decide
  have hcount : regionCount size4KB 0x100000 0x101000 = 1 := by
    rw [regionCount_eq (by rw [hone]; norm_num), hone]
  have hacc : RegionAccepted size4KB 0x100000 0x101000 0x100000 :=
    ⟨by norm_num, Or.inl rfl, by norm_num⟩
  have hcall : ∀ lf, wp (mapRegion pmTables mapStop 7 lf 0 0x100000 0x101000 0x100000
    size4KB mapNew) (fun _ _ => True) (fun _ _ => False) s := by
    intro lf
    refine mapRegion_spec (fun h => absurd hacc h) (fun h => ?_) (hO.newTable _ s hres) ?_
    · unfold RegionOverflows at h
      rw [hone, int32_of_lt (by norm_num)] at h
      exact absurd h (by norm_num)
    · intro root s₁ h₁
      rw [hcount]
      exact (mapLoop_funded hO h₁).mono (fun _ _ _ => trivial) fun _ _ h => h
  have hcalls : wp (mapCalls pmTables mapStop size4KB ⟨.ept, 0x100000, 0x101000, 0x100000, 3, 0⟩ [])
      (fun _ _ => True) (fun _ _ => False) s :=
    (hcall _).bind fun _ _ _ => trivial
  obtain ⟨r, s', hrun, -⟩ := hcalls.exists_ok fun _ _ h => h
  obtain ⟨n, l, hmem, -, hperm, -, hnodup, hfree, -⟩ :=
    freePageTables_exact (s := s) hled (by simp) hrun
  exact ⟨m, s', r, n, l, hm, hrun, hmem, hperm, hnodup, hfree s'.memory⟩

end Savannah
