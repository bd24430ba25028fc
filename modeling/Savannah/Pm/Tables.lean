import Savannah.Memory.Supply
import Savannah.Pmap.Tree
import Savannah.Pm.State

/-!
# The page tables of the process manager

What the allocator functions do to the state of PM, and the laws of its table access: the tables
that the page-table code creates are blocks of one page, held on top of the blocks `X` and `S` that
were handed out before, and the rest of the state stays as it was (`HoldsTables`).
-/

namespace Savannah

open Foundation MemoryState

/-- The part of the state that the allocator and the page-table code never change. -/
structure Control where
  cpus : ℕ → CpuInfo
  ncpus : ℕ
  has1GB : Bool
  cpuinfoBase : ℕ
  arrayWrites : List (ℕ × ℕ)
  posted : List Post
  openChannels : List OpenChannel
  live : Finset ℕ

@[inherit_doc Control]
def PmState.control (s : PmState) : Control :=
  ⟨s.cpus, s.ncpus, s.has1GB, s.cpuinfoBase, s.arrayWrites, s.posted, s.openChannels, s.live⟩

/-- Pages of 4KB as blocks of the allocator. -/
def pageBlocks (N : Multiset ℕ) : Multiset (ℕ × ℕ) := N.map fun a => (a, 1)

@[simp] theorem pageBlocks_zero : pageBlocks 0 = 0 := rfl

@[simp] theorem pageBlocks_cons (a : ℕ) (N : Multiset ℕ) :
    pageBlocks (a ::ₘ N) = (a, 1) ::ₘ pageBlocks N := Multiset.map_cons _ _ _

@[simp] theorem pageBlocks_add (M N : Multiset ℕ) :
    pageBlocks (M + N) = pageBlocks M + pageBlocks N := Multiset.map_add _ _ _

theorem mem_pageBlocks {N : Multiset ℕ} {a n : ℕ} : (a, n) ∈ pageBlocks N ↔ a ∈ N ∧ n = 1 := by
  simp only [pageBlocks, Multiset.mem_map, Prod.mk.injEq]
  constructor
  · rintro ⟨b, hb, rfl, rfl⟩
    exact ⟨hb, rfl⟩
  · rintro ⟨ha, rfl⟩
    exact ⟨a, ha, rfl, rfl⟩

/-! ### Allocation -/

section Alloc

variable {s : PmState} {pool n : ℕ} {X S : Multiset (ℕ × ℕ)} {E : PmStop → PmState → Prop}

/-- Allocating pages adds a block, or fails, which the state records. -/
theorem allocPages_spec (h : Ledger s.memory pool X S) (hn : 0 < n) :
    wp (allocPages n) (fun a s' =>
      (a = 0 ∧ s' = { s with allocFailed := true }) ∨
      (a ≠ 0 ∧ ∃ m', s' = { s with memory := m' } ∧ SameLayout s.memory m' ∧
        Ledger m' pool ((a, n) ::ₘ X) S ∧ ∀ k, (a, k) ∉ X + S)) E s := by
  unfold allocPages
  rw [wp_bind]
  unfold wp withMemory
  rcases h.alloc hn with hfail | ⟨a, m', hok, ha, hlay, hled, hfresh⟩
  · rw [hfail]
    simp only [true_and, if_pos (Nat.pos_iff_ne_zero.mp hn)]
    exact Or.inl ⟨rfl, rfl⟩
  · rw [hok]
    simp only [ha, false_and, if_false]
    exact Or.inr ⟨ha, m', rfl, hlay, hled, hfresh⟩

/-- Allocating no pages does nothing. -/
theorem allocPages_zero {Q : ℕ → PmState → Prop} (h : Q 0 s) : wp (allocPages 0) Q E s := h

/-- Fresh pages, filled with zeros. -/
theorem allocCleanPages_spec (h : Ledger s.memory pool X S) (hn : 0 < n) :
    wp (allocCleanPages n) (fun a s' =>
      (a = 0 ∧ s' = { s with allocFailed := true }) ∨
      (a ≠ 0 ∧ ∃ m', s' = PmState.clear a n { s with memory := m' } ∧ SameLayout s.memory m' ∧
        Ledger m' pool ((a, n) ::ₘ X) S ∧ ∀ k, (a, k) ∉ X + S)) E s := by
  unfold allocCleanPages
  refine (allocPages_spec h hn).bind ?_
  rintro a s₁ (⟨rfl, rfl⟩ | ⟨ha, m', rfl, hlay, hled, hfresh⟩)
  · exact Or.inl ⟨rfl, rfl⟩
  · rw [if_pos (Nat.pos_of_ne_zero ha)]
    exact Or.inr ⟨ha, m', rfl, hlay, hled, hfresh⟩

/-- Allocation when the allocator has a block. -/
theorem allocPages_ok {Q : ℕ → PmState → Prop} {a : ℕ} {m' : MemoryState}
    (h : allocMemPages n s.memory = .ok (a, m')) (ha : a ≠ 0) (hQ : Q a { s with memory := m' }) :
    wp (allocPages n) Q E s := by
  unfold allocPages
  rw [wp_bind]
  unfold wp withMemory
  rw [h]
  simp only [ha, false_and, if_false]
  exact hQ

/-- A new table when the allocator has a page. -/
theorem newTable_ok {Q : ℕ → PmState → Prop} {a : ℕ} {m' : MemoryState}
    (h : allocMemPages 1 s.memory = .ok (a, m')) (ha : a ≠ 0)
    (hQ : Q a (PmState.clear a 1 { s with memory := m' })) : wp pmTables.newTable Q E s := by
  unfold pmTables allocPageTable
  simp only [wp_bind]
  refine allocPages_ok h ha ?_
  rw [if_pos (Nat.pos_of_ne_zero ha), wp_bind, wp_modify, wp_pure, if_neg ha]
  exact hQ

/-- No table when the allocator has no page. -/
theorem newTable_fail {Q : ℕ → PmState → Prop} {m' : MemoryState}
    (h : allocMemPages 1 s.memory = .ok (0, m'))
    (hE : E (.panic (.map .allocFailed)) { s with memory := m', allocFailed := true }) :
    wp pmTables.newTable Q E s := by
  unfold pmTables allocPageTable allocPages withMemory wp
  simp only [bind, EStateM.bind, h]
  exact hE

end Alloc

/-! ### The laws of table access -/

/-- The tables `N` are held on top of the blocks `X` and `S`; apart from the tables, the pages of
`X` and the rest of the state are as in `s₀`. -/
structure HoldsTables (pool : ℕ) (X S : Multiset (ℕ × ℕ)) (s₀ s : PmState) (N : Multiset ℕ) :
    Prop where
  ledger : Ledger s.memory pool (pageBlocks N + X) S
  layout : SameLayout s₀.memory s.memory
  control : s.control = s₀.control
  words : ∀ t n, (t, n) ∈ X → s.words t = s₀.words t
  fdTable : ∀ t n, (t, n) ∈ X → s.fdTable t = s₀.fdTable t
  noFail : s.allocFailed = s₀.allocFailed

section Lawful

variable {s s₀ : PmState} {pool : ℕ} {X S : Multiset (ℕ × ℕ)} {N : Multiset ℕ}
  {E : PmStop → PmState → Prop}

/-- A table is none of the pages of `X`. -/
theorem HoldsTables.ne_of_mem (h : HoldsTables pool X S s₀ s N) {a t n : ℕ} (ha : a ∈ N)
    (ht : (t, n) ∈ X) : a ≠ t := by
  intro hpage
  have ha' : (a, 1) ∈ pageBlocks N := mem_pageBlocks.mpr ⟨ha, rfl⟩
  have hpos := (h.ledger.addr (Multiset.mem_add.mpr (Or.inl (Multiset.mem_add.mpr (Or.inr ht))))).1
  have heq : ((a, 1) : ℕ × ℕ) = (t, n) := h.ledger.eq_of_page
    (Multiset.mem_add.mpr (Or.inl (Multiset.mem_add.mpr (Or.inl ha'))))
    (Multiset.mem_add.mpr (Or.inl (Multiset.mem_add.mpr (Or.inr ht)))) (t := t)
    ⟨hpage.le, by dsimp only; omega⟩ ⟨le_rfl, by dsimp only; omega⟩
  rw [← heq] at ht
  exact Multiset.disjoint_left.mp (Multiset.nodup_add.mp h.ledger.nodup).2.2 ha' ht

/-- Writing to a table. -/
theorem HoldsTables.setWord (h : HoldsTables pool X S s₀ s N) {t : ℕ} (ht : t ∈ N) (i e : ℕ) :
    HoldsTables pool X S s₀ (s.setWord t i e) N := by
  refine ⟨h.ledger, h.layout, h.control, fun u n hu => ?_, h.fdTable, h.noFail⟩
  rw [← h.words u n hu]
  exact set_other _ _ (h.ne_of_mem ht hu).symm

/-- A new table. -/
theorem HoldsTables.newTable (h : HoldsTables pool X S s₀ s N) {a : ℕ} {m' : MemoryState}
    (hlay : SameLayout s.memory m') (hled : Ledger m' pool ((a, 1) ::ₘ (pageBlocks N + X)) S) :
    HoldsTables pool X S s₀ (PmState.clear a 1 { s with memory := m' }) (a ::ₘ N) := by
  have hled' : Ledger m' pool (pageBlocks (a ::ₘ N) + X) S := by
    rwa [pageBlocks_cons, Multiset.cons_add]
  have hnew : HoldsTables pool X S s₀ { s with memory := m' } (a ::ₘ N) :=
    ⟨hled', h.layout.trans hlay, h.control, h.words, h.fdTable, h.noFail⟩
  have hout : ∀ t n, (t, n) ∈ X → ¬ IsPageOf a 1 t := fun t n ht hpage =>
    hnew.ne_of_mem (Multiset.mem_cons_self a N) ht (isPageOf_one.mp hpage).symm
  refine ⟨hled', h.layout.trans hlay, h.control, fun t n ht => ?_, fun t n ht => ?_, h.noFail⟩
  · rw [← h.words t n ht]
    exact funext fun i => if_neg (hout t n ht)
  · rw [← h.fdTable t n ht]
    exact funext fun i => if_neg (hout t n ht)

/-- The laws of table access hold for the tables of PM; a table cannot be obtained only when an
allocation fails. -/
theorem pmTables_lawful
    (hE : ∀ s, s.allocFailed = true → E (.panic (.map .allocFailed)) s) :
    pmTables.Lawful (HoldsTables pool X S s₀) E where
  read_write _ _ _ _ := rfl
  owned_write t i e s N h ht := h.setWord ht i e
  owned_addr s N h a ha := by
    have hmem : (a, 1) ∈ pageBlocks N + X + S :=
      Multiset.mem_add.mpr (Or.inl (Multiset.mem_add.mpr (Or.inl (mem_pageBlocks.mpr ⟨ha, rfl⟩))))
    have := h.ledger.addr hmem
    omega
  newTable s N h := by
    -- `alloc_page_table` is `alloc_clean_mem_pages` for one page
    change wp (allocCleanPages 1 >>= _) _ E s
    refine (allocCleanPages_spec h.ledger Nat.one_pos).bind ?_
    rintro a s' (⟨rfl, rfl⟩ | ⟨ha, m', rfl, hlay, hled, hfresh⟩)
    · exact hE _ rfl
    · have hnew := h.newTable hlay hled
      have hal := (hled.addr (Multiset.mem_add.mpr (Or.inl (Multiset.mem_cons_self _ _)))).2.2.2.1
      rw [if_neg ha]
      refine ⟨hnew, fun haN => ?_, ha, hal, fun i => ?_, fun t ht => ?_⟩
      · refine hfresh 1 (Multiset.mem_add.mpr (Or.inl (Multiset.mem_add.mpr (Or.inl ?_))))
        exact mem_pageBlocks.mpr ⟨haN, rfl⟩
      · exact if_pos (isPageOf_one.mpr rfl)
      · exact funext fun i => if_neg fun hpage => ht (isPageOf_one.mp hpage)

/-- As long as the allocator has pages, no table is missing. -/
theorem pmTables_hasPages (pool : ℕ) (S : Multiset (ℕ × ℕ)) :
    pmTables.Funded (fun n t => t.memory.HasPages n ∧ ∃ Y, Ledger t.memory pool Y S) E := by
  refine ⟨fun n t i e s h => h, ?_, fun n s h => ⟨h.1.of_le (Nat.le_succ n), h.2⟩⟩
  rintro n t ⟨hn, Y, hled⟩
  rcases hled.alloc Nat.one_pos with hfail | ⟨a, m', hok, ha, -, hled', -⟩
  · refine absurd ?_ hn
    rw [nextPages, hfail]
    exact List.mem_cons_self
  · refine newTable_ok hok ha ⟨fun hmem => hn ?_, _, hled'⟩
    rw [nextPages, hok]
    exact List.mem_cons_of_mem a hmem

/-- The tables handed out since the allocator was `m₀` are the next pages of `m₀`. -/
def TakesNext (m₀ : MemoryState) (s : PmState) (N : Multiset ℕ) : Prop :=
  ∃ n, N = ↑(nextPages n m₀) ∧ (nextPages n m₀).length = n ∧ s.memory = afterPages n m₀

theorem pmTables_takesNext (m₀ : MemoryState)
    (hE : ∀ s, s.allocFailed = true → E (.panic (.map .allocFailed)) s) :
    pmTables.Lawful (fun s N => HoldsTables pool X S s₀ s N ∧ TakesNext m₀ s N) E := by
  refine (pmTables_lawful hE).and (fun t i e s N h => h) ?_
  rintro s N hold ⟨n, hN, hlen, hmem⟩
  rcases hold.ledger.alloc Nat.one_pos with hfail | ⟨a, m', hok, ha, -⟩
  · exact newTable_fail hfail (hE _ rfl)
  · refine newTable_ok hok ha ?_
    rw [hmem] at hok
    obtain ⟨hnext, hafter⟩ := nextPages_snoc hok
    refine ⟨n + 1, ?_, ?_, hafter.symm⟩
    · rw [hnext, hN, ← Multiset.coe_add, Multiset.coe_singleton, add_comm, Multiset.singleton_add]
    · rw [hnext, List.length_append, hlen]
      rfl

end Lawful

end Savannah
