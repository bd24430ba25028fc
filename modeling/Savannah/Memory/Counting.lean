import Savannah.Memory.Allocation

/-!
# Reference counting

`realloc_mem_block` and `free_mem_pages` accept the start of a live block and nothing else.  The
first adds a reference; the second drops one, and when it drops the last one exactly the pages of
that block become free.  No other live block is touched, whatever fusions the release performs.

Over a whole run this gives the balance of a block: from the call of `alloc_mem_pages` that created
it, the block stays where it is until the calls that released it outnumber those that shared it by
one.  Only then can one of its pages be handed out again.
-/

namespace Savannah

open Foundation MemoryState

/-- The entry `i` is the node of a live block that starts at `paddr`. -/
def MemoryState.LiveAt (s : MemoryState) (i paddr : ℕ) : Prop :=
  s.LiveNode i ∧ (s.blockNodeArray i).bStartAddr = paddr

/-- What dropping the last reference of the block of the node `i` does: its pages become free, and
the other live blocks keep their start, size and count. -/
structure ReleaseSpec (memSize : ℕ) (s : MemoryState) (i : ℕ) (s' : MemoryState) : Prop where
  live : ∀ j, s'.LiveNode j ↔ s.LiveNode j ∧ j ≠ i
  free : ∀ addr, s'.FreePageAt memSize addr ↔
    s.FreePageAt memSize addr ∨ (s.NodeHas i addr ∧ addr % 4096 = 0)
  keeps : ∀ j, s.LiveNode j → j ≠ i →
    (s'.blockNodeArray j).bStartAddr = (s.blockNodeArray j).bStartAddr ∧
    (s'.blockNodeArray j).bPages = (s.blockNodeArray j).bPages ∧
    (s'.blockNodeArray j).bRef = (s.blockNodeArray j).bRef

/-- What the two counting functions do with the page aligned address `paddr`. -/
structure CountSpec (memSize : ℕ) (s : MemoryState) (paddr : ℕ) : Prop where
  refused : (∀ i, ¬ s.LiveAt i paddr) →
    reallocMemBlock paddr s = .error (.panic .reallocFree) ∧
      freeMemPages paddr s = .error (.panic .freeFree)
  share : ∀ i, s.LiveAt i paddr → (s.blockNodeArray i).bRef ≠ 2 ^ 32 - 1 →
    reallocMemBlock paddr s = .ok (paddr, s.setNode i fun b => { b with bRef := b.bRef + 1 })
  drop : ∀ i, s.LiveAt i paddr → 1 < (s.blockNodeArray i).bRef →
    freeMemPages paddr s = .ok (s.setNode i fun b => { b with bRef := b.bRef - 1 })
  release : ∀ i, s.LiveAt i paddr → (s.blockNodeArray i).bRef = 1 →
    ∃ s', freeMemPages paddr s = .ok s' ∧ ReleaseSpec memSize s i s'

/-! ### One call -/

section Call

variable {s s' : MemoryState} {pool memSize i paddr : ℕ} {L : List Block} {b : Block}

/-- The node of a live block is the one that the checks select for its start. -/
theorem MemoryInv.liveAt_iff (h : MemoryInv s pool L) :
    s.LiveAt i paddr ↔ ∃ b, Live L b ∧ b.start = i ∧ paddr = s.firstFreeAddr + i * 4096 := by
  constructor
  · rintro ⟨hi, haddr⟩
    obtain ⟨b, hb, rfl⟩ := h.liveNode_iff.mp hi
    exact ⟨b, hb, rfl, by rw [← haddr, h.rep.addr b hb.1]⟩
  · rintro ⟨b, hb, rfl, rfl⟩
    exact ⟨h.liveNode_iff.mpr ⟨b, hb, rfl⟩, h.rep.addr b hb.1⟩

/-- Releasing the last reference of a block frees its pages and no others. -/
theorem MemoryInv.releaseSpec (h : MemoryInv s pool L)
    (hpool : pool = (memSize - s.firstFreeAddr) / 4096) (hb : Live L b) (href : b.ref = 1)
    (hlay : SameLayout s s') (h' : MemoryInv s' pool (release b.start L)) :
    ReleaseSpec memSize s b.start s' := by
  have hlive : ∀ c, Live (release b.start L) c ↔ Live L c ∧ c.start ≠ b.start := by
    intro c
    rw [release_live h.tiles hb, href]
    simp
  have hnode : ∀ j, s'.LiveNode j ↔ s.LiveNode j ∧ j ≠ b.start := by
    intro j
    rw [h'.liveNode_iff, h.liveNode_iff]
    constructor
    · rintro ⟨c, hc, rfl⟩
      exact ⟨⟨c, ((hlive c).mp hc).1, rfl⟩, ((hlive c).mp hc).2⟩
    · rintro ⟨⟨c, hc, rfl⟩, hne⟩
      exact ⟨c, (hlive c).mpr ⟨hc, hne⟩, rfl⟩
  have hkeeps : ∀ j, s.LiveNode j → j ≠ b.start →
      (s'.blockNodeArray j).bStartAddr = (s.blockNodeArray j).bStartAddr ∧
      (s'.blockNodeArray j).bPages = (s.blockNodeArray j).bPages ∧
      (s'.blockNodeArray j).bRef = (s.blockNodeArray j).bRef := by
    intro j hj hne
    obtain ⟨c, hc, rfl⟩ := h.liveNode_iff.mp hj
    exact h.node_congr h' hlay.firstFree hc.1 ((hlive c).mpr ⟨hc, hne⟩).1
  -- a live node has the same addresses before and after
  have hhas : ∀ j addr, s.LiveNode j → j ≠ b.start → (s'.NodeHas j addr ↔ s.NodeHas j addr) := by
    intro j addr hj hne
    obtain ⟨haddr, hpages, -⟩ := hkeeps j hj hne
    unfold NodeHas
    rw [haddr, hpages]
  refine ⟨hnode, fun addr => ?_, hkeeps⟩
  have hblock : s.LiveNode b.start := h.liveNode_iff.mpr ⟨b, hb, rfl⟩
  constructor
  · rintro ⟨hlo, hal, hhi, hfree⟩
    rw [hlay.firstFree] at hlo
    by_cases hin : s.NodeHas b.start addr
    · exact Or.inr ⟨hin, hal⟩
    · refine Or.inl ⟨hlo, hal, hhi, fun j hj hhasj => ?_⟩
      rcases eq_or_ne j b.start with rfl | hne
      · exact hin hhasj
      · exact hfree j ((hnode j).mpr ⟨hj, hne⟩) ((hhas j addr hj hne).mpr hhasj)
  · rintro (⟨hlo, hal, hhi, hfree⟩ | ⟨hin, hal⟩)
    · refine ⟨by rwa [hlay.firstFree], hal, hhi, fun j hj hhasj => ?_⟩
      obtain ⟨hj, hne⟩ := (hnode j).mp hj
      exact hfree j hj ((hhas j addr hj hne).mp hhasj)
    · have hlo : s.firstFreeAddr ≤ addr := by
        have := hin.1
        rw [h.rep.addr b hb.1] at this
        omega
      have hpage := (h.nodeHas_iff hb.1 hlo).mp hin
      have hstop := h.pages_le hb.1
      have haligned := h.layout.aligned
      have hlt : (addr - s.firstFreeAddr) / 4096 < pool := hpage.2.trans_le hstop
      refine ⟨by rwa [hlay.firstFree], hal, by omega, fun j hj hhasj => ?_⟩
      -- another live block cannot have a page of the released one
      obtain ⟨hj, hne⟩ := (hnode j).mp hj
      rw [hhas j addr hj hne] at hhasj
      obtain ⟨c, hc, rfl⟩ := h.liveNode_iff.mp hj
      rw [h.nodeHas_iff hc.1 hlo] at hhasj
      exact hne (congrArg Block.start (h.tiles.eq_of_has hc.1 hb.1 hhasj hpage))

/-- In every state with the invariant the counting functions meet their specification. -/
theorem MemoryInv.countSpec (h : MemoryInv s pool L)
    (hpool : pool = (memSize - s.firstFreeAddr) / 4096) (hal : paddr % 4096 = 0)
    (hlo : s.firstFreeAddr ≤ paddr) (hhi : paddr + 4096 ≤ memSize) :
    CountSpec memSize s paddr := by
  have haligned := h.layout.aligned
  obtain ⟨k, rfl⟩ : ∃ k, paddr = s.firstFreeAddr + k * 4096 :=
    ⟨(paddr - s.firstFreeAddr) / 4096, by omega⟩
  have hk : k < pool := by omega
  have hidx := h.blockIndex_pool hk
  have hsame : ∀ i, s.LiveAt i (s.firstFreeAddr + k * 4096) →
      i = k ∧ ∃ b, Live L b ∧ b.start = k ∧ (s.blockNodeArray k).bRef = b.ref := by
    intro i hi
    obtain ⟨b, hb, rfl, heq⟩ := h.liveAt_iff.mp hi
    obtain rfl : b.start = k := by omega
    exact ⟨rfl, b, hb, rfl, h.rep.ref b hb.1⟩
  constructor
  · intro hdead
    have href : (s.blockNodeArray k).bRef = 0 := by
      by_contra hne
      obtain ⟨b, hb, rfl, -⟩ := h.exists_live (hk.trans_le h.layout.pool_le) hne
      exact hdead b.start (h.liveAt_iff.mpr ⟨b, hb, rfl, rfl⟩)
    simp [reallocMemBlock, freeMemPages, hidx, bind, Except.bind, href]
  · intro i hi hmax
    obtain ⟨rfl, b, hb, -, href⟩ := hsame i hi
    have hlt := h.ref_lt b hb.1
    have hpos := hb.2
    have hmod : (b.ref + 1) % 2 ^ 32 = b.ref + 1 := Nat.mod_eq_of_lt (by omega)
    have hne : (s.blockNodeArray i).bRef ≠ 0 := by omega
    simp only [reallocMemBlock, hidx, bind, Except.bind, hne, if_false]
    congr 2
    unfold MemoryState.setNode
    dsimp only
    rw [href, hmod]
  · intro i hi hshared
    obtain ⟨rfl, b, hb, -, href⟩ := hsame i hi
    simp only [freeMemPages, hidx, bind, Except.bind]
    rw [if_neg (by omega), if_pos hshared]
  · intro i hi hone
    obtain ⟨rfl, b, hb, rfl, href⟩ := hsame i hi
    obtain ⟨s', hs', hlay, hinv'⟩ := freeMemPages_eq h hidx (by omega)
    exact ⟨s', hs', h.releaseSpec hpool hb (by omega) hlay hinv'⟩

end Call

/-! ### The balance of a block -/

/-- The call releases the block of the node `i`. -/
def MemoryCall.frees (s : MemoryState) (i : ℕ) : MemoryCall → Bool
  | free paddr => (blockIndex s paddr).toOption == some i
  | _ => false

/-- The call shares the block of the node `i`. -/
def MemoryCall.reallocs (s : MemoryState) (i : ℕ) : MemoryCall → Bool
  | realloc paddr => (blockIndex s paddr).toOption == some i
  | _ => false

section Balance

variable {s s' s₀ : MemoryState} {pool i n r : ℕ} {L : List Block} {c : MemoryCall}
  {cs : List MemoryCall}

/-- The index of an address depends on the layout only. -/
theorem MemoryState.SameLayout.blockIndex (h : SameLayout s s') (paddr : ℕ) :
    Savannah.blockIndex s' paddr = Savannah.blockIndex s paddr := by
  unfold Savannah.blockIndex
  rw [h.firstFree, h.lastIdx, h.allNodes]

theorem MemoryState.SameLayout.frees (h : SameLayout s s') : c.frees s' i = c.frees s i := by
  cases c <;> simp [MemoryCall.frees, h.blockIndex]

theorem MemoryState.SameLayout.reallocs (h : SameLayout s s') :
    c.reallocs s' i = c.reallocs s i := by
  cases c <;> simp [MemoryCall.reallocs, h.blockIndex]

/-- One safe call either releases the last reference of the block, or keeps the block in the list
with the count that the call leaves. -/
theorem MemoryInv.step_balance (h : MemoryInv s pool L) (hb : Live L ⟨i, n, r⟩)
    (hstep : safeStep s c s') :
    (c.frees s i = true ∧ r = 1) ∨
      ∃ L' r', SameLayout s s' ∧ MemoryInv s' pool L' ∧ Live L' ⟨i, n, r'⟩ ∧
        r' + (if c.frees s i then 1 else 0) = r + (if c.reallocs s i then 1 else 0) := by
  obtain ⟨hsafe, v, hv⟩ := hstep
  have hrefb : (s.blockNodeArray i).bRef = r := h.rep.ref ⟨i, n, r⟩ hb.1
  cases c with
  | alloc k =>
    refine Or.inr ?_
    simp only [MemoryCall.frees, MemoryCall.reallocs, MemoryCall.exec] at hv ⊢
    rcases Nat.eq_zero_or_pos k with rfl | hk
    · cases hv
      exact ⟨L, r, .refl s, h, hb, rfl⟩
    · rcases allocMemPages_eq h hk with ⟨-, hs⟩ | ⟨a, L', t, hsome, hs, hlay, h'⟩
      · cases hv.symm.trans hs
        exact ⟨L, r, .refl s, h, hb, rfl⟩
      · cases hv.symm.trans hs
        exact ⟨L', r, hlay, h', (allocate_live hsome).mpr (Or.inl hb), rfl⟩
  | realloc paddr =>
    refine Or.inr ?_
    cases hj : blockIndex s paddr with
    | error e => simp [MemoryCall.exec, reallocMemBlock, hj, bind, Except.bind] at hv
    | ok j =>
      have hlive : (s.blockNodeArray j).bRef ≠ 0 := by
        intro h0
        simp [MemoryCall.exec, reallocMemBlock, hj, bind, Except.bind, h0] at hv
      obtain ⟨t, ht, hlay, h'⟩ := reallocMemBlock_eq h hj hlive (hsafe.2 j hj)
      cases hv.symm.trans ht
      obtain ⟨d, hd, rfl, -⟩ := h.exists_live (blockIndex_lt hj) hlive
      simp only [MemoryCall.frees, MemoryCall.reallocs, hj, Except.toOption]
      by_cases hdi : d.start = i
      · obtain rfl := h.tiles.eq_of_start hd.1 hb.1 hdi
        exact ⟨_, r + 1, hlay, h', (share_live h.tiles hb).mpr (Or.inr rfl), by simp⟩
      · refine ⟨_, r, hlay, h', (share_live h.tiles hd).mpr (Or.inl ⟨hb, Ne.symm hdi⟩), ?_⟩
        simp [hdi]
  | free paddr =>
    cases hj : blockIndex s paddr with
    | error e => simp [MemoryCall.exec, freeMemPages, hj, bind, Except.bind, Except.map] at hv
    | ok j =>
      have hlive : (s.blockNodeArray j).bRef ≠ 0 := by
        intro h0
        simp [MemoryCall.exec, freeMemPages, hj, bind, Except.bind, Except.map, h0] at hv
      obtain ⟨t, ht, hlay, h'⟩ := freeMemPages_eq h hj hlive
      obtain rfl : t = s' := by
        simp only [MemoryCall.exec, ht, Except.map] at hv
        cases hv
        rfl
      obtain ⟨d, hd, rfl, -⟩ := h.exists_live (blockIndex_lt hj) hlive
      simp only [MemoryCall.frees, MemoryCall.reallocs, hj, Except.toOption]
      by_cases hdi : d.start = i
      · obtain rfl := h.tiles.eq_of_start hd.1 hb.1 hdi
        have hpos : 0 < r := hb.2
        by_cases hone : r = 1
        · exact Or.inl ⟨by simp, hone⟩
        · refine Or.inr ⟨_, r - 1, hlay, h', (release_live h.tiles hb).mpr (Or.inr ⟨?_, rfl⟩), ?_⟩
          · dsimp only
            omega
          · simp
            omega
      · refine Or.inr ⟨_, r, hlay, h', (release_live h.tiles hd).mpr (Or.inl ⟨hb, Ne.symm hdi⟩), ?_⟩
        simp [hdi]

/-- A run of safe calls either contains the release of the last reference, at the point where the
releases catch up with the references, or the block is still there with the balance as its count. -/
theorem MemoryInv.run_balance (h : MemoryInv s pool L) (hb : Live L ⟨i, n, r⟩)
    (hrun : Run safeStep s cs s') :
    (∃ pre, pre <+: cs ∧ pre.countP (MemoryCall.frees s i) =
        r + pre.countP (MemoryCall.reallocs s i)) ∨
      ∃ L' r', SameLayout s s' ∧ MemoryInv s' pool L' ∧ Live L' ⟨i, n, r'⟩ ∧
        r' + cs.countP (MemoryCall.frees s i) = r + cs.countP (MemoryCall.reallocs s i) := by
  induction hrun generalizing L r with
  | nil s => exact Or.inr ⟨L, r, .refl s, h, hb, rfl⟩
  | @cons s t u c cs hstep hrest ih =>
    rcases h.step_balance hb hstep with ⟨hfree, rfl⟩ | ⟨L', r', hlay, h', hb', hbal⟩
    · refine Or.inl ⟨[c], by simp, ?_⟩
      have hne : c.reallocs s i = false := by
        cases c <;> simp_all [MemoryCall.frees, MemoryCall.reallocs]
      simp [hfree, hne]
    · have hf : MemoryCall.frees t i = MemoryCall.frees s i := funext fun _ => hlay.frees
      have hr : MemoryCall.reallocs t i = MemoryCall.reallocs s i := funext fun _ => hlay.reallocs
      rcases ih h' hb' with ⟨pre, hpre, hcount⟩ | ⟨L'', r'', hlay', h'', hb'', hcount⟩
      · rw [hf, hr] at hcount
        refine Or.inl ⟨c :: pre, by simpa using hpre, ?_⟩
        simp only [List.countP_cons]
        omega
      · rw [hf, hr] at hcount
        refine Or.inr ⟨L'', r'', hlay.trans hlay', h'', hb'', ?_⟩
        simp only [List.countP_cons]
        omega

end Balance

/-! ### The main result -/

section Result

variable {mem : ℕ → BlockNode} {last memSize : ℕ} {s₀ s : MemoryState} {cs : List MemoryCall}

/-- A page of the block that a call has just handed out is not handed out again before the releases
of the block outnumber its sharings by one. -/
theorem MemoryInv.reissued {pool n m a b addr : ℕ} {L : List Block} {s₁ s₂ s₃ : MemoryState}
    {ds : List MemoryCall} (h : MemoryInv s pool L)
    (hpool : pool = (memSize - s.firstFreeAddr) / 4096)
    (halloc : allocMemPages n s = .ok (a, s₁)) (ha : a ≠ 0) (hrun : Run safeStep s₁ ds s₂)
    (halloc' : allocMemPages m s₂ = .ok (b, s₃)) (hb : b ≠ 0)
    (haddr : addr ∈ Set.Ico a (a + n * 4096)) (haddr' : addr ∈ Set.Ico b (b + m * 4096)) :
    ∃ i pre, blockIndex s a = .ok i ∧ pre <+: ds ∧
      pre.countP (MemoryCall.frees s i) = 1 + pre.countP (MemoryCall.reallocs s i) := by
  have hn : 0 < n := by
    obtain ⟨h₁, h₂⟩ := haddr
    omega
  rcases allocMemPages_eq h hn with ⟨-, hs⟩ | ⟨i, L₁, t, hsome, hs, hlay, h₁⟩
  · cases halloc.symm.trans hs
    exact absurd rfl ha
  cases halloc.symm.trans hs
  have hblock : Live L₁ ⟨i, n, 1⟩ := (allocate_live hsome).mpr (Or.inr rfl)
  have hidx : blockIndex s (s.firstFreeAddr + i * 4096) = .ok i := by
    have hi := h₁.start_lt hblock.1
    exact h.blockIndex_pool hi
  have hf : MemoryCall.frees s₁ i = MemoryCall.frees s i := funext fun _ => hlay.frees
  have hr : MemoryCall.reallocs s₁ i = MemoryCall.reallocs s i := funext fun _ => hlay.reallocs
  rcases h₁.run_balance hblock hrun with ⟨pre, hpre, hcount⟩ | ⟨L₂, r, hlay', h₂, hblock', -⟩
  · rw [hf, hr] at hcount
    exact ⟨i, pre, hidx, hpre, hcount⟩
  · -- the block is still live, so that the second call cannot return one of its pages
    exfalso
    have hlay₂ := hlay.trans hlay'
    obtain ⟨b', s₃', hs₃, hspec⟩ := h₂.allocSpec
      (show _ = (memSize - _) / 4096 by rw [hlay₂.firstFree]; exact hpool) m
    cases halloc'.symm.trans hs₃
    refine hspec.disjoint hb i (h₂.liveNode_iff.mpr ⟨_, hblock', rfl⟩) addr haddr'.1 haddr'.2 ?_
    have hnode := h₂.nodeHas_iff hblock'.1 (show s₂.firstFreeAddr ≤ addr by
      rw [hlay₂.firstFree]; have := haddr.1; omega)
    refine hnode.mpr ?_
    obtain ⟨hlo, hhi⟩ := haddr
    rw [hlay₂.firstFree]
    simp only [Block.Has, Block.stop]
    omega

/-- In every state that safe calls reach from `memory_init`, the counting functions accept exactly
the starts of live blocks and change exactly one count; and a page that `alloc_mem_pages` returned
is returned again only after the releases of its block outnumber its sharings by one. -/
theorem refCounting_of_run (hinit : memoryInit mem last memSize = .ok s₀)
    (hsize : memSize < 2 ^ 43) (hpool : s₀.firstFreeAddr ≤ memSize)
    (hrun : Run safeStep s₀ cs s) :
    (∀ paddr, paddr % 4096 = 0 → s.firstFreeAddr ≤ paddr → paddr + 4096 ≤ memSize →
      CountSpec memSize s paddr) ∧
    ∀ n a s₁ ds s₂ m b s₃ addr, allocMemPages n s = .ok (a, s₁) → a ≠ 0 →
      Run safeStep s₁ ds s₂ → allocMemPages m s₂ = .ok (b, s₃) → b ≠ 0 →
      addr ∈ Set.Ico a (a + n * 4096) → addr ∈ Set.Ico b (b + m * 4096) →
      ∃ i pre, blockIndex s a = .ok i ∧ pre <+: ds ∧
        pre.countP (MemoryCall.frees s i) = 1 + pre.countP (MemoryCall.reallocs s i) := by
  rcases Nat.lt_or_ge memSize (s₀.firstFreeAddr + 4096) with hsmall | hpage
  · -- a pool without pages never hands one out
    have hfresh : FreshPool s₀ 0 := by
      have hfresh := memoryInit_fresh hinit hsize hpool
      rwa [show (memSize - s₀.firstFreeAddr) / 4096 = 0 by omega] at hfresh
    obtain rfl : s = s₀ :=
      hrun.invariant (I := fun s => s = s₀) (fun s c t hst hs => by
        subst hs
        exact hfresh.step_empty hst.2) rfl
    refine ⟨fun paddr _ hlo hhi => by omega, ?_⟩
    intro n a s₁ ds s₂ m b s₃ addr halloc ha
    cases halloc.symm.trans (hfresh.allocMemPages_empty n)
    exact absurd rfl ha
  · obtain ⟨hlay, L, hinv⟩ := (memoryInit_inv hinit hsize hpage).run hrun
    have hpool' : (memSize - s₀.firstFreeAddr) / 4096 = (memSize - s.firstFreeAddr) / 4096 := by
      rw [hlay.firstFree]
    refine ⟨fun paddr hal hlo hhi => hinv.countSpec hpool' hal hlo hhi, ?_⟩
    intro n a s₁ ds s₂ m b s₃ addr halloc ha hrun' halloc' hb haddr haddr'
    exact hinv.reissued hpool' halloc ha hrun' halloc' hb haddr haddr'

/-- In a pool of two pages the first page is handed out, released and handed out again. -/
theorem refCounting_of_run_free : ∃ s₀ s₁ s₂ s₃,
    memoryInit (fun _ => default) 4096 16384 = .ok s₀ ∧ allocMemPages 1 s₀ = .ok (8192, s₁) ∧
      CountSpec 16384 s₁ 8192 ∧ freeMemPages 8192 s₁ = .ok s₂ ∧
      allocMemPages 1 s₂ = .ok (8192, s₃) ∧
      ∃ i pre, blockIndex s₀ 8192 = .ok i ∧ pre <+: [.free 8192] ∧
        pre.countP (MemoryCall.frees s₀ i) = 1 + pre.countP (MemoryCall.reallocs s₀ i) := by
  obtain ⟨s₀, hinit, hff, hinv⟩ := memoryInit_two
  obtain ⟨s₁, h₁, hlay₁, hinv₁⟩ := alloc_two hinv
  have hff₁ : s₁.firstFreeAddr = 8192 := hlay₁.firstFree.trans hff
  have hidx : blockIndex s₁ 8192 = .ok 0 := by
    simpa [hff₁] using hinv₁.blockIndex_pool hinv₁.layout.pool_pos
  have href : (s₁.blockNodeArray 0).bRef = 1 := hinv₁.rep.ref ⟨0, 1, 1⟩ List.mem_cons_self
  obtain ⟨s₂, h₂, hlay₂, hinv₂⟩ := freeMemPages_eq hinv₁ hidx (by rw [href]; norm_num)
  rw [show release 0 [⟨0, 1, 1⟩, ⟨1, 1, 0⟩] = [⟨0, 2, 0⟩] by decide] at hinv₂
  obtain ⟨s₃, h₃, -⟩ := alloc_two hinv₂
  rw [hff] at h₁
  rw [hlay₂.firstFree, hff₁] at h₃
  have hrun₁ : Run safeStep s₀ [.alloc 1] s₁ := .cons ⟨trivial, _, h₁⟩ (.nil s₁)
  have hout : ¬ s₁.Outside 8192 := by
    rintro ⟨-, -, hout⟩
    rw [hff₁, hinv₁.layout.lastIdx] at hout
    have hpos := hinv₁.layout.pool_pos.trans_le hinv₁.layout.pool_le
    have hzero : int32 ((8192 - 8192) / 4096 : ℕ) = 0 := int32_of_lt (n := 0) (by norm_num)
    omega
  have hrun₂ : Run safeStep s₁ [.free 8192] s₂ :=
    .cons ⟨hout, 0, by simp only [MemoryCall.exec, h₂, Except.map]⟩ (.nil s₂)
  have hsize : s₀.firstFreeAddr ≤ 16384 := by rw [hff]; norm_num
  exact ⟨s₀, s₁, s₂, s₃, hinit, h₁,
    (refCounting_of_run hinit (by norm_num) hsize hrun₁).1 8192 (by norm_num) hff₁.le (by norm_num),
    h₂, h₃,
    (refCounting_of_run hinit (by norm_num) hsize (.nil s₀)).2 1 8192 s₁ _ s₂ 1 8192 s₃ 8192 h₁
      (by norm_num) hrun₂ h₃ (by norm_num) ⟨by norm_num, by norm_num⟩ ⟨by norm_num, by norm_num⟩⟩

/-- After the count of a block has wrapped, its page is handed out again although no call has
released the block. -/
theorem refCounting_wrapped : ∃ s₀ s₁ s₂ s₃,
    memoryInit (fun _ => default) 4096 16384 = .ok s₀ ∧ allocMemPages 1 s₀ = .ok (8192, s₁) ∧
      Run memoryStep s₁ (List.replicate (2 ^ 32 - 1) (.realloc 8192)) s₂ ∧
      allocMemPages 1 s₂ = .ok (8192, s₃) := by
  obtain ⟨s₀, s, hinit, hff, hrun, -, hpos, hblist, hnode₀, -⟩ := exists_wrapped
  have hinv := memoryInit_inv hinit (by norm_num) (by rw [hff]; norm_num)
  rw [hff] at hinv
  obtain ⟨s₁, h₁, -⟩ := alloc_two hinv
  rw [hff] at h₁
  obtain ⟨m, hm⟩ : ∃ m, s.allNodes = m + 1 := ⟨s.allNodes - 1, by omega⟩
  have hone : toSize 1 = 1 := by decide
  have halloc : ∃ s', allocMemPages 1 s = .ok (8192, s') := by
    rw [allocMemPages, if_neg (by norm_num), hblist, hm, allocLoop, hnode₀]
    dsimp only
    rw [if_neg (by rw [hone]; omega), if_pos hone]
    exact ⟨_, rfl⟩
  obtain ⟨s₃, h₃⟩ := halloc
  cases hrun with
  | cons hstep hrest =>
    obtain ⟨r, hr⟩ := hstep
    cases h₁.symm.trans hr
    exact ⟨s₀, s₁, s, s₃, hinit, h₁, hrest, h₃⟩

end Result

end Savannah
