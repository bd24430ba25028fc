import Savannah.Memory.Counting

/-!
# The block list is canonical

The list that `memory.c` keeps along the `next` pointers is a function of the live blocks: two
histories that end with the same live blocks end with the same list, however differently they split
and fused the free space on the way.  The reason is in the abstract layer: a coalesced tiling of the
pool is determined by its live blocks.

Releases commute for that reason.  A call of `free_mem_pages` takes one from the count of one entry
of the array and leaves the others alone, so that the counts after a sequence of releases depend
only on how often each block was released.
-/

namespace Savannah

open Foundation MemoryState

/-- The blocks along `next` from the node `current`: start, pages and count of each.  At most `fuel`
nodes are visited. -/
def blockListFrom (s : MemoryState) : ℕ → Option ℕ → Option (List (ℕ × ℤ × ℕ))
  | _, none => some []
  | 0, some _ => none
  | fuel + 1, some i =>
    let current := s.blockNodeArray i
    (blockListFrom s fuel current.next).map
      ((current.bStartAddr, current.bPages, current.bRef) :: ·)

/-- The block list, read from `blist`. -/
def blockList (s : MemoryState) : Option (List (ℕ × ℤ × ℕ)) :=
  blockListFrom s (s.allNodes + 1) s.blist

/-- The live blocks: start, pages and count of every node with references. -/
def MemoryState.liveBlocks (s : MemoryState) : Set (ℕ × ℤ × ℕ) :=
  {x | ∃ i, s.LiveNode i ∧ x =
    ((s.blockNodeArray i).bStartAddr, (s.blockNodeArray i).bPages, (s.blockNodeArray i).bRef)}

/-! ### The list and the live blocks of a represented state -/

section Represented

variable {s s' : MemoryState} {pool : ℕ} {L L' A C : List Block} {b : Block}

/-- The triple that the node of the block `b` holds in a pool that starts at `ff`. -/
def blockEntry (ff : ℕ) (b : Block) : ℕ × ℤ × ℕ := (ff + b.start * 4096, b.pages, b.ref)

/-- A block is known by its entry. -/
theorem blockEntry_injective (ff : ℕ) : Function.Injective (blockEntry ff) := by
  intro b c h
  simp only [blockEntry, Prod.mk.injEq, Nat.cast_inj] at h
  exact Block.ext (by omega) h.2.1 h.2.2

/-- The node of a block. -/
theorem Represents.entry (h : Represents s L) (hb : b ∈ L) :
    ((s.blockNodeArray b.start).bStartAddr, (s.blockNodeArray b.start).bPages,
      (s.blockNodeArray b.start).bRef) = blockEntry s.firstFreeAddr b := by
  rw [h.addr b hb, h.pages b hb, h.ref b hb]
  rfl

/-- Following the links gives the list. -/
theorem Represents.blockListFrom_eq (h : Represents s (A ++ C)) {fuel : ℕ}
    (hfuel : C.length < fuel) :
    blockListFrom s fuel (C.map Block.start).head? =
      some (C.map (blockEntry s.firstFreeAddr)) := by
  induction C generalizing A fuel with
  | nil => cases fuel <;> rfl
  | cons b C ih =>
    obtain ⟨fuel, rfl⟩ : ∃ f, fuel = f + 1 := ⟨fuel - 1, by omega⟩
    have hb : b ∈ A ++ b :: C := by simp
    have hnext : (s.blockNodeArray b.start).next = (C.map Block.start).head? := by
      have hL := h.links
      rw [List.map_append, List.map_cons] at hL
      exact hL.next_eq
    have hrest := ih (A := A ++ [b]) (by simpa using h)
      (show C.length < fuel by simpa using Nat.lt_of_succ_lt_succ hfuel)
    rw [List.map_cons, List.head?_cons, blockListFrom]
    rw [hnext, hrest, h.entry hb]
    rfl

/-- The list in memory is the abstract one. -/
theorem MemoryInv.blockList_eq (h : MemoryInv s pool L) :
    blockList s = some (L.map (blockEntry s.firstFreeAddr)) := by
  have hfuel : L.length < s.allNodes + 1 := by
    have h₁ := h.tiles.length_le
    have h₂ := h.layout.pool_le
    omega
  unfold blockList
  rw [h.rep.blist]
  exact Represents.blockListFrom_eq (A := []) h.rep hfuel

/-- The blocks in use are the live ones. -/
theorem MemoryInv.mem_liveBlocks (h : MemoryInv s pool L) :
    blockEntry s.firstFreeAddr b ∈ s.liveBlocks ↔ Live L b := by
  constructor
  · rintro ⟨i, hi, heq⟩
    obtain ⟨c, hc, rfl⟩ := h.liveNode_iff.mp hi
    rw [h.rep.entry hc.1] at heq
    rwa [blockEntry_injective _ heq]
  · intro hb
    exact ⟨b.start, h.liveNode_iff.mpr ⟨b, hb, rfl⟩, (h.rep.entry hb.1).symm⟩

/-- The same live blocks in the same pool: the same list. -/
theorem MemoryInv.blockList_congr (h : MemoryInv s pool L) (h' : MemoryInv s' pool L')
    (hff : s'.firstFreeAddr = s.firstFreeAddr) (hlive : s.liveBlocks = s'.liveBlocks) :
    blockList s = blockList s' := by
  have hL : L = L' := by
    refine Coalesced.eq_of_live h.tiles h'.tiles h.coalesced h'.coalesced fun b => ?_
    rw [← h.mem_liveBlocks, ← h'.mem_liveBlocks, hff, hlive]
  rw [h.blockList_eq, h'.blockList_eq, hff, hL]

end Represented

/-! ### Releases -/

section Releases

variable {s s' t : MemoryState} {pool paddr i : ℕ} {L : List Block} {ps : List ℕ}

/-- How often the addresses of the list select the node `i`. -/
def releases (s : MemoryState) (i : ℕ) (ps : List ℕ) : ℕ :=
  ps.countP fun paddr => (blockIndex s paddr).toOption == some i

/-- The counts of `s'` are those of `s` less the releases, and the blocks that are still live have
not moved. -/
structure Released (s : MemoryState) (ps : List ℕ) (s' : MemoryState) : Prop where
  layout : SameLayout s s'
  ref : ∀ i < s.allNodes,
    (s'.blockNodeArray i).bRef + releases s i ps = (s.blockNodeArray i).bRef
  data : ∀ i, s'.LiveNode i →
    (s'.blockNodeArray i).bStartAddr = (s.blockNodeArray i).bStartAddr ∧
      (s'.blockNodeArray i).bPages = (s.blockNodeArray i).bPages

/-- One release takes one from one count. -/
theorem MemoryInv.free_released (h : MemoryInv s pool L) (hi : blockIndex s paddr = .ok i)
    (hlive : (s.blockNodeArray i).bRef ≠ 0) :
    ∃ s' L', freeMemPages paddr s = .ok s' ∧ MemoryInv s' pool L' ∧ Released s [paddr] s' := by
  obtain ⟨s', hs', hlay, h'⟩ := freeMemPages_eq h hi hlive
  obtain ⟨b, hb, rfl, hrefb⟩ := h.exists_live (blockIndex_lt hi) hlive
  have hrel : ∀ j, releases s j [paddr] = if b.start = j then 1 else 0 := by
    intro j
    simp [releases, hi, Except.toOption]
  refine ⟨s', _, hs', h', hlay, fun j hj => ?_, fun j hj => ?_⟩
  · rw [hrel]
    by_cases hlive' : (s'.blockNodeArray j).bRef = 0
    · -- the node is free afterwards: it was free before, or this was its last reference
      split
      · rename_i hbj
        subst hbj
        by_contra hne
        have hmore : 1 < b.ref := by
          have := hb.2
          omega
        have hkept := (release_live h.tiles hb (c := { b with ref := b.ref - 1 })).mpr
          (Or.inr ⟨hmore, rfl⟩)
        have := h'.rep.ref _ hkept.1
        dsimp only at this
        omega
      · rename_i hbj
        by_contra hne
        obtain ⟨c, hc, rfl, hrefc⟩ := h.exists_live hj (by omega)
        have hkept := (release_live h.tiles hb).mpr (Or.inl ⟨hc, Ne.symm hbj⟩)
        have := h'.rep.ref c hkept.1
        have := hc.2
        omega
    · obtain ⟨c, hc, rfl, hrefc⟩ := h'.exists_live (by rw [hlay.allNodes]; exact hj) hlive'
      rcases (release_live h.tiles hb).mp hc with ⟨hold, hne⟩ | ⟨hmore, rfl⟩
      · rw [if_neg (Ne.symm hne), hrefc, h.rep.ref c hold.1, Nat.add_zero]
      · dsimp only at hrefc ⊢
        rw [if_pos rfl, hrefc, hrefb]
        omega
  · obtain ⟨c, hc, rfl⟩ := h'.liveNode_iff.mp hj
    rw [h'.rep.addr c hc.1, h'.rep.pages c hc.1, hlay.firstFree]
    rcases (release_live h.tiles hb).mp hc with ⟨hold, -⟩ | ⟨-, rfl⟩
    · exact ⟨(h.rep.addr c hold.1).symm, (h.rep.pages c hold.1).symm⟩
    · exact ⟨(h.rep.addr b hb.1).symm, (h.rep.pages b hb.1).symm⟩

theorem releases_cons (s : MemoryState) (i paddr : ℕ) (ps : List ℕ) :
    releases s i (paddr :: ps) = releases s i [paddr] + releases s i ps := by
  unfold releases
  rw [← List.countP_append]
  rfl

/-- The layout decides which block is released. -/
theorem MemoryState.SameLayout.releases (h : SameLayout s s') (i : ℕ) (ps : List ℕ) :
    Savannah.releases s' i ps = Savannah.releases s i ps := by
  unfold Savannah.releases
  simp only [h.blockIndex]

theorem MemoryState.SameLayout.outside (h : SameLayout s s') :
    s'.Outside paddr ↔ s.Outside paddr := by
  unfold MemoryState.Outside
  rw [h.firstFree, h.lastIdx]

/-- Releases one after the other. -/
theorem Released.cons (h : Released s [paddr] s') (h' : Released s' ps t) :
    Released s (paddr :: ps) t := by
  refine ⟨h.layout.trans h'.layout, fun i hi => ?_, fun i hi => ?_⟩
  · have h₁ := h.ref i hi
    have h₂ := h'.ref i (by rw [h.layout.allNodes]; exact hi)
    rw [h.layout.releases] at h₂
    rw [releases_cons]
    omega
  · obtain ⟨haddr, hpages⟩ := h'.data i hi
    have hlt : i < s'.allNodes := by
      rw [← h'.layout.allNodes]
      exact hi.1
    -- a block that is live at the end was live in between
    have hlive : s'.LiveNode i := by
      refine ⟨hlt, ?_⟩
      have := h'.ref i hlt
      have := hi.2
      omega
    obtain ⟨haddr', hpages'⟩ := h.data i hlive
    exact ⟨haddr.trans haddr', hpages.trans hpages'⟩

/-- What a run of releases does, and which addresses it was given. -/
theorem MemoryInv.free_run (h : MemoryInv s pool L) (hrun : Run safeStep s (ps.map .free) t) :
    Released s ps t ∧ (∃ L', MemoryInv t pool L') ∧
      ∀ paddr ∈ ps, ¬ s.Outside paddr ∧ ∃ i, blockIndex s paddr = .ok i := by
  induction ps generalizing s L with
  | nil =>
    cases hrun
    exact ⟨⟨.refl _, fun i _ => rfl, fun i _ => ⟨rfl, rfl⟩⟩, ⟨L, h⟩, by simp⟩
  | cons paddr ps ih =>
    rw [List.map_cons] at hrun
    cases hrun with
    | @cons _ s' _ _ _ hstep hrest =>
      obtain ⟨hsafe, v, hv⟩ := hstep
      cases hi : blockIndex s paddr with
      | error e => simp [MemoryCall.exec, freeMemPages, hi, bind, Except.bind, Except.map] at hv
      | ok i =>
        have hlive : (s.blockNodeArray i).bRef ≠ 0 := by
          intro h0
          simp [MemoryCall.exec, freeMemPages, hi, bind, Except.bind, Except.map, h0] at hv
        obtain ⟨s'', L', hs'', h', hrel⟩ := h.free_released hi hlive
        obtain rfl : s'' = s' := by
          simp only [MemoryCall.exec, hs'', Except.map] at hv
          cases hv
          rfl
        obtain ⟨hrel', hinv, haddrs⟩ := ih h' hrest
        refine ⟨hrel.cons hrel', hinv, fun q hq => ?_⟩
        rcases List.mem_cons.mp hq with rfl | hq
        · exact ⟨hsafe, i, hi⟩
        · have := haddrs q hq
          rwa [hrel.layout.outside, hrel.layout.blockIndex] at this

/-- Releases that no count is too small for can be made in the order of the list. -/
theorem MemoryInv.exists_free_run (h : MemoryInv s pool L)
    (hidx : ∀ paddr ∈ ps, ¬ s.Outside paddr ∧ ∃ i, blockIndex s paddr = .ok i)
    (hcount : ∀ i < s.allNodes, releases s i ps ≤ (s.blockNodeArray i).bRef) :
    ∃ t, Run safeStep s (ps.map .free) t := by
  induction ps generalizing s L with
  | nil => exact ⟨s, .nil s⟩
  | cons paddr ps ih =>
    obtain ⟨hout, i, hi⟩ := hidx paddr List.mem_cons_self
    have hone : releases s i [paddr] = 1 := by simp [releases, hi, Except.toOption]
    have hlive : (s.blockNodeArray i).bRef ≠ 0 := by
      have := hcount i (blockIndex_lt hi)
      rw [releases_cons, hone] at this
      omega
    obtain ⟨s', L', hs', h', hrel⟩ := h.free_released hi hlive
    obtain ⟨t, ht⟩ := ih h'
      (fun q hq => by
        rw [hrel.layout.outside, hrel.layout.blockIndex]
        exact hidx q (List.mem_cons_of_mem _ hq))
      (fun j hj => by
        rw [hrel.layout.allNodes] at hj
        have h₁ := hcount j hj
        have h₂ := hrel.ref j hj
        rw [releases_cons] at h₁
        rw [hrel.layout.releases]
        omega)
    exact ⟨t, .cons ⟨hout, 0, by simp only [MemoryCall.exec, hs', Except.map]⟩ ht⟩

/-- The live blocks after a sequence of releases depend only on how often each was released. -/
theorem Released.liveBlocks_eq {qs : List ℕ} {u : MemoryState} (h : Released s ps t)
    (h' : Released s qs u) (hcount : ∀ i, releases s i ps = releases s i qs) :
    t.liveBlocks = u.liveBlocks := by
  have key : ∀ {ps qs : List ℕ} {t u : MemoryState}, Released s ps t → Released s qs u →
      (∀ i, releases s i ps = releases s i qs) → t.liveBlocks ⊆ u.liveBlocks := by
    rintro ps qs t u ht hu hc x ⟨i, hi, rfl⟩
    have hlt : i < s.allNodes := by
      rw [← ht.layout.allNodes]
      exact hi.1
    have href : (u.blockNodeArray i).bRef = (t.blockNodeArray i).bRef := by
      have h₁ := ht.ref i hlt
      have h₂ := hu.ref i hlt
      have h₃ := hc i
      omega
    have hiu : u.LiveNode i := ⟨by rw [hu.layout.allNodes]; exact hlt, by rw [href]; exact hi.2⟩
    obtain ⟨haddr, hpages⟩ := ht.data i hi
    obtain ⟨haddr', hpages'⟩ := hu.data i hiu
    exact ⟨i, hiu, by rw [haddr, hpages, haddr', hpages', href]⟩
  exact (key h h' hcount).antisymm (key h' h fun i => (hcount i).symm)

/-- Releases in another order end with the same list. -/
theorem MemoryInv.free_perm (h : MemoryInv s pool L) {qs : List ℕ} (hperm : ps.Perm qs)
    (hrun : Run safeStep s (ps.map .free) t) :
    ∃ u, Run safeStep s (qs.map .free) u ∧ blockList u = blockList t := by
  obtain ⟨hrel, ⟨Lt, ht⟩, hidx⟩ := h.free_run hrun
  have hsame : ∀ i, releases s i ps = releases s i qs := fun i => hperm.countP_eq _
  obtain ⟨u, hu⟩ := h.exists_free_run (fun q hq => hidx q (hperm.mem_iff.mpr hq))
    (fun i hi => by
      have := hrel.ref i hi
      have := hsame i
      omega)
  obtain ⟨hrel', ⟨Lu, hu'⟩, -⟩ := h.free_run hu
  refine ⟨u, hu, (ht.blockList_congr hu' ?_ (hrel.liveBlocks_eq hrel' hsame)).symm⟩
  rw [hrel.layout.firstFree, hrel'.layout.firstFree]

end Releases

/-! ### The main result -/

section Result

variable {mem : ℕ → BlockNode} {last memSize : ℕ} {s₀ : MemoryState}

/-- In the runs from `s₀` the list is a function of the live blocks, releases commute, and without
live blocks it is the one free block again. -/
structure ListCanonical (s₀ : MemoryState) (memSize : ℕ) : Prop where
  determined : ∀ cs cs' s s', Run safeStep s₀ cs s → Run safeStep s₀ cs' s' →
    s.liveBlocks = s'.liveBlocks → blockList s ≠ none ∧ blockList s = blockList s'
  commute : ∀ cs s (ps qs : List ℕ) t, Run safeStep s₀ cs s → Run safeStep s (ps.map .free) t →
    ps.Perm qs → ∃ u, Run safeStep s (qs.map .free) u ∧ blockList u = blockList t
  restored : ∀ cs s, Run safeStep s₀ cs s → s.liveBlocks = ∅ →
    blockList s = some [(s₀.firstFreeAddr, (((memSize - s₀.firstFreeAddr) / 4096 : ℕ) : ℤ), 0)]

/-- In a fresh pool nothing is live and the list is one free block. -/
theorem FreshPool.blockList_eq {s : MemoryState} {pool : ℕ} (h : FreshPool s pool) :
    s.liveBlocks = ∅ ∧ blockList s = some [(s.firstFreeAddr, (pool : ℤ), 0)] := by
  refine ⟨?_, ?_⟩
  · refine Set.eq_empty_of_forall_notMem ?_
    rintro x ⟨i, hi, -⟩
    exact absurd (h.ref i hi.1) hi.2.ne'
  · unfold blockList
    rw [h.blist, blockListFrom, h.node]
    cases s.allNodes <;> rfl

/-- The block list is canonical in every run of safe calls from `memory_init`. -/
theorem listCanonical_of_init (hinit : memoryInit mem last memSize = .ok s₀)
    (hsize : memSize < 2 ^ 43) (hpool : s₀.firstFreeAddr ≤ memSize) :
    ListCanonical s₀ memSize := by
  have hfresh := memoryInit_fresh hinit hsize hpool
  obtain ⟨hempty, hlist⟩ := hfresh.blockList_eq
  rcases Nat.lt_or_ge memSize (s₀.firstFreeAddr + 4096) with hsmall | hpage
  · -- a pool without pages never changes
    rw [Nat.div_eq_of_lt (by omega)] at hfresh
    have hstay : ∀ cs s, Run safeStep s₀ cs s → s = s₀ := fun cs s hrun =>
      hrun.invariant (I := fun s => s = s₀)
        (fun s c t hstep hs => (FreshPool.step_empty (hs ▸ hfresh) hstep.2).trans hs) rfl
    refine ⟨fun cs cs' s s' hs hs' _ => ?_, fun cs s ps qs t hs ht hperm => ?_,
      fun cs s hs _ => ?_⟩
    · rw [hstay cs s hs, hstay cs' s' hs', hlist]
      simp
    · obtain rfl := hstay cs s hs
      cases ps with
      | nil =>
        obtain rfl := hperm.nil_eq
        exact ⟨t, ht, rfl⟩
      | cons p ps =>
        cases ht with
        | cons hstep hrest =>
          obtain ⟨-, v, hv⟩ := hstep
          cases hi : blockIndex s p with
          | error e => simp [MemoryCall.exec, freeMemPages, hi, bind, Except.bind, Except.map] at hv
          | ok i =>
            have hzero := hfresh.ref i (blockIndex_lt hi)
            simp [MemoryCall.exec, freeMemPages, hi, bind, Except.bind, Except.map, hzero] at hv
    · rw [hstay cs s hs, hlist]
  · have hinv := memoryInit_inv hinit hsize hpage
    refine ⟨fun cs cs' s s' hs hs' hlive => ?_, fun cs s ps qs t hs ht hperm => ?_,
      fun cs s hs hdead => ?_⟩
    · obtain ⟨hlay, L, h⟩ := hinv.run hs
      obtain ⟨hlay', L', h'⟩ := hinv.run hs'
      refine ⟨by rw [h.blockList_eq]; simp, h.blockList_congr h' ?_ hlive⟩
      rw [hlay.firstFree, hlay'.firstFree]
    · obtain ⟨-, L, h⟩ := hinv.run hs
      exact h.free_perm hperm ht
    · obtain ⟨hlay, L, h⟩ := hinv.run hs
      rw [← hlist]
      exact h.blockList_congr hinv hlay.firstFree.symm (hdead.trans hempty.symm)

theorem listCanonical_of_init_two : ∃ s₀,
    memoryInit (fun _ => default) 4096 16384 = .ok s₀ ∧ ListCanonical s₀ 16384 := by
  obtain ⟨s₀, hinit, hff, -⟩ := memoryInit_two
  exact ⟨s₀, hinit, listCanonical_of_init hinit (by norm_num) (by rw [hff]; norm_num)⟩

/-- After the count of a block has wrapped no block is live, but the list has two blocks where
`memory_init` left one. -/
theorem listCanonical_wrapped : ∃ s₀ s, memoryInit (fun _ => default) 4096 16384 = .ok s₀ ∧
    Run memoryStep s₀ (.alloc 1 :: List.replicate (2 ^ 32 - 1) (.realloc 8192)) s ∧
    s₀.liveBlocks = ∅ ∧ s.liveBlocks = ∅ ∧
    blockList s₀ = some [(8192, 2, 0)] ∧ blockList s = some [(8192, 1, 0), (12288, 1, 0)] := by
  obtain ⟨s₀, s, hinit, hff, hrun, -, hpos, hblist, hnode₀, hnode₁, href⟩ := exists_wrapped
  have hfresh := memoryInit_fresh hinit (by norm_num) (by rw [hff]; norm_num)
  obtain ⟨hempty, hlist⟩ := hfresh.blockList_eq
  rw [hff] at hlist
  refine ⟨s₀, s, hinit, hrun, hempty, ?_, by simpa using hlist, ?_⟩
  · refine Set.eq_empty_of_forall_notMem ?_
    rintro x ⟨i, hi, -⟩
    exact absurd (href i hi.1) hi.2.ne'
  · obtain ⟨m, hm⟩ : ∃ m, s.allNodes = m + 1 := ⟨s.allNodes - 1, by omega⟩
    rw [blockList, hblist, hm, blockListFrom, hnode₀, blockListFrom, hnode₁]
    cases m <;> rfl

end Result

end Savannah
