import Mathlib

/-!
# Block lists: an interval cut into counted blocks

The abstract side of a reference counted page allocator.  A pool is an interval `[lo, hi)` of pages
cut into consecutive non-empty blocks (`Tiles`), each with a reference count; a block is free when
its count is `0`.  `Coalesced` says that no two neighbours are both free.

* `allocate` takes the first free block that is large enough and cuts off what is not needed;
* `share` adds a reference to a block;
* `release` drops one, and a block whose last reference is dropped is fused with its free
  neighbours (`fuseCons`).

The three operations keep `Tiles` and `Coalesced`.  Because a coalesced list has maximal free
blocks, a run of free pages never crosses a block border (`exists_block_of_freeRun`); this makes
first fit complete (`allocate_eq_none_iff`) and gives the lowest fitting address
(`allocate_lowest`).
-/

namespace Foundation

/-- A block of `pages` consecutive pages from `start`, held by `ref` references. -/
@[ext]
structure Block where
  start : ℕ
  pages : ℕ
  ref : ℕ
  deriving DecidableEq, Repr

namespace Block

/-- The first page after the block. -/
def stop (b : Block) : ℕ := b.start + b.pages

/-- A block without references is free. -/
def IsFree (b : Block) : Prop := b.ref = 0

instance (b : Block) : Decidable b.IsFree := inferInstanceAs (Decidable (b.ref = 0))

/-- The page `p` belongs to the block. -/
def Has (b : Block) (p : ℕ) : Prop := b.start ≤ p ∧ p < b.stop

end Block

/-- `Tiles lo L hi`: the blocks of `L` are non-empty and cover `[lo, hi)` without gap or overlap. -/
def Tiles : ℕ → List Block → ℕ → Prop
  | lo, [], hi => lo = hi
  | lo, b :: L, hi => b.start = lo ∧ 0 < b.pages ∧ Tiles b.stop L hi

/-- No two neighbouring blocks are both free. -/
def Coalesced (L : List Block) : Prop :=
  L.IsChain fun b c => ¬ (b.IsFree ∧ c.IsFree)

/-! ### Tilings -/

section Tiles

variable {lo mid hi p q : ℕ} {b c : Block} {L A C : List Block}

@[simp] theorem tiles_nil : Tiles lo [] hi ↔ lo = hi := Iff.rfl

@[simp] theorem tiles_cons :
    Tiles lo (b :: L) hi ↔ b.start = lo ∧ 0 < b.pages ∧ Tiles b.stop L hi := Iff.rfl

/-- A concatenation tiles an interval iff its halves tile two adjacent intervals. -/
theorem tiles_append : Tiles lo (A ++ C) hi ↔ ∃ mid, Tiles lo A mid ∧ Tiles mid C hi := by
  induction A generalizing lo with
  | nil => simp
  | cons b A ih =>
    simp only [List.cons_append, tiles_cons, ih]
    constructor
    · rintro ⟨h₁, h₂, mid, h₃, h₄⟩
      exact ⟨mid, ⟨h₁, h₂, h₃⟩, h₄⟩
    · rintro ⟨mid, ⟨h₁, h₂, h₃⟩, h₄⟩
      exact ⟨h₁, h₂, mid, h₃, h₄⟩

/-- Tiles go upwards. -/
theorem Tiles.le (h : Tiles lo L hi) : lo ≤ hi := by
  induction L generalizing lo with
  | nil => exact le_of_eq h
  | cons b L ih =>
    obtain ⟨h₁, -, h₃⟩ := h
    have := ih h₃
    simp only [Block.stop] at this
    omega

/-- Every block of a tiling is non-empty and lies in the interval. -/
theorem Tiles.mem (h : Tiles lo L hi) (hb : b ∈ L) : lo ≤ b.start ∧ 0 < b.pages ∧ b.stop ≤ hi := by
  induction L generalizing lo with
  | nil => simp at hb
  | cons c L ih =>
    obtain ⟨h₁, h₂, h₃⟩ := h
    rcases List.mem_cons.mp hb with rfl | hb
    · exact ⟨h₁.ge, h₂, h₃.le⟩
    · obtain ⟨h₄, h₅, h₆⟩ := ih h₃ hb
      refine ⟨?_, h₅, h₆⟩
      simp only [Block.stop] at h₄
      omega

/-- The blocks of a tiling are in increasing order, each ending before the later ones start. -/
theorem Tiles.pairwise (h : Tiles lo L hi) : L.Pairwise fun b c => b.stop ≤ c.start := by
  induction L generalizing lo with
  | nil => exact List.Pairwise.nil
  | cons b L ih => exact List.pairwise_cons.mpr ⟨fun c hc => (h.2.2.mem hc).1, ih h.2.2⟩

/-- The start addresses of a tiling are strictly increasing. -/
theorem Tiles.sorted (h : Tiles lo L hi) : (L.map Block.start).Pairwise (· < ·) := by
  induction L generalizing lo with
  | nil => exact List.Pairwise.nil
  | cons b L ih =>
    refine List.pairwise_cons.mpr ⟨?_, ih h.2.2⟩
    intro s hs
    obtain ⟨c, hc, rfl⟩ := List.mem_map.mp hs
    have hle := (h.2.2.mem hc).1
    have hpos := h.2.1
    simp only [Block.stop] at hle
    omega

/-- The starts of tiles are distinct. -/
theorem Tiles.nodup_starts (h : Tiles lo L hi) : (L.map Block.start).Nodup :=
  h.sorted.imp fun hlt => hlt.ne

/-- Neighbouring blocks of a tiling touch. -/
theorem Tiles.isChain (h : Tiles lo L hi) : L.IsChain fun b c => b.stop = c.start := by
  induction L generalizing lo with
  | nil => exact List.isChain_nil
  | cons b L ih =>
    cases L with
    | nil => exact List.isChain_singleton b
    | cons c L => exact List.isChain_cons_cons.mpr ⟨h.2.2.1.symm, ih h.2.2⟩

/-- The sizes of the blocks add up to the size of the interval. -/
theorem Tiles.sum_pages (h : Tiles lo L hi) : lo + (L.map Block.pages).sum = hi := by
  induction L generalizing lo with
  | nil => exact h
  | cons b L ih =>
    obtain ⟨h₁, -, h₃⟩ := h
    have hsum := ih h₃
    rw [List.map_cons, List.sum_cons]
    simp only [Block.stop] at hsum
    omega

/-- Two blocks of a tiling with a common page are the same block. -/
theorem Tiles.eq_of_has (h : Tiles lo L hi) (hb : b ∈ L) (hc : c ∈ L) (hbp : b.Has p)
    (hcp : c.Has p) : b = c := by
  induction L generalizing lo with
  | nil => simp at hb
  | cons d L ih =>
    simp only [Block.Has] at hbp hcp
    rcases List.mem_cons.mp hb with hbd | hbL <;> rcases List.mem_cons.mp hc with hcd | hcL
    · rw [hbd, hcd]
    · have := (h.2.2.mem hcL).1
      rw [hbd] at hbp
      omega
    · have := (h.2.2.mem hbL).1
      rw [hcd] at hcp
      omega
    · exact ih h.2.2 hbL hcL

/-- A block of a tiling is determined by its start. -/
theorem Tiles.eq_of_start (h : Tiles lo L hi) (hb : b ∈ L) (hc : c ∈ L)
    (hbc : b.start = c.start) : b = c := by
  have hb' := (h.mem hb).2.1
  have hc' := (h.mem hc).2.1
  refine h.eq_of_has (p := b.start) hb hc ⟨le_rfl, ?_⟩ ⟨hbc.ge, ?_⟩
  · simp only [Block.stop]; omega
  · simp only [Block.stop]; omega

/-- Every page of the interval belongs to a block of the tiling. -/
theorem Tiles.exists_has (h : Tiles lo L hi) (hlo : lo ≤ p) (hhi : p < hi) :
    ∃ b ∈ L, b.Has p := by
  induction L generalizing lo with
  | nil => simp only [tiles_nil] at h; omega
  | cons b L ih =>
    obtain ⟨h₁, -, h₃⟩ := h
    by_cases hp : p < b.stop
    · exact ⟨b, List.mem_cons_self, by omega, hp⟩
    · obtain ⟨c, hc, hcp⟩ := ih h₃ (by omega)
      exact ⟨c, List.mem_cons_of_mem _ hc, hcp⟩

/-- A tiling has no more blocks than the interval has pages. -/
theorem Tiles.length_le (h : Tiles lo L hi) : L.length ≤ hi - lo := by
  induction L generalizing lo with
  | nil => simp
  | cons b L ih =>
    obtain ⟨h₁, h₂, h₃⟩ := h
    have := ih h₃
    have hle := h₃.le
    simp only [Block.stop] at this hle
    simp only [List.length_cons]
    omega

end Tiles

/-! ### The operations -/

/-- First fit: the first free block with at least `n` pages is taken; a larger one is cut, and what
is left over stays free behind it. -/
def allocate (n : ℕ) : List Block → Option (ℕ × List Block)
  | [] => none
  | b :: L =>
    if 0 < b.ref ∨ b.pages < n then
      (allocate n L).map fun r => (r.1, b :: r.2)
    else if b.pages = n then
      some (b.start, { b with ref := 1 } :: L)
    else
      some (b.start, ⟨b.start, n, 1⟩ :: ⟨b.start + n, b.pages - n, 0⟩ :: L)

/-- One more reference to the block that starts at `a`. -/
def share (a : ℕ) (L : List Block) : List Block :=
  L.map fun b => if b.start = a then { b with ref := b.ref + 1 } else b

/-- Put a block in front of a list, fusing it with the first one when both are free. -/
def fuseCons (b : Block) : List Block → List Block
  | [] => [b]
  | c :: L => if b.IsFree ∧ c.IsFree then { b with pages := b.pages + c.pages } :: L
      else b :: c :: L

/-- Drop one reference of the block that starts at `a`.  When it was the last one the block becomes
free and is fused with its free neighbours on both sides. -/
def release (a : ℕ) : List Block → List Block
  | [] => []
  | b :: L =>
    if b.start = a then
      if 1 < b.ref then { b with ref := b.ref - 1 } :: L else fuseCons { b with ref := 0 } L
    else fuseCons b (release a L)

/-- The page `p` lies in a free block of the list. -/
def FreePage (L : List Block) (p : ℕ) : Prop := ∃ b ∈ L, b.IsFree ∧ b.Has p

/-- The `n` pages from `p` are all free. -/
def FreeRun (L : List Block) (p n : ℕ) : Prop := ∀ k < n, FreePage L (p + k)

/-! ### Fusing keeps the tiling and the coalescing -/

section Fuse

variable {lo hi : ℕ} {b c : Block} {L : List Block}

theorem fuseCons_cons (b c : Block) (L : List Block) :
    fuseCons b (c :: L) =
      if b.IsFree ∧ c.IsFree then { b with pages := b.pages + c.pages } :: L else b :: c :: L :=
  rfl

/-- Fusing keeps the tiling. -/
theorem fuseCons_tiles (h : Tiles lo (b :: L) hi) : Tiles lo (fuseCons b L) hi := by
  cases L with
  | nil => exact h
  | cons c L =>
    obtain ⟨h₁, h₂, h₃, h₄, h₅⟩ := h
    rw [fuseCons_cons]
    split
    · refine ⟨h₁, Nat.add_pos_left h₂ _, ?_⟩
      have hstop : ({ b with pages := b.pages + c.pages } : Block).stop = c.stop := by
        simp only [Block.stop] at h₃ ⊢
        omega
      rwa [hstop]
    · exact ⟨h₁, h₂, h₃, h₄, h₅⟩

/-- The first block of a fused list is free exactly when the block put in front was. -/
theorem fuseCons_head (b : Block) (L : List Block) :
    ∃ c M, fuseCons b L = c :: M ∧ c.start = b.start ∧ c.ref = b.ref := by
  cases L with
  | nil => exact ⟨b, [], rfl, rfl, rfl⟩
  | cons c L =>
    rw [fuseCons_cons]
    split
    · exact ⟨_, _, rfl, rfl, rfl⟩
    · exact ⟨b, c :: L, rfl, rfl, rfl⟩

/-- Fusing leaves no two free neighbours. -/
theorem fuseCons_coalesced (h : Coalesced L) : Coalesced (fuseCons b L) := by
  cases L with
  | nil => exact List.isChain_singleton _
  | cons c L =>
    rw [fuseCons_cons]
    split
    · rename_i hbc
      -- the fused block is free like `c`, so what `c` could stand before it can stand before too
      unfold Coalesced at h ⊢
      refine List.IsChain.imp_head ?_ h
      rintro z hz ⟨-, hzf⟩
      exact hz ⟨hbc.2, hzf⟩
    · rename_i hbc
      exact List.isChain_cons_cons.mpr ⟨hbc, h⟩

end Fuse

/-! ### Allocation -/

section Allocate

variable {n lo hi a : ℕ} {b : Block} {L M : List Block}

/-- A block in use or too small is passed over. -/
theorem allocate_cons_skip (h : 0 < b.ref ∨ b.pages < n) :
    allocate n (b :: L) = (allocate n L).map fun r => (r.1, b :: r.2) := by
  rw [allocate, if_pos h]

/-- A block of the right size is taken whole. -/
theorem allocate_cons_whole (hfree : b.IsFree) :
    allocate b.pages (b :: L) = some (b.start, { b with ref := 1 } :: L) := by
  have hskip : ¬ (0 < b.ref ∨ b.pages < b.pages) := by
    simp only [Block.IsFree] at hfree
    omega
  rw [allocate, if_neg hskip, if_pos rfl]

/-- A larger block is cut. -/
theorem allocate_cons_cut (hfree : b.IsFree) (hlt : n < b.pages) :
    allocate n (b :: L) =
      some (b.start, ⟨b.start, n, 1⟩ :: ⟨b.start + n, b.pages - n, 0⟩ :: L) := by
  have hskip : ¬ (0 < b.ref ∨ b.pages < n) := by
    simp only [Block.IsFree] at hfree
    omega
  rw [allocate, if_neg hskip, if_neg hlt.ne']

/-- What first fit does: the blocks before the one taken are skipped, that one is free and large
enough, and it is taken whole or cut. -/
theorem allocate_cases (h : allocate n L = some (a, M)) :
    ∃ A b C, L = A ++ b :: C ∧ (∀ c ∈ A, 0 < c.ref ∨ c.pages < n) ∧ b.IsFree ∧ b.start = a ∧
      ((b.pages = n ∧ M = A ++ { b with ref := 1 } :: C) ∨
        (n < b.pages ∧ M = A ++ ⟨b.start, n, 1⟩ :: ⟨b.start + n, b.pages - n, 0⟩ :: C)) := by
  induction L generalizing a M with
  | nil => simp [allocate] at h
  | cons d L ih =>
    by_cases hskip : 0 < d.ref ∨ d.pages < n
    · rw [allocate_cons_skip hskip, Option.map_eq_some_iff] at h
      obtain ⟨⟨a', M'⟩, h', heq⟩ := h
      obtain ⟨rfl, rfl⟩ := Prod.mk.inj heq
      obtain ⟨A, b, C, rfl, hA, hb, hba, hM⟩ := ih h'
      refine ⟨d :: A, b, C, rfl, ?_, hb, hba, ?_⟩
      · intro c hc
        rcases List.mem_cons.mp hc with rfl | hc
        · exact hskip
        · exact hA c hc
      · rcases hM with ⟨hp, rfl⟩ | ⟨hp, rfl⟩
        · exact Or.inl ⟨hp, rfl⟩
        · exact Or.inr ⟨hp, rfl⟩
    · have hfree : d.IsFree := by simp only [Block.IsFree]; omega
      refine ⟨[], d, L, rfl, by simp, hfree, ?_⟩
      rcases (show n ≤ d.pages by omega).lt_or_eq with hlt | rfl
      · rw [allocate_cons_cut hfree hlt] at h
        obtain ⟨rfl, rfl⟩ := Prod.mk.inj (Option.some.inj h)
        exact ⟨rfl, Or.inr ⟨hlt, rfl⟩⟩
      · rw [allocate_cons_whole hfree] at h
        obtain ⟨rfl, rfl⟩ := Prod.mk.inj (Option.some.inj h)
        exact ⟨rfl, Or.inl ⟨rfl, rfl⟩⟩

/-- First fit fails exactly when no free block is large enough. -/
theorem allocate_eq_none : allocate n L = none ↔ ∀ b ∈ L, b.IsFree → b.pages < n := by
  induction L with
  | nil => simp [allocate]
  | cons d L ih =>
    by_cases hskip : 0 < d.ref ∨ d.pages < n
    · rw [allocate_cons_skip hskip, Option.map_eq_none_iff, ih, List.forall_mem_cons]
      simp only [Block.IsFree]
      constructor
      · exact fun h => ⟨fun hd => by omega, h⟩
      · exact fun h => h.2
    · have hfree : d.IsFree := by simp only [Block.IsFree]; omega
      constructor
      · intro h
        rcases (show n ≤ d.pages by omega).lt_or_eq with hlt | rfl
        · simp [allocate_cons_cut hfree hlt] at h
        · simp [allocate_cons_whole hfree] at h
      · intro h
        have := h d List.mem_cons_self hfree
        omega

/-- Allocation keeps the tiling. -/
theorem allocate_tiles (hn : 0 < n) (hL : Tiles lo L hi) (h : allocate n L = some (a, M)) :
    Tiles lo M hi := by
  obtain ⟨A, b, C, rfl, -, -, -, hM⟩ := allocate_cases h
  obtain ⟨mid, hA, hb⟩ := tiles_append.mp hL
  rcases hM with ⟨-, rfl⟩ | ⟨hlt, rfl⟩
  · exact tiles_append.mpr ⟨mid, hA, hb⟩
  · refine tiles_append.mpr ⟨mid, hA, hb.1, hn, rfl, Nat.sub_pos_of_lt hlt, ?_⟩
    have hstop : (⟨b.start + n, b.pages - n, 0⟩ : Block).stop = b.stop := by
      simp only [Block.stop]
      omega
    rw [hstop]
    exact hb.2.2

/-- Allocation makes no free neighbours. -/
theorem allocate_coalesced (hL : Coalesced L) (h : allocate n L = some (a, M)) : Coalesced M := by
  obtain ⟨A, b, C, rfl, -, hfree, -, hM⟩ := allocate_cases h
  obtain ⟨hA, hbC, hseam⟩ := List.isChain_append.mp hL
  rcases hM with ⟨-, rfl⟩ | ⟨-, rfl⟩
  · -- the block is no longer free, so it may stand beside anything
    refine List.isChain_append.mpr ⟨hA, hbC.tail.cons fun c _ => ?_, ?_⟩
    · simp [Block.IsFree]
    · intro x _ y hy
      obtain rfl := by simpa using hy
      simp [Block.IsFree]
  · refine List.isChain_append.mpr ⟨hA, ?_, ?_⟩
    · refine List.isChain_cons_cons.mpr ⟨by simp [Block.IsFree], hbC.tail.cons fun c hc => ?_⟩
      -- the remainder is free like the block it was cut from
      rintro ⟨-, hcf⟩
      exact hbC.rel_head? hc ⟨hfree, hcf⟩
    · intro x _ y hy
      obtain rfl := by simpa using hy
      simp [Block.IsFree]

end Allocate

/-! ### Sharing and releasing -/

section Release

variable {lo hi a : ℕ} {b p : Block} {L A C X : List Block}

/-- Sharing keeps the tiling. -/
theorem share_tiles (hL : Tiles lo L hi) : Tiles lo (share a L) hi := by
  induction L generalizing lo with
  | nil => exact hL
  | cons b L ih =>
    simp only [share, List.map_cons] at ih ⊢
    obtain ⟨h₁, h₂, h₃⟩ := hL
    split
    · exact ⟨h₁, h₂, ih h₃⟩
    · exact ⟨h₁, h₂, ih h₃⟩

/-- A block that is shared is not free afterwards, so sharing cannot bring two free blocks
together. -/
theorem share_coalesced (hL : Coalesced L) : Coalesced (share a L) := by
  unfold Coalesced share at *
  rw [List.isChain_map]
  refine hL.imp fun b c hbc => ?_
  rintro ⟨hb, hc⟩
  refine hbc ⟨?_, ?_⟩
  · split at hb
    · simp [Block.IsFree] at hb
    · exact hb
  · split at hc
    · simp [Block.IsFree] at hc
    · exact hc

/-- Sharing counts one block up. -/
theorem share_append (hA : a ∉ A.map Block.start) (hC : a ∉ C.map Block.start)
    (hb : b.start = a) : share a (A ++ b :: C) = A ++ { b with ref := b.ref + 1 } :: C := by
  have hsame : ∀ D : List Block, a ∉ D.map Block.start → share a D = D := by
    intro D hD
    refine (List.map_congr_left fun c hc => ?_).trans (List.map_id D)
    rw [if_neg fun h => hD (List.mem_map.mpr ⟨c, hc, h⟩)]
    rfl
  have hA' := hsame A hA
  have hC' := hsame C hC
  unfold share at hA' hC' ⊢
  rw [List.map_append, List.map_cons, hA', hC', if_pos hb]

/-- Release keeps the tiling. -/
theorem release_tiles (hL : Tiles lo L hi) : Tiles lo (release a L) hi := by
  induction L generalizing lo with
  | nil => exact hL
  | cons b L ih =>
    obtain ⟨h₁, h₂, h₃⟩ := hL
    unfold release
    split
    · split
      · exact ⟨h₁, h₂, h₃⟩
      · exact fuseCons_tiles ⟨h₁, h₂, h₃⟩
    · exact fuseCons_tiles ⟨h₁, h₂, ih h₃⟩

/-- Release fuses free neighbours. -/
theorem release_coalesced (hL : Coalesced L) : Coalesced (release a L) := by
  induction L with
  | nil => exact hL
  | cons b L ih =>
    unfold release
    split
    · split
      · -- the count stays positive, so the block is still not free
        refine hL.tail.cons fun c _ => ?_
        simp only [Block.IsFree, not_and]
        omega
      · exact fuseCons_coalesced hL.tail
    · exact fuseCons_coalesced (ih hL.tail)

/-- Releasing inside the list works from the released block backwards. -/
theorem release_append (hA : a ∉ A.map Block.start) :
    release a (A ++ L) = A.foldr fuseCons (release a L) := by
  induction A with
  | nil => rfl
  | cons c A ih =>
    rw [List.map_cons, List.mem_cons, not_or] at hA
    rw [List.cons_append, release, if_neg (Ne.symm hA.1), ih hA.2, List.foldr_cons]

/-- Fusing a coalesced list backwards onto a block it may stand before changes nothing. -/
theorem foldr_fuseCons_eq_append (hA : Coalesced (A ++ [p]))
    (hX : X.head?.map Block.ref = some p.ref) :
    A.foldr fuseCons X = A ++ X := by
  induction A with
  | nil => rfl
  | cons c A ih =>
    rw [List.foldr_cons, ih hA.tail, List.cons_append]
    obtain ⟨x, M, rfl⟩ : ∃ x M, X = x :: M := by
      cases X with
      | nil => simp at hX
      | cons x M => exact ⟨x, M, rfl⟩
    have hxp : x.ref = p.ref := by simpa using hX
    cases A with
    | nil =>
      rw [List.nil_append, fuseCons_cons, if_neg]
      have hcp := (List.isChain_cons_cons.mp hA).1
      simpa only [Block.IsFree, hxp] using hcp
    | cons d A =>
      rw [List.cons_append, fuseCons_cons, if_neg (List.isChain_cons_cons.mp hA).1]

/-- A dropped reference that is not the last one changes the count of that block only. -/
theorem release_shared (hL : Coalesced (A ++ b :: C)) (hA : a ∉ A.map Block.start)
    (hb : b.start = a) (href : 1 < b.ref) :
    release a (A ++ b :: C) = A ++ { b with ref := b.ref - 1 } :: C := by
  rw [release_append hA, release, if_pos hb, if_pos href]
  refine foldr_fuseCons_eq_append (p := ⟨b.start, b.pages, b.ref - 1⟩) ?_ rfl
  obtain ⟨h₁, -, -⟩ := List.isChain_append.mp hL
  refine List.isChain_append.mpr ⟨h₁, List.isChain_singleton _, ?_⟩
  intro x _ y hy
  obtain rfl := by simpa using hy
  simp only [Block.IsFree, not_and]
  omega

/-- Dropping the last reference of the first block fuses it to the right. -/
theorem release_last_head (hb : b.start = a) (href : b.ref ≤ 1) :
    release a (b :: C) = fuseCons { b with ref := 0 } C := by
  rw [release, if_pos hb, if_neg (by omega)]

/-- Dropping the last reference of a later block fuses it to the right and then to the left. -/
theorem release_last (hL : Coalesced (A ++ p :: b :: C)) (hA : a ∉ (A ++ [p]).map Block.start)
    (hb : b.start = a) (href : b.ref ≤ 1) :
    release a (A ++ p :: b :: C) = A ++ fuseCons p (fuseCons { b with ref := 0 } C) := by
  have hsplit : A ++ p :: b :: C = (A ++ [p]) ++ b :: C := by simp
  rw [hsplit, release_append hA, release_last_head hb href, List.foldr_append, List.foldr_cons,
    List.foldr_nil]
  refine foldr_fuseCons_eq_append (p := p) ?_ ?_
  · rw [hsplit] at hL
    exact (List.isChain_append.mp hL).1
  · obtain ⟨c, M, hc, -, href'⟩ := fuseCons_head p (fuseCons { b with ref := 0 } C)
    rw [hc]
    simp [href']

end Release

/-! ### Live blocks -/

/-- A block of the list that somebody holds. -/
def Live (L : List Block) (b : Block) : Prop := b ∈ L ∧ 0 < b.ref

section Live

variable {n lo hi a p : ℕ} {b c : Block} {L M A C : List Block}

@[simp] theorem live_cons : Live (b :: L) c ↔ (c = b ∧ 0 < b.ref) ∨ Live L c := by
  simp only [Live, List.mem_cons]
  constructor
  · rintro ⟨rfl | h, hc⟩
    · exact Or.inl ⟨rfl, hc⟩
    · exact Or.inr ⟨h, hc⟩
  · rintro (⟨rfl, hc⟩ | ⟨h, hc⟩)
    · exact ⟨Or.inl rfl, hc⟩
    · exact ⟨Or.inr h, hc⟩

@[simp] theorem live_append : Live (A ++ C) c ↔ Live A c ∨ Live C c := by
  simp only [Live, List.mem_append, or_and_right]

@[simp] theorem not_live_nil : ¬ Live [] c := by simp [Live]

/-- Fusing only touches free blocks. -/
@[simp] theorem live_fuseCons : Live (fuseCons b L) c ↔ Live (b :: L) c := by
  cases L with
  | nil => exact Iff.rfl
  | cons d L =>
    rw [fuseCons_cons]
    split
    · rename_i h
      simp only [Block.IsFree] at h
      simp [h.1, h.2]
    · exact Iff.rfl

/-- Allocation adds one live block and keeps the others as they are. -/
theorem allocate_live (h : allocate n L = some (a, M)) :
    Live M c ↔ Live L c ∨ c = ⟨a, n, 1⟩ := by
  obtain ⟨A, b, C, rfl, -, hfree, rfl, hM⟩ := allocate_cases h
  simp only [Block.IsFree] at hfree
  rcases hM with ⟨rfl, rfl⟩ | ⟨-, rfl⟩
  · simp [hfree, or_comm, or_assoc]
  · simp [hfree, or_comm, or_assoc]

/-- Sharing raises the count of one block and keeps the others as they are. -/
theorem share_live (hL : Tiles lo L hi) (hb : Live L b) :
    Live (share b.start L) c ↔
      (Live L c ∧ c.start ≠ b.start) ∨ c = { b with ref := b.ref + 1 } := by
  simp only [Live, share, List.mem_map]
  constructor
  · rintro ⟨⟨d, hd, rfl⟩, hpos⟩
    split
    · rename_i hdb
      obtain rfl := hL.eq_of_start hd hb.1 hdb
      exact Or.inr rfl
    · rename_i hdb
      rw [if_neg hdb] at hpos
      exact Or.inl ⟨⟨hd, hpos⟩, hdb⟩
  · rintro (⟨⟨hc, hpos⟩, hne⟩ | rfl)
    · exact ⟨⟨c, hc, by rw [if_neg hne]⟩, hpos⟩
    · exact ⟨⟨b, hb.1, by rw [if_pos rfl]⟩, Nat.succ_pos _⟩

/-- Releasing lowers the count of one block, which disappears from the live ones when the count
was `1`, and keeps the other live blocks as they are. -/
theorem release_live (hL : Tiles lo L hi) (hb : Live L b) :
    Live (release b.start L) c ↔
      (Live L c ∧ c.start ≠ b.start) ∨ (1 < b.ref ∧ c = { b with ref := b.ref - 1 }) := by
  induction L generalizing lo with
  | nil => simp at hb
  | cons d L ih =>
    have hrest : ∀ e ∈ L, e.start ≠ d.start := by
      intro e he heq
      have hle := (hL.2.2.mem he).1
      have hpos := hL.2.1
      simp only [Block.stop] at hle
      omega
    unfold release
    split
    · rename_i hdb
      obtain rfl := hL.eq_of_start List.mem_cons_self hb.1 hdb
      have hkeep : Live L c → c.start ≠ d.start := fun hc => hrest c hc.1
      split
      · rename_i href
        simp only [live_cons]
        constructor
        · rintro (⟨rfl, -⟩ | hc)
          · exact Or.inr ⟨href, rfl⟩
          · exact Or.inl ⟨Or.inr hc, hkeep hc⟩
        · rintro (⟨⟨rfl, -⟩ | hc, hne⟩ | ⟨-, rfl⟩)
          · exact absurd rfl hne
          · exact Or.inr hc
          · exact Or.inl ⟨rfl, Nat.sub_pos_of_lt href⟩
      · rename_i href
        simp only [live_fuseCons, live_cons]
        constructor
        · rintro (⟨-, h0⟩ | hc)
          · exact absurd h0 (lt_irrefl 0)
          · exact Or.inl ⟨Or.inr hc, hkeep hc⟩
        · rintro (⟨⟨rfl, -⟩ | hc, hne⟩ | ⟨h1, -⟩)
          · exact absurd rfl hne
          · exact Or.inr hc
          · exact absurd h1 href
    · rename_i hdb
      have hb' : Live L b := by
        rcases live_cons.mp hb with ⟨rfl, -⟩ | hb'
        · exact absurd rfl hdb
        · exact hb'
      simp only [live_fuseCons, live_cons, ih hL.2.2 hb']
      constructor
      · rintro (⟨rfl, hpos⟩ | ⟨hc, hne⟩ | hc)
        · exact Or.inl ⟨Or.inl ⟨rfl, hpos⟩, hdb⟩
        · exact Or.inl ⟨Or.inr hc, hne⟩
        · exact Or.inr hc
      · rintro (⟨⟨rfl, hpos⟩ | hc, hne⟩ | hc)
        · exact Or.inl ⟨rfl, hpos⟩
        · exact Or.inr (Or.inl ⟨hc, hne⟩)
        · exact Or.inr (Or.inr hc)

/-- A page of a tiled interval is free exactly when no live block has it. -/
theorem freePage_iff (hL : Tiles lo L hi) (hlo : lo ≤ p) (hhi : p < hi) :
    FreePage L p ↔ ¬ ∃ b, Live L b ∧ b.Has p := by
  constructor
  · rintro ⟨b, hb, hfree, hbp⟩ ⟨c, hc, hcp⟩
    obtain rfl := hL.eq_of_has hb hc.1 hbp hcp
    have hpos := hc.2
    simp only [Block.IsFree] at hfree
    omega
  · intro h
    obtain ⟨b, hb, hbp⟩ := hL.exists_has hlo hhi
    refine ⟨b, hb, ?_, hbp⟩
    by_contra hne
    exact h ⟨b, ⟨hb, Nat.pos_of_ne_zero hne⟩, hbp⟩

end Live

/-! ### Room -/

/-- Some free block has more than `n` pages. -/
def HasRoom (n : ℕ) (L : List Block) : Prop := ∃ b ∈ L, b.IsFree ∧ n < b.pages

section Room

variable {n k lo hi : ℕ} {b : Block} {L : List Block}

/-- With room for more than `k` pages a block of `k` pages can be had, and the rest of the room
stays. -/
theorem HasRoom.allocate (h : HasRoom (n + k) L) :
    ∃ a M, allocate k L = some (a, M) ∧ HasRoom n M := by
  obtain ⟨b, hb, hfree, hpages⟩ := h
  cases halloc : Foundation.allocate k L with
  | none =>
    have := allocate_eq_none.mp halloc b hb hfree
    omega
  | some r =>
    obtain ⟨a, M⟩ := r
    refine ⟨a, M, rfl, ?_⟩
    obtain ⟨A, d, C, rfl, -, -, -, hM⟩ := allocate_cases halloc
    rcases hM with ⟨hwhole, rfl⟩ | ⟨hcut, rfl⟩
    · -- the block with the room is larger than the one that was taken
      have hne : b ≠ d := by
        rintro rfl
        omega
      refine ⟨b, ?_, hfree, by omega⟩
      rcases List.mem_append.mp hb with hA | hC
      · exact List.mem_append_left _ hA
      · exact List.mem_append_right _ (List.mem_cons_of_mem _ (List.mem_of_ne_of_mem hne hC))
    · by_cases hbd : b = d
      · subst hbd
        exact ⟨⟨b.start + k, b.pages - k, 0⟩, by simp, rfl, by dsimp only; omega⟩
      · refine ⟨b, ?_, hfree, by omega⟩
        rcases List.mem_append.mp hb with hA | hC
        · exact List.mem_append_left _ hA
        · refine List.mem_append_right _ (List.mem_cons_of_mem _ (List.mem_cons_of_mem _ ?_))
          exact List.mem_of_ne_of_mem hbd hC

/-- Room for many pages is room for few. -/
theorem HasRoom.of_le (h : HasRoom k L) (hle : n ≤ k) : HasRoom n L := by
  obtain ⟨b, hb, hfree, hpages⟩ := h
  exact ⟨b, hb, hfree, by omega⟩

/-- Sharing a live block leaves the room. -/
theorem HasRoom.share (h : HasRoom n L) (hL : Tiles lo L hi) (hb : Live L b) :
    HasRoom n (share b.start L) := by
  obtain ⟨c, hc, hfree, hpages⟩ := h
  have hne : c.start ≠ b.start := by
    intro heq
    obtain rfl := hL.eq_of_start hc hb.1 heq
    exact absurd hb.2 (Nat.not_lt.mpr (Nat.le_of_eq hfree))
  exact ⟨c, List.mem_map.mpr ⟨c, hc, if_neg hne⟩, hfree, hpages⟩

/-- Fusing makes no free block smaller. -/
theorem HasRoom.fuseCons (h : HasRoom n (b :: L)) : HasRoom n (fuseCons b L) := by
  cases L with
  | nil => exact h
  | cons c L =>
    rw [fuseCons_cons]
    split
    · rename_i hbc
      obtain ⟨d, hd, hfree, hpages⟩ := h
      rcases List.mem_cons.mp hd with rfl | hd
      · exact ⟨_, List.mem_cons_self, hfree, by dsimp only; omega⟩
      rcases List.mem_cons.mp hd with rfl | hd
      · exact ⟨_, List.mem_cons_self, hbc.1, by dsimp only; omega⟩
      · exact ⟨d, List.mem_cons_of_mem _ hd, hfree, hpages⟩
    · exact h

/-- A further block takes no room away. -/
theorem HasRoom.cons (h : HasRoom n L) (b : Block) : HasRoom n (b :: L) := by
  obtain ⟨c, hc, hfree, hpages⟩ := h
  exact ⟨c, List.mem_cons_of_mem _ hc, hfree, hpages⟩

/-- Releasing a block leaves the room. -/
theorem HasRoom.release (a : ℕ) (h : HasRoom n L) : HasRoom n (release a L) := by
  induction L with
  | nil => exact h
  | cons b L ih =>
    obtain ⟨c, hc, hfree, hpages⟩ := h
    rw [Foundation.release]
    rcases List.mem_cons.mp hc with rfl | hc
    · have hfirst : ∀ M, HasRoom n ({ c with ref := 0 } :: M) := fun M =>
        ⟨{ c with ref := 0 }, List.mem_cons_self, rfl, hpages⟩
      have hsame : { c with ref := 0 } = c := Block.ext rfl rfl hfree.symm
      split
      · rw [if_neg (by rw [hfree]; omega)]
        exact (hfirst L).fuseCons
      · exact (hsame ▸ hfirst _).fuseCons
    · have hrest : HasRoom n L := ⟨c, hc, hfree, hpages⟩
      split
      · split
        · exact hrest.cons _
        · exact (hrest.cons _).fuseCons
      · exact ((ih hrest).cons _).fuseCons

end Room

/-! ### Runs of free pages -/

section FreeRun

variable {n lo hi a p : ℕ} {b c : Block} {L M : List Block}

/-- In a coalesced tiling the block behind a free block is not free. -/
theorem Coalesced.not_free_behind (hL : Tiles lo L hi) (hco : Coalesced L) (hb : b ∈ L) (hc : c ∈ L)
    (hfree : b.IsFree) (hcb : c.Has b.stop) : ¬ c.IsFree := by
  induction L generalizing lo with
  | nil => simp at hb
  | cons d L ih =>
    rcases List.mem_cons.mp hb with rfl | hbL
    · -- `c` is the block right behind the first one
      cases L with
      | nil =>
        obtain rfl := List.mem_singleton.mp hc
        simp only [Block.Has, Block.stop] at hcb
        omega
      | cons e L =>
        obtain ⟨hde, -⟩ := List.isChain_cons_cons.mp hco
        have he : e.Has b.stop := by
          have h₁ := hL.2.2.1
          have h₂ := hL.2.2.2.1
          exact ⟨h₁.le, by simp only [Block.stop] at h₁ ⊢; omega⟩
        obtain rfl := hL.eq_of_has hc (List.mem_cons_of_mem _ List.mem_cons_self) hcb he
        exact fun hcf => hde ⟨hfree, hcf⟩
    · rcases List.mem_cons.mp hc with rfl | hcL
      · have h₁ := (hL.2.2.mem hbL).1
        simp only [Block.Has, Block.stop] at hcb h₁
        omega
      · exact ih hL.2.2 hco.tail hbL hcL

/-- A run of free pages lies in one free block: the blocks are maximal. -/
theorem exists_block_of_freeRun (hL : Tiles lo L hi) (hco : Coalesced L) (hn : 0 < n)
    (hrun : FreeRun L p n) : ∃ b ∈ L, b.IsFree ∧ b.start ≤ p ∧ p + n ≤ b.stop := by
  induction n with
  | zero => exact absurd hn (lt_irrefl 0)
  | succ n ih =>
    obtain ⟨c, hc, hcf, hcp⟩ := hrun n (Nat.lt_succ_self n)
    rcases Nat.eq_zero_or_pos n with rfl | hn'
    · exact ⟨c, hc, hcf, hcp.1, hcp.2⟩
    · obtain ⟨b, hb, hbf, hbp, hbn⟩ := ih hn' fun k hk => hrun k (Nat.lt_succ_of_lt hk)
      refine ⟨b, hb, hbf, hbp, ?_⟩
      by_contra hlt
      -- otherwise the run reaches the block behind `b`, which is not free
      have hstop : p + n = b.stop := by omega
      exact Coalesced.not_free_behind hL hco hb hc hbf (hstop ▸ hcp) hcf

/-- First fit is complete: it fails exactly when there is no run of `n` free pages. -/
theorem allocate_eq_none_iff (hL : Tiles lo L hi) (hco : Coalesced L) (hn : 0 < n) :
    allocate n L = none ↔ ¬ ∃ p, FreeRun L p n := by
  rw [allocate_eq_none]
  constructor
  · rintro h ⟨p, hrun⟩
    obtain ⟨b, hb, hbf, hbp, hbn⟩ := exists_block_of_freeRun hL hco hn hrun
    have hlt := h b hb hbf
    simp only [Block.stop] at hbn
    omega
  · intro h b hb hbf
    by_contra hge
    refine h ⟨b.start, fun k hk => ⟨b, hb, hbf, ?_, ?_⟩⟩
    · omega
    · simp only [Block.stop]; omega

/-- First fit takes the lowest address at which a run of `n` free pages starts. -/
theorem allocate_lowest (hL : Tiles lo L hi) (hco : Coalesced L) (hn : 0 < n)
    (h : allocate n L = some (a, M)) :
    FreeRun L a n ∧ ∀ p, FreeRun L p n → a ≤ p := by
  obtain ⟨A, b, C, rfl, hA, hbf, rfl, hM⟩ := allocate_cases h
  have hbn : n ≤ b.pages := by
    rcases hM with ⟨h, -⟩ | ⟨h, -⟩
    · exact h.ge
    · exact h.le
  refine ⟨fun k hk => ⟨b, by simp, hbf, ?_, ?_⟩, fun p hrun => ?_⟩
  · omega
  · simp only [Block.stop]; omega
  · obtain ⟨c, hc, hcf, hcp, hcn⟩ := exists_block_of_freeRun hL hco hn hrun
    obtain ⟨mid, -, hbC⟩ := tiles_append.mp hL
    rcases List.mem_append.mp hc with hcA | hcC
    · -- the blocks before `b` were skipped: none of them can hold the run
      have hskip := hA c hcA
      simp only [Block.IsFree] at hcf
      simp only [Block.stop] at hcn
      omega
    · have hle := (hbC.mem hcC).1
      have hmid := hbC.1
      omega

end FreeRun

/-! ### Canonicity -/

section Canonical

variable {lo hi : ℕ} {b c : Block} {L M : List Block}

/-- The tail of a tiling has no block of the head's start. -/
theorem Tiles.ne_head (h : Tiles lo (b :: L) hi) (hc : c ∈ L) : c ≠ b := by
  rintro rfl
  have hle := (h.2.2.mem hc).1
  have hpos := h.2.1
  simp only [Block.stop] at hle
  omega

/-- Of two coalesced tilings with the same live blocks, the free block at the head of the one is not
shorter than the free block at the head of the other. -/
theorem free_head_le (hL : Tiles lo (b :: L) hi) (hM : Tiles lo (c :: M) hi)
    (hco : Coalesced (b :: L)) (hlive : ∀ d, Live (b :: L) d → Live (c :: M) d)
    (hb : b.IsFree) (hc : c.IsFree) : c.pages ≤ b.pages := by
  by_contra hlt
  have hbs : b.start = lo := hL.1
  have hcs : c.start = lo := hM.1
  have hstop : b.stop < hi := by
    have := (hM.mem List.mem_cons_self).2.2
    simp only [Block.stop] at this ⊢
    omega
  -- the block behind `b` is live, but `c` reaches over it
  obtain ⟨d, hd, hdp⟩ := hL.exists_has (p := b.stop) (by simp only [Block.stop]; omega) hstop
  have hdfree := hco.not_free_behind hL List.mem_cons_self hd hb hdp
  have hdM := hlive d ⟨hd, Nat.pos_of_ne_zero hdfree⟩
  have hcd : c = d := hM.eq_of_has List.mem_cons_self hdM.1
    ⟨by simp only [Block.stop]; omega, by simp only [Block.stop]; omega⟩ hdp
  exact hdfree (hcd ▸ hc)

/-- A coalesced tiling is determined by its live blocks. -/
theorem Coalesced.eq_of_live (hL : Tiles lo L hi) (hM : Tiles lo M hi) (hcoL : Coalesced L)
    (hcoM : Coalesced M) (hlive : ∀ d, Live L d ↔ Live M d) : L = M := by
  induction L generalizing lo M with
  | nil =>
    obtain rfl : lo = hi := hL
    cases M with
    | nil => rfl
    | cons c M =>
      have := hM.2.2.le
      have := hM.2.1
      have := hM.1
      simp only [Block.stop] at *
      omega
  | cons b L ih =>
    cases M with
    | nil =>
      obtain rfl : lo = hi := hM
      have := hL.2.2.le
      have := hL.2.1
      have := hL.1
      simp only [Block.stop] at *
      omega
    | cons c M =>
      have hbs : b.start = c.start := hL.1.trans hM.1.symm
      have hhead : b = c := by
        by_cases hb : b.IsFree
        · by_cases hc : c.IsFree
          · have h₁ := free_head_le hL hM hcoL (fun d => (hlive d).mp) hb hc
            have h₂ := free_head_le hM hL hcoM (fun d => (hlive d).mpr) hc hb
            simp only [Block.IsFree] at hb hc
            exact Block.ext hbs (le_antisymm h₂ h₁) (hb.trans hc.symm)
          · have hcL := (hlive c).mpr ⟨List.mem_cons_self, Nat.pos_of_ne_zero hc⟩
            exact hL.eq_of_start List.mem_cons_self hcL.1 hbs
        · have hbM := (hlive b).mp ⟨List.mem_cons_self, Nat.pos_of_ne_zero hb⟩
          exact hM.eq_of_start hbM.1 List.mem_cons_self hbs
      subst hhead
      -- the tails have the same live blocks, since neither contains the head
      have htail : ∀ d, Live L d ↔ Live M d := by
        intro d
        have hd := hlive d
        rw [live_cons, live_cons] at hd
        constructor
        · intro hdL
          rcases hd.mp (Or.inr hdL) with ⟨hdb, -⟩ | hdM
          · exact absurd hdb (hL.ne_head hdL.1)
          · exact hdM
        · intro hdM
          rcases hd.mpr (Or.inr hdM) with ⟨hdb, -⟩ | hdL
          · exact absurd hdb (hM.ne_head hdM.1)
          · exact hdL
      rw [ih hL.2.2 hM.2.2 hcoL.tail hcoM.tail htail]

end Canonical

end Foundation
