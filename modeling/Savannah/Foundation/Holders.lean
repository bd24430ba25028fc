import Savannah.Foundation.BlockList

/-!
# The holders of blocks

`Held f L O`: the multiset `O` names, with multiplicity, the holders of the live blocks of `L`.  A
holder names a block by its address (`f` of its start) and its size; the reference count of a block
is the number of its holders.  Allocation adds a holder of a new block, sharing adds a holder of an
old one, releasing removes one.
-/

namespace Foundation

/-- The live blocks of `L` and their reference counts are the holders `O`. -/
structure Held (f : ℕ → ℕ) (L : List Block) (O : Multiset (ℕ × ℕ)) : Prop where
  ref : ∀ b, Live L b → b.ref = O.count (f b.start, b.pages)
  live : ∀ x ∈ O, ∃ b, Live L b ∧ x = (f b.start, b.pages)

section Held

variable {f : ℕ → ℕ} {lo hi n a : ℕ} {b : Block} {L M : List Block} {O : Multiset (ℕ × ℕ)}

/-- Nobody holds anything of a list without live blocks. -/
theorem held_empty (h : ∀ b, ¬ Live L b) : Held f L 0 :=
  ⟨fun b hb => absurd hb (h b), fun x hx => absurd hx (Multiset.notMem_zero x)⟩

/-- The blocks of a list have holders: as many as their reference counts say. -/
theorem exists_held (hf : Function.Injective f) (hL : (L.map Block.start).Nodup) :
    ∃ O, Held f L O := by
  induction L with
  | nil => exact ⟨0, held_empty fun _ => not_live_nil⟩
  | cons b L ih =>
    rw [List.map_cons, List.nodup_cons] at hL
    obtain ⟨O, hO⟩ := ih hL.2
    have hb : ∀ k, (f b.start, k) ∉ O := by
      intro k hk
      obtain ⟨c, hc, heq⟩ := hO.live _ hk
      refine hL.1 (List.mem_map.mpr ⟨c, hc.1, (hf (Prod.mk.inj heq).1).symm⟩)
    refine ⟨Multiset.replicate b.ref (f b.start, b.pages) + O, fun c hc => ?_, fun x hx => ?_⟩
    · rw [Multiset.count_add, Multiset.count_replicate]
      rcases live_cons.mp hc with ⟨rfl, -⟩ | hc
      · rw [if_pos rfl, Multiset.count_eq_zero.mpr (hb _), Nat.add_zero]
      · rw [if_neg, Nat.zero_add]
        · exact hO.ref c hc
        · exact fun heq => hL.1 (List.mem_map.mpr ⟨c, hc.1, (hf (Prod.mk.inj heq).1).symm⟩)
    · rcases Multiset.mem_add.mp hx with hx | hx
      · obtain ⟨hpos, rfl⟩ := Multiset.mem_replicate.mp hx
        exact ⟨b, live_cons.mpr (Or.inl ⟨rfl, Nat.pos_of_ne_zero hpos⟩), rfl⟩
      · obtain ⟨c, hc, rfl⟩ := hO.live x hx
        exact ⟨c, live_cons.mpr (Or.inr hc), rfl⟩

/-- A new block has one holder; the address was not held before. -/
theorem Held.allocate (hf : Function.Injective f) (hL : Tiles lo L hi) (h : Held f L O)
    (halloc : allocate n L = some (a, M)) :
    Held f M ((f a, n) ::ₘ O) ∧ ∀ k, (f a, k) ∉ O := by
  have hfresh : ∀ k, (f a, k) ∉ O := by
    intro k hk
    obtain ⟨b, hb, heq⟩ := h.live _ hk
    obtain ⟨A, c, C, rfl, -, hfree, hca, -⟩ := allocate_cases halloc
    have hbc : b = c :=
      hL.eq_of_start hb.1 (by simp) (by rw [hca]; exact (hf (Prod.mk.inj heq).1).symm)
    have hpos := hb.2
    rw [hbc] at hpos
    simp only [Block.IsFree] at hfree
    omega
  refine ⟨⟨fun b hb => ?_, fun x hx => ?_⟩, hfresh⟩
  · rcases (allocate_live halloc).mp hb with hold | rfl
    · rw [Multiset.count_cons_of_ne]
      · exact h.ref b hold
      · intro heq
        have hmem : (f b.start, b.pages) ∈ O := by
          rw [← Multiset.count_pos, ← h.ref b hold]
          exact hold.2
        rw [heq] at hmem
        exact hfresh n hmem
    · rw [Multiset.count_cons_self, Multiset.count_eq_zero.mpr (hfresh n)]
  · rcases Multiset.mem_cons.mp hx with rfl | hx
    · exact ⟨⟨a, n, 1⟩, (allocate_live halloc).mpr (Or.inr rfl), rfl⟩
    · obtain ⟨b, hb, rfl⟩ := h.live x hx
      exact ⟨b, (allocate_live halloc).mpr (Or.inl hb), rfl⟩

/-- A holder names a live block. -/
theorem Held.count_pos (h : Held f L O) (hb : Live L b) : (f b.start, b.pages) ∈ O := by
  rw [← Multiset.count_pos, ← h.ref b hb]
  exact hb.2

/-- Blocks with distinct starts have distinct names. -/
private theorem holder_ne {c : Block} (hf : Function.Injective f) (hne : c.start ≠ b.start) :
    (f c.start, c.pages) ≠ (f b.start, b.pages) :=
  fun heq => hne (hf (Prod.mk.inj heq).1)

/-- Sharing a block adds a holder. -/
theorem Held.share (hf : Function.Injective f) (hL : Tiles lo L hi) (h : Held f L O)
    (hb : Live L b) : Held f (share b.start L) ((f b.start, b.pages) ::ₘ O) := by
  refine ⟨fun c hc => ?_, fun x hx => ?_⟩
  · rcases (share_live hL hb).mp hc with ⟨hc, hne⟩ | rfl
    · rw [Multiset.count_cons_of_ne (holder_ne hf hne)]
      exact h.ref c hc
    · rw [Multiset.count_cons_self, ← h.ref b hb]
  · have hnew : ∃ c, Live (Foundation.share b.start L) c ∧
        (f b.start, b.pages) = (f c.start, c.pages) :=
      ⟨{ b with ref := b.ref + 1 }, (share_live hL hb).mpr (Or.inr rfl), rfl⟩
    rcases Multiset.mem_cons.mp hx with rfl | hx
    · exact hnew
    · obtain ⟨c, hc, rfl⟩ := h.live x hx
      by_cases hcb : c.start = b.start
      · obtain rfl := hL.eq_of_start hc.1 hb.1 hcb
        exact hnew
      · exact ⟨c, (share_live hL hb).mpr (Or.inl ⟨hc, hcb⟩), rfl⟩

/-- Releasing a block removes a holder. -/
theorem Held.release (hf : Function.Injective f) (hL : Tiles lo L hi) (h : Held f L O)
    (hb : Live L b) : Held f (release b.start L) (O.erase (f b.start, b.pages)) := by
  refine ⟨fun c hc => ?_, fun x hx => ?_⟩
  · rcases (release_live hL hb).mp hc with ⟨hc, hne⟩ | ⟨-, rfl⟩
    · rw [Multiset.count_erase_of_ne (holder_ne hf hne)]
      exact h.ref c hc
    · rw [Multiset.count_erase_self, ← h.ref b hb]
  · obtain ⟨c, hc, rfl⟩ := h.live x (Multiset.mem_of_mem_erase hx)
    by_cases hcb : c.start = b.start
    · obtain rfl := hL.eq_of_start hc.1 hb.1 hcb
      -- the block still has a holder, so its count was above one
      rw [← Multiset.count_pos, Multiset.count_erase_self, ← h.ref c hb] at hx
      exact ⟨{ c with ref := c.ref - 1 }, (release_live hL hb).mpr (Or.inr ⟨by omega, rfl⟩), rfl⟩
    · exact ⟨c, (release_live hL hb).mpr (Or.inl ⟨hc, hcb⟩), rfl⟩

end Held

end Foundation
