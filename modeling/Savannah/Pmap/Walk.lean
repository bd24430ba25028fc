import Savannah.Pmap.Tree

/-!
# The page tables as a finite map

A sequence of calls of `map_memory` (or `ept_map_memory`) and `unmap_memory` on one tree describes a
partial map from addresses to translations: the last operation that covers the page of an address
decides (`translationOf`).  `buildTree_spec` says that the hardware walk of the tables computes this
map, for every access to tables that obeys the laws of `TableOps`.

* `walk_eq` reduces the walk to the leaf entry of the tree;
* `Region.Valid.leafResult_eq` decodes the leaf entry that the mapping loop writes;
* `PmapOp.run_spec` is the step, `PmapOp.runs_spec` the run.
-/

namespace Savannah

open Foundation

/-! ### The walk reads a leaf entry -/

/-- The translation of `v` through the leaf entry `e`. -/
def leafResult (k : TableKind) (pageSize e v : ℕ) : Option Translation :=
  if k.Present e then some (leafTranslation k pageSize e v) else none

section Walk

variable {k : TableKind} {m : Tables} {pageSize r v d i e : ℕ}

@[simp] theorem leafResult_zero : leafResult k pageSize 0 v = none := by
  unfold leafResult
  rw [if_neg]
  cases k <;> simp [TableKind.Present]

/-- The hardware follows an interior entry to the table that the code put there. -/
theorem interior_entry (he : e = tableAddr e + k.tableFlags) (hlt : tableAddr e < 2 ^ 52) :
    k.Present e ∧ ¬ IsPse e ∧ entryAddr e = tableAddr e := by
  have hflag : k.tableFlags < 128 := by cases k <;> decide
  refine ⟨?_, not_isPse_interior hflag he, ?_⟩
  · cases k <;> simp only [TableKind.tableFlags, TableKind.Present, tableAddr] at * <;> omega
  · unfold entryAddr tableAddr at *
    omega

/-- An entry of an interior table is zero, and then not present, or leads to a subtree. -/
theorem SoundTree.follow (h : SoundTree k.tableFlags m (d + 1) r) (hi : i < 512) :
    (m r i = 0 ∧ ¬ k.Present (m r i)) ∨
      (m r i ≠ 0 ∧ k.Present (m r i) ∧ ¬ IsPse (m r i) ∧ entryAddr (m r i) = tableAddr (m r i) ∧
        SoundTree k.tableFlags m d (tableAddr (m r i))) := by
  by_cases hne : m r i = 0
  · refine Or.inl ⟨hne, ?_⟩
    rw [hne]
    cases k <;> simp [TableKind.Present]
  · obtain ⟨hsub, he, -, hlt⟩ := h.child hi hne
    obtain ⟨hp, hpse, haddr⟩ := interior_entry he hlt
    exact Or.inr ⟨hne, hp, hpse, haddr, hsub⟩

/-- The decision of the walk at a leaf that may be a large page. -/
theorem leafResult_large (hpse : e ≠ 0 → IsPse e) (x : Option Translation) :
    (if k.Present e then
      if IsPse e then some (leafTranslation k pageSize e v) else x
    else none) = leafResult k pageSize e v := by
  by_cases he : e = 0
  · subst he
    rw [leafResult_zero, if_neg (by cases k <;> simp [TableKind.Present])]
  · rw [if_pos (hpse he), leafResult]

/-- The walk of a tree for pages of one size is the translation through its leaf entry. -/
theorem walk_eq (hsize : IsPageSize pageSize)
    (htree : SoundTree k.tableFlags m (depth pageSize) r)
    (hpse : pageSize ≠ size4KB → leafEntry m pageSize r v ≠ 0 → IsPse (leafEntry m pageSize r v)) :
    walk k m r v = leafResult k pageSize (leafEntry m pageSize r v) v := by
  have hi := fun shift => tableIndex_lt shift v
  unfold walk leafEntry at *
  dsimp only
  rcases hsize with rfl | rfl | rfl
  · obtain ⟨hd, hleaf, hpath⟩ := paths_4KB v
    rw [hd] at htree
    rw [hleaf, hpath]
    rcases htree.follow (hi 39) with ⟨h₁, hp₁⟩ | ⟨h₁, hp₁, -, ha₁, htree₁⟩
    · rw [if_neg hp₁, entryAt_cons_zero h₁, leafResult_zero]
    rw [if_pos hp₁, ha₁, entryAt_cons h₁]
    rcases htree₁.follow (hi 30) with ⟨h₂, hp₂⟩ | ⟨h₂, hp₂, hn₂, ha₂, htree₂⟩
    · rw [if_neg hp₂, entryAt_cons_zero h₂, leafResult_zero]
    rw [if_pos hp₂, if_neg hn₂, ha₂, entryAt_cons h₂]
    rcases htree₂.follow (hi 21) with ⟨h₃, hp₃⟩ | ⟨h₃, hp₃, hn₃, ha₃, -⟩
    · rw [if_neg hp₃, entryAt_cons_zero h₃, leafResult_zero]
    rw [if_pos hp₃, if_neg hn₃, ha₃, entryAt_cons h₃, entryAt_nil]
    rfl
  · obtain ⟨hd, hleaf, hpath⟩ := paths_2MB v
    rw [hd] at htree
    rw [hleaf, hpath] at hpse ⊢
    rcases htree.follow (hi 39) with ⟨h₁, hp₁⟩ | ⟨h₁, hp₁, -, ha₁, htree₁⟩
    · rw [if_neg hp₁, entryAt_cons_zero h₁, leafResult_zero]
    rw [if_pos hp₁, ha₁, entryAt_cons h₁]
    rcases htree₁.follow (hi 30) with ⟨h₂, hp₂⟩ | ⟨h₂, hp₂, hn₂, ha₂, -⟩
    · rw [if_neg hp₂, entryAt_cons_zero h₂, leafResult_zero]
    rw [if_pos hp₂, if_neg hn₂, ha₂]
    rw [entryAt_cons h₁, entryAt_cons h₂, entryAt_nil] at hpse
    rw [entryAt_cons h₂, entryAt_nil]
    exact leafResult_large (hpse (by decide)) _
  · obtain ⟨hd, hleaf, hpath⟩ := paths_1GB v
    rw [hd] at htree
    rw [hleaf, hpath] at hpse ⊢
    rcases htree.follow (hi 39) with ⟨h₁, hp₁⟩ | ⟨h₁, hp₁, -, ha₁, -⟩
    · rw [if_neg hp₁, entryAt_cons_zero h₁, leafResult_zero]
    rw [entryAt_cons h₁, entryAt_nil] at hpse
    rw [if_pos hp₁, ha₁, entryAt_cons h₁, entryAt_nil]
    exact leafResult_large (hpse (by decide)) _

end Walk

/-! ### Operations and the map they describe -/

/-- A region of addresses that is mapped to consecutive physical addresses from `paddr` on. -/
structure Region where
  start : ℕ
  stop : ℕ
  paddr : ℕ
  prot : ℕ
  mtype : ℕ
  deriving DecidableEq, Repr

/-- A call on an existing tree. -/
inductive PmapOp where
  | map (g : Region)
  | unmap (vaddr : ℕ)
  deriving DecidableEq, Repr

/-- The region, rounded up to whole pages, covers `v`. -/
def Region.Covers (pageSize : ℕ) (g : Region) (v : ℕ) : Prop :=
  g.start ≤ v ∧ v < g.start + pages (g.stop - g.start) pageSize * pageSize

/-- The operation decides about the page of `v`. -/
def PmapOp.Covers (pageSize : ℕ) : PmapOp → ℕ → Prop
  | map g, v => g.Covers pageSize v
  | unmap a, v => v / pageSize = a / pageSize

instance (pageSize : ℕ) (g : Region) (v : ℕ) : Decidable (g.Covers pageSize v) :=
  inferInstanceAs (Decidable (_ ∧ _))

instance (pageSize : ℕ) (op : PmapOp) (v : ℕ) : Decidable (op.Covers pageSize v) :=
  match op with
  | .map g => inferInstanceAs (Decidable (g.Covers pageSize v))
  | .unmap a => inferInstanceAs (Decidable (v / pageSize = a / pageSize))

/-- The memory type that the tables record; guest page tables have none. -/
def Region.memoryType (g : Region) : TableKind → ℕ
  | .page => 0
  | .ept => g.mtype

/-- What the operation makes of an address that it covers. -/
def PmapOp.result (k : TableKind) : PmapOp → ℕ → Option Translation
  | map g, v => some ⟨g.paddr + (v - g.start), g.prot, g.memoryType k⟩
  | unmap _, _ => none

/-- The map that a sequence of operations describes: the last one that covers `v` decides, and an
address that none covers is not mapped. -/
def translationOf (k : TableKind) (pageSize : ℕ) (ops : List PmapOp) (v : ℕ) :
    Option Translation :=
  (ops.reverse.find? fun op => op.Covers pageSize v).bind fun op => op.result k v

/-- The last operation counts. -/
theorem translationOf_snoc (k : TableKind) (pageSize : ℕ) (ops : List PmapOp) (op : PmapOp)
    (v : ℕ) : translationOf k pageSize (ops ++ [op]) v =
      if op.Covers pageSize v then op.result k v else translationOf k pageSize ops v := by
  unfold translationOf
  rw [List.reverse_append, List.reverse_singleton, List.singleton_append, List.find?_cons]
  split
  · rename_i h
    rw [if_pos (of_decide_eq_true h)]
    rfl
  · rename_i h
    rw [if_neg (of_decide_eq_false h)]

/-! ### The calls -/

section Calls

variable {ε σ : Type}

/-- The call of `map_memory` or `ept_map_memory` for a region; it returns the root. -/
def Region.mapCall (O : TableOps ε σ) (stop : Stop MapPanic → ε) (k : TableKind)
    (pageSize root flags : ℕ) (g : Region) : EStateM ε σ ℕ :=
  match k with
  | .page => mapMemory O stop root g.start g.stop g.paddr pageSize g.prot flags
  | .ept => eptMapMemory O stop root g.start g.stop g.paddr pageSize g.mtype g.prot flags

/-- The operation as a call on the tree at `root`. -/
def PmapOp.run (O : TableOps ε σ) (stop : Stop MapPanic → ε) (k : TableKind)
    (pageSize root : ℕ) : PmapOp → EStateM ε σ Unit
  | map g => do let _ ← g.mapCall O stop k pageSize root mapUpdate
  | unmap a => unmapMemory O root a

/-- Create a tree with `MAP_NEW` for the region `g`, and then perform the operations on it. -/
def buildTree (O : TableOps ε σ) (stop : Stop MapPanic → ε) (k : TableKind) (pageSize : ℕ)
    (g : Region) (ops : List PmapOp) : EStateM ε σ ℕ := do
  let root ← g.mapCall O stop k pageSize 0 mapNew
  ops.forM (PmapOp.run O stop k pageSize root)
  return root

end Calls

/-! ### Encoding and decoding a leaf entry -/

/-- The flags that the calls for a region put into its leaf entries. -/
def Region.leafFlags (k : TableKind) (g : Region) : ℕ :=
  match k with
  | .page => g.prot
  | .ept => (g.mtype <<< 3) ||| g.prot

/-- The protection fits into the flags of an entry and makes it present.  In the entry of a large
page bit 7 of the flags marks the large page and is not available for the protection. -/
def Region.ProtOk (k : TableKind) (pageSize : ℕ) (g : Region) : Prop :=
  match k with
  | .page => g.prot < 4096 ∧ g.prot % 2 = 1 ∧ (pageSize ≠ size4KB → ¬ IsPse g.prot)
  | .ept => 0 < g.prot ∧ g.prot < 8 ∧ g.mtype < 8

/-- A region of whole pages below `2 ^ 48`, mapped to physical memory. -/
structure Region.Valid (k : TableKind) (pageSize : ℕ) (g : Region) : Prop where
  nonempty : g.start < g.stop
  vaddr_aligned : g.start % pageSize = 0
  paddr_aligned : g.paddr % pageSize = 0
  vaddr_le : g.start + pages (g.stop - g.start) pageSize * pageSize ≤ 2 ^ 48
  paddr_le : g.paddr + pages (g.stop - g.start) pageSize * pageSize ≤ 2 ^ 52
  prot : g.ProtOk k pageSize

section Encode

variable {k : TableKind} {pageSize u : ℕ} {g : Region}

/-- Both calls map the region. -/
theorem Region.mapCall_eq {ε σ : Type} (O : TableOps ε σ) (stop : Stop MapPanic → ε) (k : TableKind)
    (pageSize root flags : ℕ) (g : Region) :
    g.mapCall O stop k pageSize root flags =
      mapRegion O stop k.tableFlags (g.leafFlags k) root g.start g.stop g.paddr pageSize flags := by
  cases k <;> rfl

/-- Setting the flag of a large page adds it. -/
theorem lor_pagePse {f : ℕ} (h : ¬ IsPse f) : f ||| pagePse = f + 128 := by
  unfold IsPse at h
  have hpse : pagePse = 128 := rfl
  obtain ⟨hi, lo, hlo, rfl⟩ : ∃ hi lo, lo < 128 ∧ f = 2 ^ 8 * hi + lo :=
    ⟨f / 256, f % 128, by omega, by omega⟩
  have h₁ : lo ||| pagePse = 128 + lo := by
    rw [Nat.lor_comm, hpse]
    exact (Nat.two_pow_add_eq_or_of_lt (i := 7) hlo 1).symm
  rw [Nat.two_pow_add_eq_or_of_lt (by omega), Nat.lor_assoc, h₁,
    ← Nat.two_pow_add_eq_or_of_lt (by omega), ← Nat.two_pow_add_eq_or_of_lt (by omega)]
  omega

/-- The flags of a leaf entry, and what the hardware decodes from them. -/
theorem Region.ProtOk.flags (h : g.ProtOk k pageSize) :
    ∃ f < 4096, sizedFlags pageSize (g.leafFlags k) = f ∧
      k.Present f ∧ (pageSize ≠ size4KB → IsPse f) ∧
      k.decode (pageSize ≠ size4KB) f = (g.prot, g.memoryType k) := by
  unfold sizedFlags
  cases k with
  | page =>
    obtain ⟨hlt, hpresent, hpse⟩ := h
    by_cases hsize : pageSize = size4KB
    · refine ⟨g.prot, hlt, by rw [if_pos hsize, leafFlags], hpresent, absurd hsize, ?_⟩
      simp [TableKind.decode, memoryType, hsize, Nat.mod_eq_of_lt hlt]
    · have hflag := hpse hsize
      rw [if_neg hsize, leafFlags, lor_pagePse hflag]
      unfold IsPse at *
      refine ⟨_, ?_, rfl, ?_, fun _ => ?_, ?_⟩
      · omega
      · simp only [TableKind.Present]
        omega
      · omega
      · have hmod : (g.prot + 128) % 4096 - 128 = g.prot := by omega
        simp only [TableKind.decode, ne_eq, hsize, not_false_eq_true, decide_true, if_true]
        rw [show pagePse = 128 from rfl, hmod, memoryType]
  | ept =>
    obtain ⟨hpos, hlt, hmtype⟩ := h
    have hlf : g.leafFlags .ept = g.mtype * 8 + g.prot := by
      rw [leafFlags, ← Nat.shiftLeft_add_eq_or_of_lt (by omega), Nat.shiftLeft_eq]
    by_cases hsize : pageSize = size4KB
    · rw [if_pos hsize, hlf]
      refine ⟨_, by omega, rfl, ?_, absurd hsize, ?_⟩
      · simp only [TableKind.Present]
        omega
      · simp only [TableKind.decode, memoryType]
        congr 1 <;> omega
    · have hflag : ¬ IsPse (g.mtype * 8 + g.prot) := by
        unfold IsPse
        omega
      rw [if_neg hsize, hlf, lor_pagePse hflag]
      refine ⟨_, by omega, rfl, ?_, fun _ => ?_, ?_⟩
      · simp only [TableKind.Present]
        omega
      · unfold IsPse
        omega
      · simp only [TableKind.decode, memoryType]
        congr 1 <;> omega

/-- The pages that the mapping loop enters are those that the region covers. -/
theorem Region.covers_iff (hpos : 0 < pageSize) (hal : g.start % pageSize = 0) :
    g.Covers pageSize u ↔ g.start / pageSize ≤ u / pageSize ∧
      u / pageSize < g.start / pageSize + pages (g.stop - g.start) pageSize := by
  have hstart : g.start / pageSize * pageSize = g.start :=
    Nat.div_mul_cancel (Nat.dvd_of_mod_eq_zero hal)
  unfold Region.Covers
  rw [Nat.le_div_iff_mul_le hpos, Nat.div_lt_iff_lt_mul hpos, Nat.add_mul, hstart]

/-- The translation of an address through an entry that consists of a page address and flags. -/
theorem leafResult_add {a f : ℕ} (hsize : IsPageSize pageSize) (ha : a % pageSize = 0)
    (hlt : a + pageSize ≤ 2 ^ 52) (hf : f < 4096) (hpresent : k.Present f) :
    leafResult k pageSize (a + f) u =
      some ⟨a + u % pageSize, (k.decode (pageSize ≠ size4KB) f).1,
        (k.decode (pageSize ≠ size4KB) f).2⟩ := by
  obtain ⟨hdvd, hpos⟩ : 4096 ∣ pageSize ∧ 4096 ≤ pageSize := by
    rcases hsize with rfl | rfl | rfl <;> exact ⟨by norm_num, by norm_num⟩
  have ha' : a % 4096 = 0 :=
    Nat.mod_eq_zero_of_dvd (hdvd.trans (Nat.dvd_of_mod_eq_zero ha))
  have haddr : (a + f) % 2 ^ 52 / pageSize * pageSize = a := by
    rw [Nat.mod_eq_of_lt (by omega)]
    obtain ⟨q, rfl⟩ := Nat.dvd_of_mod_eq_zero ha
    rw [Nat.mul_add_div (by omega), Nat.div_eq_of_lt (by omega), Nat.add_zero, Nat.mul_comm]
  have hmod : (a + f) % 4096 = f := by omega
  have hdecode : k.decode (pageSize ≠ size4KB) (a + f) = k.decode (pageSize ≠ size4KB) f := by
    cases k with
    | page => simp only [TableKind.decode, hmod, Nat.mod_eq_of_lt hf]
    | ept =>
      simp only [TableKind.decode]
      congr 1 <;> omega
  have hpresent' : k.Present (a + f) := by
    cases k <;> simp only [TableKind.Present] at * <;> omega
  rw [leafResult, if_pos hpresent', leafTranslation]
  simp only [haddr, hdecode]

/-- The hardware reads from the entry that the mapping loop wrote for the page number `j` what the
call asked for. -/
theorem Region.Valid.leafResult_eq {j : ℕ} (hsize : IsPageSize pageSize) (h : g.Valid k pageSize)
    (hj : j < pages (g.stop - g.start) pageSize)
    (hpage : u / pageSize = g.start / pageSize + j) :
    leafResult k pageSize (loopAddr g.paddr pageSize j ||| sizedFlags pageSize (g.leafFlags k)) u =
        (PmapOp.map g).result k u ∧
      (pageSize ≠ size4KB →
        IsPse (loopAddr g.paddr pageSize j ||| sizedFlags pageSize (g.leafFlags k))) := by
  have hdvd : 4096 ∣ pageSize := by rcases hsize with rfl | rfl | rfl <;> norm_num
  obtain ⟨f, hf, hfeq, hpresent, hpse, hdec⟩ := h.prot.flags
  have hstart : g.start / pageSize * pageSize = g.start :=
    Nat.div_mul_cancel (Nat.dvd_of_mod_eq_zero h.vaddr_aligned)
  have hu : u = g.start + j * pageSize + u % pageSize := by
    have hdiv := Nat.div_add_mod' u pageSize
    rw [hpage, Nat.add_mul, hstart] at hdiv
    exact hdiv.symm
  have hend : g.paddr + j * pageSize + pageSize ≤ 2 ^ 52 := by
    have hle : (j + 1) * pageSize ≤ pages (g.stop - g.start) pageSize * pageSize :=
      Nat.mul_le_mul_right _ (by omega)
    rw [Nat.add_mul, Nat.one_mul] at hle
    have := h.paddr_le
    omega
  have halign : (g.paddr + j * pageSize) % pageSize = 0 := by
    rw [Nat.add_mul_mod_self_right]
    exact h.paddr_aligned
  have halign' : (g.paddr + j * pageSize) % 4096 = 0 :=
    Nat.mod_eq_zero_of_dvd (hdvd.trans (Nat.dvd_of_mod_eq_zero halign))
  rw [loopAddr_eq (by omega), hfeq, TableOps.lor_flags halign' hf]
  refine ⟨?_, fun hlarge => ?_⟩
  · rw [leafResult_add hsize halign hend hf hpresent, hdec]
    simp only [PmapOp.result]
    congr 2
    omega
  · have hbit := hpse hlarge
    unfold IsPse at *
    omega

end Encode

/-! ### The law -/

/-- The operation stays below `2 ^ 48`, as the walk does. -/
def PmapOp.Valid (k : TableKind) (pageSize : ℕ) : PmapOp → Prop
  | map g => g.Valid k pageSize
  | unmap a => a < 2 ^ 48

/-- The number of pages fits into the `int` that the mapping loop counts with. -/
def Region.Countable (pageSize : ℕ) (g : Region) : Prop :=
  pages (g.stop - g.start) pageSize < 2 ^ 31

theorem Region.Countable.not_overflows {pageSize : ℕ} {g : Region} (h : g.Countable pageSize) :
    ¬ RegionOverflows pageSize g.start g.stop :=
  fun hover => absurd h (Nat.not_lt.mpr hover.le_pages)

@[inherit_doc Region.Countable]
def PmapOp.Countable (pageSize : ℕ) : PmapOp → Prop
  | map g => g.Countable pageSize
  | unmap _ => True

/-- The leaf entries of the tree at `r` encode the map of the operations. -/
structure Realizes (k : TableKind) (m : Tables) (pageSize r : ℕ) (ops : List PmapOp) : Prop where
  result : ∀ v < 2 ^ 48,
    leafResult k pageSize (leafEntry m pageSize r v) v = translationOf k pageSize ops v
  pse : pageSize ≠ size4KB → ∀ v < 2 ^ 48, leafEntry m pageSize r v ≠ 0 →
    IsPse (leafEntry m pageSize r v)

section Law

variable {ε σ : Type} {O : TableOps ε σ} {Owned : σ → Multiset ℕ → Prop} {E : ε → σ → Prop}
  {stop : Stop MapPanic → ε} {k : TableKind} {pageSize r : ℕ} {s : σ} {R : Multiset ℕ}
  {g : Region} {op : PmapOp} {ops ops' : List PmapOp} {m m' : Tables}

theorem TableKind.tableFlags_lt (k : TableKind) : k.tableFlags < 128 := by
  cases k <;> decide

/-- What the mapping loop does to the entry of an address, by whether the region covers it. -/
theorem Region.Valid.entry_of_writes {old new : ℕ → ℕ} {v : ℕ} (hsize : IsPageSize pageSize)
    (h : g.Valid k pageSize) (hcount : g.Countable pageSize)
    (hent : LoopWrites pageSize (sizedFlags pageSize (g.leafFlags k))
      (regionCount pageSize g.start g.stop) g.start g.paddr old new) (hv : v < 2 ^ 48) :
    (g.Covers pageSize v ∧ leafResult k pageSize (new v) v = (PmapOp.map g).result k v ∧
        (pageSize ≠ size4KB → IsPse (new v))) ∨
      (¬ g.Covers pageSize v ∧ new v = old v) := by
  have hpos : 0 < pageSize := by rcases hsize with rfl | rfl | rfl <;> norm_num
  have hsame : ∀ j < pages (g.stop - g.start) pageSize,
      (SameLeaf pageSize v (loopAddr g.start pageSize j) ↔
        v / pageSize = g.start / pageSize + j) := by
    intro j hj
    have hlt : g.start + j * pageSize < 2 ^ 48 := by
      have hmul : j * pageSize < pages (g.stop - g.start) pageSize * pageSize :=
        Nat.mul_lt_mul_of_pos_right hj hpos
      have := h.vaddr_le
      omega
    rw [loopAddr_eq (by omega), sameLeaf_iff hsize hv hlt, Nat.add_mul_div_right _ _ hpos]
  rw [regionCount_eq hcount] at hent
  rw [covers_iff hpos h.vaddr_aligned]
  rcases hent v with ⟨j, hj, hleaf, heq⟩ | ⟨hnone, heq⟩
  · have hpage := (hsame j hj).mp hleaf
    rw [heq]
    exact Or.inl ⟨⟨by omega, by omega⟩, h.leafResult_eq hsize hj hpage⟩
  · refine Or.inr ⟨fun hcov => ?_, heq⟩
    have hj : v / pageSize - g.start / pageSize < pages (g.stop - g.start) pageSize := by omega
    exact hnone _ hj ((hsame _ hj).mpr (by omega))

/-- A region that is not empty covers its first address. -/
theorem Region.Valid.covers_start (hsize : IsPageSize pageSize) (h : g.Valid k pageSize) :
    g.Covers pageSize g.start := by
  have hpos : 0 < pageSize := by rcases hsize with rfl | rfl | rfl <;> norm_num
  have hspec := pages_spec (g.stop - g.start) hpos
  have hlt := h.nonempty
  exact ⟨le_rfl, by omega⟩

/-- Writing the leaf entries of a region realizes one more operation. -/
theorem Region.Valid.realizes (hsize : IsPageSize pageSize) (h : g.Valid k pageSize)
    (hcount : g.Countable pageSize) (hold : Realizes k m pageSize r ops)
    (hent : LoopWrites pageSize (sizedFlags pageSize (g.leafFlags k))
      (regionCount pageSize g.start g.stop) g.start g.paddr (leafEntry m pageSize r)
      (leafEntry m' pageSize r)) :
    Realizes k m' pageSize r (ops ++ [.map g]) := by
  have key := fun v hv => h.entry_of_writes hsize hcount hent (v := v) hv
  refine ⟨fun v hv => ?_, fun hlarge v hv hne => ?_⟩
  · rw [translationOf_snoc]
    rcases key v hv with ⟨hcov, hres, -⟩ | ⟨hcov, heq⟩
    · rw [hres]
      exact (if_pos hcov).symm
    · rw [heq, hold.result v hv]
      exact (if_neg hcov).symm
  · rcases key v hv with ⟨-, -, hpse⟩ | ⟨-, heq⟩
    · exact hpse hlarge
    · rw [heq] at hne ⊢
      exact hold.pse hlarge v hv hne

/-- Clearing the leaf entry of a page realizes one more `unmap`. -/
theorem Realizes.unmap {a : ℕ} (hold : Realizes k m pageSize r ops)
    (hent : ∀ u < 2 ^ 48, leafEntry m' pageSize r u =
      if u / pageSize = a / pageSize then 0 else leafEntry m pageSize r u) :
    Realizes k m' pageSize r (ops ++ [.unmap a]) := by
  refine ⟨fun v hv => ?_, fun hlarge v hv => ?_⟩
  · rw [translationOf_snoc, hent v hv]
    by_cases hcov : v / pageSize = a / pageSize
    · rw [if_pos hcov, leafResult_zero]
      exact (if_pos hcov).symm
    · rw [if_neg hcov, hold.result v hv]
      exact (if_neg hcov).symm
  · rw [hent v hv]
    split
    · exact fun h => absurd rfl h
    · exact hold.pse hlarge v hv

/-- The tree at `r` realizes the operations, and its tables and `R` are what is handed out. -/
structure TreeFor (O : TableOps ε σ) (Owned : σ → Multiset ℕ → Prop) (k : TableKind)
    (pageSize r : ℕ) (R : Multiset ℕ) (ops : List PmapOp) (s : σ) : Prop where
  tree : IsTree k.tableFlags .all (O.read s) pageSize r
  owned : Owned s (treeTables (O.read s) pageSize r + R)
  realizes : Realizes k (O.read s) pageSize r ops

/-- Nothing is mapped below `2 ^ 39`, so that the first entry of the root may be zero; `MAP_UPDATE`
refuses such tables. -/
def NullTables (k : TableKind) (pageSize : ℕ) (ops : List PmapOp) : Prop :=
  ∀ v < 2 ^ 39, translationOf k pageSize ops v = none

/-- Without a first table nothing was mapped. -/
theorem TreeFor.nullTables (h : TreeFor O Owned k pageSize r R ops s) (hzero : O.read s r 0 = 0) :
    NullTables k pageSize ops := by
  intro v hv
  rw [← h.realizes.result v (by omega), leafEntry_of_root_zero hzero hv, leafResult_zero]

/-- A step: one operation, and the entries of the root stay. -/
theorem PmapOp.run_spec (hO : O.Lawful Owned E)
    (hroot : ∀ g, op = .map g → O.read s r 0 ≠ 0)
    (hsize : IsPageSize pageSize) (hvalid : op.Valid k pageSize) (hcount : op.Countable pageSize)
    (h : TreeFor O Owned k pageSize r R ops s) :
    wp (op.run O stop k pageSize r) (fun _ s' => TreeFor O Owned k pageSize r R (ops ++ [op]) s' ∧
      (O.read s r 0 ≠ 0 → O.read s' r 0 ≠ 0)) E s := by
  have hfl := k.tableFlags_lt
  cases op with
  | map g =>
    change wp (g.mapCall O stop k pageSize r mapUpdate >>= fun _ => pure ()) _ E s
    rw [g.mapCall_eq]
    refine (mapRegion_update_spec hO (by omega) (fun hbad => ?_) hcount.not_overflows
      (fun hzero => absurd hzero (hroot g rfl)) (fun _ _ => Shape.all_allows _ _) h.tree
      h.owned).bind ?_
    · exact absurd ⟨hvalid.nonempty, hsize, hvalid.paddr_aligned⟩ hbad
    · rintro - s' ⟨-, hgrown, hown, hent⟩
      refine ⟨⟨hgrown.tree, hown, hvalid.realizes hsize hcount h.realizes hent⟩, fun hne => ?_⟩
      rwa [hgrown.root 0 hne]
  | unmap a =>
    refine (unmapMemory_spec hO hsize hfl h.tree h.owned hvalid fun hlarge =>
      h.realizes.pse hlarge a hvalid).mono ?_ fun _ _ he => he
    rintro - s' ⟨hgrown, hown, hent⟩
    refine ⟨⟨hgrown.tree, hown, h.realizes.unmap hent⟩, fun hne => ?_⟩
    rwa [hgrown.root 0 hne]

/-- A run: any sequence of operations on a tree whose root has its first entry, or of unmappings on
any tree. -/
theorem PmapOp.runs_spec (hO : O.Lawful Owned E)
    (hroot : O.read s r 0 ≠ 0 ∨ ∀ g, .map g ∉ ops')
    (hsize : IsPageSize pageSize) (hvalid : ∀ op ∈ ops', op.Valid k pageSize ∧
      op.Countable pageSize) (h : TreeFor O Owned k pageSize r R ops s) :
    wp (ops'.forM (PmapOp.run O stop k pageSize r))
      (fun _ s' => TreeFor O Owned k pageSize r R (ops ++ ops') s') E s := by
  induction ops' generalizing ops s with
  | nil =>
    rw [List.append_nil]
    exact h
  | cons op ops' ih =>
    obtain ⟨hop, hrest⟩ := List.forall_mem_cons.mp hvalid
    have hnow : ∀ g, op = .map g → O.read s r 0 ≠ 0 := fun g hg =>
      hroot.resolve_right fun hnone => hnone g (hg ▸ List.mem_cons_self)
    change wp (PmapOp.run O stop k pageSize r op >>= fun _ => ops'.forM _) _ E s
    refine (run_spec hO hnow hsize hop.1 hop.2 h).bind fun _ s₁ h₁ => ?_
    rw [List.append_cons]
    refine ih ?_ hrest h₁.1
    exact hroot.imp h₁.2 fun hnone g hg => hnone g (List.mem_cons_of_mem op hg)

/-- The calls with `MAP_UPDATE` find an entry for the lowest addresses: the region that the tree is
created for starts below `2 ^ 39`, or there are no such calls. -/
def Anchored (g : Region) (ops : List PmapOp) : Prop := g.start < 2 ^ 39 ∨ ∀ g', .map g' ∉ ops

/-- The tables that a sequence of calls builds are the map that the sequence describes: the walk of
every address gives what the last operation covering it asked for. -/
theorem buildTree_spec (hO : O.Lawful Owned E) (hanchor : Anchored g ops)
    (hsize : IsPageSize pageSize)
    (hvalid : ∀ op ∈ .map g :: ops, op.Valid k pageSize ∧ op.Countable pageSize)
    (hown : Owned s R) :
    wp (buildTree O stop k pageSize g ops)
      (fun r s' => TreeFor O Owned k pageSize r R (.map g :: ops) s') E s := by
  obtain ⟨⟨hg, hcount⟩, hrest⟩ := List.forall_mem_cons.mp hvalid
  have hfl := k.tableFlags_lt
  unfold buildTree
  rw [g.mapCall_eq]
  refine (mapRegion_new_spec hO (by omega) (fun hbad => ?_) hcount.not_overflows
    (fun _ _ => Shape.all_allows _ _) hown).bind ?_
  · exact absurd ⟨hg.nonempty, hsize, hg.paddr_aligned⟩ hbad
  rintro r s₁ ⟨htree, hown₁, -, -, hent⟩
  -- the tree before the first region is empty
  have hzero : leafEntry (fun _ _ => 0) pageSize r = fun _ => 0 :=
    funext fun v => entryAt_empty (fun _ => rfl) _
  have hempty : Realizes k (fun _ _ => 0) pageSize r [] := by
    refine ⟨fun v _ => ?_, fun _ v _ hne => absurd (congrFun hzero v) hne⟩
    rw [hzero, leafResult_zero]
    rfl
  rw [← hzero] at hent
  have hfirst : TreeFor O Owned k pageSize r R [.map g] s₁ :=
    ⟨htree, hown₁, hg.realizes hsize hcount hempty hent⟩
  have hroot : O.read s₁ r 0 ≠ 0 ∨ ∀ g', .map g' ∉ ops := by
    refine hanchor.imp_left fun hlow hz => ?_
    -- the first page of the region is mapped through that entry
    have hnone := hfirst.nullTables hz g.start hlow
    have hcov : (PmapOp.map g).Covers pageSize g.start := hg.covers_start hsize
    rw [← List.nil_append [PmapOp.map g], translationOf_snoc, if_pos hcov] at hnone
    cases hnone
  exact (PmapOp.runs_spec hO hroot hsize hrest hfirst).bind fun _ s₂ h₂ => h₂

/-- The walk finds what was mapped. -/
theorem TreeFor.walk (hO : O.Lawful Owned E) (hsize : IsPageSize pageSize)
    (h : TreeFor O Owned k pageSize r R ops s) {v : ℕ} (hv : v < 2 ^ 48) :
    walk k (O.read s) r v = translationOf k pageSize ops v := by
  have hsound : SoundTree k.tableFlags (O.read s) (depth pageSize) r :=
    h.tree.sound fun a ha => hO.owned_addr s _ h.owned a (Multiset.mem_add.mpr (Or.inl ha))
  rw [walk_eq hsize hsound fun hlarge => h.realizes.pse hlarge v hv, h.realizes.result v hv]

end Law

end Savannah
