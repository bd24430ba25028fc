import Savannah.Boot.Handover

/-!
# The blocks of the boot loader's allocator

`malloc`, `malloc_align`, `calloc` and `calloc_align` of `boot/stage2/memory.c` hand out blocks by
moving one pointer upwards.  Nothing is ever released, so that the blocks are apart as long as the
pointer does not wrap.

The bound is tested on the sum of the pointer and the size, in 64-bit arithmetic.  `Heap.Fits` says
that neither the product of `calloc` nor that sum nor the alignment wraps; in a run whose calls all
fit, every block lies in the memory, is aligned and is apart from the others
(`blocks_of_fitting_run`).  A size near `2 ^ 64` passes the test by wrapping.
-/

namespace Savannah.Stage2

open Foundation

/-! ### Sequences of calls -/

namespace HeapCall

/-- The alignment that the block is to have. -/
def alignment : HeapCall → ℕ
  | malloc _ | calloc _ _ => 16
  | mallocAlign _ alignment | callocAlign _ _ alignment => alignment

/-- The alignment that the function itself establishes; without one it leaves the pointer where it
is. -/
def bound : HeapCall → ℕ
  | malloc _ | calloc _ _ => 1
  | mallocAlign _ alignment | callocAlign _ _ alignment => alignment

/-- The arguments are 64-bit numbers, and the alignment is a power of two. -/
def Valid : HeapCall → Prop
  | malloc size => size < 2 ^ 64
  | mallocAlign size alignment => size < 2 ^ 64 ∧ ∃ k < 64, alignment = 2 ^ k
  | calloc nmemb size => nmemb < 2 ^ 64 ∧ size < 2 ^ 64
  | callocAlign nmemb size alignment =>
    nmemb < 2 ^ 64 ∧ size < 2 ^ 64 ∧ ∃ k < 64, alignment = 2 ^ k

end HeapCall

namespace Heap

/-- A block that was returned: its address, the size that was asked for and the alignment. -/
structure Block where
  start : ℕ
  size : ℕ
  alignment : ℕ
  deriving DecidableEq, Repr

/-- Two blocks have no byte in common. -/
def Block.Apart (b c : Block) : Prop := b.start + b.size ≤ c.start ∨ c.start + c.size ≤ b.start

/-- The allocator and the blocks returned so far, the last one first. -/
structure Trace where
  heap : Heap
  blocks : List Block
  deriving DecidableEq, Repr

/-- A call that returns. -/
def Step (t : Trace) (c : HeapCall) (t' : Trace) : Prop :=
  c.Valid ∧ ∃ a h, c.exec t.heap = .ok (a, h) ∧
    t' = ⟨h, if a = 0 then t.blocks else ⟨a, c.bytes, c.alignment⟩ :: t.blocks⟩

/-- The blocks are as they should be, for a pointer that started at `lo`: they lie in the memory,
are aligned, and have no byte in common. -/
structure Trace.Sound (lo : ℕ) (t : Trace) : Prop where
  inside : ∀ b ∈ t.blocks, lo ≤ b.start ∧ b.start + b.size ≤ t.heap.memorySize
  aligned : ∀ b ∈ t.blocks, b.start % b.alignment = 0
  apart : t.blocks.Pairwise Block.Apart

/-- No sum of the call wraps: the pointer can be aligned, and the block ends below `2 ^ 64`. -/
def Fits (s : Heap) (c : HeapCall) : Prop :=
  s.firstFreeAddr + c.bound ≤ 2 ^ 64 ∧ align s.firstFreeAddr c.bound + c.bytes < 2 ^ 64

/-! ### Aligning -/

section Align

variable {a k : ℕ}

theorem align_pow (h : a + 2 ^ k ≤ 2 ^ 64) :
    a ≤ align a (2 ^ k) ∧ align a (2 ^ k) % 2 ^ k = 0 := by
  refine ⟨(align_spec (Nat.two_pow_pos k) h).1, ?_⟩
  rw [align_two_pow]
  exact Nat.mul_mod_left _ _

/-- Without an alignment the pointer stays. -/
theorem align_one (h : a + 1 ≤ 2 ^ 64) : align a 1 = a := by
  have hspec := align_spec Nat.one_pos h
  omega

/-- A multiple of 16 stays one, also under a smaller alignment. -/
theorem align_pow_mod (h : a + 2 ^ k ≤ 2 ^ 64) (ha : a % 16 = 0) :
    align a (2 ^ k) % 16 = 0 := by
  by_cases hk : k < 4
  · have hlt : a < 2 ^ 64 := lt_of_lt_of_le (Nat.lt_add_of_pos_right (Nat.two_pow_pos k)) h
    rw [align_two_pow]
    interval_cases k <;> omega
  · have hdvd : 16 ∣ 2 ^ k := Nat.pow_dvd_pow 2 (show 4 ≤ k by omega)
    exact Nat.mod_eq_zero_of_dvd (hdvd.trans (Nat.dvd_of_mod_eq_zero (align_pow h).2))

end Align

/-! ### One call -/

/-- The pointer is a multiple of 16, and the memory ends before the last 16 bytes below `2 ^ 64`. -/
structure Regular (s : Heap) : Prop where
  pointer : s.firstFreeAddr % 16 = 0
  size : s.memorySize + 16 ≤ 2 ^ 64

/-- What a call does that fits, with its block at `start` if it returns one. -/
structure Placed (s : Heap) (start size a : ℕ) (s' : Heap) : Prop where
  regular : s'.Regular
  memorySize : s'.memorySize = s.memorySize
  pointer : s.firstFreeAddr ≤ s'.firstFreeAddr
  block : a ≠ 0 → a = start ∧ a + size ≤ s.memorySize ∧ a + size ≤ s'.firstFreeAddr

section Spec

variable {s s' : Heap} {a : ℕ}

/-- A call that returns `NULL` without moving the pointer. -/
theorem placed_null (h : s.Regular) (start size : ℕ) : Placed s start size 0 s :=
  ⟨h, rfl, le_rfl, fun h0 => absurd rfl h0⟩

theorem bump_placed (h : s.Regular) {size : ℕ} (hfit : s.firstFreeAddr + size < 2 ^ 64) :
    Placed s s.firstFreeAddr size (s.bump size).1 (s.bump size).2 := by
  have hsize := h.size
  unfold bump
  rw [Nat.mod_eq_of_lt hfit]
  split_ifs with hfull
  · exact placed_null h _ _
  · have hpow : s.firstFreeAddr + size + 2 ^ 4 ≤ 2 ^ 64 := by omega
    obtain ⟨hle, hmod⟩ := align_pow hpow
    refine ⟨⟨hmod, hsize⟩, rfl, ?_, ?_⟩
    · exact (Nat.le_add_right _ size).trans hle
    · intro _
      exact ⟨rfl, not_lt.mp hfull, hle⟩

/-- The pointer is aligned before the block is taken. -/
theorem bump_aligned_placed (h : s.Regular) {size k : ℕ} (hal : s.firstFreeAddr + 2 ^ k ≤ 2 ^ 64)
    (hfit : align s.firstFreeAddr (2 ^ k) + size < 2 ^ 64)
    (hok : bump size { s with firstFreeAddr := align s.firstFreeAddr (2 ^ k) } = (a, s')) :
    Placed s (align s.firstFreeAddr (2 ^ k)) size a s' := by
  have hmoved : ({ s with firstFreeAddr := align s.firstFreeAddr (2 ^ k) } : Heap).Regular :=
    ⟨align_pow_mod hal h.pointer, h.size⟩
  have hplaced := bump_placed hmoved hfit
  rw [hok] at hplaced
  exact ⟨hplaced.regular, hplaced.memorySize, (align_pow hal).1.trans hplaced.pointer,
    hplaced.block⟩

/-- A call places its block. -/
theorem exec_placed (h : s.Regular) {c : HeapCall} (hc : c.Valid) (hfit : s.Fits c)
    (hok : c.exec s = .ok (a, s')) : Placed s (align s.firstFreeAddr c.bound) c.bytes a s' := by
  obtain ⟨hal, hend⟩ := hfit
  have hnull : ∀ start size, (.ok (0, s) : Except (Stop Panic) (ℕ × Heap)) = .ok (a, s') →
      Placed s start size a s' := by
    intro start size heq
    obtain ⟨rfl, rfl⟩ := Prod.mk.inj (Except.ok.inj heq)
    exact placed_null h start size
  have hproduct : ∀ n m : ℕ, n + m < 2 ^ 64 → m % 2 ^ 64 = m := by
    intro n m hnm
    exact Nat.mod_eq_of_lt (by omega)
  have hplain : ∀ size, s.firstFreeAddr + size < 2 ^ 64 → s.bump size = (a, s') →
      Placed s s.firstFreeAddr size a s' := by
    intro size hlt heq
    have hplaced := bump_placed h hlt
    rwa [heq] at hplaced
  cases c with
  | malloc size =>
    dsimp only [HeapCall.bound, HeapCall.bytes] at hal hend ⊢
    rw [align_one hal] at hend ⊢
    simp only [HeapCall.exec, malloc] at hok
    split_ifs at hok
    · exact hnull _ _ hok
    · exact hplain size hend (Except.ok.inj hok)
  | calloc nmemb size =>
    dsimp only [HeapCall.bound, HeapCall.bytes] at hal hend ⊢
    rw [align_one hal] at hend ⊢
    simp only [HeapCall.exec, calloc, hproduct _ _ hend] at hok
    split_ifs at hok
    · exact hnull _ _ hok
    · exact hplain _ hend (Except.ok.inj hok)
  | mallocAlign size alignment =>
    obtain ⟨-, k, -, rfl⟩ := hc
    simp only [HeapCall.exec, mallocAlign] at hok
    split_ifs at hok
    · exact hnull _ _ hok
    · exact hnull _ _ hok
    · exact bump_aligned_placed h hal hend (Except.ok.inj hok)
  | callocAlign nmemb size alignment =>
    obtain ⟨-, -, k, -, rfl⟩ := hc
    dsimp only [HeapCall.bound, HeapCall.bytes] at hal hend ⊢
    simp only [HeapCall.exec, callocAlign, hproduct _ _ hend] at hok
    split_ifs at hok
    · exact hnull _ _ hok
    · exact hnull _ _ hok
    · exact bump_aligned_placed h hal hend (Except.ok.inj hok)

end Spec

/-! ### Whole runs -/

/-- The invariant of a run: the blocks end below the pointer. -/
structure Trace.Inv (lo : ℕ) (t : Trace) : Prop where
  regular : t.heap.Regular
  lo_le : lo ≤ t.heap.firstFreeAddr
  below : ∀ b ∈ t.blocks, b.start + b.size ≤ t.heap.firstFreeAddr
  sound : t.Sound lo

section Runs

variable {t t' : Trace} {lo : ℕ} {c : HeapCall}

/-- The address of a block has the alignment that was asked for. -/
theorem start_mod {s : Heap} (h : s.Regular) (hc : c.Valid)
    (hal : s.firstFreeAddr + c.bound ≤ 2 ^ 64) :
    s.firstFreeAddr ≤ align s.firstFreeAddr c.bound ∧
      align s.firstFreeAddr c.bound % c.alignment = 0 := by
  cases c with
  | malloc size | calloc nmemb size =>
    rw [HeapCall.bound, align_one hal]
    exact ⟨le_rfl, h.pointer⟩
  | mallocAlign size alignment =>
    obtain ⟨-, k, -, rfl⟩ := hc
    exact align_pow hal
  | callocAlign nmemb size alignment =>
    obtain ⟨-, -, k, -, rfl⟩ := hc
    exact align_pow hal

/-- A call that fits keeps the invariant. -/
theorem Trace.Inv.step (h : t.Inv lo) (hfit : t.heap.Fits c) (hstep : Step t c t') : t'.Inv lo := by
  obtain ⟨hc, a, s', hok, rfl⟩ := hstep
  have hplaced := exec_placed h.regular hc hfit hok
  obtain ⟨hle, hmod⟩ := start_mod h.regular hc hfit.1
  have hpointer := hplaced.pointer
  have hbelow : ∀ b ∈ t.blocks, b.start + b.size ≤ s'.firstFreeAddr := by
    intro b hb
    exact (h.below b hb).trans hpointer
  have hlo : lo ≤ s'.firstFreeAddr := h.lo_le.trans hpointer
  by_cases ha : a = 0
  · rw [if_pos ha]
    refine ⟨hplaced.regular, hlo, hbelow, ⟨?_, h.sound.aligned, h.sound.apart⟩⟩
    rw [hplaced.memorySize]
    exact h.sound.inside
  · obtain ⟨rfl, hend, hnext⟩ := hplaced.block ha
    have hstart := h.lo_le.trans hle
    rw [if_neg ha]
    refine ⟨hplaced.regular, hlo, List.forall_mem_cons.mpr ⟨hnext, hbelow⟩, ⟨?_, ?_, ?_⟩⟩
    · rw [hplaced.memorySize]
      exact List.forall_mem_cons.mpr ⟨⟨hstart, hend⟩, h.sound.inside⟩
    · exact List.forall_mem_cons.mpr ⟨hmod, h.sound.aligned⟩
    · refine List.pairwise_cons.mpr ⟨?_, h.sound.apart⟩
      intro b hb
      -- the earlier blocks end below the pointer, from which the new one starts
      exact Or.inr ((h.below b hb).trans hle)

/-- After `memory_init` there are no blocks. -/
theorem inv_init (last memSize : ℕ) : (Trace.mk (init last memSize) []).Inv (align last 16) := by
  have hempty : ∀ (P : Block → Prop), ∀ b ∈ ([] : List Block), P b := by
    intro P b hb
    exact absurd hb List.not_mem_nil
  refine ⟨⟨?_, ?_⟩, le_rfl, hempty _, ⟨hempty _, hempty _, List.Pairwise.nil⟩⟩
  · dsimp only [init]
    rw [show 16 = 2 ^ 4 by norm_num, align_two_pow]
    exact Nat.mul_mod_left _ _
  · -- the size is a multiple of 1KB
    dsimp only [init]
    omega

end Runs

/-- In every sequence of calls after `memory_init` in which no sum wraps, the blocks lie between the
first address and the end of the memory, are aligned, and have no byte in common. -/
theorem blocks_of_fitting_run {last memSize : ℕ} {cs : List HeapCall} {t : Trace}
    (hrun : Run (guarded Step fun t c => t.heap.Fits c) ⟨init last memSize, []⟩ cs t) :
    t.Sound (align last 16) := by
  have hinv : t.Inv (align last 16) := hrun.invariant
    (fun _ _ _ hstep h => h.step hstep.1 hstep.2) (inv_init last memSize)
  exact hinv.sound

/-- A machine with 1MB of memory, of which the first 64KB are used: 100 bytes and two pages. -/
theorem blocks_of_fitting_run_pages : ∃ t : Trace,
    Run (guarded Step fun t c => t.heap.Fits c) ⟨init 0x10000 1024, []⟩
      [.malloc 100, .callocAlign 2 4096 4096] t ∧
    t.blocks = [⟨0x11000, 8192, 4096⟩, ⟨0x10000, 100, 16⟩] ∧ t.Sound 0x10000 := by
  have hfirst : (HeapCall.malloc 100).exec (init 0x10000 1024) =
      .ok (0x10000, ⟨0x100000, 0x10070⟩) := rfl
  have hsecond : (HeapCall.callocAlign 2 4096 4096).exec ⟨0x100000, 0x10070⟩ =
      .ok (0x11000, ⟨0x100000, 0x13000⟩) := rfl
  have hrun : Run (guarded Step fun t c => t.heap.Fits c) ⟨init 0x10000 1024, []⟩
      [.malloc 100, .callocAlign 2 4096 4096]
      ⟨⟨0x100000, 0x13000⟩, [⟨0x11000, 8192, 4096⟩, ⟨0x10000, 100, 16⟩]⟩ := by
    refine .cons ⟨?_, ?_, _, _, hfirst, rfl⟩ (.cons ⟨?_, ?_, _, _, hsecond, rfl⟩ (.nil _))
    · exact ⟨by decide, by decide⟩
    · show 100 < 2 ^ 64
      norm_num
    · exact ⟨by decide, by decide⟩
    · exact ⟨by norm_num, by norm_num, 12, by norm_num, by norm_num⟩
  exact ⟨_, hrun, rfl, blocks_of_fitting_run hrun⟩

/-- The same machine: a request for all but 16 of the `2 ^ 64` bytes succeeds, since the sum with
the pointer wraps to a small number. -/
theorem malloc_huge_unsound : ∃ t : Trace,
    Run Step ⟨init 0x10000 1024, []⟩ [.malloc 0xFFFFFFFFFFFFFFF0] t ∧
    t.blocks = [⟨0x10000, 0xFFFFFFFFFFFFFFF0, 16⟩] ∧ ¬ t.Sound 0x10000 := by
  have hinit : init 0x10000 1024 = ⟨0x100000, 0x10000⟩ := rfl
  have hfirst : (HeapCall.malloc 0xFFFFFFFFFFFFFFF0).exec ⟨0x100000, 0x10000⟩ =
      .ok (0x10000, ⟨0x100000, 0xFFF0⟩) := rfl
  have hvalid : (HeapCall.malloc 0xFFFFFFFFFFFFFFF0).Valid := by
    show 0xFFFFFFFFFFFFFFF0 < 2 ^ 64
    norm_num
  rw [hinit]
  refine ⟨_, .cons ⟨hvalid, _, _, hfirst, rfl⟩ (.nil _), rfl, ?_⟩
  intro hsound
  have hend : 0x10000 + 0xFFFFFFFFFFFFFFF0 ≤ 0x100000 := (hsound.inside _ List.mem_cons_self).2
  norm_num at hend

end Heap

end Savannah.Stage2
