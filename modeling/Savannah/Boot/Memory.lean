import Savannah.Pmap.Tree

/-!
# The table allocator of the boot loader

`boot/stage2` has its own copy of the page-table code, which takes its tables from `calloc_align`,
an allocator that moves one pointer upwards (`boot/stage2/memory.c`).  `Heap` has the four functions
of this allocator.  `tables_lawful` says that the tables obey the laws of table access.
-/

namespace Savannah.Stage2

open Foundation

/-- The panics of the allocator and of the page-table code. -/
inductive Panic where
  /-- "Boot Stage2: Memory is not initialized!" -/
  | notInitialized
  | map (p : MapPanic)
  deriving DecidableEq, Repr

/-! ### The allocator -/

/-- The variables of the allocator. -/
structure Heap where
  memorySize : ℕ
  firstFreeAddr : ℕ
  deriving DecidableEq, Repr

/-- `ALIGN (addr, bound)` -/
def align (addr bound : ℕ) : ℕ :=
  let mask := if bound = 0 then 2 ^ 64 - 1 else bound - 1
  -- `x & ~mask`
  (addr + mask) % 2 ^ 64 - ((addr + mask) % 2 ^ 64 &&& mask)

namespace Heap

/-- `memory_init`; the size is given in KB. -/
def init (lastAllocatedByte memSize : ℕ) : Heap :=
  ⟨memSize * 2 ^ 10 % 2 ^ 64, align lastAllocatedByte 16⟩

/-- `memory_size == 0 && first_free_addr == 0` -/
def Uninitialized (h : Heap) : Prop := h.memorySize = 0 ∧ h.firstFreeAddr = 0

instance (h : Heap) : Decidable h.Uninitialized := inferInstanceAs (Decidable (_ ∧ _))

/-- The common end of the four functions: a block of `size` bytes at the pointer, or `NULL`. -/
def bump (size : ℕ) (h : Heap) : ℕ × Heap :=
  if (h.firstFreeAddr + size) % 2 ^ 64 > h.memorySize then (0, h)
  else (h.firstFreeAddr, { h with firstFreeAddr := align ((h.firstFreeAddr + size) % 2 ^ 64) 16 })

/-- `malloc` -/
def malloc (size : ℕ) (h : Heap) : Except (Stop Panic) (ℕ × Heap) :=
  if size = 0 then .ok (0, h)
  else if h.Uninitialized then .error (.panic .notInitialized)
  else .ok (h.bump size)

/-- `malloc_align` -/
def mallocAlign (size alignment : ℕ) (h : Heap) : Except (Stop Panic) (ℕ × Heap) :=
  if size = 0 then .ok (0, h)
  else if h.Uninitialized then .error (.panic .notInitialized)
  else if alignment ≥ h.memorySize then .ok (0, h)
  else .ok (bump size { h with firstFreeAddr := align h.firstFreeAddr alignment })

/-- `calloc` -/
def calloc (nmemb size : ℕ) (h : Heap) : Except (Stop Panic) (ℕ × Heap) :=
  if size = 0 ∨ nmemb = 0 then .ok (0, h)
  else if h.Uninitialized then .error (.panic .notInitialized)
  else .ok (h.bump (nmemb * size % 2 ^ 64))

/-- `calloc_align` -/
def callocAlign (nmemb size alignment : ℕ) (h : Heap) : Except (Stop Panic) (ℕ × Heap) :=
  if size = 0 ∨ nmemb = 0 then .ok (0, h)
  else if h.Uninitialized then .error (.panic .notInitialized)
  else if alignment ≥ h.memorySize then .ok (0, h)
  else .ok (bump (nmemb * size % 2 ^ 64)
    { h with firstFreeAddr := align h.firstFreeAddr alignment })

end Heap

/-- The variables of the allocator, and the memory as pages of 64-bit words. -/
structure State extends Heap where
  words : Tables

/-- The functions of the boot loader that allocate. -/
abbrev BootM := EStateM (Stop Panic) State

/-- `calloc_align`, for a multiple of the page size: the pages that it returns are filled with
zeros. -/
def callocAlign (nmemb size alignment : ℕ) : BootM ℕ := do
  let s ← get
  match s.toHeap.callocAlign nmemb size alignment with
  | .error e => throw e
  | .ok (a, h) =>
    set { s with
      toHeap := h
      words := fun t i =>
        if a ≠ 0 ∧ IsPageOf a (nmemb * size % 2 ^ 64 / 4096) t then 0 else s.words t i }
    return a

/-- The tables of the boot loader: `calloc_align` followed by the check that every use makes. -/
def tables : TableOps (Stop Panic) State where
  read s := s.words
  write t i e s := { s with words := s.words.set t i e }
  newTable := do
    let a ← callocAlign 1 4096 4096
    if a = 0 then
      throw (.panic (.map .allocFailed))
    else
      return a

/-- The panics of the page-table code as panics of the boot loader. -/
def mapStop : Stop MapPanic → Stop Panic := Stop.map .map

/-! ### The laws of table access -/

/-- Physical addresses have at most 52 bits. -/
structure State.Physical (s : State) : Prop where
  size_le : s.memorySize ≤ 2 ^ 52
  free_le : s.firstFreeAddr ≤ 2 ^ 52

/-- The tables `N` lie below the pointer of the allocator. -/
structure State.Holds (s : State) (N : Multiset ℕ) : Prop where
  physical : s.Physical
  addr : ∀ a ∈ N, a ≠ 0 ∧ a + 4096 ≤ s.firstFreeAddr

/-- For a power of two, `ALIGN` rounds up to a multiple. -/
theorem align_two_pow (a k : ℕ) :
    align a (2 ^ k) = (a + (2 ^ k - 1)) % 2 ^ 64 / 2 ^ k * 2 ^ k := by
  have hpos : 0 < 2 ^ k := Nat.two_pow_pos k
  unfold align
  dsimp only
  rw [if_neg hpos.ne', Nat.and_two_pow_sub_one_eq_mod]
  generalize (a + (2 ^ k - 1)) % 2 ^ 64 = x
  have hdiv := Nat.div_add_mod' x (2 ^ k)
  omega

theorem align_page {a : ℕ} (h : a ≤ 2 ^ 52) : a ≤ align a 4096 ∧ align a 4096 % 4096 = 0 ∧
    align a 4096 ≤ a + 4095 := by
  rw [show 4096 = 2 ^ 12 by norm_num, align_two_pow]
  omega

theorem align_16 {a : ℕ} (h : a ≤ 2 ^ 52) (ha : a % 16 = 0) : align a 16 = a := by
  rw [show 16 = 2 ^ 4 by norm_num, align_two_pow]
  omega

/-- A page from `calloc_align`: `NULL`, when the memory is used up, or zeroed memory at the next
page, up to the new value of the pointer. -/
theorem callocAlign_spec {s : State} (h : s.Physical) {E : Stop Panic → State → Prop}
    (hE : s.memorySize = 0 → E (.panic .notInitialized) s) :
    wp (callocAlign 1 4096 4096) (fun a s' =>
      (a = 0 ∧ (s.memorySize ≤ 4096 ∨ s.memorySize < align s.firstFreeAddr 4096 + 4096)) ∨
      a % 4096 = 0 ∧ s.firstFreeAddr ≤ a ∧ s' = ⟨⟨s.memorySize, a + 4096⟩, fun t i =>
        if a ≠ 0 ∧ t = a then 0 else s.words t i⟩ ∧ s'.Physical ∧ a = align s.firstFreeAddr 4096 ∧
        a + 4096 ≤ s.memorySize) E s := by
  obtain ⟨hle, hal, hub⟩ := align_page h.free_le
  have hsize := h.size_le
  have hfree := h.free_le
  have hfits : (align s.firstFreeAddr 4096 + 4096) % 2 ^ 64 = align s.firstFreeAddr 4096 + 4096 :=
    Nat.mod_eq_of_lt (by omega)
  unfold callocAlign Heap.callocAlign Heap.bump Heap.Uninitialized
  simp only [OfNat.ofNat_ne_zero, one_ne_zero, or_self, if_false, Nat.one_mul, wp_bind, wp_get,
    show 4096 % 2 ^ 64 = 4096 from rfl, hfits]
  split_ifs with h0 hsmall hfull
  · exact hE h0.1
  · exact Or.inl ⟨rfl, Or.inl hsmall⟩
  · exact Or.inl ⟨rfl, Or.inr hfull⟩
  · have hnext : align (align s.firstFreeAddr 4096 + 4096) 16 = align s.firstFreeAddr 4096 + 4096 :=
      align_16 (by omega) (by omega)
    have hpage : ∀ t, IsPageOf (align s.firstFreeAddr 4096) (4096 / 4096) t ↔
        t = align s.firstFreeAddr 4096 := fun t => isPageOf_one
    simp only [hnext, hpage, wp_bind, wp_set, wp_pure]
    exact Or.inr ⟨hal, hle, trivial,
      ⟨hsize, show align s.firstFreeAddr 4096 + 4096 ≤ 2 ^ 52 by omega⟩, trivial, not_lt.mp hfull⟩

/-- The laws of table access hold for the tables of the boot loader. -/
theorem tables_lawful {E : Stop Panic → State → Prop}
    (hinit : ∀ s, E (.panic .notInitialized) s) (hfail : ∀ s, E (.panic (.map .allocFailed)) s) :
    tables.Lawful State.Holds E where
  read_write _ _ _ _ := rfl
  owned_write _ _ _ _ _ h _ := ⟨⟨h.physical.size_le, h.physical.free_le⟩, h.addr⟩
  owned_addr s N h a ha := by
    have := h.addr a ha
    have := h.physical.free_le
    omega
  newTable s N h := by
    refine (callocAlign_spec h.physical fun _ => hinit s).bind ?_
    rintro a s' (⟨rfl, -⟩ | ⟨hal, hle, hs', hphys, -⟩)
    · exact hfail s'
    · refine wp_ite.mpr ⟨fun _ => hfail s', fun ha => ?_⟩
      have hold : ∀ b ∈ N, b ≠ 0 ∧ b + 4096 ≤ a := fun b hb =>
        ⟨(h.addr b hb).1, (h.addr b hb).2.trans hle⟩
      subst hs'
      refine ⟨⟨hphys, fun b hb => ?_⟩, fun haN => ?_, ha, hal, fun i => if_pos ⟨ha, rfl⟩,
        fun t ht => funext fun i => if_neg fun h => ht h.2⟩
      · rcases Multiset.mem_cons.mp hb with rfl | hb
        · exact ⟨ha, le_rfl⟩
        · exact ⟨(hold b hb).1, (hold b hb).2.trans (Nat.le_add_right a 4096)⟩
      · have := (hold a haN).2
        omega

/-- The next pages of the allocator. -/
def State.nextPages (s : State) (n : ℕ) : List ℕ :=
  (List.range n).map fun i => align s.firstFreeAddr 4096 + i * 4096

/-- The tables handed out since the state `s₀` are its next pages, inside the memory. -/
structure State.TakesNext (s₀ s : State) (N : Multiset ℕ) : Prop where
  next : ∃ n, N = ↑(s₀.nextPages n) ∧
    align s.firstFreeAddr 4096 = align s₀.firstFreeAddr 4096 + n * 4096
  size : s.memorySize = s₀.memorySize
  inside : ∀ a ∈ N, a % 4096 = 0 ∧ a + 4096 ≤ s₀.memorySize

theorem tables_takesNext {E : Stop Panic → State → Prop} (s₀ : State)
    (hinit : ∀ s, E (.panic .notInitialized) s) (hfail : ∀ s, E (.panic (.map .allocFailed)) s) :
    tables.Lawful (fun s N => s.Holds N ∧ s₀.TakesNext s N) E := by
  refine (tables_lawful hinit hfail).and (fun t i e s N h => ⟨h.next, h.size, h.inside⟩) ?_
  rintro s N hold ⟨⟨n, hN, hfree⟩, hsize, hin⟩
  refine (callocAlign_spec hold.physical fun _ => hinit s).bind ?_
  rintro a s' (⟨rfl, -⟩ | ⟨hal, -, rfl, hphys, ha, hfit⟩)
  · exact hfail s'
  · refine wp_ite.mpr ⟨fun _ => hfail _, fun _ => ⟨⟨n + 1, ?_, ?_⟩, hsize, fun b hb => ?_⟩⟩
    · rw [State.nextPages, List.range_succ, List.map_append, List.map_singleton, ← Multiset.coe_add,
        Multiset.coe_singleton, add_comm, Multiset.singleton_add, ← hfree, ← ha, hN]
      rfl
    · have hbound : a + 4096 ≤ 2 ^ 52 := hphys.free_le
      have hspec := align_page hbound
      dsimp only
      omega
    · rcases Multiset.mem_cons.mp hb with rfl | hb
      · exact ⟨hal, by omega⟩
      · exact hin b hb

/-- `n` more pages can be had. -/
structure State.Room (n : ℕ) (s : State) : Prop where
  physical : s.Physical
  initialized : 0 < s.firstFreeAddr
  large : 4096 < s.memorySize
  room : align s.firstFreeAddr 4096 + n * 4096 ≤ s.memorySize

/-- A stop for another reason than a lack of memory. -/
def OtherStop (e : Stop Panic) (_ : State) : Prop :=
  e ≠ .panic .notInitialized ∧ e ≠ .panic (.map .allocFailed)

theorem mapStop_other (q : Stop MapPanic) (s : State) (h : q ≠ .panic .allocFailed) :
    OtherStop (mapStop q) s := by
  rcases q with (p | _ | _ | _)
  all_goals refine ⟨fun heq => ?_, fun heq => ?_⟩
  all_goals cases heq
  exact h rfl

/-- The tables of the boot loader come from the room it has. -/
theorem tables_funded : tables.Funded State.Room OtherStop where
  write n t i e s h := ⟨⟨h.physical.size_le, h.physical.free_le⟩, h.initialized, h.large, h.room⟩
  newTable n s h := by
    have hroom := h.room
    have hlarge := h.large
    refine (callocAlign_spec h.physical fun h0 => absurd h0 (by omega)).bind ?_
    rintro a s' (⟨-, hfull⟩ | ⟨hal, hle, rfl, hphys, ha, -⟩)
    · omega
    · have hpos := h.initialized
      refine wp_ite.mpr ⟨fun h0 => absurd h0 (by omega), fun _ => ?_⟩
      have hbound : a + 4096 ≤ 2 ^ 52 := hphys.free_le
      have hspec := align_page hbound
      refine ⟨hphys, Nat.succ_pos _, hlarge, ?_⟩
      dsimp only
      omega
  less n s h := by
    have hroom := h.room
    have hle : n * 4096 ≤ (n + 1) * 4096 := Nat.mul_le_mul_right 4096 (Nat.le_succ n)
    exact ⟨h.physical, h.initialized, h.large, (Nat.add_le_add_left hle _).trans hroom⟩

end Savannah.Stage2
