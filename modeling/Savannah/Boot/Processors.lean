import Savannah.Boot.Handover
import Savannah.Foundation.Bytes

/-!
# Finding the processors

`mp_init` of `boot/stage2/mp.c` looks for the MP configuration table and walks through its entries.
For every processor entry it adds as many CPUs as `cpuid` reports cores, with `add_cpu` of
`boot/stage2/cpuinfo.c`, which keeps the table `cpuinfo_table` of `MAX_CPUS` addresses.

`add_cpu` refuses a CPU when there are more than `MAX_CPUS` already, one too late: the table has no
entry for number `MAX_CPUS`.  `mpInit_good_iff` says for which tables the result is as it should be,
namely when there are at most `MAX_CPUS` cores in the entries that are reached.

The configuration table lies in memory that is not handed out, so that the CPU records do not
overwrite it.
-/

namespace Savannah.Stage2

open Foundation

/-- `MIN_CPUS` and `MAX_CPUS` -/
abbrev minCpus : ℕ := 4

@[inherit_doc minCpus]
abbrev maxCpus : ℕ := 255

/-- `_2MB_` -/
abbrev poolSize : ℕ := 0x200000

/-- `sizeof (struct cpu_info)` -/
abbrev sizeofCpuInfo : ℕ := 888

/-- What `mp_init` reads of the machine: the memory with the MP structures, `edx` of `cpuid (1)`,
the MSR `0x1B`, and `eax` of `cpuid (4)`. -/
structure Machine where
  mem : Bytes
  features : ℕ
  apicBase : ℕ
  coreInfo : UInt32

inductive MpPanic where
  | heap (p : Panic)
  /-- "APIC is NOT supported!" -/
  | noApic
  /-- "No MP floating pointer found" -/
  | noPointer
  /-- "Legacy MP configurations not supported" -/
  | legacy
  /-- "PIC Mode not supported" -/
  | picMode
  /-- "Bad Configuration Table", after which the CPU is halted. -/
  | badTable
  /-- "IOAPIC address is not valid" -/
  | ioapicAddress
  /-- "Unknown config type" -/
  | unknownEntry
  /-- "CPU info structure is too big." -/
  | infoTooBig
  /-- "Max CPU information Pool is bigger than 2MB" -/
  | poolTooBig
  /-- "Too many CPUs" -/
  | tooManyCpus
  /-- "get_cpu_info: No CPU with id %d" -/
  | noSuchCpu
  /-- "mp failed to properly detect all cpus!" -/
  | notDetected
  /-- "%d CPUs found. The minimum number is %d" -/
  | tooFewCpus
  deriving DecidableEq, Repr

/-! ### The configuration table -/

/-- A 16-bit and a 32-bit field. -/
def Machine.u16 (m : Machine) (a : ℕ) : ℕ := number (m.mem.load a 2)

@[inherit_doc Machine.u16]
def Machine.u32 (m : Machine) (a : ℕ) : ℕ := number (m.mem.load a 4)

/-- `sum` -/
def Machine.sum (m : Machine) (a length : ℕ) : UInt8 := (m.mem.load a length).sum

/-- `mp_search`; the pointer structure has 16 bytes. -/
def Machine.mpSearch (m : Machine) (pa len : ℕ) : Option ℕ :=
  ((List.range (len / 16)).map fun i => pa + 16 * i).find? fun p =>
    m.mem.load p 4 = ['_', 'M', 'P', '_'].map Char.toUInt8 ∧ m.sum p 16 = 0

/-- The first half of `mp_init`: the address of the configuration table. -/
def Machine.conf (m : Machine) : Except MpPanic ℕ :=
  if ¬ (m.features.testBit 9 ∧ m.apicBase.testBit 11) then
    .error .noApic
  else
    match m.mpSearch 0xF0000 0x10000 with
    | none => .error .noPointer
    | some mp =>
      if m.u32 (mp + 4) = 0 ∨ m.mem (mp + 11) ≠ 0 then
        .error .legacy
      else if (m.mem (mp + 12)).toNat.testBit 7 then
        .error .picMode
      else
        let conf := m.u32 (mp + 4)
        if m.mem.load conf 4 ≠ ['P', 'C', 'M', 'P'].map Char.toUInt8 ∨
          m.sum conf (m.u16 (conf + 4)) ≠ 0 ∨ (m.mem (conf + 6) ≠ 1 ∧ m.mem (conf + 6) ≠ 4) then
          .error .badTable
        else
          .ok conf

/-- The entries of the table, by their types. -/
inductive Entry where
  /-- `MP_PROC` -/
  | processor
  /-- `MP_BUS` -/
  | bus
  /-- `MP_IOAPIC`, with the field `addr` of `struct mp_ioapic` -/
  | ioapic (addr : ℕ)
  /-- `MP_IOINTR` -/
  | iointr
  /-- `MP_LINTR` -/
  | lintr
  | unknown
  deriving DecidableEq, Repr

/-- The entry at `p`. -/
def Machine.entry (m : Machine) (p : ℕ) : Entry :=
  match (m.mem p).toNat with
  | 0 => .processor
  | 1 => .bus
  | 2 => .ioapic (m.u32 (p + 4))
  | 3 => .iointr
  | 4 => .lintr
  | _ => .unknown

/-- `intel_get_core_number` -/
def Machine.cores (m : Machine) : ℕ := m.coreInfo.toNat / 2 ^ 26 + 1

/-! ### Adding CPUs -/

/-- The fields of a `struct cpu_info` that `mp_init` assigns. -/
structure CpuIds where
  lapicId : UInt8
  cpuid : UInt8
  deriving DecidableEq, Repr

/-- The variables of `boot/stage2/cpuinfo.c`, the records by their addresses, and `ioapicva`. -/
structure MpState where
  heap : Heap
  firstTime : Bool
  cpuinfoPool : ℕ
  ncpus : ℕ
  cpuinfoTable : ℕ → ℕ
  cpus : ℕ → CpuIds
  ioapicva : ℕ

/-- The state before `mp_init`. -/
def MpState.initial (heap : Heap) : MpState := ⟨heap, true, 0, 0, fun _ => 0, fun _ => ⟨0, 0⟩, 0⟩

abbrev MpM := EStateM (Stop MpPanic) MpState

/-- `allocate_cpuinfo_pool`; that the memory may not suffice is not checked. -/
def allocateCpuinfoPool : MpM Unit := do
  if sizeofCpuInfo > 4096 then
    throw (.panic .infoTooBig)
  if maxCpus * 4096 > poolSize then
    throw (.panic .poolTooBig)
  let s ← get
  match Heap.callocAlign 1 poolSize poolSize s.heap with
  | .ok (a, heap) => set { s with
      heap := heap, cpuinfoPool := a, cpuinfoTable := Function.update s.cpuinfoTable 0 a }
  | .error e => throw (e.map .heap)

/-- `add_cpu`; the table has `MAX_CPUS` entries. -/
def addCpu : MpM ℕ := do
  if (← get).ncpus > maxCpus then
    throw (.panic .tooManyCpus)
  if (← get).firstTime then
    modify fun s => { s with firstTime := false }
    allocateCpuinfoPool
  let s ← get
  if s.ncpus < maxCpus then
    set { s with
      cpuinfoTable := Function.update s.cpuinfoTable s.ncpus (s.cpuinfoPool + s.ncpus * 4096)
      ncpus := s.ncpus + 1 }
    return s.cpuinfoPool + s.ncpus * 4096
  else
    throw (.outOfBounds s.ncpus)

/-- `get_cpu_info` -/
def getCpuInfo (cpuid : ℕ) : MpM ℕ := do
  if cpuid > maxCpus then
    throw (.panic .noSuchCpu)
  if cpuid < maxCpus then
    return (← get).cpuinfoTable cpuid
  else
    throw (.outOfBounds cpuid)

/-- The loop over the cores of a processor entry, with `n` cores left; the result is `curr_cpu`. -/
def addCores : ℕ → ℕ → MpM ℕ
  | 0, currCpu => pure currCpu
  | n + 1, currCpu => do
    let a ← addCpu
    modify fun s => { s with
      cpus := Function.update s.cpus a ⟨UInt8.ofNat currCpu, UInt8.ofNat currCpu⟩ }
    addCores n (currCpu + 1)

/-- The loop over the entries of the table, which ends at `stop`, in at most `fuel` steps. -/
def scanEntries (m : Machine) (stop : ℕ) : ℕ → ℕ → ℕ → Option ℕ → MpM (ℕ × Option ℕ)
  | fuel, p, currCpu, ioapic =>
    if p ≥ stop then
      pure (currCpu, ioapic)
    else
      match fuel with
      | 0 => throw .diverges
      | fuel + 1 =>
        match m.entry p with
        | .processor => do
          let currCpu ← addCores m.cores currCpu
          scanEntries m stop fuel (p + 20) currCpu ioapic
        | .ioapic addr =>
          if addr ≠ 0xFEC00000 then
            throw (.panic .ioapicAddress)
          else
            scanEntries m stop fuel (p + 8) currCpu (some addr)
        | .iointr | .lintr | .bus => scanEntries m stop fuel (p + 8) currCpu ioapic
        | .unknown => throw (.panic .unknownEntry)

/-- `mp_init`.  An entry has at least one byte, which bounds the steps of the loop. -/
def mpInit (m : Machine) : MpM Unit := do
  match m.conf with
  | .error e => throw (.panic e)
  | .ok conf =>
    let length := m.u16 (conf + 4)
    let (currCpu, ioapic) ← scanEntries m (conf + length) length (conf + 44) 0 none
    if currCpu ≠ (← get).ncpus then
      throw (.panic .notDetected)
    if currCpu < minCpus then
      throw (.panic .tooFewCpus)
    modify fun s => { s with ioapicva := ioapic.getD 0xFEC00000 }

/-! ### The numbering of the CPUs -/

/-- The CPUs are numbered from 0 on, with their records one page after the other in the pool. -/
structure MpState.Numbered (s : MpState) : Prop where
  min_le : minCpus ≤ s.ncpus
  le_max : s.ncpus ≤ maxCpus
  pool : s.cpuinfoPool ≠ 0
  table : ∀ i < s.ncpus, s.cpuinfoTable i = s.cpuinfoPool + i * 4096 ∧
    s.cpuinfoTable i + 4096 ≤ s.cpuinfoPool + poolSize
  ids : ∀ i < s.ncpus, (s.cpus (s.cpuinfoTable i)).cpuid.toNat = i ∧
    (s.cpus (s.cpuinfoTable i)).lapicId.toNat = i

/-- `mp_init` panics, or ends with the CPUs numbered; it does not leave its arrays, and it ends. -/
def MpGood : EStateM.Result (Stop MpPanic) MpState Unit → Prop
  | .ok _ s => s.Numbered
  | .error (.panic _) _ => True
  | .error _ _ => False

/-- The number of processor entries from `p` on, up to the end of the table or to the first entry at
which `mp_init` panics. -/
def processors (m : Machine) (stop : ℕ) : ℕ → ℕ → ℕ
  | fuel, p =>
    if p ≥ stop then
      0
    else
      match fuel with
      | 0 => 0
      | fuel + 1 =>
        match m.entry p with
        | .processor => processors m stop fuel (p + 20) + 1
        | .ioapic addr => if addr ≠ 0xFEC00000 then 0 else processors m stop fuel (p + 8)
        | .iointr | .lintr | .bus => processors m stop fuel (p + 8)
        | .unknown => 0

/-- The entries from `p` on are all of a known type, with the address of the IOAPIC as expected. -/
def wellFormed (m : Machine) (stop : ℕ) : ℕ → ℕ → Bool
  | fuel, p =>
    if p ≥ stop then
      true
    else
      match fuel with
      | 0 => false
      | fuel + 1 =>
        match m.entry p with
        | .processor => wellFormed m stop fuel (p + 20)
        | .ioapic addr => if addr ≠ 0xFEC00000 then false else wellFormed m stop fuel (p + 8)
        | .iointr | .lintr | .bus => wellFormed m stop fuel (p + 8)
        | .unknown => false

/-- The number of CPUs that the table at `conf` asks for. -/
def Machine.cpuCount (m : Machine) (conf : ℕ) : ℕ :=
  processors m (conf + m.u16 (conf + 4)) (m.u16 (conf + 4)) (conf + 44) * m.cores

/-- The table at `conf` is read to its end. -/
def Machine.Readable (m : Machine) (conf : ℕ) : Prop :=
  wellFormed m (conf + m.u16 (conf + 4)) (m.u16 (conf + 4)) (conf + 44) = true

/-- There are not more CPUs than entries in `cpuinfo_table`; and if there are enough of them to go
on, the allocator has a block for the pool. -/
def Machine.Fits (m : Machine) (h₀ : Heap) : Prop :=
  ∀ conf a h₁, m.conf = .ok conf → Heap.callocAlign 1 poolSize poolSize h₀ = .ok (a, h₁) →
    m.cpuCount conf ≤ maxCpus ∧ (a = 0 → m.Readable conf → m.cpuCount conf < minCpus)

/-! ### Adding CPUs one by one -/

/-- The state when `k` CPUs have been added, `j` of which have their numbers, from the heap `h₀`
with the pool at `a`. -/
structure MpState.Added (h₀ : Heap) (a k j : ℕ) (s : MpState) : Prop where
  ncpus : s.ncpus = k
  firstTime : s.firstTime = decide (k = 0)
  heap : k = 0 → s.heap = h₀
  pool : 0 < k → s.cpuinfoPool = a
  table : ∀ i < k, s.cpuinfoTable i = a + i * 4096
  ids : ∀ i < j, s.cpus (a + i * 4096) = ⟨UInt8.ofNat i, UInt8.ofNat i⟩

section Spec

variable {h₀ h₁ : Heap} {a k : ℕ} {s : MpState} {E : Stop MpPanic → MpState → Prop}

theorem MpState.added_initial : (MpState.initial h₀).Added h₀ a 0 0 :=
  ⟨rfl, rfl, fun _ => rfl, fun h => absurd h (Nat.lt_irrefl 0), fun _ h => absurd h
    (Nat.not_lt_zero _), fun _ h => absurd h (Nat.not_lt_zero _)⟩

theorem allocateCpuinfoPool_spec
    (hpool : Heap.callocAlign 1 poolSize poolSize s.heap = .ok (a, h₁)) :
    wp allocateCpuinfoPool (fun _ s' => s' = { s with
      heap := h₁, cpuinfoPool := a, cpuinfoTable := Function.update s.cpuinfoTable 0 a }) E s := by
  unfold allocateCpuinfoPool
  rw [if_neg (by decide), if_neg (by decide)]
  simp only [wp_bind, wp_get, hpool, wp_set]

/-- The table with one more entry. -/
theorem table_succ {table : ℕ → ℕ} (h : ∀ i < k, table i = a + i * 4096) :
    ∀ i < k + 1, Function.update table k (a + k * 4096) i = a + i * 4096 := by
  intro i hi
  rcases Nat.lt_succ_iff_lt_or_eq.mp hi with hlt | rfl
  · rw [Function.update_of_ne hlt.ne]
    exact h i hlt
  · exact Function.update_self _ _ _

/-- Writing the numbers of the CPU that was added last. -/
theorem MpState.Added.number (h : s.Added h₀ a (k + 1) k) :
    ({ s with
      cpus := Function.update s.cpus (a + k * 4096) ⟨UInt8.ofNat k, UInt8.ofNat k⟩ } :
      MpState).Added h₀ a (k + 1) (k + 1) := by
  refine ⟨h.ncpus, h.firstTime, h.heap, h.pool, h.table, ?_⟩
  intro i hi
  dsimp only
  rcases Nat.lt_succ_iff_lt_or_eq.mp hi with hlt | rfl
  · rw [Function.update_of_ne (by omega)]
    exact h.ids i hlt
  · exact Function.update_self _ _ _

/-- As long as there is an entry in the table, `add_cpu` takes the next one. -/
theorem addCpu_spec (hpool : Heap.callocAlign 1 poolSize poolSize h₀ = .ok (a, h₁))
    (h : s.Added h₀ a k k) (hk : k < maxCpus) :
    wp addCpu (fun r s' => r = a + k * 4096 ∧ s'.Added h₀ a (k + 1) k) E s := by
  have hncpus := h.ncpus
  unfold addCpu
  rw [wp_bind, wp_get, if_neg (by omega), wp_bind, wp_get]
  rcases Nat.eq_zero_or_pos k with rfl | hpos
  · -- the first CPU: the pool is allocated on the way
    rw [h.firstTime, if_pos (by rfl), wp_bind, wp_modify, wp_bind]
    have hheap : Heap.callocAlign 1 poolSize poolSize
        ({ s with firstTime := false } : MpState).heap = .ok (a, h₁) := by
      rw [h.heap rfl]
      exact hpool
    refine (allocateCpuinfoPool_spec hheap).mono ?_ fun _ _ he => he
    rintro _ _ rfl
    rw [wp_bind, wp_get, if_pos (lt_of_eq_of_lt hncpus hk), wp_bind, wp_set, wp_pure]
    dsimp only
    refine ⟨by rw [hncpus], by rw [hncpus], rfl, fun h0 => absurd h0 (Nat.succ_ne_zero 0),
      fun _ => rfl, ?_, h.ids⟩
    rw [hncpus]
    exact table_succ fun i hi => absurd hi (Nat.not_lt_zero i)
  · rw [h.firstTime, if_neg (by simp; omega), wp_bind, wp_get, if_pos (by omega), wp_bind, wp_set,
      wp_pure]
    have hpool' := h.pool hpos
    refine ⟨by rw [hncpus, hpool'], by rw [hncpus], ?_, fun h0 => absurd h0 (Nat.succ_ne_zero k),
      fun _ => hpool', ?_, h.ids⟩
    · rw [h.firstTime]
      exact decide_eq_decide.mpr (by omega)
    · rw [hncpus, hpool']
      exact table_succ h.table

/-- With the table full, `add_cpu` does not panic but goes on to the entry behind it. -/
theorem addCpu_full (h : s.Added h₀ a maxCpus k) :
    wp addCpu (fun _ _ => False) (fun e _ => e = .outOfBounds maxCpus) s := by
  have hncpus := h.ncpus
  unfold addCpu
  rw [wp_bind, wp_get, if_neg (by omega), wp_bind, wp_get, h.firstTime, if_neg (by decide),
    wp_bind, wp_get, if_neg (by omega), wp_throw, hncpus]

/-- The loop over the cores of an entry, while there is room in the table. -/
theorem addCores_spec (hpool : Heap.callocAlign 1 poolSize poolSize h₀ = .ok (a, h₁)) (n : ℕ) :
    ∀ k s, s.Added h₀ a k k → k + n ≤ maxCpus →
      wp (addCores n k) (fun r s' => r = k + n ∧ s'.Added h₀ a (k + n) (k + n)) E s := by
  induction n with
  | zero => exact fun k s h _ => ⟨rfl, h⟩
  | succ n ih =>
    intro k s h hn
    refine (addCpu_spec hpool h (by omega)).bind ?_
    rintro _ s' ⟨rfl, h'⟩
    rw [wp_bind, wp_modify]
    have hnumbered := h'.number
    refine (ih (k + 1) _ hnumbered (by omega)).mono ?_ fun _ _ he => he
    rintro r t ⟨rfl, ht⟩
    rw [show k + (n + 1) = k + 1 + n by omega]
    exact ⟨rfl, ht⟩

/-- If the cores of an entry do not all fit, the loop leaves the table. -/
theorem addCores_full (hpool : Heap.callocAlign 1 poolSize poolSize h₀ = .ok (a, h₁)) (n : ℕ) :
    ∀ k s, s.Added h₀ a k k → k ≤ maxCpus → maxCpus < k + n →
      wp (addCores n k) (fun _ _ => False) (fun e _ => e = .outOfBounds maxCpus) s := by
  induction n with
  | zero => exact fun k s _ hk hn => absurd hn (by omega)
  | succ n ih =>
    intro k s h hk hn
    rcases hk.lt_or_eq with hlt | rfl
    · refine (addCpu_spec hpool h hlt).bind ?_
      rintro _ s' ⟨rfl, h'⟩
      rw [wp_bind, wp_modify]
      exact ih (k + 1) _ h'.number hlt (by omega)
    · exact (addCpu_full h).bind fun _ _ => False.elim

end Spec

/-! ### The loop over the entries -/

section Scan

variable {m : Machine} {stop : ℕ} {I : ℕ → ℕ → MpState → Prop} {E : Stop MpPanic → MpState → Prop}
  {C : Prop}

/-- An invariant rule for the loop.  `I q k` holds with `q` processor entries ahead and `k` CPUs
added; `C` says whether the rest of the table is well formed. -/
theorem scanEntries_rule
    (hcores : ∀ q k s, I (q + 1) k s → wp (addCores m.cores k) (fun r s' => I q r s') E s)
    (hpanic : ∀ p k s, ¬ C → I 0 k s → E (.panic p) s) (fuel : ℕ) :
    ∀ p k ioapic s, stop ≤ p + fuel → (wellFormed m stop fuel p = true ↔ C) →
      I (processors m stop fuel p) k s →
      wp (scanEntries m stop fuel p k ioapic) (fun r s' => C ∧ I 0 r.1 s') E s := by
  induction fuel with
  | zero =>
    intro p k ioapic s hstop hC hI
    have hp : p ≥ stop := hstop
    unfold scanEntries
    unfold wellFormed at hC
    unfold processors at hI
    rw [if_pos hp] at hC hI ⊢
    exact ⟨hC.mp rfl, hI⟩
  | succ fuel ih =>
    intro p k ioapic s hstop hC hI
    unfold scanEntries
    unfold wellFormed at hC
    unfold processors at hI
    by_cases hp : p ≥ stop
    · rw [if_pos hp] at hC hI ⊢
      exact ⟨hC.mp rfl, hI⟩
    rw [if_neg hp] at hC hI ⊢
    -- every entry is passed by at least one byte, which pays for the step
    cases hentry : m.entry p with
    | processor =>
      simp only [hentry] at hC hI ⊢
      refine (hcores _ k s hI).bind ?_
      intro r s' hI'
      exact ih (p + 20) r ioapic s' (by omega) hC hI'
    | ioapic addr =>
      simp only [hentry] at hC hI ⊢
      split at hI
      · rw [if_pos ‹_›] at hC ⊢
        exact hpanic _ k s (fun h => Bool.false_ne_true (hC.mpr h)) hI
      · rw [if_neg ‹_›] at hC ⊢
        exact ih (p + 8) k (some addr) s (by omega) hC hI
    | unknown =>
      simp only [hentry] at hC hI ⊢
      exact hpanic _ k s (fun h => Bool.false_ne_true (hC.mpr h)) hI
    | bus | iointr | lintr =>
      simp only [hentry] at hC hI ⊢
      exact ih (p + 8) k ioapic s (by omega) hC hI

end Scan

/-! ### The whole function -/

section Init

variable {m : Machine} {h₀ h₁ : Heap} {a conf : ℕ}

/-- The allocator stops only by a panic. -/
theorem callocAlign_stop {nmemb size alignment : ℕ} {h : Heap} {e : Stop Panic}
    (hstop : Heap.callocAlign nmemb size alignment h = .error e) : e = .panic .notInitialized := by
  unfold Heap.callocAlign at hstop
  split_ifs at hstop
  exact (Except.error.inj hstop).symm

/-- A heap that is not initialised is noticed when the first CPU is added. -/
theorem addCores_uninitialized {e : Stop Panic}
    (hpool : Heap.callocAlign 1 poolSize poolSize h₀ = .error e) {n : ℕ} (hn : 0 < n) :
    wp (addCores n 0) (fun _ _ => False) (fun e _ => ∃ p, e = .panic p) (MpState.initial h₀) := by
  obtain rfl := callocAlign_stop hpool
  obtain ⟨n, rfl⟩ := Nat.exists_eq_succ_of_ne_zero hn.ne'
  unfold addCores addCpu allocateCpuinfoPool
  rw [wp_bind, wp_bind, wp_get,
    if_neg (show ¬ (MpState.initial h₀).ncpus > maxCpus from Nat.not_lt_zero _),
    wp_bind, wp_get, if_pos (by rfl), wp_bind, wp_modify, if_neg (by decide),
    if_neg (by decide), wp_bind,
    wp_bind, wp_get]
  have hheap : Heap.callocAlign 1 poolSize poolSize
      ({ MpState.initial h₀ with firstTime := false } : MpState).heap =
        .error (.panic .notInitialized) := hpool
  rw [hheap]
  exact ⟨.heap .notInitialized, rfl⟩

/-- With at most `MAX_CPUS` CPUs, `mp_init` adds them all, if it gets to the end of the table. -/
theorem mpInit_spec (hconf : m.conf = .ok conf)
    (hpool : Heap.callocAlign 1 poolSize poolSize h₀ = .ok (a, h₁))
    (hn : m.cpuCount conf ≤ maxCpus) :
    wp (mpInit m)
      (fun _ s => m.Readable conf ∧ minCpus ≤ m.cpuCount conf ∧
        s.Added h₀ a (m.cpuCount conf) (m.cpuCount conf))
      (fun e _ => (m.Readable conf → m.cpuCount conf < minCpus) ∧ ∃ p, e = .panic p)
      (MpState.initial h₀) := by
  unfold mpInit
  rw [hconf]
  dsimp only
  -- the CPUs that are there and those ahead make up the whole number
  refine (scanEntries_rule (C := m.Readable conf) (I := fun q k s =>
    k + q * m.cores = m.cpuCount conf ∧ s.Added h₀ a k k) ?_ ?_ _ _ _ _ _ (by omega) Iff.rfl
    ⟨Nat.zero_add _, MpState.added_initial⟩).bind ?_
  · rintro q k s ⟨hsum, h⟩
    rw [Nat.succ_mul] at hsum
    refine (addCores_spec hpool m.cores k s h (by omega)).mono ?_ fun _ _ he => he
    rintro r s' ⟨rfl, h'⟩
    exact ⟨by omega, h'⟩
  · intro p k s hC _
    exact ⟨fun h => absurd h hC, p, rfl⟩
  · rintro ⟨r, ioapic⟩ s' ⟨hC, hsum, h⟩
    dsimp only at hsum h ⊢
    rw [Nat.zero_mul, Nat.add_zero] at hsum
    subst hsum
    rw [wp_bind, wp_get, if_neg (not_not.mpr h.ncpus.symm)]
    refine wp_ite.mpr ⟨?_, ?_⟩
    · intro hfew
      exact ⟨fun _ => hfew, .tooFewCpus, rfl⟩
    · intro hmany
      rw [wp_modify]
      exact ⟨hC, not_lt.mp hmany, h.ncpus, h.firstTime, h.heap, h.pool, h.table, h.ids⟩

/-- With more CPUs, `mp_init` leaves the table. -/
theorem mpInit_full (hconf : m.conf = .ok conf)
    (hpool : Heap.callocAlign 1 poolSize poolSize h₀ = .ok (a, h₁))
    (hn : maxCpus < m.cpuCount conf) :
    wp (mpInit m) (fun _ _ => False) (fun e _ => e = .outOfBounds maxCpus)
    (MpState.initial h₀) := by
  unfold mpInit
  rw [hconf]
  dsimp only
  refine (scanEntries_rule (C := m.Readable conf) (I := fun q k s =>
    (k ≤ maxCpus ∧ maxCpus < k + q * m.cores) ∧ s.Added h₀ a k k) ?_ ?_ _ _ _ _ _ (by omega) Iff.rfl
    ⟨⟨Nat.zero_le _, (Nat.zero_add _).symm ▸ hn⟩, MpState.added_initial⟩).bind ?_
  · rintro q k s ⟨⟨hk, hlt⟩, h⟩
    rw [Nat.succ_mul] at hlt
    rcases Nat.lt_or_ge maxCpus (k + m.cores) with hfull | hroom
    · exact (addCores_full hpool m.cores k s h hk hfull).mono (fun _ _ => False.elim)
        fun _ _ he => he
    · refine (addCores_spec hpool m.cores k s h hroom).mono ?_ fun _ _ he => he
      rintro r s' ⟨rfl, h'⟩
      exact ⟨⟨hroom, by omega⟩, h'⟩
  · rintro p k s - ⟨⟨hk, hlt⟩, -⟩
    rw [Nat.zero_mul] at hlt
    exact absurd hlt (by omega)
  · rintro r s' ⟨-, ⟨hk, hlt⟩, -⟩
    rw [Nat.zero_mul] at hlt
    exact absurd hlt (by omega)

/-- Without an initialised heap `mp_init` always panics. -/
theorem mpInit_uninitialized {e : Stop Panic} (hconf : m.conf = .ok conf)
    (hpool : Heap.callocAlign 1 poolSize poolSize h₀ = .error e) :
    wp (mpInit m) (fun _ _ => False) (fun e _ => ∃ p, e = .panic p) (MpState.initial h₀) := by
  unfold mpInit
  rw [hconf]
  dsimp only
  refine (scanEntries_rule (C := m.Readable conf) (I := fun _ k s =>
    k = 0 ∧ s = MpState.initial h₀) ?_ ?_ _ _ _ _ _ (by omega) Iff.rfl ⟨rfl, rfl⟩).bind ?_
  · rintro q k s ⟨rfl, rfl⟩
    exact (addCores_uninitialized hpool (Nat.succ_pos _)).mono (fun _ _ => False.elim)
      fun _ _ he => he
  · intro p k s _ _
    exact ⟨p, rfl⟩
  · rintro ⟨r, ioapic⟩ s' ⟨-, hr, rfl⟩
    dsimp only at hr ⊢
    subst hr
    rw [wp_bind, wp_get, if_neg (show ¬ 0 ≠ (MpState.initial h₀).ncpus from not_not.mpr rfl),
      if_pos (by decide)]
    exact ⟨.tooFewCpus, rfl⟩

end Init

/-- Numbers below 256 are kept by a byte. -/
theorem toNat_ofNat_byte {i : ℕ} (h : i < 256) : (UInt8.ofNat i).toNat = i := by
  rw [UInt8.toNat_ofNat']
  exact Nat.mod_eq_of_lt h

/-- The CPUs that were added are numbered, if the pool exists. -/
theorem MpState.Added.numbered {h₀ : Heap} {a k : ℕ} {s : MpState} (h : s.Added h₀ a k k)
    (hmin : minCpus ≤ k) (hmax : k ≤ maxCpus) : s.Numbered ↔ a ≠ 0 := by
  have hncpus := h.ncpus
  have hfour : minCpus = 4 := rfl
  have hlast : maxCpus = 255 := rfl
  have hsize : poolSize = 0x200000 := rfl
  have hpool := h.pool (by omega)
  constructor
  · intro hs
    exact hpool ▸ hs.pool
  · intro ha
    have htable : ∀ i < s.ncpus, s.cpuinfoTable i = a + i * 4096 := by
      intro i hi
      exact h.table i (by omega)
    refine ⟨by omega, by omega, by rw [hpool]; exact ha, ?_, ?_⟩
    · intro i hi
      rw [htable i hi, hpool]
      exact ⟨rfl, by omega⟩
    · intro i hi
      rw [htable i hi, h.ids i (by omega)]
      exact ⟨toNat_ofNat_byte (by omega), toNat_ofNat_byte (by omega)⟩

/-- `MpGood` as a postcondition. -/
theorem mpGood_iff_wp {x : MpM Unit} {s : MpState} :
    MpGood (x s) ↔ wp x (fun _ s' => s'.Numbered) (fun e _ => ∃ p, e = .panic p) s := by
  unfold wp
  cases x s with
  | ok _ s' => exact Iff.rfl
  | error e s' => cases e <;> simp [MpGood]

/-- A table with too many CPUs. -/
theorem not_mpGood_of_full {m : Machine} {h₀ h₁ : Heap} {a conf : ℕ} (hconf : m.conf = .ok conf)
    (hpool : Heap.callocAlign 1 poolSize poolSize h₀ = .ok (a, h₁))
    (hn : maxCpus < m.cpuCount conf) :
    ¬ MpGood (mpInit m (MpState.initial h₀)) := by
  intro hgood
  have hboth := (mpGood_iff_wp.mp hgood).and (mpInit_full hconf hpool hn)
  cases hx : mpInit m (MpState.initial h₀) with
  | ok _ s => exact (hboth.ok hx).2
  | error e s =>
    obtain ⟨⟨p, rfl⟩, hstop⟩ := hboth.error hx
    cases hstop

/-- `mp_init` panics or numbers the CPUs exactly if there are entries in `cpuinfo_table` for all of
them, and memory for the pool. -/
theorem mpInit_good_iff (m : Machine) (h₀ : Heap) :
    MpGood (mpInit m (MpState.initial h₀)) ↔ m.Fits h₀ := by
  constructor
  · intro hgood conf a h₁ hconf hpool
    have hn : m.cpuCount conf ≤ maxCpus := by
      by_contra hfull
      exact not_mpGood_of_full hconf hpool (not_le.mp hfull) hgood
    refine ⟨hn, ?_⟩
    rintro rfl hread
    have hboth := (mpGood_iff_wp.mp hgood).and (mpInit_spec hconf hpool hn)
    cases hx : mpInit m (MpState.initial h₀) with
    | ok _ s =>
      obtain ⟨hs, -, hmin, hadded⟩ := hboth.ok hx
      exact absurd rfl ((hadded.numbered hmin hn).mp hs)
    | error e s => exact (hboth.error hx).2.1 hread
  · intro hfits
    rw [mpGood_iff_wp]
    cases hconf : m.conf with
    | error p =>
      unfold mpInit
      rw [hconf]
      exact ⟨p, rfl⟩
    | ok conf =>
      cases hpool : Heap.callocAlign 1 poolSize poolSize h₀ with
      | error e =>
        exact (mpInit_uninitialized hconf hpool).mono (fun _ _ => False.elim) fun _ _ he => he
      | ok r =>
        obtain ⟨a, h₁⟩ := r
        obtain ⟨hn, hnull⟩ := hfits conf a h₁ hconf hpool
        refine (mpInit_spec hconf hpool hn).mono ?_ fun _ _ he => he.2
        rintro _ s ⟨hread, hmin, hadded⟩
        refine (hadded.numbered hmin hn).mpr ?_
        intro ha
        exact absurd (hnull ha hread) (not_lt.mpr hmin)

/-- The MP structures of a machine with four processors: the pointer structure, and behind it the
start of a table of 124 bytes.  The entries are zero but for their type, which is zero as well. -/
def fourProcessors : Machine where
  mem := Bytes.store (fun _ => 0) 0xF0000
    [0x5F, 0x4D, 0x50, 0x5F, 0x10, 0x00, 0x0F, 0x00, 1, 4, 0x81, 0, 0, 0, 0, 0,
      0x50, 0x43, 0x4D, 0x50, 124, 0, 4, 0x50]
  features := 2 ^ 9
  apicBase := 2 ^ 11
  coreInfo := 0xFC000000

theorem fourProcessors_conf : fourProcessors.conf = .ok 0xF0010 := by
  have hsearch : fourProcessors.mpSearch 0xF0000 0x10000 = some 0xF0000 := by
    unfold Machine.mpSearch
    rw [show 0x10000 / 16 = 4095 + 1 from rfl, List.range_succ_eq_map, List.map_cons]
    exact List.find?_cons_of_pos (by decide +kernel)
  unfold Machine.conf
  rw [hsearch]
  decide +kernel

/-- Four processors with 64 cores each are one CPU more than the table has entries. -/
theorem mpInit_four_processors :
    ¬ MpGood (mpInit fourProcessors (MpState.initial ⟨2 ^ 30, 0x200000⟩)) := by
  refine not_mpGood_of_full (a := 0x200000) fourProcessors_conf rfl ?_
  decide +kernel

end Savannah.Stage2
