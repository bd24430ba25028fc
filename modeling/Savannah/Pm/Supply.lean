import Savannah.Memory.Supply
import Savannah.Pm.Mapping

/-!
# Enough memory for a request

`Reserve pool n s` says that `n` more pages can be had from the pool, one block after the other.
From such a state no allocation of a request that needs fewer pages fails, whatever the request
does.
-/

namespace Savannah

open Foundation PmState MemoryState

/-- A free block has more than `n` pages, and no allocation has failed. -/
structure PmState.Reserve (pool n : ℕ) (s : PmState) : Prop where
  room : s.memory.Room pool n
  ok : s.allocFailed = false

/-- PM before the first request, with the allocator `m` and the records `cpus`. -/
def PmState.initial (m : MemoryState) (cpus : ℕ → CpuInfo) (ncpus cpuinfoBase : ℕ) : PmState where
  memory := m
  words _ _ := 0
  fdTable _ _ := ⟨0, 0, 0, 0⟩
  cpus := cpus
  ncpus := ncpus
  has1GB := false
  cpuinfoBase := cpuinfoBase
  allocFailed := false
  arrayWrites := []
  posted := []
  openChannels := []
  live := ∅

section Alloc

variable {s : PmState} {pool n k : ℕ} {E : PmStop → PmState → Prop}

/-- Fresh pages come from the reserve; the rest of the state stays. -/
theorem allocPages_reserve (h : s.Reserve pool (n + k)) (hk : 0 < k) :
    wp (allocPages k) (fun a s' => a ≠ 0 ∧ ∃ m', s' = { s with memory := m' } ∧
      allocMemPages k s.memory = .ok (a, m') ∧ s'.Reserve pool n) E s := by
  obtain ⟨a, m', hm', hne, hroom⟩ := h.room.alloc hk
  exact allocPages_ok hm' hne ⟨hne, m', rfl, hm', hroom, h.ok⟩

/-- The tables of PM come from the reserve; a predicate `K` on the rest of the state is kept. -/
theorem pmTables_funded {K : PmState → Prop}
    (hK : ∀ s m w f, K s → K { s with memory := m, words := w, fdTable := f }) :
    pmTables.Funded (fun n s => s.Reserve pool n ∧ K s) E where
  write n t i e s h := ⟨⟨h.1.room, h.1.ok⟩, hK s s.memory _ s.fdTable h.2⟩
  newTable n s h := by
    change wp ((allocPages 1 >>= _) >>= _) _ E s
    rw [wp_bind]
    refine (allocPages_reserve h.1 Nat.one_pos).bind ?_
    rintro a s₁ ⟨ha, m', rfl, -, hres⟩
    rw [if_pos (Nat.pos_of_ne_zero ha), wp_bind, wp_modify, wp_pure, if_neg ha]
    exact ⟨⟨hres.room, hres.ok⟩, hK s m' _ _ h.2⟩
  less n s h := ⟨⟨h.1.room.of_le n.le_succ, h.1.ok⟩, h.2⟩

end Alloc

/-! ### `ept_pmap` -/

/-- A bound for the number of tables that `ept_pmap` creates. -/
def eptCost (vm : VmProc) : ℕ :=
  103618 + (vm.sections.map fun sec => 3 * pages sec.size size4KB).sum

section Pmap

variable {s : PmState} {pool n c : ℕ}

/-- A panic for another reason than a lack of memory. -/
def OtherStop (e : PmStop) (_ : PmState) : Prop := e ≠ .panic (.map .allocFailed)

/-- A stop with all allocations made so far successful. -/
def NoShortage (e : PmStop) (s : PmState) : Prop := OtherStop e s ∧ s.allocFailed = false

theorem mapStop_other (q : Stop MapPanic) (s : PmState) (h : q ≠ .panic .allocFailed) :
    OtherStop (mapStop q) s := by
  rcases q with (p | _ | _ | _)
  all_goals intro heq
  all_goals cases heq
  exact h rfl

section Calls

variable {P : ℕ → PmState → Prop} {E : PmStop → PmState → Prop} {ept : ℕ}

theorem eptUpdate_funded (hO : pmTables.Funded P E)
    (hstop : ∀ q n s, P n s → q ≠ .panic .allocFailed → E (mapStop q) s)
    {start stop paddr mtype prot : ℕ} (h : P (n + regionCost size4KB start stop) s) :
    wp (eptUpdate ept start stop paddr mtype prot) (fun _ s' => P n s') E s :=
  PmapOp.run_funded (t := .ept) (r := ept) (.map ⟨start, stop, paddr, prot, mtype⟩) hO hstop h

/-- What an identity page takes. -/
theorem eptIdentity_funded (hO : pmTables.Funded P E)
    (hstop : ∀ q n s, P n s → q ≠ .panic .allocFailed → E (mapStop q) s)
    {page mtype prot : ℕ} (h : P (n + 4) s) :
    wp (eptIdentity ept page mtype prot) (fun _ s' => P n s') E s :=
  eptUpdate_funded hO hstop (hO.of_le h (Nat.add_le_add_left (identityRegion_cost page prot) n))

/-- What the descriptors take. -/
theorem eptMapFds_funded (hO : pmTables.Funded P E)
    (hstop : ∀ q n s, P n s → q ≠ .panic .allocFailed → E (mapStop q) s) {fds : ℕ}
    (h : P (n + 132) s) : wp (eptMapFds ept fds) (fun _ s' => P n s') E s := by
  unfold eptMapFds
  refine wp_ite.mpr ⟨fun _ => ?_, fun _ => hO.of_le h (Nat.le_add_right n _)⟩
  refine (eptIdentity_funded (n := n + 128) hO hstop h).bind fun _ s₁ h₁ => ?_
  refine forM_funded_const (c := 4) (fun i _ n s h => ?_) h₁
  rw [wp_bind, wp_get]
  exact wp_ite.mpr ⟨fun _ => eptIdentity_funded hO hstop h,
    fun _ => hO.of_le h (Nat.le_add_right n _)⟩

end Calls

/-- With enough pages in reserve `ept_pmap` does not fail for lack of memory. -/
theorem eptPmap_reserve (hgb : s.has1GB = false)
    (h : s.Reserve pool (n + eptCost (s.cpus c).vm)) :
    wp (eptPmap c) (fun _ s' => s'.Reserve pool n) NoShortage s := by
  -- the sizes of the sections, on which the cost depends, do not change
  let sizes (s : PmState) := (s.cpus c).vm.sections.map VmSection.size
  let P n (s' : PmState) := s'.Reserve pool n ∧ s'.has1GB = false ∧ sizes s' = sizes s
  have hO : pmTables.Funded P NoShortage := pmTables_funded fun _ _ _ _ h => h
  have hstop : ∀ q n s, P n s → q ≠ .panic .allocFailed → NoShortage (mapStop q) s :=
    fun q _ s h hq => ⟨mapStop_other q s hq, h.1.ok⟩
  have hset : ∀ {n s} (f : VmProc → VmProc), (∀ v, (f v).sections = v.sections) → P n s →
      P n (s.updateVm c f) := fun f hf h => by
    refine ⟨⟨h.1.room, h.1.ok⟩, h.2.1, ?_⟩
    dsimp only [sizes]
    rw [updateVm_cpus, hf]
    exact h.2.2
  unfold eptCost at h
  generalize hT : ((s.cpus c).vm.sections.map fun sec => 3 * pages sec.size size4KB).sum = T at h
  have hcost : regionCost size4KB 0xB8000 0xB9000 = 4 ∧
      regionCost size4KB 0xFEC00000 0x100000000 = 15361 ∧
      regionCost size4KB 0xC0000000 0xC6000000 = 73729 := by decide
  have h₀ : P (n + (103618 + T)) s := ⟨h, hgb, rfl⟩
  have hguest : wp mapGuest (fun _ s' => P (n + T + 97471) s') NoShortage s := by
    change wp (get >>= fun s => guestTables pmTables mapStop
      (if s.has1GB then size1GB else size2MB)) _ _ s
    rw [wp_bind, wp_get, hgb]
    exact guestTables_funded hO hstop (hO.of_le h₀ (by omega))
  unfold eptPmap
  refine hguest.bind fun r s₁ h₁ => ?_
  rw [wp_bind, wp_modify]
  have h₂ := hset (fun vm => { vm with pageTables := r }) (fun _ => rfl) h₁
  refine (mapRegion_funded (n := n + T + 97467) hO hstop (hO.of_le h₂ (by omega))).bind
    fun e s₃ h₃ => ?_
  rw [wp_bind, wp_modify]
  have h₄ := hset (fun vm => { vm with ept := e }) (fun _ => rfl) h₃
  refine (eptUpdate_funded (n := n + T + 82106) hO hstop (hO.of_le h₄ (by omega))).bind
    fun _ s₅ h₅ => ?_
  rw [wp_bind, wp_get]
  have hT₅ : recordCost (s₅.cpus c).vm = 8241 + T := by
    have hmap : ∀ l : List VmSection, l.map (fun sec => 3 * pages sec.size size4KB) =
        (l.map VmSection.size).map fun z => 3 * pages z size4KB :=
        fun l => by rw [List.map_map]; rfl
    rw [recordCost, ← hT, hmap, hmap, show List.map VmSection.size _ = _ from h₅.2.2]
  refine record_funded (n := n + 73865) mapStop (s₅.cpus c) (s₅.cpus c).vm.access hO hstop rfl
    (hO.of_le h₅ (by rw [hT₅]; omega)) fun s₁₂ h₁₂ => ?_
  refine (eptMapFds_funded (n := n + 73733) hO hstop (hO.of_le h₁₂ (by omega))).bind
    fun _ s₁₃ h₁₃ => ?_
  have hlast : ∀ s, P (n + 73729) s → wp (eptUpdate e 0xC0000000 0xC6000000 0xC0000000 mtypeUc
      (eptRead ||| eptWrite)) (fun _ s' => s'.Reserve pool n) NoShortage s := fun s h =>
    (eptUpdate_funded hO hstop (hO.of_le h (by omega))).mono (fun _ _ h => h.1) fun _ _ h => h
  split
  · exact (eptIdentity_funded (n := n + 73729) hO hstop (hO.of_le h₁₃ (by omega))).bind
      fun _ s₁₄ h₁₄ => hlast s₁₄ h₁₄
  · exact hlast s₁₃ (hO.of_le h₁₃ (by omega))

end Pmap

end Savannah
