import Savannah.Pm.Supply

/-!
# The guest page tables of a VM

`ept_pmap` starts with three calls of `map_memory`, which build an identity map of the first 4GB.
On a machine without 1GB pages they take six pages from the allocator, and nothing else can go
wrong.  On a machine with 1GB pages the second region, which starts at 2MB, is not aligned.
-/

namespace Savannah

open Foundation PmState MemoryState

/-- The tables at `r` map every address below 4GB to itself; it is present and can be written, and
it is not cached iff it lies below 2MB or belongs to the devices from 0xFEC00000 on. -/
def IdentityTables (m : Tables) (r : ℕ) : Prop :=
  ∀ v < 2 ^ 32, (∃ prot, walk .page m r v = some ⟨v, prot, 0⟩ ∧ prot.testBit 0 ∧ prot.testBit 1 ∧
      (prot.testBit 4 ↔ v < size2MB ∨ 0xFEC00000 ≤ v)) ∧
    -- writing is also allowed by the entries on the way
    (m r (tableIndex 39 v)).testBit 1 ∧
    (m (entryAddr (m r (tableIndex 39 v))) (tableIndex 30 v)).testBit 1

section Identity

variable {m : Tables} {r : ℕ}

theorem testBit_one_of_flags {e : ℕ} (h : e % 4096 = 3) : e.testBit 1 = true := by
  rw [Nat.testBit_eq_decide_div_mod_eq, decide_eq_true_eq]
  omega

theorem guestProt_bits (v : ℕ) : (guestProt v).testBit 0 ∧ (guestProt v).testBit 1 ∧
    ((guestProt v).testBit 4 ↔ v < size2MB ∨ 0xFEC00000 ≤ v) := by
  unfold guestProt
  by_cases h : v < size2MB ∨ 0xFEC00000 ≤ v
  · rw [if_pos h]
    exact ⟨by decide, by decide, fun _ => h, fun _ => by decide⟩
  · rw [if_neg h]
    exact ⟨by decide, by decide, fun hbit => absurd hbit (by decide), fun hv => absurd hv h⟩

/-- The guest tree is the identity. -/
theorem GuestTree.identity (h : GuestTree m r)
    (haddr : ∀ a ∈ treeTables m size2MB r, a ≠ 0 ∧ a < 2 ^ 52) : IdentityTables m r := by
  intro v hv
  have hsize : IsPageSize size2MB := Or.inr (Or.inl rfl)
  obtain ⟨hroot, -, hpdpe, -⟩ := h.entries
  have htree : IsTree TableKind.page.tableFlags guestShape m size2MB r := h.tree
  have h₁ : tableIndex 39 v = 0 := by unfold tableIndex; omega
  have h₂ : tableIndex 30 v < 4 := by unfold tableIndex; omega
  obtain ⟨⟨hflags, -⟩, hsub⟩ := h.tree.interior 0 (by norm_num) hroot
  obtain ⟨⟨hflags', -⟩, -⟩ := hsub _ (by omega) (hpdpe _ h₂)
  have hmem : tableAddr (m r 0) ∈ treeTables m size2MB r :=
    child_mem_tables (by norm_num) hroot root_mem_tables
  have hentry : entryAddr (m r 0) = tableAddr (m r 0) := by
    have hlt := (haddr _ hmem).2
    unfold entryAddr tableAddr at *
    omega
  refine ⟨⟨guestProt v, ?_, guestProt_bits v⟩, ?_, ?_⟩
  · rw [h.realizes.walk hsize htree haddr (by omega), guest_translation hv]
  · rw [h₁]
    exact testBit_one_of_flags hflags
  · rw [h₁, hentry]
    exact testBit_one_of_flags hflags'

end Identity

/-! ### Enough pages -/

/-- The tables of PM as long as the allocator has pages. -/
theorem pmTables_supplied {s : PmState} {total : ℕ} (pool : ℕ) (X S : Multiset (ℕ × ℕ))
    (hpages : s.memory.HasPages total) :
    Supplied pmTables (fun t N => HoldsTables pool X S s t N ∧ TakesNext s.memory t N)
      (fun n t => t.memory.HasPages n ∧ ∃ Y, Ledger t.memory pool Y S)
      (fun _ _ => False) total where
  lawful := pmTables_takesNext s.memory fun _ _ => trivial
  funded := pmTables_hasPages pool S
  reserve t N n hown hle := by
    obtain ⟨hold, k, hN, hlen, hmem⟩ := hown
    rw [hN, Multiset.coe_card, hlen] at hle
    refine ⟨?_, _, hold.ledger⟩
    rw [hmem]
    exact (hpages.of_le hle).after

/-- With six free pages the guest page tables are built. -/
theorem mapGuest_supplied {s : PmState} {pool : ℕ} {X S : Multiset (ℕ × ℕ)}
    (hled : Ledger s.memory pool X S) (hpages : s.memory.HasPages 6) (hgb : s.has1GB = false) :
    wp mapGuest (fun r s' => GuestTree s'.words r ∧
      HoldsTables pool X S s s' (treeTables s'.words size2MB r)) (fun _ _ => False) s := by
  have hspec := mapGuest_spec (E := fun _ _ => True) hled (fun _ _ => trivial) fun _ _ _ => trivial
  have htotal : wp mapGuest (fun _ _ => True) (fun _ _ => False) s := by
    change wp (get >>= fun s => guestTables pmTables mapStop
      (if s.has1GB then size1GB else size2MB)) _ _ s
    rw [wp_bind, wp_get, hgb]
    exact guestTables_supplied (pmTables_supplied pool X S hpages)
      ⟨holdsTables_refl hled, 0, rfl, rfl, rfl⟩
  exact (hspec.and htotal).mono (fun _ _ h => ⟨h.1.1, h.1.2.1⟩) fun _ _ h => h.2

/-- On a machine with 1GB pages the calls do not return. -/
theorem mapGuest_1GB {s : PmState} {pool : ℕ} {X S : Multiset (ℕ × ℕ)}
    (hled : Ledger s.memory pool X S) (hgb : s.has1GB = true) :
    wp mapGuest (fun _ _ => False) (fun _ _ => True) s := by
  change wp (get >>= fun s => guestTables pmTables mapStop (if s.has1GB then size1GB else size2MB))
    _ _ s
  rw [wp_bind, wp_get, hgb]
  have hlaw : pmTables.Lawful (HoldsTables pool X S s) fun _ _ => True :=
    pmTables_lawful fun _ _ => trivial
  exact guestTables_1GB hlaw (holdsTables_refl hled) fun _ => trivial

/-- For every state of the allocator with enough free pages: the three calls at the start of
`ept_pmap` return, with the identity map of the first 4GB, iff the machine has no 1GB pages. -/
theorem mapGuest_identity_iff {s : PmState} {pool : ℕ} {L : List Block}
    (hmem : MemoryInv s.memory pool L) (hpages : s.memory.HasPages 6) :
    (∃ r s', mapGuest s = .ok r s' ∧ IdentityTables s'.words r) ↔ s.has1GB = false := by
  obtain ⟨S, hled⟩ := hmem.exists_ledger
  constructor
  · rintro ⟨r, s', hrun, -⟩
    by_contra hgb
    exact (mapGuest_1GB hled (Bool.not_eq_false _ ▸ hgb)).ok hrun
  · intro hgb
    obtain ⟨r, s', hrun, htree, hold⟩ := (mapGuest_supplied hled hpages hgb).exists_ok
      fun _ _ h => h
    have hlaw : pmTables.Lawful (HoldsTables pool 0 S s) fun _ _ => True :=
      pmTables_lawful fun _ _ => trivial
    exact ⟨r, s', hrun, htree.identity (hlaw.owned_addr s' _ hold)⟩

/-- A machine with 1GB of memory and without 1GB pages. -/
theorem mapGuest_identity_small : ∃ (m : MemoryState) (r : ℕ) (s' : PmState),
    memoryInit (fun _ => default) 4096 (2 ^ 30) = .ok m ∧ m.HasPages 6 ∧
    mapGuest (PmState.initial m (fun _ => default) 0 0) = .ok r s' ∧ IdentityTables s'.words r := by
  obtain ⟨m, hm, -, hopen, hled⟩ := memoryInit_1GB
  obtain ⟨L, hinv, -⟩ := hled.held
  have hpages : m.HasPages 6 := hopen.hasPages (by norm_num)
  obtain ⟨r, s', hrun, hid⟩ := (mapGuest_identity_iff
    (s := PmState.initial m (fun _ => default) 0 0) hinv hpages).mpr rfl
  exact ⟨m, r, s', hm, hpages, hrun, hid⟩

/-- The same machine with 1GB pages: PM panics, since 2MB is not a multiple of 1GB. -/
theorem mapGuest_large_pages : ∃ (m : MemoryState) (s' : PmState),
    memoryInit (fun _ => default) 4096 (2 ^ 30) = .ok m ∧ m.HasPages 6 ∧
    mapGuest { PmState.initial m (fun _ => default) 0 0 with has1GB := true } =
      .error (.panic (.map .notAligned)) s' := by
  obtain ⟨m, hm, -, hopen, hled⟩ := memoryInit_1GB
  refine ⟨m, ?_⟩
  set s := { PmState.initial m (fun _ => default) 0 0 with has1GB := true }
  have hfund : pmTables.Funded (fun n s => s.Reserve 260095 n ∧ True) OtherStop :=
    pmTables_funded fun _ _ _ _ h => h
  have hres : s.Reserve 260095 (0 + regionCost size1GB 0 size2MB) ∧ True :=
    ⟨⟨.of_openEnd hopen (by decide), rfl⟩, trivial⟩
  -- the allocator has pages for the first call, and the second one stops
  have hother : wp (guestTables pmTables mapStop size1GB) (fun _ _ => True) OtherStop s := by
    refine (mapRegion_funded hfund (fun q _ s _ => mapStop_other q s) hres).bind fun r s₁ _ => ?_
    have hthrow : mapMemory pmTables mapStop r size2MB 0xFEC00000 size2MB size1GB 3 mapUpdate =
        throw (mapStop (.panic .notAligned)) := rfl
    rw [hthrow, wp_bind, wp_throw]
    exact mapStop_other _ _ (by decide)
  have hstop : wp (guestTables pmTables mapStop size1GB) (fun _ _ => False)
      (fun e _ => e = .panic (.map .notAligned) ∨ e = .panic (.map .allocFailed)) s :=
    guestTables_1GB (pmTables_lawful fun _ _ => Or.inr rfl) (holdsTables_refl hled)
    fun _ => Or.inl rfl
  have hboth := hstop.and hother
  change ∃ s', _ ∧ _ ∧ guestTables pmTables mapStop size1GB s = _
  cases hrun : guestTables pmTables mapStop size1GB s with
  | ok r s' => exact absurd (hboth.ok hrun).1 id
  | error e s' =>
    obtain ⟨rfl | rfl, hne⟩ := hboth.error hrun
    · exact ⟨s', hm, hopen.hasPages (by norm_num), rfl⟩
    · exact absurd rfl hne

end Savannah
