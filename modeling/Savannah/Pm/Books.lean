import Savannah.Pm.Account
import Savannah.Pm.Registry
import Savannah.Pm.Processes

/-!
# The account and the channels

`local_channel` takes a page, maps it into the nested tables of both ends, and enters it into the
array of the driver; `local_channel_close` takes it out of the array and releases it.  `Books` is
the account (`Account`) together with the arrays: the array of a driver lists the open channels of
which it is the second end.

A request that does not return has met one of two obstacles: an allocation has failed, or the
request was not in order (`Halts`).  It never stops in `free_mem_pages`.
-/

namespace Savannah

open Foundation PmState MemoryState

/-- A stop for lack of memory, or of a request that is not in order (`P` says that it is); not in
`free_mem_pages`. -/
def Halts (P : Prop) (e : PmStop) (s : PmState) : Prop :=
  (∀ p, e ≠ .panic (.free p)) ∧ (s.allocFailed = true ∨ ¬ P)

theorem Halts.alloc {P : Prop} {s : PmState} (h : s.allocFailed = true) :
    Halts P (.panic (.map .allocFailed)) s := ⟨nofun, Or.inl h⟩

theorem Halts.map {P : Prop} (h : ¬ P) (q : Stop MapPanic) (s : PmState) :
    Halts P (mapStop q) s := by
  refine ⟨fun p heq => ?_, Or.inr h⟩
  rcases q with (q | _ | _ | _) <;> cases heq

/-- A weaker condition. -/
theorem Halts.mono {P Q : Prop} {e : PmStop} {s : PmState} (h : Halts P e s) (hQ : Q → P) :
    Halts Q e s := ⟨h.1, h.2.imp_right fun hP hq => hP (hQ hq)⟩

/-- Mapping into tables that may be anything: it keeps the rest of the state and does not stop in
`free_mem_pages`. -/
theorem eptUpdate_control {P : Prop} (hP : ¬ P) {s : PmState}
    {ept start stop paddr mtype prot : ℕ} :
    wp (eptUpdate ept start stop paddr mtype prot) (fun _ s' => s'.control = s.control)
      (Halts P) s := by
  have hO : pmTables.Funded (fun _ _ => True) (Halts P) := by
    refine ⟨fun _ _ _ _ _ _ => trivial, fun _ s _ => ?_, fun _ _ _ => trivial⟩
    change wp ((allocPages 1 >>= _) >>= _) _ _ s
    rw [wp_bind, wp_bind]
    unfold allocPages
    rw [wp_bind]
    unfold wp withMemory
    cases allocMemPages 1 s.memory with
    | error e =>
      refine ⟨fun p heq => ?_, Or.inr hP⟩
      rcases e with (q | _ | _ | _) <;> cases heq
    | ok r =>
      obtain ⟨a, m⟩ := r
      by_cases ha : a = 0
      · subst ha
        exact ⟨nofun, Or.inr hP⟩
      · simp [ha, bind, EStateM.bind, modify, modifyGet, MonadStateOf.modifyGet,
          EStateM.modifyGet, pure, EStateM.pure, Nat.pos_of_ne_zero ha]
  have hmap : wp (eptUpdate ept start stop paddr mtype prot) (fun _ _ => True) (Halts P) s :=
    PmapOp.run_funded (n := 0) (t := .ept) (r := ept)
      (.map ⟨start, stop, paddr, prot, mtype⟩) hO (fun q _ s _ _ => Halts.map hP q s) trivial
  have hsame := (inferInstance : IsWithin (Same PmState.control)
    (eptUpdate ept start stop paddr mtype prot)).within s
  exact (hmap.and hsame).mono (fun _ _ h => h.2) fun _ _ h => h.1

/-! ### Opening a channel -/

/-- The CPUs, which of them have a VM that was forked, and the place of their records. -/
def PmState.roster (s : PmState) : (ℕ → CpuInfo) × ℕ × Finset ℕ × ℕ :=
  (s.cpus, s.ncpus, s.live, s.cpuinfoBase)

/-- Channels were opened or closed: the records and the descriptors in the pages of `Y` are the
same, and the entries of arrays that were assigned have an index below `B`. -/
structure ChannelStep (B : ℕ) (Y : Multiset (ℕ × ℕ)) (s s' : PmState) : Prop where
  roster : s'.roster = s.roster
  fdTable : ∀ t n, (t, n) ∈ Y → s'.fdTable t = s.fdTable t
  writes : ∃ l, s'.arrayWrites = s.arrayWrites ++ l ∧ ∀ x ∈ l, x.2 < B
  layout : SameLayout s.memory s'.memory
  failed : s.allocFailed = true → s'.allocFailed = true

/-- The request for a channel is in order. -/
structure ChannelReady (s : PmState) (end1 end2 : ℕ) : Prop where
  ids : end1 ≤ maxCpus ∧ end2 ≤ maxCpus
  hasVm : (s.cpus end1).hasVm = true ∧ (s.cpus end2).hasVm = true
  driver : isDriver (s.cpus end2).cpuid = true
  array : (s.cpus end2).vm.channels ≠ 0

/-- The regions of the channels `os` that `c` is an end of. -/
def channelRegions (os : List OpenChannel) (c : ℕ) : List Region :=
  os.flatMap fun o => (if o.end1 = c then [channelRegion o.addr] else []) ++
    if o.end2 = c then [channelRegion o.addr] else []

/-- The views after channels have been mapped for both ends. -/
def mapChannels (maps : ℕ → View) (os : List OpenChannel) : ℕ → View := fun c =>
  { maps c with regions := (maps c).regions ++ channelRegions os c }

theorem mapChannels_nil (maps : ℕ → View) : mapChannels maps [] = maps := by
  funext c
  unfold mapChannels channelRegions
  rw [List.flatMap_nil, List.append_nil]

/-- Channels are mapped in order. -/
theorem mapChannels_append (maps : ℕ → View) (os os' : List OpenChannel) :
    mapChannels maps (os ++ os') = mapChannels (mapChannels maps os) os' := by
  funext c
  unfold mapChannels channelRegions
  rw [List.flatMap_append, List.append_assoc]

/-- `local_channel` maps the channel for one end after the other. -/
theorem mapChannels_singleton (maps : ℕ → View) (o : OpenChannel) : mapChannels maps [o] =
    Function.update (Function.update maps o.end1 ((maps o.end1).add (channelRegion o.addr))) o.end2
      ((Function.update maps o.end1 ((maps o.end1).add (channelRegion o.addr)) o.end2).add
        (channelRegion o.addr)) := by
  have hone : ∀ d, Function.update maps o.end1 ((maps o.end1).add (channelRegion o.addr)) d =
      ⟨(maps d).regions ++ if o.end1 = d then [channelRegion o.addr] else [], (maps d).guest⟩ := by
    intro d
    by_cases hd : d = o.end1
    · rw [hd, Function.update_self, if_pos rfl]
      rfl
    · rw [Function.update_of_ne hd, if_neg (Ne.symm hd), List.append_nil]
  funext d
  have hview : mapChannels maps [o] d = ⟨(maps d).regions ++
      ((if o.end1 = d then [channelRegion o.addr] else []) ++
        if o.end2 = d then [channelRegion o.addr] else []), (maps d).guest⟩ := by
    unfold mapChannels channelRegions
    rw [List.flatMap_singleton]
  by_cases hd : d = o.end2
  · rw [hd, Function.update_self, hone, ← hd, hview, if_pos hd.symm, View.add, List.append_assoc]
  · rw [Function.update_of_ne hd, hone, hview, if_neg (Ne.symm hd), List.append_nil]

section Channels

variable {pool a n c B : ℕ} {V : Finset ℕ} {maps : ℕ → View} {X S Y : Multiset (ℕ × ℕ)}
  {s s' t : PmState} {lists : ℕ → List ℕ}

theorem ChannelStep.refl (B : ℕ) (Y : Multiset (ℕ × ℕ)) (s : PmState) : ChannelStep B Y s s :=
  ⟨rfl, fun _ _ _ => rfl, ⟨[], (List.append_nil _).symm, fun _ h => absurd h List.not_mem_nil⟩,
    .refl _, id⟩

/-- Two steps. -/
theorem ChannelStep.trans (h : ChannelStep B Y s s') (h' : ChannelStep B Y s' t) :
    ChannelStep B Y s t := by
  obtain ⟨l, hl, hlB⟩ := h.writes
  obtain ⟨l', hl', hlB'⟩ := h'.writes
  refine ⟨h'.roster.trans h.roster, fun a n ha => (h'.fdTable a n ha).trans (h.fdTable a n ha),
    ⟨l ++ l', by rw [hl', hl, List.append_assoc], fun x hx => ?_⟩, h.layout.trans h'.layout,
    fun hf => h'.failed (h.failed hf)⟩
  rcases List.mem_append.mp hx with hx | hx
  · exact hlB x hx
  · exact hlB' x hx

theorem ChannelStep.of_subset (h : ChannelStep B Y s s') (hsub : ∀ x ∈ X, x ∈ Y) :
    ChannelStep B X s s' :=
  ⟨h.roster, fun t n ht => h.fdTable t n (hsub _ ht), h.writes, h.layout, h.failed⟩

/-- Assigning a descriptor outside of `Y`. -/
theorem ChannelStep.setFd (h : ChannelStep B Y s s') {p : ℕ} (hp : ∀ n, (p, n) ∉ Y) (i : ℕ)
    (fd : FileDescriptor) : ChannelStep B Y s (s'.setFd p i fd) := by
  refine ⟨h.roster, fun t n ht => ?_, h.writes, h.layout, h.failed⟩
  rw [← h.fdTable t n ht]
  refine funext fun j => if_neg ?_
  rintro ⟨rfl, -⟩
  exact hp n ht

theorem ChannelStep.cpus (h : ChannelStep B Y s s') : s'.cpus = s.cpus :=
  congrArg Prod.fst h.roster

theorem ChannelStep.live (h : ChannelStep B Y s s') : s'.live = s.live :=
  congrArg (fun r => r.2.2.1) h.roster

/-- The pages of the CPUs stay where they are. -/
theorem ChannelStep.cpuPages (h : ChannelStep B Y s s') (c : ℕ) :
    (s'.cpus c).ownPages (s'.infoAddr c) = (s.cpus c).ownPages (s.infoAddr c) := by
  have hbase : s'.cpuinfoBase = s.cpuinfoBase := congrArg (fun r => r.2.2.2) h.roster
  unfold PmState.infoAddr
  rw [h.cpus, hbase]

/-- A frame is a channel step. -/
theorem Frame.channelStep (h : Frame Y s s') (B : ℕ) : ChannelStep B Y s s' :=
  ⟨congrArg (fun k => (k.cpus, k.ncpus, k.live, k.cpuinfoBase)) h.control, h.fdTable, ⟨[], by
    rw [List.append_nil]
    exact congrArg Control.arrayWrites h.control, fun _ hx => absurd hx List.not_mem_nil⟩,
    h.layout, h.failed⟩

/-- A table is no other page that is held. -/
theorem Account.table_ne (h : Account pool V maps X S s) {p : ℕ} (ha : a ∈ s.tables V)
    (hp : (p, n) ∈ s.own V + (s.channelBlocks + X)) : a ≠ p := by
  rintro rfl
  have ha' : (a, 1) ∈ pageBlocks (s.tables V) := mem_pageBlocks.mpr ⟨ha, rfl⟩
  obtain rfl : 1 = n := h.ledger.eq_of_addr
    (Multiset.mem_add.mpr (Or.inl (Multiset.mem_add.mpr (Or.inl ha'))))
    (Multiset.mem_add.mpr (Or.inl (Multiset.mem_add.mpr (Or.inr hp))))
  exact Multiset.disjoint_left.mp (Multiset.nodup_add.mp h.ledger.nodup).2.2 ha' hp

/-- The open channels have different pages. -/
theorem Account.nodup_channels (h : Account pool V maps X S s) :
    (s.openChannels.map OpenChannel.addr).Nodup := by
  have hnd := (Multiset.nodup_add.mp (Multiset.nodup_add.mp (Multiset.nodup_add.mp
    h.ledger.nodup).2.1).2.1).1
  exact Multiset.coe_nodup.mp (Multiset.Nodup.of_map _ hnd)

/-- What the arrays depend on. -/
theorem PmState.Arrays.congr (h : s.Arrays lists) (hcpus : s'.cpus = s.cpus)
    (hw : ∀ d, (s.cpus d).vm.channels ≠ 0 →
      s'.words (s.cpus d).vm.channels = s.words (s.cpus d).vm.channels) : s'.Arrays lists := by
  constructor
  · intro d hd
    rw [hcpus] at hd ⊢
    rw [hw d hd]
    exact h.array d hd
  · rw [hcpus]
    exact h.apart

/-- Assigning entries of arrays that are held. -/
theorem Account.arraySteps {P : ℕ → ℕ → Prop} (h : Account pool V maps X S s)
    (hsteps : ArraySteps P s s')
    (hP : ∀ t i, P t i → ∃ n, (t, n) ∈ s.own V + (s.channelBlocks + X)) :
    Account pool V maps X S s' := by
  obtain ⟨w, l, rfl, hw, -⟩ := hsteps
  refine h.change (fun _ _ => rfl) (fun t ht => ?_) id rfl h.ledger
  refine funext fun i => hw t i fun hPt => ?_
  obtain ⟨n, hn⟩ := hP t i hPt
  exact h.table_ne ht hn rfl

/-- Array steps are channel steps. -/
theorem ArraySteps.channelStep {P : ℕ → ℕ → Prop} (h : ArraySteps P s s')
    (hP : ∀ t i, P t i → i < B) (Y : Multiset (ℕ × ℕ)) : ChannelStep B Y s s' := by
  obtain ⟨w, l, rfl, -, hl⟩ := h
  exact ⟨rfl, fun _ _ _ => rfl, ⟨l, rfl, fun x hx => hP _ _ (hl x hx)⟩, .refl _, id⟩

theorem wp_derefCpu {i : ℕ} {Q : ℕ → PmState → Prop} {E : PmStop → PmState → Prop}
    (hQ : i ≤ maxCpus → Q i s) (hE : maxCpus < i → E .nullPointer s) : wp (derefCpu i) Q E s := by
  unfold derefCpu getCpuInfo
  by_cases hi : i > maxCpus
  · rw [if_pos hi]
    exact hE hi
  · rw [if_neg hi]
    exact hQ (not_lt.mp hi)

/-- What opening a channel at `a` between two CPUs does. -/
structure ChannelOpened (pool : ℕ) (V : Finset ℕ) (maps : ℕ → View) (X S : Multiset (ℕ × ℕ))
    (lists : ℕ → List ℕ) (end1 end2 : ℕ) (s : PmState) (a : ℕ) (s' : PmState) : Prop where
  account : Account pool V (mapChannels maps [⟨a, end1, end2⟩]) X S s'
  arrays : s'.Arrays (Function.update lists end2 (addTo (lists end2) a))
  step : ChannelStep maxChannels (s.own V + (s.channelBlocks + X)) s s'
  opened : s'.openChannels = s.openChannels ++ [⟨a, end1, end2⟩]
  page : a ≠ 0 ∧ IsPage (2 ^ 32) a
  array : (s.cpus end2).vm.channels ≠ 0

/-- The last steps of `local_channel`, from the state in which the page is mapped for both ends. -/
theorem enterChannel_spec {end1 end2 : ℕ} {P : Prop}
    (h : Account pool V maps ((a, 1) ::ₘ X) S s) (harr : s.Arrays lists)
    (hheld : ∀ d, (s.cpus d).vm.channels ≠ 0 → ((s.cpus d).vm.channels, 1) ∈ s.own V + X)
    (hne : a ≠ 0) (hP : P → (s.cpus end2).vm.channels ≠ 0) :
    wp (do
        addChannelList end2 a
        modify fun s => { s with openChannels := s.openChannels ++ [⟨a, end1, end2⟩] }
        return a : Pm ℕ) (fun b s' => b = a ∧ Account pool V maps X S s' ∧
      s'.Arrays (Function.update lists end2 (addTo (lists end2) a)) ∧
      ChannelStep maxChannels Y s s' ∧ s'.openChannels = s.openChannels ++ [⟨a, end1, end2⟩] ∧
      (s.cpus end2).vm.channels ≠ 0) (Halts P) s := by
  refine (addChannelList_spec harr hne fun h0 => ⟨nofun, Or.inr fun hp => hP hp h0⟩).bind ?_
  rintro - s₁ ⟨hpage, harr₁, hsteps⟩
  have h₁ : Account pool V maps ((a, 1) ::ₘ X) S s₁ := by
    refine h.arraySteps hsteps ?_
    rintro t i ⟨rfl, -⟩
    refine ⟨1, ?_⟩
    have hmem := hheld end2 hpage
    simp only [Multiset.mem_add, Multiset.mem_cons] at hmem ⊢
    tauto
  have hstep := hsteps.channelStep (B := maxChannels) (fun t i hP => hP.2) Y
  have hchannels : s₁.openChannels = s.openChannels := by
    obtain ⟨w, l, rfl, -, -⟩ := hsteps
    rfl
  rw [wp_bind, wp_modify, wp_pure]
  refine ⟨rfl, ?_, ⟨harr₁.array, harr₁.apart⟩,
    ⟨hstep.roster, hstep.fdTable, hstep.writes, hstep.layout, hstep.failed⟩, by rw [hchannels],
    hpage⟩
  refine h₁.change (fun _ _ => rfl) (fun _ _ => rfl) id rfl ?_
  have hblocks : PmState.channelBlocks
      { s₁ with openChannels := s₁.openChannels ++ [⟨a, end1, end2⟩] } + X =
      s₁.channelBlocks + (a, 1) ::ₘ X := by
    unfold PmState.channelBlocks
    rw [List.map_append, ← Multiset.coe_add, pageBlocks_add, add_assoc, List.map_singleton,
      Multiset.coe_singleton]
    rfl
  rw [hblocks]
  exact h₁.ledger

/-- `local_channel`.  The first end is a VM that is counted; if the second is not, it has no
array, and PM panics. -/
theorem localChannel_spec {end1 end2 : ℕ} (h : Account pool V maps X S s) (harr : s.Arrays lists)
    (hheld : ∀ d, (s.cpus d).vm.channels ≠ 0 → ((s.cpus d).vm.channels, 1) ∈ s.own V + X)
    (h1 : end1 ∈ V) (h2 : (s.cpus end2).vm.channels ≠ 0 → end2 ∈ V) :
    wp (localChannel end1 end2) (ChannelOpened pool V maps X S lists end1 end2 s)
      (Halts (ChannelReady s end1 end2)) s := by
  unfold localChannel
  rw [wp_bind]
  refine wp_derefCpu (fun hid1 => ?_)
    fun hlt => ⟨nofun, Or.inr fun hr => absurd hr.ids.1 (by omega)⟩
  rw [wp_bind]
  refine wp_derefCpu (fun hid2 => ?_)
    fun hlt => ⟨nofun, Or.inr fun hr => absurd hr.ids.2 (by omega)⟩
  rw [wp_bind, wp_get]
  refine wp_ite.mpr ⟨fun hvm => ⟨nofun, Or.inr fun hr => by simp [hr.hasVm.1] at hvm⟩, fun _ => ?_⟩
  refine wp_ite.mpr ⟨fun hvm => ⟨nofun, Or.inr fun hr => by simp [hr.hasVm.2] at hvm⟩, fun _ => ?_⟩
  refine wp_ite.mpr ⟨fun hd => ⟨nofun, Or.inr fun hr => by simp [hr.driver] at hd⟩, fun _ => ?_⟩
  -- the page
  rw [show pages size4KB size4KB = 1 from rfl]
  refine (h.allocClean Nat.one_pos).bind ?_
  rintro a s₁ ⟨h₁, hframe₁, hgranted, -⟩
  refine wp_ite.mpr ⟨fun ha => ?_, fun ha => ?_⟩
  · refine ⟨nofun, Or.inl ?_⟩
    by_contra hok
    exact hgranted (Bool.not_eq_true _ ▸ hok) ha
  rw [blockAt_of_ne ha, Multiset.singleton_add] at h₁
  obtain ⟨-, -, hal, hend⟩ := h₁.addr_extra (Multiset.mem_cons_self _ _)
  have hpage : IsPage (2 ^ 32) a := ⟨hal, by omega⟩
  have hfits := channelRegion_fits hpage
  rw [← hframe₁.cpus]
  have hown : s₁.own V = s.own V := by
    unfold PmState.own
    rw [hframe₁.cpus]
  have hY : s.own V + (s.channelBlocks + X) ≤ s₁.own V + (s₁.channelBlocks + (a, 1) ::ₘ X) := by
    rw [hown, hframe₁.channelBlocks]
    exact add_le_add_right (add_le_add_right (Multiset.le_cons_self X _) _) _
  -- both ends map it
  refine (h₁.map h1 hfits fun _ => Halts.alloc).bind ?_
  rintro - s₂ ⟨h₂, hframe₂, -⟩
  have hframe₂' := hframe₁.trans (hframe₂.of_le hY)
  by_cases hmem2 : end2 ∈ V
  · rw [← hframe₂.cpus]
    have hY₂ : s.own V + (s.channelBlocks + X) ≤ s₂.own V + (s₂.channelBlocks + (a, 1) ::ₘ X) := by
      have hown₂ : s₂.own V = s₁.own V := by
        unfold PmState.own
        rw [hframe₂.cpus]
      rw [hown₂, hframe₂.channelBlocks]
      exact hY
    refine (h₂.map hmem2 hfits fun _ => Halts.alloc).bind ?_
    rintro - s₃ ⟨h₃, hframe₃, -⟩
    have hframe := hframe₂'.trans (hframe₃.of_le hY₂)
    have hcpus := hframe.cpus
    have hown₃ : s₃.own V = s.own V := by
      unfold PmState.own
      rw [hcpus]
    refine (enterChannel_spec (Y := s.own V + (s.channelBlocks + X))
      (P := ChannelReady s end1 end2) h₃ (harr.congr hcpus fun d hd => ?_)
      (fun d hd => ?_) ha fun hr => by rw [hcpus]; exact hr.array).mono ?_ fun _ _ he => he
    · refine hframe.words _ 1 ?_
      have hmem := hheld d hd
      simp only [Multiset.mem_add] at hmem ⊢
      tauto
    · rw [hcpus] at hd ⊢
      rw [hown₃]
      exact hheld d hd
    · rintro b s' ⟨rfl, haccount, harrays, hstep, hopened, hch⟩
      rw [hcpus] at hch
      refine ⟨?_, harrays, (hframe.channelStep _).trans hstep, ?_, ⟨ha, hpage⟩, hch⟩
      · rw [mapChannels_singleton]
        exact haccount
      · rw [hopened, hframe.openChannels]
  · -- without an array
    have hnone : (s.cpus end2).vm.channels = 0 := by
      by_contra hne
      exact hmem2 (h2 hne)
    have hnot : ¬ ChannelReady s end1 end2 := fun hr => hr.array hnone
    refine (eptUpdate_control hnot).bind fun _ s₃ hctl => ?_
    have hcpus₃ : s₃.cpus = s.cpus := (congrArg Control.cpus hctl).trans hframe₂'.cpus
    unfold addChannelList
    rw [wp_bind, wp_bind, wp_get]
    dsimp only
    rw [hcpus₃, if_pos hnone]
    exact ⟨nofun, Or.inr hnot⟩

end Channels

/-! ### The books -/

/-- The open channels whose second end is `d`. -/
def PmState.channelsOf (s : PmState) (d : ℕ) : List ℕ :=
  (s.openChannels.filter fun o => o.end2 = d).map OpenChannel.addr

/-- The account, and the arrays of the drivers. -/
structure Books (pool : ℕ) (V : Finset ℕ) (maps : ℕ → View) (X S : Multiset (ℕ × ℕ))
    (s : PmState) : Prop where
  account : Account pool V maps X S s
  arrays : s.Arrays s.channelsOf
  held : ∀ d, (s.cpus d).vm.channels ≠ 0 → ((s.cpus d).vm.channels, 1) ∈ s.own V + X
  listed : ∀ d, (s.cpus d).vm.channels = 0 → s.channelsOf d = []

section Books

variable {pool a c B : ℕ} {V : Finset ℕ} {maps : ℕ → View} {X S Y : Multiset (ℕ × ℕ)}
  {s s' : PmState}

/-- A new channel is listed once. -/
theorem channelsOf_append (h : s'.openChannels = s.openChannels ++ [⟨a, c, B⟩]) (d : ℕ) :
    s'.channelsOf d = Function.update s.channelsOf B (s.channelsOf B ++ [a]) d := by
  unfold PmState.channelsOf
  rw [h, List.filter_append, List.map_append]
  by_cases hd : d = B
  · subst hd
    rw [Function.update_self, List.filter_cons_of_pos (by simp)]
    rfl
  · rw [Function.update_of_ne hd, List.filter_cons_of_neg (by simpa using Ne.symm hd)]
    exact List.append_nil _

theorem channelsOf_sublist (s : PmState) (d : ℕ) :
    (s.channelsOf d).Sublist (s.openChannels.map OpenChannel.addr) :=
  List.filter_sublist.map _

/-- The channels to a driver. -/
theorem mem_channelsOf {d : ℕ} :
    a ∈ s.channelsOf d ↔ ∃ o ∈ s.openChannels, o.end2 = d ∧ o.addr = a := by
  simp only [PmState.channelsOf, List.mem_map, List.mem_filter, decide_eq_true_eq, and_assoc]

/-- Opening a channel for a driver whose array has room. -/
theorem Books.opened {end1 end2 : ℕ} (h : Books pool V maps X S s)
    (hopen : ChannelOpened pool V maps X S s.channelsOf end1 end2 s a s')
    (hroom : (s.channelsOf end2).length < maxChannels) :
    Books pool V (mapChannels maps [⟨a, end1, end2⟩]) X S s' := by
  have hlists : s'.channelsOf = Function.update s.channelsOf end2
      (addTo (s.channelsOf end2) a) := by
    rw [addTo, if_pos hroom]
    exact funext fun d => channelsOf_append hopen.opened d
  have hcpus := hopen.step.cpus
  have hown : s'.own V = s.own V := by
    unfold PmState.own
    rw [hcpus]
  refine ⟨hopen.account, by rw [hlists]; exact hopen.arrays, fun d hd => ?_, fun d hd => ?_⟩
  · rw [hcpus] at hd ⊢
    rw [hown]
    exact h.held d hd
  · rw [hcpus] at hd
    have hne : d ≠ end2 := by
      rintro rfl
      exact hopen.array hd
    rw [hlists, Function.update_of_ne hne]
    exact h.listed d hd

/-- Steps that touch neither the memory of the VMs nor the channels. -/
theorem Books.update (h : Books pool V maps X S s)
    (hvm : ∀ c ∈ V, (s'.cpus c).vm.holdings = (s.cpus c).vm.holdings)
    (hch : ∀ d, (s'.cpus d).vm.channels = (s.cpus d).vm.channels)
    (hw : s'.words = s.words) (hfail : s'.allocFailed = s.allocFailed) (hmem : s'.memory = s.memory)
    (hopen : s'.openChannels = s.openChannels) : Books pool V maps X S s' := by
  have hlists : s'.channelsOf = s.channelsOf := by
    unfold PmState.channelsOf
    rw [hopen]
  have hown : s'.own V = s.own V := Finset.sum_congr rfl fun c hc => VmProc.own_congr (hvm c hc)
  refine ⟨h.account.update hvm hw hfail hmem hopen, ⟨fun d hd => ?_, fun d e hd => ?_⟩,
    fun d hd => ?_, fun d hd => ?_⟩
  · rw [hch] at hd ⊢
    rw [hw, hlists]
    exact h.arrays.array d hd
  · rw [hch] at hd ⊢
    rw [hch]
    exact h.arrays.apart d e hd
  · rw [hch] at hd ⊢
    rw [hown]
    exact h.held d hd
  · rw [hch] at hd
    rw [hlists]
    exact h.listed d hd

/-- Descriptors are not in the books. -/
theorem Books.setFd (h : Books pool V maps X S s) (p i : ℕ) (fd : FileDescriptor) :
    Books pool V maps X S (s.setFd p i fd) :=
    h.update (fun _ _ => rfl) (fun _ => rfl) rfl rfl rfl rfl

/-- The open channels without one of them. -/
theorem filter_channels {l : List OpenChannel} (hnd : (l.map OpenChannel.addr).Nodup) (a : ℕ) :
    (l.filter fun o => o.addr ≠ a).map OpenChannel.addr = (l.map OpenChannel.addr).erase a := by
  rw [hnd.erase_eq_filter, List.filter_map]
  congr 1
  refine List.filter_congr fun o _ => ?_
  rw [Function.comp_apply, bne, beq_eq_decide, decide_not]

/-- A closed channel is listed no more. -/
theorem channelsOf_filter (hnd : (s.openChannels.map OpenChannel.addr).Nodup)
    (h : s'.openChannels = s.openChannels.filter fun o => o.addr ≠ a) (d : ℕ) :
    s'.channelsOf d = (s.channelsOf d).erase a := by
  unfold PmState.channelsOf
  rw [h, List.filter_comm, filter_channels]
  exact hnd.sublist (List.filter_sublist.map _)

/-- A channel leaves the account. -/
theorem erase_channel {T O C : Multiset (ℕ × ℕ)} {x : ℕ × ℕ} (hx : x ∈ C) :
    T + (O + (C.erase x + X)) = (T + (O + (C + X))).erase x := by
  rw [show T + (O + (C + X)) = C + (T + (O + X)) by abel, Multiset.erase_add_left_pos _ hx]
  abel

/-- `local_channel_close` for a channel that is open.  The array of its driver must not be full; for
an array of `n` entries the loop may assign the entry `n + 1`. -/
theorem Books.close (h : Books pool V maps X S s) (hncpus : s.ncpus ≤ maxCpus)
    (hall : ∀ d, (s.cpus d).vm.channels ≠ 0 → d < s.ncpus)
    (hB : ∀ d, a ∈ s.channelsOf d → (s.channelsOf d).length + 2 ≤ B) (hB' : B ≤ maxChannels + 1) :
    wp (localChannelClose a) (fun _ s' => Books pool V maps X S s' ∧ ChannelStep B Y s s' ∧
      s'.openChannels = s.openChannels.filter (fun o => o.addr ≠ a) ∧
      a ∈ s.openChannels.map OpenChannel.addr ∧ s'.memory.Unused a)
      (Halts (a ∈ s.openChannels.map OpenChannel.addr)) s := by
  have hnodup := h.account.nodup_channels
  have hlist : a ∈ s.openChannels.map OpenChannel.addr →
      ∃ d, (s.cpus d).vm.channels ≠ 0 ∧ a ∈ s.channelsOf d := by
    intro ha
    obtain ⟨o, ho, rfl⟩ := List.mem_map.mp ha
    have hmem : o.addr ∈ s.channelsOf o.end2 := mem_channelsOf.mpr ⟨o, ho, rfl, rfl⟩
    exact ⟨o.end2, fun h0 => by simp [h.listed _ h0] at hmem, hmem⟩
  have hblock : a ∈ s.openChannels.map OpenChannel.addr → (a, 1) ∈ s.channelBlocks := fun ha =>
    mem_pageBlocks.mpr ⟨Multiset.mem_coe.mpr ha, rfl⟩
  unfold localChannelClose
  refine (removeChannelList_spec (E := Halts (a ∈ s.openChannels.map OpenChannel.addr)) h.arrays
    hncpus hall (fun d => hnodup.sublist (channelsOf_sublist s d)) (fun d _ hmem => ?_)
    (fun h0 => ⟨nofun, Or.inr fun ha => ?_⟩)
    (fun habs s' => ⟨nofun, Or.inr fun ha => ?_⟩)).bind ?_
  · have := hB d hmem
    omega
  · refine (h.account.addr (n := 1) ?_).2.1 h0
    simp only [Multiset.mem_add]
    exact Or.inl (Or.inr (Or.inr (Or.inl (hblock ha))))
  · obtain ⟨d, hd, hmem⟩ := hlist ha
    exact habs d hd hmem
  rintro - s₁ ⟨⟨d, hd, hmem⟩, harrays, hsteps⟩
  have hopen : a ∈ s.openChannels.map OpenChannel.addr := (channelsOf_sublist s d).subset hmem
  have hsame : s₁.openChannels = s.openChannels ∧ s₁.memory = s.memory := by
    obtain ⟨w, l, rfl, -, -⟩ := hsteps
    exact ⟨rfl, rfl⟩
  have h₁ : Account pool V maps X S s₁ := by
    refine h.account.arraySteps hsteps ?_
    rintro t i ⟨e, rfl, hne, -, -⟩
    refine ⟨1, ?_⟩
    have hmem := h.held e hne
    simp only [Multiset.mem_add] at hmem ⊢
    tauto
  have hstep : ChannelStep B Y s s₁ := by
    refine hsteps.channelStep ?_ Y
    rintro t i ⟨e, -, -, hmem, hi⟩
    have := hB e hmem
    omega
  -- the page is released
  have hmem₁ : (a, 1) ∈ pageBlocks (s₁.tables V) + (s₁.own V + (s₁.channelBlocks + X)) := by
    have hblock₁ : (a, 1) ∈ s₁.channelBlocks := by
      unfold PmState.channelBlocks
      rw [hsame.1]
      exact hblock hopen
    simp only [Multiset.mem_add]
    exact Or.inr (Or.inr (Or.inl hblock₁))
  obtain ⟨m', hm', hlay, hled⟩ := h₁.ledger.freeExclusive hmem₁
  rw [wp_bind]
  unfold wp
  rw [freePages_ok hm']
  dsimp only
  set s₂ : PmState := { s₁ with
    memory := m', openChannels := s₁.openChannels.filter fun o => o.addr ≠ a } with hs₂
  change Books pool V maps X S s₂ ∧ ChannelStep B Y s s₂ ∧ s₂.openChannels = _ ∧ _ ∧ m'.Unused a
  have hfilter : s₂.openChannels = s.openChannels.filter fun o => o.addr ≠ a := by
    rw [← hsame.1]
  have hcpus : s₂.cpus = s.cpus := hsteps.cpus
  have hown : s₂.own V = s.own V := by
    unfold PmState.own
    rw [hcpus]
  have hlists : s₂.channelsOf = fun d => (s.channelsOf d).erase a :=
    funext fun d => channelsOf_filter hnodup hfilter d
  refine ⟨⟨?_, ?_, fun d hd => ?_, fun d hd => ?_⟩, ?_, hfilter, hopen, h₁.ledger.unused hmem₁ hled⟩
  · refine h₁.change (fun _ _ => rfl) (fun _ _ => rfl) id hlay.firstFree ?_
    have hblocks : s₂.channelBlocks = s₁.channelBlocks.erase (a, 1) := by
      have hinj : Function.Injective fun a : ℕ => (a, 1) := fun a b hab => (Prod.mk.inj hab).1
      unfold PmState.channelBlocks pageBlocks
      rw [hfilter, hsame.1, filter_channels hnodup, ← Multiset.coe_erase,
        Multiset.map_erase _ hinj]
    have hin : (a, 1) ∈ s₁.channelBlocks := by
      unfold PmState.channelBlocks
      rw [hsame.1]
      exact hblock hopen
    rw [hblocks]
    convert hled using 1
    exact erase_channel hin
  · rw [hlists]
    exact ⟨harrays.array, harrays.apart⟩
  · rw [hcpus] at hd ⊢
    rw [hown]
    exact h.held d hd
  · rw [hcpus] at hd
    rw [hlists]
    dsimp only
    rw [h.listed d hd]
    rfl
  · exact ⟨hstep.roster, hstep.fdTable, hstep.writes, hstep.layout.trans hlay, hstep.failed⟩

end Books

end Savannah
