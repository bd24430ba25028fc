import Savannah.Pm.Processes

/-!
# Waiting for children

A parent that calls `waitpid` is blocked until PM answers.  PM remembers in `vm_state` that it
waits, but not for whom, and never takes the mark back; `local_exit` does not mark the VM that
exits.  So what happens at an exit depends on one thing: whether `vm_state` of the parent is
`WAIT_CHLD` at that time.

The process table is sound in every run of PM (`procTable_sound`).  A VM keeps its CPU until it
exits (`ProcTable.Sound.keeps`), and `ProcTable.Sound.posts` lists what PM posts in its own name.
-/

namespace Savannah

open Foundation PmState

/-! ### Runs of PM -/

/-- A request with its sender. -/
structure PmEvent where
  sender : ℕ
  request : Request

/-- PM serves a request of one of the CPUs. -/
def pmStep (s : PmState) (e : PmEvent) (t : PmState) : Prop :=
  e.sender < s.ncpus ∧ handle e.sender e.request s = .ok () t

/-- The message to a parent about the exit of its child. -/
def exitReport (parent child : ℕ) (status : ℤ) : Post :=
  ⟨pmId, parent, waitpidIpc, .waitpid child (some status)⟩

/-- The records as the boot loader leaves them; what it does not set is zero. -/
structure PmState.Booted (s : PmState) : Prop where
  ncpus_le : s.ncpus ≤ maxCpus
  cpuid : ∀ i < s.ncpus, (s.cpus i).cpuid = i
  parent : ∀ i, (s.cpus i).vm.parent < s.ncpus
  state : ∀ i, (s.cpus i).vm.state = .unset

namespace ProcTable

/-- The step of the process table for an event. -/
def Next (p : ProcTable) (e : PmEvent) (q : ProcTable) : Prop :=
  e.sender < p.ncpus ∧ p.Step e.sender e.request q

/-- What holds of the process table in every run: CPUs know their number, parents are CPUs, and no
VM is a zombie. -/
structure Sound (p : ProcTable) : Prop where
  ncpus_le : p.ncpus ≤ maxCpus
  cpuid : ∀ i < p.ncpus, (p.procs i).cpuid = i
  parent : ∀ i, (p.procs i).parent < p.ncpus
  alive : ∀ i, (p.procs i).state ≠ .zombie

variable {p q : ProcTable} {c i : ℕ} {f : Proc → Proc} {req : Request} {e : PmEvent}

@[simp] theorem set_self : ((p.set i f).procs i) = f (p.procs i) := Function.update_self _ _ _

/-- The other entries stay. -/
theorem set_of_ne {j : ℕ} (h : j ≠ i) : (p.set i f).procs j = p.procs j :=
  Function.update_of_ne h _ _

@[simp] theorem set_posted : (p.set i f).posted = p.posted := rfl

@[simp] theorem post_procs (ms : List Post) : (p.post ms).procs = p.procs := rfl

@[simp] theorem post_posted (ms : List Post) : (p.post ms).posted = p.posted ++ ms := rfl

/-- A sound change. -/
theorem Sound.set (h : p.Sound) (hid : ∀ r, (f r).cpuid = r.cpuid)
    (hparent : (f (p.procs i)).parent < p.ncpus) (hstate : (f (p.procs i)).state ≠ .zombie) :
    (p.set i f).Sound := by
  refine ⟨h.ncpus_le, fun j hj => ?_, fun j => ?_, fun j => ?_⟩ <;> by_cases hji : j = i
  · rw [hji, set_self, hid]
    exact h.cpuid i (hji ▸ hj)
  · rw [set_of_ne hji]
    exact h.cpuid j hj
  · rw [hji, set_self]
    exact hparent
  · rw [set_of_ne hji]
    exact h.parent j
  · rw [hji, set_self]
    exact hstate
  · rw [set_of_ne hji]
    exact h.alive j

/-- Messages do not matter. -/
theorem Sound.post (h : p.Sound) (ms : List Post) : (p.post ms).Sound :=
  ⟨h.ncpus_le, h.cpuid, h.parent, h.alive⟩

/-- Every step keeps it sound. -/
theorem Sound.step (h : p.Sound) (hstep : p.Next e q) : q.Sound := by
  obtain ⟨c, req⟩ := e
  obtain ⟨hc, hstep⟩ := hstep
  dsimp only at hc hstep
  cases hstep with
  | forked hchild hfree =>
    apply Sound.post
    refine h.set (fun _ => rfl) ?_ nofun
    change (p.procs c).cpuid < p.ncpus
    rw [h.cpuid _ hc]
    exact hc
  | exitWaited hms hwait =>
    apply Sound.post
    exact h.set (fun _ => rfl) (h.parent _) (h.alive _)
  | exitUnwaited hms hwait =>
    apply Sound.post
    exact h.set (fun _ => rfl) (h.parent _) (h.alive _)
  | reaped hzombie => exact absurd hzombie (h.alive _)
  | waits hw => exact h.set (fun _ => rfl) (h.parent _) nofun
  | forkFailed => exact h.post _
  | exec r => exact h.post _
  | refused hw => exact h.post _
  | channel => exact h.post _
  | channelClose => exact h.post _
  | other => exact h.post _

/-- A message that PM posts in its own name is an answer to the request, the start message of a new
VM, or the report of an exit to a parent that is marked as waiting. -/
theorem Sound.posts (h : p.Sound) (hstep : p.Next e q) : ∃ ms, q.posted = p.posted ++ ms ∧
    ∀ m ∈ ms, m.slot = pmId →
      (m.dst = e.sender ∧ ∀ child st, m.data = .waitpid child st → child = -1) ∨
      (m.number = forkIpc ∧ ∃ r, m.data = .result r) ∨
      ∃ status, e.request = .exit status ∧
        (p.procs (p.procs e.sender).parent).state = .waitChld ∧
        m = exitReport (p.procs e.sender).parent e.sender status := by
  obtain ⟨c, req⟩ := e
  obtain ⟨hc, hstep⟩ := hstep
  dsimp only at hc hstep ⊢
  have hanswer : ∀ {n : ℕ} {d : Payload} {m : Post}, m ∈ [(⟨pmId, c, n, d⟩ : Post)] →
      (∀ child st, d = .waitpid child st → child = -1) →
      m.dst = c ∧ ∀ child st, m.data = .waitpid child st → child = -1 := by
    intro n d m hm hd
    rw [List.mem_singleton.mp hm]
    exact ⟨rfl, hd⟩
  cases hstep with
  | forkFailed => exact ⟨_, rfl, fun m hm _ => Or.inl (hanswer hm nofun)⟩
  | forked hchild hfree =>
    refine ⟨_, rfl, fun m hm _ => Or.inr (Or.inl ?_)⟩
    simp only [List.mem_cons, List.not_mem_nil, or_false] at hm
    rcases hm with rfl | rfl <;> exact ⟨rfl, _, rfl⟩
  | exitWaited hms hwait =>
    refine ⟨_, rfl, fun m hm hslot => Or.inr (Or.inr ⟨_, rfl, hwait, ?_⟩)⟩
    rcases List.mem_append.mp hm with hm | hm
    · rw [hms m hm] at hslot
      cases hslot
    · rw [List.mem_singleton.mp hm, h.cpuid c hc, h.cpuid _ (h.parent c)]
      rfl
  | exitUnwaited hms hwait =>
    refine ⟨_, rfl, fun m hm hslot => ?_⟩
    rw [hms m hm] at hslot
    cases hslot
  | refused hw =>
    refine ⟨_, rfl, fun m hm _ => Or.inl (hanswer hm fun child st heq => ?_)⟩
    exact (Payload.waitpid.inj heq).1.symm
  | reaped hzombie => exact absurd hzombie (h.alive _)
  | waits hw => exact ⟨[], (List.append_nil _).symm, fun m hm => absurd hm List.not_mem_nil⟩
  | exec r => exact ⟨_, rfl, fun m hm _ => Or.inl (hanswer hm nofun)⟩
  | channel => exact ⟨_, rfl, fun m hm _ => Or.inl (hanswer hm nofun)⟩
  | channelClose => exact ⟨_, rfl, fun m hm _ => Or.inl (hanswer hm nofun)⟩
  | other => exact ⟨_, rfl, fun m hm _ => Or.inl (hanswer hm nofun)⟩

/-- A VM that does not exit keeps its CPU and its parent. -/
theorem Sound.keeps (h : p.Sound) (hstep : p.Next e q) (hvm : (p.procs i).hasVm = true)
    (hexit : ∀ status, e ≠ ⟨i, .exit status⟩) :
    (q.procs i).hasVm = true ∧ (q.procs i).parent = (p.procs i).parent := by
  obtain ⟨c, req⟩ := e
  obtain ⟨-, hstep⟩ := hstep
  dsimp only at hstep
  cases hstep with
  | @forked _ child hchild hfree =>
    have hne : i ≠ child := by
      rintro rfl
      rw [hfree] at hvm
      cases hvm
    rw [post_procs, set_of_ne hne]
    exact ⟨hvm, rfl⟩
  | @exitWaited status _ hms hwait =>
    have hne : i ≠ c := by
      rintro rfl
      exact hexit status rfl
    rw [post_procs, set_of_ne hne]
    exact ⟨hvm, rfl⟩
  | @exitUnwaited status _ hms hwait =>
    have hne : i ≠ c := by
      rintro rfl
      exact hexit status rfl
    rw [post_procs, set_of_ne hne]
    exact ⟨hvm, rfl⟩
  | reaped hzombie => exact absurd hzombie (h.alive _)
  | waits hw =>
    by_cases hi : i = c
    · rw [hi, set_self]
      exact ⟨hi ▸ hvm, rfl⟩
    · rw [set_of_ne hi]
      exact ⟨hvm, rfl⟩
  | forkFailed => exact ⟨hvm, rfl⟩
  | exec r => exact ⟨hvm, rfl⟩
  | refused hw => exact ⟨hvm, rfl⟩
  | channel => exact ⟨hvm, rfl⟩
  | channelClose => exact ⟨hvm, rfl⟩
  | other => exact ⟨hvm, rfl⟩

end ProcTable

section Runs

variable {s s₀ t : PmState} {e : PmEvent} {evs : List PmEvent}

theorem pmStep.next (h : pmStep s e t) : s.procTable.Next e t.procTable := ⟨h.1, handle_step h.2⟩

theorem PmState.Booted.sound (h : s.Booted) : s.procTable.Sound :=
  ⟨h.ncpus_le, h.cpuid, h.parent, fun i hzombie => nomatch (h.state i).symm.trans hzombie⟩

/-- The table is sound in every run. -/
theorem procTable_sound (hboot : s₀.Booted) (hrun : Run pmStep s₀ evs s) : s.procTable.Sound :=
  hrun.invariant (I := fun s => s.procTable.Sound) (fun _ _ _ hstep h => h.step hstep.next)
    hboot.sound

end Runs

end Savannah
