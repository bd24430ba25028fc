import Savannah.Foundation.Run
import Savannah.Pm.State

/-!
# Launching and stopping guests

Each CPU runs a VMM (`vmm_main`, `host_entry`) and under it a guest, and PM prepares and frees the
record of its VM.  The VMM learns from two things that it has a VM to launch: the flag `vmm_has_vm`
and a message in the slot of PM in its `msg_input`.  A guest that calls `exit` or `exec` sends the
request and then leaves the guest mode with `vmcall`; a guest that sends another request stays in
the guest mode until it has the answer.

A step of a VMM or guest changes its own CPU only (`cpuStep`); PM serves one request after the other
(`take`, `pmStep`).  After the broadcast of the start, these steps interleave in any order.

A record is complete when `local_fork`, `load_elf` with `ept_pmap`, or the boot loader has filled
it, and no page of it has been freed.  A guest may run on a record that is not complete, for three
reasons: PM sets `vmm_has_vm` before it fills the record; it serves `exit` and `exec` before the
guest has left; and it answers a `waitpid` that nobody waits for.  Without these (`Orderly`) every
guest runs on a complete record, in every run (`guests_sound_of_run`).
-/

namespace Savannah.Launch

open Foundation

/-! ### The CPUs -/

/-- The requests that a guest sends to PM. -/
inductive Request where
  | fork
  | exec
  | exit
  | waitpid (pid : ℤ)
  /-- A request that PM answers without touching a VM. -/
  | other (answer : ℤ)
  deriving DecidableEq, Repr

/-- A guest that sends one of these leaves the guest mode. -/
def Request.leaves : Request → Bool
  | .exec => true
  | .exit => true
  | _ => false

/-- How far PM or the boot loader is with a record. -/
inductive Stage where
  | building
  | complete
  | freed
  deriving DecidableEq, Repr

/-- The record of a VM; each new VM of a CPU has a new number. -/
structure Record where
  gen : ℕ
  stage : Stage
  deriving DecidableEq, Repr

/-- Where a CPU is. -/
inductive Phase where
  /-- In `vmm_main`: in the first `msg_receive`, about to test `vmm_has_vm`, in the second one. -/
  | boot
  | test
  | wait
  /-- About to launch the VM that the record describes. -/
  | launch
  /-- In the guest, launched with the record `gen`. -/
  | guest (gen : ℕ)
  /-- In the guest, having sent a request: in `msg_receive`, or about to execute `vmcall`. -/
  | asked (gen : ℕ) (r : Request)
  /-- In the `msg_receive` of `host_entry`. -/
  | host
  deriving DecidableEq, Repr

/-- A CPU, with the fields of its `cpu_info`. -/
structure Cpu where
  phase : Phase
  /-- `vmm_has_vm` -/
  hasVm : Bool
  record : Record
  /-- `vm_parent` -/
  parent : ℕ
  /-- `vm_state` -/
  state : VmState
  /-- The request in `msg_output` that is marked for PM. -/
  output : Option Request
  /-- The message in the slot of PM in `msg_input`, by the `int` it begins with. -/
  input : Option ℤ
  deriving DecidableEq, Repr

/-- The steps of a VMM and its guest. -/
inductive CpuEvent where
  | receive
  | test
  | launch
  | send (r : Request)
  | vmcall
  deriving DecidableEq, Repr

/-- `msg_receive` of a message: of `vmm_main`, of the guest, or of `host_entry`, which launches the
VM again (or resumes it, if `exec` has failed). -/
def receive (x : Cpu) : Option Cpu :=
  match x.input, x.phase with
  | some _, .boot => some { x with input := none, phase := .test }
  | some _, .wait => some { x with input := none, phase := .launch }
  | some _, .host => some { x with input := none, phase := .launch }
  | some _, .asked g r => if r.leaves then none else some
      { x with input := none, phase := .guest g }
  | _, _ => none

/-- One step of a CPU. -/
def cpuStep (x : Cpu) : CpuEvent → Option Cpu
  | .receive => receive x
  | .test =>
    if x.phase = .test then some { x with phase := if x.hasVm then .launch else .wait } else none
  | .launch => if x.phase = .launch then some { x with phase := .guest x.record.gen } else none
  | .send r =>
    match x.phase with
    | .guest g => some { x with phase := .asked g r, output := some r }
    | _ => none
  | .vmcall =>
    match x.phase with
    | .asked _ r => if r.leaves then some { x with phase := .host } else none
    | _ => none

/-! ### PM -/

/-- Where PM is. -/
inductive PmPhase where
  /-- In `msg_check`. -/
  | idle
  /-- In `local_fork` for the parent `p`, with `vmm_has_vm` of `c` set. -/
  | forkFill (p c : ℕ)
  /-- About to post the start message. -/
  | forkStart (p c : ℕ)
  /-- In `local_exec`, waiting for FS; in `ept_pmap`, with the old pages freed. -/
  | execLoad (p : ℕ)
  | execMap (p : ℕ)
  /-- In `local_exit`, with the pages freed. -/
  | exitNotify (c : ℕ)
  /-- About to reply. -/
  | reply (p : ℕ) (r : ℤ)
  deriving DecidableEq, Repr

/-- The machine. -/
structure Sys where
  ncpus : ℕ
  cpu : ℕ → Cpu
  pm : PmPhase

/-- Changing a CPU. -/
def Sys.set (s : Sys) (c : ℕ) (x : Cpu) : Sys := { s with cpu := Function.update s.cpu c x }

/-- `find_free_vm` -/
def Sys.findFreeVm (s : Sys) : Option ℕ :=
  (List.range s.ncpus).find? fun i => alwaysBusy ≤ i ∧ (s.cpu i).hasVm = false

/-- The child that `local_waitpid` finds: none is a zombie, or it is not to be found. -/
def Sys.zombie (s : Sys) (p : ℕ) (pid : ℤ) : Option ℕ :=
  if pid ≠ -1 then
    if (s.cpu pid.toNat).state = .zombie then some pid.toNat else none
  else
    (List.range maxCpus).find? fun i =>
      alwaysBusy ≤ i ∧ (s.cpu i).parent = p ∧ (s.cpu i).state = .zombie

/-- `local_waitpid` -/
def localWaitpid (s : Sys) (p : ℕ) (pid : ℤ) : Sys :=
  if pid < -1 ∨ pid > maxCpus ∨ (pid ≠ -1 ∧ (s.cpu pid.toNat).parent ≠ p) then
    { s with pm := .reply p (-1) }
  else
    match s.zombie p pid with
    | some c => { s.set c { s.cpu c with hasVm := false } with pm := .reply p c }
    | none => s.set p { s.cpu p with state := .waitChld }

/-- `local_fork` up to setting `vmm_has_vm` and the first fields. -/
def localFork (s : Sys) (p : ℕ) : Sys :=
  match s.findFreeVm with
  | none => { s with pm := .reply p (-1) }
  | some c =>
    { s.set c { s.cpu c with
        hasVm := true
        parent := p
        state := .running
        record := ⟨(s.cpu c).record.gen + 1, .building⟩ } with pm := .forkFill p c }

/-- `msg_check` returns the request of `p`, and PM begins to serve it. -/
def take (s : Sys) (p : ℕ) : Option Sys :=
  match s.pm, (s.cpu p).output with
  | .idle, some r =>
    let s := s.set p { s.cpu p with output := none }
    match r with
    | .fork => some (localFork s p)
    | .exec => some { s with pm := .execLoad p }
    | .exit => some { s.set p { s.cpu p with
        record := ⟨(s.cpu p).record.gen, .freed⟩ } with pm := .exitNotify p }
    | .waitpid pid => some (localWaitpid s p pid)
    | .other answer => some { s with pm := .reply p answer }
  | _, _ => none

/-- `msg_reply (PM, c, …)` -/
def Sys.post (s : Sys) (c : ℕ) (r : ℤ) : Sys := s.set c { s.cpu c with input := some r }

/-- The next step of PM; `found` says whether FS has the file of an `exec`. -/
def pmStep (s : Sys) (found : Bool) : Option Sys :=
  match s.pm with
  | .idle => none
  | .forkFill p c => some { s.set c { s.cpu c with
      record := ⟨(s.cpu c).record.gen, .complete⟩ } with pm := .forkStart p c }
  | .forkStart p c => some { s.post c c with pm := .reply p c }
  | .execLoad p =>
    if found then
      some { s.set p { s.cpu p with
        record := ⟨(s.cpu p).record.gen + 1, .building⟩ } with pm := .execMap p }
    else some { s with pm := .reply p (-1) }
  | .execMap p => some { s.set p { s.cpu p with
      record := ⟨(s.cpu p).record.gen, .complete⟩ } with pm := .reply p 0 }
  | .exitNotify c =>
    let parent := (s.cpu c).parent
    if (s.cpu parent).state = .waitChld then
      some { (s.set c { s.cpu c with hasVm := false }).post parent c with pm := .idle }
    else some { s with pm := .idle }
  | .reply p r => some { s.post p r with pm := .idle }

/-- The steps of the machine. -/
inductive Event where
  | cpu (c : ℕ) (e : CpuEvent)
  | take (p : ℕ)
  | pm (found : Bool)
  deriving DecidableEq, Repr

/-- One step; the CPU of PM takes none of its own. -/
def step (s : Sys) : Event → Option Sys
  | .cpu c e => if c = pmId then none else (cpuStep (s.cpu c) e).map (s.set c)
  | .take p => take s p
  | .pm found => pmStep s found

/-- The steps as a relation. -/
def Step (s : Sys) (ev : Event) (s' : Sys) : Prop := step s ev = some s'

/-- The state after the broadcast: each VMM has a message to receive, and the VMs of the boot loader
are complete. -/
structure Sys.Initial (s : Sys) : Prop where
  pm : s.pm = .idle
  output : ∀ c, (s.cpu c).output = none
  state : ∀ c, (s.cpu c).state = .unset ∨ (s.cpu c).state = .running
  boot : ∀ c, (s.cpu c).hasVm = true → (s.cpu c).record.stage = .complete
  phase : ∀ c, ((s.cpu c).phase = .boot ∧ (s.cpu c).input ≠ none) ∨
    ((s.cpu c).phase = .guest (s.cpu c).record.gen ∧ c = pmId ∧ (s.cpu c).hasVm = true ∧
      (s.cpu c).input = none)

/-! ### The property -/

/-- The record that a CPU has launched its guest with, while it executes the guest. -/
def Phase.executing : Phase → Option ℕ
  | .guest g => some g
  | .asked g _ => some g
  | _ => none

/-- Every guest that runs was launched with the record that its CPU still has, and which is
complete. -/
def Sys.Sound (s : Sys) : Prop :=
  ∀ c g, (s.cpu c).phase.executing = some g → (s.cpu c).record = ⟨g, .complete⟩

/-- A guest that waits for a child. -/
def Phase.waitsForChild : Phase → Bool
  | .asked _ (.waitpid _) => true
  | _ => false

/-- The steps without the three races: a CPU is chosen for a fork when its VMM has tested
`vmm_has_vm` and waits for a message; `exit` and `exec` are served when the guest has left; and a
parent that is told of the exit of a child waits for it, with its request taken. -/
def Orderly (s : Sys) : Event → Bool
  | .cpu _ _ => true
  | .take p =>
    match (s.cpu p).output with
    | some .fork => s.findFreeVm.all fun c => (s.cpu c).phase = .wait ∨ (s.cpu c).phase = .host
    | some .exec => (s.cpu p).phase = .host
    | some .exit => (s.cpu p).phase = .host
    | _ => true
  | .pm _ =>
    match s.pm with
    | .exitNotify c =>
      let parent := s.cpu (s.cpu c).parent
      parent.state ≠ .waitChld ∨ parent.output = none ∧ parent.phase.waitsForChild = true
    | _ => true

/-! ### The invariant -/

/-- What holds of a CPU by itself. -/
def CpuOk (x : Cpu) : Prop :=
  match x.phase with
  | .boot => x.output = none ∧ (x.hasVm = true → x.record.stage = .complete)
  | .test => x.output = none ∧ x.input = none ∧ (x.hasVm = true → x.record.stage = .complete)
  | .wait => x.output = none ∧ (x.input ≠ none → x.record.stage = .complete ∧ x.hasVm = true)
  | .launch => x.output = none ∧ x.input = none ∧ x.record.stage = .complete ∧ x.hasVm = true
  | .guest g => x.output = none ∧ x.input = none ∧ x.record = ⟨g, .complete⟩ ∧ x.hasVm = true
  | .asked g r => x.record = ⟨g, .complete⟩ ∧ x.hasVm = true ∧
      (x.output = some r ∧ x.input = none ∨ x.output = none ∧ r.leaves = false)
  | .host => (∀ r, x.output = some r →
      r.leaves = true ∧ x.record.stage = .complete ∧ x.hasVm = true ∧ x.input = none) ∧
      (x.input ≠ none → x.record.stage = .complete ∧ x.hasVm = true ∧ x.output = none)

/-- A CPU that takes no step before it has a message: a VMM that waits, or a guest that waits for an
answer. -/
structure Parked (x : Cpu) : Prop where
  output : x.output = none
  input : x.input = none
  phase : x.phase = .wait ∨ x.phase = .host ∨ ∃ g r, x.phase = .asked g r ∧ r.leaves = false

/-- A CPU whose record PM works on. -/
structure Stopped (x : Cpu) : Prop where
  output : x.output = none
  input : x.input = none
  phase : x.phase = .wait ∨ x.phase = .host

/-- A CPU that may be answered. -/
structure Client (x : Cpu) : Prop where
  parked : Parked x
  complete : x.record.stage = .complete
  hasVm : x.hasVm = true

/-- What holds of the CPUs that PM works for. -/
def PmOk (cpu : ℕ → Cpu) : PmPhase → Prop
  | .idle => True
  | .forkFill p c => Client (cpu p) ∧ p ≠ c ∧ Stopped (cpu c) ∧ (cpu c).hasVm = true
  | .forkStart p c => Client (cpu p) ∧ p ≠ c ∧ Stopped (cpu c) ∧ (cpu c).hasVm = true ∧
      (cpu c).record.stage = .complete
  | .execLoad p => Client (cpu p) ∧ Stopped (cpu p)
  | .execMap p => Stopped (cpu p) ∧ (cpu p).hasVm = true
  | .exitNotify c => Stopped (cpu c) ∧ (cpu c).phase = .host
  | .reply p _ => Client (cpu p)

/-- The invariant of the machine. -/
structure Inv (s : Sys) : Prop where
  cpu : ∀ c, CpuOk (s.cpu c)
  pm : PmOk s.cpu s.pm
  noZombie : ∀ c, (s.cpu c).state ≠ .zombie

/-! ### The steps of a CPU -/

section Cpu

variable {x y : Cpu} {e : CpuEvent} {s s' : Sys} {c p : ℕ}

theorem Stopped.parked (h : Stopped x) : Parked x :=
  ⟨h.output, h.input, h.phase.imp_right Or.inl⟩

/-- A CPU that is parked takes no step. -/
theorem Parked.cpuStep_eq_none (h : Parked x) : cpuStep x e = none := by
  obtain ⟨-, hin, hphase⟩ := h
  rcases hphase with hphase | hphase | ⟨g, r, hphase, hr⟩ <;> cases e <;>
    simp [cpuStep, receive, *]

/-- A step keeps what holds of the CPU. -/
theorem CpuOk.step (h : CpuOk x) (hstep : cpuStep x e = some y) : CpuOk y := by
  unfold CpuOk at h
  cases e with
  | receive =>
    dsimp only [cpuStep, receive] at hstep
    have hsome : ∀ {r : ℤ}, x.input = some r → x.input ≠ none := fun heq => by rw [heq]; simp
    split at hstep
    · rename_i hin hphase
      rw [hphase] at h
      cases hstep
      exact ⟨h.1, rfl, h.2⟩
    · rename_i hin hphase
      rw [hphase] at h
      cases hstep
      exact ⟨h.1, rfl, h.2 (hsome hin)⟩
    · rename_i hin hphase
      rw [hphase] at h
      cases hstep
      obtain ⟨hcomplete, hvm, hout⟩ := h.2 (hsome hin)
      exact ⟨hout, rfl, hcomplete, hvm⟩
    · rename_i g r hin hphase
      rw [hphase] at h
      obtain ⟨hrec, hvm, hreq⟩ := h
      split at hstep
      · cases hstep
      · cases hstep
        have hout : x.output = none := hreq.elim (fun h => absurd h.2 (hsome hin)) fun h => h.1
        exact ⟨hout, rfl, hrec, hvm⟩
    · cases hstep
  | test =>
    dsimp only [cpuStep] at hstep
    split at hstep
    · rename_i hphase
      rw [hphase] at h
      cases hstep
      unfold CpuOk
      cases hvm : x.hasVm with
      | true => exact ⟨h.1, h.2.1, h.2.2 hvm, rfl⟩
      | false => exact ⟨h.1, fun hne => absurd h.2.1 hne⟩
    · cases hstep
  | launch =>
    dsimp only [cpuStep] at hstep
    split at hstep
    · rename_i hphase
      rw [hphase] at h
      cases hstep
      exact ⟨h.1, h.2.1, by rw [← h.2.2.1], h.2.2.2⟩
    · cases hstep
  | send r =>
    dsimp only [cpuStep] at hstep
    split at hstep
    · rename_i g hphase
      rw [hphase] at h
      cases hstep
      exact ⟨h.2.2.1, h.2.2.2, Or.inl ⟨rfl, h.2.1⟩⟩
    · cases hstep
  | vmcall =>
    dsimp only [cpuStep] at hstep
    split at hstep
    · rename_i g r hphase
      rw [hphase] at h
      obtain ⟨hrec, hvm, hreq⟩ := h
      split at hstep
      · rename_i hleaves
        cases hstep
        obtain ⟨hout, hin⟩ := hreq.resolve_right fun h => by rw [hleaves] at h; cases h.2
        refine ⟨fun r' hr' => ?_, fun hne => absurd hin hne⟩
        obtain rfl : r = r' := Option.some.inj (hout.symm.trans hr')
        exact ⟨hleaves, by rw [hrec], hvm, hin⟩
      · cases hstep
    · cases hstep

/-- The steps of a CPU keep the state of the VM. -/
theorem cpuStep_state (hstep : cpuStep x e = some y) : y.state = x.state := by
  cases e <;> dsimp only [cpuStep, receive] at hstep <;> repeat' split at hstep
  all_goals (cases hstep <;> rfl)

/-- What PM works on is not touched by the step of a CPU. -/
theorem PmOk.update {cpu : ℕ → Cpu} {q : PmPhase} (h : PmOk cpu q) (hc : ¬ Parked (cpu c)) :
    PmOk (Function.update cpu c x) q := by
  have hne : ∀ {p}, Parked (cpu p) → Function.update cpu c x p = cpu p := fun {p} hp =>
    Function.update_of_ne (show p ≠ c from fun heq => hc (heq ▸ hp)) _ _
  cases q with
  | idle => trivial
  | forkFill p d =>
    dsimp only [PmOk] at h ⊢
    rwa [hne h.1.parked, hne h.2.2.1.parked]
  | forkStart p d =>
    dsimp only [PmOk] at h ⊢
    rwa [hne h.1.parked, hne h.2.2.1.parked]
  | execLoad p =>
    dsimp only [PmOk] at h ⊢
    rwa [hne h.1.parked]
  | execMap p =>
    dsimp only [PmOk] at h ⊢
    rwa [hne h.1.parked]
  | exitNotify d =>
    dsimp only [PmOk] at h ⊢
    rwa [hne h.1.parked]
  | reply p r =>
    dsimp only [PmOk] at h ⊢
    rwa [hne h.parked]

@[simp] theorem Sys.set_self : (s.set c x).cpu c = x := by
  simp only [Sys.set, Function.update_self]

theorem Sys.set_of_ne (h : p ≠ c) : (s.set c x).cpu p = s.cpu p := by
  simp only [Sys.set, Function.update_of_ne h]

/-- What holds of every CPU still does when one of them is changed. -/
theorem Sys.forall_set {P : Cpu → Prop} (h : ∀ d, P (s.cpu d)) (hx : P x) (d : ℕ) :
    P ((s.set c x).cpu d) := by
  by_cases hd : d = c
  · subst hd
    rwa [Sys.set_self]
  · rw [Sys.set_of_ne hd]
    exact h d

/-- A VMM or a guest takes a step. -/
theorem Inv.cpu_step (h : Inv s) (hstep : Step s (.cpu c e) s') : Inv s' := by
  dsimp only [Step, Launch.step] at hstep
  split at hstep
  · cases hstep
  obtain ⟨y, hy, rfl⟩ := Option.map_eq_some_iff.mp hstep
  have hnot : ¬ Parked (s.cpu c) := fun hp => by rw [hp.cpuStep_eq_none] at hy; cases hy
  exact ⟨Sys.forall_set h.cpu ((h.cpu c).step hy), h.pm.update hnot,
    Sys.forall_set (P := fun x => x.state ≠ .zombie) h.noZombie
      (by rw [cpuStep_state hy]; exact h.noZombie c)⟩

end Cpu

/-! ### The steps of PM -/

section Pm

variable {x y : Cpu} {s s' : Sys} {c p : ℕ} {r : Request} {found : Bool}

/-- A CPU that has sent a request has a complete record and no message. -/
theorem CpuOk.of_output (h : CpuOk x) (hout : x.output = some r) :
    x.input = none ∧ x.record.stage = .complete ∧ x.hasVm = true ∧
      ((∃ g, x.phase = .asked g r) ∨ x.phase = .host ∧ r.leaves = true) := by
  unfold CpuOk at h
  have hne : x.output ≠ none := by rw [hout]; simp
  cases hphase : x.phase <;> rw [hphase] at h <;> dsimp only at h
  case asked g r' =>
    obtain ⟨hrec, hvm, ⟨hout', hin⟩ | ⟨hout', -⟩⟩ := h
    · obtain rfl : r' = r := Option.some.inj (hout'.symm.trans hout)
      exact ⟨hin, by rw [hrec], hvm, Or.inl ⟨g, rfl⟩⟩
    · exact absurd hout' hne
  case host =>
    obtain ⟨hleaves, hcomplete, hvm, hin⟩ := h.1 r hout
    exact ⟨hin, hcomplete, hvm, Or.inr ⟨rfl, hleaves⟩⟩
  all_goals exact absurd h.1 hne

/-- When its request is taken, and its guest has left if it should, it may be answered. -/
theorem CpuOk.taken (h : CpuOk x) (hout : x.output = some r)
    (hleft : r.leaves = true → x.phase = .host) :
    CpuOk { x with output := none } ∧ Client { x with output := none } := by
  obtain ⟨hin, hcomplete, hvm, hphase⟩ := h.of_output hout
  unfold CpuOk at h
  rcases hphase with ⟨g, hphase⟩ | ⟨hphase, hleaves⟩
  · have hstays : r.leaves = false := by
      by_contra hleaves
      rw [hleft (by simpa using hleaves)] at hphase
      cases hphase
    rw [hphase] at h
    refine ⟨?_, ⟨rfl, hin, Or.inr (Or.inr ⟨g, r, hphase, hstays⟩)⟩, hcomplete, hvm⟩
    unfold CpuOk
    dsimp only
    rw [hphase]
    exact ⟨h.1, h.2.1, Or.inr ⟨rfl, hstays⟩⟩
  · refine ⟨?_, ⟨rfl, hin, Or.inr (Or.inl hphase)⟩, hcomplete, hvm⟩
    unfold CpuOk
    dsimp only
    rw [hphase]
    exact ⟨fun _ hr => (by cases hr), fun hne => absurd hin hne⟩

/-- A CPU that is stopped is in order whatever PM does with its record. -/
theorem Stopped.cpuOk (h : Stopped x) : CpuOk x := by
  have hne : ∀ r, x.output ≠ some r := fun r => by rw [h.output]; simp
  unfold CpuOk
  rcases h.phase with hphase | hphase <;> rw [hphase]
  · exact ⟨h.output, fun hin => absurd h.input hin⟩
  · exact ⟨fun r hr => absurd hr (hne r), fun hin => absurd h.input hin⟩

/-- A CPU that waits without a VM is stopped. -/
theorem CpuOk.stopped (h : CpuOk x) (hvm : x.hasVm = false)
    (hphase : x.phase = .wait ∨ x.phase = .host) : Stopped x := by
  have hvm' : x.hasVm ≠ true := by rw [hvm]; simp
  unfold CpuOk at h
  rcases hphase with hp | hp <;> rw [hp] at h
  · exact ⟨h.1, by_contra fun hin => hvm' (h.2 hin).2, Or.inl hp⟩
  · refine ⟨?_, by_contra fun hin => hvm' (h.2 hin).2.1, Or.inr hp⟩
    cases hout : x.output with
    | none => rfl
    | some r => exact absurd (h.1 r hout).2.2.1 hvm'

/-- A message for a CPU that may be answered. -/
theorem Client.post (h : Client x) (hok : CpuOk x) (r : ℤ) : CpuOk { x with input := some r } := by
  obtain ⟨⟨hout, hin, hphase⟩, hcomplete, hvm⟩ := h
  unfold CpuOk at hok ⊢
  dsimp only
  rcases hphase with hp | hp | ⟨g, q, hp, hstays⟩ <;> rw [hp] at hok ⊢
  · exact ⟨hout, fun _ => ⟨hcomplete, hvm⟩⟩
  · exact ⟨fun q hq => absurd (hout.symm.trans hq) (by simp), fun _ => ⟨hcomplete, hvm, hout⟩⟩
  · exact ⟨hok.1, hok.2.1, Or.inr ⟨hout, hstays⟩⟩

theorem Stopped.client (h : Stopped x) (hcomplete : x.record.stage = .complete)
    (hvm : x.hasVm = true) : Client x := ⟨h.parked, hcomplete, hvm⟩

/-- Without zombies `local_waitpid` finds none. -/
theorem Inv.zombie_eq_none (h : ∀ d, (s.cpu d).state ≠ .zombie) (pid : ℤ) :
    s.zombie p pid = none := by
  unfold Sys.zombie
  split
  · exact if_neg (h _)
  · refine List.find?_eq_none.mpr fun i _ => ?_
    simp [h i]

theorem Phase.exists_of_waitsForChild {q : Phase} (h : q.waitsForChild = true) :
    ∃ g pid, q = .asked g (.waitpid pid) := by
  unfold Phase.waitsForChild at h
  split at h
  · exact ⟨_, _, rfl⟩
  · cases h

/-- PM takes a request. -/
theorem Inv.take (h : Inv s) (horderly : Orderly s (.take p) = true) (hstep : take s p = some s') :
    Inv s' := by
  unfold Launch.take at hstep
  split at hstep
  case h_2 => cases hstep
  rename_i r hpm hout
  have hleft : r.leaves = true → (s.cpu p).phase = .host := by
    dsimp only [Orderly] at horderly
    rw [hout] at horderly
    cases r <;> simp_all [Request.leaves]
  obtain ⟨hok, hclient⟩ := (h.cpu p).taken hout hleft
  set t := s.set p { s.cpu p with output := none } with ht
  have hcpu : ∀ d, CpuOk (t.cpu d) := Sys.forall_set h.cpu hok
  have hzombie : ∀ d, (t.cpu d).state ≠ .zombie :=
    Sys.forall_set (P := fun x => x.state ≠ .zombie) h.noZombie (h.noZombie p)
  have htp : t.cpu p = { s.cpu p with output := none } := Sys.set_self
  rw [← htp] at hclient
  cases r with
  | fork =>
    obtain rfl := Option.some.inj hstep
    unfold localFork
    have hfind : t.findFreeVm = s.findFreeVm := by
      unfold Sys.findFreeVm
      have hvm : ∀ i, (t.cpu i).hasVm = (s.cpu i).hasVm := fun i => by
        by_cases hi : i = p
        · rw [hi, htp]
        · rw [ht, Sys.set_of_ne hi]
      simp only [hvm]
      rfl
    cases hfree : t.findFreeVm with
    | none => exact ⟨hcpu, hclient, hzombie⟩
    | some c =>
      have hvm : (t.cpu c).hasVm = false := by
        have := List.find?_some hfree
        simp only [decide_eq_true_eq] at this
        exact this.2
      have hpc : p ≠ c := fun heq => by
        rw [← heq, hclient.hasVm] at hvm
        cases hvm
      have hphase : (t.cpu c).phase = .wait ∨ (t.cpu c).phase = .host := by
        dsimp only [Orderly] at horderly
        rw [hout] at horderly
        rw [ht, Sys.set_of_ne (Ne.symm hpc)]
        rw [← hfind, hfree] at horderly
        exact of_decide_eq_true horderly
      have hstopped := (hcpu c).stopped hvm hphase
      have hstopped' : Stopped { t.cpu c with
          hasVm := true
          parent := p
          state := .running
          record := ⟨(t.cpu c).record.gen + 1, .building⟩ } :=
        ⟨hstopped.output, hstopped.input, hstopped.phase⟩
      refine ⟨Sys.forall_set hcpu hstopped'.cpuOk, ?_,
        Sys.forall_set (P := fun x => x.state ≠ .zombie) hzombie (by simp)⟩
      dsimp only [PmOk]
      rw [Sys.set_self, Sys.set_of_ne hpc]
      exact ⟨hclient, hpc, hstopped', rfl⟩
  | exec =>
    obtain rfl := Option.some.inj hstep
    refine ⟨hcpu, ⟨hclient, hclient.parked.output, hclient.parked.input, Or.inr ?_⟩, hzombie⟩
    rw [htp]
    exact hleft rfl
  | exit =>
    obtain rfl := Option.some.inj hstep
    have hhost : (t.cpu p).phase = .host := by rw [htp]; exact hleft rfl
    have hstopped : Stopped { t.cpu p with record := ⟨(t.cpu p).record.gen, .freed⟩ } :=
      ⟨hclient.parked.output, hclient.parked.input, Or.inr hhost⟩
    refine ⟨Sys.forall_set hcpu hstopped.cpuOk, ?_,
      Sys.forall_set (P := fun x => x.state ≠ .zombie) hzombie (hzombie p)⟩
    dsimp only [PmOk]
    rw [Sys.set_self]
    exact ⟨hstopped, hhost⟩
  | waitpid pid =>
    obtain rfl := Option.some.inj hstep
    unfold localWaitpid
    split
    · exact ⟨hcpu, hclient, hzombie⟩
    · rw [Inv.zombie_eq_none hzombie]
      have hpm' : t.pm = .idle := hpm
      refine ⟨Sys.forall_set hcpu (hcpu p), ?_,
        Sys.forall_set (P := fun x => x.state ≠ .zombie) hzombie (by simp)⟩
      dsimp only [Sys.set]
      rw [hpm']
      trivial
  | other answer =>
    obtain rfl := Option.some.inj hstep
    exact ⟨hcpu, hclient, hzombie⟩

/-- PM goes on. -/
theorem Inv.pm_step (h : Inv s) (horderly : Orderly s (.pm found) = true)
    (hstep : pmStep s found = some s') : Inv s' := by
  have hpm := h.pm
  unfold pmStep at hstep
  dsimp only [Orderly] at horderly
  have hzombie : ∀ (c : ℕ) (x : Cpu), x.state = (s.cpu c).state →
      ∀ d, ((s.set c x).cpu d).state ≠ .zombie := fun c x hx =>
    Sys.forall_set (P := fun x => x.state ≠ .zombie) h.noZombie (hx ▸ h.noZombie c)
  cases hphase : s.pm with
  | idle => rw [hphase] at hstep; cases hstep
  | forkFill p c =>
    rw [hphase] at hstep hpm
    obtain rfl := Option.some.inj hstep
    obtain ⟨hclient, hpc, hstopped, hvm⟩ := hpm
    have hstopped' : Stopped { s.cpu c with record := ⟨(s.cpu c).record.gen, .complete⟩ } :=
      ⟨hstopped.output, hstopped.input, hstopped.phase⟩
    refine ⟨Sys.forall_set h.cpu hstopped'.cpuOk, ?_, hzombie c _ rfl⟩
    dsimp only [PmOk]
    rw [Sys.set_self, Sys.set_of_ne hpc]
    exact ⟨hclient, hpc, hstopped', hvm, rfl⟩
  | forkStart p c =>
    rw [hphase] at hstep hpm
    obtain rfl := Option.some.inj hstep
    obtain ⟨hclient, hpc, hstopped, hvm, hcomplete⟩ := hpm
    refine ⟨Sys.forall_set h.cpu ((hstopped.client hcomplete hvm).post (h.cpu c) c), ?_,
      hzombie c _ rfl⟩
    dsimp only [PmOk, Sys.post]
    rwa [Sys.set_of_ne hpc]
  | execLoad p =>
    rw [hphase] at hstep hpm
    obtain ⟨hclient, hstopped⟩ := hpm
    dsimp only at hstep
    split at hstep
    · obtain rfl := Option.some.inj hstep
      have hstopped' : Stopped { s.cpu p with
          record := ⟨(s.cpu p).record.gen + 1, .building⟩ } :=
        ⟨hstopped.output, hstopped.input, hstopped.phase⟩
      refine ⟨Sys.forall_set h.cpu hstopped'.cpuOk, ?_, hzombie p _ rfl⟩
      dsimp only [PmOk]
      rw [Sys.set_self]
      exact ⟨hstopped', hclient.hasVm⟩
    · obtain rfl := Option.some.inj hstep
      exact ⟨h.cpu, hclient, h.noZombie⟩
  | execMap p =>
    rw [hphase] at hstep hpm
    obtain rfl := Option.some.inj hstep
    obtain ⟨hstopped, hvm⟩ := hpm
    have hstopped' : Stopped { s.cpu p with record := ⟨(s.cpu p).record.gen, .complete⟩ } :=
      ⟨hstopped.output, hstopped.input, hstopped.phase⟩
    refine ⟨Sys.forall_set h.cpu hstopped'.cpuOk, ?_, hzombie p _ rfl⟩
    dsimp only [PmOk]
    rw [Sys.set_self]
    exact hstopped'.client rfl hvm
  | exitNotify c =>
    rw [hphase] at hstep hpm horderly
    obtain ⟨hstopped, hhost⟩ := hpm
    dsimp only at hstep horderly
    split at hstep
    · rename_i hwait
      obtain rfl := Option.some.inj hstep
      obtain ⟨hout, hwaits⟩ := (of_decide_eq_true horderly).resolve_left (not_not.mpr hwait)
      obtain ⟨g, pid, hasked⟩ := Phase.exists_of_waitsForChild hwaits
      have hne : (s.cpu c).parent ≠ c := fun heq => by
        rw [heq, hhost] at hasked
        cases hasked
      have hstopped' : Stopped { s.cpu c with hasVm := false } :=
        ⟨hstopped.output, hstopped.input, hstopped.phase⟩
      have hparent := h.cpu (s.cpu c).parent
      refine ⟨Sys.forall_set (Sys.forall_set h.cpu hstopped'.cpuOk) ?_, trivial,
        Sys.forall_set (P := fun x => x.state ≠ .zombie) (hzombie c _ rfl) ?_⟩
      · rw [Sys.set_of_ne hne]
        unfold CpuOk at hparent ⊢
        dsimp only
        rw [hasked] at hparent ⊢
        exact ⟨hparent.1, hparent.2.1, Or.inr ⟨hout, rfl⟩⟩
      · rw [Sys.set_of_ne hne]
        exact h.noZombie _
    · obtain rfl := Option.some.inj hstep
      exact ⟨h.cpu, trivial, h.noZombie⟩
  | reply p r =>
    rw [hphase] at hstep hpm
    obtain rfl := Option.some.inj hstep
    exact ⟨Sys.forall_set h.cpu (Client.post hpm (h.cpu p) r), trivial, hzombie p _ rfl⟩

end Pm

/-! ### Every run -/

section Run

variable {s s₀ : Sys} {evs : List Event}

/-- The invariant holds at the start. -/
theorem inv_initial (h : s.Initial) : Inv s := by
  refine ⟨fun c => ?_, h.pm ▸ trivial, fun c => ?_⟩
  · unfold CpuOk
    rcases h.phase c with ⟨hphase, -⟩ | ⟨hphase, -, hvm, hin⟩ <;> rw [hphase]
    · exact ⟨h.output c, h.boot c⟩
    · exact ⟨h.output c, hin, by rw [← h.boot c hvm], hvm⟩
  · rcases h.state c with hstate | hstate <;> rw [hstate] <;> simp

/-- The invariant says what is sound. -/
theorem Inv.sound (h : Inv s) : s.Sound := by
  intro c g hexec
  have hok := h.cpu c
  unfold CpuOk at hok
  cases hphase : (s.cpu c).phase <;> rw [hphase] at hok hexec <;> try cases hexec
  case guest => exact hok.2.2.1
  case asked => exact hok.1

end Run

/-! ### Runs of a machine with five CPUs -/

/-- PM runs, FS and INIT are loaded, and the last two CPUs are free. -/
def booted : Sys where
  ncpus := 5
  cpu c := {
    phase := if c = pmId then .guest 0 else .boot
    hasVm := c < alwaysBusy
    record := ⟨0, if c < alwaysBusy then .complete else .freed⟩
    parent := 0
    state := if c < alwaysBusy then .running else .unset
    output := none
    input := if c = pmId then none else some 0 }
  pm := .idle

theorem booted_initial : booted.Initial where
  pm := rfl
  output _ := rfl
  state c := by
    simp only [booted]
    split <;> simp
  boot c h := by
    have hc : c < alwaysBusy := by simpa [booted] using h
    simp [booted, hc]
  phase c := by
    by_cases hc : c = pmId
    · subst hc
      exact Or.inr ⟨rfl, rfl, rfl, rfl⟩
    · exact Or.inl ⟨if_neg hc, by simp [booted, hc]⟩

/-- INIT forks, when the VMM of CPU 3 waits. -/
def forkEvents : List Event :=
  [.cpu 2 .receive, .cpu 2 .test, .cpu 2 .launch, .cpu 3 .receive, .cpu 3 .test,
    .cpu 2 (.send .fork), .take 2, .pm true, .pm true, .pm true, .cpu 3 .receive, .cpu 3 .launch]

/-- The steps of an orderly run. -/
def orderlyStep (s : Sys) (ev : Event) : Option Sys := if Orderly s ev then step s ev else none

theorem forkEvents_isSome : (forkEvents.foldlM orderlyStep booted).isSome = true := by decide

/-- CPU 3 tests `vmm_has_vm` while PM fills its record. -/
def flagEvents : List Event :=
  [.cpu 2 .receive, .cpu 2 .test, .cpu 2 .launch, .cpu 2 (.send .fork), .cpu 3 .receive, .take 2,
    .cpu 3 .test, .cpu 3 .launch]

/-- PM serves the `exit` of CPU 3 before its guest executes `vmcall`. -/
def exitEvents : List Event := forkEvents ++ [.cpu 3 (.send .exit), .take 3]

/-- INIT forks twice, waits for a child, and is told of both; it exits, and is launched again with
the second of these messages. -/
def waitEvents : List Event :=
  forkEvents ++ [.cpu 2 .receive, .cpu 4 .receive, .cpu 4 .test, .cpu 2 (.send .fork), .take 2,
    .pm true, .pm true, .pm true, .cpu 2 .receive, .cpu 4 .receive, .cpu 4 .launch,
    .cpu 2 (.send (.waitpid (-1))), .take 2, .cpu 3 (.send .exit), .cpu 3 .vmcall,
    .take 3, .pm true,
    .cpu 2 .receive, .cpu 4 (.send .exit), .cpu 4 .vmcall, .take 4, .pm true, .cpu 2 (.send .exit),
    .cpu 2 .vmcall, .take 2, .cpu 2 .receive, .cpu 2 .launch]

/-- Where a list of events leads. -/
def final (evs : List Event) : Sys := (evs.foldlM step booted).getD booted

theorem run_final {evs : List Event} (h : (evs.foldlM step booted).isSome = true) :
    Run Step booted evs (final evs) := by
  obtain ⟨s, hs⟩ := Option.isSome_iff_exists.mp h
  rw [final, hs]
  exact Run.of_foldlM hs

end Savannah.Launch
