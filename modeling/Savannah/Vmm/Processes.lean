import Savannah.Pm.Waiting
import Savannah.Vmm.Launch

/-!
# The process table of the launches

Of the requests, `Launch` keeps what the VMMs see: the flag `vmm_has_vm`, and the parent and the
state of a VM.  These are fields of the process table of PM, and a run of `Launch` changes them by
steps of `ProcTable` (`launch_table_of_run`), as the handlers of PM do (`handle_step`).
-/

namespace Savannah.Launch

open Foundation

/-- What `Launch` has of an entry of the process table. -/
def Cpu.proc (x : Cpu) : Bool × ℕ × VmState := (x.hasVm, x.parent, x.state)

/-- The process table has the VMs of the machine. -/
structure Agrees (q : ProcTable) (s : Sys) : Prop where
  ncpus : q.ncpus = s.ncpus
  cpuid : ∀ i, (q.procs i).cpuid = i
  procs : ∀ i, ((q.procs i).hasVm, (q.procs i).parent, (q.procs i).state) = (s.cpu i).proc

/-- The process table serves requests. -/
def Served (q : ProcTable) (e : PmEvent) (q' : ProcTable) : Prop := q.Step e.sender e.request q'

section Table

variable {q : ProcTable} {s t : Sys} {c p : ℕ} {x : Cpu}

/-- The fields agree. -/
theorem Agrees.fields (h : Agrees q s) (i : ℕ) : (q.procs i).hasVm = (s.cpu i).hasVm ∧
    (q.procs i).parent = (s.cpu i).parent ∧ (q.procs i).state = (s.cpu i).state := by
  simpa [Cpu.proc] using h.procs i

/-- A step that leaves the process table alone. -/
theorem Agrees.keep (h : Agrees q s) (hn : t.ncpus = s.ncpus)
    (ht : ∀ i, (t.cpu i).proc = (s.cpu i).proc) : Agrees q t :=
  ⟨h.ncpus.trans hn.symm, h.cpuid, fun i => (h.procs i).trans (ht i).symm⟩

theorem Agrees.post (h : Agrees q s) (ms : List Post) : Agrees (q.post ms) s :=
  ⟨h.ncpus, h.cpuid, h.procs⟩

/-- The entry stays if its fields do. -/
theorem set_proc (hx : x.proc = (s.cpu c).proc) (i : ℕ) :
    ((s.set c x).cpu i).proc = (s.cpu i).proc := by
  unfold Sys.set
  by_cases hi : i = c
  · simp only [hi, Function.update_self, hx]
  · simp only [Function.update_of_ne hi]

/-- One entry changes in both. -/
theorem Agrees.set {f : Proc → Proc} (h : Agrees q s) (hn : t.ncpus = s.ncpus)
    (ht : t.cpu = (s.set c x).cpu) (hid : (f (q.procs c)).cpuid = c)
    (hf : ((f (q.procs c)).hasVm, (f (q.procs c)).parent, (f (q.procs c)).state) = x.proc) :
    Agrees (q.set c f) t := by
  refine ⟨h.ncpus.trans hn.symm, fun i => ?_, fun i => ?_⟩
  all_goals
    by_cases hi : i = c
    · subst hi
      simp [ht, Sys.set, hid, hf]
    · simp only [ProcTable.set_of_ne hi, ht, Sys.set, Function.update_of_ne hi, h.cpuid, h.procs]

/-- `local_fork` -/
theorem Agrees.localFork (h : Agrees q s) (p : ℕ) (args : ForkArgs) :
    ∃ q', q.Step p (.fork args) q' ∧ Agrees q' (localFork s p) := by
  unfold Launch.localFork
  split
  · refine ⟨_, .forkFailed, .post ?_ _⟩
    exact h.keep rfl fun _ => rfl
  · rename_i child hfind
    have hfree := List.find?_some hfind
    have hlt := List.mem_range.mp (List.mem_of_find?_eq_some hfind)
    simp only [decide_eq_true_eq] at hfree
    refine ⟨_, .forked ⟨hfree.1, h.ncpus ▸ hlt⟩ ((h.fields child).1.trans hfree.2), .post ?_ _⟩
    refine h.set rfl rfl (h.cpuid child) ?_
    simp [Cpu.proc, h.cpuid]

/-- `local_waitpid` -/
theorem Agrees.localWaitpid (h : Agrees q s) (p : ℕ) (pid : ℤ) :
    ∃ q', q.Step p (.waitpid pid) q' ∧ Agrees q' (localWaitpid s p pid) := by
  have hmay : q.MayWait p pid ↔
      ¬ (pid < -1 ∨ pid > maxCpus ∨ (pid ≠ -1 ∧ (s.cpu pid.toNat).parent ≠ p)) := by
    rw [ProcTable.MayWait, h.cpuid, (h.fields _).2.1]
    grind
  unfold Launch.localWaitpid
  split
  · rename_i hbad
    refine ⟨_, .refused (fun hw => hmay.mp hw hbad), .post ?_ _⟩
    exact h.keep rfl fun _ => rfl
  rename_i hgood
  split
  · rename_i child hz
    have hzombie : (s.cpu child).state = .zombie := by
      unfold Sys.zombie at hz
      split at hz
      · grind
      · have hfound := List.find?_some hz
        simp only [decide_eq_true_eq] at hfound
        exact hfound.2.2
    refine ⟨_, .reaped ((h.fields child).2.2.trans hzombie), .post ?_ []⟩
    refine h.set rfl rfl (h.cpuid child) ?_
    simpa [Cpu.proc] using (h.fields child).2
  · refine ⟨_, .waits (hmay.mpr hgood), h.set rfl rfl (h.cpuid p) ?_⟩
    simpa [Cpu.proc] using ⟨(h.fields p).1, (h.fields p).2.1⟩

/-- `msg_check` returns a request: `fork` and `waitpid` change the process table. -/
theorem Agrees.take (h : Agrees q s) (hstep : take s p = some t) :
    ∃ es q', Run Served q es q' ∧ Agrees q' t := by
  unfold Launch.take at hstep
  split at hstep
  · rename_i r hpm hr
    have h' : Agrees q (s.set p { s.cpu p with output := none }) :=
      h.keep rfl (set_proc rfl)
    generalize s.set p { s.cpu p with output := none } = s' at hstep h'
    cases r with
    | fork =>
      obtain rfl := Option.some.inj hstep
      obtain ⟨q', hq, ha⟩ := h'.localFork p default
      exact ⟨[⟨p, .fork default⟩], q', .cons hq (.nil q'), ha⟩
    | waitpid pid =>
      obtain rfl := Option.some.inj hstep
      obtain ⟨q', hq, ha⟩ := h'.localWaitpid p pid
      exact ⟨[⟨p, .waitpid pid⟩], q', .cons hq (.nil q'), ha⟩
    | exec | other answer =>
      obtain rfl := Option.some.inj hstep
      exact ⟨[], q, .nil q, h'.keep rfl fun _ => rfl⟩
    | exit =>
      obtain rfl := Option.some.inj hstep
      exact ⟨[], q, .nil q, h'.keep rfl (set_proc rfl)⟩
  · cases hstep

/-- The next step of PM: the end of an `exit` changes the process table. -/
theorem Agrees.pmStep {found : Bool} (h : Agrees q s) (hstep : pmStep s found = some t) :
    ∃ es q', Run Served q es q' ∧ Agrees q' t := by
  unfold Launch.pmStep at hstep
  cases hp : s.pm with
  | idle => rw [hp] at hstep; cases hstep
  | forkFill p c | forkStart p c | execMap p | reply p r =>
    rw [hp] at hstep
    obtain rfl := Option.some.inj hstep
    exact ⟨[], q, .nil q, h.keep rfl (set_proc rfl)⟩
  | execLoad p =>
    rw [hp] at hstep
    dsimp only at hstep
    split at hstep <;> obtain rfl := Option.some.inj hstep
    · exact ⟨[], q, .nil q, h.keep rfl (set_proc rfl)⟩
    · exact ⟨[], q, .nil q, h.keep rfl fun _ => rfl⟩
  | exitNotify c =>
    rw [hp] at hstep
    dsimp only at hstep
    have hparent : (q.procs (q.procs c).parent).state = (s.cpu (s.cpu c).parent).state := by
      rw [(h.fields c).2.1, (h.fields _).2.2]
    have hnone : ∀ m ∈ ([] : List Post), m.slot = fsId := fun _ hm => absurd hm List.not_mem_nil
    split at hstep <;> obtain rfl := Option.some.inj hstep
    · rename_i hwait
      have hset : Agrees (q.set c fun r => { r with hasVm := false })
          (s.set c { s.cpu c with hasVm := false }) :=
        h.set rfl rfl (h.cpuid c) (by simpa [Cpu.proc] using (h.fields c).2)
      refine ⟨[⟨c, .exit 0⟩], _, .cons (.exitWaited hnone (hparent.trans hwait)) (.nil _),
        .post ?_ _⟩
      exact hset.keep rfl (set_proc rfl)
    · rename_i hwait
      have hset : Agrees (q.set c fun r => { r with exitStatus := 0 }) s :=
        h.set (x := s.cpu c) rfl (by simp [Sys.set]) (h.cpuid c) (h.procs c)
      refine ⟨[⟨c, .exit 0⟩], _, .cons (.exitUnwaited hnone fun heq =>
        hwait (hparent.symm.trans heq)) (.nil _), .post ?_ _⟩
      exact hset.keep rfl fun _ => rfl

/-- Every step of the machine is one of the process table, or leaves it alone. -/
theorem Agrees.step {ev : Event} (h : Agrees q s) (hstep : Step s ev t) :
    ∃ es q', Run Served q es q' ∧ Agrees q' t := by
  unfold Step at hstep
  cases ev with
  | take p => exact h.take hstep
  | pm found => exact h.pmStep hstep
  | cpu c e =>
    dsimp only [Launch.step] at hstep
    split at hstep
    · cases hstep
    · obtain ⟨x, hx, rfl⟩ := Option.map_eq_some_iff.mp hstep
      refine ⟨[], q, .nil q, h.keep rfl (set_proc ?_)⟩
      unfold cpuStep receive at hx
      grind [Cpu.proc]

/-- In every run the machine changes its VMs by steps of the process table. -/
theorem launch_table_of_run {evs : List Event} (h : Agrees q s) (hrun : Run Step s evs t) :
    ∃ es q', Run Served q es q' ∧ Agrees q' t := by
  refine hrun.invariant (I := fun u => ∃ es q', Run Served q es q' ∧ Agrees q' u) ?_
    ⟨[], q, .nil q, h⟩
  rintro u ev w hstep ⟨es, q', hq, ha⟩
  obtain ⟨es', q'', hq', ha'⟩ := ha.step hstep
  exact ⟨_, q'', hq.append hq', ha'⟩

end Table

end Savannah.Launch
