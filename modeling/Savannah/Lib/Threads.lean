import Savannah.Foundation.Rotation
import Savannah.Foundation.Run
import Savannah.Machine.Outcome

/-!
# Threads

`lib/thread/thread.c` runs threads in turn: a thread is put at the end of a linked list when it is
created, and at a timer interrupt `thread_switch_handler` saves the registers of the running thread
and goes on with the next one of the list, from the last one to the first.

The linked list represents a `Rotation` (`Represents`): creating a thread appends an item, and a
tick is a turn.  With that, the fairness of every run follows from `Rotation.count_selected`.

Interrupts are off while a thread is created, so that both functions are steps.
-/

namespace Savannah.Thread

open Foundation

/-- What `thread_create` writes into a `struct intr_stack_frame`. -/
structure Frame where
  rip : ℕ
  rsp : ℕ
  rbp : ℕ
  rflags : ℕ
  deriving DecidableEq, Repr, Inhabited

/-- `sizeof (struct intr_stack_frame)` -/
abbrev sizeofFrame : ℕ := 216

/-- `0x2 | RFLAGS_IF` -/
abbrev initialRflags : ℕ := 0x202

/-- The variables of the library, the fields of the threads by their addresses, and the stack frames
by theirs; 0 is `NULL`. -/
structure Threads where
  head : ℕ
  last : ℕ
  current : ℕ
  nxt : ℕ → ℕ
  regs : ℕ → ℕ
  frames : ℕ → Frame

inductive ThreadPanic where
  /-- "thread linrary is not initialized yet" -/
  | notInitialized
  deriving DecidableEq, Repr

/-- `thread_init`, with `main_thread` at the address `main`. -/
def threadInit (main : ℕ) (s : Threads) : Threads :=
  { s with nxt := Function.update s.nxt main 0, current := main, head := main, last := main }

/-- `thread_create` -/
def threadCreate (thread routine stack stackSize : ℕ) (s : Threads) :
    Except (Stop ThreadPanic) Threads :=
  if s.head = 0 ∨ s.last = 0 then
    .error (.panic .notInitialized)
  else
    let rsp := (stack + stackSize) % 2 ^ 64
    let regs := (rsp + (2 ^ 64 - sizeofFrame)) % 2 ^ 64
    .ok { s with
      regs := Function.update s.regs thread regs
      frames := Function.update s.frames regs ⟨routine, rsp, rsp, initialRflags⟩
      nxt := Function.update (Function.update s.nxt thread 0) s.last thread
      last := thread }

/-- `default_scheduler`: the thread to run next, which is also assigned to `current`. -/
def defaultScheduler (s : Threads) : ℕ :=
  if s.nxt s.current ≠ 0 then s.nxt s.current else s.head

/-- `thread_switch_handler`, up to the registers: the frame that is loaded is at `regs` of the new
`current`. -/
def threadSwitchHandler (currentRegs : ℕ) (s : Threads) : Threads :=
  if s.head = s.last then
    s
  else
    let s := { s with regs := Function.update s.regs s.current currentRegs }
    { s with current := defaultScheduler s }

/-! ### Runs -/

inductive Event where
  /-- A call of `thread_create`. -/
  | create (thread routine stack stackSize : ℕ)
  /-- A timer interrupt, with the frame of the thread that was running at `currentRegs`. -/
  | tick (currentRegs : ℕ)
  deriving DecidableEq, Repr

/-- An event, and the thread that is running after it. -/
structure Observed where
  event : Event
  current : ℕ
  deriving DecidableEq, Repr

def exec (s : Threads) : Event → Except (Stop ThreadPanic) Threads
  | .create thread routine stack stackSize => threadCreate thread routine stack stackSize s
  | .tick currentRegs => .ok (threadSwitchHandler currentRegs s)

def Step (s : Threads) (o : Observed) (s' : Threads) : Prop :=
  exec s o.event = .ok s' ∧ o.current = s'.current

/-- The threads that were created, in order. -/
def created (os : List Observed) : List ℕ :=
  os.filterMap fun o => match o.event with
    | .create thread _ _ _ => some thread
    | .tick _ => none

/-- The threads that were selected at the ticks, in order. -/
def selections (os : List Observed) : List ℕ :=
  os.filterMap fun o => match o.event with
    | .create _ _ _ _ => none
    | .tick _ => some o.current

/-! ### The order of the threads -/

/-- The list from `head` along `nxt` consists of the threads `l`, without duplicates; it ends in
`last`, whose field `nxt` is `NULL`. -/
structure Threads.Listed (s : Threads) (l : List ℕ) : Prop where
  nodup : l.Nodup
  head : l.head? = some s.head
  last : l.getLast? = some s.last
  chain : (l ++ [0]).IsChain fun a b => s.nxt a = b

/-- The threads of a run with the events `os` that has reached the state `t` take turns. -/
structure RoundRobin (main : ℕ) (os : List Observed) (t : Threads) : Prop where
  listed : t.Listed (main :: created os)
  current : t.current ∈ main :: created os
  /-- A tick saves nothing, or it stores its pointer in the thread that was running only. -/
  saved : ∀ r, (threadSwitchHandler r t).regs =
    if created os = [] then t.regs else Function.update t.regs t.current r
  /-- Between two selections of `c`, every other thread that was there is selected once. -/
  fair : ∀ pre mid post r₁ r₂ c, os = pre ++ ⟨.tick r₁, c⟩ :: (mid ++ ⟨.tick r₂, c⟩ :: post) →
    c ∉ selections mid → ∀ u ∈ main :: created pre, u ≠ c → (selections mid).count u = 1

/-! ### The list and the rotation -/

/-- The threads of `s` are the items of `r`, and it is the turn of the thread that is running. -/
structure Represents (s : Threads) (r : Rotation ℕ) : Prop where
  listed : s.Listed r.items
  nonzero : 0 ∉ r.items
  current : s.current = r.current

section Chain

variable {nxt : ℕ → ℕ} {l : List ℕ} {a i : ℕ}

/-- The links of a list, by positions. -/
theorem isChain_iff_getElem? : ((l ++ [0]).IsChain fun a b => nxt a = b) ↔
    ∀ i a, l[i]? = some a → (l ++ [0])[i + 1]? = some (nxt a) := by
  rw [List.isChain_iff_getElem]
  constructor
  · intro h i a hi
    obtain ⟨hlt, rfl⟩ := List.getElem?_eq_some_iff.mp hi
    have hlen : i + 1 < (l ++ [0]).length := by
      rw [List.length_append, List.length_singleton]
      omega
    have hlink := h i hlen
    rw [List.getElem_append_left hlt] at hlink
    rw [hlink]
    exact List.getElem?_eq_getElem hlen
  · intro h i hi
    have hlt : i < l.length := by
      rw [List.length_append, List.length_singleton] at hi
      omega
    rw [List.getElem_append_left hlt]
    have hlink := h i _ (List.getElem?_eq_getElem hlt)
    rw [List.getElem?_eq_getElem hi] at hlink
    exact (Option.some.inj hlink).symm

end Chain

namespace Threads.Listed

variable {s : Threads} {l : List ℕ} {a i : ℕ}

/-- Inside the list `nxt` leads to the next thread. -/
theorem nxt_of_lt (h : s.Listed l) (hi : l[i]? = some a) (hlt : i + 1 < l.length) :
    l[i + 1]? = some (s.nxt a) := by
  rw [← isChain_iff_getElem?.mp h.chain i a hi, List.getElem?_append_left hlt]

/-- The last thread has no next one. -/
theorem nxt_of_last (h : s.Listed l) (hi : l[i]? = some a) (hlast : i + 1 = l.length) :
    s.nxt a = 0 := by
  have hlink := isChain_iff_getElem?.mp h.chain i a hi
  rw [hlast, List.getElem?_append_right le_rfl, Nat.sub_self] at hlink
  exact (Option.some.inj hlink).symm

theorem getElem?_zero (h : s.Listed l) : l[0]? = some s.head := by
  rw [← List.head?_eq_getElem?]
  exact h.head

theorem getElem?_last (h : s.Listed l) : l[l.length - 1]? = some s.last := by
  rw [← List.getLast?_eq_getElem?]
  exact h.last

/-- There is only one thread exactly if `head` is `last`. -/
theorem head_eq_last_iff (h : s.Listed l) : s.head = s.last ↔ l.length = 1 := by
  have hpos : 0 < l.length := (List.getElem?_eq_some_iff.mp h.getElem?_zero).1
  rw [Rotation.eq_iff_of_nodup h.nodup h.getElem?_zero h.getElem?_last]
  omega

/-- The links after `last` was linked to a new thread. -/
theorem chain_append (h : s.Listed l) {t : ℕ} (ht : t ∉ l) :
    (l ++ [t] ++ [0]).IsChain fun a b =>
      Function.update (Function.update s.nxt t 0) s.last t a = b := by
  have hlast := h.getElem?_last
  rw [isChain_iff_getElem?]
  intro i a hi
  rcases Nat.lt_or_ge i l.length with hlt | hge
  · rw [List.getElem?_append_left hlt] at hi
    have hat : a ≠ t := fun heq => ht (heq ▸ List.mem_of_getElem? hi)
    have heq := Rotation.eq_iff_of_nodup h.nodup hi hlast
    rw [List.append_assoc]
    by_cases hend : i + 1 = l.length
    · rw [heq.mpr (by omega), Function.update_self, hend, List.getElem?_append_right le_rfl,
        Nat.sub_self]
      rfl
    · rw [Function.update_of_ne (fun h' => hend (by have := heq.mp h'; omega)),
        Function.update_of_ne hat, List.getElem?_append_left (by omega)]
      exact h.nxt_of_lt hi (by omega)
  · -- the new thread itself
    rw [List.getElem?_append_right hge] at hi
    obtain ⟨hlt, rfl⟩ := List.getElem?_eq_some_iff.mp hi
    rw [List.length_singleton] at hlt
    have hpos : i = l.length := by omega
    subst hpos
    have hne : t ≠ s.last := fun heq => ht (heq ▸ List.mem_of_getElem? hlast)
    simp [Function.update_of_ne hne]

end Threads.Listed

namespace Represents

variable {s s' : Threads} {r : Rotation ℕ} {t routine stack stackSize : ℕ}

/-- Creating a thread appends it. -/
theorem create (h : Represents s r) (ht : t ∉ r.items) (h0 : t ≠ 0)
    (hok : threadCreate t routine stack stackSize s = .ok s') : Represents s' (r.append t) := by
  have hlast := h.listed.getElem?_last
  have hlastne : s.last ≠ t := fun heq => ht (heq ▸ List.mem_of_getElem? hlast)
  unfold threadCreate at hok
  split_ifs at hok
  obtain rfl := Except.ok.inj hok
  refine ⟨⟨?_, ?_, ?_, ?_⟩, ?_, ?_⟩
  · refine h.listed.nodup.append (List.nodup_singleton t) ?_
    exact List.disjoint_singleton.mpr ht
  · exact List.head?_append_of_ne_nil _ (List.ne_nil_of_length_pos (Nat.zero_lt_of_lt r.pos_lt)) ▸
      h.listed.head
  · exact List.getLast?_append_of_ne_nil _ (List.cons_ne_nil t [])
  · exact h.listed.chain_append ht
  · simpa [Rotation.append] using ⟨h.nonzero, h0.symm⟩
  · exact h.current.trans Rotation.current_append.symm

/-- A tick is a turn. -/
theorem tick (h : Represents s r) (currentRegs : ℕ) :
    Represents (threadSwitchHandler currentRegs s) r.turn := by
  have hcurrent : r.items[r.pos]? = some s.current := h.current ▸ r.getElem?_pos
  have hturn : r.items[next r.items.length r.pos]? = some r.turn.current := r.turn.getElem?_pos
  have hlt := r.pos_lt
  unfold threadSwitchHandler
  split_ifs with hsingle
  · -- with one thread it is always the turn of the same one
    have hlen := h.listed.head_eq_last_iff.mp hsingle
    have hpos : next r.items.length r.pos = r.pos := by
      unfold next
      split <;> omega
    refine ⟨h.listed, h.nonzero, ?_⟩
    rw [hpos] at hturn
    exact Option.some.inj (hcurrent.symm.trans hturn)
  · refine ⟨⟨h.listed.nodup, h.listed.head, h.listed.last, h.listed.chain⟩, h.nonzero, ?_⟩
    show (if s.nxt s.current ≠ 0 then s.nxt s.current else s.head) = _
    unfold next at hturn
    by_cases hend : r.pos + 1 < r.items.length
    · have hnext := h.listed.nxt_of_lt hcurrent hend
      have hne : s.nxt s.current ≠ 0 := by
        intro hzero
        exact h.nonzero (hzero ▸ List.mem_of_getElem? hnext)
      rw [if_pos hend] at hturn
      rw [if_pos hne]
      exact Option.some.inj (hnext.symm.trans hturn)
    · have hzero := h.listed.nxt_of_last hcurrent (by omega)
      rw [if_neg hend] at hturn
      rw [if_neg (not_not.mpr hzero)]
      exact Option.some.inj (h.listed.getElem?_zero.symm.trans hturn)

end Represents

/-! ### Whole runs -/

/-- The moves of a run. -/
def moves (os : List Observed) : List (Move ℕ) :=
  os.map fun o => match o.event with
    | .create thread _ _ _ => .append thread
    | .tick _ => .turn

section Runs

variable {s t : Threads} {r : Rotation ℕ} {os : List Observed}

/-- The items are the threads that were there and those that were created. -/
theorem items_foldl_moves (os : List Observed) :
    ∀ r : Rotation ℕ, ((moves os).foldl Rotation.apply r).items = r.items ++ created os := by
  induction os with
  | nil => exact fun r => (List.append_nil _).symm
  | cons o os ih =>
    intro r
    obtain ⟨event, c⟩ := o
    cases event with
    | create thread routine stack stackSize =>
      refine (ih (r.append thread)).trans ?_
      exact List.append_assoc _ _ _
    | tick currentRegs => exact ih r.turn

/-- A run follows the moves of the rotation, and selects what has its turn. -/
theorem represents_of_run (hrun : Run Step s os t) :
    ∀ r, Represents s r → (r.items ++ created os).Nodup → 0 ∉ created os →
      Represents t ((moves os).foldl Rotation.apply r) ∧ selections os = r.selected (moves os) := by
  induction hrun with
  | nil s => exact fun r h _ _ => ⟨h, rfl⟩
  | @cons s s₁ t o os hstep _ ih =>
    intro r h hnodup hzero
    obtain ⟨event, c⟩ := o
    obtain ⟨hexec, hcurrent⟩ := hstep
    cases event with
    | create thread routine stack stackSize =>
      have hcreated : created (⟨.create thread routine stack stackSize, c⟩ :: os) =
          thread :: created os := rfl
      rw [hcreated] at hnodup hzero
      have hnew : thread ∉ r.items := by
        intro hmem
        exact List.disjoint_of_nodup_append hnodup hmem List.mem_cons_self
      have h₁ := h.create hnew (fun h0 => hzero (h0 ▸ List.mem_cons_self)) hexec
      refine ih (r.append thread) h₁ ?_ fun hmem => hzero (List.mem_cons_of_mem _ hmem)
      rwa [List.append_cons] at hnodup
    | tick currentRegs =>
      obtain rfl := Except.ok.inj hexec
      have h₁ := h.tick currentRegs
      obtain ⟨ht, hselect⟩ := ih r.turn h₁ hnodup hzero
      refine ⟨ht, ?_⟩
      exact congrArg₂ List.cons (hcurrent.trans h₁.current) hselect

end Runs

/-- The rotation after `thread_init`. -/
def mainOnly (main : ℕ) : Rotation ℕ := ⟨[main], 0, Nat.one_pos⟩

/-- At first there is one thread. -/
theorem represents_threadInit {main : ℕ} (hmain : main ≠ 0) (s : Threads) :
    Represents (threadInit main s) (mainOnly main) := by
  refine ⟨⟨List.nodup_singleton main, rfl, rfl, ?_⟩, ?_, rfl⟩
  · exact List.isChain_pair.mpr (Function.update_self _ _ _)
  · exact fun h => hmain (List.mem_singleton.mp h).symm

section Turns

variable {main : ℕ} {s t : Threads} {os : List Observed}

/-- What a run does up to some point. -/
theorem represents_of_init (hmain : main ≠ 0) (hrun : Run Step (threadInit main s) os t)
    (hnodup : (main :: created os).Nodup) (hzero : 0 ∉ created os) :
    Represents t ((moves os).foldl Rotation.apply (mainOnly main)) :=
  (represents_of_run hrun (mainOnly main) (represents_threadInit hmain s) hnodup hzero).1

/-- Between two turns of one thread all others have one. -/
theorem fair_of_run (hmain : main ≠ 0) (hrun : Run Step (threadInit main s) os t)
    (hnodup : (main :: created os).Nodup) (hzero : 0 ∉ created os) {pre mid post : List Observed}
    {r₁ r₂ c u : ℕ} (hos : os = pre ++ ⟨.tick r₁, c⟩ :: (mid ++ ⟨.tick r₂, c⟩ :: post))
    (hnot : c ∉ selections mid) (hu : u ∈ main :: created pre) (hne : u ≠ c) :
    (selections mid).count u = 1 := by
  subst hos
  have hcreated : created (pre ++ ⟨.tick r₁, c⟩ :: (mid ++ ⟨.tick r₂, c⟩ :: post)) =
      created pre ++ (created mid ++ created post) := by
    simp [created]
  rw [hcreated, ← List.cons_append, ← List.append_assoc] at hnodup
  rw [hcreated] at hzero
  have hnodup' : ((main :: created pre) ++ created mid).Nodup := (List.nodup_append.mp hnodup).1
  obtain ⟨s₁, hpre, hrest⟩ := hrun.split
  -- up to the first of the two selections
  have hpre' := represents_of_init hmain hpre (List.nodup_append.mp hnodup').1
    fun hmem => hzero (List.mem_append_left _ hmem)
  cases hrest with
  | cons htick hrest =>
    obtain ⟨hexec, hc⟩ := htick
    obtain rfl := Except.ok.inj hexec
    have hfirst := hpre'.tick r₁
    obtain ⟨s₃, hmid, hrest⟩ := hrest.split
    have hitems : ((moves pre).foldl Rotation.apply (mainOnly main)).turn.items =
        main :: created pre := items_foldl_moves pre (mainOnly main)
    -- from there to the second one
    obtain ⟨hmid', hselect⟩ := represents_of_run hmid _ hfirst (by rw [hitems]; exact hnodup')
      fun hmem => hzero (List.mem_append_right _ (List.mem_append_left _ hmem))
    cases hrest with
    | cons htick _ =>
      obtain ⟨hexec, hc'⟩ := htick
      obtain rfl := Except.ok.inj hexec
      have hcurrent := hc.trans hfirst.current
      have hback := hc'.trans (hmid'.tick r₂).current
      dsimp only at hcurrent hback
      rw [hselect] at hnot ⊢
      refine Rotation.count_selected hmid'.listed.nodup ?_ (hback.symm.trans hcurrent) ?_ ?_
      · exact hcurrent ▸ hnot
      · rw [hitems]
        exact hu
      · exact hcurrent ▸ hne

/-- In every run from `thread_init` on, with different threads, the threads are listed in the order
of their creation and take turns. -/
theorem roundRobin_of_run (hmain : main ≠ 0) (hrun : Run Step (threadInit main s) os t)
    (hnodup : (main :: created os).Nodup) (hzero : 0 ∉ created os) : RoundRobin main os t := by
  have h := represents_of_init hmain hrun hnodup hzero
  have hitems : ((moves os).foldl Rotation.apply (mainOnly main)).items = main :: created os :=
    items_foldl_moves os (mainOnly main)
  have hlisted : t.Listed (main :: created os) := hitems ▸ h.listed
  refine ⟨hlisted, ?_, ?_, ?_⟩
  · rw [h.current, ← hitems]
    exact Rotation.current_mem _
  · intro r
    have hsingle : t.head = t.last ↔ created os = [] := by
      rw [hlisted.head_eq_last_iff, List.length_cons, Nat.add_eq_right, List.length_eq_zero_iff]
    unfold threadSwitchHandler
    by_cases hnone : created os = []
    · rw [if_pos (hsingle.mpr hnone), if_pos hnone]
    · rw [if_neg (hsingle.not.mpr hnone), if_neg hnone]
  · intro pre mid post r₁ r₂ c hos hnot u hu hne
    exact fair_of_run hmain hrun hnodup hzero hos hnot hu hne

end Turns

/-- Two threads are created, and the timer ticks until the first one runs again; a third one is
created on the way. -/
def threeThreads : List Observed :=
  [⟨.create 0x2000 0x400000 0x10000 0x1000, 0x1000⟩,
    ⟨.create 0x3000 0x400000 0x20000 0x1000, 0x1000⟩,
    ⟨.tick 0x8000, 0x2000⟩, ⟨.create 0x4000 0x400000 0x30000 0x1000, 0x2000⟩,
    ⟨.tick 0x10800, 0x3000⟩,
    ⟨.tick 0x20800, 0x4000⟩, ⟨.tick 0x30800, 0x1000⟩, ⟨.tick 0x8000, 0x2000⟩]

theorem roundRobin_threeThreads : ∃ t,
    Run Step (threadInit 0x1000 ⟨0, 0, 0, fun _ => 0, fun _ => 0, fun _ => default⟩)
    threeThreads t ∧ RoundRobin 0x1000 threeThreads t := by
  have hrun : ∃ t, Run Step (threadInit 0x1000 ⟨0, 0, 0, fun _ => 0, fun _ => 0, fun _ => default⟩)
      threeThreads t :=
    ⟨_, .cons ⟨rfl, rfl⟩ (.cons ⟨rfl, rfl⟩ (.cons ⟨rfl, rfl⟩ (.cons ⟨rfl, rfl⟩ (.cons ⟨rfl, rfl⟩
      (.cons ⟨rfl, rfl⟩ (.cons ⟨rfl, rfl⟩ (.cons ⟨rfl, rfl⟩ (.nil _))))))))⟩
  obtain ⟨t, hrun⟩ := hrun
  exact ⟨t, hrun, roundRobin_of_run (by decide) hrun (by decide) (by decide)⟩

end Savannah.Thread
