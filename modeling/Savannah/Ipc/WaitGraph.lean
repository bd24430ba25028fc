import Savannah.Ipc.System

/-!
# Waits among the servers and the drivers

PM waits for FS in an `exec`, and FS for PM while it opens or closes a channel; nothing keeps the
two from doing so at the same time (`exec_open_cycle`).  `Event.Exclusive` is the condition on when
the servers take up such a request.  Under it a chain of waits has at most two links
(`WaitInv.no_chain`), and so there is no cycle.

* `WaitInv` is the invariant; `WaitInv.frame` covers the steps outside the handshake of a server
  with a driver, and one lemma each the steps of the handshake;
* `WaitInv.step` puts them together, and `no_wait_cycle` is the result for runs.
-/

namespace Savannah.Ipc

open Foundation Sys

/-! ### The condition -/

/-- PM is inside `local_exec`. -/
def PmPhase.IsExec : PmPhase → Prop
  | .execStart _ | .execWait _ => True
  | _ => False

/-- PM has channels of an exiting VM to close. -/
def PmPhase.IsClosing : PmPhase → Prop
  | .exitNext _ (_ :: _) | .exitWait _ _ _ => True
  | _ => False

/-- FS is inside `local_close_char`. -/
def FsPhase.IsClosing : FsPhase → Prop
  | .closeStart _ _ | .closeWait _ _ | .closePm _ _ _ => True
  | _ => False

/-- The condition on a step: PM takes an `exec` only when FS is idle, and the exit of a VM with open
channels only when FS is not closing one; FS takes the open of a character device only when PM is
not inside an `exec`, and its close only when PM is neither inside an `exec` nor closing
channels. -/
def Event.Exclusive (s : Sys) : Event → Prop
  | .pmTake c => (s.toPm c = some .exec → s.fs = .idle) ∧
      (s.toPm c = some .exit → s.channels c ≠ [] → ¬ s.fs.IsClosing)
  | .fsTake c => (∀ d, s.toFs c = some (.openChar d) → ¬ s.pm.IsExec) ∧
      ∀ ch, s.toFs c = some (.closeChar ch) → ¬ s.pm.IsExec ∧ ¬ s.pm.IsClosing
  | _ => True

/-- The invariant behind the absence of cycles: at most one of the servers is inside a wait that the
other, or a driver of the other, could need; and a driver that waits has answered the server that it
waits for. -/
structure WaitInv (s : Sys) : Prop where
  exec : s.pm.IsExec → s.fs = .idle
  exit : s.pm.IsClosing → ¬ s.fs.IsClosing
  sendPm : ∀ ch, (s.channel ch).readySend = some .pm →
    (s.channel ch).readyReply = false ∧ ∃ c rest, s.pm = .exitWait c ch rest
  sendFs : ∀ ch, (s.channel ch).readySend = some .fs →
    (s.channel ch).readyReply = false ∧ ∃ c, s.fs = .closeWait c ch
  closingPm : ∀ d, s.driver d = .closing .pm → s.driverInput d = false →
    ∃ c ch rest, s.pm = .exitWait c ch rest ∧ (s.channel ch).driver = d ∧
      (s.channel ch).readyReply = true
  closingFs : ∀ d, s.driver d = .closing .fs → s.driverInput d = false →
    (∃ c ch, s.fs = .closeWait c ch ∧ (s.channel ch).driver = d ∧
      (s.channel ch).readyReply = true) ∨ ∃ c ch, s.fs = .closePm c ch d
  usedChannels : ∀ c, ∀ ch ∈ s.channels c, ch ∈ s.used
  usedNext : ∀ c chs, s.pm = .exitNext c chs → ∀ ch ∈ chs, ch ∈ s.used
  usedPm : ∀ c ch rest, s.pm = .exitWait c ch rest → ch ∈ s.used ∧ ∀ ch ∈ rest, ch ∈ s.used
  usedFs : ∀ c ch, s.fs = .closeStart c ch ∨ s.fs = .closeWait c ch → ch ∈ s.used

/-- The invariant holds at the start. -/
theorem waitInv_init : WaitInv init where
  exec h := h.elim
  exit h := h.elim
  sendPm _ h := nomatch h
  sendFs _ h := nomatch h
  closingPm _ h := nomatch h
  closingFs _ h := nomatch h
  usedChannels _ _ h := nomatch h
  usedNext _ _ h := nomatch h
  usedPm _ _ _ h := nomatch h
  usedFs _ _ h := h.elim (fun h => nomatch h) fun h => nomatch h

section Acyclic

variable {s : Sys} {x y z w : Party}

/-- PM waits for FS only when FS is idle. -/
theorem WaitInv.pm_fs (h : WaitInv s) (hw : Waits s .pm .fs) : ¬ Waits s .fs x := by
  obtain ⟨⟨c, hpm⟩, -⟩ := hw
  have hidle : s.fs = .idle := h.exec (by rw [hpm]; trivial)
  cases x with
  | pm =>
    rintro ⟨⟨c, d, hfs⟩ | ⟨c, ch, d, hfs⟩, -⟩ <;> rw [hidle] at hfs <;> cases hfs
  | fs => exact id
  | driver d =>
    rintro ⟨c, ch, hfs, -⟩
    rw [hidle] at hfs
    cases hfs

/-- A driver that PM waits for waits for nobody. -/
theorem WaitInv.pm_driver {d : Driver} (h : WaitInv s) (hw : Waits s .pm (.driver d)) :
    ¬ Waits s (.driver d) x := by
  obtain ⟨c, ch, rest, hpm, -, hreply⟩ := hw
  have hclosing : ¬ s.fs.IsClosing := h.exit (by rw [hpm]; trivial)
  cases x with
  | pm =>
    rintro ⟨hd, hin⟩
    obtain ⟨c', ch', rest', hpm', -, hreply'⟩ := h.closingPm d hd hin
    rw [hpm] at hpm'
    cases hpm'
    rw [hreply] at hreply'
    cases hreply'
  | fs =>
    rintro ⟨hd, hin⟩
    rcases h.closingFs d hd hin with ⟨c', ch', hfs, -⟩ | ⟨c', ch', hfs⟩ <;>
      exact hclosing (by rw [hfs]; trivial)
  | driver d' => exact id

/-- A driver that FS waits for waits for nobody. -/
theorem WaitInv.fs_driver {d : Driver} (h : WaitInv s) (hw : Waits s .fs (.driver d)) :
    ¬ Waits s (.driver d) x := by
  obtain ⟨c, ch, hfs, -, hreply⟩ := hw
  cases x with
  | pm =>
    rintro ⟨hd, hin⟩
    obtain ⟨c', ch', rest', hpm, -⟩ := h.closingPm d hd hin
    exact h.exit (by rw [hpm]; trivial) (by rw [hfs]; trivial)
  | fs =>
    rintro ⟨hd, hin⟩
    rcases h.closingFs d hd hin with ⟨c', ch', hfs', -, hreply'⟩ | ⟨c', ch', hfs'⟩
    · rw [hfs] at hfs'
      cases hfs'
      rw [hreply] at hreply'
      cases hreply'
    · rw [hfs] at hfs'
      cases hfs'
  | driver d' => exact id

/-- PM does not wait while a driver waits for it. -/
theorem WaitInv.driver_pm {d : Driver} (h : WaitInv s) (hw : Waits s (.driver d) .pm) :
    ¬ Waits s .pm x := by
  obtain ⟨c, ch, rest, hpm, -, hreply⟩ := h.closingPm d hw.1 hw.2
  cases x with
  | pm => exact id
  | fs =>
    rintro ⟨⟨c', hpm'⟩, -⟩
    rw [hpm] at hpm'
    cases hpm'
  | driver d' =>
    rintro ⟨c', ch', rest', hpm', -, hreply'⟩
    rw [hpm] at hpm'
    cases hpm'
    rw [hreply] at hreply'
    cases hreply'

/-- While a driver waits for FS, FS waits at most for PM, and PM for nobody. -/
theorem WaitInv.driver_fs {d : Driver} (h : WaitInv s) (hw : Waits s (.driver d) .fs)
    (hfs : Waits s .fs x) : ¬ Waits s x y := by
  have hclosing : s.fs.IsClosing := by
    rcases h.closingFs d hw.1 hw.2 with ⟨c, ch, hfs', -⟩ | ⟨c, ch, hfs'⟩ <;> rw [hfs'] <;> trivial
  cases x with
  | pm =>
    have hpm : ¬ s.pm.IsClosing := fun hpm => h.exit hpm hclosing
    have hexec : ¬ s.pm.IsExec := fun hexec => by
      rw [h.exec hexec] at hclosing
      exact hclosing
    cases y with
    | pm => exact id
    | fs =>
      rintro ⟨⟨c, hpm'⟩, -⟩
      exact hexec (by rw [hpm']; trivial)
    | driver d' =>
      rintro ⟨c, ch, rest, hpm', -⟩
      exact hpm (by rw [hpm']; trivial)
  | fs => exact hfs.elim
  | driver d' => exact h.fs_driver hfs

/-- With the invariant, chains of waits end after two steps. -/
theorem WaitInv.no_chain (h : WaitInv s) (hxy : Waits s x y) (hyz : Waits s y z) :
    ¬ Waits s z w := by
  cases x with
  | pm =>
    cases y with
    | pm => exact hxy.elim
    | fs => exact absurd hyz (h.pm_fs hxy)
    | driver d => exact absurd hyz (h.pm_driver hxy)
  | fs =>
    cases y with
    | pm =>
      cases z with
      | pm => exact hyz.elim
      | fs => exact absurd hxy (h.pm_fs hyz)
      | driver d => exact h.pm_driver hyz
    | fs => exact hxy.elim
    | driver d => exact absurd hyz (h.fs_driver hxy)
  | driver d =>
    cases y with
    | pm => exact absurd hyz (h.driver_pm hxy)
    | fs => exact h.driver_fs hxy hyz
    | driver d' => exact hxy.elim

/-- A relation whose chains are short has no cycle. -/
private theorem not_transGen_self {α : Type} {r : α → α → Prop}
    (h : ∀ x y z w, r x y → r y z → ¬ r z w) (x : α) : ¬ Relation.TransGen r x x := by
  have key : ∀ x, Relation.TransGen r x x → ∃ y, r x y ∧ Relation.TransGen r y y := by
    intro x hx
    obtain ⟨y, hxy, hyx⟩ := Relation.TransGen.head'_iff.mp hx
    exact ⟨y, hxy, Relation.TransGen.tail' hyx hxy⟩
  intro hx
  obtain ⟨y, hxy, hy⟩ := key x hx
  obtain ⟨z, hyz, hz⟩ := key y hy
  obtain ⟨w, hzw, -⟩ := key z hz
  exact h x y z w hxy hyz hzw

end Acyclic

/-! ### The steps keep the invariant -/

section Step

variable {s s' : Sys} {c ch : ℕ} {d : Driver}

/-- Steps that leave the channels, the drivers and the waits for drivers alone. -/
theorem WaitInv.frame (h : WaitInv s) (hchannel : s'.channel = s.channel)
    (hdriver : s'.driver = s.driver) (hinput : s'.driverInput = s.driverInput)
    (hused : s'.used = s.used) (hchannels : ∀ c, ∀ ch ∈ s'.channels c, ch ∈ s.used)
    (hpm : s'.pm = s.pm ∨ (∀ c ch rest, s.pm ≠ .exitWait c ch rest) ∧
      ∀ c ch rest, s'.pm ≠ .exitWait c ch rest)
    (hfs : s'.fs = s.fs ∨ ¬ s.fs.IsClosing ∧ ∀ c ch, s'.fs ≠ .closeWait c ch)
    (hexec : s'.pm.IsExec → s'.fs = .idle) (hexit : s'.pm.IsClosing → ¬ s'.fs.IsClosing)
    (hnext : ∀ c chs, s'.pm = .exitNext c chs → ∀ ch ∈ chs, ch ∈ s.used)
    (hstart : ∀ c ch, s'.fs = .closeStart c ch → ch ∈ s.used) : WaitInv s' := by
  have hpm' : ∀ {c ch rest}, s.pm = .exitWait c ch rest → s'.pm = .exitWait c ch rest := by
    intro c ch rest heq
    rcases hpm with hpm | ⟨hpm, -⟩
    · rw [hpm, heq]
    · exact absurd heq (hpm c ch rest)
  have hfs' : s.fs.IsClosing → s'.fs = s.fs := fun hc => hfs.resolve_right fun h => h.1 hc
  refine ⟨hexec, hexit, ?_, ?_, ?_, ?_, ?_, ?_, ?_, ?_⟩
  · rw [hchannel]
    intro ch hsend
    obtain ⟨hreply, c, rest, heq⟩ := h.sendPm ch hsend
    exact ⟨hreply, c, rest, hpm' heq⟩
  · rw [hchannel]
    intro ch hsend
    obtain ⟨hreply, c, heq⟩ := h.sendFs ch hsend
    exact ⟨hreply, c, by rw [hfs' (by rw [heq]; trivial), heq]⟩
  · rw [hchannel, hdriver, hinput]
    intro d hd hin
    obtain ⟨c, ch, rest, heq, hrest⟩ := h.closingPm d hd hin
    exact ⟨c, ch, rest, hpm' heq, hrest⟩
  · rw [hchannel, hdriver, hinput]
    intro d hd hin
    have hclosing : s.fs.IsClosing := by
      rcases h.closingFs d hd hin with ⟨c, ch, heq, -⟩ | ⟨c, ch, heq⟩ <;> rw [heq] <;> trivial
    rw [hfs' hclosing]
    exact h.closingFs d hd hin
  · rw [hused]
    exact hchannels
  · rw [hused]
    exact hnext
  · rw [hused]
    intro c ch rest heq
    rcases hpm with hpm | ⟨-, hpm⟩
    · exact h.usedPm c ch rest (hpm ▸ heq)
    · exact absurd heq (hpm c ch rest)
  · rw [hused]
    rintro c ch (heq | heq)
    · exact hstart c ch heq
    · rcases hfs with hfs | ⟨-, hfs⟩
      · exact h.usedFs c ch (Or.inr (hfs ▸ heq))
      · exact absurd heq (hfs c ch)

theorem create_channel :
    (s.create c ch d).channel = Function.update s.channel ch ⟨d, none, false⟩ := rfl

theorem create_channels :
    (s.create c ch d).channels = Function.update s.channels c (s.channels c ++ [ch]) := rfl

/-- A new channel has a number that nobody waits for. -/
theorem WaitInv.create (h : WaitInv s) (hch : ch ∉ s.used) : WaitInv (s.create c ch d) := by
  have hother : ∀ ch', ch' ∈ s.used → (s.create c ch d).channel ch' = s.channel ch' := by
    intro ch' hmem
    have hne : ch' ≠ ch := fun heq => hch (heq ▸ hmem)
    rw [create_channel, Function.update_of_ne hne]
  have hsend : ∀ ch' server, ((s.create c ch d).channel ch').readySend = some server →
      (s.create c ch d).channel ch' = s.channel ch' := by
    intro ch' server heq
    by_cases hcc : ch' = ch
    · rw [hcc, create_channel, Function.update_self] at heq
      cases heq
    · rw [create_channel, Function.update_of_ne hcc]
  refine ⟨h.exec, h.exit, fun ch' hs => ?_, fun ch' hs => ?_, fun d' hd hin => ?_,
    fun d' hd hin => ?_, fun c' ch' hmem => ?_, fun c' chs heq ch' hmem => ?_,
    fun c' ch' rest heq => ?_, fun c' ch' heq => ?_⟩
  · have heq := hsend ch' _ hs
    rw [heq] at hs ⊢
    exact h.sendPm ch' hs
  · have heq := hsend ch' _ hs
    rw [heq] at hs ⊢
    exact h.sendFs ch' hs
  · obtain ⟨c', ch', rest, heq, hrest⟩ := h.closingPm d' hd hin
    refine ⟨c', ch', rest, heq, ?_⟩
    rw [hother ch' (h.usedPm c' ch' rest heq).1]
    exact hrest
  · rcases h.closingFs d' hd hin with ⟨c', ch', heq, hrest⟩ | hpm
    · refine Or.inl ⟨c', ch', heq, ?_⟩
      rw [hother ch' (h.usedFs c' ch' (Or.inr heq))]
      exact hrest
    · exact Or.inr hpm
  · refine Finset.mem_insert.mpr ?_
    by_cases hcc : c' = c
    · subst hcc
      rw [create_channels, Function.update_self] at hmem
      rcases List.mem_append.mp hmem with hmem | hmem
      · exact Or.inr (h.usedChannels _ ch' hmem)
      · exact Or.inl (List.mem_singleton.mp hmem)
    · rw [create_channels, Function.update_of_ne hcc] at hmem
      exact Or.inr (h.usedChannels c' ch' hmem)
  · exact Finset.mem_insert_of_mem (h.usedNext c' chs heq ch' hmem)
  · obtain ⟨h₁, h₂⟩ := h.usedPm c' ch' rest heq
    exact ⟨Finset.mem_insert_of_mem h₁, fun ch'' hmem => Finset.mem_insert_of_mem (h₂ ch'' hmem)⟩
  · exact Finset.mem_insert_of_mem (h.usedFs c' ch' heq)

/-- A marker is on a channel only while a server waits for the answer. -/
theorem WaitInv.readySend_eq_none (h : WaitInv s)
    (hpm : ∀ c ch rest, s.pm = .exitWait c ch rest → (s.channel ch).readyReply = true)
    (hfs : ∀ c ch, s.fs = .closeWait c ch → (s.channel ch).readyReply = true) (ch : ℕ) :
    (s.channel ch).readySend = none := by
  cases hs : (s.channel ch).readySend with
  | none => rfl
  | some server =>
    cases server with
    | pm =>
      obtain ⟨hr, c, rest, heq⟩ := h.sendPm ch hs
      cases (hpm c ch rest heq).symm.trans hr
    | fs =>
      obtain ⟨hr, c, heq⟩ := h.sendFs ch hs
      cases (hfs c ch heq).symm.trans hr

/-- The first marker. -/
theorem readySend_cnlSend {server server' : Server} {ch' : ℕ}
    (hsend : ∀ ch, (s.channel ch).readySend = none)
    (hs : ((s.cnlSend ch server).channel ch').readySend = some server') :
    ch' = ch ∧ server = server' := by
  by_cases hcc : ch' = ch
  · exact ⟨hcc, by simpa [Sys.cnlSend, hcc] using hs⟩
  · simp [Sys.cnlSend, Function.update_of_ne hcc, hsend ch'] at hs

/-- Taking an answer puts no marker on a channel. -/
theorem readySend_cnlReceived {server : Server} {ch' : ℕ}
    (hsend : ∀ ch, (s.channel ch).readySend = none) :
    ((s.cnlReceived ch).channel ch').readySend ≠ some server := by
  by_cases hcc : ch' = ch
  · simp [cnlReceived, hcc, hsend ch]
  · simp [cnlReceived, Function.update_of_ne hcc, hsend ch']

/-- Without a server that waits for a driver, or that a driver waits for, no handshake is going
on. -/
theorem WaitInv.quiet (h : WaitInv s) (hpm : ∀ c ch rest, s.pm ≠ .exitWait c ch rest)
    (hwait : ∀ c ch, s.fs ≠ .closeWait c ch) (hclose : ∀ c ch d, s.fs ≠ .closePm c ch d) :
    (∀ ch, (s.channel ch).readySend = none) ∧
      ∀ d server, s.driver d = .closing server → s.driverInput d = true := by
  constructor
  · exact h.readySend_eq_none (fun c ch rest heq => absurd heq (hpm c ch rest))
      fun c ch heq => absurd heq (hwait c ch)
  · intro d server hd
    by_contra hin
    rw [Bool.not_eq_true] at hin
    cases server with
    | pm =>
      obtain ⟨c, ch, rest, heq, -⟩ := h.closingPm d hd hin
      exact hpm c ch rest heq
    | fs =>
      rcases h.closingFs d hd hin with ⟨c, ch, heq, -⟩ | ⟨c, ch, heq⟩
      · exact hwait c ch heq
      · exact hclose c ch d heq

/-- PM starts to close a channel. -/
theorem WaitInv.cnlSendPm {rest : List ℕ} (h : WaitInv s)
    (hpm : s.pm = .exitNext c (ch :: rest)) :
    WaitInv (Sys.cnlSend ch .pm { s with pm := .exitWait c ch rest }) := by
  have hfs : ¬ s.fs.IsClosing := h.exit (by rw [hpm]; trivial)
  obtain ⟨hsend, hclosing⟩ := h.quiet (fun _ _ _ heq => by rw [hpm] at heq; cases heq)
    (fun _ _ heq => hfs (by rw [heq]; trivial)) fun _ _ _ heq => hfs (by rw [heq]; trivial)
  have hused := h.usedNext c (ch :: rest) hpm
  refine ⟨fun hx => hx.elim, fun _ => hfs, fun ch' hs => ?_, fun ch' hs => ?_, fun d hd hin => ?_,
    fun d hd hin => ?_, h.usedChannels, fun _ _ heq => (nomatch heq), fun c' ch' rest' heq => ?_,
    h.usedFs⟩
  · obtain ⟨rfl, -⟩ := readySend_cnlSend hsend hs
    exact ⟨by simp [Sys.cnlSend], c, rest, rfl⟩
  · cases (readySend_cnlSend hsend hs).2
  · exact absurd ((hclosing d _ hd).symm.trans hin) (by decide)
  · exact absurd ((hclosing d _ hd).symm.trans hin) (by decide)
  · cases heq
    exact ⟨hused ch List.mem_cons_self, fun ch' hmem => hused ch' (List.mem_cons_of_mem _ hmem)⟩

/-- FS starts to close a channel. -/
theorem WaitInv.cnlSendFs (h : WaitInv s) (hfs : s.fs = .closeStart c ch) :
    WaitInv (Sys.cnlSend ch .fs { s with fs := .closeWait c ch }) := by
  have hpm : ¬ s.pm.IsClosing := fun hpm => h.exit hpm (by rw [hfs]; trivial)
  obtain ⟨hsend, hclosing⟩ := h.quiet (fun _ _ _ heq => hpm (by rw [heq]; trivial))
    (fun _ _ heq => by rw [hfs] at heq; cases heq) fun _ _ _ heq => by rw [hfs] at heq; cases heq
  refine ⟨fun hx => ?_, fun hx => absurd hx hpm, fun ch' hs => ?_, fun ch' hs => ?_,
    fun d hd hin => ?_, fun d hd hin => ?_, h.usedChannels, h.usedNext, h.usedPm, ?_⟩
  · have := h.exec hx
    rw [hfs] at this
    cases this
  · cases (readySend_cnlSend hsend hs).2
  · obtain ⟨rfl, -⟩ := readySend_cnlSend hsend hs
    exact ⟨by simp [Sys.cnlSend], c, rfl⟩
  · exact absurd ((hclosing d _ hd).symm.trans hin) (by decide)
  · exact absurd ((hclosing d _ hd).symm.trans hin) (by decide)
  · rintro c' ch' (heq | heq)
    · cases heq
    · cases heq
      exact h.usedFs c ch (Or.inl hfs)

/-- PM finds the answer of the driver and sends it the last message. -/
theorem WaitInv.pmReceived {rest : List ℕ} (h : WaitInv s) (hpm : s.pm = .exitWait c ch rest)
    (hreply : (s.channel ch).readyReply = true) :
    WaitInv (notify (s.channel ch).driver
      (cnlReceived ch { s with pm := .exitNext c rest })) := by
  have hfs : ¬ s.fs.IsClosing := h.exit (by rw [hpm]; trivial)
  have hsend :=
    h.readySend_eq_none (fun c' ch' rest' heq => by cases hpm.symm.trans heq; exact hreply)
    fun c' ch' heq => absurd (by rw [heq]; trivial) hfs
  refine ⟨fun hx => hx.elim, fun _ => hfs, fun ch' hs => ?_, fun ch' hs => ?_, fun d hd hin => ?_,
    fun d hd hin => ?_, h.usedChannels, fun c' chs heq => ?_, fun _ _ _ heq => (nomatch heq),
    h.usedFs⟩
  · exact absurd hs (readySend_cnlReceived hsend)
  · exact absurd hs (readySend_cnlReceived hsend)
  · by_cases hdd : d = (s.channel ch).driver
    · simp [notify, hdd] at hin
    · simp only [notify, Function.update_of_ne hdd] at hin
      obtain ⟨c', ch', rest', heq, hdrv, -⟩ := h.closingPm d hd hin
      rw [hpm] at heq
      cases heq
      exact absurd hdrv.symm hdd
  · by_cases hdd : d = (s.channel ch).driver
    · simp [notify, hdd] at hin
    · simp only [notify, Function.update_of_ne hdd] at hin
      rcases h.closingFs d hd hin with ⟨c', ch', heq, -⟩ | ⟨c', ch', heq⟩ <;>
        exact absurd (by rw [heq]; trivial) hfs
  · cases heq
    exact (h.usedPm c ch rest hpm).2

/-- FS finds the answer of the driver and asks PM to close the channel. -/
theorem WaitInv.fsReceived (h : WaitInv s) (hfs : s.fs = .closeWait c ch)
    (hreply : (s.channel ch).readyReply = true) (f : ℕ → Option PmRequest) :
    WaitInv (cnlReceived ch { s with fs := .closePm c ch (s.channel ch).driver, toPm := f }) := by
  have hpm : ¬ s.pm.IsClosing := fun hpm => h.exit hpm (by rw [hfs]; trivial)
  have hsend := h.readySend_eq_none (fun c' ch' rest' heq => absurd (by rw [heq]; trivial) hpm)
    fun c' ch' heq => by cases hfs.symm.trans heq; exact hreply
  refine ⟨fun hx => ?_, fun hx => absurd hx hpm, fun ch' hs => ?_, fun ch' hs => ?_,
    fun d hd hin => ?_, fun d hd hin => ?_, h.usedChannels, h.usedNext, h.usedPm, ?_⟩
  · have := h.exec hx
    rw [hfs] at this
    cases this
  · exact absurd hs (readySend_cnlReceived hsend)
  · exact absurd hs (readySend_cnlReceived hsend)
  · obtain ⟨c', ch', rest', heq, -⟩ := h.closingPm d hd hin
    exact absurd (by rw [heq]; trivial) hpm
  · rcases h.closingFs d hd hin with ⟨c', ch', heq, hdrv, -⟩ | ⟨c', ch', heq⟩
    · rw [hfs] at heq
      cases heq
      exact Or.inr ⟨c, ch, by rw [← hdrv]; rfl⟩
    · rw [hfs] at heq
      cases heq
  · rintro c' ch' (heq | heq) <;> cases heq

/-- FS finds PM's answer and sends the driver the last message. -/
theorem WaitInv.fsDone (h : WaitInv s) (hfs : s.fs = .closePm c ch d)
    (f : ℕ → List ℕ) (hf : ∀ c, ∀ ch ∈ f c, ch ∈ s.used) :
    WaitInv (notify d { s with fs := .idle, fsInput := false, channels := f }) := by
  have hpm : ¬ s.pm.IsClosing := fun hpm => h.exit hpm (by rw [hfs]; trivial)
  refine ⟨fun _ => rfl, fun hx => absurd hx hpm, h.sendPm, fun ch' hs => ?_, fun d' hd hin => ?_,
    fun d' hd hin => ?_, hf, h.usedNext, h.usedPm, ?_⟩
  · obtain ⟨-, c', heq⟩ := h.sendFs ch' hs
    rw [hfs] at heq
    cases heq
  · by_cases hdd : d' = d
    · simp [notify, hdd] at hin
    · simp only [notify, Function.update_of_ne hdd] at hin
      exact h.closingPm d' hd hin
  · by_cases hdd : d' = d
    · simp [notify, hdd] at hin
    · simp only [notify, Function.update_of_ne hdd] at hin
      rcases h.closingFs d' hd hin with ⟨c', ch', heq, -⟩ | ⟨c', ch', heq⟩
      · rw [hfs] at heq
        cases heq
      · rw [hfs] at heq
        cases heq
        exact absurd rfl hdd
  · rintro c' ch' (heq | heq) <;> cases heq

/-- A driver answers a server that closes a channel. -/
theorem WaitInv.driverTake {server : Server} (h : WaitInv s) (hidle : s.driver d = .idle)
    (hsend : (s.channel ch).readySend = some server) (hdrv : (s.channel ch).driver = d) :
    WaitInv { s with
      channel := Function.update s.channel ch ⟨d, none, true⟩
      driver := Function.update s.driver d (.closing server) } := by
  have hother : ∀ d' server', Function.update s.driver d (.closing server) d' = .closing server' →
      d' ≠ d → s.driver d' = .closing server' := by
    intro d' server' heq hdd
    rwa [Function.update_of_ne hdd] at heq
  -- the channel of another driver is another channel
  have hchannel : ∀ ch', (s.channel ch').driver ≠ d →
      Function.update s.channel ch ⟨d, none, true⟩ ch' = s.channel ch' := by
    intro ch' hne
    have hcc : ch' ≠ ch := by
      rintro rfl
      exact hne hdrv
    rw [Function.update_of_ne hcc]
  refine ⟨h.exec, h.exit, fun ch' hs => ?_, fun ch' hs => ?_, fun d' hd hin => ?_,
    fun d' hd hin => ?_, h.usedChannels, h.usedNext, h.usedPm, h.usedFs⟩
  · by_cases hcc : ch' = ch
    · simp [hcc] at hs
    · simp only [Function.update_of_ne hcc] at hs ⊢
      exact h.sendPm ch' hs
  · by_cases hcc : ch' = ch
    · simp [hcc] at hs
    · simp only [Function.update_of_ne hcc] at hs ⊢
      exact h.sendFs ch' hs
  · by_cases hdd : d' = d
    · subst hdd
      have hserver : server = .pm := by simpa using hd
      subst hserver
      obtain ⟨-, c, rest, heq⟩ := h.sendPm ch hsend
      exact ⟨c, ch, rest, heq, by simp, by simp⟩
    · obtain ⟨c, ch', rest, heq, hd', hr⟩ := h.closingPm d' (hother d' _ hd hdd) hin
      refine ⟨c, ch', rest, heq, ?_⟩
      simp only [hchannel ch' (by rw [hd']; exact hdd)]
      exact ⟨hd', hr⟩
  · by_cases hdd : d' = d
    · subst hdd
      have hserver : server = .fs := by simpa using hd
      subst hserver
      obtain ⟨-, c, heq⟩ := h.sendFs ch hsend
      exact Or.inl ⟨c, ch, heq, by simp, by simp⟩
    · rcases h.closingFs d' (hother d' _ hd hdd) hin with ⟨c, ch', heq, hd', hr⟩ | hpm
      · refine Or.inl ⟨c, ch', heq, ?_⟩
        simp only [hchannel ch' (by rw [hd']; exact hdd)]
        exact ⟨hd', hr⟩
      · exact Or.inr hpm

/-- A driver finds the last message. -/
theorem WaitInv.driverReceive (h : WaitInv s) :
    WaitInv { s with
      driver := Function.update s.driver d .idle
      driverInput := Function.update s.driverInput d false } := by
  have hother : ∀ d' server, Function.update s.driver d .idle d' = .closing server → d' ≠ d := by
    rintro d' server heq rfl
    rw [Function.update_self] at heq
    cases heq
  refine ⟨h.exec, h.exit, h.sendPm, h.sendFs, fun d' hd hin => ?_, fun d' hd hin => ?_,
    h.usedChannels, h.usedNext, h.usedPm, h.usedFs⟩
  · have hdd := hother d' _ hd
    simp only [Function.update_of_ne hdd] at hd hin
    exact h.closingPm d' hd hin
  · have hdd := hother d' _ hd
    simp only [Function.update_of_ne hdd] at hd hin
    exact h.closingFs d' hd hin

/-- Requests and answers that are not part of a handshake with a driver. -/
theorem WaitInv.messages (h : WaitInv s) (hpm : s'.pm = s.pm) (hfs : s'.fs = s.fs)
    (hchannel : s'.channel = s.channel) (hdriver : s'.driver = s.driver)
    (hinput : s'.driverInput = s.driverInput) (hused : s'.used = s.used)
    (hchannels : s'.channels = s.channels) : WaitInv s' := by
  refine h.frame hchannel hdriver hinput hused ?_ (Or.inl hpm) (Or.inl hfs) ?_ ?_ ?_ ?_
  · rw [hchannels]
    exact h.usedChannels
  · rw [hpm, hfs]
    exact h.exec
  · rw [hpm, hfs]
    exact h.exit
  · rw [hpm]
    exact h.usedNext
  · rw [hfs]
    exact fun c ch heq => h.usedFs c ch (Or.inl heq)

/-- Channels in use stay recorded. -/
theorem mem_used_update (h : WaitInv s) {chs : List ℕ} (hchs : ∀ ch ∈ chs, ch ∈ s.used) :
    ∀ c', ∀ ch ∈ Function.update s.channels c chs c', ch ∈ s.used := by
  intro c' ch hmem
  by_cases hcc : c' = c
  · rw [hcc, Function.update_self] at hmem
    exact hchs ch hmem
  · rw [Function.update_of_ne hcc] at hmem
    exact h.usedChannels c' ch hmem

/-- PM takes a request. -/
theorem WaitInv.pmTake {r : PmRequest} (h : WaitInv s) (hidle : s.pm = .idle)
    (hr : s.toPm c = some r) (hg : Event.Exclusive s (.pmTake c)) :
    WaitInv (pmServe c { s with toPm := Function.update s.toPm c none } r) := by
  have hstart : ∀ c ch, s.fs = .closeStart c ch → ch ∈ s.used := fun c ch heq =>
    h.usedFs c ch (Or.inl heq)
  have hno : ∀ c ch rest, s.pm ≠ .exitWait c ch rest := fun _ _ _ heq => by
    rw [hidle] at heq
    cases heq
  cases r with
  | exec =>
    exact h.frame rfl rfl rfl rfl h.usedChannels (Or.inr ⟨hno, fun _ _ _ heq => nomatch heq⟩)
      (Or.inl rfl) (fun _ => hg.1 hr) (fun hx => hx.elim) (fun _ _ heq => nomatch heq) hstart
  | exit =>
    refine h.frame rfl rfl rfl rfl h.usedChannels (Or.inr ⟨hno, fun _ _ _ heq => nomatch heq⟩)
      (Or.inl rfl) (fun hx => hx.elim) (fun hx => hg.2 hr fun hnil => ?_) (fun c' chs heq => ?_)
      hstart
    · simp only [pmServe, hnil] at hx
      exact hx
    · cases heq
      exact h.usedChannels c
  | fork child =>
    exact h.frame rfl rfl rfl rfl (mem_used_update h fun _ hmem => absurd hmem List.not_mem_nil)
      (Or.inr ⟨hno, fun _ _ _ heq => nomatch heq⟩) (Or.inl rfl) (fun hx => hx.elim)
      (fun hx => hx.elim) (fun _ _ heq => nomatch heq) hstart
  | channel => exact h.messages rfl rfl rfl rfl rfl rfl rfl
  | channelClose => exact h.messages rfl rfl rfl rfl rfl rfl rfl

/-- FS takes a request. -/
theorem WaitInv.fsTake {r : FsRequest} (h : WaitInv s) (hidle : s.fs = .idle)
    (hr : s.toFs c = some r) (hg : Event.Exclusive s (.fsTake c)) :
    WaitInv (fsServe c { s with toFs := Function.update s.toFs c none } r) := by
  have hopen : ¬ s.fs.IsClosing := by
    rw [hidle]
    exact id
  have hnext : ∀ c chs, s.pm = .exitNext c chs → ∀ ch ∈ chs, ch ∈ s.used := h.usedNext
  cases r with
  | openChar d =>
    exact h.frame rfl rfl rfl rfl h.usedChannels (Or.inl rfl)
      (Or.inr ⟨hopen, fun _ _ heq => nomatch heq⟩) (fun hx => absurd hx (hg.1 d hr))
      (fun _ => id) hnext fun _ _ heq => nomatch heq
  | openFile => exact h.messages rfl rfl rfl rfl rfl rfl rfl
  | closeChar ch =>
    unfold fsServe
    dsimp only
    split
    · rename_i hmem
      refine h.frame rfl rfl rfl rfl h.usedChannels (Or.inl rfl)
        (Or.inr ⟨hopen, fun _ _ heq => nomatch heq⟩) (fun hx => absurd hx (hg.2 ch hr).1)
        (fun hx => absurd hx (hg.2 ch hr).2) hnext fun c' ch' heq => ?_
      cases heq
      exact h.usedChannels c ch hmem
    · exact h.messages rfl rfl rfl rfl rfl rfl rfl
  | closeFile => exact h.messages rfl rfl rfl rfl rfl rfl rfl
  | load => exact h.messages rfl rfl rfl rfl rfl rfl rfl

/-- PM goes on. -/
theorem WaitInv.pmSend (h : WaitInv s) (hs : pmSend ch s = some s') : WaitInv s' := by
  have hstart : ∀ c ch, s.fs = .closeStart c ch → ch ∈ s.used := fun c ch heq =>
    h.usedFs c ch (Or.inl heq)
  have hnot : ∀ {p}, s.pm = p → (∀ c ch rest, p ≠ .exitWait c ch rest) →
      ∀ c ch rest, s.pm ≠ .exitWait c ch rest := fun heq => heq ▸ id
  unfold Ipc.pmSend at hs
  split at hs
  · rename_i c hpm
    have hno := hnot hpm fun _ _ _ heq => nomatch heq
    cases hs
    exact h.frame rfl rfl rfl rfl h.usedChannels
      (Or.inr ⟨hno, fun _ _ _ heq => nomatch heq⟩)
      (Or.inl rfl) (fun _ => h.exec (by rw [hpm]; trivial)) (fun hx => hx.elim)
      (fun _ _ heq => nomatch heq) hstart
  · rename_i child d ds hpm
    have hno := hnot hpm fun _ _ _ heq => nomatch heq
    split at hs
    · cases hs
    · rename_i hch
      cases hs
      refine WaitInv.create ?_ hch
      exact h.frame rfl rfl rfl rfl h.usedChannels
        (Or.inr ⟨hno, fun _ _ _ heq => nomatch heq⟩)
        (Or.inl rfl) (fun hx => hx.elim) (fun hx => hx.elim) (fun _ _ heq => nomatch heq) hstart
  · rename_i child hpm
    have hno := hnot hpm fun _ _ _ heq => nomatch heq
    cases hs
    exact h.frame rfl rfl rfl rfl h.usedChannels
      (Or.inr ⟨hno, fun _ _ _ heq => nomatch heq⟩)
      (Or.inl rfl) (fun hx => hx.elim) (fun hx => hx.elim) (fun _ _ heq => nomatch heq) hstart
  · rename_i c ch rest hpm
    cases hs
    exact h.cnlSendPm hpm
  · rename_i c hpm
    have hno := hnot hpm fun _ _ _ heq => nomatch heq
    cases hs
    exact h.frame rfl rfl rfl rfl (mem_used_update h fun _ hmem => absurd hmem List.not_mem_nil)
      (Or.inr ⟨hno, fun _ _ _ heq => nomatch heq⟩)
      (Or.inl rfl) (fun hx => hx.elim) (fun hx => hx.elim) (fun _ _ heq => nomatch heq) hstart
  · cases hs

/-- PM finds what it has waited for. -/
theorem WaitInv.pmReceive (h : WaitInv s) (hs : pmReceive s = some s') : WaitInv s' := by
  unfold Ipc.pmReceive at hs
  split at hs
  · rename_i c hpm
    have hno : ∀ c ch rest, s.pm ≠ .exitWait c ch rest := by
      rw [hpm]
      exact fun _ _ _ heq => nomatch heq
    split at hs
    · cases hs
      exact h.frame rfl rfl rfl rfl h.usedChannels (Or.inr ⟨hno, fun _ _ _ heq => nomatch heq⟩)
        (Or.inl rfl) (fun hx => hx.elim) (fun hx => hx.elim) (fun _ _ heq => nomatch heq)
        fun c ch heq => h.usedFs c ch (Or.inl heq)
    · cases hs
  · rename_i c ch rest hpm
    split at hs
    · rename_i hreply
      cases hs
      exact h.pmReceived hpm hreply
    · cases hs
  · cases hs

/-- FS goes on. -/
theorem WaitInv.fsSend (h : WaitInv s) (hs : fsSend s = some s') : WaitInv s' := by
  unfold Ipc.fsSend at hs
  split at hs
  · rename_i c d hfs
    have hopen : ¬ s.fs.IsClosing := by
      rw [hfs]
      exact id
    have hexec : ¬ s.pm.IsExec := fun hx => by
      have hidle := h.exec hx
      rw [hfs] at hidle
      cases hidle
    cases hs
    exact h.frame rfl rfl rfl rfl h.usedChannels (Or.inl rfl)
      (Or.inr ⟨hopen, fun _ _ heq => nomatch heq⟩) (fun hx => absurd hx hexec) (fun _ => id)
      h.usedNext fun _ _ heq => nomatch heq
  · rename_i c ch hfs
    cases hs
    exact h.cnlSendFs hfs
  · cases hs

/-- FS finds what it has waited for. -/
theorem WaitInv.fsReceive (h : WaitInv s) (hs : fsReceive ch s = some s') : WaitInv s' := by
  unfold Ipc.fsReceive at hs
  split at hs
  · rename_i c d hfs
    have hopen : ¬ s.fs.IsClosing := by
      rw [hfs]
      exact id
    split at hs
    · rename_i hin
      cases hs
      refine WaitInv.create ?_ hin.2
      exact h.frame rfl rfl rfl rfl h.usedChannels (Or.inl rfl)
        (Or.inr ⟨hopen, fun _ _ heq => nomatch heq⟩) (fun _ => rfl) (fun _ => id) h.usedNext
        fun _ _ heq => nomatch heq
    · cases hs
  · rename_i c ch' hfs
    split at hs
    · rename_i hreply
      cases hs
      exact h.fsReceived hfs hreply _
    · cases hs
  · rename_i c ch' d hfs
    split at hs
    · cases hs
      exact h.fsDone hfs _ (mem_used_update h fun ch hmem =>
        h.usedChannels c ch (List.mem_of_mem_erase hmem))
    · cases hs
  · cases hs

/-- Every step that meets the condition keeps the invariant. -/
theorem WaitInv.step {e : Event} (h : WaitInv s) (hg : e.Exclusive s)
    (hs : Ipc.step s e = some s') : WaitInv s' := by
  cases e with
  | callPm c r =>
    simp only [Ipc.step] at hs
    split at hs
    · cases hs
      exact h.messages rfl rfl rfl rfl rfl rfl rfl
    · cases hs
  | callFs c r =>
    simp only [Ipc.step] at hs
    split at hs
    · cases hs
      exact h.messages rfl rfl rfl rfl rfl rfl rfl
    · cases hs
  | pmTake c =>
    simp only [Ipc.step] at hs
    split at hs
    · rename_i r hidle hr
      cases hs
      exact h.pmTake hidle hr hg
    · cases hs
  | pmSend ch => exact h.pmSend hs
  | pmReceive => exact h.pmReceive hs
  | fsTake c =>
    simp only [Ipc.step] at hs
    split at hs
    · rename_i r hidle hr
      cases hs
      exact h.fsTake hidle hr hg
    · cases hs
  | fsSend => exact h.fsSend hs
  | fsReceive ch => exact h.fsReceive hs
  | driverTake d ch =>
    simp only [Ipc.step] at hs
    split at hs
    · rename_i server hidle hsend
      split at hs
      · rename_i hch
        cases hs
        exact h.driverTake hidle hsend hch.1
      · cases hs
    · cases hs
  | driverReceive d =>
    simp only [Ipc.step] at hs
    split at hs
    · split at hs
      · cases hs
        exact h.driverReceive
      · cases hs
    · cases hs

end Step

/-! ### Runs -/

/-- In every run whose steps meet the condition, no state has a cycle of waits among PM, FS and the
drivers. -/
theorem no_wait_cycle {evs : List Event} {s : Sys}
    (hrun : Run (guarded Steps fun s e => e.Exclusive s) init evs s) (x : Party) :
    ¬ Relation.TransGen (Waits s) x x := by
  have hinv : WaitInv s := hrun.invariant
    (fun _ _ _ hstep h => WaitInv.step h hstep.1 hstep.2) waitInv_init
  exact not_transGen_self (r := Waits s) (fun _ _ _ _ hxy hyz => hinv.no_chain hxy hyz) x

/-- PM waits for FS in an `exec` while nobody else is active. -/
theorem no_wait_cycle_exec : ∃ s,
    Run (guarded Steps fun s e => e.Exclusive s) init [.callPm 6 .exec, .pmTake 6, .pmSend 0] s ∧
      Waits s .pm .fs ∧ ∀ x, ¬ Relation.TransGen (Waits s) x x := by
  have hrun : ∃ s, Run (guarded Steps fun s e => e.Exclusive s) init
      [.callPm 6 .exec, .pmTake 6, .pmSend 0] s ∧ Waits s .pm .fs :=
    ⟨_, .cons ⟨trivial, rfl⟩ (.cons ⟨⟨fun _ => rfl, fun h => nomatch h⟩, rfl⟩
      (.cons ⟨trivial, rfl⟩ (.nil _))), ⟨6, rfl⟩, rfl⟩
  obtain ⟨s, hrun, hw⟩ := hrun
  exact ⟨s, hrun, hw, no_wait_cycle hrun⟩

/-- FS takes an open of "stdin" from one client and PM an `exec` from another; then each asks the
other, and both wait for ever. -/
theorem exec_open_cycle : ∃ s,
    Run Steps init [.callPm 6 .exec, .callFs 7 (.openChar .kbd), .fsTake 7, .pmTake 6, .pmSend 0,
      .fsSend] s ∧ Waits s .pm .fs ∧ Waits s .fs .pm ∧ Relation.TransGen (Waits s) .pm .pm := by
  have hrun : ∃ s, Run Steps init [.callPm 6 .exec, .callFs 7 (.openChar .kbd), .fsTake 7,
      .pmTake 6, .pmSend 0, .fsSend] s ∧ Waits s .pm .fs ∧ Waits s .fs .pm :=
    ⟨_, .cons rfl (.cons rfl (.cons rfl (.cons rfl (.cons rfl (.cons rfl (.nil _)))))),
      ⟨⟨6, rfl⟩, rfl⟩, Or.inl ⟨7, .kbd, rfl⟩, rfl⟩
  obtain ⟨s, hrun, hpm, hfs⟩ := hrun
  exact ⟨s, hrun, hpm, hfs, .tail (.single hpm) hfs⟩

end Savannah.Ipc
