import Savannah.Fs.Descriptors

/-!
# The answers of the file server

A client that has sent a request waits for a message in slot FS of its inbox.  `Answered` says that
FS serves the request to its end and either posts exactly one such message, or hands the request to
exactly one driver.

Two handlers do not keep to this.  The loop answers a read only for a descriptor of a regular file,
so that a read that `local_read` refuses is not answered at all; and `local_write` goes on after its
refusal, so that the request is both answered and handed on.  In some states FS halts or panics.
`Answerable` is the exact condition.
-/

namespace Savannah.Fs

open Foundation

/-- The number of a request. -/
def FsRequest.number : FsRequest → ℕ
  | .open _ _ => openIpc
  | .read _ _ => readIpc
  | .write _ _ _ => writeIpc
  | .close _ => closeIpc
  | .load _ => loadIpc

/-- A message in the slot that the sender of the request waits for. -/
def IsReply (sender : ℕ) (m : FsPost) : Prop := m.slot = fsId ∧ m.dst = sender

/-- The request in the slot of its sender in the inbox of a driver. -/
def IsForward (sender : ℕ) (req : FsRequest) (m : FsPost) : Prop :=
  m.slot = sender ∧ isDriver m.dst ∧ m.number = req.number

instance (sender : ℕ) : DecidablePred (IsReply sender) :=
  fun _ => inferInstanceAs (Decidable (_ ∧ _))

instance (sender : ℕ) (req : FsRequest) : DecidablePred (IsForward sender req) :=
  fun _ => inferInstanceAs (Decidable (_ ∧ _))

/-- Among the messages there is one reply and no forward, or no reply and one forward. -/
def AnsweredOnce (sender : ℕ) (req : FsRequest) (ms : List FsPost) : Prop :=
  (ms.countP (IsReply sender) = 1 ∧ ms.countP (IsForward sender req) = 0) ∨
    (ms.countP (IsReply sender) = 0 ∧ ms.countP (IsForward sender req) = 1)

instance (sender : ℕ) (req : FsRequest) (ms : List FsPost) :
    Decidable (AnsweredOnce sender req ms) :=
  inferInstanceAs (Decidable (_ ∨ _))

/-- FS serves the request to its end and answers it once. -/
def Answered (s : FsState) (sender : ℕ) (pm : PmAnswer) (req : FsRequest) : Prop :=
  wp (handle sender pm req)
    (fun _ s' => ∃ ms, s'.sent = s.sent ++ ms ∧ AnsweredOnce sender req ms) (fun _ _ => False) s

/-- `get_fds` finds a table. -/
def FsState.Table (s : FsState) (sender : ℕ) : Prop := sender ≤ maxCpus ∧ s.hasFds sender = true

instance (s : FsState) (sender : ℕ) : Decidable (s.Table sender) :=
  inferInstanceAs (Decidable (_ ∧ _))

/-- The result of `get_type`. -/
def FsState.typeOf (s : FsState) (fd : ℤ) (sender : ℕ) : ℤ :=
  if fd > maxFd ∨ fd < 0 ∨ ¬ s.Table sender ∨ (s.fds sender fd).type = 0 then -1
  else int32 (s.fds sender fd).type

/-- The requests that FS answers once.  A read needs a descriptor of a regular file or one with a
channel; a write needs the descriptor 1, not of a regular file; the closing of a character device
needs a channel and PM's consent, and its sender is not the driver. -/
def Answerable (s : FsState) (sender : ℕ) (pm : PmAnswer) : FsRequest → Prop
  | .open _ _ => True
  | .read fd _ => 0 ≤ fd ∧ fd ≤ maxFd ∧ s.Table sender ∧
      ((s.fds sender fd).type = typeFile ∨
        (s.fds sender fd).type = typeChar ∧ (s.fds sender fd).offset ≠ 0)
  | .write fd _ _ => fd = 1 ∧ s.typeOf fd sender ≠ typeFile
  | .close fd => fd ≤ maxFd → s.Table sender → (s.fds sender fd).type = typeChar →
      (s.fds sender fd).offset ≠ 0 ∧ pm.close = 0 ∧ sender ≠ closeDriver fd
  | .load _ => True

/-! ### Functions that only look -/

/-- The messages and what the handlers read are the same. -/
structure Peeks (s s' : FsState) : Prop where
  sent : s'.sent = s.sent
  fds : s'.fds = s.fds
  hasFds : s'.hasFds = s.hasFds

theorem Peeks.trans {s s' s'' : FsState} (h : Peeks s s') (h' : Peeks s' s'') : Peeks s s'' :=
  ⟨h'.sent.trans h.sent, h'.fds.trans h.fds, h'.hasFds.trans h.hasFds⟩

theorem Peeks.table {s s' : FsState} {sender : ℕ} (h : Peeks s s') :
    s'.Table sender ↔ s.Table sender := by
  unfold FsState.Table
  rw [h.hasFds]

theorem Peeks.typeOf {s s' : FsState} {fd : ℤ} {sender : ℕ} (h : Peeks s s') :
    s'.typeOf fd sender = s.typeOf fd sender := by
  simp only [FsState.typeOf, h.table, h.fds]

section Look

variable {sender : ℕ} {fd count : ℤ} {s : FsState} {E : Stop FsPanic → FsState → Prop}

/-- `get_fds` finds the table. -/
theorem getFds_table {Q : Bool → FsState → Prop} (h : Q (decide (s.Table sender)) s) :
    wp (getFds sender) Q E s := by
  refine getFds_spec ?_
  have heq : decide (s.Table sender) = (decide (sender ≤ maxCpus) && s.hasFds sender) :=
    Bool.eq_iff_iff.mpr (by rw [decide_eq_true_iff, Bool.and_eq_true, decide_eq_true_iff]; rfl)
  rwa [← heq]

/-- Reading a descriptor. -/
theorem readFd_peeks {Q : FileDescriptor → FsState → Prop}
    (h : ∀ s', Peeks s s' → Q (s.fds sender fd) s') : wp (readFd sender fd) Q E s :=
  h _ ⟨rfl, rfl, rfl⟩

/-- Reading a type. -/
theorem getType_peeks {Q : ℤ → FsState → Prop}
    (h : ∀ s', Peeks s s' → Q (s.typeOf fd sender) s') : wp (getType fd sender) Q E s := by
  unfold getType
  unfold FsState.typeOf at h
  refine wp_ite.mpr ⟨fun hout => ?_, fun hin => ?_⟩
  · rw [if_pos (by tauto)] at h
    exact h s ⟨rfl, rfl, rfl⟩
  rw [wp_bind]
  refine getFds_table (wp_ite.mpr ⟨fun hno => ?_, fun htab => ?_⟩)
  · have hno : ¬ s.Table sender := by simpa using hno
    rw [if_pos (by tauto)] at h
    exact h s ⟨rfl, rfl, rfl⟩
  have htab : s.Table sender := by simpa using htab
  rw [wp_bind]
  refine readFd_peeks fun s' hs' => wp_ite.mpr ⟨fun hz => ?_, fun hnz => ?_⟩
  · rw [if_pos (by tauto)] at h
    exact h s' hs'
  · rw [if_neg (by tauto)] at h
    exact h s' hs'

/-- The type that the loop compares is that of the entry. -/
theorem FsState.typeOf_eq (hin : 0 ≤ fd ∧ fd ≤ maxFd) (htab : s.Table sender)
    (hpos : 0 < (s.fds sender fd).type) (hlt : (s.fds sender fd).type < 2 ^ 31) :
    s.typeOf fd sender = (s.fds sender fd).type := by
  unfold FsState.typeOf
  rw [if_neg, int32_of_lt hlt]
  have hne := Nat.pos_iff_ne_zero.mp hpos
  rintro (h | h | h | h)
  · exact absurd hin.2 (by omega)
  · exact absurd hin.1 (by omega)
  · exact h htab
  · exact hne h

end Look

/-! ### The requests one by one -/

section Requests

variable {sender : ℕ} {fd count flags : ℤ} {buf : ℕ} {pathname : String} {pm : PmAnswer}
  {req : FsRequest} {s : FsState}

/-- What refutes that a request is answered once: FS stops, or its messages are not as they should
be. -/
theorem not_answered (h : wp (handle sender pm req)
    (fun _ s' => ∃ ms, s'.sent = s.sent ++ ms ∧ ¬ AnsweredOnce sender req ms) (fun _ _ => True) s) :
    ¬ Answered s sender pm req := by
  intro hans
  refine absurd (wp.and hans h) ?_
  unfold wp
  cases handle sender pm req s with
  | error e s' => exact fun hcon => hcon.1
  | ok a s' =>
    rintro ⟨⟨ms, hms, honce⟩, ms', hms', hnot⟩
    rw [hms, List.append_cancel_left_eq] at hms'
    exact hnot (hms' ▸ honce)

/-- A single reply is an answer. -/
theorem answeredOnce_reply (number : ℕ) (data : FsPayload) :
    AnsweredOnce sender req [⟨fsId, sender, number, data⟩] := by
  have hfwd : ¬ IsForward sender req ⟨fsId, sender, number, data⟩ := by
    rintro ⟨hslot, hdrv, -⟩
    dsimp only at hslot hdrv
    rw [← hslot] at hdrv
    exact absurd hdrv (by decide)
  have hrep : IsReply sender ⟨fsId, sender, number, data⟩ := ⟨rfl, rfl⟩
  exact Or.inl ⟨by simp [hrep], by simp [hfwd]⟩

/-- A single forward is an answer. -/
theorem answeredOnce_forward (req : FsRequest) {dst : ℕ} (hdst : isDriver dst) (data : FsPayload) :
    AnsweredOnce sender req [⟨sender, dst, req.number, data⟩] := by
  have hrep : ¬ IsReply sender ⟨sender, dst, req.number, data⟩ := by
    rintro ⟨hslot, hdst'⟩
    dsimp only at hslot hdst'
    rw [hdst', hslot] at hdst
    exact absurd hdst (by decide)
  have hfwd : IsForward sender req ⟨sender, dst, req.number, data⟩ := ⟨rfl, hdst, rfl⟩
  exact Or.inr ⟨by simp [hrep], by simp [hfwd]⟩

/-- No message is no answer. -/
theorem not_answeredOnce_nil : ¬ AnsweredOnce sender req [] := by
  rintro (⟨h, -⟩ | ⟨-, h⟩) <;> exact absurd h (by simp)

/-- A read that `local_read` refuses. -/
theorem read_refused (htype : s.typeOf fd sender < 0) :
    ¬ Answered s sender pm (.read fd count) := by
  refine not_answered ?_
  unfold handle localRead
  simp only [wp_bind]
  refine getType_peeks fun s₁ h₁ => wp_ite.mpr ⟨fun _ => ?_, fun hge => absurd htype hge⟩
  simp only [wp_pure]
  refine getType_peeks fun s₂ h₂ => wp_ite.mpr ⟨fun hfile => ?_, fun _ => ?_⟩
  · rw [h₁.typeOf] at hfile
    rw [hfile] at htype
    exact absurd htype (by norm_num)
  · exact ⟨[], by rw [h₂.sent, h₁.sent, List.append_nil], not_answeredOnce_nil⟩

/-- A read that `local_read` accepts: the entry exists and is in use. -/
theorem read_accepted {Q : Unit → FsState → Prop} {E : Stop FsPanic → FsState → Prop}
    (hin : 0 ≤ fd ∧ fd ≤ maxFd) (htab : s.Table sender) (htype : ¬ s.typeOf fd sender < 0)
    (hchar : (s.fds sender fd).type = typeChar → (s.fds sender fd).offset ≠ 0 → ∀ s',
      s'.sent = s.sent ++ [⟨sender, if fd = 0 then kbdId else consoleId, readIpc,
        .keyboardRead sender (s.fds sender fd).offset count⟩] → Q () s')
    (hfile : (s.fds sender fd).type = typeFile → ∀ s' r,
      s'.sent = s.sent ++ [⟨fsId, sender, readIpc, .readReply r⟩] → Q () s')
    (hstop : (s.fds sender fd).type ≠ typeFile →
      ((s.fds sender fd).type = typeChar → (s.fds sender fd).offset = 0) → ∀ p s', E p s') :
    wp (handle sender pm (.read fd count)) Q E s := by
  unfold handle localRead
  simp only [wp_bind]
  refine getType_peeks fun s₁ h₁ => wp_ite.mpr ⟨fun h => absurd h htype, fun _ => ?_⟩
  have htab₁ : s₁.Table sender := h₁.table.mpr htab
  refine wp_bind.mpr (getFds_table ?_)
  rw [decide_eq_true htab₁, if_neg (by decide)]
  refine wp_bind.mpr (readFd_peeks fun s₂ h₂ => ?_)
  have h₂ := h₁.trans h₂
  rw [h₁.fds]
  refine wp_ite.mpr ⟨fun hc => ?_, fun hnc => wp_ite.mpr ⟨fun hf => ?_, fun hnf => ?_⟩⟩
  · -- a character device
    have hchar' := hchar hc
    unfold localReadChar
    rw [if_neg (by omega), if_neg (by have := htab.1; omega)]
    refine wp_bind.mpr (getFds_table ?_)
    rw [decide_eq_true (h₂.table.mpr htab), if_neg (by decide)]
    refine wp_bind.mpr (readFd_peeks fun s₃ h₃ => ?_)
    have h₃ := h₂.trans h₃
    rw [h₂.fds]
    refine wp_ite.mpr ⟨fun hz => ?_, fun hnz => ?_⟩
    · exact hstop (by rw [hc]; decide) (fun _ => hz) _ _
    · rw [wp_bind]
      refine getType_peeks fun s₄ h₄ => wp_ite.mpr ⟨fun hfile' => ?_, fun _ => ?_⟩
      · -- sending a message does not change the tables
        change s₃.typeOf fd sender = _ at hfile'
        rw [h₃.typeOf, FsState.typeOf_eq hin htab (by rw [hc]; decide) (by rw [hc]; decide), hc]
          at hfile'
        exact absurd hfile' (by decide)
      · refine hchar' hnz s₄ ?_
        rw [h₄.sent]
        exact congrArg (· ++ _) h₃.sent
  · -- a regular file
    unfold localReadFile
    refine wp_bind.mpr (getFds_table ?_)
    rw [decide_eq_true (h₂.table.mpr htab), if_neg (by decide)]
    refine wp_bind.mpr (readFd_peeks fun s₃ h₃ => ?_)
    have h₃ := h₂.trans h₃
    refine wp_pure.mpr (getType_peeks fun s₄ h₄ => ?_)
    have h₄ := h₃.trans h₄
    rw [h₃.typeOf, FsState.typeOf_eq hin htab (by rw [hf]; decide) (by rw [hf]; decide), hf,
      if_pos rfl]
    exact hfile hf _ _ (congrArg (· ++ _) h₄.sent)
  · exact hstop hnf (fun h => absurd h hnc) _ _

/-- When `read` is answered. -/
theorem answered_read_iff :
    Answered s sender pm (.read fd count) ↔ Answerable s sender pm (.read fd count) := by
  by_cases htype : s.typeOf fd sender < 0
  · refine iff_of_false (read_refused htype) ?_
    rintro ⟨h₀, h₁, htab, hkind⟩
    have hpos : 0 < (s.fds sender fd).type ∧ (s.fds sender fd).type < 2 ^ 31 := by
      rcases hkind with h | ⟨h, -⟩ <;> rw [h] <;> decide
    rw [FsState.typeOf_eq ⟨h₀, h₁⟩ htab hpos.1 hpos.2] at htype
    omega
  have hin : 0 ≤ fd ∧ fd ≤ maxFd ∧ s.Table sender := by
    unfold FsState.typeOf at htype
    by_contra hout
    rw [if_pos (by by_contra hcon; push Not at hcon; exact hout ⟨by omega, by omega, hcon.2.2.1⟩)]
      at htype
    exact htype (by norm_num)
  obtain ⟨h₀, h₁, htab⟩ := hin
  by_cases hans : Answerable s sender pm (.read fd count)
  · refine iff_of_true (read_accepted ⟨h₀, h₁⟩ htab htype (fun _ _ s' h => ?_) (fun _ s' r h => ?_)
      fun hnf hnc => ?_) hans
    · refine ⟨_, h, answeredOnce_forward (.read fd count) ?_ _⟩
      split <;> decide
    · exact ⟨_, h, answeredOnce_reply _ _⟩
    · rcases hans.2.2.2 with h | ⟨h, hne⟩
      · exact absurd h hnf
      · exact absurd (hnc h) hne
  · refine iff_of_false (not_answered (read_accepted ⟨h₀, h₁⟩ htab htype (fun hc hne => ?_)
      (fun hf => ?_) fun _ _ _ _ => trivial)) hans
    · exact absurd ⟨h₀, h₁, htab, Or.inr ⟨hc, hne⟩⟩ hans
    · exact absurd ⟨h₀, h₁, htab, Or.inl hf⟩ hans

/-- When `write` is answered. -/
theorem answered_write_iff :
    Answered s sender pm (.write fd buf count) ↔ Answerable s sender pm (.write fd buf count) := by
  have key : ∀ {Q : Unit → FsState → Prop} {E : Stop FsPanic → FsState → Prop},
      (∀ s', s'.sent = s.sent ++ ((if s.typeOf fd sender = typeFile ∨ fd ≠ 1 then
          [⟨fsId, sender, writeIpc, .writeReply sender (-1)⟩] else []) ++
        [⟨sender, consoleId, writeIpc, .consoleWrite sender buf count⟩]) → Q () s') →
      wp (handle sender pm (.write fd buf count)) Q E s := by
    intro Q E hQ
    unfold handle localWrite
    rw [wp_bind]
    refine getType_peeks fun s₁ h₁ => wp_ite.mpr ⟨fun hc => ?_, fun hc => ?_⟩
    · rw [if_pos hc] at hQ
      refine hQ _ ?_
      rw [← List.append_assoc, ← h₁.sent]
    · rw [if_neg hc] at hQ
      refine hQ _ ?_
      rw [← h₁.sent]
      rfl
  by_cases hbad : s.typeOf fd sender = typeFile ∨ fd ≠ 1
  · rw [if_pos hbad] at key
    refine iff_of_false (not_answered (key fun s' h => ⟨_, h, ?_⟩)) fun hans => ?_
    · -- the refusal is one message too many
      have hrep : IsReply sender ⟨fsId, sender, writeIpc, .writeReply sender (-1)⟩ := ⟨rfl, rfl⟩
      have hfwd : IsForward sender (.write fd buf count)
          ⟨sender, consoleId, writeIpc, .consoleWrite sender buf count⟩ := ⟨rfl, rfl, rfl⟩
      simp [AnsweredOnce, hrep, hfwd]
    · exact hbad.elim hans.2 fun h => h hans.1
  · rw [if_neg hbad] at key
    push Not at hbad
    refine iff_of_true (key fun s' h => ⟨_, h, ?_⟩) ⟨hbad.2, hbad.1⟩
    exact answeredOnce_forward (.write fd buf count) rfl _

end Requests

/-! ### Opening -/

/-- The function returns and sends nothing. -/
def Quiet {α : Type} (x : FsM α) : Prop :=
  ∀ s, wp x (fun _ s' => s'.sent = s.sent) (fun _ _ => False) s

namespace Quiet

variable {α β : Type} {x y : FsM α} {f : α → FsM β} {sender : ℕ} {fd : ℤ}

theorem pure (a : α) : Quiet (pure a : FsM α) := fun _ => rfl

/-- A quiet sequence. -/
theorem bind (hx : Quiet x) (hf : ∀ a, Quiet (f a)) : Quiet (x >>= f) := fun s =>
  (hx s).bind fun a s' h => (hf a s').mono (fun _ _ h' => h'.trans h) fun _ _ h' => h'

theorem ite {c : Prop} [Decidable c] (hx : c → Quiet x) (hy : ¬ c → Quiet y) :
    Quiet (if c then x else y) := by
  split
  · exact hx ‹_›
  · exact hy ‹_›

theorem readFd : Quiet (readFd sender fd) := fun _ => readFd_peeks fun _ h => h.sent

theorem writeFd {g : FileDescriptor → FileDescriptor} : Quiet (writeFd sender fd g) := fun _ => rfl

theorem getFds : Quiet (getFds sender) := fun _ => getFds_table rfl

/-- The search sends nothing. -/
theorem findFree (n i : ℕ) : Quiet (findFree sender n i) := by
  induction n generalizing i with
  | zero => exact pure i
  | succ n ih => exact readFd.bind fun _ => ite (fun _ => pure i) fun _ => ih (i + 1)

end Quiet

/-- `local_open` returns and sends nothing. -/
theorem localOpen_quiet (pathname : String) (flags : ℤ) (sender : ℕ) (pm : PmAnswer) :
    Quiet (localOpen pathname flags sender pm) := by
  unfold localOpen
  refine Quiet.ite (fun hchar => ?_) fun _ => ?_
  · unfold localOpenChar
    refine Quiet.ite (fun _ => Quiet.pure _) fun _ => ?_
    refine Quiet.getFds.bind fun _ => Quiet.ite (fun _ => Quiet.pure _) fun _ => ?_
    refine Quiet.bind ?_ fun _ => ?_
    · unfold charDevice
      refine Quiet.ite (fun _ => Quiet.pure _) fun h₁ => Quiet.ite (fun _ => Quiet.pure _)
        fun h₂ => ?_
      refine Quiet.ite (fun _ => (Quiet.findFree _ _).bind fun _ => Quiet.pure _) fun h₃ => ?_
      exact absurd hchar (by tauto)
    · refine Quiet.readFd.bind fun _ => Quiet.ite (fun _ => Quiet.pure _) fun _ => ?_
      exact Quiet.bind (fun _ => rfl) fun _ => Quiet.writeFd.bind fun _ => Quiet.pure _
  · refine Quiet.getFds.bind fun _ => Quiet.ite (fun _ => Quiet.pure _) fun _ => ?_
    refine (Quiet.findFree _ _).bind fun _ => Quiet.ite (fun _ => Quiet.pure _) fun _ => ?_
    refine Quiet.ite (fun _ => Quiet.pure _) fun _ => Quiet.bind (fun _ => rfl) fun s => ?_
    split
    · exact Quiet.pure _
    · exact Quiet.writeFd.bind fun _ => Quiet.pure _

section Requests

variable {sender : ℕ} {fd flags : ℤ} {pathname : String} {pm : PmAnswer} {s : FsState}

/-- A quiet function in front of the reply. -/
theorem answered_of_quiet {α : Type} {x : FsM α} {req : FsRequest} {number : ℕ}
    {data : α → FsPayload} (hx : Quiet x) :
    wp (x >>= fun r => send ⟨fsId, sender, number, data r⟩)
      (fun _ s' => ∃ ms, s'.sent = s.sent ++ ms ∧ AnsweredOnce sender req ms)
      (fun _ _ => False) s := by
  refine (hx s).bind fun r s' h => ⟨[⟨fsId, sender, number, data r⟩], ?_, answeredOnce_reply _ _⟩
  exact congrArg (· ++ _) h

/-- `open` is answered always. -/
theorem answered_open : Answered s sender pm (.open pathname flags) := by
  unfold Answered handle
  refine wp_ite.mpr ⟨fun _ => ⟨_, rfl, answeredOnce_reply _ _⟩, fun _ => ?_⟩
  exact answered_of_quiet (localOpen_quiet pathname flags sender pm)

/-- `load` is answered always. -/
theorem answered_load : Answered s sender pm (.load pathname) := by
  unfold Answered handle
  refine wp_ite.mpr ⟨fun _ => answered_of_quiet ?_, fun _ => ⟨_, rfl, answeredOnce_reply _ _⟩⟩
  unfold localLoad
  refine Quiet.bind (fun _ => rfl) fun s => ?_
  split <;> exact Quiet.pure _

/-- Closing a character device: the driver is told, and the sender gets its answer. -/
theorem close_char {Q : Unit → FsState → Prop} {E : Stop FsPanic → FsState → Prop}
    (hfd : fd ≤ maxFd) (htab : s.Table sender) (hchar : (s.fds sender fd).type = typeChar)
    (hok : (s.fds sender fd).offset ≠ 0 → pm.close = 0 → ∀ s', s'.sent = s.sent ++
      [⟨fsId, closeDriver fd, channelCloseIpc, .result 0⟩, ⟨fsId, sender, closeIpc, .result 0⟩] →
      Q () s')
    (hstop : (s.fds sender fd).offset = 0 ∨ pm.close ≠ 0 → ∀ p s', E p s') :
    wp (handle sender pm (.close fd)) Q E s := by
  unfold handle
  refine wp_bind.mpr ?_
  unfold localClose
  rw [if_neg (by omega)]
  refine wp_bind.mpr (getFds_table ?_)
  rw [decide_eq_true htab, if_neg (by decide)]
  refine wp_bind.mpr (readFd_peeks fun s₁ h₁ => ?_)
  rw [if_pos hchar]
  refine wp_bind.mpr ?_
  unfold localCloseChar
  refine wp_bind.mpr (readFd_peeks fun s₂ h₂ => ?_)
  have h₂ := h₁.trans h₂
  rw [h₁.fds]
  refine wp_ite.mpr ⟨fun hz => hstop (Or.inl hz) _ _, fun hnz => ?_⟩
  refine wp_ite.mpr ⟨fun hpm => hstop (Or.inr hpm) _ _, fun hpm => ?_⟩
  refine hok hnz (not_not.mp hpm) _ ?_
  rw [← h₂.sent]
  exact List.append_assoc _ _ _

/-- Closing anything else: only the sender gets a message. -/
theorem answered_close_other
    (h : fd ≤ maxFd → s.Table sender → (s.fds sender fd).type ≠ typeChar) :
    Answered s sender pm (.close fd) := by
  unfold Answered handle
  refine wp_bind.mpr ?_
  unfold localClose
  have hone : ∀ r s', s'.sent = s.sent → wp (send ⟨fsId, sender, closeIpc, .result r⟩)
      (fun _ s' => ∃ ms, s'.sent = s.sent ++ ms ∧ AnsweredOnce sender (.close fd) ms)
      (fun _ _ => False) s' := fun r s' hs =>
    ⟨_, congrArg (· ++ [⟨fsId, sender, closeIpc, .result r⟩]) hs, answeredOnce_reply _ _⟩
  refine wp_ite.mpr ⟨fun _ => hone _ _ rfl, fun hle => ?_⟩
  refine wp_bind.mpr (getFds_table (wp_ite.mpr ⟨fun _ => hone _ _ rfl, fun htab => ?_⟩))
  refine wp_bind.mpr (readFd_peeks fun s₁ h₁ => ?_)
  rw [if_neg (h (by omega) (by simpa using htab))]
  exact hone _ _ h₁.sent

/-- When `close` is answered. -/
theorem answered_close_iff :
    Answered s sender pm (.close fd) ↔ Answerable s sender pm (.close fd) := by
  by_cases hchar : fd ≤ maxFd ∧ s.Table sender ∧ (s.fds sender fd).type = typeChar
  · obtain ⟨hfd, htab, hchar⟩ := hchar
    have hrep : IsReply sender ⟨fsId, sender, closeIpc, .result 0⟩ := ⟨rfl, rfl⟩
    have hfwd : ¬ IsForward sender (.close fd) ⟨fsId, sender, closeIpc, .result 0⟩ := by
      rintro ⟨hslot, hd, -⟩
      dsimp only at hslot hd
      rw [← hslot] at hd
      exact absurd hd (by decide)
    have hfwd' : ¬ IsForward sender (.close fd)
        ⟨fsId, closeDriver fd, channelCloseIpc, .result 0⟩ :=
      fun h => absurd h.2.2 (show channelCloseIpc ≠ closeIpc by decide)
    by_cases hans : Answerable s sender pm (.close fd)
    · obtain ⟨hoff, hpm, hne⟩ := hans hfd htab hchar
      have hrep' : ¬ IsReply sender ⟨fsId, closeDriver fd, channelCloseIpc, .result 0⟩ :=
        fun h => hne h.2.symm
      refine iff_of_true (close_char hfd htab hchar (fun _ _ s' h => ⟨_, h, ?_⟩) fun h => ?_) hans
      · simp [AnsweredOnce, hrep, hrep', hfwd, hfwd']
      · exact absurd h (by tauto)
    · refine iff_of_false (not_answered (close_char hfd htab hchar (fun hoff hpm s' h => ⟨_, h, ?_⟩)
        fun _ _ _ => trivial)) hans
      -- the driver is the sender and gets both messages
      have heq : sender = closeDriver fd := by
        by_contra hne
        exact hans fun _ _ _ => ⟨hoff, hpm, hne⟩
      have hrep' : IsReply sender ⟨fsId, closeDriver fd, channelCloseIpc, .result 0⟩ :=
        ⟨rfl, heq.symm⟩
      simp [AnsweredOnce, hrep, hrep']
  · refine iff_of_true (answered_close_other fun h₁ h₂ h₃ => hchar ⟨h₁, h₂, h₃⟩) ?_
    exact fun h₁ h₂ h₃ => absurd ⟨h₁, h₂, h₃⟩ hchar

end Requests

/-- A client with an empty table. -/
def emptyTable : FsState where
  hasFds _ := true
  fds _ _ := ⟨0, 0, 0, 0⟩
  files := []
  filesystem := 0
  accesses := []
  channels := []
  sent := []

end Savannah.Fs
