import Savannah.Foundation.Run

/-!
# Exchanges of requests and replies

What a system of clients and servers should do, without the memory they use for it.  Each client is
at one stage: `quiet`, or its request is `pending`, `taken` by the server it is for, or `replied`.
A move changes the stage of one client and is an entry of the log.

Whatever the order in which the clients and servers move, the entries of one client form complete
rounds (sent, taken, replied, received), followed by the beginning of a round that fits its stage
(`rounds_of_run`).  So a request is taken once, by its server, with what was sent, and the next
message that the client receives is the reply to it.
-/

namespace Foundation

/-- The parties are `κ`, the requests `ρ`, the replies `α`, and the messages that arrive `μ`. -/
structure Exchange (κ ρ α μ : Type*) where
  /-- The server a request is for. -/
  server : ρ → κ
  /-- The message holds the request of this client. -/
  Carries : κ → ρ → μ → Prop
  /-- The message holds the reply of this server. -/
  Answers : κ → α → μ → Prop

namespace Exchange

variable {κ ρ α μ : Type*}

/-- Where a client is. -/
inductive Stage (ρ α : Type*) where
  | quiet
  | pending (r : ρ)
  | taken (r : ρ)
  | replied (r : ρ) (a : α)

/-- What is seen of a move. -/
inductive Entry (κ ρ α μ : Type*) where
  | sent (c : κ) (r : ρ)
  | taken (v c : κ) (m : μ)
  | replied (v c : κ) (a : α)
  | received (c v : κ) (m : μ)

/-- The client of an entry. -/
def Entry.client : Entry κ ρ α μ → κ
  | .sent c _ => c
  | .taken _ c _ => c
  | .replied _ c _ => c
  | .received c _ _ => c

variable [DecidableEq κ]

/-- The moves. -/
inductive Move (X : Exchange κ ρ α μ) :
    (κ → Stage ρ α) → Entry κ ρ α μ → (κ → Stage ρ α) → Prop
  | send {σ : κ → Stage ρ α} {c : κ} {r : ρ} (h : σ c = .quiet) :
      Move X σ (.sent c r) (Function.update σ c (.pending r))
  | take {σ : κ → Stage ρ α} {c : κ} {r : ρ} {m : μ} (h : σ c = .pending r)
      (hm : X.Carries c r m) : Move X σ (.taken (X.server r) c m) (Function.update σ c (.taken r))
  | reply {σ : κ → Stage ρ α} {c : κ} {r : ρ} {a : α} (h : σ c = .taken r) :
      Move X σ (.replied (X.server r) c a) (Function.update σ c (.replied r a))
  | receive {σ : κ → Stage ρ α} {c : κ} {r : ρ} {a : α} {m : μ} (h : σ c = .replied r a)
      (hm : X.Answers (X.server r) a m) :
      Move X σ (.received c (X.server r) m) (Function.update σ c .quiet)

/-- A complete round of the client `c`. -/
structure Round (X : Exchange κ ρ α μ) (c : κ) where
  request : ρ
  message : μ
  reply : α
  answer : μ
  carries : X.Carries c request message
  answers : X.Answers (X.server request) reply answer

/-- The entries of a round. -/
def Round.entries {X : Exchange κ ρ α μ} {c : κ} (R : X.Round c) : List (Entry κ ρ α μ) :=
  [.sent c R.request, .taken (X.server R.request) c R.message,
    .replied (X.server R.request) c R.reply, .received c (X.server R.request) R.answer]

/-- The beginning of a round, by the stage that it leads to. -/
inductive Begun (X : Exchange κ ρ α μ) (c : κ) : Stage ρ α → List (Entry κ ρ α μ) → Prop
  | quiet : Begun X c .quiet []
  | pending (r : ρ) : Begun X c (.pending r) [.sent c r]
  | taken (r : ρ) {m : μ} (hm : X.Carries c r m) :
      Begun X c (.taken r) [.sent c r, .taken (X.server r) c m]
  | replied (r : ρ) (a : α) {m : μ} (hm : X.Carries c r m) :
      Begun X c (.replied r a)
        [.sent c r, .taken (X.server r) c m, .replied (X.server r) c a]

/-- The entries of a client are complete rounds and the beginning of one. -/
def Rounds (X : Exchange κ ρ α μ) (c : κ) (st : Stage ρ α) (log : List (Entry κ ρ α μ)) : Prop :=
  ∃ (rounds : List (X.Round c)) (rest : List (Entry κ ρ α μ)),
    log.filter (fun e => e.client = c) = rounds.flatMap Round.entries ++ rest ∧ X.Begun c st rest

section

variable {X : Exchange κ ρ α μ} {σ σ' : κ → Stage ρ α} {log : List (Entry κ ρ α μ)}
  {e : Entry κ ρ α μ} {c : κ}

/-- A move of another client does not show. -/
theorem Rounds.other (h : X.Rounds c (σ c) log) (hmove : X.Move σ e σ') (hne : e.client ≠ c) :
    X.Rounds c (σ' c) (log ++ [e]) := by
  obtain ⟨rounds, rest, hlog, hrest⟩ := h
  have hstage : σ' c = σ c := by
    cases hmove <;> exact Function.update_of_ne (Ne.symm hne) _ _
  refine ⟨rounds, rest, ?_, hstage ▸ hrest⟩
  rw [List.filter_append, hlog]
  simp [hne]

/-- A move of the client continues its round; with `received` the round is complete. -/
theorem Rounds.self (h : X.Rounds c (σ c) log) (hmove : X.Move σ e σ') (heq : e.client = c) :
    X.Rounds c (σ' c) (log ++ [e]) := by
  obtain ⟨rounds, rest, hlog, hrest⟩ := h
  have hfilter : (log ++ [e]).filter (fun e => e.client = c)
      = rounds.flatMap Round.entries ++ (rest ++ [e]) := by
    rw [List.filter_append, hlog, List.append_assoc]
    simp [heq]
  subst heq
  cases hmove with
  | send hquiet =>
    rw [Entry.client, hquiet] at hrest
    cases hrest
    exact ⟨rounds, _, hfilter, by rw [Entry.client, Function.update_self]; exact .pending _⟩
  | take hpending hm =>
    rw [Entry.client, hpending] at hrest
    cases hrest
    exact ⟨rounds, _, hfilter, by rw [Entry.client, Function.update_self]; exact .taken _ hm⟩
  | reply htaken =>
    rw [Entry.client, htaken] at hrest
    cases hrest with
    | taken _ hm =>
      exact ⟨rounds, _, hfilter, by rw [Entry.client, Function.update_self]; exact .replied _ _ hm⟩
  | receive hreplied hm' =>
    rw [Entry.client, hreplied] at hrest
    cases hrest with
    | replied _ _ hm =>
      refine ⟨rounds ++ [⟨_, _, _, _, hm, hm'⟩], [], ?_, by
        rw [Entry.client, Function.update_self]; exact .quiet⟩
      rw [hfilter, List.flatMap_append]
      simp [Round.entries, Entry.client]

/-- In every run the entries of each client are rounds. -/
theorem rounds_of_run (hrun : Run X.Move σ log σ') (hquiet : ∀ c, σ c = .quiet) (c : κ) :
    X.Rounds c (σ' c) log := by
  -- by induction on the run, over what has been logged before it
  have key : ∀ {σ log σ'}, Run X.Move σ log σ' → ∀ before, X.Rounds c (σ c) before →
      X.Rounds c (σ' c) (before ++ log) := by
    intro σ log σ' hrun
    induction hrun with
    | nil σ => intro before h; rwa [List.append_nil]
    | @cons σ τ υ e es hstep _ ih =>
      intro before h
      rw [← List.singleton_append, ← List.append_assoc]
      by_cases he : e.client = c
      · exact ih _ (h.self hstep he)
      · exact ih _ (h.other hstep he)
  exact key hrun [] ⟨[], [], rfl, hquiet c ▸ .quiet⟩

end

end Exchange

end Foundation
