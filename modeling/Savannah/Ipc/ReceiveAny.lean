import Savannah.Foundation.Cyclic
import Savannah.Foundation.Run
import Savannah.Pm.Registry

/-!
# Receiving from any channel

`cnl_receive_any` of `lib/channel.c` lets a driver wait for a request on any of its channels.  The
channels stand in an array `vm_channels` that PM maintains; a static variable remembers where the
last search ended, so that the channels are served in turn.

A call returns the first ready channel in the cyclic order from there on.  The turns are fair to the
entries of the array, and so to the channels if the entries are different.  They need not be: when
the array is full, `remove_channel_list` leaves the last channel in it twice (`removeFrom_full`),
and a channel with two entries next to each other is served twice while another one waits.
`serves_iff_spread` says for which arrays the turns are fair.
-/

namespace Savannah.Receive

open Foundation

/-! ### The array -/

/-- An array `vm_channels`: it holds the channels, and zeros behind them. -/
structure ChannelArray where
  slots : ℕ → ℕ
  channels : List ℕ
  terminated : ZeroTerminated maxChannels slots channels

/-- The number of channels. -/
def ChannelArray.length (c : ChannelArray) : ℕ := c.channels.length

theorem ChannelArray.length_le (c : ChannelArray) : c.length ≤ maxChannels := c.terminated.length_le

/-! ### The function -/

inductive ReceivePanic where
  /-- "This must be called from drivers!" -/
  | notDriver
  /-- "From_cnl should NEVER be null!" -/
  | nullChannel
  deriving DecidableEq, Repr

/-- The static variable `i`, and the fields `ready_send` of the channels. -/
structure Receiver where
  cursor : ℕ
  readySend : ℕ → Bool

/-- The inner loop, with `n` iterations left at the index `i`: the index after it, and the index of
the channel that was found. -/
def pass (slots : ℕ → ℕ) (ready : ℕ → Bool) : ℕ → ℕ → ℕ × Option ℕ
  | 0, i => (i, none)
  | n + 1, i =>
    if slots i = 0 then
      (0, none)
    else if ready (slots i) then
      (i + 1, some i)
    else
      pass slots ready n (i + 1)

/-- The reset at the end of the array. -/
def wrap (i : ℕ) : ℕ := if i ≥ maxChannels then 0 else i

/-- The outer loop, for at most `fuel` iterations. -/
def receiveLoop (slots : ℕ → ℕ) : ℕ → Receiver → Except (Stop ReceivePanic) (ℕ × Receiver)
  | 0, _ => .error .diverges
  | fuel + 1, s =>
    match pass slots s.readySend (maxChannels - s.cursor) s.cursor with
    | (i, some found) =>
      .ok (slots found, ⟨wrap i, Function.update s.readySend (slots found) false⟩)
    | (i, none) => receiveLoop slots fuel { s with cursor := wrap i }

/-- `cnl_receive_any` on the CPU `cpuid`. -/
def cnlReceiveAny (cpuid : ℕ) (slots : ℕ → ℕ) (fuel : ℕ) (s : Receiver) :
    Except (Stop ReceivePanic) (ℕ × Receiver) :=
  if !isDriver cpuid then
    .error (.panic .notDriver)
  else do
    let (channel, s) ← receiveLoop slots fuel s
    if channel = 0 then
      throw (.panic .nullChannel)
    return (channel, s)

/-! ### Serving the channels in turn -/

/-- Where a search begins: a cursor behind the list starts again at its first entry. -/
def ChannelArray.start (c : ChannelArray) (cursor : ℕ) : ℕ :=
  if cursor < c.length then cursor else 0

/-- The entry `i` is ready. -/
def ChannelArray.Ready (c : ChannelArray) (ready : ℕ → Bool) (i : ℕ) : Prop :=
  ready (c.slots i) = true

/-- A call, with the channels that are ready when it begins and the one that it returns. -/
structure Call where
  ready : ℕ → Bool
  channel : ℕ

/-- A call of a driver on the array `c`.  Since the call before, any channels may have become
ready. -/
def Step (cpuid : ℕ) (c : ChannelArray) (s : Receiver) (e : Call) (s' : Receiver) : Prop :=
  ∃ fuel, cnlReceiveAny cpuid c.slots fuel { s with readySend := e.ready } = .ok (e.channel, s')

/-- Two passes suffice: the first ready channel from the cursor on is returned, and its flag and no
other one is cleared. -/
def ChannelArray.ReturnsFirst (c : ChannelArray) (cpuid : ℕ) : Prop :=
  ∀ s : Receiver, s.cursor < maxChannels → (∃ i < c.length, c.Ready s.readySend i) → ∀ fuel ≥ 2,
    ∃ p s', FirstFrom c.length (c.start s.cursor) (c.Ready s.readySend) p ∧
      cnlReceiveAny cpuid c.slots fuel s = .ok (c.slots p, s') ∧
      s'.readySend = Function.update s.readySend (c.slots p) false ∧ s'.cursor < maxChannels

/-- In any sequence of calls in which a channel of the array stays ready and is not returned, no
other channel is returned twice. -/
def ChannelArray.Fair (c : ChannelArray) (cpuid : ℕ) : Prop :=
  ∀ s es s' ch, s.cursor < maxChannels → Run (Step cpuid c) s es s' →
    (∃ i < c.length, c.slots i = ch) → (∀ e ∈ es, e.ready ch = true ∧ e.channel ≠ ch) →
    (es.map Call.channel).Nodup

/-- The channels are served in turn. -/
def ChannelArray.Serves (c : ChannelArray) : Prop :=
  ∀ cpuid, isDriver cpuid = true → c.ReturnsFirst cpuid ∧ c.Fair cpuid

/-- Between two entries of one channel, every other channel has an entry. -/
def ChannelArray.Spread (c : ChannelArray) : Prop :=
  ∀ p < c.length, ∀ q < c.length, p ≠ q → c.slots p = c.slots q →
    ∀ r < c.length, c.slots r ≠ c.slots p →
      ∃ t < c.length, c.slots t = c.slots r ∧ ahead c.length p t < ahead c.length p q

/-! ### One call -/

section Pass

variable {slots : ℕ → ℕ} {ready : ℕ → Bool} {l : List ℕ}

/-- The inner loop stops at the first ready channel. -/
theorem pass_hit (hz : ZeroTerminated maxChannels slots l) {p : ℕ} (hp : p < l.length)
    (hready : ready (slots p) = true) :
    ∀ k i, i ≤ p → p < i + k → (∀ r, i ≤ r → r < p → ready (slots r) = false) →
      pass slots ready k i = (p + 1, some p) := by
  intro k
  induction k with
  | zero => exact fun i hi hk _ => absurd hk (by omega)
  | succ k ih =>
    intro i hi hk hbefore
    unfold pass
    rw [if_neg (hz.ne_zero (by omega))]
    rcases hi.lt_or_eq with hlt | rfl
    · rw [hbefore i le_rfl hlt, if_neg Bool.false_ne_true]
      exact ih (i + 1) hlt (by omega) fun r hr hrp => hbefore r (by omega) hrp
    · rw [if_pos hready]

/-- Without a ready channel it runs to the end of the list, and the index is reset. -/
theorem pass_miss (hz : ZeroTerminated maxChannels slots l) :
    ∀ k i, i + k = maxChannels → (∀ r, i ≤ r → r < l.length → ready (slots r) = false) →
      ∃ i', pass slots ready k i = (i', none) ∧ wrap i' = 0 := by
  intro k
  induction k with
  | zero =>
    intro i hi _
    exact ⟨i, rfl, if_pos (by omega)⟩
  | succ k ih =>
    intro i hi hmiss
    unfold pass
    rcases Nat.lt_or_ge i l.length with hlt | hge
    · rw [if_neg (hz.ne_zero hlt), hmiss i le_rfl hlt, if_neg Bool.false_ne_true]
      exact ih (i + 1) (by omega) fun r hr hrn => hmiss r (by omega) hrn
    · rw [if_pos ((hz.eq_zero_iff (by omega)).mpr hge)]
      exact ⟨0, rfl, rfl⟩

end Pass

section Call

variable {c : ChannelArray} {s : Receiver} {p fuel cpuid : ℕ}

/-- The state after the entry `p` was returned. -/
def Receiver.take (s : Receiver) (c : ChannelArray) (p : ℕ) : Receiver :=
  ⟨wrap (p + 1), Function.update s.readySend (c.slots p) false⟩

/-- The outer loop from a cursor that is not behind the entry. -/
theorem receiveLoop_hit (hp : p < c.length) (hready : c.Ready s.readySend p) (hle : s.cursor ≤ p)
    (hbefore : ∀ r, s.cursor ≤ r → r < p → ¬ c.Ready s.readySend r) :
    receiveLoop c.slots (fuel + 1) s = .ok (c.slots p, s.take c p) := by
  have hmax := c.length_le
  have hpass := pass_hit c.terminated hp hready (maxChannels - s.cursor) s.cursor hle (by omega)
    fun r hr hrp => Bool.eq_false_iff.mpr (hbefore r hr hrp)
  unfold receiveLoop
  rw [hpass]
  rfl

/-- The outer loop from a cursor behind which nothing is ready. -/
theorem receiveLoop_miss (hcursor : s.cursor < maxChannels)
    (hmiss : ∀ r, s.cursor ≤ r → r < c.length → ¬ c.Ready s.readySend r) :
    receiveLoop c.slots (fuel + 1) s = receiveLoop c.slots fuel { s with cursor := 0 } := by
  obtain ⟨i, hpass, hwrap⟩ := pass_miss c.terminated (maxChannels - s.cursor) s.cursor (by omega)
    fun r hr hrn => Bool.eq_false_iff.mpr (hmiss r hr hrn)
  rw [receiveLoop, hpass]
  dsimp only
  rw [hwrap]

/-- The first ready entry from the cursor on is returned. -/
theorem receiveLoop_first (hcursor : s.cursor < maxChannels)
    (h : FirstFrom c.length (c.start s.cursor) (c.Ready s.readySend) p) :
    receiveLoop c.slots (fuel + 2) s = .ok (c.slots p, s.take c p) := by
  unfold ChannelArray.start at h
  by_cases hin : s.cursor < c.length
  · rw [if_pos hin] at h
    by_cases hle : s.cursor ≤ p
    · refine receiveLoop_hit h.lt h.holds hle ?_
      intro r hr hrp
      refine h.before r (hrp.trans h.lt) ?_
      unfold ahead
      rw [if_pos hr, if_pos hle]
      omega
    · -- nothing from the cursor to the end: the search goes round
      have hmiss : ∀ r, s.cursor ≤ r → r < c.length → ¬ c.Ready s.readySend r := by
        intro r hr hrn
        refine h.before r hrn ?_
        unfold ahead
        rw [if_pos hr, if_neg hle]
        omega
      rw [receiveLoop_miss hcursor hmiss]
      refine receiveLoop_hit (s := { s with cursor := 0 }) h.lt h.holds (Nat.zero_le p) ?_
      intro r _ hrp
      refine h.before r (hrp.trans h.lt) ?_
      unfold ahead
      rw [if_neg (by omega), if_neg hle]
      omega
  · rw [if_neg hin] at h
    rw [receiveLoop_miss hcursor fun r hr hrn => absurd hrn (by omega)]
    refine receiveLoop_hit (s := { s with cursor := 0 }) h.lt h.holds (Nat.zero_le p) ?_
    intro r _ hrp
    refine h.before r (hrp.trans h.lt) ?_
    unfold ahead
    rw [if_pos (Nat.zero_le r), if_pos (Nat.zero_le p)]
    omega

theorem start_lt (h : 0 < c.length) (cursor : ℕ) : c.start cursor < c.length := by
  unfold ChannelArray.start
  split <;> omega

/-- The next search begins behind the entry. -/
theorem start_wrap (hp : p < c.length) : c.start (wrap (p + 1)) = next c.length p := by
  have hmax := c.length_le
  unfold ChannelArray.start wrap next
  split_ifs <;> omega

theorem wrap_lt (i : ℕ) : wrap i < maxChannels := by
  unfold wrap
  split
  · norm_num
  · omega

/-- What a call returns, with enough fuel. -/
theorem cnlReceiveAny_first (hcpu : isDriver cpuid = true) (hcursor : s.cursor < maxChannels)
    (h : FirstFrom c.length (c.start s.cursor) (c.Ready s.readySend) p) :
    cnlReceiveAny cpuid c.slots (fuel + 2) s = .ok (c.slots p, s.take c p) := by
  unfold cnlReceiveAny
  rw [hcpu, receiveLoop_first hcursor h]
  exact if_neg (c.terminated.ne_zero h.lt)

/-- As long as nothing is ready, the loop goes on. -/
theorem receiveLoop_idle (hidle : ∀ r < c.length, ¬ c.Ready s.readySend r) :
    ∀ cursor < maxChannels,
      receiveLoop c.slots fuel { s with cursor := cursor } = .error .diverges := by
  induction fuel with
  | zero => exact fun _ _ => rfl
  | succ fuel ih =>
    intro cursor hcursor
    rw [receiveLoop_miss (s := { s with cursor := cursor }) hcursor fun r _ hr => hidle r hr]
    exact ih 0 (by norm_num)

/-- More iterations do not change the result. -/
theorem receiveLoop_mono {slots : ℕ → ℕ} {r : ℕ × Receiver} :
    ∀ fuel s, receiveLoop slots fuel s = .ok r → receiveLoop slots (fuel + 1) s = .ok r := by
  intro fuel
  induction fuel with
  | zero =>
    intro s h
    cases h
  | succ fuel ih =>
    intro s h
    rw [receiveLoop] at h ⊢
    split at h
    · exact h
    · exact ih _ h

/-- A call that returns has found the first ready entry. -/
theorem first_of_step {e : Call} {s' : Receiver} (hstep : Step cpuid c s e s')
    (hcursor : s.cursor < maxChannels) :
    ∃ p, FirstFrom c.length (c.start s.cursor) (c.Ready e.ready) p ∧ e.channel = c.slots p ∧
      s' = Receiver.take ⟨s.cursor, e.ready⟩ c p := by
  obtain ⟨fuel, hok⟩ := hstep
  cases hcpu : isDriver cpuid with
  | false =>
    unfold cnlReceiveAny at hok
    rw [hcpu] at hok
    cases hok
  | true =>
    have hloop : ∃ r, receiveLoop c.slots fuel ⟨s.cursor, e.ready⟩ = .ok r := by
      cases hr : receiveLoop c.slots fuel ⟨s.cursor, e.ready⟩ with
      | ok r => exact ⟨r, rfl⟩
      | error stop =>
        unfold cnlReceiveAny at hok
        rw [hcpu, hr] at hok
        cases hok
    obtain ⟨r, hr⟩ := hloop
    have hsome : ∃ i < c.length, c.Ready e.ready i := by
      by_contra hnone
      push Not at hnone
      rw [receiveLoop_idle (s := ⟨s.cursor, e.ready⟩) hnone s.cursor hcursor] at hr
      cases hr
    obtain ⟨p, hp⟩ := FirstFrom.exists_of_exists (s := c.start s.cursor) hsome
    have hmore := receiveLoop_mono _ _ (receiveLoop_mono _ _ hr)
    rw [receiveLoop_first (s := ⟨s.cursor, e.ready⟩) hcursor hp] at hmore
    cases hmore
    unfold cnlReceiveAny at hok
    rw [hcpu, hr] at hok
    obtain ⟨hchannel, rfl⟩ := Prod.mk.inj (Except.ok.inj
      ((if_neg (c.terminated.ne_zero hp.lt)).symm.trans hok))
    exact ⟨p, hp, hchannel.symm, rfl⟩

end Call

/-! ### The array that PM maintains -/

section Array

variable {page j : ℕ} {l : List ℕ} {s : PmState} {E : Stop PmPanic → PmState → Prop}

/-- If the array is full, the last channel is in it twice after another one was removed. -/
theorem removeFrom_full (hz : ZeroTerminated maxChannels (s.words page) l)
    (hfull : l.length = maxChannels) (hdistinct : ∀ i < maxChannels, ∀ i' < maxChannels,
      s.words page i = s.words page i' → i = i') (hj : j < maxChannels) :
    wp (removeFrom page (s.words page j) false) (fun r s' => r = true ∧ ∀ i < maxChannels,
      s'.words page i = moved (s.words page) j (maxChannels - 1) i) E s := by
  obtain ⟨before, after, hsplit⟩ := List.append_of_mem (List.mem_range.mpr hj)
  have hnodup : (before ++ j :: after).Nodup := hsplit ▸ List.nodup_range
  have hlt : ∀ i ∈ before ++ j :: after, i < maxChannels := by
    intro i hi
    exact List.mem_range.mp (hsplit ▸ hi)
  unfold removeFrom
  rw [hsplit, List.foldlM_append]
  refine (removeFrom_absent fun i hi heq => ?_).bind ?_
  · have hij := hdistinct i (hlt i (List.mem_append_left _ hi)) j hj heq
    exact List.disjoint_of_nodup_append hnodup hi (hij ▸ List.mem_cons_self)
  rintro _ _ ⟨rfl, rfl⟩
  rw [List.foldlM_cons, wp_bind, wp_bind, wp_get, if_pos rfl]
  refine (removeAt_moved hz (hfull ▸ hj)).mono ?_ fun _ _ he => he
  rintro _ s' ⟨rfl, hwords, -⟩
  rw [hfull] at hwords
  -- the entries behind are seen at their new places, where the channel is no longer found
  refine (removeFrom_absent fun i hi heq => ?_).mono ?_ fun _ _ he => he
  · have hi' := hlt i (List.mem_append_right _ (List.mem_cons_of_mem _ hi))
    have hne : i ≠ j := by
      rintro rfl
      exact (List.nodup_cons.mp (List.nodup_append.mp hnodup).2.1).1 hi
    rw [hwords i hi', moved] at heq
    split_ifs at heq with hmove
    · have := hdistinct (i + 1) (by omega) j hj heq
      omega
    · exact hne (hdistinct i hi' j hj heq)
  · rintro _ _ ⟨rfl, rfl⟩
    exact ⟨rfl, hwords⟩

end Array

/-! ### Sequences of calls -/

section Runs

variable {c : ChannelArray} {s s' : Receiver} {cpuid : ℕ} {es : List Call}

/-- The entries that a sequence of calls returns are taken in rounds. -/
theorem rounds_of_run (hrun : Run (Step cpuid c) s es s') (hcursor : s.cursor < maxChannels) :
    ∃ l, Rounds c.length (c.start s.cursor) l ∧ es.map Call.channel = l.map (fun x => c.slots x.2) ∧
      ∀ x ∈ l, ∃ e ∈ es, x.1 = c.Ready e.ready ∧ e.channel = c.slots x.2 := by
  induction hrun with
  | nil s => exact ⟨[], .nil _, rfl, fun _ hx => absurd hx List.not_mem_nil⟩
  | @cons s s₁ s' e es hstep _ ih =>
    obtain ⟨p, hp, hchannel, rfl⟩ := first_of_step hstep hcursor
    obtain ⟨l, hrounds, hmap, hl⟩ := ih (wrap_lt _)
    rw [Receiver.take, start_wrap hp.lt] at hrounds
    refine ⟨(c.Ready e.ready, p) :: l, .cons hp hrounds, ?_, ?_⟩
    · rw [List.map_cons, List.map_cons, hmap, hchannel]
    · refine List.forall_mem_cons.mpr ⟨⟨e, List.mem_cons_self, rfl, hchannel⟩, ?_⟩
      intro x hx
      obtain ⟨e', he', hx'⟩ := hl x hx
      exact ⟨e', List.mem_cons_of_mem _ he', hx'⟩

/-- If the entries of a channel are spread, no channel is served twice while another one waits. -/
theorem fair_of_spread (h : c.Spread) : c.Fair cpuid := by
  rintro s es s' ch hcursor hrun ⟨r, hr, rfl⟩ hwaits
  obtain ⟨l, hrounds, hmap, hl⟩ := rounds_of_run hrun hcursor
  have hother : ∀ x ∈ l, c.slots x.2 ≠ c.slots r := by
    intro x hx
    obtain ⟨e, he, -, hchannel⟩ := hl x hx
    exact hchannel ▸ (hwaits e he).2
  -- every entry of the waiting channel comes closer with every call
  have hcloser : ∀ t < c.length, c.slots t = c.slots r →
      l.Pairwise fun x y => ahead c.length y.2 t < ahead c.length x.2 t := by
    intro t ht hslot
    refine (hrounds.pairwise_ahead (start_lt (by omega) _) ht ?_).2
    intro x hx
    obtain ⟨e, he, hready, -⟩ := hl x hx
    refine ⟨?_, fun heq => hother x hx (heq ▸ hslot)⟩
    rw [hready, ChannelArray.Ready, hslot]
    exact (hwaits e he).1
  rw [hmap, List.Nodup, List.pairwise_map, List.pairwise_iff_forall_sublist]
  intro x y hsub hsame
  have hx : x ∈ l := hsub.subset List.mem_cons_self
  have hy : y ∈ l := hsub.subset (List.mem_cons_of_mem _ List.mem_cons_self)
  have hpair := fun t ht hslot => List.pairwise_iff_forall_sublist.mp (hcloser t ht hslot) hsub
  by_cases heq : x.2 = y.2
  · exact absurd (hpair r hr rfl) (heq ▸ lt_irrefl _)
  · -- an entry of the waiting channel lies between the two, and has been passed
    obtain ⟨t, ht, hslot, hbetween⟩ :=
      h x.2 (hrounds.lt x hx) y.2 (hrounds.lt y hy) heq hsame r hr (hother x hx).symm
    have hround := ahead_of_lt (hrounds.lt x hx) (hrounds.lt y hy) hbetween
    have hlt := ahead_lt (hrounds.lt x hx) (hrounds.lt y hy)
    have hclose := hpair t ht hslot
    omega

/-- Two entries of one channel without an entry of another channel between them: the one is served
twice while the other waits. -/
theorem not_fair_of_stretch (hcpu : isDriver cpuid = true) {p q r : ℕ} (hp : p < c.length)
    (hq : q < c.length) (hr : r < c.length) (hne : p ≠ q) (hsame : c.slots p = c.slots q)
    (hother : c.slots r ≠ c.slots p)
    (hstretch : ∀ t < c.length, c.slots t = c.slots r → ahead c.length p q ≤ ahead c.length p t) :
    ¬ c.Fair cpuid := by
  intro hfair
  let ready : ℕ → Bool := fun a => a = c.slots p || a = c.slots r
  have hready : ∀ i, c.Ready ready i ↔ c.slots i = c.slots p ∨ c.slots i = c.slots r := by
    intro i
    simp [ChannelArray.Ready, ready]
  have hmax := c.length_le
  have hfirst : FirstFrom c.length (c.start p) (c.Ready ready) p := by
    have hstart : c.start p = p := if_pos hp
    rw [hstart]
    refine ⟨hp, (hready p).mpr (.inl rfl), ?_⟩
    intro t _ hlt
    rw [ahead_self] at hlt
    exact absurd hlt (Nat.not_lt_zero _)
  obtain ⟨p', hp'⟩ := FirstFrom.exists_of_exists (s := next c.length p)
    ⟨q, hq, (hready q).mpr (.inl hsame.symm)⟩
  -- the second search does not get as far as the other channel
  have hsecond : c.slots p' = c.slots p := by
    refine ((hready p').mp hp'.holds).resolve_right ?_
    intro hslot
    have hle := hp'.ahead_le hq ((hready q).mpr (.inl hsame.symm))
    have hne' : p ≠ p' := fun heq => hother (by rw [← hslot, ← heq])
    have hstep := ahead_next hp hp'.lt hne'
    have hstep' := ahead_next hp hq hne
    have hfar := hstretch p' hp'.lt hslot
    have heq : p' = q := ahead_injective hp hp'.lt hq (by omega)
    exact hother (by rw [← hslot, heq, hsame])
  have hrun : Run (Step cpuid c) ⟨p, ready⟩ [⟨ready, c.slots p⟩, ⟨ready, c.slots p⟩]
      (Receiver.take ⟨wrap (p + 1), ready⟩ c p') := by
    refine .cons ⟨2, cnlReceiveAny_first hcpu (by show p < maxChannels; omega) hfirst⟩
      (.cons ⟨2, ?_⟩ (.nil _))
    rw [← start_wrap hp] at hp'
    exact (cnlReceiveAny_first hcpu (wrap_lt _) hp').trans (by rw [hsecond]; rfl)
  have hnodup := hfair _ _ _ (c.slots r) (by show p < maxChannels; omega) hrun ⟨r, hr, rfl⟩ ?_
  · simp at hnodup
  · intro e he
    have he : e = ⟨ready, c.slots p⟩ := by simpa using he
    rw [he]
    exact ⟨(hready r).mpr (.inr rfl), hother.symm⟩

end Runs

/-- A call returns the first ready channel from the cursor on. -/
theorem returnsFirst (c : ChannelArray) {cpuid : ℕ} (hcpu : isDriver cpuid = true) :
    c.ReturnsFirst cpuid := by
  intro s hcursor hsome fuel hfuel
  obtain ⟨p, hp⟩ := FirstFrom.exists_of_exists (s := c.start s.cursor) hsome
  obtain ⟨fuel, rfl⟩ := Nat.exists_eq_add_of_le' hfuel
  exact ⟨p, s.take c p, hp, cnlReceiveAny_first hcpu hcursor hp, rfl, wrap_lt _⟩

/-- The channels are served in turn exactly if between two entries of one channel every other
channel has an entry; so in particular if no channel has two. -/
theorem serves_iff_spread (c : ChannelArray) : c.Serves ↔ c.Spread := by
  constructor
  · intro hserves p hp q hq hne hsame r hr hother
    by_contra hnone
    push Not at hnone
    exact not_fair_of_stretch (by decide : isDriver kbdId = true) hp hq hr hne hsame hother hnone
      (hserves kbdId (by decide)).2
  · intro h cpuid hcpu
    exact ⟨returnsFirst c hcpu, fair_of_spread h⟩

/-- An array with room for no further channel, after the first one was removed. -/
def shifted : ChannelArray where
  slots := moved (fun i => 4096 * (i + 1)) 0 (maxChannels - 1)
  channels := _
  terminated := .full fun i _ => by
    unfold moved
    split <;> positivity

/-- The last channel of this array is served twice while the first one waits. -/
theorem shifted_not_serves : ¬ shifted.Serves := by
  intro hserves
  refine not_fair_of_stretch (c := shifted) (by decide : isDriver kbdId = true) (p := 30) (q := 31)
    (r := 0)
    (by decide) (by decide) (by decide) (by decide) (by decide) (by decide) ?_
    (hserves kbdId (by decide)).2
  intro t ht hslot
  have hslot' : moved (fun i => 4096 * (i + 1)) 0 31 t = 4096 * 2 := hslot
  unfold moved at hslot'
  dsimp only at hslot'
  obtain rfl : t = 0 := by
    split_ifs at hslot' with hmove
    · omega
    · exact absurd hslot' (by omega)
  decide

end Savannah.Receive
