import Savannah.Lib.Format

/-!
# Output cut to the size of the buffer

What `vsnprintf` and `snprintf` leave in a buffer of `n` bytes.  The loop over the bytes of the
format writes its items one after the other (`loop_eq`).  Writing an item is writing its text as far
as there is room, except for `%s`: it also writes the zero that ends the string and takes it back
only if there is room left behind it.  A string whose zero takes the last free place ends the output
there, whatever follows in the format.
-/

namespace Savannah.Format

open Foundation

/-! ## The items of the format, one after the other -/

section Items

variable {n : ℕ} {o : Out}

/-- Writing an item. -/
def emit (n : ℕ) : Item → Out → Except Fault Out
  | .literal b, o => o.put n b
  | .character v, o => o.put n (.ofBitVec (v.setWidth 8))
  | .hex v, o => snPutHex n v (n - 1) o
  | .decimal v, o => snPutDecimal n v (n - 1) o
  | .string s, o => putString n s o
  | .unknown, o => .ok o

/-- Writing items while there is room. -/
def emits (n : ℕ) : List Item → Out → Except Fault Out
  | [], o => .ok o
  | it :: its, o => if n - 1 ≤ o.idx then .ok o else emit n it o >>= emits n its

/-- A conversion emits its item. -/
theorem convert_eq {k : UInt8} {args args' : List Arg} {it : Item}
    (h : conversion k args = some (it, args')) :
    convert n k args o = (emit n it o).map (·, args') := by
  unfold conversion at h
  unfold convert
  split_ifs at h ⊢
  · split at h
    · obtain ⟨rfl, rfl⟩ := Prod.mk.inj (Option.some.inj h)
      rfl
    · cases h
  · split at h
    · obtain ⟨rfl, rfl⟩ := Prod.mk.inj (Option.some.inj h)
      rfl
    · cases h
  · split at h
    · obtain ⟨rfl, rfl⟩ := Prod.mk.inj (Option.some.inj h)
      rfl
    · cases h
  · split at h
    · obtain ⟨rfl, rfl⟩ := Prod.mk.inj (Option.some.inj h)
      rfl
    · cases h
  · obtain ⟨rfl, rfl⟩ := Prod.mk.inj (Option.some.inj h)
    rfl

/-- The loop over the bytes of the format writes its items. -/
theorem loop_eq {fmt : List UInt8} (hfmt : 0 ∉ fmt) {args : List Arg} {its : List Item}
    (h : items fmt args = some its) : loop n (fmt ++ [0]) args o = emits n its o := by
  induction fmt, args using items.induct generalizing its o with
  | case1 args =>
    obtain rfl := Option.some.inj h
    rw [List.nil_append, loop, if_pos (.inl rfl), emits]
  | case2 ch fmt args hch ih =>
    unfold items at h
    rw [if_pos hch] at h
    obtain ⟨its', hits, rfl⟩ := Option.map_eq_some_iff.mp h
    have hne : ch ≠ 0 := fun h => hfmt (h ▸ List.mem_cons_self ..)
    rw [List.cons_append, loop.eq_def, emits]
    dsimp only
    by_cases hroom : n - 1 ≤ o.idx
    · rw [if_pos (.inr hroom), if_pos hroom]
    · rw [if_neg (by simp [hne, hroom]), if_pos hch, if_neg hroom]
      exact congrArg _ (funext fun o => ih (fun h => hfmt (List.mem_cons_of_mem ch h)) hits)
  | case3 ch args hch =>
    rw [items, if_neg hch] at h
    cases h
  | case4 ch args hch k fmt ih =>
    rw [items, if_neg hch] at h
    obtain ⟨⟨it, args'⟩, hconv, hrest⟩ := Option.bind_eq_some_iff.mp h
    obtain ⟨its', hits, rfl⟩ := Option.map_eq_some_iff.mp hrest
    have hne : ch ≠ 0 := fun h => hfmt (h ▸ List.mem_cons_self ..)
    have hfmt' : 0 ∉ fmt := fun h => hfmt (List.mem_cons_of_mem ch (List.mem_cons_of_mem k h))
    rw [List.cons_append, List.cons_append, loop, emits]
    by_cases hroom : n - 1 ≤ o.idx
    · rw [if_pos (.inr hroom), if_pos hroom]
    · rw [if_neg (by simp [hne, hroom]), if_neg hch, if_neg hroom]
      dsimp only
      rw [convert_eq hconv]
      cases emit n it o with
      | error e => rfl
      | ok o' => exact ih _ hfmt' hits

/-- A string with its zero. -/
theorem copyString_eq {s : List UInt8} (hs : 0 ∉ s) :
    copyString n (s ++ [0]) o = puts n (n - 1) (s ++ [0]) o := by
  induction s generalizing o with
  | nil =>
    rw [List.nil_append, copyString, puts]
    simp only [ne_eq, not_true_eq_false, if_false]
    rfl
  | cons c s ih =>
    have hc : c ≠ 0 := fun h => hs (h ▸ List.mem_cons_self ..)
    rw [List.cons_append, copyString, puts]
    simp only [if_pos hc]
    refine if_congr Iff.rfl ?_ rfl
    exact congrArg _ (funext fun o => ih fun h => hs (List.mem_cons_of_mem c h))

/-- A defined item is put out. -/
theorem emit_eq {it : Item} (hit : it.Defined) (hz : it.zeros = 0) (hroom : o.idx < n - 1) :
    emit n it o = puts n (n - 1) it.text o := by
  cases it with
  | literal b => exact (puts_singleton hroom).symm
  | character v => exact (puts_singleton hroom).symm
  | hex v => exact snPutHex_eq hit
  | decimal v => exact snPutDecimal_eq hit
  | string s => cases hz
  | unknown => rfl

theorem emit_not_defined {it : Item} (hit : ¬ it.Defined) : ∃ e, emit n it o = .error e := by
  cases it with
  | hex v =>
    obtain rfl : v = 0 := not_not.mp hit
    exact ⟨_, snPutHex_zero⟩
  | decimal v => exact ⟨_, snPutDecimal_min (not_not.mp hit)⟩
  | literal b => exact absurd trivial hit
  | character v => exact absurd trivial hit
  | string s => exact absurd trivial hit
  | unknown => exact absurd trivial hit

end Items

/-! ## The output -/

/-- The text `l` has been written, to a buffer that had the contents `buf`. -/
structure Shows (n : ℕ) (buf : Bytes) (o : Out) (l : List UInt8) : Prop where
  idx : o.idx = l.length
  load : o.buf.load 0 l.length = l
  frame : ∀ j, n ≤ j → o.buf j = buf j
  small : l.length < 2 ^ 31

section Output

variable {n : ℕ} {buf : Bytes} {o : Out} {l t : List UInt8}

/-- More is shown. -/
theorem Shows.store (h : Shows n buf o l) (hn : l.length + t.length ≤ n)
    (hsmall : l.length + t.length < 2 ^ 31) :
    Shows n buf ⟨o.buf.store o.idx t, o.idx + t.length⟩ (l ++ t) := by
  refine ⟨by rw [h.idx, List.length_append], ?_, fun j hj => ?_, by rwa [List.length_append]⟩
  · dsimp only
    rw [List.length_append, Bytes.load_add, h.idx, Nat.zero_add, Bytes.load_store,
      Bytes.load_store_of_disjoint (by omega), h.load]
  · exact (Bytes.store_of_disjoint (by rw [h.idx]; omega)).trans (h.frame j hj)

/-- Taking back the last character. -/
theorem Shows.back {b : UInt8} (h : Shows n buf o (l ++ [b])) :
    Shows n buf { o with idx := o.idx - 1 } l := by
  have hidx := h.idx
  have hload := h.load
  have hsmall := h.small
  rw [List.length_append, List.length_singleton] at hidx hload hsmall
  refine ⟨by rw [hidx]; rfl, ?_, h.frame, by omega⟩
  rw [Bytes.load_add] at hload
  exact List.append_inj_left hload Bytes.length_load

/-- The part of a text for which there is room. -/
theorem Shows.puts (h : Shows n buf o l) (hl : l.length ≤ n - 1) (hn : 0 < n) :
    if l.length + min t.length (n - 1 - l.length) < 2 ^ 31 then
      ∃ o', puts n (n - 1) t o = .ok o' ∧ Shows n buf o' (l ++ t.take (n - 1 - l.length))
    else ∃ e, Format.puts n (n - 1) t o = .error e := by
  have heq := puts_eq (l := t) (show n - 1 ≤ n by omega) (h.idx ▸ h.small)
  rw [h.idx] at heq
  split
  · rename_i hsmall
    rw [if_pos hsmall] at heq
    refine ⟨_, heq, ?_⟩
    have hlen : (t.take (n - 1 - l.length)).length = min t.length (n - 1 - l.length) := by
      rw [List.length_take, Nat.min_comm]
    have hs := h.store (t := t.take (n - 1 - l.length)) (by omega) (by omega)
    rwa [hlen, h.idx] at hs
  · rename_i hsmall
    rw [if_neg hsmall] at heq
    exact ⟨_, heq⟩

theorem not_exact_error {out : List UInt8} {e : Fault} : ¬ Exact n out buf (.error e) := by
  rintro ⟨_, h, -⟩
  cases h

/-- The zero at the end. -/
theorem Shows.terminate (h : Shows n buf o l) (hl : l.length < n) :
    ∃ buf', terminate n o = .ok buf' ∧ buf'.load 0 (l.length + 1) = l ++ [0] ∧
      ∀ j, n ≤ j → buf' j = buf j := by
  have hidx : ¬ n ≤ o.idx := by rw [h.idx]; omega
  refine ⟨o.buf.store o.idx [0], ?_, ?_, fun j hj => ?_⟩
  · rw [Format.terminate, if_neg hidx, ← Bytes.store_update, Bytes.store_nil]
  · rw [Bytes.load_add, h.idx, Nat.zero_add, Bytes.load_store_of_disjoint (by omega), h.load]
    exact congrArg _ Bytes.load_store
  · have hout : o.idx + [0].length ≤ j := by rw [h.idx]; exact Nat.le_trans hl hj
    exact (Bytes.store_of_disjoint (.inr hout)).trans (h.frame j hj)

/-- All that there is room for has been written. -/
theorem Shows.exact (h : Shows n buf o l) (hl : l.length < n) {out : List UInt8}
    (hout : out.take (n - 1) = l) : Exact n out buf (Format.terminate n o) := by
  obtain ⟨buf', hok, hload, hframe⟩ := h.terminate hl
  exact ⟨buf', hok, by rwa [hout], hframe⟩

/-- The output is cut to the room there is, also if its first part has been cut before. -/
theorem take_append_take {r : List UInt8} {m : ℕ} (hl : l.length ≤ m) :
    (l ++ t.take (m - l.length) ++ r).take m = (l ++ (t ++ r)).take m := by
  rcases Nat.le_total t.length (m - l.length) with h | h
  · rw [List.take_of_length_le h, List.append_assoc]
  · have hlen : (l ++ t.take (m - l.length)).length = m := by
      rw [List.length_append, List.length_take]
      omega
    rw [List.take_left' hlen, List.take_append, List.take_append, List.take_of_length_le hl,
      Nat.sub_eq_zero_of_le h, List.take_zero, List.append_nil]

theorem exact_congr {out out' : List UInt8} (h : out.take (n - 1) = out'.take (n - 1))
    {res : Except Fault Bytes} : Exact n out buf res ↔ Exact n out' buf res := by
  rw [Exact, Exact, h]

/-- A string whose zero takes the last free place. -/
theorem Shows.exact_string {s r : List UInt8} (h : Shows n buf o (l ++ s ++ [0]))
    (hlen : (l ++ s ++ [0]).length = n - 1) :
    Exact n (l ++ (s ++ r)) buf (Format.terminate n o) ↔ r.headD 0 = 0 := by
  have hlen' : (l ++ s).length + 1 = n - 1 := by
    rw [← hlen, List.length_append, List.length_append, List.length_append, List.length_singleton]
  obtain ⟨buf', hok, hload, hframe⟩ := h.terminate (by omega)
  rw [← List.append_assoc]
  cases r with
  | nil =>
    refine iff_of_true ⟨buf', hok, ?_, hframe⟩ rfl
    rw [List.append_nil, List.take_of_length_le (by omega)]
    rw [Bytes.load_add, hlen, ← hlen'] at hload
    exact List.append_inj_left' hload rfl
  | cons c r =>
    have htake : (l ++ s ++ c :: r).take (n - 1) = l ++ s ++ [c] := by
      rw [← hlen', List.take_append, Nat.add_sub_cancel_left,
        List.take_of_length_le (Nat.le_succ _)]
      rfl
    have hexact : Exact n (l ++ s ++ c :: r) buf (Format.terminate n o) ↔
        l ++ s ++ [0] ++ [0] = l ++ s ++ [c] ++ [0] := by
      rw [Exact, htake, ← hload]
      constructor
      · rintro ⟨b, hb, hc, -⟩
        rw [hok] at hb
        rw [← hc, Except.ok.inj hb]
        simp
      · intro hc
        exact ⟨buf', hok, by simpa using hc, hframe⟩
    rw [hexact, List.headD_cons]
    constructor
    · intro heq
      have := List.append_inj_left' heq rfl
      exact (List.cons.inj (List.append_cancel_left this)).1.symm
    · rintro rfl
      rfl

/-- A string that does not take the last free place for its zero. -/
theorem Shows.putString (h : Shows n buf o l) (hl : l.length < n - 1) (s : CString) :
    if l.length + min (s.bytes.length + 1) (n - 1 - l.length) < 2 ^ 31 then
      ∃ o', putString n s o = .ok o' ∧
        if s.bytes.length + 1 = n - 1 - l.length then Shows n buf o' (l ++ s.bytes ++ [0])
        else Shows n buf o' (l ++ s.bytes.take (n - 1 - l.length))
    else ∃ e, Format.putString n s o = .error e := by
  have hputs := h.puts (t := s.bytes ++ [0]) hl.le (by omega)
  rw [← copyString_eq s.nonzero, List.length_append, List.length_singleton] at hputs
  split
  · rename_i hsmall
    rw [if_pos hsmall] at hputs
    obtain ⟨o', hok, hs⟩ := hputs
    have hidx := hs.idx
    rw [List.length_append, List.length_take, List.length_append, List.length_singleton] at hidx
    refine ⟨if o'.idx < n - 1 then { o' with idx := o'.idx - 1 } else o', ?_, ?_⟩
    · rw [Format.putString, hok]
      rfl
    rcases Nat.lt_trichotomy (s.bytes.length + 1) (n - 1 - l.length) with hlt | heq | hgt
    · -- there is room behind the zero, which is taken back
      rw [if_neg hlt.ne, if_pos (by omega), List.take_of_length_le (by omega)]
      rw [List.take_of_length_le (by rw [List.length_append, List.length_singleton]; omega),
        ← List.append_assoc] at hs
      exact hs.back
    · rw [if_pos heq, if_neg (by omega)]
      rwa [List.take_of_length_le (by rw [List.length_append, List.length_singleton]; omega),
        ← List.append_assoc] at hs
    · -- the string does not fit
      rw [if_neg hgt.ne', if_neg (by omega)]
      rwa [List.take_append_of_le_length (by omega)] at hs
  · rename_i hsmall
    rw [if_neg hsmall] at hputs
    obtain ⟨e, he⟩ := hputs
    exact ⟨e, by rw [Format.putString, he]; rfl⟩

/-- One item: the part of its text for which there is room, unless a string has its zero at the last
free place. -/
theorem Shows.emit (h : Shows n buf o l) (hl : l.length < n - 1) (it : Item) :
    if it.Defined ∧ l.length + min (it.text.length + it.zeros) (n - 1 - l.length) < 2 ^ 31 then
      ∃ o', emit n it o = .ok o' ∧
        if it.zeros = 1 ∧ it.text.length + 1 = n - 1 - l.length then
          Shows n buf o' (l ++ it.text ++ [0])
        else Shows n buf o' (l ++ it.text.take (n - 1 - l.length))
    else ∃ e, Format.emit n it o = .error e := by
  by_cases hz : it.zeros = 0
  · have hne : ¬ (it.zeros = 1 ∧ it.text.length + 1 = n - 1 - l.length) := by omega
    by_cases hdef : it.Defined
    · have hputs := h.puts (t := it.text) hl.le (by omega)
      rw [← emit_eq hdef hz (h.idx ▸ hl)] at hputs
      simp only [if_neg hne]
      simpa only [and_iff_right hdef, hz, Nat.add_zero] using hputs
    · rw [if_neg fun hc => hdef hc.1]
      exact emit_not_defined hdef
  · cases it with
    | string s => simpa [Item.Defined, Item.zeros, Item.text, Format.emit] using h.putString hl s
    | literal b => exact absurd rfl hz
    | character v => exact absurd rfl hz
    | hex v => exact absurd rfl hz
    | decimal v => exact absurd rfl hz
    | unknown => exact absurd rfl hz

/-- The items one after the other. -/
theorem emits_iff (h : Shows n buf o l) (hl : l.length ≤ n - 1) (hn : 0 < n) (its : List Item) :
    Exact n (l ++ render its) buf (emits n its o >>= terminate n) ↔ Good (n - 1) its l.length := by
  induction its generalizing o l with
  | nil =>
    refine iff_of_true (h.exact (by omega) ?_) trivial
    rw [render, List.flatMap_nil, List.append_nil, List.take_of_length_le hl]
  | cons it its ih =>
    have hrender : render (it :: its) = it.text ++ render its := List.flatMap_cons
    rw [emits, Good, hrender]
    rcases Nat.lt_or_ge l.length (n - 1) with hlt | hge
    · rw [if_neg (by rw [h.idx]; omega), or_iff_right (by omega), ← and_assoc]
      have hemit := h.emit hlt it
      split at hemit
      · rename_i hgood
        rw [and_iff_right hgood]
        obtain ⟨o', hok, hs⟩ := hemit
        rw [hok]
        split at hs
        · rename_i hlast
          have hlen : (l ++ it.text ++ [0]).length = n - 1 := by
            rw [List.length_append, List.length_append, List.length_singleton]
            omega
          have hstop : emits n its o' = .ok o' := by
            cases its with
            | nil => rfl
            | cons it its => rw [emits, if_pos (by rw [hs.idx]; omega)]
          rw [if_pos hlast, ← hs.exact_string hlen]
          exact iff_of_eq (congrArg _ (congrArg (· >>= terminate n) hstop))
        · rename_i hlast
          have hlen : (l ++ it.text.take (n - 1 - l.length)).length =
              l.length + min it.text.length (n - 1 - l.length) := by
            rw [List.length_append, List.length_take, Nat.min_comm]
          rw [if_neg hlast, ← hlen, ← ih hs (by omega)]
          exact exact_congr (take_append_take hl).symm
      · rename_i hbad
        obtain ⟨e, he⟩ := hemit
        rw [he]
        exact iff_of_false not_exact_error fun hc => hbad hc.1
    · have hfull : l.length = n - 1 := le_antisymm hl hge
      rw [if_pos (by rw [h.idx]; omega)]
      refine iff_of_true (h.exact (by omega) ?_) (.inl hge)
      rw [List.take_left' hfull]

/-- When the text is exact. -/
theorem format_iff (fmt : CString) (args : List Arg) {its : List Item}
    (h : items fmt.bytes args = some its) (hn : 1 ≤ n) (buf : Bytes) :
    Exact n (render its) buf (format n fmt args buf) ↔ Good (n - 1) its 0 := by
  have hs : Shows n buf ⟨buf, 0⟩ [] := ⟨rfl, rfl, fun _ _ => rfl, by decide⟩
  have hiff := emits_iff hs (Nat.zero_le _) hn its
  rw [List.nil_append, List.length_nil] at hiff
  rw [format, if_neg (by omega)]
  split
  · rename_i hone
    subst hone
    have hgood : Good (1 - 1) its 0 := by
      cases its with
      | nil => trivial
      | cons it its => exact .inl le_rfl
    exact iff_of_true (hs.exact Nat.one_pos rfl) hgood
  · rw [loop_eq fmt.nonzero h, hiff]

/-- For every format that does not end in a lone `%`, with arguments that match, both functions
leave the output cut to the size of the buffer exactly if the condition on the items holds. -/
theorem printf_exact_iff (fmt : CString) (args : List Arg) {its : List Item}
    (h : items fmt.bytes args = some its) (hn : 1 ≤ n) (buf : Bytes) :
    Exact n (render its) buf (vsnprintf buf fmt n args) ∧
        Exact n (render its) buf (snprintf buf fmt n args) ↔
      Good (n - 1) its 0 :=
  (and_congr (format_iff fmt args h hn buf) (format_iff fmt args h hn buf)).trans and_self_iff

/-- A string and a character behind it, in a buffer that is large enough. -/
theorem printf_exact_ten : ∃ its,
    items (['%', 's', '!'].map char) [.str ⟨['a', 'b'].map char, by decide⟩] = some its ∧
    render its = ['a', 'b', '!'].map char ∧
    Exact 10 (render its) (fun _ => 0)
      (snprintf (fun _ => 0) ⟨['%', 's', '!'].map char, by decide⟩ 10
        [.str ⟨['a', 'b'].map char, by decide⟩]) :=
  ⟨_, rfl, rfl, ((printf_exact_iff ⟨['%', 's', '!'].map char, by decide⟩ _ rfl (by decide) _).mpr
    (by decide)).2⟩

/-- The same with a buffer of four bytes: the string and its zero take the three places before the
last byte, and the character behind the string is lost. -/
theorem not_exact_four : ∃ its,
    items (['%', 's', '!'].map char) [.str ⟨['a', 'b'].map char, by decide⟩] = some its ∧
    (render its).take 3 = ['a', 'b', '!'].map char ∧
    ¬ Exact 4 (render its) (fun _ => 0)
      (vsnprintf (fun _ => 0) ⟨['%', 's', '!'].map char, by decide⟩ 4
        [.str ⟨['a', 'b'].map char, by decide⟩]) ∧
    ¬ Exact 4 (render its) (fun _ => 0)
      (snprintf (fun _ => 0) ⟨['%', 's', '!'].map char, by decide⟩ 4
        [.str ⟨['a', 'b'].map char, by decide⟩]) := by
  have hbad := (format_iff (n := 4) ⟨['%', 's', '!'].map char, by decide⟩
    [.str ⟨['a', 'b'].map char, by decide⟩] rfl (by decide) fun _ => 0).not.mpr (by decide)
  exact ⟨_, rfl, rfl, hbad, hbad⟩

end Output

end Savannah.Format
