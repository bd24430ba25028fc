import Savannah.Foundation.Radix

/-!
# Building radix trees in a stateful memory

`TableOps` is an interface to the state that holds the tables: reading and writing an entry, and
obtaining a fresh table.  `TableOps.Lawful` states what the tree algorithms rely on, for an
ownership predicate `Owned s N` ("in the state `s` the pages `N` are handed out") and a condition
`E` on the ways in which obtaining a table may stop.

`insert` walks down to a leaf entry, creating the missing tables on the way, and assigns it;
`insert_spec` says that this changes the leaf entry and nothing else, whatever addresses the new
tables get.
-/

namespace Foundation

variable {ε σ : Type}

/-- Access to the tables of a state. -/
structure TableOps (ε σ : Type) where
  read : σ → Tables
  write : ℕ → ℕ → ℕ → σ → σ
  /-- A new table, filled with zeros. -/
  newTable : EStateM ε σ ℕ

/-- The laws of table access. -/
structure TableOps.Lawful (O : TableOps ε σ) (Owned : σ → Multiset ℕ → Prop)
    (E : ε → σ → Prop) : Prop where
  read_write : ∀ t i e s, O.read (O.write t i e s) = (O.read s).set t i e
  owned_write : ∀ t i e s N, Owned s N → t ∈ N → Owned (O.write t i e s) N
  owned_addr : ∀ s N, Owned s N → ∀ a ∈ N, a ≠ 0 ∧ a < 2 ^ 52
  newTable : ∀ s N, Owned s N → wp O.newTable (fun a s' =>
    Owned s' (a ::ₘ N) ∧ a ∉ N ∧ a ≠ 0 ∧ a % 4096 = 0 ∧ (∀ i, O.read s' a i = 0) ∧
      ∀ t, t ≠ a → O.read s' t = O.read s t) E s

namespace TableOps

/-- The table behind the entry `i` of `t`; it is created when the entry is zero. -/
def ensure (O : TableOps ε σ) (fl t i : ℕ) : EStateM ε σ ℕ := do
  if O.read (← get) t i = 0 then
    let a ← O.newTable
    modify (O.write t i (a ||| fl))
  return tableAddr (O.read (← get) t i)

/-- The table at the end of a path; missing tables are created. -/
def ensurePath (O : TableOps ε σ) (fl : ℕ) : ℕ → List ℕ → EStateM ε σ ℕ
  | t, [] => pure t
  | t, i :: is => do
    let u ← O.ensure fl t i
    O.ensurePath fl u is

/-- Assign the leaf entry `i` at the end of a path. -/
def insert (O : TableOps ε σ) (fl r : ℕ) (is : List ℕ) (i e : ℕ) : EStateM ε σ Unit := do
  let t ← O.ensurePath fl r is
  modify (O.write t i e)

section Spec

variable {O : TableOps ε σ} {Owned : σ → Multiset ℕ → Prop} {E : ε → σ → Prop}
  {w fl d r i e : ℕ} {is : List ℕ} {s : σ} {R : Multiset ℕ} {P : ℕ → ℕ → ℕ → Prop}

/-- The flags occupy the low bits of an entry, below the address. -/
theorem lor_flags {a f : ℕ} (ha : a % 4096 = 0) (hf : f < 4096) : a ||| f = a + f := by
  obtain ⟨k, rfl⟩ : ∃ k, a = 2 ^ 12 * k := ⟨a / 4096, by omega⟩
  exact (Nat.two_pow_add_eq_or_of_lt (by omega) k).symm

/-- What `ensure` does at the root of a tree. -/
theorem ensure_spec (hO : O.Lawful Owned E) (hfl : fl < 4096)
    (hnd : (tables w (O.read s) (d + 1) r).Nodup) (hf : Interior w P (O.read s) (d + 1) r)
    (hi : i < w) (hP : ∀ a, a % 4096 = 0 → P d i (a + fl))
    (hown : Owned s (tables w (O.read s) (d + 1) r + R)) :
    wp (O.ensure fl r i) (fun t s' => ∃ N,
      Grown w P (O.read s) (O.read s') (d + 1) r R N ∧
      Owned s' (tables w (O.read s') (d + 1) r + R) ∧
      O.read s' r i ≠ 0 ∧ t = tableAddr (O.read s' r i) ∧
      ∀ js, js.length = d + 1 → ValidPath w js → ∀ j,
        entryAt (O.read s') r js j = entryAt (O.read s) r js j) E s := by
  unfold ensure
  rw [wp_bind, wp_get]
  by_cases hz : O.read s r i = 0
  · rw [if_pos hz]
    refine (hO.newTable s _ hown).bind ?_
    rintro a s₁ ⟨hown₁, hfresh, ha0, hal, hempty, hframe⟩
    rw [Multiset.mem_add, not_or] at hfresh
    have hkeep : ∀ t ∈ tables w (O.read s) (d + 1) r, O.read s₁ t = O.read s t :=
      fun t ht => hframe t fun h => hfresh.1 (h ▸ ht)
    have htab := tables_congr hkeep
    have hr : O.read s₁ r = O.read s r := hkeep r root_mem_tables
    obtain ⟨hgrown, hent⟩ := grown_hang (m := O.read s₁) (R := R) (by rw [htab]; exact hnd)
      (hf.congr hkeep) hi (by rw [hr]; exact hz) (by rw [htab]; exact hfresh.1) hfresh.2 hempty hal
      ha0 hfl (hP a hal)
    simp only [wp_bind, wp_modify, wp_get, wp_pure, hO.read_write, lor_flags hal hfl]
    refine ⟨{a}, ⟨?_, hgrown.nodup, ?_, hgrown.interior, fun u hu => ?_, ?_⟩, ?_, ?_, trivial, ?_⟩
    · rw [hgrown.tables_eq, htab]
    · intro b hb
      obtain rfl := Multiset.mem_singleton.mp hb
      exact hfresh
    · rw [hgrown.frame u hu]
      refine hframe u ?_
      rintro rfl
      exact hu (by rw [hgrown.tables_eq]; simp)
    · rw [← hr]
      exact hgrown.root
    · refine hO.owned_write _ _ _ _ _ ?_ (Multiset.mem_add.mpr (Or.inl root_mem_tables))
      rw [hgrown.tables_eq, htab, add_assoc]
      exact hown₁
    · rw [set_self]
      omega
    · intro js hjs hjv j
      rw [hent js hjs hjv j]
      exact entryAt_congr hkeep hjs.le hjv j
  · simp only [if_neg hz, wp_bind, wp_get, wp_pure]
    exact ⟨0, .refl hnd hf, hown, hz, trivial, fun _ _ _ _ => trivial⟩

/-- `ensurePath` grows the tree until the path exists, and changes no leaf entry. -/
theorem ensurePath_spec (hO : O.Lawful Owned E) (hfl : fl < 4096)
    (hnd : (tables w (O.read s) is.length r).Nodup) (hf : Interior w P (O.read s) is.length r)
    (hv : ValidPath w is) (hP : PathOk P fl is)
    (hown : Owned s (tables w (O.read s) is.length r + R)) :
    wp (O.ensurePath fl r is) (fun t s' => ∃ N,
      Grown w P (O.read s) (O.read s') is.length r R N ∧
      Owned s' (tables w (O.read s') is.length r + R) ∧
      descend (O.read s') r is = some t ∧
      ∀ js, js.length = is.length → ValidPath w js → ∀ j,
        entryAt (O.read s') r js j = entryAt (O.read s) r js j) E s := by
  induction is generalizing r s R with
  | nil => exact ⟨0, .refl hnd hf, hown, rfl, fun _ _ _ _ => rfl⟩
  | cons i is ih =>
    obtain ⟨hi, hv⟩ := validPath_cons.mp hv
    rw [List.length_cons] at *
    unfold ensurePath
    refine (ensure_spec hO hfl hnd hf hi hP.1 hown).bind ?_
    rintro u s₁ ⟨N₁, hgrown₁, hown₁, hz, rfl, hent₁⟩
    -- the subtree behind the entry, and the rest of the tree
    obtain ⟨R', hR'⟩ := Multiset.le_iff_exists_add.mp
      (show tables w (O.read s₁) is.length (tableAddr (O.read s₁ r i)) ≤
          tables w (O.read s₁) (is.length + 1) r by
        refine Multiset.le_iff_subset (nodup_child hgrown₁.nodup hi hz).1 |>.mpr ?_
        exact fun t ht => child_mem_tables hi hz ht)
    have hchild := nodup_child hgrown₁.nodup hi hz
    rw [hR', add_assoc] at hown₁
    refine (ih hchild.1 (hgrown₁.interior i hi hz).2 hv hP.2 hown₁).mono ?_ fun _ _ he => he
    rintro t s₂ ⟨N₂, hgrown₂, hown₂, hdesc, hent₂⟩
    obtain ⟨hedit, hlift⟩ := Grown.lift hgrown₁.nodup hgrown₁.interior hi hz hR' hgrown₂
    have hroot := hedit.keeps_root
    refine ⟨N₂ + N₁, hgrown₁.trans hlift, ?_, ?_, ?_⟩
    · rw [hlift.tables_eq, hR', ← add_assoc, ← hgrown₂.tables_eq, add_assoc]
      exact hown₂
    · rw [descend_cons (by rw [hroot]; exact hz), hroot]
      exact hdesc
    · intro js hjs hjv j
      rw [← hent₁ js hjs hjv j]
      obtain ⟨l, js, rfl⟩ : ∃ l js', js = l :: js' := by
        cases js with
        | nil => simp at hjs
        | cons l js => exact ⟨l, js, rfl⟩
      have hlen : js.length = is.length := by simpa using hjs
      by_cases hli : l = i
      · subst hli
        rw [entryAt_cons hz, entryAt_cons (by rw [hroot]; exact hz), hroot]
        exact hent₂ js hlen (validPath_cons.mp hjv).2 j
      · exact hedit.entryAt_sibling hlen.le hjv hli j

/-- `insert` changes one leaf entry. -/
theorem insert_spec (hO : O.Lawful Owned E) (hfl : fl < 4096)
    (hnd : (tables w (O.read s) is.length r).Nodup) (hf : Interior w P (O.read s) is.length r)
    (hv : ValidPath w is) (hP : PathOk P fl is)
    (hown : Owned s (tables w (O.read s) is.length r + R)) :
    wp (O.insert fl r is i e) (fun _ s' => ∃ N,
      Grown w P (O.read s) (O.read s') is.length r R N ∧
      Owned s' (tables w (O.read s') is.length r + R) ∧
      ∀ js, js.length = is.length → ValidPath w js → ∀ j,
        entryAt (O.read s') r js j =
          if js = is ∧ j = i then e else entryAt (O.read s) r js j) E s := by
  unfold insert
  refine (ensurePath_spec hO hfl hnd hf hv hP hown).bind ?_
  rintro t s₁ ⟨N, hgrown, hown₁, hdesc, hent⟩
  obtain ⟨htab, hflag, hset⟩ := set_leaf (i := i) (e := e) (P := P) hgrown.nodup hv hdesc
  have ht : t ∈ tables w (O.read s₁) is.length r := descend_mem hdesc le_rfl hv
  rw [wp_modify, hO.read_write]
  refine ⟨N, ⟨?_, ?_, hgrown.fresh, hflag hgrown.interior, fun u hu => ?_, fun hd j hj => ?_⟩,
    ?_, ?_⟩
  · rw [htab, hgrown.tables_eq]
  · rw [htab]
    exact hgrown.nodup
  · rw [htab] at hu
    have hut : u ≠ t := fun h => hu (h ▸ ht)
    rw [set_other _ _ hut, hgrown.frame u hu]
  · rw [set_other _ _ (descend_ne_root hgrown.nodup hv hd hdesc)]
    exact hgrown.root hd j hj
  · rw [htab]
    exact hO.owned_write _ _ _ _ _ hown₁ (Multiset.mem_add.mpr (Or.inl ht))
  · intro js hjs hjv j
    rw [hset js hjs hjv j, hent js hjs hjv j]

/-- After an insertion the root has an entry for the first index of the path. -/
theorem insert_root {k : ℕ} (hO : O.Lawful Owned E) (hfl : fl < 4096)
    (hnd : (tables w (O.read s) (is.length + 1) r).Nodup)
    (hf : Interior w P (O.read s) (is.length + 1) r)
    (hv : ValidPath w (k :: is)) (hP : PathOk P fl (k :: is))
    (hown : Owned s (tables w (O.read s) (is.length + 1) r + R)) :
    wp (O.insert fl r (k :: is) i e) (fun _ s' => O.read s' r k ≠ 0) E s := by
  unfold insert
  refine (ensurePath_spec hO hfl hnd hf hv hP hown).bind ?_
  rintro t s₁ ⟨N, hgrown, -, hdesc, -⟩
  -- the table that is written lies below the root
  have hne := descend_ne_root hgrown.nodup hv (Nat.succ_pos is.length) hdesc
  rw [wp_modify, hO.read_write, set_other _ _ hne]
  intro hz
  rw [descend_cons_zero hz] at hdesc
  cases hdesc

end Spec

/-! ### More about the tables -/

/-- Facts about the tables that are handed out can be added to the ownership predicate. -/
theorem Lawful.and {O : TableOps ε σ} {Owned K : σ → Multiset ℕ → Prop} {E : ε → σ → Prop}
    (hO : O.Lawful Owned E) (hwrite : ∀ t i e s N, K s N → K (O.write t i e s) N)
    (hnew : ∀ s N, Owned s N → K s N → wp O.newTable (fun a s' => K s' (a ::ₘ N)) E s) :
    O.Lawful (fun s N => Owned s N ∧ K s N) E where
  read_write := hO.read_write
  owned_write t i e s N h ht := ⟨hO.owned_write t i e s N h.1 ht, hwrite t i e s N h.2⟩
  owned_addr s N h := hO.owned_addr s N h.1
  newTable s N h := by
    refine ((hO.newTable s N h.1).and (hnew s N h.1 h.2)).mono ?_ fun _ _ h => h.1
    rintro a s' ⟨⟨hown, hrest⟩, hK⟩
    exact ⟨⟨hown, hK⟩, hrest⟩

/-- The access to the tables moves the state along `R` only. -/
structure StaysWithin (O : TableOps ε σ) (R : σ → σ → Prop) : Prop where
  newTable : Within R O.newTable
  write : ∀ t i e s, R s (O.write t i e s)

/-- `ensure` stays within the relation. -/
theorem StaysWithin.ensure {O : TableOps ε σ} {R : σ → σ → Prop} [Std.Refl R] [IsTrans σ R]
    (hO : O.StaysWithin R) (fl t i : ℕ) : Within R (O.ensure fl t i) := by
  unfold TableOps.ensure
  have hread : Within R (do return tableAddr (O.read (← get) t i) : EStateM ε σ ℕ) :=
    Within.get.bind fun _ => Within.pure _
  refine Within.get.bind fun s => Within.ite ?_ hread
  exact hO.newTable.bind fun a => (Within.modify (hO.write _ _ _)).bind fun _ => hread

/-- `P n s` is a reserve: in the state `s` at least `n` tables can be obtained. -/
structure Funded (O : TableOps ε σ) (P : ℕ → σ → Prop) (E : ε → σ → Prop) : Prop where
  write : ∀ n t i e s, P n s → P n (O.write t i e s)
  newTable : ∀ n s, P (n + 1) s → wp O.newTable (fun _ s' => P n s') E s
  less : ∀ n s, P (n + 1) s → P n s

namespace Funded

variable {O : TableOps ε σ} {P : ℕ → σ → Prop} {E : ε → σ → Prop} {s : σ} {n : ℕ}

theorem of_le (hO : O.Funded P E) {k : ℕ} (h : P k s) (hle : n ≤ k) : P n s := by
  induction k with
  | zero => rwa [Nat.le_zero.mp hle]
  | succ k ih =>
    rcases Nat.le_succ_iff.mp hle with hlt | rfl
    · exact ih (hO.less k s h) hlt
    · exact h

/-- `ensure` takes at most one table. -/
theorem ensure (hO : O.Funded P E) (fl t i : ℕ) (h : P (n + 1) s) :
    wp (O.ensure fl t i) (fun _ s' => P n s') E s := by
  unfold TableOps.ensure
  rw [wp_bind, wp_get]
  refine wp_ite.mpr ⟨fun _ => ?_, fun _ => ?_⟩
  · refine (hO.newTable n s h).bind fun a s₁ h₁ => ?_
    exact hO.write n _ _ _ s₁ h₁
  · exact hO.less n s h

/-- Going down a path takes at most one table for each step. -/
theorem ensurePath (hO : O.Funded P E) (fl t : ℕ) (is : List ℕ) (h : P (n + is.length) s) :
    wp (O.ensurePath fl t is) (fun _ s' => P n s') E s := by
  induction is generalizing t s with
  | nil => exact h
  | cons i is ih => exact (hO.ensure fl t i h).bind fun u s₁ h₁ => ih u h₁

/-- `insert` takes at most one table a level. -/
theorem insert (hO : O.Funded P E) (fl r : ℕ) (is : List ℕ) (i e : ℕ) (h : P (n + is.length) s) :
    wp (O.insert fl r is i e) (fun _ s' => P n s') E s :=
  (hO.ensurePath fl r is h).bind fun t s₁ h₁ => hO.write n t i e s₁ h₁

/-- Going down a path takes the tables that it lacks. -/
theorem ensurePath_missing (hO : O.Funded P E) (fl t : ℕ) (is : List ℕ)
    (h : P (n + missing (O.read s) t is) s) :
    wp (O.ensurePath fl t is) (fun _ s' => P n s') E s := by
  induction is generalizing t with
  | nil => exact h
  | cons i is ih =>
    rw [missing] at h
    by_cases hz : O.read s t i = 0
    · rw [if_pos hz] at h
      exact hO.ensurePath fl t (i :: is) h
    · rw [if_neg hz] at h
      have hstep : O.ensure fl t i s = .ok (tableAddr (O.read s t i)) s := by
        change (if O.read s t i = 0 then _ else _ : EStateM ε σ ℕ) s = _
        rw [if_neg hz]
        rfl
      change wp (O.ensure fl t i >>= fun u => O.ensurePath fl u is) _ E s
      rw [wp_bind]
      unfold wp
      rw [hstep]
      exact ih _ h

/-- `insert` takes the tables that are missing. -/
theorem insert_missing (hO : O.Funded P E) (fl r : ℕ) (is : List ℕ) (i e : ℕ)
    (h : P (n + missing (O.read s) r is) s) :
    wp (O.insert fl r is i e) (fun _ s' => P n s') E s :=
  (hO.ensurePath_missing fl r is h).bind fun t s₁ h₁ => hO.write n t i e s₁ h₁

end Funded

end TableOps

end Foundation
