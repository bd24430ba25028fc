import Savannah.Foundation.Hoare

/-!
# Radix trees of table pages

A table is a page of `w` entries, `m t i` is the entry `i` of the table at address `t`.  A non-zero
entry of an interior table is the address of a table of the next level with flags in its low 12
bits.  `descend m r is` follows the indices `is` from the root `r`, and `entryAt m r is i` is the
entry `i` of the table reached (`0` when there is none).

`tables w m d r` is the multiset of the tables of a tree with `d` interior levels.  A tree whose
`tables` are distinct does not share or alias tables; then writing a leaf entry changes one
`entryAt`, and hanging an empty table into a tree changes none.

`capacity` is the number of tables of a full tree; a tree has room for the tables that a path lacks
(`card_add_missing_le`).
-/

namespace Foundation

/-- The contents of the table pages: address, index, entry. -/
abbrev Tables := ℕ → ℕ → ℕ

/-- The table that an interior entry points to: the entry without its low 12 bits. -/
def tableAddr (e : ℕ) : ℕ := e / 4096 * 4096

/-- Assigning one entry. -/
def Tables.set (m : Tables) (t i e : ℕ) : Tables := fun u j => if u = t ∧ j = i then e else m u j

/-- The table that the indices lead to. -/
def descend (m : Tables) : ℕ → List ℕ → Option ℕ
  | t, [] => some t
  | t, i :: is => if m t i = 0 then none else descend m (tableAddr (m t i)) is

/-- The entry `i` of the table that the indices lead to, `0` if they lead nowhere. -/
def entryAt (m : Tables) (r : ℕ) (is : List ℕ) (i : ℕ) : ℕ :=
  (descend m r is).elim 0 fun t => m t i

/-- The tables of the tree with root `r` and `d` interior levels. -/
def tables (w : ℕ) (m : Tables) : ℕ → ℕ → Multiset ℕ
  | 0, r => {r}
  | d + 1, r => r ::ₘ ∑ i ∈ Finset.range w,
      if m r i = 0 then 0 else tables w m d (tableAddr (m r i))

/-- A tree without interior levels. -/
theorem tables_zero (w : ℕ) (m : Tables) (r : ℕ) : tables w m 0 r = {r} := rfl

/-- The root and the tables below it. -/
theorem tables_succ (w : ℕ) (m : Tables) (d r : ℕ) :
    tables w m (d + 1) r = r ::ₘ ∑ i ∈ Finset.range w,
      if m r i = 0 then 0 else tables w m d (tableAddr (m r i)) := rfl

attribute [irreducible] tables

/-- All non-zero interior entries satisfy `P`, which is told the number of interior levels below the
entry, its index and its value. -/
def Interior (w : ℕ) (P : ℕ → ℕ → ℕ → Prop) (m : Tables) : ℕ → ℕ → Prop
  | 0, _ => True
  | d + 1, r => ∀ i < w, m r i ≠ 0 → P d i (m r i) ∧ Interior w P m d (tableAddr (m r i))

/-- The entries that are made on the way down a path, an aligned address with the flags `fl`,
satisfy `P`. -/
def PathOk (P : ℕ → ℕ → ℕ → Prop) (fl : ℕ) : List ℕ → Prop
  | [] => True
  | i :: is => (∀ a, a % 4096 = 0 → P is.length i (a + fl)) ∧ PathOk P fl is

/-- The indices are indices of a table. -/
def ValidPath (w : ℕ) (is : List ℕ) : Prop := ∀ i ∈ is, i < w

section Basic

variable {m m' : Tables} {w d r t i e : ℕ} {is js : List ℕ} {P : ℕ → ℕ → ℕ → Prop}

/-- Flags do not matter for the address. -/
theorem tableAddr_of_aligned {a f : ℕ} (ha : a % 4096 = 0) (hf : f < 4096) :
    tableAddr (a + f) = a := by
  unfold tableAddr
  omega

@[simp] theorem descend_nil : descend m r [] = some r := rfl

/-- There is no way through a zero entry. -/
theorem descend_cons_zero (h : m r i = 0) : descend m r (i :: is) = none := by
  rw [descend, if_pos h]

/-- One step down. -/
theorem descend_cons (h : m r i ≠ 0) :
    descend m r (i :: is) = descend m (tableAddr (m r i)) is := by
  rw [descend, if_neg h]

@[simp] theorem entryAt_nil : entryAt m r [] i = m r i := rfl

theorem entryAt_cons_zero (h : m r i = 0) (j : ℕ) : entryAt m r (i :: is) j = 0 := by
  rw [entryAt, descend_cons_zero h]
  rfl

/-- One step down. -/
theorem entryAt_cons (h : m r i ≠ 0) (j : ℕ) :
    entryAt m r (i :: is) j = entryAt m (tableAddr (m r i)) is j := by
  rw [entryAt, entryAt, descend_cons h]

theorem validPath_cons : ValidPath w (i :: is) ↔ i < w ∧ ValidPath w is := by
  simp [ValidPath]

/-- The root is a table of the tree. -/
theorem root_mem_tables : r ∈ tables w m d r := by
  cases d with
  | zero => simp [tables_zero]
  | succ d => simp [tables_succ]

/-- The root, or a table of a subtree. -/
theorem mem_tables_succ :
    t ∈ tables w m (d + 1) r ↔
      t = r ∨ ∃ i < w, m r i ≠ 0 ∧ t ∈ tables w m d (tableAddr (m r i)) := by
  simp only [tables_succ, Multiset.mem_cons, Multiset.mem_sum, Finset.mem_range]
  refine or_congr_right (exists_congr fun i => and_congr_right fun _ => ?_)
  by_cases h : m r i = 0 <;> simp [h]

/-- Tables of a subtree are tables of the tree. -/
theorem child_mem_tables (hi : i < w) (h : m r i ≠ 0) (ht : t ∈ tables w m d (tableAddr (m r i))) :
    t ∈ tables w m (d + 1) r :=
  mem_tables_succ.mpr (Or.inr ⟨i, hi, h, ht⟩)

/-- The tables only depend on their own contents. -/
theorem tables_congr (h : ∀ t ∈ tables w m d r, m' t = m t) : tables w m' d r = tables w m d r := by
  induction d generalizing r with
  | zero => rw [tables_zero, tables_zero]
  | succ d ih =>
    have hr : m' r = m r := h r root_mem_tables
    rw [tables_succ, tables_succ, hr]
    congr 1
    refine Finset.sum_congr rfl fun i hi => ?_
    by_cases hz : m r i = 0
    · rw [if_pos hz, if_pos hz]
    · rw [if_neg hz, if_neg hz]
      exact ih fun t ht => h t (child_mem_tables (Finset.mem_range.mp hi) hz ht)

/-- A descent reads tables of the tree only. -/
theorem descend_congr (h : ∀ t ∈ tables w m d r, m' t = m t) (hlen : is.length ≤ d)
    (hv : ValidPath w is) : descend m' r is = descend m r is := by
  induction is generalizing r d with
  | nil => rfl
  | cons i is ih =>
    obtain ⟨d, rfl⟩ : ∃ e, d = e + 1 := ⟨d - 1, by simp only [List.length_cons] at hlen; omega⟩
    obtain ⟨hi, hv⟩ := validPath_cons.mp hv
    have hr : m' r = m r := h r root_mem_tables
    by_cases hz : m r i = 0
    · rw [descend_cons_zero hz, descend_cons_zero (by rw [hr]; exact hz)]
    · rw [descend_cons hz, descend_cons (by rw [hr]; exact hz), hr]
      refine ih (d := d) (fun t ht => h t (child_mem_tables hi hz ht)) ?_ hv
      simpa using hlen

/-- A descent ends in a table of the tree. -/
theorem descend_mem (h : descend m r is = some t) (hlen : is.length ≤ d) (hv : ValidPath w is) :
    t ∈ tables w m d r := by
  induction is generalizing r d with
  | nil =>
    obtain rfl : r = t := by simpa using h
    exact root_mem_tables
  | cons i is ih =>
    obtain ⟨d, rfl⟩ : ∃ e, d = e + 1 := ⟨d - 1, by simp only [List.length_cons] at hlen; omega⟩
    obtain ⟨hi, hv⟩ := validPath_cons.mp hv
    by_cases hz : m r i = 0
    · rw [descend_cons_zero hz] at h
      cases h
    · rw [descend_cons hz] at h
      exact child_mem_tables hi hz (ih h (by simpa using hlen) hv)

/-- `entryAt` reads tables of the tree only. -/
theorem entryAt_congr (h : ∀ t ∈ tables w m d r, m' t = m t) (hlen : is.length ≤ d)
    (hv : ValidPath w is) (j : ℕ) : entryAt m' r is j = entryAt m r is j := by
  unfold entryAt
  rw [descend_congr h hlen hv]
  cases ht : descend m r is with
  | none => rfl
  | some t => simp only [Option.elim, h t (descend_mem ht hlen hv)]

/-- `Interior` reads tables of the tree only. -/
theorem Interior.congr (hf : Interior w P m d r) (h : ∀ t ∈ tables w m d r, m' t = m t) :
    Interior w P m' d r := by
  induction d generalizing r with
  | zero => trivial
  | succ d ih =>
    have hr : m' r = m r := h r root_mem_tables
    intro i hi hz
    rw [hr] at hz ⊢
    obtain ⟨h₁, h₂⟩ := hf i hi hz
    exact ⟨h₁, ih h₂ fun t ht => h t (child_mem_tables hi hz ht)⟩

/-- A weaker condition on the entries. -/
theorem Interior.mono {Q : ℕ → ℕ → ℕ → Prop} (hf : Interior w P m d r)
    (h : ∀ k i e, P k i e → Q k i e) : Interior w Q m d r := by
  induction d generalizing r with
  | zero => trivial
  | succ d ih =>
    intro i hi hz
    obtain ⟨h₁, h₂⟩ := hf i hi hz
    exact ⟨h _ _ _ h₁, ih h₂⟩

end Basic

/-! ### Edits inside one subtree -/

section Edit

variable {m m' : Tables} {w d r t u i j e : ℕ} {is js : List ℕ} {N : Multiset ℕ}
  {P : ℕ → ℕ → ℕ → Prop}

/-- The subtrees of a tree without shared tables. -/
theorem nodup_child (h : (tables w m (d + 1) r).Nodup) (hi : i < w) (hz : m r i ≠ 0) :
    (tables w m d (tableAddr (m r i))).Nodup ∧ r ∉ tables w m d (tableAddr (m r i)) := by
  rw [tables_succ, Multiset.nodup_cons] at h
  have hle := Finset.single_le_sum
    (f := fun i => if m r i = 0 then 0 else tables w m d (tableAddr (m r i)))
    (fun _ _ => Multiset.zero_le _) (Finset.mem_range.mpr hi)
  rw [if_neg hz] at hle
  exact ⟨Multiset.nodup_of_le hle h.2, fun hr => h.1 (Multiset.mem_of_le hle hr)⟩

/-- A path that is not empty leads away from the root. -/
theorem descend_ne_root (hnd : (tables w m is.length r).Nodup) (hv : ValidPath w is)
    (hlen : 0 < is.length) (h : descend m r is = some t) : r ≠ t := by
  cases is with
  | nil => exact absurd hlen (Nat.lt_irrefl 0)
  | cons i is =>
    obtain ⟨hi, hv⟩ := validPath_cons.mp hv
    have hz : m r i ≠ 0 := fun hz => by
      rw [descend_cons_zero hz] at h
      cases h
    rw [descend_cons hz] at h
    rintro rfl
    exact (nodup_child hnd hi hz).2 (descend_mem h le_rfl hv)

/-- Two subtrees have no table in common. -/
theorem disjoint_children (h : (tables w m (d + 1) r).Nodup) (hi : i < w) (hj : j < w)
    (hij : i ≠ j) (hzi : m r i ≠ 0) (hzj : m r j ≠ 0) (hu : u ∈ tables w m d (tableAddr (m r i))) :
    u ∉ tables w m d (tableAddr (m r j)) := by
  rw [tables_succ, Multiset.nodup_cons] at h
  have hle := Finset.add_le_sum
    (f := fun i => if m r i = 0 then 0 else tables w m d (tableAddr (m r i)))
    (fun _ _ => Multiset.zero_le _) (Finset.mem_range.mpr hi) (Finset.mem_range.mpr hj) hij
  rw [if_neg hzi, if_neg hzj] at hle
  exact Multiset.disjoint_left.mp (Multiset.nodup_add.mp (Multiset.nodup_of_le hle h.2)).2.2 hu

/-- The memory `m'` arises from `m` by work inside the subtree of the entry `i` of `r`: it only
changes tables of that subtree, which may have grown by fresh tables. -/
structure SubtreeEdit (w : ℕ) (m m' : Tables) (d r i : ℕ) : Prop where
  nodup : (tables w m (d + 1) r).Nodup
  idx : i < w
  entry : m r i ≠ 0
  frame : ∀ u ∉ tables w m' d (tableAddr (m r i)), m' u = m u
  fresh : ∀ u ∈ tables w m' d (tableAddr (m r i)),
    u ∉ tables w m d (tableAddr (m r i)) → u ∉ tables w m (d + 1) r

namespace SubtreeEdit

variable (h : SubtreeEdit w m m' d r i)

include h

/-- The root is unchanged. -/
theorem keeps_root : m' r = m r := by
  refine h.frame r fun hr => ?_
  by_cases hold : r ∈ tables w m d (tableAddr (m r i))
  · exact (nodup_child h.nodup h.idx h.entry).2 hold
  · exact h.fresh r hr hold root_mem_tables

/-- The other subtrees are unchanged. -/
theorem keeps_sibling (hj : j < w) (hij : j ≠ i) (hz : m r j ≠ 0)
    (hu : u ∈ tables w m d (tableAddr (m r j))) : m' u = m u := by
  refine h.frame u fun hmem => ?_
  by_cases hold : u ∈ tables w m d (tableAddr (m r i))
  · exact disjoint_children h.nodup h.idx hj hij.symm h.entry hz hold hu
  · exact h.fresh u hmem hold (child_mem_tables hj hz hu)

/-- The tables of the whole tree grow by what the subtree grows by. -/
theorem tables_eq (hN : tables w m' d (tableAddr (m r i)) = N + tables w m d (tableAddr (m r i))) :
    tables w m' (d + 1) r = N + tables w m (d + 1) r := by
  have hi := Finset.mem_range.mpr h.idx
  rw [tables_succ, tables_succ, h.keeps_root, ← Finset.add_sum_erase _ _ hi,
    ← Finset.add_sum_erase _ _ hi, if_neg h.entry, if_neg h.entry, hN]
  have hrest : ∑ j ∈ (Finset.range w).erase i,
        (if m r j = 0 then 0 else tables w m' d (tableAddr (m r j))) =
      ∑ j ∈ (Finset.range w).erase i,
        (if m r j = 0 then 0 else tables w m d (tableAddr (m r j))) := by
    refine Finset.sum_congr rfl fun j hj => ?_
    obtain ⟨hji, hj⟩ := Finset.mem_erase.mp hj
    by_cases hz : m r j = 0
    · rw [if_pos hz, if_pos hz]
    · rw [if_neg hz, if_neg hz]
      exact tables_congr fun u hu => h.keeps_sibling (Finset.mem_range.mp hj) hji hz hu
  rw [hrest, add_assoc, ← Multiset.add_cons]

/-- Outside the subtree no entry changes. -/
theorem entryAt_sibling (hlen : js.length ≤ d) (hv : ValidPath w (j :: js)) (hij : j ≠ i) (k : ℕ) :
    entryAt m' r (j :: js) k = entryAt m r (j :: js) k := by
  obtain ⟨hj, hv⟩ := validPath_cons.mp hv
  by_cases hz : m r j = 0
  · rw [entryAt_cons_zero hz, entryAt_cons_zero (by rw [h.keeps_root]; exact hz)]
  · rw [entryAt_cons hz, entryAt_cons (by rw [h.keeps_root]; exact hz), h.keeps_root]
    exact entryAt_congr (fun u hu => h.keeps_sibling hj hij hz hu) hlen hv k

theorem interior (hf : Interior w P m (d + 1) r)
    (hsub : Interior w P m' d (tableAddr (m r i))) : Interior w P m' (d + 1) r := by
  intro j hj hz
  rw [h.keeps_root] at hz ⊢
  obtain ⟨h₁, h₂⟩ := hf j hj hz
  refine ⟨h₁, ?_⟩
  by_cases hij : j = i
  · subst hij
    exact hsub
  · exact h₂.congr fun u hu => h.keeps_sibling hj hij hz hu

end SubtreeEdit

/-! ### Assigning a leaf entry -/

/-- The other tables stay. -/
theorem set_other (m : Tables) (e : ℕ) (h : u ≠ t) : m.set t i e u = m u := by
  funext j
  simp [Tables.set, h]

@[simp] theorem set_self (m : Tables) (t i e : ℕ) : m.set t i e t i = e := by
  simp [Tables.set]

/-- The other entries stay. -/
theorem set_index (m : Tables) (t e : ℕ) (h : j ≠ i) : m.set t i e t j = m t j := by
  simp [Tables.set, h]

/-- Assigning an entry of a table of the last level keeps the tree and changes the one entry that
its path leads to. -/
theorem set_leaf (hnd : (tables w m is.length r).Nodup) (hv : ValidPath w is)
    (ht : descend m r is = some t) :
    tables w (m.set t i e) is.length r = tables w m is.length r ∧
      (Interior w P m is.length r → Interior w P (m.set t i e) is.length r) ∧
      ∀ js, js.length = is.length → ValidPath w js → ∀ j,
        entryAt (m.set t i e) r js j = if js = is ∧ j = i then e else entryAt m r js j := by
  induction is generalizing r with
  | nil =>
    obtain rfl : r = t := by simpa using ht
    refine ⟨by rw [List.length_nil, tables_zero, tables_zero], fun _ => trivial, ?_⟩
    intro js hjs _ j
    obtain rfl := List.length_eq_zero_iff.mp hjs
    simp [Tables.set]
  | cons k is ih =>
    obtain ⟨hk, hv⟩ := validPath_cons.mp hv
    have hz : m r k ≠ 0 := by
      intro hz
      rw [descend_cons_zero hz] at ht
      cases ht
    rw [descend_cons hz] at ht
    rw [List.length_cons] at hnd ⊢
    obtain ⟨htab, hflag, hent⟩ := ih (nodup_child hnd hk hz).1 hv ht
    have hmem : t ∈ tables w m is.length (tableAddr (m r k)) := descend_mem ht le_rfl hv
    have hedit : SubtreeEdit w m (m.set t i e) is.length r k := by
      refine ⟨hnd, hk, hz, fun u hu => set_other m e ?_, fun u hu hold => ?_⟩
      · rintro rfl
        exact hu (htab ▸ hmem)
      · exact absurd (htab ▸ hu) hold
    refine ⟨?_, fun hf => hedit.interior hf (hflag (hf k hk hz).2), ?_⟩
    · simpa using hedit.tables_eq (N := 0) (by simpa using htab)
    · intro js hjs hjv j
      obtain ⟨l, js, rfl⟩ : ∃ l js', js = l :: js' := by
        cases js with
        | nil => simp at hjs
        | cons l js => exact ⟨l, js, rfl⟩
      have hjlen : js.length = is.length := by simpa using hjs
      by_cases hlk : l = k
      · subst hlk
        have hroot := hedit.keeps_root
        rw [entryAt_cons hz, entryAt_cons (by rw [hroot]; exact hz), hroot,
          hent js hjlen (validPath_cons.mp hjv).2 j]
        simp
      · rw [hedit.entryAt_sibling hjlen.le hjv hlk, if_neg]
        simp [hlk]

end Edit

/-! ### Growing a tree -/

/-- The tree `r` of `m'` is that of `m` with the fresh tables `N` added; everything outside it, in
particular the pages `R`, is untouched. -/
structure Grown (w : ℕ) (P : ℕ → ℕ → ℕ → Prop) (m m' : Tables) (d r : ℕ) (R N : Multiset ℕ) :
    Prop where
  tables_eq : tables w m' d r = N + tables w m d r
  nodup : (tables w m' d r).Nodup
  fresh : ∀ a ∈ N, a ∉ tables w m d r ∧ a ∉ R
  interior : Interior w P m' d r
  frame : ∀ u ∉ tables w m' d r, m' u = m u
  root : 0 < d → ∀ j, m r j ≠ 0 → m' r j = m r j

section Grow

variable {m m' m'' : Tables} {w d r t a i j e fl : ℕ} {is js : List ℕ} {R N N' : Multiset ℕ}
  {P : ℕ → ℕ → ℕ → Prop}

/-- A tree grows by no table. -/
theorem Grown.refl (hnd : (tables w m d r).Nodup) (hf : Interior w P m d r) :
    Grown w P m m d r R 0 :=
  ⟨(zero_add _).symm, hnd, by simp, hf, fun _ _ => rfl, fun _ _ _ => rfl⟩

/-- Growing twice. -/
theorem Grown.trans (h : Grown w P m m' d r R N) (h' : Grown w P m' m'' d r R N') :
    Grown w P m m'' d r R (N' + N) := by
  refine ⟨?_, h'.nodup, ?_, h'.interior, fun u hu => ?_, fun hd j hj => ?_⟩
  · rw [h'.tables_eq, h.tables_eq, add_assoc]
  · intro a ha
    rcases Multiset.mem_add.mp ha with ha | ha
    · refine ⟨fun hm => (h'.fresh a ha).1 ?_, (h'.fresh a ha).2⟩
      rw [h.tables_eq]
      exact Multiset.mem_add.mpr (Or.inr hm)
    · exact h.fresh a ha
  · rw [h'.frame u hu, h.frame u]
    refine fun hm => hu ?_
    rw [h'.tables_eq]
    exact Multiset.mem_add.mpr (Or.inr hm)
  · have hkeep := h.root hd j hj
    rw [h'.root hd j (by rwa [hkeep]), hkeep]

/-- Growth of a subtree is growth of the tree. -/
theorem Grown.lift (hnd : (tables w m (d + 1) r).Nodup) (hf : Interior w P m (d + 1) r)
    (hi : i < w) (hz : m r i ≠ 0) {R' : Multiset ℕ}
    (hrest : tables w m (d + 1) r = tables w m d (tableAddr (m r i)) + R')
    (h : Grown w P m m' d (tableAddr (m r i)) (R' + R) N) :
    SubtreeEdit w m m' d r i ∧ Grown w P m m' (d + 1) r R N := by
  have hfresh : ∀ a ∈ N, a ∉ tables w m (d + 1) r ∧ a ∉ R := by
    intro a ha
    obtain ⟨h₁, h₂⟩ := h.fresh a ha
    rw [Multiset.mem_add, not_or] at h₂
    rw [hrest, Multiset.mem_add, not_or]
    exact ⟨⟨h₁, h₂.1⟩, h₂.2⟩
  have hedit : SubtreeEdit w m m' d r i := by
    refine ⟨hnd, hi, hz, h.frame, fun u hu hold => ?_⟩
    rw [h.tables_eq, Multiset.mem_add] at hu
    exact (hfresh u (hu.resolve_right hold)).1
  have htab := hedit.tables_eq h.tables_eq
  have hN : N.Nodup := by
    have hn := h.nodup
    rw [h.tables_eq, Multiset.nodup_add] at hn
    exact hn.1
  refine ⟨hedit, htab, ?_, hfresh, hedit.interior hf h.interior, fun u hu => h.frame u ?_,
    fun _ j _ => congrFun hedit.keeps_root j⟩
  · rw [htab, Multiset.nodup_add]
    exact ⟨hN, hnd, Multiset.disjoint_left.mpr fun ha => (hfresh _ ha).1⟩
  · have hroot := hedit.keeps_root
    refine fun hm => hu (child_mem_tables hi (by rw [hroot]; exact hz) ?_)
    rwa [hroot]

/-- A table without entries is a tree of its own. -/
theorem tables_empty (h : ∀ j, m a j = 0) : tables w m d a = {a} := by
  cases d with
  | zero => exact tables_zero w m a
  | succ d =>
    rw [tables_succ, Finset.sum_eq_zero fun j _ => if_pos (h j)]
    rfl

/-- An empty table leads nowhere. -/
theorem entryAt_empty (h : ∀ j, m a j = 0) (js : List ℕ) : entryAt m a js j = 0 := by
  cases js with
  | nil => exact h j
  | cons k js => exact entryAt_cons_zero (h k) j

/-- Hanging an empty table `a` into a free entry of the root. -/
theorem grown_hang (hnd : (tables w m (d + 1) r).Nodup) (hf : Interior w P m (d + 1) r)
    (hi : i < w) (hz : m r i = 0) (ha : a ∉ tables w m (d + 1) r) (haR : a ∉ R)
    (hempty : ∀ j, m a j = 0) (hal : a % 4096 = 0) (ha0 : a ≠ 0) (hfl : fl < 4096)
    (hP : P d i (a + fl)) :
    Grown w P m (m.set r i (a + fl)) (d + 1) r R {a} ∧
      ∀ js, js.length = d + 1 → ValidPath w js → ∀ j,
        entryAt (m.set r i (a + fl)) r js j = entryAt m r js j := by
  have hra : a ≠ r := fun h => ha (h ▸ root_mem_tables)
  have haddr := tableAddr_of_aligned hal hfl
  have hne : a + fl ≠ 0 := by omega
  have hma : ∀ j, m.set r i (a + fl) a j = 0 := fun j => by rw [set_other m _ hra, hempty]
  -- the other subtrees do not contain the root
  have hsib : ∀ j < w, m r j ≠ 0 → ∀ u ∈ tables w m d (tableAddr (m r j)),
      m.set r i (a + fl) u = m u := by
    intro j hj hzj u hu
    refine set_other m _ ?_
    rintro rfl
    exact (nodup_child hnd hj hzj).2 hu
  have htab : tables w (m.set r i (a + fl)) (d + 1) r = {a} + tables w m (d + 1) r := by
    have himem := Finset.mem_range.mpr hi
    rw [tables_succ, tables_succ, ← Finset.add_sum_erase _ _ himem,
      ← Finset.add_sum_erase _ _ himem, set_self, if_neg hne, if_pos hz, haddr,
      tables_empty hma, zero_add]
    have hrest : ∑ j ∈ (Finset.range w).erase i, (if m.set r i (a + fl) r j = 0 then 0 else
          tables w (m.set r i (a + fl)) d (tableAddr (m.set r i (a + fl) r j))) =
        ∑ j ∈ (Finset.range w).erase i,
          (if m r j = 0 then 0 else tables w m d (tableAddr (m r j))) := by
      refine Finset.sum_congr rfl fun j hj => ?_
      obtain ⟨hji, hj⟩ := Finset.mem_erase.mp hj
      rw [set_index m r _ hji]
      by_cases hzj : m r j = 0
      · rw [if_pos hzj, if_pos hzj]
      · rw [if_neg hzj, if_neg hzj]
        exact tables_congr (hsib j (Finset.mem_range.mp hj) hzj)
    rw [hrest, ← Multiset.add_cons]
  refine ⟨⟨htab, ?_, ?_, ?_, fun u hu => set_other m _ ?_, fun _ j hj => ?_⟩, ?_⟩
  · rw [htab, Multiset.nodup_add]
    exact ⟨Multiset.nodup_singleton a, hnd, Multiset.disjoint_left.mpr (by simpa using ha)⟩
  · intro b hb
    obtain rfl := Multiset.mem_singleton.mp hb
    exact ⟨ha, haR⟩
  · intro j hj hzj
    by_cases hji : j = i
    · subst hji
      rw [set_self, haddr]
      refine ⟨hP, ?_⟩
      cases d with
      | zero => trivial
      | succ d => exact fun k _ hk => absurd (hma k) hk
    · rw [set_index m r _ hji] at hzj ⊢
      exact ⟨(hf j hj hzj).1, (hf j hj hzj).2.congr (hsib j hj hzj)⟩
  · rintro rfl
    exact hu root_mem_tables
  · exact set_index m r _ fun hji => hj (hji ▸ hz)
  · intro js hjs hjv k
    obtain ⟨l, js, rfl⟩ : ∃ l js', js = l :: js' := by
      cases js with
      | nil => simp at hjs
      | cons l js => exact ⟨l, js, rfl⟩
    obtain ⟨hl, hjv⟩ := validPath_cons.mp hjv
    by_cases hli : l = i
    · subst hli
      rw [entryAt_cons_zero hz, entryAt_cons (by rw [set_self]; exact hne), set_self, haddr,
        entryAt_empty hma]
    · by_cases hzl : m r l = 0
      · rw [entryAt_cons_zero hzl, entryAt_cons_zero (by rw [set_index m r _ hli]; exact hzl)]
      · rw [entryAt_cons hzl, entryAt_cons (by rw [set_index m r _ hli]; exact hzl),
          set_index m r _ hli]
        exact entryAt_congr (hsib l hl hzl) (by simp at hjs; omega) hjv k

end Grow

/-! ### Capacity -/

/-- The number of tables of a full tree with `d` interior levels whose entries in use satisfy
`C`. -/
def capacity (w : ℕ) (C : ℕ → ℕ → Prop) [∀ d i, Decidable (C d i)] : ℕ → ℕ
  | 0 => 1
  | d + 1 => 1 + ∑ i ∈ Finset.range w, if C d i then capacity w C d else 0

/-- The number of tables that a path lacks. -/
def missing (m : Tables) : ℕ → List ℕ → ℕ
  | _, [] => 0
  | t, i :: is => if m t i = 0 then is.length + 1 else missing m (tableAddr (m t i)) is

section Capacity

variable {m : Tables} {w d r fl : ℕ} {is : List ℕ} {P : ℕ → ℕ → ℕ → Prop} {C : ℕ → ℕ → Prop}
  [∀ d i, Decidable (C d i)]

/-- No tree has more tables than a full one. -/
theorem card_tables_le (hP : ∀ d i e, P d i e → C d i) (h : Interior w P m d r) :
    (tables w m d r).card ≤ capacity w C d := by
  induction d generalizing r with
  | zero => rw [tables_zero, Multiset.card_singleton, capacity]
  | succ d ih =>
    rw [tables_succ, Multiset.card_cons, Multiset.card_sum, capacity, Nat.add_comm]
    refine Nat.add_le_add_left (Finset.sum_le_sum fun i hi => ?_) 1
    by_cases hz : m r i = 0
    · rw [if_pos hz]
      exact Nat.zero_le _
    · obtain ⟨hentry, hsub⟩ := h i (Finset.mem_range.mp hi) hz
      rw [if_neg hz, if_pos (hP _ _ _ hentry)]
      exact ih hsub

/-- A path fits in a full tree. -/
theorem length_lt_capacity (hP : ∀ d i e, P d i e → C d i) (hv : ValidPath w is)
    (hpath : PathOk P fl is) : is.length + 1 ≤ capacity w C is.length := by
  induction is with
  | nil => exact le_rfl
  | cons i is ih =>
    obtain ⟨hi, hv⟩ := validPath_cons.mp hv
    have hle := Finset.single_le_sum
      (f := fun i => if C is.length i then capacity w C is.length else 0)
      (fun _ _ => Nat.zero_le _) (Finset.mem_range.mpr hi)
    have hC : C is.length i := hP _ _ _ (hpath.1 0 rfl)
    rw [if_pos hC] at hle
    have := ih hv hpath.2
    rw [List.length_cons, capacity]
    omega

/-- A tree has room for the tables that a path lacks. -/
theorem card_add_missing_le (hP : ∀ d i e, P d i e → C d i) (hv : ValidPath w is)
    (hpath : PathOk P fl is) (h : Interior w P m is.length r) :
    (tables w m is.length r).card + missing m r is ≤ capacity w C is.length := by
  induction is generalizing r with
  | nil => rw [List.length_nil, tables_zero, Multiset.card_singleton, missing, capacity]
  | cons i is ih =>
    obtain ⟨hi, hv⟩ := validPath_cons.mp hv
    have hi' := Finset.mem_range.mpr hi
    have hC : C is.length i := hP _ _ _ (hpath.1 0 rfl)
    -- the other subtrees
    have hrest : ∑ j ∈ (Finset.range w).erase i,
          (if m r j = 0 then 0 else tables w m is.length (tableAddr (m r j))).card ≤
        ∑ j ∈ (Finset.range w).erase i, (if C is.length j then capacity w C is.length else 0) := by
      refine Finset.sum_le_sum fun j hj => ?_
      by_cases hz : m r j = 0
      · rw [if_pos hz]
        exact Nat.zero_le _
      · obtain ⟨hentry, hsub⟩ := h j (Finset.mem_range.mp (Finset.mem_of_mem_erase hj)) hz
        rw [if_neg hz, if_pos (hP _ _ _ hentry)]
        exact card_tables_le hP hsub
    -- the subtree that the path goes through
    have hchild : (if m r i = 0 then 0 else tables w m is.length (tableAddr (m r i))).card +
        missing m r (i :: is) ≤ capacity w C is.length := by
      rw [missing]
      by_cases hz : m r i = 0
      · rw [if_pos hz, if_pos hz, Multiset.card_zero, Nat.zero_add]
        exact length_lt_capacity hP hv hpath.2
      · rw [if_neg hz, if_neg hz]
        exact ih hv hpath.2 (h i hi hz).2
    rw [List.length_cons, tables_succ, Multiset.card_cons, Multiset.card_sum, capacity,
      ← Finset.add_sum_erase _ _ hi', ← Finset.add_sum_erase _ _ hi', if_pos hC]
    omega

end Capacity

end Foundation
