import Mathlib.Order.Bounds.Basic
import Assembler.Proofs.Sharing

/-!
# Cells in use

The cells that are held are those of the live temporaries, one for each, and the cell on top is one
of them. So the stack is as high as the highest cell in use (`Frame.Height`), and no higher. The
high-water mark is the largest number of cells that the stack ever had
(`Frame.isGreatest_highWater`). All this is true after any allocations and releases, also where some
of them fail (`Frame.representation_after`).

The frame of lowered code is therefore exactly as large as the temporaries of the program need
(`Program.frameSize_exact_of_lower`).
-/

namespace Assembler

/-- The cell on top is not retired once all such cells are reclaimed. -/
theorem getLast?_ne_of_reclaim_eq {cells : List Cell} (h : reclaim cells = cells) :
    cells.getLast? ≠ some .retired := by
  intro hlast
  obtain ⟨below, rfl⟩ := List.getLast?_eq_some_iff.1 hlast
  have hretired : reclaim [.retired] = [] := rfl
  rw [reclaim_append, if_pos hretired] at h
  have hle := (reclaim_isPrefix below).length_le
  have hlength := congrArg List.length h
  rw [List.length_append, List.length_singleton] at hlength
  omega

namespace Frame

/-! ## The height of the stack -/

/-- One more than the highest cell that a temporary holds, or zero if none holds a cell. -/
inductive Height (f : Frame) : Nat → Prop where
  | empty (h : ∀ t, f.cell? t = none) : Height f 0
  | top {t : Temp} {r : UInt32} (h : f.cell? t = some r)
      (hmax : ∀ u r', f.cell? u = some r' → r' ≤ r) : Height f (r.toNat + 1)

theorem Height.unique {f : Frame} {m m' : Nat} (h : f.Height m) (h' : f.Height m') : m = m' := by
  cases h with
  | empty hempty =>
    cases h' with
    | empty => rfl
    | @top t r ht =>
      rw [hempty t] at ht
      cases ht
  | @top t r ht hmax =>
    cases h' with
    | empty hempty =>
      rw [hempty t] at ht
      cases ht
    | @top u r' hu hmax' =>
      have hle := UInt32.le_iff_toNat_le.1 (hmax u r' hu)
      have hle' := UInt32.le_iff_toNat_le.1 (hmax' t r ht)
      omega

/-- Every cell that is held is that of a live temporary. -/
def Owned (f : Frame) : Prop :=
  ∀ i : Nat, f.cells[i]? = some .held → ∃ t r, f.binding? t = some (.live r) ∧ r.toNat = i

theorem Owned.allocated {f : Frame} (h : f.Owned) {t : Temp} (ht : f.binding? t = none)
    (hlt : f.cells.length < UInt32.size) : (f.allocated t).Owned := by
  intro i hi
  rcases Nat.lt_or_ge i f.cells.length with hold | hnew
  · rw [Frame.allocated, List.getElem?_append_left hold] at hi
    obtain ⟨u, r, hu, hr⟩ := h i hi
    refine ⟨u, r, ?_, hr⟩
    rw [binding?_allocated, if_neg, hu]
    intro hid
    rw [f.binding?_congr hid, ht] at hu
    cases hu
  · have hbound := (List.getElem?_eq_some_iff.1 hi).1
    simp only [Frame.allocated, List.length_append, List.length_singleton] at hbound
    refine ⟨t, f.nextFree, by rw [binding?_allocated, if_pos rfl], ?_⟩
    rw [toNat_nextFree hlt]
    omega

theorem Owned.released {f : Frame} (h : f.Owned) {t : Temp} {r : UInt32}
    (ht : f.binding? t = some (.live r)) : (f.released t r).Owned := by
  intro i hi
  -- a cell that is still held was held before, and is not the one given back
  have hset : (f.cells.set r.toNat .retired)[i]? = some .held := by
    have hi : (reclaim (f.cells.set r.toNat .retired))[i]? = some .held := hi
    obtain ⟨rest, hrest⟩ := reclaim_isPrefix (f.cells.set r.toNat .retired)
    rw [← hrest, List.getElem?_append_left (List.getElem?_eq_some_iff.1 hi).1, hi]
  have hne : r.toNat ≠ i := by
    rintro rfl
    rw [List.getElem?_set_self'] at hset
    simp at hset
  rw [List.getElem?_set_ne hne] at hset
  obtain ⟨u, r', hu, hr'⟩ := h i hset
  refine ⟨u, r', ?_, hr'⟩
  rw [binding?_released _ _ _ ht, if_neg, hu]
  intro hid
  rw [f.binding?_congr hid, ht] at hu
  cases hu
  exact hne hr'

theorem owned_after {is : List Instr} (h : NeverWraps is) : (after is).Owned := by
  induction is using List.reverseRecOn with
  | nil =>
    intro i hi
    simp at hi
  | append_singleton is i ih =>
    have hinit := List.prefix_append is [i]
    have ih := ih (h.of_isPrefix hinit)
    rw [after_append_singleton]
    rcases (after is).follow_cases i with ⟨heq, -⟩ | ⟨t, -, ht, heq⟩ | ⟨t, r, -, ht, heq⟩
    · rwa [heq]
    · rw [heq]
      exact ih.allocated ht (h _ hinit)
    · rw [heq]
      exact ih.released ht

/-- A cell is held iff a live temporary is bound to it. -/
theorem held_iff_exists_cell? {f : Frame} (hc : f.Coherent) (ho : f.Owned) {i : Nat} :
    f.cells[i]? = some .held ↔ ∃ t r, f.cell? t = some r ∧ r.toNat = i := by
  simp only [cell?_eq_some_iff]
  constructor
  · exact ho i
  · rintro ⟨t, r, ht, rfl⟩
    exact hc.held ht

/-- The stack is as high as the highest cell in use. -/
theorem height_cells {f : Frame} (hc : f.Coherent) (ho : f.Owned)
    (htop : f.cells.getLast? ≠ some .retired) : f.Height f.cells.length := by
  have hlt {t : Temp} {r : UInt32} (ht : f.cell? t = some r) : r.toNat < f.cells.length :=
    hc.lt_length (cell?_eq_some_iff.1 ht)
  cases hlast : f.cells.getLast? with
  | none =>
    obtain hnil := List.getLast?_eq_none_iff.1 hlast
    rw [hnil]
    refine .empty fun t => ?_
    cases ht : f.cell? t with
    | none => rfl
    | some r =>
      have := hlt ht
      simp [hnil] at this
  | some c =>
    obtain ⟨below, hcells⟩ := List.getLast?_eq_some_iff.1 hlast
    have hheld : f.cells[below.length]? = some .held := by
      cases c with
      | held => simp [hcells]
      | retired => exact absurd hlast htop
    obtain ⟨t, r, ht, hr⟩ := (held_iff_exists_cell? hc ho).1 hheld
    have hlength : f.cells.length = r.toNat + 1 := by
      rw [hcells, List.length_append, List.length_singleton, hr]
    rw [hlength]
    refine .top ht fun u r' hu => ?_
    have := hlt hu
    rw [UInt32.le_iff_toNat_le]
    omega

theorem height_after {is : List Instr} (h : NeverWraps is) :
    (after is).Height (after is).cells.length := by
  apply height_cells (coherent_after h) (owned_after h)
  exact getLast?_ne_of_reclaim_eq (reclaim_cells_after is)

/-! ## The high-water mark -/

/-- The numbers of cells that the stack has along a program. -/
def sizes (is : List Instr) : Set Nat :=
  {size | ∃ js, js <+: is ∧ (after js).cells.length = size}

theorem sizes_append_singleton (is : List Instr) (i : Instr) :
    sizes (is ++ [i]) = insert (after (is ++ [i])).cells.length (sizes is) := by
  ext size
  simp only [sizes, Set.mem_insert_iff, Set.mem_ofPred_eq, List.prefix_concat_iff]
  constructor
  · rintro ⟨js, rfl | hjs, rfl⟩
    · exact Or.inl rfl
    · exact Or.inr ⟨js, hjs, rfl⟩
  · rintro (rfl | ⟨js, hjs, rfl⟩)
    · exact ⟨_, Or.inl rfl, rfl⟩
    · exact ⟨js, Or.inr hjs, rfl⟩

/-- An instruction raises the high-water mark to the height of the stack that it leaves. -/
theorem highWater_follow {f : Frame} (hf : f.Coherent) {i : Instr}
    (hlt : (f.follow i).cells.length < UInt32.size) :
    (f.follow i).highWater.toNat = max (f.follow i).cells.length f.highWater.toNat := by
  have hle := hf.length_le
  rcases f.follow_cases i with ⟨heq, -⟩ | ⟨t, -, -, heq⟩ | ⟨t, r, -, -, heq⟩
  · rw [heq]
    omega
  · rw [heq] at hlt ⊢
    simp only [allocated, List.length_append, List.length_singleton, toNat_max] at hlt ⊢
    rw [toNat_nextFree_add_one hlt, Nat.max_comm]
  · have hshrinks := f.length_cells_released_le t r
    have hsame : (f.released t r).highWater = f.highWater := rfl
    rw [heq, hsame]
    omega

/-- The high-water mark is the largest number of cells that the stack ever had. -/
theorem isGreatest_highWater {is : List Instr} (h : NeverWraps is) :
    IsGreatest (sizes is) (after is).highWater.toNat := by
  induction is using List.reverseRecOn with
  | nil =>
    refine ⟨⟨[], List.prefix_rfl, rfl⟩, ?_⟩
    rintro _ ⟨js, hjs, rfl⟩
    rw [List.prefix_nil.1 hjs]
    rfl
  | append_singleton is i ih =>
    have hinit := h.of_isPrefix (List.prefix_append is [i])
    have hwhole := h _ List.prefix_rfl
    rw [after_append_singleton] at hwhole
    rw [sizes_append_singleton, after_append_singleton,
      highWater_follow (coherent_after hinit) hwhole]
    exact (ih hinit).insert _

theorem highWater_le_of_isPrefix {is js : List Instr} (h : NeverWraps is) (hjs : js <+: is) :
    (after js).highWater.toNat ≤ (after is).highWater.toNat := by
  obtain ⟨ks, hks, hsize⟩ := (isGreatest_highWater (h.of_isPrefix hjs)).1
  exact (isGreatest_highWater h).2 ⟨ks, hks.trans hjs, hsize⟩

/-- The heights that the stack has along a program, by the temporaries that hold its cells. -/
def heights (is : List Instr) : Set Nat :=
  {height | ∃ js, js <+: is ∧ (after js).Height height}

theorem heights_eq_sizes {is : List Instr} (h : NeverWraps is) : heights is = sizes is := by
  ext size
  simp only [heights, sizes, Set.mem_ofPred_eq]
  constructor
  · rintro ⟨js, hjs, hheight⟩
    exact ⟨js, hjs, (height_after (h.of_isPrefix hjs)).unique hheight⟩
  · rintro ⟨js, hjs, rfl⟩
    exact ⟨js, hjs, height_after (h.of_isPrefix hjs)⟩

/-- Every cell below the high-water mark has been bound to a temporary. -/
theorem exists_cell?_of_lt_highWater {is : List Instr} (h : NeverWraps is) {i : Nat}
    (hi : i < (after is).highWater.toNat) :
    ∃ js t r, js <+: is ∧ (after js).cell? t = some r ∧ r.toNat = i := by
  induction is using List.reverseRecOn with
  | nil => exact absurd hi (Nat.not_lt_zero _)
  | append_singleton is j ih =>
    have hprefix := List.prefix_append is [j]
    have hinit := h.of_isPrefix hprefix
    by_cases hold : i < (after is).highWater.toNat
    · obtain ⟨js, t, r, hjs, ht⟩ := ih hinit hold
      exact ⟨js, t, r, hjs.trans hprefix, ht⟩
    · -- the mark has just been raised, so the new cell is this one, and it is the one on top
      have hle := (coherent_after hinit).length_le
      rw [after_append_singleton] at hi
      rcases (after is).follow_cases j with ⟨heq, -⟩ | ⟨t, -, ht, heq⟩ | ⟨t, r, -, -, heq⟩
      · rw [heq] at hi
        exact absurd hi hold
      · have hnext := toNat_nextFree (h _ hprefix)
        have hwhole := h _ List.prefix_rfl
        rw [after_append_singleton, heq] at hwhole
        simp only [allocated, List.length_append, List.length_singleton] at hwhole
        rw [heq] at hi
        simp only [allocated, toNat_max, toNat_nextFree_add_one hwhole] at hi
        refine ⟨is ++ [j], t, (after is).nextFree, List.prefix_rfl, ?_, by omega⟩
        rw [after_append_singleton, heq, cell?_eq_some_iff, binding?_allocated, if_pos rfl]
      · rw [heq] at hi
        exact absurd hi hold

/-! ## Temporaries that have been allocated -/

/-- A temporary that has been allocated is bound for good, and gets no other cell. -/
theorem binding?_append {is : List Instr} {t : Temp} (h : (after is).binding? t ≠ none)
    (js : List Instr) :
    (after (is ++ js)).binding? t = (after is).binding? t ∨
      (after (is ++ js)).binding? t = some .released := by
  rw [after_append]
  cases hbinding : (after is).binding? t with
  | none => exact absurd hbinding h
  | some b =>
    cases b with
    | live r => exact binding?_foldl_of_live hbinding js
    | released => exact Or.inr (binding?_foldl_of_released hbinding js)

/-- What is true of the frame after any allocations and releases, of which some may fail. The
temporaries that are live hold the cells that are held, one each. The cell on top is not retired, so
the stack is as high as the highest cell in use. The high-water mark is the largest number of cells
so far. A temporary that has been allocated cannot be allocated again, whatever follows, and is live
later only if it has kept its cell. A call that fails leaves the frame as it is. -/
theorem representation_after {is : List Instr} (h : NeverWraps is) :
    (∀ t u r, (after is).cell? t = some r → (after is).cell? u = some r → t.id = u.id) ∧
      (∀ i, (after is).cells[i]? = some .held ↔
        ∃ t r, (after is).cell? t = some r ∧ r.toNat = i) ∧
      (after is).cells.getLast? ≠ some .retired ∧
      (after is).Height (after is).nextFree.toNat ∧
      IsGreatest (sizes is) (after is).highWater.toNat ∧
      (∀ t a js, At is a (Instr.Allocs t) →
        (after (is ++ js)).alloc t = (.error (.slotAllocatedTwice t.text), after (is ++ js)) ∧
          ∀ r, (after (is ++ js)).cell? t = some r → (after is).cell? t = some r) ∧
      (∀ t fault f, (after is).alloc t = (.error fault, f) → f = after is) ∧
      ∀ t fault f, (after is).release t = (.error fault, f) → f = after is := by
  have hcoherent := coherent_after h
  refine ⟨?_, fun i => held_iff_exists_cell? hcoherent (owned_after h),
    getLast?_ne_of_reclaim_eq (reclaim_cells_after is), ?_, isGreatest_highWater h, ?_,
    fun t fault f => alloc_eq_error, fun t fault f => release_eq_error⟩
  · intro t u r ht hu
    rw [cell?_eq_some_iff] at ht hu
    exact hcoherent.injective ht hu
  · rw [toNat_nextFree (h is List.prefix_rfl)]
    exact height_after h
  · intro t a js ha
    have hbound : (after is).binding? t ≠ none :=
      fun hnone => binding?_after_eq_none_iff.1 hnone a ha
    rcases binding?_append hbound js with hlater | hlater
    · refine ⟨alloc_of_ne_none (hlater ▸ hbound), fun r hr => ?_⟩
      rwa [cell?_eq_some_iff, ← hlater, ← cell?_eq_some_iff]
    · refine ⟨alloc_of_ne_none (by simp [hlater]), fun r hr => ?_⟩
      rw [cell?_eq_some_iff, hlater] at hr
      cases hr

/-- Four temporaries. The second is released below the top and cannot be allocated again, and the
last release reclaims its cell too. -/
def churn : List Instr :=
  let t (id : UInt64) : Temp := ⟨id, "t"⟩
  [.alloc (t 0), .alloc (t 1), .alloc (t 2), .release (t 1), .alloc (t 1), .alloc (t 3),
    .release (t 3), .release (t 2)]

theorem representation_after_churn :
    NeverWraps churn ∧ (after churn).cells = [.held] ∧ (after churn).Height 1 ∧
      IsGreatest (sizes churn) 4 ∧
      ∀ js, (after (churn ++ js)).alloc ⟨1, "t"⟩ =
        (.error (.slotAllocatedTwice (Temp.text ⟨1, "t"⟩)), after (churn ++ js)) := by
  have hwraps : NeverWraps churn := neverWraps_of_allocations (by decide)
  obtain ⟨-, -, -, hheight, hpeak, hfails, -⟩ := representation_after hwraps
  have hallocs : At churn 1 (Instr.Allocs ⟨1, "t"⟩) := ⟨_, rfl, rfl⟩
  exact ⟨hwraps, by decide, hheight, hpeak, fun js => (hfails _ 1 js hallocs).1⟩

end Frame

/-! ## Lowered programs -/

namespace Program

/-- The frame is as large as the fixed locals and the temporaries need. What it has beyond the fixed
locals is the largest height of the stack along the program. The index that an operand word gives
for a variable is in the frame, and each cell of the frame is at some place that of a temporary. -/
theorem frameSize_exact_of_lower {p : Program} {n : UInt32} {code : Code}
    (h : (p.lower n).result = .ok code) (hallocs : allocations p.instrs < UInt32.size) :
    (∃ peak, IsGreatest (Frame.heights p.instrs) peak ∧ code.frameSize.toNat = n.toNat + peak) ∧
      (∀ k m v, NamesAt p.instrs k m v →
        ∃ index, p.IndexAt code k m v index ∧ index < code.frameSize) ∧
      ∀ r, n.toNat + r < code.frameSize.toNat →
        ∃ js t c, js <+: p.instrs ∧ (Frame.after js).cell? t = some c ∧ c.toNat = r := by
  have hwraps := Frame.neverWraps_of_allocations hallocs
  have hsize := frameSize_of_lower h
  refine ⟨⟨_, ?_, hsize⟩, ?_, ?_⟩
  · rw [Frame.heights_eq_sizes hwraps]
    exact Frame.isGreatest_highWater hwraps
  · intro k m v hv
    obtain ⟨index, hindex⟩ := exists_indexAt_of_lower h hv
    refine ⟨index, hindex, ?_⟩
    have htake := List.take_prefix k p.instrs
    have hlt := Pass.index?_lt (Frame.coherent_after (hwraps.of_isPrefix htake))
      (hindex.index?_eq h)
    have hle := Frame.highWater_le_of_isPrefix hwraps htake
    rw [UInt32.lt_iff_toNat_lt]
    omega
  · intro r hr
    exact Frame.exists_cell?_of_lt_highWater hwraps (by omega)

theorem frameSize_exact_of_lower_searchLoop :
    (searchLoop.lower 2).result = .ok searchCode ∧ allocations searchLoop.instrs < UInt32.size ∧
      ∃ peak, IsGreatest (Frame.heights searchLoop.instrs) peak ∧ peak = 2 := by
  have hallocs : allocations searchLoop.instrs < UInt32.size := by decide
  obtain ⟨⟨peak, hpeak, hsize⟩, -⟩ := frameSize_exact_of_lower lower_searchLoop hallocs
  have hsize : 4 = 2 + peak := hsize
  exact ⟨lower_searchLoop, hallocs, peak, hpeak, by omega⟩

end Program

end Assembler
