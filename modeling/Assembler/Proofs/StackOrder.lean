import Mathlib.Data.Nat.SuccPred
import Assembler.Proofs.Occupancy

/-!
# Releases in stack order

The live temporaries after some calls are those allocated and not released since, and of two of them
the later one has the higher cell (`Frame.Tracks`). So there are never more of them than cells, and
the latest one is on top (`Frame.Tracks.height_eq`). If it is always the latest one that is
released, no cell is ever retired, and the frame needs no more cells than there are temporaries live
at the same time (`Frame.counts_of_attemptAll`).
-/

namespace Assembler

/-! ## Calls that succeed -/

/-- The live temporaries after an instruction that finds `live`. -/
def Instr.track (live : List Temp) : Instr → List Temp
  | alloc t => t :: live
  | release t => live.filter (·.id != t.id)
  | _ => live

/-- The temporaries that have been allocated and not been released since, the latest first. -/
def liveAfter (is : List Instr) : List Temp :=
  is.foldl Instr.track []

/-- Every release is that of the latest of the live temporaries. -/
def StackOrdered (is : List Instr) : Prop :=
  ∀ (k : Nat) t, is[k]? = some (.release t) →
    (liveAfter (is.take k)).head?.map Temp.id = some t.id

/-- The numbers of live temporaries along a program. -/
def liveCounts (is : List Instr) : Set Nat :=
  {count | ∃ js, js <+: is ∧ (liveAfter js).length = count}

theorem liveAfter_append_singleton (is : List Instr) (i : Instr) :
    liveAfter (is ++ [i]) = i.track (liveAfter is) := by
  simp [liveAfter]

theorem StackOrdered.of_isPrefix {is js : List Instr} (h : StackOrdered is) (hjs : js <+: is) :
    StackOrdered js := by
  obtain ⟨rest, rfl⟩ := hjs
  intro k t hk
  have hlt := (List.getElem?_eq_some_iff.1 hk).1
  have := h k t (by rwa [List.getElem?_append_left hlt])
  rwa [List.take_append_of_le_length (Nat.le_of_lt hlt)] at this

namespace Frame

/-- The frame after an instruction, if its allocation or release succeeds. -/
def attempt (f : Frame) : Instr → Except Fault Frame
  | .alloc t => succeeded (f.alloc t)
  | .release t => succeeded (f.release t)
  | _ => .ok f

/-- The frame after instructions that start with no cell allocated, if all their allocations and
releases succeed. -/
def attemptAll (is : List Instr) : Except Fault Frame :=
  is.foldlM attempt {}

variable {f g : Frame} {is js : List Instr} {i : Instr}

/-- A call that succeeds allocates a new temporary or releases a live one. -/
theorem attempt_cases (h : f.attempt i = .ok g) :
    (∃ t, i = .alloc t ∧ f.binding? t = none ∧ g = f.allocated t) ∨
      (∃ t r, i = .release t ∧ f.binding? t = some (.live r) ∧ g = f.released t r) ∨
      g = f ∧ f.follow i = f ∧ ∀ live, i.track live = live := by
  cases i with
  | alloc t =>
    obtain ⟨r, halloc⟩ := succeeded_eq_ok_iff.1 h
    obtain ⟨hnone, hg, -⟩ := alloc_eq_ok_iff.1 halloc
    exact Or.inl ⟨t, rfl, hnone, hg⟩
  | release t =>
    obtain ⟨r, hrelease⟩ := succeeded_eq_ok_iff.1 h
    obtain ⟨hlive, hg⟩ := release_eq_ok_iff.1 hrelease
    exact Or.inr (Or.inl ⟨t, r, rfl, hlive, hg⟩)
  | _ => exact Or.inr (Or.inr ⟨(Except.ok.inj h).symm, rfl, fun _ => rfl⟩)

theorem attempt_eq_follow (h : f.attempt i = .ok g) : g = f.follow i := by
  rcases attempt_cases h with ⟨t, rfl, ht, rfl⟩ | ⟨t, r, rfl, ht, rfl⟩ | ⟨rfl, hsame, -⟩
  · exact (follow_alloc ht).symm
  · exact (follow_release ht).symm
  · exact hsame.symm

theorem attemptAll_append_singleton :
    attemptAll (is ++ [i]) = .ok g ↔ ∃ f, attemptAll is = .ok f ∧ f.attempt i = .ok g := by
  simp [attemptAll, List.foldlM_append, bind_eq_ok_iff]

/-- Calls that all succeed leave the frame that they leave if failures are passed over. -/
theorem eq_after_of_attemptAll (h : attemptAll is = .ok f) : f = after is := by
  induction is using List.reverseRecOn generalizing f with
  | nil => exact (Except.ok.inj h).symm
  | append_singleton is i ih =>
    obtain ⟨g, hg, hi⟩ := attemptAll_append_singleton.1 h
    rw [after_append_singleton, ← ih hg]
    exact attempt_eq_follow hi

theorem exists_attemptAll_of_isPrefix (h : attemptAll is = .ok f) (hjs : js <+: is) :
    ∃ g, attemptAll js = .ok g := by
  obtain ⟨rest, rfl⟩ := hjs
  rw [attemptAll, List.foldlM_append, bind_eq_ok_iff] at h
  obtain ⟨g, hg, -⟩ := h
  exact ⟨g, hg⟩

/-! ## The order of cells -/

/-- `live` are the live temporaries of a frame. They are as many as the cells that are held, and
each has a higher cell than those after it. -/
structure Tracks (live : List Temp) (f : Frame) : Prop where
  mem_iff : ∀ t, (∃ u ∈ live, u.id = t.id) ↔ ∃ r, f.cell? t = some r
  nodup : (live.map Temp.id).Nodup
  ordered : live.Pairwise fun t u => ∀ r s, f.cell? t = some r → f.cell? u = some s → s < r
  count : f.cells.count .held = live.length

theorem count_held_reclaim (cells : List Cell) :
    (reclaim cells).count .held = cells.count .held := by
  induction cells with
  | nil => rfl
  | cons c cells ih =>
    rw [reclaim_cons, List.count_cons, ← ih]
    split
    next h => simp [h.1, h.2]
    next => rw [List.count_cons]

theorem cell?_allocated (f : Frame) (t u : Temp) :
    (f.allocated t).cell? u = if u.id = t.id then some f.nextFree else f.cell? u := by
  unfold cell?
  rw [binding?_allocated]
  by_cases hid : u.id = t.id
  · rw [if_pos hid, if_pos hid]
  · rw [if_neg hid, if_neg hid]

theorem cell?_released {t : Temp} {r : UInt32} (ht : f.binding? t = some (.live r)) (u : Temp) :
    (f.released t r).cell? u = if u.id = t.id then none else f.cell? u := by
  unfold cell?
  rw [binding?_released _ _ _ ht]
  by_cases hid : u.id = t.id
  · rw [if_pos hid, if_pos hid]
  · rw [if_neg hid, if_neg hid]

namespace Tracks

variable {live : List Temp} {t : Temp} {r : UInt32}

theorem allocated (h : Tracks live f) (hf : f.Coherent) (hlt : f.cells.length < UInt32.size)
    (ht : f.binding? t = none) : Tracks (t :: live) (f.allocated t) := by
  have hdead : f.cell? t = none := by rw [cell?, ht]
  have hne : ∀ u ∈ live, u.id ≠ t.id := by
    intro u hu hid
    obtain ⟨r, hr⟩ := (h.mem_iff t).1 ⟨u, hu, hid⟩
    rw [hdead] at hr
    cases hr
  have hkept : ∀ u ∈ live, (f.allocated t).cell? u = f.cell? u := by
    intro u hu
    rw [cell?_allocated, if_neg (hne u hu)]
  refine ⟨fun u => ?_, ?_, ?_, ?_⟩
  · rw [cell?_allocated]
    by_cases hid : u.id = t.id
    · simp [hid]
    · simp [hid, Ne.symm hid, h.mem_iff u]
  · simpa [h.nodup] using hne
  · refine .cons (fun u hu r s hr hs => ?_) ?_
    · -- the new cell is above all others
      rw [cell?_allocated, if_pos rfl, Option.some.injEq] at hr
      rw [hkept u hu, cell?_eq_some_iff] at hs
      rw [← hr, UInt32.lt_iff_toNat_lt, toNat_nextFree hlt]
      exact hf.lt_length hs
    · refine h.ordered.imp_of_mem fun {u v} hu hv huv => ?_
      rwa [hkept u hu, hkept v hv]
  · simp [Frame.allocated, h.count]

theorem length_filter_ne (h : Tracks live f) (ht : f.cell? t = some r) :
    (live.filter (·.id != t.id)).length + 1 = live.length := by
  obtain ⟨u, hu, hid⟩ := (h.mem_iff t).2 ⟨r, ht⟩
  have herase : (live.filter (·.id != t.id)).map Temp.id = (live.map Temp.id).erase t.id := by
    rw [h.nodup.erase_eq_filter, List.filter_map]
    rfl
  have hmem : t.id ∈ live.map Temp.id := hid ▸ List.mem_map_of_mem hu
  have hlength := congrArg List.length herase
  rw [List.length_map, List.length_erase_of_mem hmem, List.length_map] at hlength
  have := List.length_pos_of_mem hu
  omega

theorem released (h : Tracks live f) (hf : f.Coherent) (ht : f.binding? t = some (.live r)) :
    Tracks (live.filter (·.id != t.id)) (f.released t r) := by
  have hkept : ∀ u ∈ live.filter (·.id != t.id), (f.released t r).cell? u = f.cell? u := by
    intro u hu
    rw [cell?_released ht, if_neg (bne_iff_ne.1 (List.mem_filter.1 hu).2)]
  refine ⟨fun u => ?_, ?_, ?_, ?_⟩
  · rw [cell?_released ht]
    by_cases hid : u.id = t.id
    · simp [hid]
    · rw [if_neg hid, ← h.mem_iff u]
      constructor
      · rintro ⟨v, hv, hvid⟩
        exact ⟨v, (List.mem_filter.1 hv).1, hvid⟩
      · rintro ⟨v, hv, hvid⟩
        exact ⟨v, List.mem_filter.2 ⟨hv, bne_iff_ne.2 (hvid ▸ hid)⟩, hvid⟩
  · exact h.nodup.sublist (List.filter_sublist.map _)
  · refine (h.ordered.sublist List.filter_sublist).imp_of_mem fun {u v} hu hv huv => ?_
    rwa [hkept u hu, hkept v hv]
  · obtain ⟨hlt, hheld⟩ := List.getElem?_eq_some_iff.1 (hf.held ht)
    have hset : (f.cells.set r.toNat .retired).count .held = f.cells.count .held - 1 := by
      rw [List.count_set hlt, hheld]
      rfl
    have hlength := h.length_filter_ne (cell?_eq_some_iff.2 ht)
    rw [Frame.released, count_held_reclaim, hset, h.count]
    omega

theorem length_le (h : Tracks live f) : live.length ≤ f.cells.length := by
  rw [← h.count]
  exact List.count_le_length

/-- The latest of the live temporaries has the cell on top. -/
theorem height_eq (h : Tracks live f) {m : Nat} (hheight : f.Height m)
    (ht : live.head?.map Temp.id = some t.id) (hr : f.cell? t = some r) : m = r.toNat + 1 := by
  obtain ⟨u, hhead, hid⟩ := Option.map_eq_some_iff.1 ht
  obtain ⟨rest, rfl⟩ := List.head?_eq_some_iff.1 hhead
  rw [← f.cell?_congr hid] at hr
  have habove := (List.pairwise_cons.1 h.ordered).1
  cases hheight with
  | empty hempty =>
    rw [hempty u] at hr
    cases hr
  | @top v s hv hmax =>
    obtain ⟨w, hw, hwid⟩ := (h.mem_iff v).2 ⟨s, hv⟩
    rw [← f.cell?_congr hwid] at hv
    rcases List.mem_cons.1 hw with rfl | hw
    · rw [hr, Option.some.injEq] at hv
      rw [hv]
    · exact absurd (habove w hw r s hr hv) (UInt32.not_lt.2 (hmax u r hr))

end Tracks

/-- The frame tracks the temporaries along calls that all succeed. -/
theorem tracks_of_attemptAll (h : attemptAll is = .ok f) (hwraps : NeverWraps is) :
    Tracks (liveAfter is) f := by
  induction is using List.reverseRecOn generalizing f with
  | nil =>
    obtain rfl := Except.ok.inj h
    exact ⟨by simp [liveAfter, cell?, binding?], .nil, .nil, rfl⟩
  | append_singleton is i ih =>
    obtain ⟨g, hg, hi⟩ := attemptAll_append_singleton.1 h
    have hprefix := List.prefix_append is [i]
    have hinit := hwraps.of_isPrefix hprefix
    have htracks := ih hg hinit
    obtain rfl := eq_after_of_attemptAll hg
    rw [liveAfter_append_singleton]
    rcases attempt_cases hi with ⟨t, rfl, ht, rfl⟩ | ⟨t, r, rfl, ht, rfl⟩ | ⟨rfl, -, hsame⟩
    · exact htracks.allocated (coherent_after hinit) (hwraps _ hprefix) ht
    · exact htracks.released (coherent_after hinit) ht
    · rwa [hsame]

/-! ## Stack order -/

/-- The release of the cell on top retires no cell. -/
theorem retired_not_mem_released {t : Temp} {r : UInt32} (h : .retired ∉ f.cells)
    (htop : f.cells.length = r.toNat + 1) : .retired ∉ (f.released t r).cells := by
  have hne : f.cells ≠ [] := List.ne_nil_of_length_eq_add_one htop
  have hsplit := List.dropLast_append_getLast hne
  have hlength : f.cells.dropLast.length = r.toNat := by simp [htop]
  have hset : f.cells.set r.toNat .retired = f.cells.dropLast ++ [.retired] := by
    rw [← hsplit, List.set_append_right _ _ (Nat.le_of_eq hlength), hlength]
    simp
  have hretired : reclaim [.retired] = [] := rfl
  intro hmem
  rw [released, hset, reclaim_append, if_pos hretired] at hmem
  exact h ((List.dropLast_prefix _).subset ((reclaim_isPrefix _).subset hmem))

/-- If it is always the latest temporary that is released, no cell is ever retired. -/
theorem retired_not_mem_cells (h : attemptAll is = .ok f) (hwraps : NeverWraps is)
    (hordered : StackOrdered is) : .retired ∉ f.cells := by
  induction is using List.reverseRecOn generalizing f with
  | nil =>
    obtain rfl := Except.ok.inj h
    exact List.not_mem_nil
  | append_singleton is i ih =>
    obtain ⟨g, hg, hi⟩ := attemptAll_append_singleton.1 h
    have hprefix := List.prefix_append is [i]
    have hinit := hwraps.of_isPrefix hprefix
    have hnone := ih hg hinit (hordered.of_isPrefix hprefix)
    have htracks := tracks_of_attemptAll hg hinit
    obtain rfl := eq_after_of_attemptAll hg
    rcases attempt_cases hi with ⟨t, rfl, ht, rfl⟩ | ⟨t, r, rfl, ht, rfl⟩ | ⟨rfl, -, -⟩
    · simpa [allocated] using hnone
    · have hlatest := hordered is.length t List.getElem?_concat_length
      rw [List.take_left] at hlatest
      apply retired_not_mem_released hnone
      exact htracks.height_eq (height_after hinit) hlatest (cell?_eq_some_iff.2 ht)
    · exact hnone

theorem Tracks.length_eq {live : List Temp} (h : Tracks live f) (hnone : .retired ∉ f.cells) :
    f.cells.length = live.length := by
  rw [← h.count, eq_comm, List.count_eq_length]
  intro c hc
  cases c with
  | held => rfl
  | retired => exact absurd hc hnone

theorem highWater_le_allocations (hwraps : NeverWraps is) :
    (after is).highWater.toNat ≤ allocations is := by
  obtain ⟨js, ⟨rest, rfl⟩, hsize⟩ := (isGreatest_highWater hwraps).1
  have hle := length_after_le js
  rw [allocations_append]
  omega

/-- There are never more temporaries live than the high-water mark says. -/
theorem highWater_mem_upperBounds (h : attemptAll is = .ok f) (hwraps : NeverWraps is) :
    f.highWater.toNat ∈ upperBounds (liveCounts is) := by
  rintro _ ⟨js, hjs, rfl⟩
  obtain ⟨g, hg⟩ := exists_attemptAll_of_isPrefix h hjs
  have hle := (tracks_of_attemptAll hg (hwraps.of_isPrefix hjs)).length_le
  obtain rfl := eq_after_of_attemptAll h
  obtain rfl := eq_after_of_attemptAll hg
  exact Nat.le_trans hle ((isGreatest_highWater hwraps).2 ⟨js, hjs, rfl⟩)

theorem liveCounts_eq_sizes (h : attemptAll is = .ok f) (hwraps : NeverWraps is)
    (hordered : StackOrdered is) : liveCounts is = sizes is := by
  have hlength {js : List Instr} (hjs : js <+: is) :
      (liveAfter js).length = (after js).cells.length := by
    obtain ⟨g, hg⟩ := exists_attemptAll_of_isPrefix h hjs
    have hinit := hwraps.of_isPrefix hjs
    have hnone := retired_not_mem_cells hg hinit (hordered.of_isPrefix hjs)
    rw [← eq_after_of_attemptAll hg, (tracks_of_attemptAll hg hinit).length_eq hnone]
  ext count
  simp only [liveCounts, sizes, Set.mem_ofPred_eq]
  apply exists_congr
  intro js
  apply and_congr_right
  intro hjs
  rw [hlength hjs]

/-- The counts of a frame at every point of calls that all succeed. The live temporaries are at most
as many as the cells, these are at most as many as the high-water mark says, and that is at most the
number of allocations. The high-water mark is at least the largest number of temporaries that were
live at a time. If only the latest one is ever released, no cell is retired, there are as many cells
as live temporaries, and the high-water mark is that largest number. -/
theorem counts_of_attemptAll (h : attemptAll is = .ok f) (hallocs : allocations is < UInt32.size) :
    (∀ js, js <+: is → ∃ g, attemptAll js = .ok g ∧
      (∀ t, (∃ u ∈ liveAfter js, u.id = t.id) ↔ ∃ r, g.resolve t = .ok r) ∧
      ((liveAfter js).map Temp.id).Nodup ∧
      (liveAfter js).length ≤ g.nextFree.toNat ∧ g.nextFree ≤ g.highWater ∧
      g.highWater.toNat ≤ allocations js ∧
      ∃ peak, IsGreatest (liveCounts js) peak ∧ peak ≤ g.highWater.toNat) ∧
    (StackOrdered is → ∀ js, js <+: is → ∃ g, attemptAll js = .ok g ∧
      .retired ∉ g.cells ∧ g.nextFree.toNat = (liveAfter js).length ∧
      IsGreatest (liveCounts js) g.highWater.toNat) := by
  have hwraps := neverWraps_of_allocations hallocs
  constructor
  · intro js hjs
    obtain ⟨g, hg⟩ := exists_attemptAll_of_isPrefix h hjs
    have hinit := hwraps.of_isPrefix hjs
    have htracks := tracks_of_attemptAll hg hinit
    have hbound := highWater_mem_upperBounds hg hinit
    obtain rfl := eq_after_of_attemptAll hg
    have hnext := toNat_nextFree (hinit js List.prefix_rfl)
    refine ⟨_, hg, ?_, htracks.nodup, ?_, ?_, highWater_le_allocations hinit, ?_⟩
    · simpa only [resolve_eq_ok_iff] using htracks.mem_iff
    · rw [hnext]
      exact htracks.length_le
    · rw [UInt32.le_iff_toNat_le, hnext]
      exact (coherent_after hinit).length_le
    · have hzero : 0 ∈ liveCounts js := ⟨[], List.nil_prefix, rfl⟩
      obtain ⟨peak, hpeak⟩ := BddAbove.exists_isGreatest_of_nonempty ⟨_, hbound⟩ ⟨0, hzero⟩
      exact ⟨peak, hpeak, hbound hpeak.1⟩
  · intro hordered js hjs
    obtain ⟨g, hg⟩ := exists_attemptAll_of_isPrefix h hjs
    have hinit := hwraps.of_isPrefix hjs
    have hlatest := hordered.of_isPrefix hjs
    have hnone := retired_not_mem_cells hg hinit hlatest
    have htracks := tracks_of_attemptAll hg hinit
    have hcounts := liveCounts_eq_sizes hg hinit hlatest
    obtain rfl := eq_after_of_attemptAll hg
    refine ⟨_, hg, hnone, ?_, ?_⟩
    · rw [toNat_nextFree (hinit js List.prefix_rfl)]
      exact htracks.length_eq hnone
    · rw [hcounts]
      exact isGreatest_highWater hinit

/-- Five temporaries, of which at most three are live at a time. Each one is released before those
allocated earlier. -/
def nested : List Instr :=
  let t (id : UInt64) : Temp := ⟨id, "t"⟩
  [.alloc (t 0), .alloc (t 1), .release (t 1), .alloc (t 2), .alloc (t 3), .release (t 3),
    .release (t 2), .alloc (t 4)]

theorem stackOrdered_nested : StackOrdered nested := by
  intro k t hk
  rcases k with _ | _ | _ | _ | _ | _ | _ | _ | k <;> cases hk <;> rfl

theorem counts_of_attemptAll_nested :
    ∃ f, attemptAll nested = .ok f ∧ allocations nested < UInt32.size ∧ StackOrdered nested ∧
      .retired ∉ f.cells ∧ f.nextFree = 2 ∧ IsGreatest (liveCounts nested) 3 := by
  have hallocs : allocations nested < UInt32.size := by decide
  obtain ⟨f, hf, hnext, hwater⟩ :
      ∃ f, attemptAll nested = .ok f ∧ f.nextFree = 2 ∧ f.highWater = 3 := ⟨_, rfl, rfl, rfl⟩
  obtain ⟨g, hg, hnone, -, hpeak⟩ :=
    (counts_of_attemptAll hf hallocs).2 stackOrdered_nested nested List.prefix_rfl
  obtain rfl := Except.ok.inj (hf.symm.trans hg)
  rw [hwater] at hpeak
  exact ⟨f, hf, hallocs, stackOrdered_nested, hnone, hnext, hpeak⟩

end Frame

end Assembler
