import Mathlib.Data.List.Induction
import Assembler.Proofs.Operands

/-!
# One frame on top of another

Instructions that start with cells allocated, for temporaries that they do not name, treat those
cells as the bottom of their stack: the frame they leave is the one they would leave on their own,
on top of the one they found (`Frame.stacked_after`). So their temporaries have the same frame
indices, counted from there (`Frame.Stacked.index?_temp`).
-/

namespace Assembler

/-- The binding for a stack whose bottom is at cell number `base`. -/
def Binding.raise (base : UInt32) : Binding → Binding
  | live r => live (base + r)
  | released => released

namespace Frame

/-- `h` is the frame `g` on top of the frame `f`, as far as temporaries go that `f` does not
know. -/
structure Stacked (f g h : Frame) : Prop where
  cells : h.cells = f.cells ++ g.cells
  binding? : ∀ {t}, f.binding? t = none →
    h.binding? t = (g.binding? t).map (Binding.raise f.nextFree)
  highWater : h.highWater.toNat = max f.highWater.toNat (f.cells.length + g.highWater.toNat)

namespace Stacked

variable {f g h : Frame} {t : Temp}

theorem length_cells (hs : Stacked f g h) : h.cells.length = f.cells.length + g.cells.length := by
  rw [hs.cells, List.length_append]

theorem nextFree (hs : Stacked f g h) : h.nextFree = f.nextFree + g.nextFree := by
  rw [Frame.nextFree, hs.length_cells]
  exact UInt32.ofNat_add _ _

theorem cell? (hs : Stacked f g h) (ht : f.binding? t = none) :
    h.cell? t = (g.cell? t).map (f.nextFree + ·) := by
  rw [Frame.cell?, hs.binding? ht, Frame.cell?]
  cases g.binding? t with
  | none => rfl
  | some b => cases b <;> rfl

/-- A frame with nothing on top. -/
theorem empty (hf : f.cells.length ≤ f.highWater.toNat) : Stacked f {} f := by
  refine ⟨(List.append_nil _).symm, fun ht => ht, ?_⟩
  exact (Nat.max_eq_left hf).symm

theorem allocated (hs : Stacked f g h) (t : Temp) (hlt : h.cells.length + 1 < UInt32.size) :
    Stacked f (g.allocated t) (h.allocated t) := by
  have hlength := hs.length_cells
  refine ⟨?_, fun {u} hu => ?_, ?_⟩
  · simp [Frame.allocated, hs.cells]
  · rw [binding?_allocated, binding?_allocated, hs.nextFree, hs.binding? hu]
    split <;> rfl
  · have hg := toNat_nextFree_add_one (f := g) (by omega)
    have hh := toNat_nextFree_add_one hlt
    simp only [Frame.allocated, toNat_max, hg, hh, hs.highWater]
    omega

theorem released (hs : Stacked f g h) (hf : reclaim f.cells = f.cells) {r : UInt32}
    (hr : f.cells.length + r.toNat < UInt32.size) (hg : g.binding? t = some (.live r))
    (hh : h.binding? t = some (.live (f.nextFree + r))) :
    Stacked f (g.released t r) (h.released t (f.nextFree + r)) := by
  refine ⟨?_, fun {u} hu => ?_, hs.highWater⟩
  · -- what lies below ends in a cell that is held, so nothing there is reclaimed
    simp only [Frame.released, toNat_nextFree_add hr, hs.cells]
    rw [List.set_append_right _ _ (Nat.le_add_right _ _), Nat.add_sub_cancel_left, reclaim_append]
    split
    next hempty => rw [hf, hempty, List.append_nil]
    next => rfl
  · rw [binding?_released _ _ _ hg, binding?_released _ _ _ hh, hs.binding? hu]
    split <;> rfl

/-- An instruction acts on the frame on top. -/
theorem follow {i : Instr} (hs : Stacked f g h) (hf : reclaim f.cells = f.cells) (hg : g.Coherent)
    (hlt : h.cells.length < UInt32.size) (hlt' : (h.follow i).cells.length < UInt32.size)
    (hi : ∀ t, i.Allocs t ∨ i.Releases t → f.binding? t = none) :
    Stacked f (g.follow i) (h.follow i) := by
  rcases g.follow_cases i with ⟨heq, hbound, hdead⟩ | ⟨t, rfl, ht, heq⟩ | ⟨t, r, rfl, ht, heq⟩
  · -- the instruction does nothing to the frame on top, nor to the whole
    have hsame : h.follow i = h := by
      rcases h.follow_cases i with ⟨heq', -⟩ | ⟨t, rfl, ht, -⟩ | ⟨t, r, rfl, ht, -⟩
      · exact heq'
      · rw [hs.binding? (hi t (Or.inl rfl)), Option.map_eq_none_iff] at ht
        exact absurd ht (hbound t rfl)
      · rw [hs.binding? (hi t (Or.inr rfl)), Option.map_eq_some_iff] at ht
        obtain ⟨b, hb, hraise⟩ := ht
        cases b with
        | live r' => exact absurd hb (hdead t r' rfl)
        | released => cases hraise
    rwa [heq, hsame]
  · have hnone : h.binding? t = none := by rw [hs.binding? (hi t (Or.inl rfl)), ht]; rfl
    have heq' := follow_alloc hnone
    rw [heq'] at hlt' ⊢
    rw [heq]
    exact hs.allocated t (by simpa [Frame.allocated] using hlt')
  · have hlive : h.binding? t = some (.live (f.nextFree + r)) := by
      rw [hs.binding? (hi t (Or.inr rfl)), ht]
      rfl
    have hr := hg.lt_length ht
    have hlength := hs.length_cells
    rw [heq, follow_release hlive]
    exact hs.released hf (by omega) ht hlive

/-- The temporaries of the frame on top have the same indices, counted from its bottom. -/
theorem index?_temp (hs : Stacked f g h) (hg : g.Coherent) (hlt : h.cells.length < UInt32.size)
    (n : UInt32) (ht : f.binding? t = none) :
    (Var.temp t).index? n h = ((Var.temp t).index? n g).map (· + f.cells.length) := by
  rw [Var.index?, Var.index?, hs.cell? ht]
  cases hr : g.cell? t with
  | none => rfl
  | some r =>
    have hrlt := hg.lt_length (cell?_eq_some_iff.1 hr)
    have hlength := hs.length_cells
    have hindex := toNat_nextFree_add (f := f) (r := r) (by omega)
    simp only [Option.map_some, hindex]
    congr 1
    omega

end Stacked

/-- Instructions after others leave the frame that they would leave on their own, on top of the one
that they find. -/
theorem stacked_after {is js : List Instr} (hwraps : NeverWraps (is ++ js))
    (hwraps' : NeverWraps js)
    (hapart : ∀ j ∈ js, ∀ t, j.Allocs t ∨ j.Releases t → (after is).binding? t = none) :
    Stacked (after is) (after js) (after (is ++ js)) := by
  induction js using List.reverseRecOn with
  | nil =>
    rw [List.append_nil]
    exact .empty (coherent_after (hwraps.of_isPrefix (List.prefix_append _ _))).length_le
  | append_singleton js j ih =>
    have hinit : is ++ js <+: is ++ (js ++ [j]) := by
      rw [← List.append_assoc]
      exact List.prefix_append _ _
    have hinit' : js <+: js ++ [j] := List.prefix_append _ _
    have hs := ih (hwraps.of_isPrefix hinit) (hwraps'.of_isPrefix hinit') fun j' hj' =>
      hapart j' (List.mem_append_left _ hj')
    have hwhole := hwraps _ List.prefix_rfl
    rw [← List.append_assoc, after_append_singleton] at hwhole ⊢
    rw [after_append_singleton]
    exact hs.follow (reclaim_cells_after is) (coherent_after (hwraps'.of_isPrefix hinit'))
      (hwraps _ hinit) hwhole (hapart j (List.mem_append_right _ List.mem_cons_self))

end Frame

end Assembler
