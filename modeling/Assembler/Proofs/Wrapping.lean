import Assembler.Proofs.Finishing

/-!
# More cells than words

The number of a cell is a word, and no check keeps the number of cells below `2 ^ 32`. What becomes
of the numbers beyond is seen after nothing but allocations (`crowd`). Each temporary has a cell of
its own on the stack, but the number that it is given is its own cut down to a word, so it shares
that with others, and the high-water mark stays at the largest word (`Frame.crowded_after`).
Nothing fails on the way (`Pass.reaches_crowd`).
-/

namespace Assembler

/-- One of many temporaries. -/
def numbered (i : Nat) : Temp :=
  ⟨i.toUInt64, "t"⟩

theorem id_numbered_eq_iff {i j : Nat} (hi : i < UInt64.size) (hj : j < UInt64.size) :
    (numbered i).id = (numbered j).id ↔ i = j := by
  have hnat {m : Nat} (hm : m < UInt64.size) : (numbered m).id.toNat = m :=
    UInt64.toNat_ofNat_of_lt' hm
  rw [← UInt64.toNat_inj, hnat hi, hnat hj]

/-- The allocations of the first `k` temporaries. -/
def crowd (k : Nat) : List Instr :=
  (List.range k).map fun i => .alloc (numbered i)

theorem crowd_succ (k : Nat) : crowd (k + 1) = crowd k ++ [.alloc (numbered k)] := by
  rw [crowd, List.range_succ, List.map_append, crowd]
  rfl

theorem length_crowd (k : Nat) : (crowd k).length = k := by
  rw [crowd, List.length_map, List.length_range]

namespace Frame

variable {f : Frame} {k : Nat}

/-- The frame in which the first `k` temporaries, and no others, have been allocated. -/
structure Crowded (k : Nat) (f : Frame) : Prop where
  cells : f.cells = List.replicate k .held
  live : ∀ i, i < k → f.binding? (numbered i) = some (.live i.toUInt32)
  unbound : ∀ i, k ≤ i → i < UInt64.size → f.binding? (numbered i) = none
  highWater : f.highWater.toNat = min k (UInt32.size - 1)

theorem Crowded.length_cells (h : Crowded k f) : f.cells.length = k := by
  rw [h.cells, List.length_replicate]

theorem Crowded.nextFree (h : Crowded k f) : f.nextFree = k.toUInt32 := by
  rw [Frame.nextFree, h.length_cells]

/-- From `2 ^ 32 - 1` temporaries on, the mark is the largest word. -/
theorem Crowded.highWater_eq (h : Crowded k f) (hk : UInt32.size ≤ k + 1) :
    f.highWater = 0xffffffff := by
  rw [← UInt32.toNat_inj, h.highWater, Nat.min_eq_right (Nat.sub_le_of_le_add hk)]
  rfl

theorem Crowded.resolve (h : Crowded k f) {i : Nat} (hi : i < k) :
    f.resolve (numbered i) = .ok i.toUInt32 := by
  rw [Frame.resolve, h.live i hi]

theorem Crowded.allocated (h : Crowded k f) (hk : k < UInt64.size) :
    Crowded (k + 1) (f.allocated (numbered k)) := by
  refine ⟨?_, fun i hi => ?_, fun i hki hi => ?_, ?_⟩
  · rw [Frame.allocated, h.cells, List.replicate_succ']
  · simp only [binding?_allocated, id_numbered_eq_iff (Nat.lt_of_lt_of_le hi hk) hk, h.nextFree]
    split
    next heq => rw [heq]
    next hne => exact h.live i (by omega)
  · have hne : (numbered i).id ≠ (numbered k).id :=
      mt (id_numbered_eq_iff hi hk).1 (Nat.ne_of_gt hki)
    rw [binding?_allocated, if_neg hne]
    exact h.unbound i (Nat.le_of_succ_le hki) hi
  · -- the number after the largest word is zero, which does not raise the mark
    rw [Frame.allocated, toNat_max, toNat_nextFree_add_one_mod, h.length_cells, h.highWater]
    simp only [UInt32.size]
    omega

/-- The frame after many allocations, also where their number is too large for a word. -/
theorem crowded_after (hk : k ≤ UInt64.size) : Crowded k (after (crowd k)) := by
  induction k with
  | zero => exact ⟨rfl, fun i hi => absurd hi (Nat.not_lt_zero i), fun _ _ _ => rfl, rfl⟩
  | succ k ih =>
    have ih := ih (Nat.le_of_succ_le hk)
    rw [crowd_succ, after_append_singleton, follow_alloc (ih.unbound k (Nat.le_refl k) hk)]
    exact ih.allocated hk

end Frame

/-- Allocations are written however many they are. -/
theorem Pass.reaches_crowd {k : Nat} (hk : k ≤ UInt64.size) (n : UInt32) :
    Reaches n (crowd k) { fixedLocals := n, frame := Frame.after (crowd k) } := by
  induction k with
  | zero => exact .nil
  | succ k ih =>
    have hfree := (Frame.crowded_after (Nat.le_of_succ_le hk)).unbound k (Nat.le_refl k) hk
    rw [crowd_succ, Frame.after_append_singleton, Frame.follow_alloc hfree]
    exact (ih (Nat.le_of_succ_le hk)).snoc (step_alloc_eq_ok_iff.2 ⟨hfree, rfl, rfl⟩)

/-- Where no word has been written, the code has nothing but a frame. -/
theorem Program.lower_of_reaches_frame {p : Program} {f : Frame}
    (h : Pass.Reaches 0 p.instrs { fixedLocals := 0, frame := f }) :
    (p.lower 0).result = .ok { frameSize := f.highWater } := by
  refine lower_eq_ok_iff.2 ⟨_, h, Pass.finish_eq_ok_iff.2 ⟨[], f.highWater, rfl, ?_, rfl⟩⟩
  exact Pass.check_eq_ok_iff.2 ⟨rfl, rfl, sum?_eq_some_iff.2 (Nat.zero_add _).symm, nofun⟩

end Assembler
