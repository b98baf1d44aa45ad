import Mathlib.Data.List.Basic
import Mathlib.Data.List.Induction
import Assembler.Frame
import Assembler.Instr

/-!
# Frames along a program

The frame after a list of instructions depends on its allocations and releases only (`Frame.after`).
A temporary that is bound keeps its cell until it is released, and is never bound again
(`Frame.cell?_eq_of_le`). As long as the numbers of cells do not wrap around, the frame is coherent:
each bound temporary holds a cell of its own, and the high-water mark covers all cells
(`Frame.coherent_after`). They do not if fewer than `UInt32.size` cells are ever allocated.
-/

namespace Assembler

theorem toNat_toUInt32 {k : Nat} (h : k < UInt32.size) : k.toUInt32.toNat = k := by
  rw [Nat.toUInt32, UInt32.toNat_ofNat_of_lt' h]

theorem toNat_max (a b : UInt32) : (max a b).toNat = max a.toNat b.toNat := by
  show (if a ≤ b then b else a).toNat = _
  split
  next h => rw [Nat.max_eq_right (UInt32.le_iff_toNat_le.1 h)]
  next h =>
    rw [UInt32.le_iff_toNat_le] at h
    rw [Nat.max_eq_left (by omega)]

/-! ## Reclaiming cells -/

theorem reclaim_isPrefix (cells : List Cell) : reclaim cells <+: cells := by
  induction cells with
  | nil => exact List.prefix_rfl
  | cons c cells ih =>
    unfold reclaim
    split
    · exact List.nil_prefix
    · exact (List.prefix_cons_inj _).2 ih

/-- A held cell is not reclaimed. -/
theorem getElem?_reclaim_held {cells : List Cell} {i : Nat} (h : cells[i]? = some .held) :
    (reclaim cells)[i]? = some .held := by
  induction cells generalizing i with
  | nil => cases h
  | cons c cells ih =>
    unfold reclaim
    split
    next hnil =>
      -- everything above is reclaimed, so the held cell would be this one
      cases i with
      | zero => cases h
      | succ i =>
        have := ih h
        rw [hnil] at this
        cases this
    next =>
      cases i with
      | zero => exact h
      | succ i => exact ih h

theorem reclaim_cons (c : Cell) (cells : List Cell) :
    reclaim (c :: cells) =
      if c = .retired ∧ reclaim cells = [] then [] else c :: reclaim cells := by
  cases c <;> cases h : reclaim cells <;> simp [reclaim, h]

/-- Cells are reclaimed below others only if all of those are. -/
theorem reclaim_append (cs ds : List Cell) :
    reclaim (cs ++ ds) = if reclaim ds = [] then reclaim cs else cs ++ reclaim ds := by
  induction cs with
  | nil =>
    split
    next h => exact h
    next => rfl
  | cons c cs ih =>
    rw [List.cons_append, reclaim_cons, ih]
    by_cases h : reclaim ds = []
    · rw [if_pos h, if_pos h, reclaim_cons]
    · rw [if_neg h, if_neg h, if_neg]
      · rfl
      · exact fun hempty => h (List.append_eq_nil_iff.1 hempty.2).2

theorem reclaim_reclaim (cells : List Cell) : reclaim (reclaim cells) = reclaim cells := by
  induction cells with
  | nil => rfl
  | cons c cells ih =>
    rw [reclaim_cons]
    split
    next => rfl
    next h => rw [reclaim_cons, ih, if_neg h]

namespace Frame

variable (f : Frame) (t u : Temp)

/-- The cell that a temporary holds. -/
def cell? : Option UInt32 :=
  match f.binding? t with
  | some (.live index) => some index
  | _ => none

variable {f t} in
theorem cell?_eq_some_iff {r : UInt32} :
    f.cell? t = some r ↔ f.binding? t = some (.live r) := by
  unfold cell?
  split <;> simp_all

variable {f t} in
theorem resolve_eq_ok_iff {r : UInt32} : f.resolve t = .ok r ↔ f.cell? t = some r := by
  rw [cell?_eq_some_iff, resolve]
  split <;> simp_all

theorem binding?_congr {t u : Temp} (h : t.id = u.id) : f.binding? t = f.binding? u := by
  rw [binding?, h, binding?]

/-! ## Allocation and release -/

/-- The frame in which a temporary has been given the cell on top. -/
def allocated : Frame where
  bindings := (t.id, .live f.nextFree) :: f.bindings
  cells := f.cells ++ [.held]
  highWater := max f.highWater (f.nextFree + 1)

/-- The frame in which a temporary has given back the cell number `r`. -/
def released (r : UInt32) : Frame where
  bindings := f.bindings.map fun b => if b.1 = t.id then (b.1, .released) else b
  cells := reclaim (f.cells.set r.toNat .retired)
  highWater := f.highWater

/-- A release adds no cells. -/
theorem length_cells_released_le (r : UInt32) :
    (f.released t r).cells.length ≤ f.cells.length := by
  have hle := (reclaim_isPrefix (f.cells.set r.toNat .retired)).length_le
  rwa [List.length_set] at hle

section Calls

variable {f g : Frame} {t : Temp} {r : UInt32} {fault : Fault}

theorem alloc_of_none (h : f.binding? t = none) :
    f.alloc t = (.ok f.nextFree, f.allocated t) := by
  rw [alloc, h]
  rfl

theorem alloc_of_ne_none (h : f.binding? t ≠ none) :
    f.alloc t = (.error (.slotAllocatedTwice t.text), f) := by
  obtain ⟨b, hb⟩ := Option.ne_none_iff_exists'.1 h
  rw [alloc, hb]

theorem release_of_live (h : f.binding? t = some (.live r)) :
    f.release t = (.ok r, f.released t r) := by
  rw [release, h]
  rfl

theorem release_of_released (h : f.binding? t = some .released) :
    f.release t = (.error (.slotReleased t.text), f) := by
  rw [release, h]

theorem release_of_none (h : f.binding? t = none) :
    f.release t = (.error (.releaseOfUnallocated t.text), f) := by
  rw [release, h]

theorem alloc_eq_ok_iff :
    f.alloc t = (.ok r, g) ↔ f.binding? t = none ∧ g = f.allocated t ∧ r = f.nextFree := by
  by_cases h : f.binding? t = none
  · simp [alloc_of_none h, h, eq_comm, and_comm]
  · simp [alloc_of_ne_none h, h]

theorem release_eq_ok_iff :
    f.release t = (.ok r, g) ↔ f.binding? t = some (.live r) ∧ g = f.released t r := by
  cases h : f.binding? t with
  | none => simp [release_of_none h]
  | some b =>
    cases b with
    | released => simp [release_of_released h]
    | live r' =>
      simp only [release_of_live h, Prod.mk.injEq, Except.ok.injEq, Option.some.injEq,
        Binding.live.injEq]
      constructor
      · rintro ⟨rfl, rfl⟩
        exact ⟨rfl, rfl⟩
      · rintro ⟨rfl, rfl⟩
        exact ⟨rfl, rfl⟩

/-- An allocation that fails leaves the frame as it was. -/
theorem alloc_eq_error (h : f.alloc t = (.error fault, g)) : g = f := by
  by_cases hnone : f.binding? t = none
  · rw [alloc_of_none hnone] at h
    cases h
  · rw [alloc_of_ne_none hnone] at h
    exact (congrArg Prod.snd h).symm

/-- A release that fails leaves the frame as it was. -/
theorem release_eq_error (h : f.release t = (.error fault, g)) : g = f := by
  cases hbinding : f.binding? t with
  | none =>
    rw [release_of_none hbinding] at h
    exact (congrArg Prod.snd h).symm
  | some b =>
    cases b with
    | released =>
      rw [release_of_released hbinding] at h
      exact (congrArg Prod.snd h).symm
    | live r =>
      rw [release_of_live hbinding] at h
      cases h

/-- The frame after a call, if the call succeeds. -/
def succeeded (call : Except Fault UInt32 × Frame) : Except Fault Frame :=
  call.1.map fun _ => call.2

theorem succeeded_eq_ok_iff {call : Except Fault UInt32 × Frame} :
    succeeded call = .ok g ↔ ∃ r, call = (.ok r, g) := by
  obtain ⟨outcome, frame⟩ := call
  cases outcome <;> simp [succeeded, Except.map]

end Calls

theorem binding?_allocated :
    (f.allocated t).binding? u =
      if u.id = t.id then some (.live f.nextFree) else f.binding? u := by
  simp only [binding?, allocated, List.lookup_cons]
  by_cases h : u.id = t.id
  · simp [h]
  · simp [h, beq_false_of_ne h]

theorem lookup_map_released (bindings : List (UInt64 × Binding)) (id key : UInt64) :
    (bindings.map fun b => if b.1 = id then (b.1, Binding.released) else b).lookup key =
      (bindings.lookup key).map fun b => if key = id then .released else b := by
  induction bindings with
  | nil => rfl
  | cons b bindings ih =>
    obtain ⟨bound, binding⟩ := b
    have hfst : (if bound = id then (bound, Binding.released) else (bound, binding)) =
        (bound, if bound = id then .released else binding) := by
      split <;> rfl
    rw [List.map_cons, hfst, List.lookup_cons, List.lookup_cons, ih]
    by_cases hkey : key = bound
    · subst hkey
      simp
    · simp [beq_false_of_ne hkey]

theorem binding?_released {r : UInt32} (h : f.binding? t = some (.live r)) :
    (f.released t r).binding? u = if u.id = t.id then some .released else f.binding? u := by
  simp only [binding?, released, lookup_map_released] at h ⊢
  by_cases hu : u.id = t.id
  · simp [hu, h]
  · simp [hu]

end Frame

/-! ## Following a program -/

namespace Instr

/-- The instruction allocates a temporary. -/
def Allocs (t : Temp) : Instr → Prop
  | alloc u => u.id = t.id
  | _ => False

/-- The instruction releases a temporary. -/
def Releases (t : Temp) : Instr → Prop
  | release u => u.id = t.id
  | _ => False

/-- The instruction is an allocation. -/
def isAlloc : Instr → Bool
  | alloc _ => true
  | _ => false

end Instr

/-- The number of allocations. -/
def allocations (is : List Instr) : Nat :=
  is.countP Instr.isAlloc

theorem allocations_append (is js : List Instr) :
    allocations (is ++ js) = allocations is + allocations js :=
  List.countP_append

namespace Frame

/-- The frame after an instruction, whether its allocation or release succeeds or fails. -/
def follow (f : Frame) : Instr → Frame
  | .alloc t => (f.alloc t).2
  | .release t => (f.release t).2
  | _ => f

/-- The frame after instructions that start with no cell allocated. -/
def after (is : List Instr) : Frame :=
  is.foldl follow {}

@[simp] theorem after_nil : after [] = {} := rfl

@[simp] theorem after_append_singleton (is : List Instr) (i : Instr) :
    after (is ++ [i]) = (after is).follow i := by
  simp [after]

theorem after_append (is js : List Instr) : after (is ++ js) = js.foldl follow (after is) := by
  rw [after, List.foldl_append, after]

theorem follow_alloc {f : Frame} {t : Temp} (h : f.binding? t = none) :
    f.follow (.alloc t) = f.allocated t := by
  rw [follow, alloc_of_none h]

theorem follow_release {f : Frame} {t : Temp} {r : UInt32} (h : f.binding? t = some (.live r)) :
    f.follow (.release t) = f.released t r := by
  rw [follow, release_of_live h]

/-- An instruction leaves the frame as it is, allocates a new temporary, or releases a live one. -/
theorem follow_cases (f : Frame) (i : Instr) :
    (f.follow i = f ∧ (∀ t, i.Allocs t → f.binding? t ≠ none) ∧
      ∀ t r, i.Releases t → f.binding? t ≠ some (.live r)) ∨
    (∃ t, i = .alloc t ∧ f.binding? t = none ∧ f.follow i = f.allocated t) ∨
    ∃ t r, i = .release t ∧ f.binding? t = some (.live r) ∧ f.follow i = f.released t r := by
  cases i with
  | alloc t =>
    by_cases hnone : f.binding? t = none
    · exact Or.inr (Or.inl ⟨t, rfl, hnone, follow_alloc hnone⟩)
    · refine Or.inl ⟨by rw [follow, alloc_of_ne_none hnone], fun u hu => ?_, nofun⟩
      rwa [← f.binding?_congr hu]
  | release t =>
    cases hbinding : f.binding? t with
    | none =>
      refine Or.inl ⟨by rw [follow, release_of_none hbinding], nofun, fun u r hu => ?_⟩
      simp [← f.binding?_congr hu, hbinding]
    | some b =>
      cases b with
      | released =>
        refine Or.inl ⟨by rw [follow, release_of_released hbinding], nofun, fun u r hu => ?_⟩
        simp [← f.binding?_congr hu, hbinding]
      | live r => exact Or.inr (Or.inr ⟨t, r, rfl, hbinding, follow_release hbinding⟩)
  | _ => exact Or.inl ⟨rfl, nofun, nofun⟩

theorem binding?_follow_of_released {f : Frame} {t : Temp} (h : f.binding? t = some .released)
    (i : Instr) : (f.follow i).binding? t = some .released := by
  rcases f.follow_cases i with ⟨heq, -⟩ | ⟨u, -, hu, heq⟩ | ⟨u, r, -, hu, heq⟩
  · rwa [heq]
  · rw [heq, binding?_allocated, if_neg, h]
    intro hid
    rw [binding?, ← hid] at hu
    rw [binding?, hu] at h
    cases h
  · rw [heq, binding?_released _ _ _ hu, h, ite_self]

theorem binding?_follow_of_live {f : Frame} {t : Temp} {r : UInt32}
    (h : f.binding? t = some (.live r)) (i : Instr) :
    (f.follow i).binding? t = some (.live r) ∨ (f.follow i).binding? t = some .released := by
  rcases f.follow_cases i with ⟨heq, -⟩ | ⟨u, -, hu, heq⟩ | ⟨u, r', -, hu, heq⟩
  · exact Or.inl (by rwa [heq])
  · refine Or.inl ?_
    rw [heq, binding?_allocated, if_neg, h]
    intro hid
    rw [binding?, ← hid] at hu
    rw [binding?, hu] at h
    cases h
  · rw [heq, binding?_released _ _ _ hu]
    by_cases hid : t.id = u.id
    · exact Or.inr (if_pos hid)
    · exact Or.inl (by rw [if_neg hid, h])

theorem binding?_foldl_of_released {f : Frame} {t : Temp} (h : f.binding? t = some .released)
    (is : List Instr) : (is.foldl follow f).binding? t = some .released := by
  induction is generalizing f with
  | nil => exact h
  | cons i is ih => exact ih (binding?_follow_of_released h i)

/-- A live temporary keeps its cell until it is released for good. -/
theorem binding?_foldl_of_live {f : Frame} {t : Temp} {r : UInt32}
    (h : f.binding? t = some (.live r)) (is : List Instr) :
    (is.foldl follow f).binding? t = some (.live r) ∨
      (is.foldl follow f).binding? t = some .released := by
  induction is generalizing f with
  | nil => exact Or.inl h
  | cons i is ih =>
    rcases binding?_follow_of_live h i with h | h
    · exact ih h
    · exact Or.inr (binding?_foldl_of_released h is)

theorem after_take_of_le (is : List Instr) {k l : Nat} (h : k ≤ l) :
    after (is.take l) = ((is.drop k).take (l - k)).foldl follow (after (is.take k)) := by
  have : is.take l = is.take k ++ (is.drop k).take (l - k) := by
    rw [← List.take_add]
    congr 1
    omega
  rw [after, this, List.foldl_append]
  rfl

/-- A temporary that is live at two places holds one cell at all places between them. -/
theorem cell?_eq_of_le {is : List Instr} {t : Temp} {i j k : Nat} {r r' : UInt32}
    (hi : (after (is.take i)).cell? t = some r) (hj : (after (is.take j)).cell? t = some r')
    (hik : i ≤ k) (hkj : k ≤ j) : (after (is.take k)).cell? t = some r := by
  rw [cell?_eq_some_iff] at hi hj ⊢
  rcases binding?_foldl_of_live hi ((is.drop i).take (k - i)) with h | h
  · rwa [← after_take_of_le is hik] at h
  · -- a release in between would be for good
    rw [← after_take_of_le is hik] at h
    have := binding?_foldl_of_released h ((is.drop k).take (j - k))
    rw [← after_take_of_le is hkj, hj] at this
    cases this

/-- The high-water mark never sinks. -/
theorem highWater_le_follow (f : Frame) (i : Instr) :
    f.highWater.toNat ≤ (f.follow i).highWater.toNat := by
  rcases f.follow_cases i with ⟨heq, -⟩ | ⟨t, -, -, heq⟩ | ⟨t, r, -, -, heq⟩
  · exact Nat.le_of_eq (congrArg (fun g => g.highWater.toNat) heq).symm
  · rw [heq, allocated, toNat_max]
    exact Nat.le_max_left _ _
  · exact Nat.le_of_eq (congrArg (fun g => g.highWater.toNat) heq).symm

/-- The cell on top is never a retired one. -/
theorem reclaim_cells_after (is : List Instr) : reclaim (after is).cells = (after is).cells := by
  induction is using List.reverseRecOn with
  | nil => rfl
  | append_singleton is i ih =>
    rw [after_append_singleton]
    rcases (after is).follow_cases i with ⟨heq, -⟩ | ⟨t, -, -, heq⟩ | ⟨t, r, -, -, heq⟩
    · rwa [heq]
    · rw [heq, allocated, reclaim_append]
      rfl
    · rw [heq, released, reclaim_reclaim]

/-! ## Coherent frames -/

/-- Every live temporary holds a cell, which no other one holds, and the high-water mark is at least
the number of cells. -/
structure Coherent (f : Frame) : Prop where
  held : ∀ {t r}, f.binding? t = some (.live r) → f.cells[r.toNat]? = some .held
  injective : ∀ {t u r}, f.binding? t = some (.live r) → f.binding? u = some (.live r) → t.id = u.id
  length_le : f.cells.length ≤ f.highWater.toNat

theorem Coherent.lt_length {f : Frame} (h : f.Coherent) {t : Temp} {r : UInt32}
    (ht : f.binding? t = some (.live r)) : r.toNat < f.cells.length :=
  (List.getElem?_eq_some_iff.1 (h.held ht)).1

/-- The number of the next cell is the number of cells, cut down to a word. -/
theorem toNat_nextFree_mod (f : Frame) : f.nextFree.toNat = f.cells.length % UInt32.size :=
  UInt32.toNat_ofNat'

theorem toNat_nextFree {f : Frame} (h : f.cells.length < UInt32.size) :
    f.nextFree.toNat = f.cells.length := by
  rw [toNat_nextFree_mod, Nat.mod_eq_of_lt h]

theorem toNat_nextFree_add {f : Frame} {r : UInt32} (h : f.cells.length + r.toNat < UInt32.size) :
    (f.nextFree + r).toNat = f.cells.length + r.toNat := by
  rw [UInt32.toNat_add, toNat_nextFree (Nat.lt_of_le_of_lt (Nat.le_add_right _ _) h)]
  exact Nat.mod_eq_of_lt h

theorem toNat_nextFree_add_one_mod (f : Frame) :
    (f.nextFree + 1).toNat = (f.cells.length + 1) % UInt32.size := by
  rw [UInt32.toNat_add, toNat_nextFree_mod]
  exact Nat.mod_add_mod _ UInt32.size 1

theorem toNat_nextFree_add_one {f : Frame} (h : f.cells.length + 1 < UInt32.size) :
    (f.nextFree + 1).toNat = f.cells.length + 1 :=
  toNat_nextFree_add (r := 1) h

theorem Coherent.allocated {f : Frame} (h : f.Coherent) (t : Temp)
    (hlt : f.cells.length + 1 < UInt32.size) : (f.allocated t).Coherent := by
  have hnext := toNat_nextFree (Nat.lt_of_succ_lt hlt)
  have hfresh {u : Temp} (hu : f.binding? u = some (.live f.nextFree)) : False := by
    have := h.lt_length hu
    omega
  refine ⟨fun {u r} hu => ?_, fun {u v r} hu hv => ?_, ?_⟩
  · rw [binding?_allocated] at hu
    split at hu
    · cases hu
      simp [Frame.allocated, hnext]
    · rw [Frame.allocated, List.getElem?_append_left (h.lt_length hu)]
      exact h.held hu
  · rw [binding?_allocated] at hu hv
    split at hu <;> split at hv
    · simp_all
    · cases hu
      exact (hfresh hv).elim
    · cases hv
      exact (hfresh hu).elim
    · exact h.injective hu hv
  · simp only [Frame.allocated, List.length_append, List.length_singleton, toNat_max,
      toNat_nextFree_add_one hlt]
    exact Nat.le_max_right _ _

theorem Coherent.released {f : Frame} (h : f.Coherent) {t : Temp} {r : UInt32}
    (ht : f.binding? t = some (.live r)) : (f.released t r).Coherent := by
  refine ⟨fun {u r'} hu => ?_, fun {u v r'} hu hv => ?_, ?_⟩
  · rw [binding?_released _ _ _ ht] at hu
    split at hu
    · cases hu
    next hid =>
      -- another temporary holds another cell, which stays held
      have hne : r.toNat ≠ r'.toNat := by
        intro heq
        obtain rfl := UInt32.toNat_inj.1 heq
        exact hid (h.injective hu ht)
      apply getElem?_reclaim_held
      rw [List.getElem?_set_ne hne]
      exact h.held hu
  · rw [binding?_released _ _ _ ht] at hu hv
    split at hu
    · cases hu
    · split at hv
      · cases hv
      · exact h.injective hu hv
  · exact Nat.le_trans (f.length_cells_released_le t r) h.length_le

theorem length_after_le (is : List Instr) : (after is).cells.length ≤ allocations is := by
  induction is using List.reverseRecOn with
  | nil => exact Nat.le_refl 0
  | append_singleton is i ih =>
    rw [after_append_singleton, allocations_append]
    rcases (after is).follow_cases i with ⟨heq, -⟩ | ⟨t, rfl, -, heq⟩ | ⟨t, r, rfl, -, heq⟩
    · rw [heq]
      exact Nat.le_trans ih (Nat.le_add_right _ _)
    · rw [heq]
      have hone : allocations [Instr.alloc t] = 1 := rfl
      simpa [Frame.allocated, hone] using ih
    · rw [heq]
      have hle := (after is).length_cells_released_le t r
      exact Nat.le_trans (Nat.le_trans hle ih) (Nat.le_add_right _ _)

/-- Nowhere in the program does the stack outgrow the numbers of its cells. -/
def NeverWraps (is : List Instr) : Prop :=
  ∀ js, js <+: is → (after js).cells.length < UInt32.size

theorem neverWraps_of_allocations {is : List Instr} (h : allocations is < UInt32.size) :
    NeverWraps is := by
  rintro js ⟨rest, rfl⟩
  have hlength := length_after_le js
  rw [allocations_append] at h
  omega

theorem NeverWraps.of_isPrefix {is js : List Instr} (h : NeverWraps is) (hjs : js <+: is) :
    NeverWraps js :=
  fun ks hks => h ks (hks.trans hjs)

theorem coherent_after {is : List Instr} (h : NeverWraps is) : (after is).Coherent := by
  induction is using List.reverseRecOn with
  | nil => exact ⟨nofun, nofun, Nat.le_refl 0⟩
  | append_singleton is i ih =>
    have ih := ih (h.of_isPrefix (List.prefix_append _ _))
    have hwhole := h _ List.prefix_rfl
    rw [after_append_singleton] at hwhole ⊢
    rcases (after is).follow_cases i with ⟨heq, -⟩ | ⟨t, rfl, -, heq⟩ | ⟨t, r, rfl, ht, heq⟩
    · rwa [heq]
    · rw [heq] at hwhole ⊢
      refine ih.allocated t ?_
      simpa [Frame.allocated] using hwhole
    · rw [heq]
      exact ih.released ht

end Frame

end Assembler
