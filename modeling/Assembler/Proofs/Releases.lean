import Assembler.Proofs.Finishing

/-!
# The order of releases

Temporaries that are released together may be released in any order. A cell below the top is
retired first and reclaimed later, and one on top is reclaimed at once, but what is left of the
stack at the end is the same (`reclaim_set_reclaim`). So the frame is the same too
(`Frame.releaseAll_perm`), and with it the code of a program (`Program.lower_releases_perm`).
-/

namespace Assembler

/-- It makes no difference whether cells are reclaimed before another one is retired. -/
theorem reclaim_set_reclaim (cells : List Cell) (i : Nat) :
    reclaim ((reclaim cells).set i .retired) = reclaim (cells.set i .retired) := by
  induction cells generalizing i with
  | nil => rfl
  | cons c cells ih =>
    rw [reclaim_cons c cells]
    by_cases h : c = .retired ∧ reclaim cells = []
    · -- all cells are reclaimed, also with one more of them retired
      have hrest (j : Nat) : reclaim (cells.set j .retired) = [] := by
        rw [← ih, h.2, List.set_nil]
        rfl
      rw [if_pos h, List.set_nil]
      cases i with
      | zero => rw [List.set_cons_zero, reclaim_cons, if_pos ⟨rfl, h.2⟩, reclaim]
      | succ i => rw [List.set_cons_succ, reclaim_cons, if_pos ⟨h.1, hrest i⟩, reclaim]
    · rw [if_neg h]
      cases i with
      | zero =>
        rw [List.set_cons_zero, List.set_cons_zero, reclaim_cons, reclaim_reclaim, reclaim_cons]
      | succ i => rw [List.set_cons_succ, List.set_cons_succ, reclaim_cons, ih, reclaim_cons]

namespace Frame

theorem released_comm (f : Frame) (t u : Temp) (r s : UInt32) :
    (f.released t r).released u s = (f.released u s).released t r := by
  have hcells : reclaim ((f.cells.set r.toNat .retired).set s.toNat .retired) =
      reclaim ((f.cells.set s.toNat .retired).set r.toNat .retired) := by
    by_cases h : r.toNat = s.toNat
    · rw [h]
    · rw [List.set_comm _ _ h]
  simp only [released, reclaim_set_reclaim, hcells, List.map_map]
  congr 1
  apply List.map_congr_left
  rintro ⟨id, binding⟩ _
  grind

/-- Releases temporaries one after the other. -/
def releaseAll (f : Frame) (ts : List Temp) : Except Fault Frame :=
  ts.foldlM (fun f t => succeeded (f.release t)) f

variable {f g : Frame} {t u : Temp} {ts us : List Temp}

theorem releaseAll_nil_eq_ok_iff : f.releaseAll [] = .ok g ↔ f = g :=
  pure_eq_ok_iff

theorem releaseAll_cons_eq_ok_iff :
    f.releaseAll (t :: ts) = .ok g ↔
      ∃ r, f.binding? t = some (.live r) ∧ (f.released t r).releaseAll ts = .ok g := by
  rw [releaseAll, List.foldlM_cons, bind_eq_ok_iff]
  constructor
  · rintro ⟨f', hf', hg⟩
    obtain ⟨r, hrelease⟩ := succeeded_eq_ok_iff.1 hf'
    obtain ⟨hlive, rfl⟩ := release_eq_ok_iff.1 hrelease
    exact ⟨r, hlive, hg⟩
  · rintro ⟨r, hlive, hg⟩
    exact ⟨f.released t r, succeeded_eq_ok_iff.2 ⟨r, release_of_live hlive⟩, hg⟩

/-- Two releases that succeed in one order succeed in the other. -/
theorem releaseAll_swap (h : f.releaseAll (t :: u :: ts) = .ok g) :
    f.releaseAll (u :: t :: ts) = .ok g := by
  obtain ⟨r, ht, h⟩ := releaseAll_cons_eq_ok_iff.1 h
  obtain ⟨s, hu, h⟩ := releaseAll_cons_eq_ok_iff.1 h
  -- the second is still live after the first is released, so they are two temporaries
  rw [binding?_released _ _ _ ht] at hu
  split at hu
  · cases hu
  next hid =>
    refine releaseAll_cons_eq_ok_iff.2 ⟨s, hu, releaseAll_cons_eq_ok_iff.2 ⟨r, ?_, ?_⟩⟩
    · rw [binding?_released _ _ _ hu, if_neg (Ne.symm hid), ht]
    · rwa [released_comm]

/-- The frame after releases does not depend on their order. -/
theorem releaseAll_perm (h : ts.Perm us) : f.releaseAll ts = .ok g ↔ f.releaseAll us = .ok g := by
  induction h generalizing f with
  | nil => exact Iff.rfl
  | cons t h ih => simp only [releaseAll_cons_eq_ok_iff, ih]
  | swap t u ts => exact ⟨releaseAll_swap, releaseAll_swap⟩
  | trans h h' ih ih' => exact ih.trans ih'

/-- Live temporaries can be released one after the other. -/
theorem exists_releaseAll (hnodup : (ts.map Temp.id).Nodup)
    (hlive : ∀ t ∈ ts, ∃ r, f.cell? t = some r) : ∃ g, f.releaseAll ts = .ok g := by
  induction ts generalizing f with
  | nil => exact ⟨f, releaseAll_nil_eq_ok_iff.2 rfl⟩
  | cons t ts ih =>
    rw [List.map_cons, List.nodup_cons] at hnodup
    obtain ⟨r, ht⟩ := hlive t List.mem_cons_self
    rw [cell?_eq_some_iff] at ht
    have hrest : ∀ u ∈ ts, ∃ s, (f.released t r).cell? u = some s := by
      intro u hu
      obtain ⟨s, hs⟩ := hlive u (List.mem_cons_of_mem t hu)
      refine ⟨s, ?_⟩
      have hid : u.id ≠ t.id := fun hid => hnodup.1 (hid ▸ List.mem_map_of_mem hu)
      rwa [cell?_eq_some_iff, binding?_released _ _ _ ht, if_neg hid, ← cell?_eq_some_iff]
    obtain ⟨g, hg⟩ := ih hnodup.2 hrest
    exact ⟨g, releaseAll_cons_eq_ok_iff.2 ⟨r, ht, hg⟩⟩

end Frame

/-! ## Passes over releases -/

namespace Pass

variable {n : UInt32} {is : List Instr} {q : Pass}

/-- Releases change the frame of a pass only. -/
theorem reaches_releases_iff {ts : List Temp} :
    Reaches n (is ++ ts.map .release) q ↔
      ∃ p g, Reaches n is p ∧ p.frame.releaseAll ts = .ok g ∧ q = { p with frame := g } := by
  induction ts generalizing is with
  | nil =>
    simp only [List.map_nil, List.append_nil, Frame.releaseAll_nil_eq_ok_iff]
    constructor
    · intro h
      exact ⟨q, q.frame, h, rfl, rfl⟩
    · rintro ⟨p, _, h, rfl, rfl⟩
      exact h
  | cons t ts ih =>
    rw [List.map_cons, List.append_cons, ih]
    simp only [reaches_append_singleton_iff, Frame.releaseAll_cons_eq_ok_iff]
    constructor
    · rintro ⟨p', g, ⟨p, event, hp, hstep⟩, hg, rfl⟩
      obtain ⟨r, hlive, rfl, -⟩ := step_release_eq_ok_iff.1 hstep
      exact ⟨p, g, hp, ⟨r, hlive, hg⟩, rfl⟩
    · rintro ⟨p, g, hp, ⟨r, hlive, hg⟩, rfl⟩
      exact ⟨_, g, ⟨p, _, hp, step_release_eq_ok_iff.2 ⟨r, hlive, rfl, rfl⟩⟩, hg, rfl⟩

theorem reaches_releases_perm {ts us : List Temp} (h : ts.Perm us) :
    Reaches n (is ++ ts.map .release) q ↔ Reaches n (is ++ us.map .release) q := by
  simp only [reaches_releases_iff, Frame.releaseAll_perm h]

end Pass

namespace Program

/-- Releases that follow each other may change places. A program in which they do has the same code,
and has none iff the other has none. Live temporaries, each named once, can be released in any
order, and the frame is the same. -/
theorem lower_releases_perm {ts us : List Temp} (h : ts.Perm us) :
    (∀ is js n code,
      ((Program.mk (is ++ ts.map .release ++ js)).lower n).result = .ok code ↔
        ((Program.mk (is ++ us.map .release ++ js)).lower n).result = .ok code) ∧
      ∀ f : Frame, (ts.map Temp.id).Nodup → (∀ t ∈ ts, ∃ r, f.cell? t = some r) →
        ∃ g, f.releaseAll ts = .ok g ∧ f.releaseAll us = .ok g := by
  constructor
  · intro is js n code
    have hlength : (is ++ ts.map Instr.release).length = (is ++ us.map Instr.release).length := by
      rw [List.length_append, List.length_append, List.length_map, List.length_map, h.length_eq]
    simp only [lower_eq_ok_iff, Pass.reaches_append_iff js, Pass.reaches_releases_perm h, hlength]
  · intro f hnodup hlive
    obtain ⟨g, hg⟩ := Frame.exists_releaseAll hnodup hlive
    exact ⟨g, hg, (Frame.releaseAll_perm h).1 hg⟩

/-- Allocations of three temporaries. -/
def takeThree : List Instr :=
  [.alloc ⟨0, "a"⟩, .alloc ⟨1, "b"⟩, .alloc ⟨2, "c"⟩]

/-- The last two of them. -/
def lastTwo : List Temp :=
  [⟨1, "b"⟩, ⟨2, "c"⟩]

/-- A program that releases some of the three, and then gives a cell to another temporary. -/
def handBack (ts : List Temp) : Program :=
  ⟨takeThree ++ ts.map .release ++ [.alloc ⟨3, "d"⟩, .ret ⟨1, 1⟩ (.var (.temp ⟨3, "d"⟩))]⟩

/-- Its code, if it has two fixed locals and the last two are released. The other temporary gets the
cell above that of the first. -/
def handBackCode : Code where
  words := #[6, 3]
  locs := Array.replicate 2 ⟨1, 1⟩
  frameSize := 5

theorem lower_releases_perm_handBack :
    lastTwo.Perm lastTwo.reverse ∧ ((handBack lastTwo).lower 2).result = .ok handBackCode ∧
      ((handBack lastTwo.reverse).lower 2).result = .ok handBackCode ∧
      ∃ g, (Frame.after takeThree).releaseAll lastTwo = .ok g ∧
        (Frame.after takeThree).releaseAll lastTwo.reverse = .ok g := by
  have hperm : lastTwo.Perm lastTwo.reverse := (List.reverse_perm _).symm
  have hlower : ((handBack lastTwo).lower 2).result = .ok handBackCode := by decide
  obtain ⟨hsame, hframe⟩ := lower_releases_perm hperm
  refine ⟨hperm, hlower, (hsame _ _ 2 _).1 hlower, hframe _ (by decide) ?_⟩
  simp only [lastTwo, List.forall_mem_cons]
  exact ⟨⟨1, rfl⟩, ⟨2, rfl⟩, by simp⟩

end Program

end Assembler
