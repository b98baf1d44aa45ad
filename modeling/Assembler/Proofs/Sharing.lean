import Assembler.Proofs.WellFormed

/-!
# Frame indices of temporaries

A cell of the frame passes from one temporary to another, but only after the first has been released
for good (`Pass.Reaches.exists_handover`). In lowered code, all operand words for a temporary give
one frame index, which is above those of the fixed locals, and two temporaries that are given the
same index are never live at the same time (`Program.temps_apart_of_lower`).
-/

namespace Assembler

/-! ## Operand words for a variable -/

/-- Operand word number `m` of instruction number `k` is for the variable `v`, or for the loop whose
variable it is. -/
def NamesAt (is : List Instr) (k m : Nat) (v : Var) : Prop :=
  ∃ i role, is[k]? = some i ∧ i.roles[m]? = some role ∧
    (role = .slot (.var v) ∨
      role = .loopItem ∧
        ∃ a loc collection, Matched is a k ∧ is[a]? = some (.forInit loc collection v))

/-- An instruction uses a variable iff one of its operand words is for it. -/
theorem usesAt_var_iff {is : List Instr} {k : Nat} {v : Var} :
    UsesAt is k (.var v) ↔ ∃ m, NamesAt is k m v := by
  constructor
  · rintro (⟨i, hk, hmem⟩ | ⟨a, loc, collection, item, hmatched, ha, heq⟩)
    · obtain ⟨m, hm⟩ := List.getElem?_of_mem hmem
      exact ⟨m, i, _, hk, hm, Or.inl rfl⟩
    · obtain ⟨loc', hk⟩ := hmatched.closing
      cases heq
      exact ⟨0, _, _, hk, rfl, Or.inr ⟨rfl, a, loc, collection, hmatched, ha⟩⟩
  · rintro ⟨m, i, role, hk, hm, rfl | ⟨rfl, a, loc, collection, hmatched, ha⟩⟩
    · exact Or.inl ⟨i, hk, List.mem_of_getElem? hm⟩
    · exact Or.inr ⟨a, loc, collection, v, hmatched, ha, rfl⟩

/-- The word for a variable gives its index in the frame that the instruction finds. -/
theorem Image.exists_index_operand {n : UInt32} {is : List Instr} {known : Label → UInt32 → Prop}
    {c : Code} (h : Image n is known c) {k m : Nat} {v : Var} (hv : NamesAt is k m v) :
    ∃ o : Operand, c.wordAt? (offsetOf is k + 1 + m) = some o.encode ∧ o.kind = .frame ∧
      v.index? n (Frame.after (is.take k)) = some o.index.toNat := by
  obtain ⟨i, role, hk, hm, hrole⟩ := hv
  obtain ⟨w, hw, hmeans⟩ := (h k).operand hk hm
  have hword : (Slot.var v).Word n (Frame.after (is.take k)) (poolOf is) w := by
    rcases hrole with rfl | ⟨rfl, a, loc, collection, hmatched, ha⟩
    · exact hmeans
    · obtain ⟨a', _, _, item, hmatched', ha', hitem⟩ := hmeans
      obtain rfl := hmatched.left_unique hmatched'
      rw [ha] at ha'
      cases ha'
      exact hitem
  obtain ⟨o, hplace, rfl⟩ := hword
  obtain ⟨index, hindex, heq⟩ := Option.map_eq_some_iff.1 hplace
  obtain ⟨hkind, rfl⟩ := Prod.mk.inj heq
  exact ⟨o, hw, hkind.symm, hindex⟩

namespace Program

/-- Operand word number `m` of instruction number `k` names the variable `v` by the frame index
`index`. -/
def IndexAt (p : Program) (code : Code) (k m : Nat) (v : Var) (index : UInt32) : Prop :=
  NamesAt p.instrs k m v ∧
    ∃ w o, code.wordAt? (offsetOf p.instrs k + 1 + m) = some w ∧ Operand.decode? w = some o ∧
      o.kind = .frame ∧ o.index = index

variable {p : Program} {n : UInt32} {code : Code} {k m : Nat} {v : Var} {index : UInt32}

/-- Every operand word for a variable gives an index. -/
theorem exists_indexAt_of_lower (h : (p.lower n).result = .ok code) (hv : NamesAt p.instrs k m v) :
    ∃ index, p.IndexAt code k m v index := by
  obtain ⟨o, hw, hkind, -⟩ := (image_of_lower h).exists_index_operand hv
  exact ⟨o.index, hv, _, o, hw, o.decode?_encode, hkind, rfl⟩

theorem IndexAt.usesAt (hv : p.IndexAt code k m v index) : UsesAt p.instrs k (.var v) :=
  usesAt_var_iff.2 ⟨m, hv.1⟩

/-- The index that a word gives is that of the variable in the frame. -/
theorem IndexAt.index?_eq (h : (p.lower n).result = .ok code) (hv : p.IndexAt code k m v index) :
    v.index? n (Frame.after (p.instrs.take k)) = some index.toNat := by
  obtain ⟨hm, w, o, hw, ho, -, rfl⟩ := hv
  obtain ⟨o', hw', -, hindex⟩ := (image_of_lower h).exists_index_operand hm
  rw [hw', Option.some.injEq] at hw
  rw [← hw, o'.decode?_encode, Option.some.injEq] at ho
  rw [hindex, ho]

theorem IndexAt.exists_cell? {t : Temp} (h : (p.lower n).result = .ok code)
    (ht : p.IndexAt code k m (.temp t) index) :
    ∃ r, (Frame.after (p.instrs.take k)).cell? t = some r ∧ index.toNat = n.toNat + r.toNat := by
  obtain ⟨r, hr, hsum⟩ := Option.map_eq_some_iff.1 (ht.index?_eq h)
  exact ⟨r, hr, hsum.symm⟩

theorem IndexAt.fixed_eq {l : Local} (h : (p.lower n).result = .ok code)
    (hl : p.IndexAt code k m (.fixed l) index) : index = l.index ∧ index < n := by
  have hindex := hl.index?_eq h
  simp only [Var.index?] at hindex
  split at hindex
  next hlt =>
    obtain rfl : l.index = index := UInt32.toNat_inj.1 (Option.some.inj hindex)
    exact ⟨rfl, hlt⟩
  · cases hindex

end Program

/-! ## Passing a cell on -/

theorem Instr.Releases.congr {i : Instr} {t u : Temp} (h : t.id = u.id) :
    i.Releases t ↔ i.Releases u := by
  cases i with
  | release v => rw [Releases, Releases, h]
  | _ => exact Iff.rfl

theorem Instr.Releases.opcode?_eq_none {i : Instr} {t : Temp} (h : i.Releases t) :
    i.opcode? = none := by
  cases i <;> first | rfl | cases h

theorem Instr.Allocs.opcode?_eq_none {i : Instr} {t : Temp} (h : i.Allocs t) :
    i.opcode? = none := by
  cases i <;> first | rfl | cases h

theorem Instr.Allocs.not_releases {i : Instr} {t u : Temp} (h : i.Allocs t) : ¬ i.Releases u := by
  cases i with
  | alloc v => exact id
  | _ => cases h

/-- A temporary is not used after its release. -/
theorem WellFormed.lt_of_releases {n : UInt32} {is : List Instr} (h : WellFormed n is) {k l : Nat}
    {t u : Temp} (hid : t.id = u.id) (ht : UsesAt is k (.var (.temp t)))
    (hu : At is l (Instr.Releases u)) : k < l :=
  h.use_before_release ht (hu.imp (Instr.Releases.congr hid).2)

namespace Frame

theorem cell?_congr (f : Frame) {t u : Temp} (h : t.id = u.id) : f.cell? t = f.cell? u := by
  rw [cell?, f.binding?_congr h, cell?]

/-- A temporary holds one cell wherever it is live. -/
theorem cell?_unique {is : List Instr} {t u : Temp} {k l : Nat} {r r' : UInt32} (hid : t.id = u.id)
    (hk : (after (is.take k)).cell? t = some r) (hl : (after (is.take l)).cell? u = some r') :
    r = r' := by
  rw [cell?_congr _ hid.symm] at hl
  rcases Nat.le_total k l with hle | hle
  · have hlater := cell?_eq_of_le hk hl hle (Nat.le_refl _)
    exact Option.some.inj (hlater.symm.trans hl)
  · have hlater := cell?_eq_of_le hl hk hle (Nat.le_refl _)
    exact (Option.some.inj (hlater.symm.trans hk)).symm

end Frame

/-- If a temporary holds a cell that another one holds later, then the first is released and the
other allocated in between, in this order. -/
theorem Pass.Reaches.exists_handover {n : UInt32} {is : List Instr} {p : Pass} {k l : Nat}
    {x y : Temp} {r : UInt32} (h : Reaches n is p) (hwraps : Frame.NeverWraps is)
    (hne : x.id ≠ y.id) (hkl : k ≤ l) (hx : (Frame.after (is.take k)).cell? x = some r)
    (hy : (Frame.after (is.take l)).cell? y = some r) :
    ∃ s a, k ≤ s ∧ s < a ∧ a < l ∧ At is s (Instr.Releases x) ∧ At is a (Instr.Allocs y) := by
  have hapart {m : Nat} (hx : (Frame.after (is.take m)).cell? x = some r)
      (hy : (Frame.after (is.take m)).cell? y = some r) : False := by
    have hcoherent := Frame.coherent_after (hwraps.of_isPrefix (List.take_prefix m is))
    rw [Frame.cell?_eq_some_iff] at hx hy
    exact hne (hcoherent.injective hx hy)
  -- the first temporary cannot be live any more, so it has been released
  have hreleased : (Frame.after (is.take l)).binding? x = some .released := by
    have hlater := Frame.binding?_foldl_of_live (Frame.cell?_eq_some_iff.1 hx)
      ((is.drop k).take (l - k))
    rw [← Frame.after_take_of_le is hkl] at hlater
    exact hlater.resolve_left fun hlive => hapart (Frame.cell?_eq_some_iff.2 hlive) hy
  obtain ⟨b, s, hbs, hb, hs⟩ := Frame.binding?_after_eq_released_iff.1 hreleased
  rw [at_take] at hb hs
  obtain ⟨hsl, hs⟩ := hs
  have hks : k ≤ s := (Frame.exists_cell?_iff.1 ⟨r, hx⟩).2 b s hbs hb.2 hs
  obtain ⟨⟨a, hal, ha⟩, hlive⟩ := Frame.exists_cell?_iff.1 ⟨r, hy⟩
  refine ⟨s, a, hks, ?_, hal, hs, ha⟩
  by_contra hlt
  have has : a ≠ s := by
    rintro rfl
    obtain ⟨i, hallocs, hreleases⟩ := ha.exists_and hs
    exact hallocs.not_releases hreleases
  -- where the first is released it still holds the cell, and the other one would hold it too
  obtain ⟨r₁, hxs⟩ := h.exists_cell? hs
  have hliveAt : ∀ b s', b < s' → At is b (Instr.Allocs y) → At is s' (Instr.Releases y) → s ≤ s' :=
    fun b s' hbs' hb hs' => Nat.le_trans (Nat.le_of_lt hsl) (hlive b s' hbs' hb hs')
  obtain ⟨r₂, hys⟩ := Frame.exists_cell?_iff.2 ⟨⟨a, by omega, ha⟩, hliveAt⟩
  obtain rfl := Frame.cell?_unique rfl hx hxs
  obtain rfl := Frame.cell?_unique rfl hy hys
  exact hapart hxs hys

/-! ## Lowered programs -/

namespace Program

/-- No two temporaries share a frame index while both are live. Every temporary is named by one
index at all its uses, which no fixed local has. If a later instruction names another temporary by
it, then the first has been released in between, and is not used after that. -/
theorem temps_apart_of_lower {p : Program} {n : UInt32} {code : Code}
    (h : (p.lower n).result = .ok code) (hallocs : allocations p.instrs < UInt32.size) :
    (∀ k m v, NamesAt p.instrs k m v → ∃ i, p.IndexAt code k m v i) ∧
      (∀ t u k m l m' i j, t.id = u.id → p.IndexAt code k m (.temp t) i →
        p.IndexAt code l m' (.temp u) j → i = j) ∧
      (∀ t k m i, p.IndexAt code k m (.temp t) i → n ≤ i) ∧
      (∀ l k m i, p.IndexAt code k m (.fixed l) i → i = l.index ∧ i < n) ∧
      ∀ x y k m l m' i, x.id ≠ y.id → k ≤ l → p.IndexAt code k m (.temp x) i →
        p.IndexAt code l m' (.temp y) i →
        ∃ s, k < s ∧ s < l ∧ At p.instrs s (Instr.Releases x) ∧
          ∀ j t, t.id = x.id → UsesAt p.instrs j (.var (.temp t)) → j < s := by
  obtain ⟨pass, hreaches, -⟩ := lower_eq_ok_iff.1 h
  have hwf := wellFormed_of_lower h
  refine ⟨fun k m v => exists_indexAt_of_lower h, ?_, ?_, fun l k m i => IndexAt.fixed_eq h, ?_⟩
  · intro t u k m l m' i j hid ht hu
    obtain ⟨r, hr, hi⟩ := ht.exists_cell? h
    obtain ⟨r', hr', hj⟩ := hu.exists_cell? h
    obtain rfl := Frame.cell?_unique hid hr hr'
    exact UInt32.toNat_inj.1 (hi.trans hj.symm)
  · intro t k m i ht
    obtain ⟨r, -, hi⟩ := ht.exists_cell? h
    rw [UInt32.le_iff_toNat_le]
    omega
  · intro x y k m l m' i hne hkl hx hy
    obtain ⟨r, hr, hi⟩ := hx.exists_cell? h
    obtain ⟨r', hr', hj⟩ := hy.exists_cell? h
    obtain rfl : r = r' := UInt32.toNat_inj.1 (by omega)
    obtain ⟨s, a, -, hsa, hal, hs, -⟩ :=
      hreaches.exists_handover (Frame.neverWraps_of_allocations hallocs) hne hkl hr hr'
    exact ⟨s, hwf.use_before_release hx.usesAt hs, Nat.lt_trans hsa hal, hs,
      fun j t hid ht => hwf.lt_of_releases hid ht hs⟩

end Program

/-- A loop that reads a temporary, and then passes its cell on to another one. -/
def staleLoop : Program :=
  let loc : Position := ⟨1, 1⟩
  let old : Temp := ⟨0, "old"⟩
  let new : Temp := ⟨1, "new"⟩
  ⟨[.alloc old,
    .copy loc (.const (.int 1)) (.temp old),
    .forInit loc (.global 0) (.fixed ⟨0⟩),
    .copy loc (.var (.temp old)) (.fixed ⟨1⟩),
    .release old,
    .alloc new,
    .copy loc (.const (.int 2)) (.temp new),
    .forClose loc,
    .ret loc (.var (.fixed ⟨1⟩))]⟩

/-- Its code, if it has two fixed locals. -/
def staleCode : Code where
  words := #[0, 0x10000000, 2, 4, 0x20000000, 0, 16, 0, 2, 1, 0, 0x10000001, 2, 5, 0, 7, 6, 1]
  locs := Array.replicate 18 ⟨1, 1⟩
  constants := ⟨[.int 1, .int 2]⟩
  frameSize := 3

theorem lower_staleLoop : (staleLoop.lower 2).result = .ok staleCode := by
  decide

namespace Program

theorem indexAt_old : staleLoop.IndexAt staleCode 3 0 (.temp ⟨0, "old"⟩) 2 :=
  ⟨⟨_, _, rfl, rfl, Or.inl rfl⟩, 2, ⟨.frame, 2, by decide⟩, rfl, rfl, rfl, rfl⟩

theorem indexAt_new : staleLoop.IndexAt staleCode 6 1 (.temp ⟨1, "new"⟩) 2 :=
  ⟨⟨_, _, rfl, rfl, Or.inl rfl⟩, 2, ⟨.frame, 2, by decide⟩, rfl, rfl, rfl, rfl⟩

theorem temps_apart_of_lower_staleLoop :
    (staleLoop.lower 2).result = .ok staleCode ∧ allocations staleLoop.instrs < UInt32.size ∧
      staleLoop.IndexAt staleCode 3 0 (.temp ⟨0, "old"⟩) 2 ∧
      staleLoop.IndexAt staleCode 6 1 (.temp ⟨1, "new"⟩) 2 ∧
      ∃ s, 3 < s ∧ s < 6 ∧ At staleLoop.instrs s (Instr.Releases ⟨0, "old"⟩) := by
  have hallocs : allocations staleLoop.instrs < UInt32.size := by decide
  obtain ⟨-, -, -, -, hapart⟩ := temps_apart_of_lower lower_staleLoop hallocs
  obtain ⟨s, hs, hs', hreleases, -⟩ :=
    hapart _ _ 3 0 6 1 2 (by decide) (by decide) indexAt_old indexAt_new
  exact ⟨lower_staleLoop, hallocs, indexAt_old, indexAt_new, s, hs, hs', hreleases⟩

end Program

end Assembler
