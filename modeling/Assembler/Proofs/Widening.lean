import Assembler.Proofs.Overflow
import Assembler.Proofs.Sharing

/-!
# Frames with more fixed locals

Temporaries come above the fixed locals. With more of these, the frame index of every temporary
grows by as much, and so does the frame, but no other word of the code changes
(`Program.lower_widen`). This can fail, but only because the number of a cell becomes too large.
-/

namespace Assembler

/-! ## Frame indices -/

section Indices

variable {n n' : UInt32} {d : Nat} {f : Frame} {index : Nat}

theorem le_of_toNat_eq_add (hsum : n'.toNat = n.toNat + d) : n ≤ n' := by
  rw [UInt32.le_iff_toNat_le, hsum]
  exact Nat.le_add_right _ _

theorem Var.index?_fixed_of_le (hle : n ≤ n') {l : Local}
    (h : (Var.fixed l).index? n f = some index) : (Var.fixed l).index? n' f = some index := by
  by_cases hlt : l.index < n
  · rw [index?, if_pos hlt] at h
    rw [index?, if_pos (UInt32.lt_of_lt_of_le hlt hle), h]
  · rw [index?, if_neg hlt] at h
    cases h

theorem Var.index?_temp_add (hsum : n'.toNat = n.toNat + d) {t : Temp}
    (h : (Var.temp t).index? n f = some index) :
    (Var.temp t).index? n' f = some (index + d) := by
  obtain ⟨r, hr, rfl⟩ := Option.map_eq_some_iff.1 h
  rw [index?, hr, Option.map_some, hsum]
  congr 1
  omega

/-- A variable still has an index, and it has grown by `d` at most. -/
theorem Var.exists_index?_add (hsum : n'.toNat = n.toNat + d) {v : Var}
    (h : v.index? n f = some index) :
    ∃ index', v.index? n' f = some index' ∧ index' ≤ index + d := by
  cases v with
  | fixed l =>
    exact ⟨index, index?_fixed_of_le (le_of_toNat_eq_add hsum) h, Nat.le_add_right _ _⟩
  | temp t => exact ⟨index + d, index?_temp_add hsum h, Nat.le_refl _⟩

/-- The words of other slots than temporaries stay the same. -/
theorem Slot.Word.of_le (hle : n ≤ n') {pool : Pool} {s : Slot} {w : UInt32}
    (h : s.Word n f pool w) (hs : ∀ t, s ≠ .var (.temp t)) : s.Word n' f pool w := by
  cases s with
  | var v =>
    cases v with
    | fixed l =>
      obtain ⟨o, ho, rfl⟩ := h
      obtain ⟨index, hindex, heq⟩ := Option.map_eq_some_iff.1 ho
      exact ⟨o, Option.map_eq_some_iff.2 ⟨index, Var.index?_fixed_of_le hle hindex, heq⟩, rfl⟩
    | temp t => exact absurd rfl (hs t)
  | _ => exact h

end Indices

/-! ## The highest index -/

namespace Pass

section Locals

variable {k : Nat} {loc : Position} {p q : Pass} {b : Nat}

theorem localsBelow_of_note {o : Operand} {s : Slot} (h : (p.note o s).LocalsBelow b) :
    p.LocalsBelow b ∧ ∀ v, s = .var v → o.index.toNat < b := by
  cases s with
  | var v =>
    have hmax := h _ rfl
    cases hp : p.maxLocal with
    | none =>
      rw [hp] at hmax
      refine ⟨fun index hindex => ?_, fun _ _ => hmax⟩
      rw [hp] at hindex
      cases hindex
    | some m =>
      rw [hp, Option.elim_some, toNat_max] at hmax
      refine ⟨fun index hindex => ?_, fun _ _ => by omega⟩
      rw [hp, Option.some.injEq] at hindex
      rw [← hindex]
      omega
  | _ => exact ⟨h, fun v hv => by cases hv⟩

theorem localsBelow_of_writeField {d : Field} (hfits : p.code.constants.Fits)
    (h : p.writeField k d = .ok q) (hq : q.LocalsBelow b) :
    p.LocalsBelow b ∧ ∀ v index, d = .slot (.var v) →
      v.index? p.fixedLocals p.frame = some index → index < b := by
  cases d with
  | slot s =>
    obtain ⟨o, ho, rfl⟩ := (writeSlot_eq_ok_iff hfits).1 h
    obtain ⟨hp, ho'⟩ := localsBelow_of_note (p := p) (o := o) (s := s) hq
    refine ⟨hp, fun v index hv hindex => ?_⟩
    cases hv
    rw [Slot.place?, hindex] at ho
    have heq : index = o.index.toNat := congrArg Prod.snd (Option.some.inj ho)
    rw [heq]
    exact ho' v rfl
  | word w | located loc w =>
    obtain rfl := Except.ok.inj h
    exact ⟨hq, fun v index hv => by cases hv⟩
  | jump label =>
    obtain ⟨j, -, hj⟩ := bind_eq_ok_iff.1 h
    obtain rfl := Except.ok.inj hj
    exact ⟨hq, fun v index hv => by cases hv⟩

/-- A bound of the indices after fields are written bounds those of the fields. -/
theorem localsBelow_of_foldlM {ds : List Field} (hfits : p.code.constants.Fits)
    (h : ds.foldlM (writeField k) p = .ok q) (hq : q.LocalsBelow b) :
    p.LocalsBelow b ∧ ∀ v index, .slot (.var v) ∈ ds →
      v.index? p.fixedLocals p.frame = some index → index < b := by
  induction ds generalizing p with
  | nil =>
    obtain rfl := Except.ok.inj h
    exact ⟨hq, fun v index hv => absurd hv List.not_mem_nil⟩
  | cons d ds ih =>
    rw [List.foldlM_cons, bind_eq_ok_iff] at h
    obtain ⟨r, hr, h⟩ := h
    have hwrote := wrote_writeField hfits hr
    obtain ⟨hbelow, hrest⟩ := ih hwrote.fits h
    rw [hwrote.fixedLocals, hwrote.frame] at hrest
    obtain ⟨hp, hd⟩ := localsBelow_of_writeField hfits hr hbelow
    refine ⟨hp, fun v index hv hindex => ?_⟩
    rcases List.mem_cons.1 hv with hv | hv
    · exact hd v index hv.symm hindex
    · exact hrest v index hv hindex

end Locals

/-! ## Two passes over one program -/

variable {n n' : UInt32} {d k : Nat} {is : List Instr} {i : Instr} {p q r s : Pass} {b : Nat}

/-- The labels and loops do not depend on the number of fixed locals. -/
theorem Ledger.jumps_eq (hp : Ledger n is p) (hq : Ledger n' is q) : q.jumps = p.jumps := by
  show Jumps.mk q.jumps.placed q.jumps.fixups q.jumps.loops =
    ⟨p.jumps.placed, p.jumps.fixups, p.jumps.loops⟩
  rw [hp.placed, hp.fixups, hp.loops, hq.placed, hq.fixups, hq.loops]

theorem Ledger.inner_congr (hp : Ledger n is p) (hq : Ledger n' is q) : q.inner = p.inner := by
  rw [inner, hp.jumps_eq hq, inner]

/-- What a pass can write, a pass with more fixed locals knows. -/
theorem Ledger.known (hp : Ledger n is p) (hq : Ledger n' is q) (hsum : n'.toNat = n.toNat + d)
    {e : Field} {pool : Pool} (h : e.Writable p pool) : e.Known q := by
  cases e with
  | slot s =>
    cases s with
    | var v =>
      obtain ⟨place, hplace, -⟩ := h
      obtain ⟨index, hindex, -⟩ := Option.map_eq_some_iff.1 hplace
      rw [hp.fixedLocals, hp.frame] at hindex
      obtain ⟨index', hindex', -⟩ := Var.exists_index?_add hsum hindex
      rw [Field.Known, hq.fixedLocals, hq.frame]
      exact ⟨index', hindex'⟩
    | _ => trivial
  | word w | located loc w => trivial
  | jump label =>
    rw [Field.Known, hp.jumps_eq hq]
    exact h

/-- Where a step succeeds, it finds all it needs with more fixed locals, too. -/
theorem Stepped.ready (h : Stepped k p i r) (hp : Ledger n is p) (hq : Ledger n' is q)
    (hsum : n'.toNat = n.toNat + d) : q.Ready i := by
  have hframe : q.frame = p.frame := hq.frame.trans hp.frame.symm
  have hjumps := hp.jumps_eq hq
  constructor
  case formed =>
    cases h with
    | write hop hi => exact hi
    | _ => trivial
  case unbound =>
    rintro t rfl
    rw [hframe]
    cases h with
    | alloc hnone => exact hnone
    | write hop => cases hop
  case live =>
    rintro t rfl
    rw [hframe]
    cases h with
    | release hlive => exact ⟨_, Frame.cell?_eq_some_iff.2 hlive⟩
    | write hop => cases hop
  case unplaced =>
    rintro label rfl
    rw [hjumps]
    cases h with
    | place hnone => exact hnone
    | write hop => cases hop
  case opened =>
    rintro loc rfl
    rw [hjumps]
    cases h with
    | write hop hi hclose => exact hclose loc rfl
  case known =>
    intro role hrole
    cases h with
    | alloc => cases hrole
    | release => cases hrole
    | place => cases hrole
    | write hop hi hclose hwrite =>
      have hwritable := (hp.wrote hwrite).writable _ (List.mem_map_of_mem hrole)
      rw [leave_eq] at hwritable
      rw [hp.inner_congr hq]
      exact hp.known hq hsum hwritable

theorem Ledger.localsBelow_wrote (h : Ledger n is p) {op : Opcode}
    (hwrite : (i.roles.map (Role.field i.loc p.inner)).foldlM (writeField k)
      ((p.leave i).start i.loc op) = .ok q) (hq : q.LocalsBelow b) :
    p.LocalsBelow b ∧ ∀ v index, .slot (.var v) ∈ i.roles.map (Role.field i.loc p.inner) →
      v.index? n (Frame.after is) = some index → index < b := by
  have hfits : ((p.leave i).start i.loc op).code.constants.Fits := by
    rw [leave_eq]
    exact h.fits
  have hbelow := localsBelow_of_foldlM hfits hwrite hq
  rw [leave_eq] at hbelow
  rw [← h.fixedLocals, ← h.frame]
  exact hbelow

/-- A step that keeps the indices of one pass below a bound keeps those of the other below the bound
moved up. -/
theorem Stepped.localsBelow (h : Stepped k p i r) (h' : Stepped k q i s) (hp : Ledger n is p)
    (hq : Ledger n' is q) (hsum : n'.toNat = n.toNat + d)
    (hlocals : p.LocalsBelow b → q.LocalsBelow (b + d)) (hr : r.LocalsBelow b) :
    s.LocalsBelow (b + d) := by
  cases h with
  | alloc =>
    cases h' with
    | alloc => exact hlocals hr
    | write hop => cases hop
  | release =>
    cases h' with
    | release => exact hlocals hr
    | write hop => cases hop
  | place =>
    cases h' with
    | place => exact hlocals hr
    | write hop => cases hop
  | @write i op r hop hi hclose hwrite =>
    cases h' with
    | alloc => cases hop
    | release => cases hop
    | place => cases hop
    | @write _ op' s hop' _ _ hwrite' =>
      rw [settle_eq] at hr ⊢
      obtain ⟨hbelow, hindices⟩ := hp.localsBelow_wrote (q := r) hwrite hr
      have hwrote := hp.wrote hwrite
      have hwrote' := hq.wrote hwrite'
      rw [leave_eq, hp.inner_congr hq] at hwrote'
      rw [leave_eq] at hwrote
      refine hwrote'.maxLocal (b + d) (hlocals hbelow) fun v j hv hj => ?_
      -- the variable has an index with fewer fixed locals, and that is below the bound
      obtain ⟨place, hplace, -⟩ := hwrote.writable _ hv
      obtain ⟨index, hindex, -⟩ := Option.map_eq_some_iff.1 hplace
      have hindex : v.index? p.fixedLocals p.frame = some index := hindex
      have hj : v.index? q.fixedLocals q.frame = some j := hj
      rw [hp.fixedLocals, hp.frame] at hindex
      rw [hq.fixedLocals, hq.frame] at hj
      obtain ⟨index', hindex', hle⟩ := Var.exists_index?_add hsum hindex
      rw [hj, Option.some.injEq] at hindex'
      have := hindices v index hv hindex
      omega

/-- Along the program, the highest index grows by at most the number of new fixed locals. -/
theorem Reaches.localsBelow (hp : Reaches n is p) (hq : Reaches n' is q)
    (hsum : n'.toNat = n.toNat + d) (h : p.LocalsBelow b) : q.LocalsBelow (b + d) := by
  induction hp generalizing q with
  | nil =>
    obtain rfl := hq.unique .nil
    intro index hindex
    cases hindex
  | snoc hp hstep ih =>
    obtain ⟨q', event, hq', hstep'⟩ := reaches_append_singleton_iff.1 hq
    have hstepped := (stepped_iff hp.ledger.fits).1 ⟨_, hstep⟩
    have hstepped' := (stepped_iff hq'.ledger.fits).1 ⟨_, hstep'⟩
    exact hstepped.localsBelow hstepped' hp.ledger hq'.ledger hsum (ih hq') h

end Pass

/-! ## Words -/

section Words

variable {n n' : UInt32} {d : Nat} {is : List Instr} {c c' : Code}

/-- The words of other operands than temporaries stay the same. -/
theorem Role.Means.of_le (hle : n ≤ n') {known : Label → UInt32 → Prop} {k m : Nat} {i : Instr}
    {role : Role} (hk : is[k]? = some i) (hm : i.roles[m]? = some role) {w : UInt32}
    (h : role.Means n is known k w) (htemp : ∀ t, ¬ NamesAt is k m (.temp t)) :
    role.Means n' is known k w := by
  cases role with
  | slot s =>
    refine Slot.Word.of_le hle h ?_
    rintro t rfl
    exact htemp t ⟨i, _, hk, hm, Or.inl rfl⟩
  | loopItem =>
    obtain ⟨a, loc, collection, item, hmatched, ha, hw⟩ := h
    refine ⟨a, loc, collection, item, hmatched, ha, hw.of_le hle ?_⟩
    intro t ht
    cases ht
    exact htemp t ⟨i, _, hk, hm, Or.inr ⟨rfl, a, loc, collection, hmatched, ha⟩⟩
  | _ => exact h

/-- The word of a temporary grows by the number of new fixed locals. -/
theorem Image.temp_add (h : Image n is (LabelAddress is) c) (h' : Image n' is (LabelAddress is) c')
    (hsum : n'.toNat = n.toNat + d) {k m : Nat} {t : Temp} (ht : NamesAt is k m (.temp t)) :
    ∃ w w', c.wordAt? (offsetOf is k + 1 + m) = some w ∧
      c'.wordAt? (offsetOf is k + 1 + m) = some w' ∧ w'.toNat = w.toNat + d := by
  obtain ⟨o, hw, hkind, hindex⟩ := h.exists_index_operand ht
  obtain ⟨o', hw', hkind', hindex'⟩ := h'.exists_index_operand ht
  refine ⟨_, _, hw, hw', ?_⟩
  rw [Var.index?_temp_add hsum hindex, Option.some.injEq] at hindex'
  rw [o.encode_toNat, o'.encode_toNat, hkind, hkind', ← hindex']
  omega

/-- No other word changes. -/
theorem Image.wordAt?_of_le (h : Image n is (LabelAddress is) c)
    (h' : Image n' is (LabelAddress is) c') (hle : n ≤ n') (hwf : WellFormed n is) {offset : Nat}
    (hlt : offset < span is)
    (hother : ∀ k m t, NamesAt is k m (.temp t) → offset ≠ offsetOf is k + 1 + m) :
    c'.wordAt? offset = c.wordAt? offset := by
  obtain ⟨k, i, op, hk, hop, hcases⟩ := exists_of_lt_span hwf.formed hlt
  rcases hcases with rfl | ⟨m, role, hm, rfl⟩
  · rw [(h k).opcode hk hop, (h' k).opcode hk hop]
  · obtain ⟨w, hw, hmeans⟩ := (h k).operand hk hm
    obtain ⟨w', hw', hmeans'⟩ := (h' k).operand hk hm
    have hsame := hmeans.of_le hle hk hm fun t ht => hother k m t ht rfl
    rw [hw, hw', hwf.means_unique hk hm hmeans' hsame]

end Words

/-- `c'` is the code `c` of the program `is` with the temporaries moved up by `d`. -/
structure Widened (is : List Instr) (d : Nat) (c c' : Code) : Prop where
  size : c'.size = c.size
  temp : ∀ {k m t}, NamesAt is k m (.temp t) →
    ∃ w w', c.wordAt? (offsetOf is k + 1 + m) = some w ∧
      c'.wordAt? (offsetOf is k + 1 + m) = some w' ∧ w'.toNat = w.toNat + d
  other : ∀ {offset}, (∀ k m t, NamesAt is k m (.temp t) → offset ≠ offsetOf is k + 1 + m) →
    c'.wordAt? offset = c.wordAt? offset
  locs : c'.locs = c.locs
  constants : c'.constants = c.constants
  frameSize : c'.frameSize.toNat = c.frameSize.toNat + d

namespace Program

variable {p : Program} {n n' : UInt32} {d : Nat} {c c' : Code}

/-- The operand words of temporaries and the frame size have room for `d` more fixed locals. -/
def HasRoom (p : Program) (c : Code) (d : Nat) : Prop :=
  (∀ k m t index, p.IndexAt c k m (.temp t) index → index.toNat + d ≤ maxIndex.toNat) ∧
    c.frameSize.toNat + d < UInt32.size

/-- The code with more fixed locals, if there is one. -/
theorem widened_of_lower (h : (p.lower n).result = .ok c) (h' : (p.lower n').result = .ok c')
    (hsum : n'.toNat = n.toNat + d) : Widened p.instrs d c c' := by
  have hle := le_of_toNat_eq_add hsum
  have himage := image_of_lower h
  have himage' := image_of_lower h'
  have hsize : c'.size = c.size := by rw [size_of_lower h, size_of_lower h']
  constructor
  case size => exact hsize
  case temp => exact himage.temp_add himage' hsum
  case other =>
    intro offset hother
    by_cases hlt : offset < span p.instrs
    · exact himage.wordAt?_of_le himage' hle (wellFormed_of_lower h) hlt hother
    · have hend : c.size ≤ offset := by rw [size_of_lower h]; omega
      rw [Code.wordAt?, Code.wordAt?, Array.getElem?_eq_none hend,
        Array.getElem?_eq_none (Nat.le_trans (Nat.le_of_eq hsize) hend)]
  case locs =>
    apply Array.toList_inj.1
    rw [locs_of_lower h, locs_of_lower h']
  case constants => rw [constants_of_lower h, constants_of_lower h']
  case frameSize =>
    rw [frameSize_of_lower h, frameSize_of_lower h', hsum]
    omega

/-- Where there is code with more fixed locals, there was room for it. -/
theorem hasRoom_of_lower (h : (p.lower n).result = .ok c) (h' : (p.lower n').result = .ok c')
    (hsum : n'.toNat = n.toNat + d) : p.HasRoom c d := by
  constructor
  · intro k m t index ht
    have hindex := Var.index?_temp_add hsum (ht.index?_eq h)
    obtain ⟨o, -, -, ho⟩ := (image_of_lower h').exists_index_operand ht.1
    rw [hindex, Option.some.injEq] at ho
    rw [ho]
    exact UInt32.le_iff_toNat_le.1 o.index_le
  · rw [← (widened_of_lower h h' hsum).frameSize]
    exact c'.frameSize.toNat_lt_size

/-- A program that can be lowered is well-formed with more fixed locals, too, if there is room. -/
theorem HasRoom.wellFormed (hroom : p.HasRoom c d) (h : (p.lower n).result = .ok c)
    (hsum : n'.toNat = n.toNat + d) : WellFormed n' p.instrs := by
  have hwf := wellFormed_of_lower h
  have hle := le_of_toNat_eq_add hsum
  refine { hwf with fixed_lt := ?_, index_le := ?_, frame_fits := ?_ }
  · exact fun hl => UInt32.lt_of_lt_of_le (hwf.fixed_lt hl) hle
  · intro k s kind index hs hplace
    cases s with
    | var v =>
      obtain ⟨index', hindex', heq⟩ := Option.map_eq_some_iff.1 hplace
      obtain ⟨rfl, rfl⟩ := Prod.mk.inj heq
      cases v with
      | fixed l =>
        obtain ⟨place, hplace, hmax⟩ := hwf.exists_place hs
        obtain ⟨index, hindex, rfl⟩ := Option.map_eq_some_iff.1 hplace
        rw [Var.index?_fixed_of_le hle hindex, Option.some.injEq] at hindex'
        exact hindex' ▸ hmax
      | temp t =>
        obtain ⟨m, hm⟩ := usesAt_var_iff.1 hs
        obtain ⟨index, hindex⟩ := exists_indexAt_of_lower h hm
        have hadd := Var.index?_temp_add hsum (hindex.index?_eq h)
        rw [hindex', Option.some.injEq] at hadd
        rw [hadd]
        exact hroom.1 k m t index hindex
    | _ => exact hwf.index_le hs hplace
  · have := hroom.2
    rw [frameSize_of_lower h] at this
    omega

/-- The pass with more fixed locals ends with all indices in the frame. -/
theorem localsBelow_of_lower (h : (p.lower n).result = .ok c) (hsum : n'.toNat = n.toNat + d)
    {q : Pass} (hq : Pass.Reaches n' p.instrs q) :
    q.LocalsBelow (n'.toNat + (Frame.after p.instrs).highWater.toNat) := by
  obtain ⟨pass, hpass, hfinish⟩ := lower_eq_ok_iff.1 h
  obtain ⟨-, size, -, hcheck, -⟩ := Pass.finish_eq_ok_iff.1 hfinish
  obtain ⟨-, -, hsize, hlocals⟩ := Pass.check_eq_ok_iff.1 hcheck
  rw [sum?_eq_some_iff, hpass.ledger.fixedLocals, hpass.ledger.frame] at hsize
  have hbelow : pass.LocalsBelow size.toNat := fun index hindex =>
    UInt32.lt_iff_toNat_lt.1 (hlocals index hindex)
  have hbelow' := hpass.localsBelow hq hsum hbelow
  rwa [hsize, Nat.add_right_comm, ← hsum] at hbelow'

/-- If there is room for more fixed locals, the program can be lowered with them. -/
theorem HasRoom.exists_lower (hroom : p.HasRoom c d) (h : (p.lower n).result = .ok c)
    (hsum : n'.toNat = n.toNat + d) : ∃ c', (p.lower n').result = .ok c' := by
  have hwf := hroom.wellFormed h hsum
  obtain ⟨q, hq⟩ := hwf.exists_reaches (Nat.le_refl _)
  rw [List.take_length] at hq
  obtain ⟨c', hc'⟩ := hq.ledger.exists_finish_eq_ok hwf (localsBelow_of_lower h hsum hq)
  exact ⟨c', lower_eq_ok_iff.2 ⟨q, hq, hc'⟩⟩

/-- If it cannot, that is because of an overflow. -/
theorem exists_overflow_of_widen (h : (p.lower n).result = .ok c) (hsum : n'.toNat = n.toNat + d)
    {e : Failure} (he : (p.lower n').result = .error e) :
    ∃ index, e.fault = .operandOverflow index := by
  have hwf := wellFormed_of_lower h
  obtain ⟨pass, hpass, -⟩ := lower_eq_ok_iff.1 h
  refine exists_overflow_of_lower (fun {k i q} hk hq => ?_) (fun {q} hq => ?_) he
  · obtain ⟨r, s, hr, hstep⟩ := hpass.stepped_at hk
    exact (hstep.ready hr.ledger hq.ledger hsum).onlyOverflows_step hq.ledger.fits k
  · refine hq.ledger.onlyOverflows_finish (balanced_iff.1 hwf.balanced).1
      (localsBelow_of_lower h hsum hq) fun hk htarget => ?_
    obtain ⟨t, -, ht⟩ := hwf.place_after_branch hk htarget
    exact ⟨t, ht⟩

/-- A program that can be lowered is lowered with `d` more fixed locals to the same code with the
temporaries moved up by `d`, if there is room for them. If there is none, an operand or the frame
becomes too large. -/
theorem lower_widen {d : UInt32} (h : (p.lower n).result = .ok c)
    (hlt : n.toNat + d.toNat < UInt32.size) :
    (∃ e index, (p.lower (n + d)).result = .error e ∧ e.fault = .operandOverflow index ∧
        ¬ p.HasRoom c d.toNat) ∨
      ∃ c', (p.lower (n + d)).result = .ok c' ∧ p.HasRoom c d.toNat ∧
        Widened p.instrs d.toNat c c' := by
  have hsum : (n + d).toNat = n.toNat + d.toNat := by
    rw [UInt32.toNat_add]
    exact Nat.mod_eq_of_lt hlt
  cases hresult : (p.lower (n + d)).result with
  | error e =>
    obtain ⟨index, hindex⟩ := exists_overflow_of_widen h hsum hresult
    refine Or.inl ⟨e, index, rfl, hindex, fun hroom => ?_⟩
    obtain ⟨c', hc'⟩ := hroom.exists_lower h hsum
    rw [hresult] at hc'
    cases hc'
  | ok c' =>
    exact Or.inr ⟨c', rfl, hasRoom_of_lower h hresult hsum, widened_of_lower h hresult hsum⟩

/-- The code of the search loop with five fixed locals. -/
def wideSearchCode : Code where
  words :=
    #[4, 0x20000007, 5, 25, 4, 5, 6, 22, 8, 6, 0x10000000, 1, 2, 1, 25, 9, 6, 0x10000001, 0, 5, 6,
      8, 5, 5, 4, 6, 0]
  locs := Array.replicate 27 ⟨1, 1⟩
  constants := ⟨[.str "str", .int 1]⟩
  frameSize := 7

theorem lower_searchLoop_five : (searchLoop.lower 5).result = .ok wideSearchCode := by
  decide

theorem lower_widen_searchLoop :
    (searchLoop.lower 2).result = .ok searchCode ∧
      (2 : UInt32).toNat + (3 : UInt32).toNat < UInt32.size ∧
      (searchLoop.lower (2 + 3)).result = .ok wideSearchCode ∧ searchLoop.HasRoom searchCode 3 ∧
      Widened searchLoop.instrs 3 searchCode wideSearchCode := by
  have hlt : (2 : UInt32).toNat + (3 : UInt32).toNat < UInt32.size := by decide
  refine ⟨lower_searchLoop, hlt, lower_searchLoop_five, ?_⟩
  rcases lower_widen lower_searchLoop hlt with ⟨e, index, he, -⟩ | ⟨c', hc', hroom, hwidened⟩
  · rw [show (2 : UInt32) + 3 = 5 from rfl, lower_searchLoop_five] at he
    cases he
  · rw [show (2 : UInt32) + 3 = 5 from rfl, lower_searchLoop_five] at hc'
    cases hc'
    exact ⟨hroom, hwidened⟩

end Program

end Assembler
