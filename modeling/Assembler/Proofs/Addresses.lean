import Assembler.Proofs.Decoding
import Assembler.Proofs.Lifetimes
import Assembler.Proofs.Wrapping

/-!
# Addresses in lowered code

Lowered code has two kinds of addresses. A branch jumps to the place of its label, which comes later
(`Program.branches_of_lower`). The two ends of a loop jump past each other, and name the same
variable (`Program.loops_of_lower`). Addresses are words, so both are said of code that has fewer
than `UInt32.size` words.

The variable of a loop has its place in the frame to itself as long as the numbers of cells do not
wrap around. Nothing checks that they do not, and beside `2 ^ 32` other temporaries it shares its
place with one of them (`Program.shared_item_crowdedLoop`).
-/

namespace Assembler

/-- The word that waits for a label is the address operand of the opcode. -/
theorem Instr.target_role_iff {i : Instr} {m : Nat} {label : Label} :
    i.roles[m]? = some (.target label) ↔
      i.target? = some label ∧ ∃ op, i.opcode? = some op ∧ op.address? = some m := by
  constructor
  · intro h
    have htarget := target?_eq_some_iff.2 (List.mem_of_getElem? h)
    refine ⟨htarget, ?_⟩
    cases i with
    | branch loc label' =>
      rcases m with _ | m
      · exact ⟨_, rfl, rfl⟩
      · cases h
    | branchIf loc cond test label' =>
      rcases m with _ | _ | m
      · cases h
      · exact ⟨_, rfl, by cases test <;> rfl⟩
      · cases h
    | _ => cases htarget
  · rintro ⟨htarget, op, hop, hm⟩
    cases i with
    | branch loc label' =>
      cases htarget
      cases hop
      cases hm
      rfl
    | branchIf loc cond test label' =>
      cases htarget
      cases hop
      cases test <;> cases hm <;> rfl
    | _ => cases htarget

/-- The address operand of an instruction is the target of a branch, or one end of a loop. -/
theorem Instr.address_role {i : Instr} {op : Opcode} {m : Nat} (hi : i.Formed)
    (hop : i.opcode? = some op) (hm : op.address? = some m) :
    (∃ label, i.target? = some label ∧ i.roles[m]? = some (.target label)) ∨
      (∃ loc collection item, i = .forInit loc collection item ∧ i.roles[m]? = some .loopEnd) ∨
      ∃ loc, i = .forClose loc ∧ i.roles[m]? = some .loopStart := by
  cases i with
  | branch loc label =>
    cases hop
    cases hm
    exact Or.inl ⟨label, rfl, rfl⟩
  | branchIf loc cond test label =>
    cases hop
    cases test <;> cases hm <;> exact Or.inl ⟨label, rfl, rfl⟩
  | forInit loc collection item =>
    cases hop
    cases hm
    exact Or.inr (Or.inl ⟨loc, collection, item, rfl, rfl⟩)
  | forClose loc =>
    cases hop
    cases hm
    exact Or.inr (Or.inr ⟨loc, rfl, rfl⟩)
  | op loc opcode args =>
    cases hop
    have hreserved := hi.1
    rw [Opcode.isReserved, hm] at hreserved
    cases hreserved
  | alloc | release | place => cases hop
  | copy | typeIs | ret =>
    cases hop
    cases hm

/-- The role is an address. -/
def Role.isAddress : Role → Bool
  | target _ | loopEnd | loopStart => true
  | _ => false

theorem Instr.exists_address? {i : Instr} {m : Nat} {role : Role} (hm : i.roles[m]? = some role)
    (hrole : role.isAddress = true) : ∃ op, i.opcode? = some op ∧ op.address? = some m := by
  have hmem := List.mem_of_getElem? hm
  cases role with
  | target label => exact (target_role_iff.1 hm).2
  | loopEnd =>
    obtain ⟨loc, collection, item, rfl⟩ := eq_forInit_of_mem_roles hmem
    rcases m with _ | _ | _ | m
    · cases hm
    · cases hm
    · exact ⟨_, rfl, rfl⟩
    · cases hm
  | loopStart =>
    obtain ⟨loc, rfl⟩ := eq_forClose_of_mem_roles (Or.inr hmem)
    rcases m with _ | _ | m
    · cases hm
    · exact ⟨_, rfl, rfl⟩
    · cases hm
  | _ => cases hrole

namespace Program

variable {p : Program} {n : UInt32} {code : Code}

theorem place_unique_of_lower (h : (p.lower n).result = .ok code) {label : Label} {k m : Nat}
    (hk : p.instrs[k]? = some (.place label)) (hm : p.instrs[m]? = some (.place label)) :
    k = m := by
  obtain ⟨pass, hreaches, -⟩ := lower_eq_ok_iff.1 h
  exact hreaches.place_unique hk hm

/-- A label is placed after every branch to it. -/
theorem lt_of_place_of_lower (h : (p.lower n).result = .ok code) {label : Label} {k m : Nat}
    {i : Instr} (hk : p.instrs[k]? = some i) (htarget : i.target? = some label)
    (hm : p.instrs[m]? = some (.place label)) : k < m := by
  obtain ⟨pass, hreaches, -⟩ := lower_eq_ok_iff.1 h
  exact hreaches.lt_of_place hk (Instr.target?_eq_some_iff.1 htarget) hm

/-- The offset of any instruction is one that the walk comes to. -/
theorem offsetOf_mem_of_lower (h : (p.lower n).result = .ok code) (m : Nat) :
    offsetOf p.instrs m ∈ code.decoded.map Decoded.offset ∨ offsetOf p.instrs m = code.size := by
  rcases offsetOf_cases p.instrs m with hspan | ⟨l, i, hl, hop, heq⟩
  · exact Or.inr (hspan.trans (size_of_lower h).symm)
  · obtain ⟨d, hd, hcode⟩ := exists_decoded_of_lower h hl hop
    exact Or.inl (List.mem_map.2 ⟨d, hd, hcode.offset.trans heq⟩)

theorem offsetOf_lt_size_of_lower (h : (p.lower n).result = .ok code)
    (hsize : code.size < UInt32.size) (m : Nat) : offsetOf p.instrs m < UInt32.size := by
  rw [size_of_lower h] at hsize
  exact Nat.lt_of_le_of_lt (offsetOf_le_span _ _) hsize

/-- Only the address operands of branches are patched at the end. -/
theorem wordAt?_of_lower (h : (p.lower n).result = .ok code) {pass : Pass}
    (hrun : (Pass.run { fixedLocals := n } 0 p.instrs).2 = .ok pass) {offset : Nat}
    (hoffset : ∀ k i op j, p.instrs[k]? = some i → i.target?.isSome → i.opcode? = some op →
      op.address? = some j → offset ≠ offsetOf p.instrs k + 1 + j) :
    code.wordAt? offset = pass.code.wordAt? offset := by
  obtain ⟨pass', hreaches, hfinish⟩ := lower_eq_ok_iff.1 h
  obtain rfl := hreaches.unique (Pass.reaches_iff_run.2 hrun)
  obtain ⟨patches, frameSize, hres, -, rfl⟩ := Pass.finish_eq_ok_iff.1 hfinish
  refine hreaches.wordAt?_patchAll hres fun k i m label hk hm => ?_
  obtain ⟨htarget, op, hop, haddress⟩ := Instr.target_role_iff.1 hm
  exact hoffset k i op m hk (by rw [htarget]; rfl) hop haddress

/-- The code of a branch, and the place of its label. -/
theorem exists_branch_of_lower (h : (p.lower n).result = .ok code) {k : Nat} {i : Instr}
    {label : Label} (hk : p.instrs[k]? = some i) (htarget : i.target? = some label) :
    ∃ d ∈ code.decoded, d.offset = offsetOf p.instrs k ∧ i.opcode? = some d.opcode ∧
      ∃ w, d.address? = some w ∧ LabelAddress p.instrs label w := by
  obtain ⟨m, hm⟩ := List.getElem?_of_mem (Instr.target?_eq_some_iff.1 htarget)
  obtain ⟨-, op, hop, haddress⟩ := Instr.target_role_iff.1 hm
  obtain ⟨d, hd, hcode⟩ := exists_decoded_of_lower h hk (by rw [hop]; rfl)
  obtain rfl : op = d.opcode := Option.some.inj (hop.symm.trans hcode.opcode)
  obtain ⟨w, hw, hmeans⟩ := exists_getElem?_of_forall₂ hcode.operands hm
  refine ⟨d, hd, hcode.offset, hop, w, ?_, hmeans⟩
  rw [Decoded.address?, haddress]
  exact hw

/-- Branch resolution is exact. All branches to a label carry one address, which is the offset of
the only place of the label, where an instruction or the end of the code is. It is not before the
end of any of these branches. Words other than these addresses are as the pass has left them. -/
theorem branches_of_lower (h : (p.lower n).result = .ok code) (hsize : code.size < UInt32.size) :
    (∀ label, (∃ k, At p.instrs k fun i => i.target? = some label) →
      ∃ m, p.instrs[m]? = some (.place label) ∧
        (∀ m', p.instrs[m']? = some (.place label) → m' = m) ∧
        ∃ address : UInt32, address.toNat = offsetOf p.instrs m ∧
          (address.toNat ∈ code.decoded.map Decoded.offset ∨ address.toNat = code.size) ∧
          ∀ k i, p.instrs[k]? = some i → i.target? = some label →
            ∃ d ∈ code.decoded, d.offset = offsetOf p.instrs k ∧ i.opcode? = some d.opcode ∧
              d.address? = some address ∧ d.offset + d.opcode.width ≤ address.toNat) ∧
      ∀ pass, (Pass.run { fixedLocals := n } 0 p.instrs).2 = .ok pass → ∀ offset,
        (∀ k i op j, p.instrs[k]? = some i → i.target?.isSome → i.opcode? = some op →
          op.address? = some j → offset ≠ offsetOf p.instrs k + 1 + j) →
        code.wordAt? offset = pass.code.wordAt? offset := by
  refine ⟨?_, fun pass hrun offset => wordAt?_of_lower h hrun⟩
  rintro label ⟨k₀, i₀, hk₀, htarget₀⟩
  obtain ⟨-, -, -, -, -, -, m, hm, -⟩ := exists_branch_of_lower h hk₀ htarget₀
  have haddress := toNat_toUInt32 (offsetOf_lt_size_of_lower h hsize m)
  refine ⟨m, hm, fun m' hm' => place_unique_of_lower h hm' hm, (offsetOf p.instrs m).toUInt32,
    haddress, ?_, fun k i hk htarget => ?_⟩
  · rw [haddress]
    exact offsetOf_mem_of_lower h m
  · obtain ⟨d, hd, hoffset, hop, w, hw, m', hm', rfl⟩ := exists_branch_of_lower h hk htarget
    obtain rfl := place_unique_of_lower h hm' hm
    refine ⟨d, hd, hoffset, hop, hw, ?_⟩
    have hle := offsetOf_add_width_le hk (lt_of_place_of_lower h hk htarget hm)
    rwa [Instr.width_of_opcode? hop, ← hoffset, ← haddress] at hle

theorem branches_of_lower_searchLoop :
    (searchLoop.lower 2).result = .ok searchCode ∧ searchCode.size < UInt32.size ∧
      ∃ address : UInt32, address.toNat = 25 ∧
        ∃ d ∈ searchCode.decoded, d.offset = 12 ∧ d.address? = some address := by
  have hsize : searchCode.size < UInt32.size := by decide
  refine ⟨lower_searchLoop, hsize, ?_⟩
  have hbranch : searchLoop.instrs[5]? = some (.branchIf ⟨1, 1⟩ (.fixed ⟨1⟩) .whenTrue ⟨0⟩) := rfl
  obtain ⟨m, -, hm, address, haddress, -, hall⟩ :=
    (branches_of_lower lower_searchLoop hsize).1 ⟨0⟩ ⟨5, _, hbranch, rfl⟩
  obtain rfl : 10 = m := hm 10 rfl
  obtain ⟨d, hd, hoffset, -, hd', -⟩ := hall 5 _ hbranch rfl
  exact ⟨address, haddress, d, hd, hoffset, hd'⟩

end Program

/-! ## Loops -/

namespace Var

variable {n : UInt32} {is : List Instr} {v : Var}

/-- A variable that has an index at two places has the same one at all places between them. -/
theorem index?_eq_of_le {i j k x y : Nat} (hi : v.index? n (Frame.after (is.take i)) = some x)
    (hj : v.index? n (Frame.after (is.take j)) = some y) (hik : i ≤ k) (hkj : k ≤ j) :
    v.index? n (Frame.after (is.take k)) = some x := by
  cases v with
  | fixed l => exact hi
  | temp t =>
    obtain ⟨r, hr, rfl⟩ := Option.map_eq_some_iff.1 hi
    obtain ⟨r', hr', rfl⟩ := Option.map_eq_some_iff.1 hj
    rw [index?, Frame.cell?_eq_of_le hr hr' hik hkj]
    rfl

/-- In a coherent frame, no temporary has the index of another variable. -/
theorem same_of_index?_eq {f : Frame} (hf : f.Coherent) {t : Temp} {r : UInt32}
    (ht : f.cell? t = some r) (hv : v.index? n f = some (n.toNat + r.toNat)) :
    v.same (.temp t) = true := by
  cases v with
  | fixed l =>
    simp only [index?] at hv
    split at hv
    next hlt =>
      have := UInt32.lt_iff_toNat_lt.1 hlt
      have := Option.some.inj hv
      omega
    · cases hv
  | temp u =>
    obtain ⟨r', hr', hsum⟩ := Option.map_eq_some_iff.1 hv
    obtain rfl : r' = r := UInt32.toNat_inj.1 (Nat.add_left_cancel hsum)
    have := hf.injective (Frame.cell?_eq_some_iff.1 hr') (Frame.cell?_eq_some_iff.1 ht)
    simpa [same, Temp.same] using this

end Var

namespace Program

variable {p : Program} {n : UInt32} {code : Code} {a b : Nat}

/-- The code of the opening of a loop: its variable, and the address of its end. -/
theorem exists_opening_of_lower (h : (p.lower n).result = .ok code) (hm : Matched p.instrs a b)
    {loc : Position} {collection : Slot} {item : Var}
    (ha : p.instrs[a]? = some (.forInit loc collection item)) :
    ∃ d ∈ code.decoded, d.offset = offsetOf p.instrs a ∧ d.opcode = .forInit ∧
      d.address? = some (offsetOf p.instrs (b + 1)).toUInt32 ∧
      ∃ w, d.operands[1]? = some w ∧
        (Slot.var item).Word n (Frame.after (p.instrs.take a)) (poolOf p.instrs) w := by
  obtain ⟨d, hd, hcode⟩ := exists_decoded_of_lower h ha rfl
  have hop : d.opcode = .forInit := (Option.some.inj hcode.opcode).symm
  obtain ⟨w, hw, hitem⟩ := exists_getElem?_of_forall₂ hcode.operands (m := 1) rfl
  obtain ⟨e, he, hend⟩ := exists_getElem?_of_forall₂ hcode.operands (m := 2) rfl
  refine ⟨d, hd, hcode.offset, hop, ?_, w, hw, hitem⟩
  rw [Decoded.address?, hop, ← hend b hm]
  exact he

/-- The code of the close of a loop: its variable, and the address of its body. -/
theorem exists_closing_of_lower (h : (p.lower n).result = .ok code) (hm : Matched p.instrs a b)
    {loc : Position} {collection : Slot} {item : Var}
    (ha : p.instrs[a]? = some (.forInit loc collection item)) :
    ∃ d ∈ code.decoded, d.offset = offsetOf p.instrs b ∧ d.opcode = .forNext ∧
      d.address? = some (offsetOf p.instrs (a + 1)).toUInt32 ∧
      ∃ w, d.operands[0]? = some w ∧
        (Slot.var item).Word n (Frame.after (p.instrs.take b)) (poolOf p.instrs) w := by
  obtain ⟨loc', hb⟩ := hm.closing
  obtain ⟨d, hd, hcode⟩ := exists_decoded_of_lower h hb rfl
  have hop : d.opcode = .forNext := (Option.some.inj hcode.opcode).symm
  obtain ⟨w, hw, a₁, _, _, item', hm₁, ha₁, hitem⟩ :=
    exists_getElem?_of_forall₂ hcode.operands (m := 0) rfl
  obtain ⟨s, hs, a₂, hm₂, rfl⟩ := exists_getElem?_of_forall₂ hcode.operands (m := 1) rfl
  obtain rfl := hm.left_unique hm₁
  obtain rfl := hm.left_unique hm₂
  rw [ha] at ha₁
  cases ha₁
  refine ⟨d, hd, hcode.offset, hop, ?_, w, hw, hitem⟩
  rw [Decoded.address?, hop]
  exact hs

/-- Loops are wired to their own partner, at any depth. The opening jumps past the close, and the
close past the opening, and the two name the loop's variable by one word. That is where the variable
is stored all through the loop. No temporary other than the variable is stored there, as long as the
numbers of cells have not wrapped around. -/
theorem loops_of_lower (h : (p.lower n).result = .ok code) (hsize : code.size < UInt32.size)
    (hm : Matched p.instrs a b) :
    ∃ opening ∈ code.decoded, ∃ closing ∈ code.decoded,
      opening.offset = offsetOf p.instrs a ∧ opening.opcode = .forInit ∧
      closing.offset = offsetOf p.instrs b ∧ closing.opcode = .forNext ∧
      opening.address?.map UInt32.toNat = some (closing.offset + closing.opcode.width) ∧
      closing.address?.map UInt32.toNat = some (opening.offset + opening.opcode.width) ∧
      ∃ w o loc collection item, p.instrs[a]? = some (.forInit loc collection item) ∧
        opening.operands[1]? = some w ∧ closing.operands[0]? = some w ∧
        Operand.decode? w = some o ∧
        ∀ k, a ≤ k → k ≤ b →
          (Slot.var item).StoredAt n (Frame.after (p.instrs.take k)) code o ∧
          (Frame.NeverWraps (p.instrs.take k) → ∀ t r,
            (Frame.after (p.instrs.take k)).resolve t = .ok r →
            o.index.toNat = n.toNat + r.toNat → item.same (.temp t) = true) := by
  obtain ⟨loc, collection, item, ha⟩ := hm.opening
  obtain ⟨loc', hb⟩ := hm.closing
  obtain ⟨opening, hopening, hoffset, hop, haddress, w, hw, o, hplace, rfl⟩ :=
    exists_opening_of_lower h hm ha
  obtain ⟨closing, hclosing, hoffset', hop', haddress', w', hw', o', hplace', rfl⟩ :=
    exists_closing_of_lower h hm ha
  obtain ⟨x, hx, hkind⟩ := Option.map_eq_some_iff.1 hplace
  obtain ⟨y, hy, -⟩ := Option.map_eq_some_iff.1 hplace'
  -- the variable is looked up at both ends, and keeps its index from one to the other
  have hindex {k : Nat} (hak : a ≤ k) (hkb : k ≤ b) :
      item.index? n (Frame.after (p.instrs.take k)) = some x :=
    Var.index?_eq_of_le hx hy hak hkb
  have hword {k : Nat} (hak : a ≤ k) (hkb : k ≤ b) :
      (Slot.var item).Word n (Frame.after (p.instrs.take k)) (poolOf p.instrs) o.encode :=
    ⟨o, by rw [Slot.place?, hindex hak hkb]; exact congrArg some hkind, rfl⟩
  have hsame : o'.encode = o.encode :=
    Slot.Word.unique ⟨o', hplace', rfl⟩ (hword (Nat.le_of_lt hm.lt) (Nat.le_refl _))
  refine ⟨opening, hopening, closing, hclosing, hoffset, hop, hoffset', hop', ?_, ?_,
    o.encode, o, loc, collection, item, ha, hw, by rw [hw', hsame], o.decode?_encode,
    fun k hak hkb => ⟨?_, fun hwraps t r ht hr => ?_⟩⟩
  · rw [haddress, hoffset', hop', Option.map_some,
      toNat_toUInt32 (offsetOf_lt_size_of_lower h hsize _), offsetOf_succ hb]
    rfl
  · rw [haddress', hoffset, hop, Option.map_some,
      toNat_toUInt32 (offsetOf_lt_size_of_lower h hsize _), offsetOf_succ ha]
    rfl
  · have := hword hak hkb
    rw [← constants_of_lower h] at this
    obtain ⟨o'', ho'', hstored⟩ := this.storedAt
    rw [o.decode?_encode] at ho''
    cases ho''
    exact hstored
  · have hx' : x = n.toNat + r.toNat := (congrArg Prod.snd hkind).trans hr
    exact Var.same_of_index?_eq (Frame.coherent_after hwraps) (Frame.resolve_eq_ok_iff.1 ht)
      (hx' ▸ hindex hak hkb)

theorem loops_of_lower_searchLoop :
    (searchLoop.lower 2).result = .ok searchCode ∧ searchCode.size < UInt32.size ∧
      Matched searchLoop.instrs 1 9 ∧
      ∃ opening ∈ searchCode.decoded, ∃ closing ∈ searchCode.decoded,
        opening.offset = 0 ∧ closing.offset = 22 ∧
        opening.address?.map UInt32.toNat = some 25 ∧ closing.address?.map UInt32.toNat = some 4 ∧
        opening.operands[1]? = closing.operands[0]? := by
  have hsize : searchCode.size < UInt32.size := by decide
  have hinner : Balanced [searchLoop.instrs[4], searchLoop.instrs[5], searchLoop.instrs[6]] :=
    .cons rfl (.cons rfl (.cons rfl .nil))
  have hmatched : Matched searchLoop.instrs 1 9 :=
    ⟨by decide, ⟨_, _, _, rfl⟩, ⟨_, rfl⟩, .cons rfl (.loop hinner (.cons rfl .nil))⟩
  refine ⟨lower_searchLoop, hsize, hmatched, ?_⟩
  obtain ⟨opening, hopening, closing, hclosing, hoffset, hop, hoffset', hop', hend, hstart, w, -, -,
    -, -, -, hw, hw', -⟩ := loops_of_lower lower_searchLoop hsize hmatched
  rw [hoffset', hop'] at hend
  rw [hoffset, hop] at hstart
  exact ⟨opening, hopening, closing, hclosing, hoffset, hoffset', hend, hstart, hw.trans hw'.symm⟩

/-! ## A loop beside too many temporaries -/

/-- A loop with nothing in it, after the allocations of `k` temporaries, of which the first is its
variable. -/
def crowdedLoop (k : Nat) : Program :=
  ⟨crowd k ++ [.forInit ⟨1, 1⟩ (.global 0) (.temp (numbered 0)), .forClose ⟨1, 1⟩]⟩

/-- Its code, if there are more temporaries than words. -/
def crowdedCode : Code where
  words := #[4, 0x20000000, 0, 7, 5, 0, 4]
  locs := Array.replicate 7 ⟨1, 1⟩
  frameSize := 0xffffffff

/-- The pass in the loop. -/
def insideCrowded (f : Frame) : Pass where
  fixedLocals := 0
  code := { words := #[4, 0x20000000, 0, pending], locs := Array.replicate 4 ⟨1, 1⟩ }
  frame := f
  jumps := { loops := [⟨.temp (numbered 0), 4, 3⟩] }
  accounted := 4
  maxLocal := some 0

/-- The pass after the loop. -/
def afterCrowded (f : Frame) : Pass where
  fixedLocals := 0
  code := { crowdedCode with frameSize := 0 }
  frame := f
  accounted := 7
  maxLocal := some 0

/-- The word of the variable, if the variable has the first cell. -/
theorem writeField_first {f : Frame} (hf : f.resolve (numbered 0) = .ok 0) {p : Pass} (n : Nat)
    (hlocals : p.fixedLocals = 0) (hframe : p.frame = f) :
    p.writeField n (.slot (.var (.temp (numbered 0)))) =
      .ok ({ p with maxLocal := some (p.maxLocal.elim 0 (max · 0)) }.push p.loc 0) := by
  rw [Pass.writeField, Pass.writeSlot, Pass.frameIndex, hframe, hf, hlocals]
  rfl

theorem openLoop_crowded {f : Frame} (hf : f.resolve (numbered 0) = .ok 0) (n : Nat) :
    Pass.openLoop { fixedLocals := 0, frame := f } n ⟨1, 1⟩ (.global 0) (.temp (numbered 0)) =
      .ok (insideCrowded f) := by
  have hfields : [.slot (.global 0), .slot (.var (.temp (numbered 0))),
      .located ⟨1, 1⟩ pending].foldlM (Pass.writeField n)
        (Pass.start { fixedLocals := 0, frame := f } ⟨1, 1⟩ .forInit) =
      .ok { insideCrowded f with
        jumps := {}, current := some ⟨.forInit, 0, ⟨1, 1⟩⟩, accounted := 0 } :=
    bind_eq_ok_iff.2 ⟨_, rfl, bind_eq_ok_iff.2 ⟨_, writeField_first hf n rfl rfl, rfl⟩⟩
  exact bind_eq_ok_iff.2 ⟨_, bind_eq_ok_iff.2 ⟨_, hfields, rfl⟩, rfl⟩

theorem closeLoop_crowded {f : Frame} (hf : f.resolve (numbered 0) = .ok 0) (n : Nat) :
    (insideCrowded f).closeLoop n ⟨1, 1⟩ = .ok (afterCrowded f) := by
  have hfields : [.slot (.var (.temp (numbered 0))), .located ⟨1, 1⟩ 4].foldlM (Pass.writeField n)
        (Pass.start { insideCrowded f with jumps := {} } ⟨1, 1⟩ .forNext) =
      .ok { afterCrowded f with
        code := { words := #[4, 0x20000000, 0, pending, 5, 0, 4], locs := Array.replicate 7 ⟨1, 1⟩ }
        current := some ⟨.forNext, 4, ⟨1, 1⟩⟩, accounted := 4 } :=
    bind_eq_ok_iff.2 ⟨_, writeField_first hf n rfl rfl, rfl⟩
  exact bind_eq_ok_iff.2 ⟨_, rfl, bind_eq_ok_iff.2 ⟨_, bind_eq_ok_iff.2 ⟨_, hfields, rfl⟩, rfl⟩⟩

theorem reaches_crowdedLoop {k : Nat} (hpos : 0 < k) (hk : k ≤ UInt64.size) :
    Pass.Reaches 0 (crowdedLoop k).instrs (afterCrowded (Frame.after (crowd k))) := by
  have hfirst : (Frame.after (crowd k)).resolve (numbered 0) = .ok 0 :=
    (Frame.crowded_after hk).resolve hpos
  refine Pass.reaches_of_run (Pass.reaches_crowd hk 0) ?_
  rw [Pass.run, Pass.step, openLoop_crowded hfirst]
  show (Pass.run (insideCrowded _) _ [.forClose ⟨1, 1⟩]).2 = _
  rw [Pass.run, Pass.step, closeLoop_crowded hfirst]
  rfl

theorem lower_crowdedLoop {k : Nat} (hk : UInt32.size < k) (hk' : k ≤ UInt64.size) :
    ((crowdedLoop k).lower 0).result = .ok crowdedCode := by
  have hsize := (Frame.crowded_after hk').highWater_eq (by omega)
  refine lower_eq_ok_iff.2 ⟨_, reaches_crowdedLoop (Nat.zero_lt_of_lt hk) hk', ?_⟩
  refine Pass.finish_eq_ok_iff.2 ⟨[], 0xffffffff, rfl, Pass.check_eq_ok_iff.2 ?_, rfl⟩
  refine ⟨rfl, rfl, sum?_eq_some_iff.2 ?_, fun index hindex => ?_⟩
  · show _ = 0 + (Frame.after (crowd k)).highWater.toNat
    rw [hsize]
    rfl
  · cases hindex
    decide

theorem opening_crowdedLoop (k : Nat) : (crowdedLoop k).instrs[k]? =
    some (.forInit ⟨1, 1⟩ (.global 0) (.temp (numbered 0))) := by
  have hlength := length_crowd k
  rw [crowdedLoop, List.getElem?_append_right (by omega), hlength, Nat.sub_self]
  rfl

theorem matched_crowdedLoop (k : Nat) : Matched (crowdedLoop k).instrs k (k + 1) := by
  have hlength := length_crowd k
  refine ⟨Nat.lt_succ_self k, ⟨_, _, _, opening_crowdedLoop k⟩, ⟨⟨1, 1⟩, ?_⟩, ?_⟩
  · rw [crowdedLoop, List.getElem?_append_right (by omega), hlength, Nat.add_sub_cancel_left]
    rfl
  · rw [List.drop_eq_nil_of_le (List.length_take_le _ _)]
    exact .nil

/-- All temporaries keep the cells that they were given all through the loop. -/
theorem resolve_crowdedLoop {k i j : Nat} (hk : k ≤ UInt64.size) (hi : i < k) (hkj : k ≤ j)
    (hj : j ≤ k + 1) :
    (Frame.after ((crowdedLoop k).instrs.take j)).resolve (numbered i) = .ok i.toUInt32 := by
  have hframe : Frame.after ((crowdedLoop k).instrs.take j) = Frame.after (crowd k) := by
    rw [crowdedLoop, List.take_append, List.take_of_length_le (by rw [length_crowd]; exact hkj),
      length_crowd, Frame.after_append]
    obtain hjk | hjk : j - k = 0 ∨ j - k = 1 := by omega
    · rw [hjk]
      rfl
    · rw [hjk]
      rfl
  rw [hframe]
  exact (Frame.crowded_after hk).resolve hi

/-- The variable of a loop can share its place with another temporary all through the loop. -/
theorem shared_item_crowdedLoop :
    let p := crowdedLoop (UInt32.size + 1)
    (p.lower 0).result = .ok crowdedCode ∧ crowdedCode.size < UInt32.size ∧
      Matched p.instrs (UInt32.size + 1) (UInt32.size + 2) ∧
      p.instrs[UInt32.size + 1]? = some (.forInit ⟨1, 1⟩ (.global 0) (.temp (numbered 0))) ∧
      (numbered 0).id ≠ (numbered UInt32.size).id ∧
      ∀ k, UInt32.size + 1 ≤ k → k ≤ UInt32.size + 2 →
        (Frame.after (p.instrs.take k)).resolve (numbered 0) = .ok 0 ∧
          (Frame.after (p.instrs.take k)).resolve (numbered UInt32.size) = .ok 0 := by
  have hsize : UInt32.size + 1 ≤ UInt64.size := by decide
  refine ⟨lower_crowdedLoop (Nat.lt_succ_self _) hsize, by decide, matched_crowdedLoop _,
    opening_crowdedLoop _, ?_, fun k hk hk' => ⟨?_, ?_⟩⟩
  · exact mt (id_numbered_eq_iff (by decide) (by decide)).1 (by decide)
  · exact resolve_crowdedLoop hsize (Nat.succ_pos _) hk hk'
  · exact resolve_crowdedLoop hsize (Nat.lt_succ_self _) hk hk'

end Program

end Assembler
