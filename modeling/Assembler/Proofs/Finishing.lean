import Mathlib.Data.List.Forall2
import Assembler.Proofs.Image

/-!
# The end of a pass

A label has the offset of the one instruction that places it, and every branch to it comes before
that. Once the words that wait for labels are patched, the code is the image of the program with
those addresses (`Pass.Reaches.image_patchAll`). No other word is touched.
-/

namespace Assembler

theorem mapM_eq_ok_iff {ε α β : Type} {f : α → Except ε β} {as : List α} {bs : List β} :
    as.mapM f = .ok bs ↔ List.Forall₂ (fun a b => f a = .ok b) as bs := by
  induction as generalizing bs with
  | nil =>
    rw [List.mapM_nil, pure_eq_ok_iff, List.forall₂_nil_left_iff]
    exact eq_comm
  | cons a as ih =>
    rw [List.mapM_cons, List.forall₂_cons_left_iff]
    simp only [bind_eq_ok_iff, pure_eq_ok_iff, ih]
    constructor
    · rintro ⟨b, hb, bs', hbs, rfl⟩
      exact ⟨b, bs', hb, hbs, rfl⟩
    · rintro ⟨b, bs', hb, hbs, rfl⟩
      exact ⟨b, hb, bs', hbs, rfl⟩

/-- The first element that fails decides. -/
theorem exists_of_mapM_eq_error {ε α β : Type} {f : α → Except ε β} {as : List α} {e : ε}
    (h : as.mapM f = .error e) :
    ∃ before a after, as = before ++ a :: after ∧ f a = .error e ∧
      ∀ a' ∈ before, ∃ b, f a' = .ok b := by
  induction as with
  | nil => cases h
  | cons a as ih =>
    rw [List.mapM_cons] at h
    cases ha : f a with
    | error e' =>
      rw [ha] at h
      cases h
      exact ⟨[], a, as, rfl, ha, fun _ h => absurd h List.not_mem_nil⟩
    | ok b =>
      rw [ha] at h
      cases has : as.mapM f with
      | ok bs =>
        rw [has] at h
        cases h
      | error e' =>
        rw [has] at h
        cases h
        obtain ⟨before, a', after, rfl, ha', hbefore⟩ := ih has
        refine ⟨a :: before, a', after, rfl, ha', fun x hx => ?_⟩
        rcases List.mem_cons.1 hx with rfl | hx
        · exact ⟨b, ha⟩
        · exact hbefore x hx

theorem exists_mapM_eq_ok {ε α β : Type} {f : α → Except ε β} {as : List α}
    (h : ∀ a ∈ as, ∃ b, f a = .ok b) : ∃ bs, as.mapM f = .ok bs := by
  cases hmap : as.mapM f with
  | ok bs => exact ⟨bs, rfl⟩
  | error e =>
    obtain ⟨before, a, after, rfl, ha, -⟩ := exists_of_mapM_eq_error hmap
    obtain ⟨b, hb⟩ := h a (List.mem_append_right _ List.mem_cons_self)
    rw [ha] at hb
    cases hb

/-! ## Labels -/

/-- `w` is the address of the place of a label in the program `is`. -/
def LabelAddress (is : List Instr) (label : Label) (w : UInt32) : Prop :=
  ∃ t, is[t]? = some (.place label) ∧ w = (offsetOf is t).toUInt32

/-- The address words of an instruction that wait for a label are those for its targets. -/
theorem Instr.mem_fixups {k off : Nat} {i : Instr} {f : Fixup} :
    f ∈ i.fixups k off ↔
      ∃ m label, i.roles[m]? = some (.target label) ∧ f = ⟨off + 1 + m, label, k⟩ := by
  cases i with
  | branch loc label =>
    constructor
    · intro h
      exact ⟨0, label, rfl, List.mem_singleton.1 h⟩
    · rintro ⟨m, label', hm, rfl⟩
      rcases m with _ | m
      · cases hm
        exact List.mem_singleton.2 rfl
      · cases hm
  | branchIf loc cond test label =>
    constructor
    · intro h
      exact ⟨1, label, rfl, List.mem_singleton.1 h⟩
    · rintro ⟨m, label', hm, rfl⟩
      rcases m with _ | _ | m
      · cases hm
      · cases hm
        exact List.mem_singleton.2 rfl
      · cases hm
  | op loc opcode args =>
    refine ⟨fun h => absurd h List.not_mem_nil, ?_⟩
    rintro ⟨m, label, hm, -⟩
    obtain ⟨a, -, ha⟩ := List.mem_map.1 (List.mem_of_getElem? hm)
    cases a <;> cases ha
  | _ =>
    refine ⟨fun h => absurd h List.not_mem_nil, ?_⟩
    rintro ⟨m, label, hm, -⟩
    have := List.mem_of_getElem? hm
    simp [Instr.roles] at this

theorem Instr.mem_placements {k off : Nat} {i : Instr} {label : Label} {address : UInt32} :
    (label, address) ∈ i.placements k off ↔ i = .place label ∧ address = off.toUInt32 := by
  cases i with
  | place label' =>
    simp only [placements, List.mem_singleton, Prod.mk.injEq, Instr.place.injEq]
    rw [eq_comm (a := label)]
  | _ => simp [placements]

namespace Pass

variable {n : UInt32} {is : List Instr} {i : Instr} {p : Pass} {label : Label}

theorem Ledger.mem_placed (h : Ledger n is p) {address : UInt32} :
    (label, address) ∈ p.jumps.placed ↔ LabelAddress is label address := by
  rw [h.placed, List.mem_reverse, mem_scan]
  simp only [Instr.mem_placements, Nat.zero_add]
  constructor
  · rintro ⟨m, i, hm, rfl, haddress⟩
    exact ⟨m, hm, haddress⟩
  · rintro ⟨m, hm, haddress⟩
    exact ⟨m, _, hm, rfl, haddress⟩

theorem Ledger.address?_eq_none_iff (h : Ledger n is p) :
    p.jumps.address? label = none ↔ ∀ m : Nat, is[m]? ≠ some (.place label) := by
  rw [Jumps.address?, List.lookup_eq_none_iff]
  constructor
  · intro hnone m hm
    simpa using hnone _ (h.mem_placed.2 ⟨m, hm, rfl⟩)
  · rintro hnone ⟨label', address⟩ hmem
    obtain ⟨m, hm, -⟩ := h.mem_placed.1 hmem
    simp only [bne_iff_ne, ne_eq]
    rintro rfl
    exact hnone m hm

theorem Ledger.place_of_address? (h : Ledger n is p) {address : UInt32}
    (haddress : p.jumps.address? label = some address) : LabelAddress is label address := by
  obtain ⟨l₁, l₂, heq, -⟩ := List.lookup_eq_some_iff.1 haddress
  exact h.mem_placed.1 (heq ▸ List.mem_append_right _ List.mem_cons_self)

theorem Ledger.mem_fixups (h : Ledger n is p) {f : Fixup} :
    f ∈ p.jumps.fixups ↔
      ∃ k i m label, is[k]? = some i ∧ i.roles[m]? = some (.target label) ∧
        f = ⟨offsetOf is k + 1 + m, label, k⟩ := by
  rw [h.fixups, mem_scan]
  simp only [Instr.mem_fixups, Nat.zero_add]
  constructor
  · rintro ⟨k, i, hk, m, label, hm, hf⟩
    exact ⟨k, i, m, label, hk, hm, hf⟩
  · rintro ⟨k, i, m, label, hk, hm, hf⟩
    exact ⟨k, i, hk, m, label, hm, hf⟩

/-- A label is placed after every instruction that waits for it. -/
theorem Reaches.lt_of_place (h : Reaches n is p) {k m : Nat} (hk : is[k]? = some i)
    (hrole : .target label ∈ i.roles) (hm : is[m]? = some (.place label)) : k < m := by
  obtain ⟨q, r, hq, hstep⟩ := h.stepped_at hk
  cases hstep with
  | alloc => cases hrole
  | release => cases hrole
  | place => cases hrole
  | @write i op q' hop hi hclose hwrite =>
    have hwritable := (hq.ledger.wrote hwrite).writable _ (List.mem_map_of_mem hrole)
    rw [leave_eq] at hwritable
    have hnone := hq.ledger.address?_eq_none_iff.1 hwritable m
    rcases Nat.lt_trichotomy k m with hlt | rfl | hgt
    · exact hlt
    · obtain rfl := Option.some.inj (hk.symm.trans hm)
      cases hrole
    · rw [List.getElem?_take_of_lt hgt] at hnone
      exact absurd hm hnone

theorem Reaches.le_of_place (h : Reaches n is p) {k m : Nat} (hk : is[k]? = some (.place label))
    (hm : is[m]? = some (.place label)) : k ≤ m := by
  obtain ⟨q, r, hq, hstep⟩ := h.stepped_at hk
  cases hstep with
  | place hnone =>
    have hnone := hq.ledger.address?_eq_none_iff.1 hnone m
    by_contra hlt
    rw [List.getElem?_take_of_lt (Nat.lt_of_not_le hlt)] at hnone
    exact hnone hm
  | write hop => cases hop

/-- A label is placed once. -/
theorem Reaches.place_unique (h : Reaches n is p) {k m : Nat} (hk : is[k]? = some (.place label))
    (hm : is[m]? = some (.place label)) : k = m :=
  Nat.le_antisymm (h.le_of_place hk hm) (h.le_of_place hm hk)

end Pass

/-! ## Patches -/

namespace Code

/-- The code with the words at given offsets replaced. -/
def patchAll (c : Code) (patches : List (Nat × UInt32)) : Code :=
  patches.foldl (fun c patch => c.patch patch.1 patch.2) c

theorem patchAll_cons (c : Code) (patch : Nat × UInt32) (patches : List (Nat × UInt32)) :
    c.patchAll (patch :: patches) = (c.patch patch.1 patch.2).patchAll patches :=
  rfl

/-- Patches change nothing but words, and not how many they are. -/
theorem patchAll_eq (c : Code) (patches : List (Nat × UInt32)) :
    (c.patchAll patches).size = c.size ∧
      c.patchAll patches = { c with words := (c.patchAll patches).words } := by
  induction patches generalizing c with
  | nil => exact ⟨rfl, rfl⟩
  | cons patch patches ih =>
    obtain ⟨hsize, heq⟩ := ih (c.patch patch.1 patch.2)
    rw [patchAll_cons]
    exact ⟨hsize.trans (size_patch _ _ _), heq⟩

theorem wordAt?_patchAll_of_forall_ne {patches : List (Nat × UInt32)} {offset : Nat}
    (h : ∀ patch ∈ patches, patch.1 ≠ offset) (c : Code) :
    (c.patchAll patches).wordAt? offset = c.wordAt? offset := by
  induction patches generalizing c with
  | nil => rfl
  | cons patch patches ih =>
    rw [patchAll_cons, ih fun x hx => h x (List.mem_cons_of_mem _ hx),
      wordAt?_patch_ne _ (h patch List.mem_cons_self)]

/-- Patches of one word that agree leave the word they all give. -/
theorem wordAt?_patchAll_of_mem {patches : List (Nat × UInt32)} {offset : Nat} {w : UInt32}
    (hmem : (offset, w) ∈ patches) (hw : ∀ patch ∈ patches, patch.1 = offset → patch.2 = w)
    {c : Code} (hlt : offset < c.size) : (c.patchAll patches).wordAt? offset = some w := by
  induction patches generalizing c with
  | nil => cases hmem
  | cons patch patches ih =>
    rw [patchAll_cons]
    have hw' x (hx : x ∈ patches) := hw x (List.mem_cons_of_mem _ hx)
    by_cases hlater : (offset, w) ∈ patches
    · exact ih hlater hw' (by rwa [size_patch])
    · obtain rfl : (offset, w) = patch := (List.mem_cons.1 hmem).resolve_right hlater
      rw [wordAt?_patchAll_of_forall_ne, wordAt?_patch_self hlt]
      rintro ⟨offset', w'⟩ hx rfl
      obtain rfl : w' = w := hw' _ hx rfl
      exact hlater hx

end Code

namespace Pass

variable {n : UInt32} {is : List Instr} {i : Instr} {p : Pass} {patches : List (Nat × UInt32)}

theorem resolve_eq_ok_iff {j : Jumps} :
    j.resolve = .ok patches ↔
      List.Forall₂ (fun f patch => j.address? f.label = some patch.2 ∧ patch.1 = f.offset)
        j.fixups patches := by
  rw [Jumps.resolve, mapM_eq_ok_iff]
  constructor
  · refine List.Forall₂.imp fun f patch h => ?_
    cases haddress : j.address? f.label with
    | none =>
      rw [haddress] at h
      cases h
    | some address =>
      rw [haddress] at h
      cases h
      exact ⟨rfl, rfl⟩
  · refine List.Forall₂.imp fun f patch h => ?_
    rw [h.1, ← h.2]

/-- If every branch has its label, every address is known at the end. -/
theorem Ledger.exists_resolve (h : Ledger n is p)
    (hplaced : ∀ {k : Nat} {i label}, is[k]? = some i → i.target? = some label →
      ∃ t : Nat, is[t]? = some (.place label)) : ∃ patches, p.jumps.resolve = .ok patches := by
  apply exists_mapM_eq_ok
  intro f hf
  obtain ⟨k, i, m, label, hk, hm, rfl⟩ := h.mem_fixups.1 hf
  obtain ⟨t, ht⟩ := hplaced hk (Instr.target?_eq_some_iff.2 (List.mem_of_getElem? hm))
  cases haddress : p.jumps.address? label with
  | none => exact absurd ht (h.address?_eq_none_iff.1 haddress t)
  | some address => exact ⟨_, rfl⟩

/-- Every patch puts the address of a label into a word that waits for it. -/
theorem Ledger.mem_patches (h : Ledger n is p) (hres : p.jumps.resolve = .ok patches)
    {patch : Nat × UInt32} (hmem : patch ∈ patches) :
    ∃ k i m label t, is[k]? = some i ∧ i.roles[m]? = some (.target label) ∧
      is[t]? = some (.place label) ∧
      patch = (offsetOf is k + 1 + m, (offsetOf is t).toUInt32) := by
  obtain ⟨j, hj⟩ := List.getElem?_of_mem hmem
  have hforall := (resolve_eq_ok_iff.1 hres).flip
  obtain ⟨f, hf, haddress, hoffset⟩ := exists_getElem?_of_forall₂ hforall hj
  obtain ⟨k, i, m, label, hk, hm, rfl⟩ := h.mem_fixups.1 (List.mem_of_getElem? hf)
  obtain ⟨t, ht, hpatch⟩ := h.place_of_address? haddress
  exact ⟨k, i, m, label, t, hk, hm, ht, Prod.ext hoffset hpatch⟩

/-- Every word that waits for a label is patched. -/
theorem Ledger.exists_patch (h : Ledger n is p) (hres : p.jumps.resolve = .ok patches) {k m : Nat}
    {label : Label} (hk : is[k]? = some i) (hm : i.roles[m]? = some (.target label)) :
    ∃ t, is[t]? = some (.place label) ∧
      (offsetOf is k + 1 + m, (offsetOf is t).toUInt32) ∈ patches := by
  have hf : (⟨offsetOf is k + 1 + m, label, k⟩ : Fixup) ∈ p.jumps.fixups :=
    h.mem_fixups.2 ⟨k, i, m, label, hk, hm, rfl⟩
  obtain ⟨j, hj⟩ := List.getElem?_of_mem hf
  obtain ⟨⟨offset, w⟩, hx, haddress, hoffset⟩ :=
    exists_getElem?_of_forall₂ (resolve_eq_ok_iff.1 hres) hj
  obtain ⟨t, ht, hw⟩ := h.place_of_address? haddress
  obtain rfl : offset = offsetOf is k + 1 + m := hoffset
  obtain rfl : w = (offsetOf is t).toUInt32 := hw
  exact ⟨t, ht, List.mem_of_getElem? hx⟩

/-- A word that waits for no label is not patched. -/
theorem Reaches.wordAt?_patchAll (h : Reaches n is p) (hres : p.jumps.resolve = .ok patches)
    {offset : Nat}
    (hoffset : ∀ k i m label, is[k]? = some i → i.roles[m]? = some (.target label) →
      offset ≠ offsetOf is k + 1 + m) :
    (p.code.patchAll patches).wordAt? offset = p.code.wordAt? offset := by
  apply Code.wordAt?_patchAll_of_forall_ne
  intro patch hmem
  obtain ⟨k, i, m, label, t, hk, hm, -, rfl⟩ := h.ledger.mem_patches hres hmem
  exact (hoffset k i m label hk hm).symm

/-- Patched code is the image of the program, with labels where they are placed. -/
theorem Reaches.image_patchAll (h : Reaches n is p) (hres : p.jumps.resolve = .ok patches) :
    Image n is (LabelAddress is) (p.code.patchAll patches) := by
  intro k
  refine ⟨fun {i op} hk hop => ?_, fun {i m role} hk hm => ?_⟩
  · rw [h.wordAt?_patchAll hres]
    · exact (h.image k).opcode hk hop
    · intro k' i' m' label hk' hm'
      exact (offsetOf_operand_ne hk' (h.formed hk') hm' k).symm
  · obtain ⟨w, hw, hmeans⟩ := (h.image k).operand hk hm
    by_cases htarget : ∃ label, role = .target label
    · obtain ⟨label, rfl⟩ := htarget
      obtain ⟨t, ht, hmem⟩ := h.ledger.exists_patch hres hk hm
      refine ⟨_, Code.wordAt?_patchAll_of_mem hmem ?_ ?_, t, ht, rfl⟩
      · -- a patch of this word is for the same branch, so for the same label
        intro patch hmem' hoffset
        obtain ⟨k', i', m', label', t', hk', hm', ht', rfl⟩ := h.ledger.mem_patches hres hmem'
        obtain ⟨rfl, rfl⟩ := offsetOf_operand_inj hk' (h.formed hk') hm' hk (h.formed hk) hm hoffset
        obtain rfl := Option.some.inj (hk.symm.trans hk')
        obtain rfl : label = label' := by simpa using hm.symm.trans hm'
        rw [h.place_unique ht' ht]
      · rw [Code.wordAt?_eq] at hw
        exact (List.getElem?_eq_some_iff.1 hw).1
    · refine ⟨w, ?_, ?_⟩
      · rw [h.wordAt?_patchAll hres, hw]
        intro k' i' m' label hk' hm' hoffset
        obtain ⟨rfl, rfl⟩ := offsetOf_operand_inj hk (h.formed hk) hm hk' (h.formed hk') hm' hoffset
        obtain rfl := Option.some.inj (hk.symm.trans hk')
        exact htarget ⟨label, Option.some.inj (hm.symm.trans hm')⟩
      · cases role with
        | target label => exact absurd ⟨label, rfl⟩ htarget
        | _ => exact hmeans

/-! ## Lowered code -/

theorem check_eq_ok_iff {frameSize : UInt32} :
    p.check = .ok frameSize ↔
      p.jumps.loops = [] ∧ p.accounted = p.code.size ∧
        sum? p.fixedLocals p.frame.highWater = some frameSize ∧
        ∀ index, p.maxLocal = some index → index < frameSize := by
  unfold check
  split
  next h => simp [h]
  next h =>
    split
    next h' => simp [h']
    next h' =>
      simp only [ne_eq, Decidable.not_not] at h h'
      simp only [h, h', true_and]
      cases sum? p.fixedLocals p.frame.highWater with
      | none => simp
      | some size =>
        cases p.maxLocal with
        | none => simp
        | some index =>
          simp only [Option.some.injEq, forall_eq']
          split
          next hle =>
            simp only [reduceCtorEq, false_iff, not_and]
            rintro rfl
            exact UInt32.not_lt.2 hle
          next hlt =>
            simp only [Except.ok.injEq]
            refine ⟨?_, And.left⟩
            rintro rfl
            exact ⟨rfl, UInt32.not_le.1 hlt⟩

theorem finish_eq_ok_iff {code : Code} :
    p.finish.2 = .ok code ↔
      ∃ patches frameSize, p.jumps.resolve = .ok patches ∧ p.check = .ok frameSize ∧
        code = { p.code.patchAll patches with frameSize } := by
  unfold finish
  cases p.jumps.resolve with
  | error e => simp
  | ok patches =>
    cases p.check with
    | error e => simp [Except.map]
    | ok frameSize =>
      simp only [Except.map, Except.ok.injEq]
      constructor
      · rintro rfl
        exact ⟨patches, frameSize, rfl, rfl, rfl⟩
      · rintro ⟨_, _, rfl, rfl, rfl⟩
        rfl

end Pass

namespace Program

variable {n : UInt32} {p : Program} {code : Code}

theorem lower_eq_ok_iff :
    (p.lower n).result = .ok code ↔
      ∃ pass, Pass.Reaches n p.instrs pass ∧ pass.finish.2 = .ok code := by
  simp only [Pass.reaches_iff_run]
  unfold lower
  split
  next events index fault hrun => simp [hrun]
  next events pass hrun =>
    simp only [hrun, Except.ok.injEq, exists_eq_left']
    split
    next hfinish => simp [hfinish]
    next hfinish => simp [hfinish]

/-- The code of a program is the image of its instructions. -/
theorem image_of_lower (h : (p.lower n).result = .ok code) :
    Image n p.instrs (LabelAddress p.instrs) code := by
  obtain ⟨pass, hreaches, hfinish⟩ := lower_eq_ok_iff.1 h
  obtain ⟨patches, frameSize, hres, -, rfl⟩ := Pass.finish_eq_ok_iff.1 hfinish
  have himage := hreaches.image_patchAll hres
  exact fun k => ⟨(himage k).opcode, (himage k).operand⟩

theorem size_of_lower (h : (p.lower n).result = .ok code) : code.size = span p.instrs := by
  obtain ⟨pass, hreaches, hfinish⟩ := lower_eq_ok_iff.1 h
  obtain ⟨patches, frameSize, -, -, rfl⟩ := Pass.finish_eq_ok_iff.1 hfinish
  exact (pass.code.patchAll_eq patches).1.trans hreaches.ledger.size

theorem constants_of_lower (h : (p.lower n).result = .ok code) :
    code.constants = poolOf p.instrs := by
  obtain ⟨pass, hreaches, hfinish⟩ := lower_eq_ok_iff.1 h
  obtain ⟨patches, frameSize, -, -, rfl⟩ := Pass.finish_eq_ok_iff.1 hfinish
  show (pass.code.patchAll patches).constants = _
  rw [(pass.code.patchAll_eq patches).2]
  exact hreaches.ledger.constants

theorem locs_of_lower (h : (p.lower n).result = .ok code) :
    code.locs.toList = p.instrs.flatMap fun i => List.replicate i.width i.loc := by
  obtain ⟨pass, hreaches, hfinish⟩ := lower_eq_ok_iff.1 h
  obtain ⟨patches, frameSize, -, -, rfl⟩ := Pass.finish_eq_ok_iff.1 hfinish
  show (pass.code.patchAll patches).locs.toList = _
  rw [(pass.code.patchAll_eq patches).2]
  exact hreaches.ledger.locs

theorem frameSize_of_lower (h : (p.lower n).result = .ok code) :
    code.frameSize.toNat = n.toNat + (Frame.after p.instrs).highWater.toNat := by
  obtain ⟨pass, hreaches, hfinish⟩ := lower_eq_ok_iff.1 h
  obtain ⟨patches, frameSize, -, hcheck, rfl⟩ := Pass.finish_eq_ok_iff.1 hfinish
  obtain ⟨-, -, hsum, -⟩ := Pass.check_eq_ok_iff.1 hcheck
  rwa [sum?_eq_some_iff, hreaches.ledger.fixedLocals, hreaches.ledger.frame] at hsum

theorem formed_of_lower (h : (p.lower n).result = .ok code) {k : Nat} {i : Instr}
    (hk : p.instrs[k]? = some i) : i.Formed := by
  obtain ⟨pass, hreaches, -⟩ := lower_eq_ok_iff.1 h
  exact hreaches.formed hk

end Program

/-! ## A program and its code -/

/-- A loop over the rows of a global, and over the items of each row, that is left at the first
string. -/
def searchLoop : Program :=
  let loc : Position := ⟨1, 1⟩
  let row : Temp := ⟨0, "row"⟩
  let item : Temp := ⟨1, "item"⟩
  let done : Label := ⟨0⟩
  ⟨[.alloc row,
    .forInit loc (.global 7) (.temp row),
    .alloc item,
    .forInit loc (.var (.temp row)) (.temp item),
    .typeIs loc (.var (.temp item)) "str" (.fixed ⟨1⟩),
    .branchIf loc (.fixed ⟨1⟩) .whenTrue done,
    .op loc .add [.input (.var (.temp item)), .const (.int 1), .output (.fixed ⟨0⟩)],
    .forClose loc,
    .release item,
    .forClose loc,
    .place done,
    .release row,
    .ret loc (.var (.fixed ⟨0⟩))]⟩

/-- Its code, if it has two fixed locals. -/
def searchCode : Code where
  words :=
    #[4, 0x20000007, 2, 25, 4, 2, 3, 22, 8, 3, 0x10000000, 1, 2, 1, 25, 9, 3, 0x10000001, 0, 5, 3,
      8, 5, 2, 4, 6, 0]
  locs := Array.replicate 27 ⟨1, 1⟩
  constants := ⟨[.str "str", .int 1]⟩
  frameSize := 4

theorem lower_searchLoop : (searchLoop.lower 2).result = .ok searchCode := by
  decide

end Assembler
