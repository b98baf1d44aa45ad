import Mathlib.Data.List.Forall2
import Assembler.Proofs.Passes

/-!
# The image of a program

The code of a program is its image if each word is what the program says of it: the word of the
opcode at the offset of each instruction, and after it a word for each role, which `Role.Means`
ties to the frame at that instruction, to the pool, and to the other end of its loop. What is known
of the labels is a parameter: nothing while the pass is under way, and their addresses at the end.

Every step of the pass keeps the image (`Pass.Ledger.image_step`). The only words that change once
they are written are the address of a loop's end, where the loop is closed, and those that wait for
a label, at the end.
-/

namespace Assembler

/-! ## Words of code -/

namespace Code

theorem wordAt?_eq (c : Code) (offset : Nat) : c.wordAt? offset = c.words.toList[offset]? := by
  simp [wordAt?]

theorem wordAt?_patch_self {c : Code} {offset : Nat} (h : offset < c.size) (w : UInt32) :
    (c.patch offset w).wordAt? offset = some w :=
  Array.getElem?_setIfInBounds_self_of_lt h

theorem wordAt?_patch_ne (c : Code) {offset offset' : Nat} (h : offset ≠ offset') (w : UInt32) :
    (c.patch offset w).wordAt? offset' = c.wordAt? offset' :=
  Array.getElem?_setIfInBounds_ne h

end Code

theorem exists_getElem?_of_forall₂ {α β : Type} {R : α → β → Prop} {as : List α} {bs : List β}
    (h : List.Forall₂ R as bs) {m : Nat} {a : α} (hm : as[m]? = some a) :
    ∃ b, bs[m]? = some b ∧ R a b := by
  obtain ⟨hlt, rfl⟩ := List.getElem?_eq_some_iff.1 hm
  have hlt' : m < bs.length := h.length_eq ▸ hlt
  exact ⟨_, List.getElem?_eq_getElem hlt', h.get hlt hlt'⟩

/-! ## What words mean -/

/-- `w` is the word for a role of instruction number `k` in the code of `is`. The addresses of
labels are what `known` says. -/
def Role.Means (n : UInt32) (is : List Instr) (known : Label → UInt32 → Prop) (k : Nat) :
    Role → UInt32 → Prop
  | .slot s, w => s.Word n (Frame.after (is.take k)) (poolOf is) w
  | .word v, w => w = v
  | .target label, w => known label w
  | .loopEnd, w => ∀ j, Matched is k j → w = (offsetOf is (j + 1)).toUInt32
  | .loopItem, w =>
    ∃ i loc collection item, Matched is i k ∧ is[i]? = some (.forInit loc collection item) ∧
      (Slot.var item).Word n (Frame.after (is.take k)) (poolOf is) w
  | .loopStart, w => ∃ i, Matched is i k ∧ w = (offsetOf is (i + 1)).toUInt32

/-- `c` holds the words of instruction number `k` of the program `is`. -/
structure CodeAt (n : UInt32) (is : List Instr) (known : Label → UInt32 → Prop) (c : Code)
    (k : Nat) : Prop where
  opcode : ∀ {i op}, is[k]? = some i → i.opcode? = some op →
    c.wordAt? (offsetOf is k) = some op.word
  operand : ∀ {i m role}, is[k]? = some i → i.roles[m]? = some role →
    ∃ w, c.wordAt? (offsetOf is k + 1 + m) = some w ∧ role.Means n is known k w

/-- `c` holds the words of all instructions of the program `is`. -/
def Image (n : UInt32) (is : List Instr) (known : Label → UInt32 → Prop) (c : Code) : Prop :=
  ∀ k, CodeAt n is known c k

variable {n : UInt32} {is : List Instr} {i : Instr} {known : Label → UInt32 → Prop}

/-- What comes later does not change what a word means, unless it closes the loop that the word
waits for. -/
theorem Role.Means.append {js : List Instr} {known' : Label → UInt32 → Prop} {k : Nat}
    (hk : k < is.length) {role : Role} {w : UInt32} (h : role.Means n is known k w)
    (hknown : ∀ {label w}, known label w → known' label w)
    (hend : role = .loopEnd → ∀ j, Matched (is ++ js) k j → j < is.length) :
    role.Means n (is ++ js) known' k w := by
  have htake : (is ++ js).take k = is.take k :=
    List.take_append_of_le_length (Nat.le_of_lt hk)
  have hpool := poolOf_isPrefix is js
  cases role with
  | slot s =>
    rw [Means, htake]
    exact Slot.Word.of_isPrefix hpool h
  | word v => exact h
  | target label => exact hknown h
  | loopEnd =>
    intro j hj
    have hlt := hend rfl j hj
    rw [offsetOf_append _ hlt]
    exact h j (hj.of_append hlt)
  | loopItem =>
    obtain ⟨a, loc, collection, item, hmatched, ha, hw⟩ := h
    have halt := Nat.lt_trans hmatched.lt hk
    refine ⟨a, loc, collection, item, hmatched.append _, ?_, ?_⟩
    · rwa [List.getElem?_append_left halt]
    · rw [htake]
      exact Slot.Word.of_isPrefix hpool hw
  | loopStart =>
    obtain ⟨a, hmatched, hw⟩ := h
    refine ⟨a, hmatched.append _, ?_⟩
    rwa [offsetOf_append _ (Nat.lt_trans hmatched.lt hk)]

/-- A role has one word. -/
theorem Role.Means.unique {k : Nat} {role : Role} {w w' : UInt32} (h : role.Means n is known k w)
    (h' : role.Means n is known k w')
    (hknown : ∀ {label w w'}, known label w → known label w' → w = w')
    (hend : role = .loopEnd → ∃ j, Matched is k j) : w = w' := by
  cases role with
  | slot s => exact Slot.Word.unique h h'
  | word v => exact h.trans h'.symm
  | target label => exact hknown h h'
  | loopEnd =>
    obtain ⟨j, hj⟩ := hend rfl
    rw [h j hj, h' j hj]
  | loopItem =>
    obtain ⟨a, _, _, _, hmatched, ha, hw⟩ := h
    obtain ⟨a', _, _, _, hmatched', ha', hw'⟩ := h'
    obtain rfl := hmatched.left_unique hmatched'
    rw [ha] at ha'
    cases ha'
    exact hw.unique hw'
  | loopStart =>
    obtain ⟨a, hmatched, rfl⟩ := h
    obtain ⟨a', hmatched', rfl⟩ := h'
    rw [hmatched.left_unique hmatched']

/-- A loop that is not closed by the last instruction is closed before it. -/
theorem Matched.lt_of_append_singleton {k j : Nat} (h : Matched (is ++ [i]) k j)
    (hclose : ¬ Matched (is ++ [i]) k is.length) : j < is.length := by
  have hlt := h.lt_length
  rw [List.length_append, List.length_singleton] at hlt
  rcases Nat.lt_succ_iff_lt_or_eq.1 hlt with hlt | rfl
  · exact hlt
  · exact absurd h hclose

namespace CodeAt

variable {c c' : Code} {k : Nat}

/-- Words added at the end change nothing. -/
theorem of_append {ws : List UInt32} (h : CodeAt n is known c k)
    (hwords : c'.words.toList = c.words.toList ++ ws) : CodeAt n is known c' k := by
  have hgrow {offset : Nat} {w : UInt32} (hw : c.wordAt? offset = some w) :
      c'.wordAt? offset = some w := by
    rw [Code.wordAt?_eq] at hw ⊢
    rw [hwords, List.getElem?_append_left (List.getElem?_eq_some_iff.1 hw).1, hw]
  refine ⟨fun hk hop => hgrow (h.opcode hk hop), fun hk hm => ?_⟩
  obtain ⟨w, hw, hmeans⟩ := h.operand hk hm
  exact ⟨w, hgrow hw, hmeans⟩

/-- Words before the instruction may change. -/
theorem patch_of_lt (h : CodeAt n is known c k) {offset : Nat} (hlt : offset < offsetOf is k)
    (w : UInt32) : CodeAt n is known (c.patch offset w) k := by
  refine ⟨fun hk hop => ?_, fun {i m role} hk hm => ?_⟩
  · rw [Code.wordAt?_patch_ne _ (by omega)]
    exact h.opcode hk hop
  · rw [Code.wordAt?_patch_ne _ (by omega)]
    exact h.operand hk hm

/-- Instructions added at the end change nothing, unless they close the loop opened here. -/
theorem append_singleton (h : CodeAt n is known c k) (hk : k < is.length)
    (hclose : ¬ Matched (is ++ [i]) k is.length) : CodeAt n (is ++ [i]) known c k := by
  have hoffset := offsetOf_append [i] (Nat.le_of_lt hk)
  refine ⟨fun {j op} hj hop => ?_, fun {j m role} hj hm => ?_⟩
  · rw [List.getElem?_append_left hk] at hj
    rw [hoffset]
    exact h.opcode hj hop
  · rw [List.getElem?_append_left hk] at hj
    obtain ⟨w, hw, hmeans⟩ := h.operand hj hm
    exact ⟨w, by rwa [hoffset],
      hmeans.append hk id fun _ _ hmatched => hmatched.lt_of_append_singleton hclose⟩

end CodeAt

/-- At the close of a loop, the address of its end is patched in the code so far. -/
theorem Image.patch {c : Code} (h : Image n is known c)
    (hformed : ∀ {k : Nat} {i : Instr}, is[k]? = some i → i.Formed) {loc loc' : Position}
    {collection : Slot} {item : Var} {a : Nat} (ha : is[a]? = some (.forInit loc collection item))
    (hmatched : Matched (is ++ [.forClose loc']) a is.length) {k : Nat} (hk : k < is.length) :
    CodeAt n (is ++ [.forClose loc']) known
      (c.patch (offsetOf is a + 3) (offsetOf (is ++ [.forClose loc']) (is.length + 1)).toUInt32)
      k := by
  have halt := (List.getElem?_eq_some_iff.1 ha).1
  have hrole : (Instr.forInit loc collection item).roles[2]? = some .loopEnd := rfl
  have hoffset := offsetOf_append [.forClose loc'] (Nat.le_of_lt hk)
  refine ⟨fun {j op} hj hop => ?_, fun {j m role} hj hm => ?_⟩
  · rw [List.getElem?_append_left hk] at hj
    have hne : offsetOf is a + 3 ≠ offsetOf is k := offsetOf_operand_ne ha trivial hrole k
    rw [Code.wordAt?_patch_ne _ (by rwa [hoffset]), hoffset]
    exact (h k).opcode hj hop
  · rw [List.getElem?_append_left hk] at hj
    obtain ⟨w, hw, hmeans⟩ := (h k).operand hj hm
    by_cases hend : k = a ∧ m = 2
    · -- the word that waits for this close
      obtain ⟨rfl, rfl⟩ := hend
      obtain rfl := Option.some.inj (ha.symm.trans hj)
      obtain rfl := Option.some.inj (hrole.symm.trans hm)
      have hlt : offsetOf is k + 3 < c.size := by
        rw [Code.wordAt?_eq] at hw
        simpa [Code.size] using (List.getElem?_eq_some_iff.1 hw).1
      refine ⟨_, by rw [hoffset]; exact Code.wordAt?_patch_self hlt _, ?_⟩
      intro j hj
      rw [hj.right_unique hmatched]
    · have hne : offsetOf is a + 3 ≠ offsetOf is k + 1 + m := by
        intro heq
        obtain ⟨rfl, rfl⟩ := offsetOf_operand_inj ha trivial hrole hj (hformed hj) hm heq
        exact hend ⟨rfl, rfl⟩
      refine ⟨w, by rwa [hoffset, Code.wordAt?_patch_ne _ hne], hmeans.append hk id ?_⟩
      rintro rfl j' hj'
      refine hj'.lt_of_append_singleton fun hmatched' => ?_
      -- only one loop is closed here
      obtain rfl := hmatched.left_unique hmatched'
      obtain rfl := Option.some.inj (ha.symm.trans hj)
      refine hend ⟨rfl, ?_⟩
      rcases m with _ | _ | _ | m
      · cases hm
      · cases hm
      · rfl
      · cases hm

/-- An instruction without code has no words to hold. -/
theorem codeAt_of_opcode?_none {c : Code} {k : Nat} (h : ∀ i, is[k]? = some i → i.opcode? = none) :
    CodeAt n is known c k := by
  refine ⟨fun {i op} hk hop => ?_, fun {i m role} hk hm => ?_⟩
  · rw [h i hk] at hop
    cases hop
  · rw [Instr.roles_eq_nil (h i hk)] at hm
    cases hm

theorem not_matched_of_ne_forClose (h : ∀ loc, i ≠ .forClose loc) (k : Nat) :
    ¬ Matched (is ++ [i]) k is.length := by
  intro hmatched
  obtain ⟨loc, hloc⟩ := hmatched.closing
  rcases getElem?_append_singleton_cases hloc with ⟨hlt, -⟩ | ⟨-, heq⟩
  · exact absurd hlt (Nat.lt_irrefl _)
  · exact h loc heq.symm

theorem image_append_singleton {c : Code}
    (hold : ∀ k, k < is.length → CodeAt n (is ++ [i]) known c k)
    (hnew : CodeAt n (is ++ [i]) known c is.length) : Image n (is ++ [i]) known c := by
  intro k
  rcases Nat.lt_trichotomy k is.length with hlt | rfl | hgt
  · exact hold k hlt
  · exact hnew
  · refine codeAt_of_opcode?_none fun j hj => ?_
    have := (List.getElem?_eq_some_iff.1 hj).1
    rw [List.length_append, List.length_singleton] at this
    omega

/-- An instruction without code keeps the image as it is. -/
theorem Image.directive {c : Code} (h : Image n is known c) (hop : i.opcode? = none) :
    Image n (is ++ [i]) known c := by
  apply image_append_singleton
  · intro k hk
    refine (h k).append_singleton hk (not_matched_of_ne_forClose ?_ k)
    rintro loc rfl
    cases hop
  · refine codeAt_of_opcode?_none fun j hj => ?_
    obtain rfl : i = j := by simpa using hj
    exact hop

theorem eq_forInit_of_mem_roles (h : Role.loopEnd ∈ i.roles) :
    ∃ loc collection item, i = .forInit loc collection item := by
  cases i with
  | forInit loc collection item => exact ⟨loc, collection, item, rfl⟩
  | op loc opcode args =>
    obtain ⟨a, -, ha⟩ := List.mem_map.1 h
    cases a <;> cases ha
  | _ => simp [Instr.roles] at h

theorem eq_forClose_of_mem_roles (h : Role.loopItem ∈ i.roles ∨ Role.loopStart ∈ i.roles) :
    ∃ loc, i = .forClose loc := by
  cases i with
  | forClose loc => exact ⟨loc, rfl⟩
  | op loc opcode args =>
    have hne (a : Arg) : a.role ≠ .loopItem ∧ a.role ≠ .loopStart := by
      cases a <;> exact ⟨nofun, nofun⟩
    rcases h with h | h
    · obtain ⟨a, -, ha⟩ := List.mem_map.1 h
      exact absurd ha (hne a).1
    · obtain ⟨a, -, ha⟩ := List.mem_map.1 h
      exact absurd ha (hne a).2
  | _ => simp [Instr.roles] at h

namespace Pass

variable {p q : Pass}

/-- The loop that is closed, as the program has it. -/
theorem Ledger.inner_eq (h : Ledger n is p) (hne : p.jumps.loops ≠ []) (loc : Position) :
    ∃ e : Opened, p.inner = e.loop ∧ Matched (is ++ [.forClose loc]) e.index is.length ∧
      e.offset = offsetOf is e.index ∧
      ∃ loc' collection, is[e.index]? = some (.forInit loc' collection e.item) := by
  cases hopen : openLoops is with
  | nil =>
    rw [h.loops, hopen] at hne
    exact absurd rfl hne
  | cons e stack =>
    have hlt : e.index < is.length := index_lt_of_mem_openLoops (hopen ▸ List.mem_cons_self)
    have hclose : (is ++ [.forClose loc])[is.length]? = some (.forClose loc) :=
      List.getElem?_concat_length
    obtain ⟨hmatched, hoffset, loc', collection, hinit⟩ :=
      matched_of_openLoops hclose (by rw [List.take_left]; exact hopen)
    rw [List.getElem?_append_left hlt] at hinit
    rw [offsetOf_append _ (Nat.le_of_lt hlt)] at hoffset
    refine ⟨e, ?_, hmatched, hoffset, loc', collection, hinit⟩
    rw [inner, h.loops, hopen]
    rfl

/-- The word written for a role means what it should. -/
theorem Ledger.means (h : Ledger n is p)
    (hclose : ∀ loc, i = .forClose loc → p.jumps.loops ≠ []) {role : Role}
    (hrole : role ∈ i.roles) {w : UInt32}
    (hw : (role.field i.loc p.inner).Word n (Frame.after is) (poolOf (is ++ [i])) w) :
    role.Means n (is ++ [i]) (fun _ _ => True) is.length w := by
  cases role with
  | slot s =>
    rw [Role.Means, List.take_left]
    exact hw
  | word v => exact hw
  | target label => trivial
  | loopEnd =>
    intro j hj
    have h₁ := hj.lt
    have h₂ := hj.lt_length
    rw [List.length_append, List.length_singleton] at h₂
    omega
  | loopItem =>
    obtain ⟨loc, rfl⟩ := eq_forClose_of_mem_roles (Or.inl hrole)
    obtain ⟨e, he, hmatched, -, loc', collection, hinit⟩ := h.inner_eq (hclose loc rfl) loc
    rw [he] at hw
    have hlt := (List.getElem?_eq_some_iff.1 hinit).1
    refine ⟨e.index, loc', collection, e.item, hmatched, ?_, ?_⟩
    · rwa [List.getElem?_append_left hlt]
    · rw [List.take_left]
      exact hw
  | loopStart =>
    obtain ⟨loc, rfl⟩ := eq_forClose_of_mem_roles (Or.inr hrole)
    obtain ⟨e, he, hmatched, hoffset, loc', collection, hinit⟩ := h.inner_eq (hclose loc rfl) loc
    rw [he] at hw
    have hlt := (List.getElem?_eq_some_iff.1 hinit).1
    refine ⟨e.index, hmatched, ?_⟩
    rw [offsetOf_append _ hlt, offsetOf_succ hinit, ← hoffset]
    exact hw

/-- The words of an instruction, as they are written. -/
theorem Ledger.codeAt_wrote (h : Ledger n is p) {op : Opcode} (hop : i.opcode? = some op)
    (hclose : ∀ loc, i = .forClose loc → p.jumps.loops ≠ [])
    (hwrite : (i.roles.map (Role.field i.loc p.inner)).foldlM (writeField is.length)
      ((p.leave i).start i.loc op) = .ok q)
    (hpool : q.code.constants = poolOf (is ++ [i])) :
    ∃ ws, q.code.words.toList = p.code.words.toList ++ ws ∧
      CodeAt n (is ++ [i]) (fun _ _ => True) q.code is.length := by
  have hwrote := h.wrote hwrite
  rw [leave_eq] at hwrote
  obtain ⟨ws, hws, hforall⟩ := hwrote.words
  have hwords : q.code.words.toList = p.code.words.toList ++ op.word :: ws := by
    rw [hws]
    simp [start, push, Code.push]
  have hsize : p.code.words.toList.length = span is := h.size
  have hstart := offsetOf_append_length is [i]
  have hlast : (is ++ [i])[is.length]? = some i := List.getElem?_concat_length
  refine ⟨_, hwords, fun {j op'} hj hop' => ?_, fun {j m role} hj hm => ?_⟩
  · obtain rfl : i = j := Option.some.inj (hlast.symm.trans hj)
    obtain rfl : op = op' := Option.some.inj (hop.symm.trans hop')
    rw [Code.wordAt?_eq, hwords, hstart, ← hsize]
    simp
  · obtain rfl : i = j := Option.some.inj (hlast.symm.trans hj)
    have hfield : (i.roles.map (Role.field i.loc p.inner))[m]? =
        some (role.field i.loc p.inner) := by
      rw [List.getElem?_map, hm]
      rfl
    obtain ⟨w, hw, hword⟩ := exists_getElem?_of_forall₂ hforall hfield
    rw [hpool] at hword
    refine ⟨w, ?_, h.means hclose (List.mem_of_getElem? hm) ?_⟩
    · rw [Code.wordAt?_eq, hwords, hstart, ← hsize, Nat.add_assoc, Nat.add_comm 1,
        List.getElem?_append_right (Nat.le_add_right _ _), Nat.add_sub_cancel_left,
        List.getElem?_cons_succ, hw]
    · rw [← h.fixedLocals, ← h.frame]
      exact hword

/-- The close of a loop keeps the image: its own words come last, and the end of the loop is patched
into the opening. -/
theorem Ledger.image_close (h : Ledger n is p)
    (hformed : ∀ {k : Nat} {i : Instr}, is[k]? = some i → i.Formed)
    (himage : Image n is (fun _ _ => True) p.code) {loc : Position} (hne : p.jumps.loops ≠ [])
    {ws : List UInt32} (hwords : q.code.words.toList = p.code.words.toList ++ ws)
    (hoffset : q.offset = offsetOf (is ++ [.forClose loc]) (is.length + 1))
    (hnew : CodeAt n (is ++ [.forClose loc]) (fun _ _ => True) q.code is.length) :
    Image n (is ++ [.forClose loc]) (fun _ _ => True)
      (q.code.patch p.inner.exit q.offset.toUInt32) := by
  obtain ⟨e, he, hmatched, heoffset, loc', collection, hinit⟩ := h.inner_eq hne loc
  have hexit : p.inner.exit = offsetOf is e.index + 3 := by
    rw [he, ← heoffset]
    rfl
  have hlt : offsetOf is e.index + 3 < p.code.size := by
    have hle := offsetOf_add_width_le hinit (List.getElem?_eq_some_iff.1 hinit).1
    rw [offsetOf_length, ← h.size] at hle
    exact Nat.lt_of_lt_of_le (Nat.add_lt_add_left (show 3 < 4 by decide) _) hle
  -- the patch is before the new words, so it might as well come before they are written
  have hwords' : (q.code.patch (offsetOf is e.index + 3) q.offset.toUInt32).words.toList =
      (p.code.patch (offsetOf is e.index + 3) q.offset.toUInt32).words.toList ++ ws := by
    simp only [Code.patch, Array.toList_setIfInBounds, hwords]
    exact List.set_append_left _ _ hlt
  rw [hexit]
  apply image_append_singleton
  · intro k hk
    refine CodeAt.of_append ?_ hwords'
    rw [hoffset]
    exact himage.patch hformed hinit hmatched hk
  · apply hnew.patch_of_lt
    rw [offsetOf_append_length, ← h.size]
    exact hlt

/-- Every step keeps the image. -/
theorem Ledger.image_step (h : Ledger n is p)
    (hformed : ∀ {k : Nat} {i : Instr}, is[k]? = some i → i.Formed)
    (himage : Image n is (fun _ _ => True) p.code) (hstep : Stepped is.length p i q) :
    Image n (is ++ [i]) (fun _ _ => True) q.code := by
  have hnext := h.step hstep
  cases hstep with
  | alloc => exact himage.directive rfl
  | release => exact himage.directive rfl
  | place => exact himage.directive rfl
  | @write i op q hop hi hclose hwrite =>
    have hpool : q.code.constants = poolOf (is ++ [i]) := by
      rw [← hnext.constants, settle_eq]
      rfl
    obtain ⟨ws, hwords, hnew⟩ := h.codeAt_wrote hop hclose hwrite hpool
    have hoffset : q.offset = offsetOf (is ++ [i]) (is.length + 1) := by
      rw [h.offset_wrote hop hi hwrite, offsetOf_succ List.getElem?_concat_length,
        offsetOf_append_length]
    by_cases hi' : ∃ loc, i = .forClose loc
    · obtain ⟨loc, rfl⟩ := hi'
      exact h.image_close hformed himage (hclose loc rfl) hwords hoffset hnew
    · -- what was written before stays as it is
      have hsettle : (p.settle (q.ended op) i).code = q.code := by
        cases i with
        | forClose loc => exact absurd ⟨loc, rfl⟩ hi'
        | _ => rfl
      rw [hsettle]
      refine image_append_singleton (fun k hk => ?_) hnew
      have hclosed : ¬ Matched (is ++ [i]) k is.length :=
        not_matched_of_ne_forClose (fun loc hloc => hi' ⟨loc, hloc⟩) k
      exact ((himage k).append_singleton hk hclosed).of_append hwords

theorem Reaches.image (h : Reaches n is p) : Image n is (fun _ _ => True) p.code := by
  induction h with
  | nil => exact fun k => codeAt_of_opcode?_none nofun
  | snoc h hstep ih =>
    exact h.ledger.image_step h.formed ih ((stepped_iff h.ledger.fits).1 ⟨_, hstep⟩)

end Pass

end Assembler
