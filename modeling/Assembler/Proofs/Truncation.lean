import Assembler.Proofs.Joining

/-!
# Addresses and the size of a word

An address operand holds the offset that it stands for modulo the size of a word. So all addresses
of lowered code are exact iff the offsets that they stand for fit in a word, which they do if the
code has fewer than `2 ^ 32` words (`Program.addresses_of_lower`). Nothing is checked here: a branch
over `2 ^ 32` words is lowered to one that goes to its own end
(`Program.not_keepsAddresses_longSkip`).
-/

namespace Assembler

/-- Operand word number `m` of instruction number `k` stands for the offset of instruction number
`t`: the place of a label, the first instruction after a loop, or the first one in it. -/
inductive Refers (is : List Instr) : Nat → Nat → Nat → Prop where
  | branch {k m t : Nat} {i : Instr} {label : Label} (hk : is[k]? = some i)
      (hm : i.roles[m]? = some (.target label)) (ht : is[t]? = some (.place label)) :
      Refers is k m t
  | loopEnd {k m b : Nat} {i : Instr} (hk : is[k]? = some i) (hm : i.roles[m]? = some .loopEnd)
      (h : Matched is k b) : Refers is k m (b + 1)
  | loopStart {a k m : Nat} {i : Instr} (hk : is[k]? = some i) (hm : i.roles[m]? = some .loopStart)
      (h : Matched is a k) : Refers is k m (a + 1)

namespace Program

variable {p : Program} {n : UInt32} {code : Code} {k m t : Nat}

/-- Every address operand is that of a branch to a label, or of one end of a loop to the other. -/
theorem exists_refers_of_lower (h : (p.lower n).result = .ok code) (ha : AddressAt p.instrs k m) :
    ∃ t, Refers p.instrs k m t := by
  obtain ⟨i, op, hk, hop, hm⟩ := ha
  have hwf := wellFormed_of_lower h
  rcases Instr.address_role (hwf.formed i (List.mem_of_getElem? hk)) hop hm with
    ⟨label, htarget, hrole⟩ | ⟨loc, collection, item, rfl, hrole⟩ | ⟨loc, rfl, hrole⟩
  · obtain ⟨t, -, ht⟩ := hwf.place_after_branch hk htarget
    exact ⟨t, .branch hk hrole ht⟩
  · obtain ⟨b, hmatched⟩ := hwf.balanced.exists_matched hk
    exact ⟨b + 1, .loopEnd hk hrole hmatched⟩
  · obtain ⟨a, hmatched⟩ := hwf.balanced.exists_opening hk
    exact ⟨a + 1, .loopStart hk hrole hmatched⟩

/-- An address operand is the offset that it stands for, cut down to a word. -/
theorem wordAt?_of_refers (h : (p.lower n).result = .ok code) (hrefers : Refers p.instrs k m t) :
    code.wordAt? (offsetOf p.instrs k + 1 + m) = some (offsetOf p.instrs t).toUInt32 := by
  have himage := image_of_lower h k
  cases hrefers with
  | branch hk hm ht =>
    obtain ⟨w, hw, l, hl, rfl⟩ := himage.operand hk hm
    rw [hw, place_unique_of_lower h hl ht]
  | loopEnd hk hm hmatched =>
    obtain ⟨w, hw, hmeans⟩ := himage.operand hk hm
    rw [hw, hmeans _ hmatched]
  | loopStart hk hm hmatched =>
    obtain ⟨w, hw, a, hmatched', rfl⟩ := himage.operand hk hm
    rw [hw, hmatched'.left_unique hmatched]

/-- Every address in the code is, as a number, the offset that it stands for. -/
def KeepsAddresses (p : Program) (code : Code) : Prop :=
  ∀ k m t, Refers p.instrs k m t →
    ∃ w, code.wordAt? (offsetOf p.instrs k + 1 + m) = some w ∧ w.toNat = offsetOf p.instrs t

theorem keepsAddresses_iff (h : (p.lower n).result = .ok code) :
    p.KeepsAddresses code ↔
      ∀ k m t, Refers p.instrs k m t → offsetOf p.instrs t < UInt32.size := by
  constructor
  · intro hkeeps k m t hrefers
    obtain ⟨w, -, hw⟩ := hkeeps k m t hrefers
    rw [← hw]
    exact w.toNat_lt
  · intro hfits k m t hrefers
    exact ⟨_, wordAt?_of_refers h hrefers, toNat_toUInt32 (hfits k m t hrefers)⟩

/-- Addresses are exact modulo the size of a word. Each address operand stands for one offset, and
is that offset iff it fits in a word. All of them are exact if the code is not too long. -/
theorem addresses_of_lower (h : (p.lower n).result = .ok code) :
    (∀ k m, AddressAt p.instrs k m → ∃ t, Refers p.instrs k m t) ∧
      (∀ k m t, Refers p.instrs k m t →
        ∃ w, code.wordAt? (offsetOf p.instrs k + 1 + m) = some w ∧
          w.toNat = offsetOf p.instrs t % UInt32.size) ∧
      (p.KeepsAddresses code ↔
        ∀ k m t, Refers p.instrs k m t → offsetOf p.instrs t < UInt32.size) ∧
      (code.size < UInt32.size → p.KeepsAddresses code) := by
  have hiff := keepsAddresses_iff h
  refine ⟨fun k m => exists_refers_of_lower h, fun k m t hrefers => ?_, hiff, fun hsize => ?_⟩
  · exact ⟨_, wordAt?_of_refers h hrefers, UInt32.toNat_ofNat'⟩
  · exact hiff.2 fun k m t _ => offsetOf_lt_size_of_lower h hsize t

theorem addresses_of_lower_searchLoop :
    (searchLoop.lower 2).result = .ok searchCode ∧ searchLoop.KeepsAddresses searchCode :=
  ⟨lower_searchLoop, (addresses_of_lower lower_searchLoop).2.2.2 (by decide)⟩

/-! ## A branch over too many words -/

/-- An operation of four words. -/
def filler : Instr :=
  .op ⟨1, 1⟩ .add [.imm 0, .imm 0, .imm 0]

/-- A branch over a number of operations. -/
def longSkip (m : Nat) : Program :=
  ⟨.branch ⟨1, 1⟩ ⟨0⟩ :: (List.replicate m filler ++ [.place ⟨0⟩])⟩

theorem longSkip_cases {i : Instr} (hk : (longSkip m).instrs[k]? = some i) :
    k = 0 ∧ i = .branch ⟨1, 1⟩ ⟨0⟩ ∨ i = filler ∨ k = m + 1 ∧ i = .place ⟨0⟩ := by
  cases k with
  | zero => exact Or.inl ⟨rfl, (Option.some.inj hk).symm⟩
  | succ k =>
    have hk : (List.replicate m filler ++ [.place ⟨0⟩])[k]? = some i := hk
    rcases getElem?_append_singleton_cases hk with ⟨-, hfill⟩ | ⟨hlast, rfl⟩
    · exact Or.inr (Or.inl (List.eq_of_mem_replicate (List.mem_of_getElem? hfill)))
    · rw [List.length_replicate] at hlast
      exact Or.inr (Or.inr ⟨by rw [hlast], rfl⟩)

theorem not_at_longSkip {P : Instr → Prop} (hbranch : ¬ P (.branch ⟨1, 1⟩ ⟨0⟩)) (hfill : ¬ P filler)
    (hplace : ¬ P (.place ⟨0⟩)) : ¬ At (longSkip m).instrs k P := by
  rintro ⟨i, hk, hi⟩
  rcases longSkip_cases hk with ⟨-, rfl⟩ | rfl | ⟨-, rfl⟩
  · exact hbranch hi
  · exact hfill hi
  · exact hplace hi

theorem place_longSkip (m : Nat) : (longSkip m).instrs[m + 1]? = some (.place ⟨0⟩) := by
  simp [longSkip]

theorem not_usesAt_longSkip {s : Slot} : ¬ UsesAt (longSkip m).instrs k s := by
  rintro (hslot | ⟨a, loc, collection, item, -, ha, -⟩)
  · exact not_at_longSkip (by simp [Instr.roles]) (by simp [filler, Instr.roles, Arg.role])
      (by simp [Instr.roles]) hslot
  · rcases longSkip_cases ha with ⟨-, h⟩ | h | ⟨-, h⟩ <;> cases h

theorem wellFormed_longSkip (m : Nat) : WellFormed 0 (longSkip m).instrs where
  alloc_once h _ := absurd h (not_at_longSkip id id id)
  release_once h _ := absurd h (not_at_longSkip id id id)
  alloc_before_release h := absurd h (not_at_longSkip id id id)
  alloc_before_use h := absurd h not_usesAt_longSkip
  use_before_release h := absurd h not_usesAt_longSkip
  fixed_lt h := absurd h not_usesAt_longSkip
  index_le h := absurd h not_usesAt_longSkip
  place_once hk hl := by
    rcases longSkip_cases hk with ⟨-, h⟩ | h | ⟨rfl, -⟩
    · cases h
    · cases h
    · rcases longSkip_cases hl with ⟨-, h⟩ | h | ⟨rfl, -⟩
      · cases h
      · cases h
      · rfl
  place_after_branch hk htarget := by
    rcases longSkip_cases hk with ⟨rfl, rfl⟩ | rfl | ⟨-, rfl⟩
    · cases htarget
      exact ⟨m + 1, Nat.succ_pos m, place_longSkip m⟩
    · cases htarget
    · cases htarget
  balanced := by
    have hfill : Balanced (List.replicate m filler) := by
      induction m with
      | zero => exact .nil
      | succ m ih => exact .cons rfl ih
    exact .cons rfl (hfill.append (.cons rfl .nil))
  formed i hi := by
    obtain ⟨k, hk⟩ := List.mem_iff_getElem?.1 hi
    rcases longSkip_cases hk with ⟨-, rfl⟩ | rfl | ⟨-, rfl⟩
    · trivial
    · exact ⟨rfl, rfl⟩
    · trivial
  frame_fits := by
    rw [UInt32.toNat_zero, Nat.zero_add]
    exact UInt32.toNat_lt _

theorem exists_lower_longSkip (m : Nat) : ∃ code, ((longSkip m).lower 0).result = .ok code := by
  have hwf := wellFormed_longSkip m
  obtain ⟨pass, hreaches⟩ := hwf.exists_reaches (Nat.le_refl _)
  rw [List.take_length] at hreaches
  have hwraps : Frame.NeverWraps (longSkip m).instrs := by
    apply Frame.neverWraps_of_allocations
    have hnone : allocations (longSkip m).instrs = 0 := by
      simp [allocations, longSkip, List.countP_replicate, filler, Instr.isAlloc]
    rw [hnone]
    decide
  obtain ⟨code, hcode⟩ := hreaches.exists_finish_eq_ok hwf hwraps
  exact ⟨code, lower_eq_ok_iff.2 ⟨pass, hreaches, hcode⟩⟩

theorem offsetOf_longSkip (m : Nat) : offsetOf (longSkip m).instrs (m + 1) = 2 + 4 * m := by
  have hfill : span (List.replicate m filler) = 4 * m := by
    rw [span, List.map_replicate, List.sum_replicate_nat, Nat.mul_comm]
    rfl
  have htake : (longSkip m).instrs.take (m + 1) =
      .branch ⟨1, 1⟩ ⟨0⟩ :: List.replicate m filler := by
    simp [longSkip]
  rw [offsetOf, htake, span_cons, hfill]
  rfl

/-- The branch of a long program goes to the offset of its label modulo the size of a word. -/
theorem wordAt?_longSkip (h : ((longSkip m).lower 0).result = .ok code) :
    code.wordAt? 1 = some (2 + 4 * m).toUInt32 := by
  have hrefers : Refers (longSkip m).instrs 0 0 (m + 1) := .branch rfl rfl (place_longSkip m)
  have hword := wordAt?_of_refers h hrefers
  rwa [offsetOf_longSkip] at hword

/-- A branch over `2 ^ 32` words is accepted, and goes to the word after it. -/
theorem not_keepsAddresses_longSkip :
    ∃ code, ((longSkip (2 ^ 30)).lower 0).result = .ok code ∧
      offsetOf (longSkip (2 ^ 30)).instrs (2 ^ 30 + 1) = 2 ^ 32 + 2 ∧
      code.wordAt? 1 = some 2 ∧ ¬ (longSkip (2 ^ 30)).KeepsAddresses code := by
  obtain ⟨code, hcode⟩ := exists_lower_longSkip (2 ^ 30)
  have hoffset : offsetOf (longSkip (2 ^ 30)).instrs (2 ^ 30 + 1) = 2 ^ 32 + 2 :=
    offsetOf_longSkip (2 ^ 30)
  refine ⟨code, hcode, hoffset, wordAt?_longSkip hcode, fun hkeeps => ?_⟩
  have hfits := (keepsAddresses_iff hcode).1 hkeeps 0 0 _ (.branch rfl rfl (place_longSkip _))
  rw [hoffset] at hfits
  exact absurd hfits (by decide)

end Program

end Assembler
