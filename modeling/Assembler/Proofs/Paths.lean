import Assembler.Proofs.ControlFlow

/-!
# Paths through lowered code

Control stays within lowered code, and goes back only from the close of a loop to its body
(`Program.closed_of_lower`, `Program.onlyLoopsGoBack_of_lower`). Between two such steps a path goes
forward, so it visits no instruction twice. A path that takes `k` of them visits at most `k + 1`
times as many instructions as the code has (`Code.IsPath.length_le`).
-/

namespace Assembler

/-! ## Instructions of the walk -/

namespace Code

variable {c : Code} {d : Decoded} {offset : Nat}

theorem offset_of_decodeAt? (h : c.decodeAt? offset = some d) : d.offset = offset := by
  obtain ⟨op, -, h⟩ := Option.bind_eq_some_iff.1 h
  split at h
  · cases h
    rfl
  · cases h

theorem decodeAt?_of_mem_decodedFrom (h : d ∈ c.decodedFrom offset) :
    c.decodeAt? d.offset = some d := by
  fun_induction c.decodedFrom offset with
  | case1 => cases h
  | case2 offset e he ih =>
    rcases List.mem_cons.1 h with rfl | h
    · rwa [offset_of_decodeAt? he]
    · exact ih h

theorem successors_of_mem_decoded (h : d ∈ c.decoded) :
    c.successors d.offset = d.successors := by
  rw [successors, decodeAt?_of_mem_decodedFrom h]
  rfl

end Code

theorem Instr.eq_forClose_of_opcode? {i : Instr} (hi : i.Formed)
    (hop : i.opcode? = some .forNext) : ∃ loc, i = .forClose loc := by
  cases i with
  | forClose loc => exact ⟨loc, rfl⟩
  | branchIf loc cond test label => cases test <;> cases hop
  | op loc opcode args =>
    cases hop
    cases hi.1
  | _ => cases hop

/-! ## Steps -/

/-- The instruction is the close of a loop, and the offset is that of the loop's body. -/
def Decoded.GoesBack (d : Decoded) (offset : Nat) : Prop :=
  d.opcode = .forNext ∧ d.address?.map UInt32.toNat = some offset

instance (d : Decoded) (offset : Nat) : Decidable (d.GoesBack offset) :=
  inferInstanceAs (Decidable (_ ∧ _))

namespace Code

/-- Control passes to instructions of the code and to its end only. -/
def Closed (c : Code) : Prop :=
  ∀ d ∈ c.decoded, ∀ offset ∈ d.successors,
    offset ∈ c.decoded.map Decoded.offset ∨ offset = c.size

/-- Control passes to larger offsets, but for the way back of a loop. -/
def OnlyLoopsGoBack (c : Code) : Prop :=
  ∀ d ∈ c.decoded, ∀ offset ∈ d.successors, offset ≤ d.offset ↔ d.GoesBack offset

end Code

namespace Program

variable {p : Program} {n : UInt32} {code : Code} {d : Decoded} {k : Nat}

theorem exists_instr_of_decoded (h : (p.lower n).result = .ok code) (hd : d ∈ code.decoded) :
    ∃ k i, p.instrs[k]? = some i ∧
      d.IsCodeOf p.instrs (Role.Means n p.instrs (LabelAddress p.instrs)) (i, k) := by
  obtain ⟨m, hm⟩ := List.getElem?_of_mem hd
  obtain ⟨⟨i, k⟩, hx, hcode⟩ := exists_getElem?_of_forall₂ (forall₂_decoded_of_lower h).flip hm
  have hmem := List.mem_filter.1 (List.mem_of_getElem? hx)
  exact ⟨k, i, List.mem_zipIdx_iff_getElem?.1 hmem.1, hcode⟩

/-- The address of the close of a loop is that of the body. -/
theorem exists_matched_of_closing {loc : Position}
    (hcode : d.IsCodeOf p.instrs (Role.Means n p.instrs (LabelAddress p.instrs))
      (.forClose loc, k)) :
    ∃ a, Matched p.instrs a k ∧ d.address? = some (offsetOf p.instrs (a + 1)).toUInt32 := by
  have hop : d.opcode = .forNext := (Option.some.inj hcode.opcode).symm
  obtain ⟨w, hw, a, ha, rfl⟩ := exists_getElem?_of_forall₂ hcode.operands (m := 1) rfl
  refine ⟨a, ha, ?_⟩
  rw [Decoded.address?, hop]
  exact hw

/-- Control passes past the instruction, or goes back. -/
theorem successor_cases (h : (p.lower n).result = .ok code) (hsize : code.size < UInt32.size)
    (hd : d ∈ code.decoded) {offset : Nat} (hoff : offset ∈ d.successors) :
    ∃ t, offset = offsetOf p.instrs t ∧
      (d.offset < offset ∧ ¬ d.GoesBack offset ∨ offset ≤ d.offset ∧ d.GoesBack offset) := by
  obtain ⟨k, i, hk, hcode⟩ := exists_instr_of_decoded h hd
  have hoffset : d.offset = offsetOf p.instrs k := hcode.offset
  have hop : i.opcode?.isSome := by rw [hcode.opcode]; rfl
  have hat : At p.instrs k (·.opcode?.isSome) := ⟨i, hk, hop⟩
  have hback (t : Nat) : (offsetOf p.instrs t).toUInt32.toNat = offsetOf p.instrs t :=
    toNat_toUInt32 (offsetOf_lt_size_of_lower h hsize t)
  -- the way back of a loop leads to no place behind its close
  have hle (hgoes : d.GoesBack offset) : offset ≤ d.offset := by
    obtain ⟨loc, rfl⟩ := Instr.eq_forClose_of_opcode? (formed_of_lower h hk)
      (hcode.opcode.trans (congrArg some hgoes.1))
    obtain ⟨a, ha, haddress⟩ := exists_matched_of_closing hcode
    have heq := hgoes.2
    rw [haddress, Option.map_some, hback, Option.some.injEq] at heq
    rw [← heq, hoffset]
    exact offsetOf_mono _ ha.lt
  rw [← Code.successors_of_mem_decoded hd, hoffset] at hoff
  have hforward {t : Nat} (hkt : k < t) (ht : offset = offsetOf p.instrs t) :
      d.offset < offset ∧ ¬ d.GoesBack offset := by
    have hlt : d.offset < offset := by
      rw [hoffset, ht]
      exact offsetOf_lt_offsetOf hat hkt
    exact ⟨hlt, fun hgoes => Nat.not_le_of_lt hlt (hle hgoes)⟩
  rcases mem_successors_of_lower h hk hop hoff with hnext | ⟨t, hkt, ht⟩ | ⟨a, hmatched, ha⟩
  · exact ⟨k + 1, hnext, Or.inl (hforward (Nat.lt_succ_self k) hnext)⟩
  · rw [hback] at ht
    exact ⟨t, ht, Or.inl (hforward hkt ht)⟩
  · obtain ⟨loc, hclose⟩ := hmatched.closing
    obtain rfl : i = .forClose loc := Option.some.inj (hk.symm.trans hclose)
    obtain ⟨a', hmatched', haddress⟩ := exists_matched_of_closing hcode
    obtain rfl := hmatched.left_unique hmatched'
    have hgoes : d.GoesBack offset :=
      ⟨(Option.some.inj hcode.opcode).symm, by rw [haddress, ha]; rfl⟩
    exact ⟨a + 1, ha.trans (hback _), Or.inr ⟨hle hgoes, hgoes⟩⟩

theorem closed_of_lower (h : (p.lower n).result = .ok code) (hsize : code.size < UInt32.size) :
    code.Closed := by
  intro d hd offset hoff
  obtain ⟨t, rfl, -⟩ := successor_cases h hsize hd hoff
  exact offsetOf_mem_of_lower h t

theorem onlyLoopsGoBack_of_lower (h : (p.lower n).result = .ok code)
    (hsize : code.size < UInt32.size) : code.OnlyLoopsGoBack := by
  intro d hd offset hoff
  obtain ⟨t, -, ⟨hlt, hnot⟩ | ⟨hle, hgoes⟩⟩ := successor_cases h hsize hd hoff
  · exact iff_of_false (Nat.not_le_of_lt hlt) hnot
  · exact iff_of_true hle hgoes

end Program

/-! ## Paths -/

/-- How often a path takes the way back of a loop. -/
def backSteps : List Decoded → Nat
  | d :: e :: path => (if d.GoesBack e.offset then 1 else 0) + backSteps (e :: path)
  | _ => 0

namespace Code

variable {c : Code} {d e : Decoded} {path : List Decoded}

/-- Instructions of the code, from each of which control can pass to the next one. -/
def IsPath (c : Code) (path : List Decoded) : Prop :=
  (∀ d ∈ path, d ∈ c.decoded) ∧ path.IsChain fun d e => e.offset ∈ d.successors

theorem IsPath.tail (h : c.IsPath (d :: path)) : c.IsPath path :=
  ⟨fun e he => h.1 e (List.mem_cons_of_mem _ he), h.2.of_cons⟩

theorem IsPath.mem_decoded (h : c.IsPath (d :: path)) : d ∈ c.decoded :=
  h.1 d List.mem_cons_self

theorem IsPath.mem_successors (h : c.IsPath (d :: e :: path)) : e.offset ∈ d.successors :=
  (List.isChain_cons_cons.1 h.2).1

/-- Without a way back, every instruction of a path is behind the first one. -/
theorem IsPath.lt_of_mem (hback : c.OnlyLoopsGoBack) (h : c.IsPath (d :: path))
    (hsteps : backSteps (d :: path) = 0) (he : e ∈ path) : d.offset < e.offset := by
  induction path generalizing d with
  | nil => cases he
  | cons x path ih =>
    obtain ⟨hfirst, hrest⟩ := Nat.add_eq_zero_iff.1 hsteps
    have hnot : ¬ d.GoesBack x.offset := by
      intro hgoes
      rw [if_pos hgoes] at hfirst
      cases hfirst
    have hlt : d.offset < x.offset := by
      rw [← hback d h.mem_decoded x.offset h.mem_successors] at hnot
      exact Nat.lt_of_not_le hnot
    rcases List.mem_cons.1 he with rfl | he
    · exact hlt
    · exact Nat.lt_trans hlt (ih h.tail hrest he)

/-- The number of instructions from an offset on. -/
def ahead (c : Code) (offset : Nat) : Nat :=
  c.decoded.countP (offset ≤ ·.offset)

theorem ahead_le (c : Code) (offset : Nat) : c.ahead offset ≤ c.decoded.length :=
  List.countP_le_length

/-- An instruction is ahead of its own offset, and of no larger one. -/
theorem ahead_lt (hd : d ∈ c.decoded) {offset : Nat} (h : d.offset < offset) :
    c.ahead offset < c.ahead d.offset := by
  have hmono (l : List Decoded) :
      l.countP (offset ≤ ·.offset) ≤ l.countP (d.offset ≤ ·.offset) := by
    refine List.countP_mono_left fun e _ he => ?_
    have he := of_decide_eq_true he
    exact decide_eq_true (by omega)
  obtain ⟨before, after, heq⟩ := List.append_of_mem hd
  have hbefore := hmono before
  have hafter := hmono after
  have hnot : ¬ offset ≤ d.offset := Nat.not_le_of_lt h
  simp only [ahead, heq, List.countP_append, List.countP_cons, hnot, decide_false, decide_true,
    Nat.le_refl, Bool.false_eq_true, if_false, if_true]
  omega

theorem ahead_pos (hd : d ∈ c.decoded) : 0 < c.ahead d.offset :=
  Nat.zero_lt_of_lt (ahead_lt hd (Nat.lt_succ_self d.offset))

/-- A path goes through the instructions ahead of it, and through all of them again after each way
back. -/
theorem IsPath.length_le_ahead (hback : c.OnlyLoopsGoBack) (h : c.IsPath (d :: path)) :
    (d :: path).length ≤ backSteps (d :: path) * c.decoded.length + c.ahead d.offset := by
  induction path generalizing d with
  | nil =>
    have hpos := ahead_pos h.mem_decoded
    simp only [List.length_singleton]
    omega
  | cons e path ih =>
    have ih := ih h.tail
    have hstep := hback d h.mem_decoded e.offset h.mem_successors
    rw [List.length_cons, backSteps]
    by_cases hgoes : d.GoesBack e.offset
    · have hpos := ahead_pos h.mem_decoded
      have hle := c.ahead_le e.offset
      rw [if_pos hgoes, Nat.add_mul, Nat.one_mul]
      omega
    · have hlt := ahead_lt h.mem_decoded (Nat.lt_of_not_le (mt hstep.1 hgoes))
      rw [if_neg hgoes, Nat.zero_add]
      omega

theorem IsPath.length_le (hback : c.OnlyLoopsGoBack) (h : c.IsPath path) :
    path.length ≤ (backSteps path + 1) * c.decoded.length := by
  cases path with
  | nil => exact Nat.zero_le _
  | cons d path =>
    have hlength := h.length_le_ahead hback
    have hle := c.ahead_le d.offset
    rw [Nat.add_mul, Nat.one_mul]
    omega

end Code

namespace Program

/-- Control stays within lowered code and goes back by loops only. So every cycle takes the way back
of a loop, and a path visits at most as many instructions as the code has, once more for each way
back that it takes. -/
theorem flow_of_lower {p : Program} {n : UInt32} {code : Code} (h : (p.lower n).result = .ok code)
    (hsize : code.size < UInt32.size) :
    code.Closed ∧ code.OnlyLoopsGoBack ∧
      (∀ d path, code.IsPath (d :: (path ++ [d])) → 0 < backSteps (d :: (path ++ [d]))) ∧
      ∀ path, code.IsPath path → path.length ≤ (backSteps path + 1) * code.decoded.length := by
  have hback := onlyLoopsGoBack_of_lower h hsize
  refine ⟨closed_of_lower h hsize, hback, fun d path hcycle => ?_, fun path hpath => ?_⟩
  · by_contra hsteps
    have hlt := hcycle.lt_of_mem hback (Nat.eq_zero_of_not_pos hsteps)
      (List.mem_append_right path (List.mem_singleton.2 rfl))
    exact Nat.lt_irrefl _ hlt
  · exact hpath.length_le hback

/-- Twice through the inner loop of `searchLoop`. -/
def searchPath : List Decoded :=
  [0, 4, 8, 12, 15, 19, 8, 12, 15, 19, 8, 12, 25].filterMap searchCode.decodeAt?

theorem flow_of_lower_searchLoop :
    (searchLoop.lower 2).result = .ok searchCode ∧ searchCode.size < UInt32.size ∧
      searchCode.IsPath searchPath ∧ backSteps searchPath = 2 ∧ searchPath.length = 13 ∧
      searchPath.length ≤ 3 * searchCode.decoded.length := by
  have hsize : searchCode.size < UInt32.size := by decide
  have hpath : searchCode.IsPath searchPath := ⟨by decide +kernel, by decide +kernel⟩
  exact ⟨lower_searchLoop, hsize, hpath, by decide, by decide,
    (flow_of_lower lower_searchLoop hsize).2.2.2 searchPath hpath⟩

end Program

end Assembler
