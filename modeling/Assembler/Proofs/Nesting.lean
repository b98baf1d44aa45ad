import Mathlib.Data.List.Basic
import Mathlib.Data.List.Induction
import Assembler.Proofs.Layout

/-!
# Nesting of loops

Loops open and close like parentheses: `Balanced` gives the words in which they do, and `Matched`
the two ends of one loop. A walk over a program that keeps the loops still open on a stack
(`openLoops`) finds the same partners: at the close of a loop its opening is on top
(`Matched.openLoops_take`, `matched_of_openLoops`), and a program is balanced iff no close finds
the stack empty and the stack is empty at the end (`balanced_iff`). In a balanced program every loop
is closed (`Balanced.exists_matched`), and no two loops overlap (`Matched.lt_of_opens_in`).
-/

namespace Assembler

namespace Instr

/-- The instruction opens or closes a loop. -/
def isLoop : Instr → Bool
  | forInit .. | forClose _ => true
  | _ => false

end Instr

/-- Every loop opened is closed, and every close has its opening. -/
inductive Balanced : List Instr → Prop where
  | nil : Balanced []
  | cons {i : Instr} {is : List Instr} (hi : i.isLoop = false) (h : Balanced is) :
      Balanced (i :: is)
  | loop {body is : List Instr} {loc loc' : Position} {collection : Slot} {item : Var}
      (hbody : Balanced body) (h : Balanced is) :
      Balanced (.forInit loc collection item :: (body ++ .forClose loc' :: is))

theorem Balanced.append {is js : List Instr} (h : Balanced is) (h' : Balanced js) :
    Balanced (is ++ js) := by
  induction h with
  | nil => exact h'
  | cons hi _ ih => exact .cons hi ih
  | loop hbody _ _ ih => simpa using Balanced.loop hbody ih

/-- Instructions number `i` and `j` open and close one loop. -/
structure Matched (is : List Instr) (i j : Nat) : Prop where
  lt : i < j
  opening : ∃ loc collection item, is[i]? = some (.forInit loc collection item)
  closing : ∃ loc, is[j]? = some (.forClose loc)
  body : Balanced ((is.take j).drop (i + 1))

namespace Matched

variable {is : List Instr} {i j : Nat}

theorem lt_length (h : Matched is i j) : j < is.length := by
  obtain ⟨loc, hj⟩ := h.closing
  exact (List.getElem?_eq_some_iff.1 hj).1

theorem append (h : Matched is i j) (js : List Instr) : Matched (is ++ js) i j := by
  have hj := h.lt_length
  obtain ⟨loc, collection, item, hi⟩ := h.opening
  obtain ⟨loc', hj'⟩ := h.closing
  refine ⟨h.lt, ⟨loc, collection, item, ?_⟩, ⟨loc', ?_⟩, ?_⟩
  · rwa [List.getElem?_append_left (Nat.lt_trans h.lt hj)]
  · rwa [List.getElem?_append_left hj]
  · rw [List.take_append_of_le_length (Nat.le_of_lt hj)]
    exact h.body

theorem of_append {js : List Instr} (h : Matched (is ++ js) i j) (hj : j < is.length) :
    Matched is i j := by
  obtain ⟨loc, collection, item, hi⟩ := h.opening
  obtain ⟨loc', hj'⟩ := h.closing
  refine ⟨h.lt, ⟨loc, collection, item, ?_⟩, ⟨loc', ?_⟩, ?_⟩
  · rwa [List.getElem?_append_left (Nat.lt_trans h.lt hj)] at hi
  · rwa [List.getElem?_append_left hj] at hj'
  · rw [← List.take_append_of_le_length (Nat.le_of_lt hj)]
    exact h.body

end Matched

/-! ## The stack of open loops -/

/-- An open loop: the number and the offset of its opening, and its variable. -/
structure Opened where
  index : Nat
  offset : Nat
  item : Var

/-- The open loops after the instruction number `k` at offset `off`. The innermost comes first. -/
def Instr.nest (k off : Nat) (stack : List Opened) : Instr → List Opened
  | .forInit _ _ item => ⟨k, off, item⟩ :: stack
  | .forClose _ => stack.tail
  | _ => stack

/-- The open loops after instructions, the first of which has number `k` and offset `off`. -/
def nest : Nat → Nat → List Opened → List Instr → List Opened
  | _, _, stack, [] => stack
  | k, off, stack, i :: is => nest (k + 1) (off + i.width) (i.nest k off stack) is

/-- The loops that a list of instructions leaves open. -/
def openLoops (is : List Instr) : List Opened :=
  nest 0 0 [] is

theorem Instr.nest_of_not_isLoop {i : Instr} (h : i.isLoop = false) (k off : Nat)
    (stack : List Opened) : i.nest k off stack = stack := by
  cases i <;> first | rfl | cases h

theorem nest_append (k off : Nat) (stack : List Opened) (is js : List Instr) :
    nest k off stack (is ++ js) =
      nest (k + is.length) (off + span is) (nest k off stack is) js := by
  induction is generalizing k off stack with
  | nil => rfl
  | cons i is ih =>
    simp only [List.cons_append, nest, ih, List.length_cons, span_cons]
    congr 1 <;> omega

theorem openLoops_append (is js : List Instr) :
    openLoops (is ++ js) = nest is.length (span is) (openLoops is) js := by
  simp [openLoops, nest_append]

@[simp] theorem openLoops_append_singleton (is : List Instr) (i : Instr) :
    openLoops (is ++ [i]) = i.nest is.length (span is) (openLoops is) := by
  simp [openLoops_append, nest]

/-- Loops that open and close leave the stack as it was. -/
theorem Balanced.nest_eq {is : List Instr} (h : Balanced is) (k off : Nat)
    (stack : List Opened) : nest k off stack is = stack := by
  induction h generalizing k off stack with
  | nil => rfl
  | cons hi _ ih => rw [nest, Instr.nest_of_not_isLoop hi, ih]
  | loop _ _ ihbody ih =>
    rw [nest, nest_append, Instr.nest, ihbody, nest, Instr.nest, ih]
    rfl

theorem mem_nest {k off : Nat} {stack : List Opened} {is : List Instr} {e : Opened}
    (h : e ∈ nest k off stack is) :
    e ∈ stack ∨ k ≤ e.index ∧ e.index < k + is.length := by
  induction is generalizing k off stack with
  | nil => exact Or.inl h
  | cons i is ih =>
    rcases ih h with hmem | hbounds
    · have hcases : e ∈ stack ∨ e.index = k := by
        cases i with
        | forInit loc collection item =>
          rcases List.mem_cons.1 hmem with rfl | hmem
          · exact Or.inr rfl
          · exact Or.inl hmem
        | forClose loc => exact Or.inl (List.mem_of_mem_tail hmem)
        | _ => exact Or.inl hmem
      rcases hcases with hmem | hindex
      · exact Or.inl hmem
      · exact Or.inr ⟨by omega, by simp [hindex]⟩
    · exact Or.inr ⟨by omega, by simp only [List.length_cons]; omega⟩

theorem index_lt_of_mem_openLoops {is : List Instr} {e : Opened} (h : e ∈ openLoops is) :
    e.index < is.length := by
  rcases mem_nest h with hmem | hbounds
  · cases hmem
  · simpa using hbounds.2

/-! ## Partners -/

/-- The innermost open loop was opened at the end of a part of the program, and what follows its
opening is balanced. -/
theorem exists_of_openLoops_eq_cons {is : List Instr} {e : Opened} {stack : List Opened}
    (h : openLoops is = e :: stack) :
    ∃ pre loc collection body, is = pre ++ .forInit loc collection e.item :: body ∧
      e.index = pre.length ∧ e.offset = span pre ∧ Balanced body ∧ openLoops pre = stack := by
  induction hn : is.length using Nat.strongRecOn generalizing is e stack with
  | ind n ih =>
    rcases List.eq_nil_or_concat' is with rfl | ⟨init, last, rfl⟩
    · cases h
    have hlt : init.length < n := by simp [← hn]
    rw [openLoops_append_singleton] at h
    by_cases hlast : last.isLoop = false
    · -- the last instruction belongs to the body
      rw [Instr.nest_of_not_isLoop hlast] at h
      obtain ⟨pre, loc, collection, body, rfl, hindex, hoffset, hbody, hstack⟩ :=
        ih _ hlt h rfl
      exact ⟨pre, loc, collection, body ++ [last], by simp, hindex, hoffset,
        hbody.append (.cons hlast .nil), hstack⟩
    · cases last with
      | forInit loc collection item =>
        obtain ⟨rfl, rfl⟩ := List.cons.inj h
        exact ⟨init, loc, collection, [], rfl, rfl, rfl, .nil, rfl⟩
      | forClose loc =>
        -- the loop closed here lies in the body of the one that is open
        cases hinit : openLoops init with
        | nil => simp [hinit, Instr.nest] at h
        | cons inner rest =>
          obtain rfl : rest = e :: stack := by simpa [hinit, Instr.nest] using h
          obtain ⟨pre, loc', collection', body, rfl, -, -, hbody, hpre⟩ := ih _ hlt hinit rfl
          have hlt' : pre.length < n := by
            simp at hlt
            omega
          obtain ⟨pre', loc'', collection'', body', rfl, hindex, hoffset, hbody', hstack⟩ :=
            ih _ hlt' hpre rfl
          refine ⟨pre', loc'', collection'',
            body' ++ .forInit loc' collection' inner.item :: (body ++ [.forClose loc]),
            by simp, hindex, hoffset, hbody'.append (.loop hbody .nil), hstack⟩
      | _ => simp [Instr.isLoop] at hlast

/-- At the close of a loop, its opening is on top of the stack. -/
theorem Matched.openLoops_take {is : List Instr} {i j : Nat} (h : Matched is i j) :
    ∃ loc collection item, is[i]? = some (.forInit loc collection item) ∧
      openLoops (is.take j) = ⟨i, offsetOf is i, item⟩ :: openLoops (is.take i) := by
  obtain ⟨loc, collection, item, hi⟩ := h.opening
  refine ⟨loc, collection, item, hi, ?_⟩
  have hlt : i < is.length := Nat.lt_trans h.lt h.lt_length
  have hsplit : is.take j =
      (is.take i ++ [.forInit loc collection item]) ++ (is.take j).drop (i + 1) := by
    have htake : is.take i ++ [.forInit loc collection item] = (is.take j).take (i + 1) := by
      rw [List.take_take, Nat.min_eq_left h.lt, List.take_add_one, hi]
      rfl
    rw [htake, List.take_append_drop]
  rw [hsplit, openLoops_append, h.body.nest_eq, openLoops_append_singleton, Instr.nest,
    List.length_take, Nat.min_eq_left (Nat.le_of_lt hlt)]
  rfl

/-- What is on top of the stack at the close of a loop is its opening. -/
theorem matched_of_openLoops {is : List Instr} {k : Nat} {loc : Position} {e : Opened}
    {stack : List Opened} (hk : is[k]? = some (.forClose loc))
    (h : openLoops (is.take k) = e :: stack) :
    Matched is e.index k ∧ e.offset = offsetOf is e.index ∧
      ∃ loc' collection, is[e.index]? = some (.forInit loc' collection e.item) := by
  have hlt := (List.getElem?_eq_some_iff.1 hk).1
  obtain ⟨pre, loc', collection, body, htake, hindex, hoffset, hbody, -⟩ :=
    exists_of_openLoops_eq_cons h
  have hpre : pre.length < k := by
    have := congrArg List.length htake
    simp at this
    omega
  have his : is = pre ++ .forInit loc' collection e.item :: (body ++ is.drop k) := by
    rw [← List.cons_append, ← List.append_assoc, ← htake, List.take_append_drop]
  have hopen : is[e.index]? = some (.forInit loc' collection e.item) := by
    rw [his, hindex]
    simp
  refine ⟨⟨by omega, ⟨loc', collection, e.item, hopen⟩, ⟨loc, hk⟩, ?_⟩, ?_, loc', collection, hopen⟩
  · rw [htake, hindex]
    simpa using hbody
  · rw [hoffset, offsetOf, hindex]
    conv_rhs => rw [his]
    simp

/-- A loop that is closed is not open. -/
theorem Matched.index_ne {is : List Instr} {i j : Nat} (h : Matched is i j) {e : Opened}
    (he : e ∈ openLoops is) : e.index ≠ i := by
  obtain ⟨loc, hj⟩ := h.closing
  have hlt := h.lt_length
  obtain ⟨-, -, item, -, htop⟩ := h.openLoops_take
  have hsplit : is = (is.take j ++ [.forClose loc]) ++ is.drop (j + 1) := by
    have htake : is.take j ++ [.forClose loc] = is.take (j + 1) := by
      rw [List.take_add_one, hj]
      rfl
    rw [htake, List.take_append_drop]
  rw [hsplit, openLoops_append, openLoops_append_singleton, htop, Instr.nest, List.tail_cons] at he
  rcases mem_nest he with hmem | hbounds
  · have hindex := index_lt_of_mem_openLoops hmem
    simp at hindex
    omega
  · have hlength := hbounds.1
    have := h.lt
    simp at hlength
    omega

/-- A loop is closed once. -/
theorem Matched.right_unique {is : List Instr} {i j j' : Nat} (h : Matched is i j)
    (h' : Matched is i j') : j = j' := by
  have aux {j j' : Nat} (h : Matched is i j) (h' : Matched is i j') : ¬ j < j' := by
    intro hlt
    obtain ⟨-, -, item, -, htop⟩ := h'.openLoops_take
    have hj' := h'.lt_length
    have hmatched : Matched (is.take j' ++ is.drop j') i j := by
      rwa [List.take_append_drop]
    have hmem : (⟨i, offsetOf is i, item⟩ : Opened) ∈ openLoops (is.take j') := by
      rw [htop]
      exact List.mem_cons_self
    exact (hmatched.of_append (by simp; omega)).index_ne hmem rfl
  have h₁ := aux h h'
  have h₂ := aux h' h
  omega

/-- A close belongs to one opening. -/
theorem Matched.left_unique {is : List Instr} {i i' j : Nat} (h : Matched is i j)
    (h' : Matched is i' j) : i = i' := by
  obtain ⟨-, -, item, -, htop⟩ := h.openLoops_take
  obtain ⟨-, -, item', -, htop'⟩ := h'.openLoops_take
  have heq := List.head_eq_of_cons_eq (htop.symm.trans htop')
  exact congrArg Opened.index heq

/-! ## Balanced programs -/

/-- Within a balanced part, a close never finds the stack empty. -/
theorem Balanced.nest_take_ne_nil {is : List Instr} (h : Balanced is) {k : Nat} {loc : Position}
    (hk : is[k]? = some (.forClose loc)) (a off : Nat) (stack : List Opened) :
    nest a off stack (is.take k) ≠ [] := by
  induction h generalizing k a off stack with
  | nil => cases hk
  | cons hi _ ih =>
    cases k with
    | zero =>
      cases hk
      cases hi
    | succ k =>
      rw [List.take_succ_cons, nest]
      exact ih hk _ _ _
  | @loop body is loc₁ loc₂ collection item hbody _ ihbody ih =>
    cases k with
    | zero => cases hk
    | succ k =>
      rw [List.take_succ_cons, nest, Instr.nest]
      -- the close is in the body, is the one of this loop, or comes after it
      rcases Nat.lt_trichotomy k body.length with hlt | rfl | hgt
      · rw [List.take_append_of_le_length (Nat.le_of_lt hlt)]
        rw [List.getElem?_cons_succ, List.getElem?_append_left hlt] at hk
        exact ihbody hk _ _ _
      · rw [List.take_left, hbody.nest_eq]
        exact List.cons_ne_nil _ _
      · obtain ⟨m, rfl⟩ : ∃ m, k = body.length + (m + 1) := ⟨k - body.length - 1, by omega⟩
        rw [List.take_length_add_append, List.take_succ_cons, nest_append, hbody.nest_eq, nest]
        rw [List.getElem?_cons_succ, List.getElem?_append_right (by omega),
          Nat.add_sub_cancel_left, List.getElem?_cons_succ] at hk
        exact ih hk _ _ _

theorem balanced_of_openLoops {is : List Instr} (h : openLoops is = [])
    (hclose : ∀ k loc, is[k]? = some (.forClose loc) → openLoops (is.take k) ≠ []) :
    Balanced is := by
  induction hn : is.length using Nat.strongRecOn generalizing is with
  | ind n ih =>
    rcases List.eq_nil_or_concat' is with rfl | ⟨init, last, rfl⟩
    · exact .nil
    have hlt : init.length < n := by simp [← hn]
    have hclosed {pre post : List Instr} (hpre : init = pre ++ post) (k : Nat) (loc : Position)
        (hk : pre[k]? = some (.forClose loc)) : openLoops (pre.take k) ≠ [] := by
      have hkl := (List.getElem?_eq_some_iff.1 hk).1
      have := hclose k loc (by
        rw [hpre, List.append_assoc, List.getElem?_append_left hkl]
        exact hk)
      rwa [hpre, List.append_assoc, List.take_append_of_le_length (Nat.le_of_lt hkl)] at this
    rw [openLoops_append_singleton] at h
    by_cases hlast : last.isLoop = false
    · rw [Instr.nest_of_not_isLoop hlast] at h
      exact (ih _ hlt h (hclosed (List.append_nil _).symm) rfl).append (.cons hlast .nil)
    · cases last with
      | forInit loc collection item => cases h
      | forClose loc =>
        cases hinit : openLoops init with
        | nil =>
          have := hclose init.length loc (by simp)
          simp [hinit] at this
        | cons e rest =>
          obtain rfl : rest = [] := by simpa [hinit, Instr.nest] using h
          obtain ⟨pre, loc', collection, body, hsplit, -, -, hbody, hpre⟩ :=
            exists_of_openLoops_eq_cons hinit
          have hlt' : pre.length < n := by
            have := congrArg List.length hsplit
            simp at this
            omega
          have := ih _ hlt' hpre (hclosed hsplit) rfl
          rw [hsplit]
          simpa using this.append (.loop hbody .nil)
      | _ => simp [Instr.isLoop] at hlast

/-- A program is balanced iff the stack of open loops never runs out and is empty at the end. -/
theorem balanced_iff {is : List Instr} :
    Balanced is ↔ openLoops is = [] ∧
      ∀ k loc, is[k]? = some (.forClose loc) → openLoops (is.take k) ≠ [] :=
  ⟨fun h => ⟨h.nest_eq _ _ _, fun _ _ hk => h.nest_take_ne_nil hk _ _ _⟩,
    fun h => balanced_of_openLoops h.1 h.2⟩

/-! ## Loops of a balanced program -/

/-- Instructions before a loop only shift its numbers. -/
theorem matched_append_left_iff (pre : List Instr) {is : List Instr} {i j : Nat} :
    Matched (pre ++ is) (pre.length + i) (pre.length + j) ↔ Matched is i j := by
  have hbody : ((pre ++ is).take (pre.length + j)).drop (pre.length + i + 1) =
      (is.take j).drop (i + 1) := by
    rw [List.take_length_add_append, Nat.add_assoc, List.drop_length_add_append]
  constructor
  · rintro ⟨hlt, hopening, hclosing, hbalanced⟩
    rw [getElem?_append_length_add] at hopening hclosing
    rw [hbody] at hbalanced
    exact ⟨by omega, hopening, hclosing, hbalanced⟩
  · rintro ⟨hlt, hopening, hclosing, hbalanced⟩
    rw [← getElem?_append_length_add pre] at hopening hclosing
    rw [← hbody] at hbalanced
    exact ⟨by omega, hopening, hclosing, hbalanced⟩

/-- Every loop of a balanced program is closed. -/
theorem Balanced.exists_matched {is : List Instr} (h : Balanced is) {k : Nat} {loc : Position}
    {collection : Slot} {item : Var} (hk : is[k]? = some (.forInit loc collection item)) :
    ∃ j, Matched is k j := by
  induction h generalizing k with
  | nil => cases hk
  | @cons i is hi _ ih =>
    cases k with
    | zero =>
      cases hk
      cases hi
    | succ k =>
      obtain ⟨j, hj⟩ := ih hk
      rw [← matched_append_left_iff [i]] at hj
      exact ⟨1 + j, by rwa [Nat.add_comm k]⟩
  | @loop body is loc₁ loc₂ collection₁ item₁ hbody h ihbody ih =>
    cases k with
    | zero =>
      exact ⟨body.length + 1, by omega, ⟨_, _, _, rfl⟩, ⟨loc₂, by simp⟩, by simpa using hbody⟩
    | succ k =>
      -- the loop is in the body of this one, or comes after it
      rw [List.getElem?_cons_succ] at hk
      rcases Nat.lt_or_ge k body.length with hlt | hge
      · rw [List.getElem?_append_left hlt] at hk
        obtain ⟨j, hj⟩ := ihbody hk
        have hj := hj.append (.forClose loc₂ :: is)
        rw [← matched_append_left_iff [.forInit loc₁ collection₁ item₁]] at hj
        exact ⟨1 + j, by rwa [Nat.add_comm k]⟩
      · obtain ⟨m, rfl⟩ : ∃ m, k = body.length + m := ⟨k - body.length, by omega⟩
        rw [List.getElem?_append_right hge, Nat.add_sub_cancel_left] at hk
        cases m with
        | zero => cases hk
        | succ m =>
          obtain ⟨j, hj⟩ := ih hk
          rw [← matched_append_left_iff
            (.forInit loc₁ collection₁ item₁ :: (body ++ [.forClose loc₂]))] at hj
          have hlength : (Instr.forInit loc₁ collection₁ item₁ ::
              (body ++ [.forClose loc₂])).length = body.length + 2 := by simp
          have hshift : body.length + (m + 1) + 1 = body.length + 2 + m := by omega
          refine ⟨body.length + 2 + j, ?_⟩
          rw [hshift, ← hlength]
          simpa using hj

/-- Every close of a balanced program has its opening. -/
theorem Balanced.exists_opening {is : List Instr} (h : Balanced is) {k : Nat} {loc : Position}
    (hk : is[k]? = some (.forClose loc)) : ∃ i, Matched is i k := by
  cases hopen : openLoops (is.take k) with
  | nil => exact absurd hopen ((balanced_iff.1 h).2 k loc hk)
  | cons e stack => exact ⟨e.index, (matched_of_openLoops hk hopen).1⟩

/-- A loop closed in the second part of a program is opened there, if that part is balanced. -/
theorem Matched.exists_of_append {is js : List Instr} {a k : Nat}
    (h : Matched (is ++ js) a (is.length + k)) (hjs : Balanced js) :
    ∃ a', a = is.length + a' ∧ Matched js a' k := by
  obtain ⟨loc, hclosing⟩ := h.closing
  rw [getElem?_append_length_add] at hclosing
  obtain ⟨a', ha'⟩ := hjs.exists_opening hclosing
  exact ⟨a', h.left_unique ((matched_append_left_iff is).2 ha'), ha'⟩

/-- A loop that opens in the body of another one is closed there. -/
theorem Matched.lt_of_opens_in {is : List Instr} {i j i' j' : Nat} (h : Matched is i j)
    (h' : Matched is i' j') (hi : i < i') (hj : i' < j) : j' < j := by
  have hlt := h.lt_length
  obtain ⟨loc, collection, item, hopening⟩ := h'.opening
  -- the body as a program of its own, in which the loop is closed
  have hlength : ((is.take j).drop (i + 1)).length = j - (i + 1) := by simp; omega
  have hinside : ((is.take j).drop (i + 1))[i' - (i + 1)]? =
      some (.forInit loc collection item) := by
    rw [List.getElem?_drop, List.getElem?_take_of_lt (by omega), ← hopening]
    congr 1
    omega
  obtain ⟨m, hm⟩ := h.body.exists_matched hinside
  have hmlt := hm.lt_length
  have hm := (matched_append_left_iff (is.take (i + 1))).2 (hm.append (is.drop j))
  have hsplit : is.take (i + 1) ++ ((is.take j).drop (i + 1) ++ is.drop j) = is := by
    have htake : is.take (i + 1) = (is.take j).take (i + 1) := by
      rw [List.take_take, Nat.min_eq_left (by omega)]
    rw [← List.append_assoc, htake, List.take_append_drop, List.take_append_drop]
  have htakelen : (is.take (i + 1)).length = i + 1 := List.length_take_of_le (by omega)
  rw [hsplit, htakelen, Nat.add_sub_of_le hi] at hm
  rw [h'.right_unique hm]
  omega

end Assembler
