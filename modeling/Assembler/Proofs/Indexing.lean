import Assembler.IndexedPool
import Assembler.Proofs.Pooling

/-!
# Pools and their index

The index of a pool lists each entry with its number and nothing else, and finds for every constant
what a search through the entries would find (`IndexedPool.coherent_after`). So a pool with an index
numbers constants as one without does (`IndexedPool.agrees_after`), whatever is added.

As long as the numbers of its entries do not wrap around, the index and the entries are inverse to
each other, two constants are given one number iff they have the same value, and that number refers
for good to the first of them (`IndexedPool.laws_after`).
-/

namespace Assembler

namespace IndexedPool

variable {p : IndexedPool} {c d : Constant}

/-- The pool without its index. -/
def toPool (p : IndexedPool) : Pool :=
  ⟨p.entries⟩

/-- The index lists the entries with their numbers, the last one first, and finds for every
constant what a search through the entries would find. -/
structure Coherent (p : IndexedPool) : Prop where
  listing : p.index = (p.entries.zipIdx.map fun e => (e.1, e.2.toUInt32)).reverse
  lookup : ∀ c, p.lookup? c = (p.toPool.indexOf? c).map Nat.toUInt32

/-! ## One addition -/

theorem coherent_empty : ({} : IndexedPool).Coherent :=
  ⟨rfl, fun _ => rfl⟩

theorem Coherent.lookup?_eq_none_iff (h : p.Coherent) :
    p.lookup? c = none ↔ p.toPool.indexOf? c = none := by
  rw [h.lookup, Option.map_eq_none_iff]

/-- With a coherent index, a constant is added as to a pool without one. -/
theorem Coherent.add_eq (h : p.Coherent) (c : Constant) :
    (p.add c).1.toPool = (p.toPool.add c).1 ∧ (p.add c).2 = (p.toPool.add c).2 := by
  have hlookup := h.lookup c
  unfold add Pool.add
  cases hindex : p.toPool.indexOf? c with
  | none =>
    rw [hindex, Option.map_none] at hlookup
    rw [hlookup]
    exact ⟨rfl, rfl⟩
  | some i =>
    rw [hindex, Option.map_some] at hlookup
    rw [hlookup]
    exact ⟨rfl, rfl⟩

/-- A search in a pool with one more entry. -/
theorem indexOf?_append (hnew : p.toPool.indexOf? c = none) (d : Constant) :
    (Pool.mk (p.entries ++ [c])).indexOf? d =
      if c.same d = true then some p.size else p.toPool.indexOf? d := by
  have hsearch : (Pool.mk (p.entries ++ [c])).indexOf? d =
      (p.toPool.indexOf? d).or (if c.same d = true then some p.size else none) := by
    simp only [Pool.indexOf?, toPool, List.findIdx?_append, List.findIdx?_singleton, size]
    split <;> simp
  rw [hsearch]
  split
  next hsame =>
    -- an entry of the value of `d` would be one of the value of `c`
    have hnone : p.toPool.indexOf? d = none := by
      rw [Pool.indexOf?_eq_none_iff] at hnew ⊢
      intro e he
      have hne := hnew e he
      rwa [show e.same c = e.same d from congrFun (Constant.same_congr hsame) e] at hne
    rw [hnone, Option.none_or]
  next => rw [Option.or_none]

theorem Coherent.add (h : p.Coherent) (c : Constant) : (p.add c).1.Coherent := by
  unfold IndexedPool.add
  cases hlookup : p.lookup? c with
  | some i => exact h
  | none =>
    have hnew := h.lookup?_eq_none_iff.1 hlookup
    refine ⟨?_, fun d => ?_⟩
    · rw [List.zipIdx_append, List.map_append, List.reverse_append, ← h.listing]
      simp [size]
    · have hsearch := indexOf?_append hnew d
      have hold := h.lookup d
      rw [toPool, hsearch]
      simp only [lookup?, List.find?_cons]
      cases hsame : c.same d with
      | true => rfl
      | false => exact hold

/-! ## Any number of additions -/

/-- The pool after constants have been added in turn to an empty one. -/
def after (cs : List Constant) : IndexedPool :=
  cs.foldl (fun p c => (p.add c).1) {}

/-- The number that constant number `k` is given when it is added. -/
def numberAt? (cs : List Constant) (k : Nat) : Option UInt32 :=
  cs[k]?.map fun c => ((after (cs.take k)).add c).2

theorem after_append_singleton (cs : List Constant) (c : Constant) :
    after (cs ++ [c]) = ((after cs).add c).1 := by
  simp [after]

theorem coherent_after (cs : List Constant) : (after cs).Coherent := by
  induction cs using List.reverseRecOn with
  | nil => exact coherent_empty
  | append_singleton cs c ih =>
    rw [after_append_singleton]
    exact ih.add c

theorem toPool_after (cs : List Constant) : (after cs).toPool = Pool.addAll {} cs := by
  induction cs using List.reverseRecOn with
  | nil => rfl
  | append_singleton cs c ih =>
    rw [after_append_singleton, ((coherent_after cs).add_eq c).1, ih, Pool.addAll_append]
    rfl

theorem entries_after (cs : List Constant) : (after cs).entries = (Pool.addAll {} cs).entries :=
  congrArg Pool.entries (toPool_after cs)

/-- A pool with an index numbers constants as one without does. -/
theorem agrees_after (cs : List Constant) :
    (after cs).entries = (Pool.addAll {} cs).entries ∧
      ∀ k, numberAt? cs k = cs[k]?.map fun c => ((Pool.addAll {} (cs.take k)).add c).2 := by
  refine ⟨entries_after cs, fun k => ?_⟩
  unfold numberAt?
  congr 1
  funext c
  rw [((coherent_after _).add_eq c).2, toPool_after]

theorem size_after (cs : List Constant) :
    (after cs).size = (cs.eraseDupsBy Constant.same).length := by
  rw [size, entries_after, Pool.entries_addAll_eq_eraseDupsBy]

theorem distinct_after (cs : List Constant) : (after cs).toPool.Distinct := by
  rw [toPool_after]
  exact Pool.distinct_addAll List.Pairwise.nil cs

/-- The number of a constant is that of the first constant of its value. -/
theorem numberAt?_eq {cs : List Constant} {k : Nat} (hk : cs[k]? = some c) :
    ∃ i, numberAt? cs k = some i.toUInt32 ∧ (after cs).toPool.indexOf? c = some i := by
  obtain ⟨i, hi, hnumber, -⟩ := (Pool.addAll {} (cs.take k)).indexOf?_add c
  refine ⟨i, ?_, ?_⟩
  · rw [(agrees_after cs).2, hk, Option.map_some, hnumber]
  · have hlt := (List.getElem?_eq_some_iff.1 hk).1
    have hsplit : cs = cs.take k ++ c :: cs.drop (k + 1) := by
      rw [← (List.getElem?_eq_some_iff.1 hk).2, ← List.drop_eq_getElem_cons hlt,
        List.take_append_drop]
    have hprefix : (((Pool.addAll {} (cs.take k)).add c).1).entries <+:
        (after cs).toPool.entries := by
      rw [toPool_after]
      conv_rhs => rw [hsplit, Pool.addAll_append, Pool.addAll_cons]
      exact Pool.prefix_addAll _ _
    exact Pool.indexOf?_of_isPrefix hprefix hi

/-! ## Pools whose numbers do not wrap around -/

theorem mem_index_iff (h : p.Coherent) (hfits : p.size < UInt32.size) {i : UInt32} :
    (c, i) ∈ p.index ↔ p.get? i = some c := by
  simp only [h.listing, List.mem_reverse, List.mem_map, Prod.exists, Prod.mk.injEq,
    List.mem_zipIdx_iff_getElem?, get?]
  constructor
  · rintro ⟨_, k, hk, rfl, rfl⟩
    have hlt : k < p.size := (List.getElem?_eq_some_iff.1 hk).1
    rwa [toNat_toUInt32 (Nat.lt_trans hlt hfits)]
  · intro hi
    exact ⟨c, i.toNat, hi, rfl, UInt32.ofNat_toNat⟩

/-- No value has two numbers in the index. -/
theorem pairwise_keys (h : p.Coherent) (hdistinct : p.toPool.Distinct) :
    p.index.Pairwise fun d e => d.1.same e.1 = false := by
  have hkeys : p.index.map Prod.fst = p.entries.reverse := by
    rw [h.listing, List.map_reverse, List.map_map]
    exact congrArg List.reverse (List.zipIdx_map_fst 0 p.entries)
  rw [← List.pairwise_map (f := Prod.fst) (R := fun d e : Constant => d.same e = false), hkeys,
    List.pairwise_reverse]
  refine hdistinct.imp fun hne => ?_
  rw [Bool.eq_false_iff] at hne ⊢
  exact fun hsame => hne (Constant.same_symm hsame)

theorem isSome_get?_iff {i : UInt32} : (p.get? i).isSome ↔ i.toNat < p.size := by
  simp [get?, size]

/-- The entry that a search finds is read back at its number. -/
theorem get?_of_indexOf? (hfits : p.size < UInt32.size) {i : Nat}
    (hi : p.toPool.indexOf? c = some i) :
    i.toUInt32.toNat = i ∧ p.get? i.toUInt32 = p.entries.find? (·.same c) := by
  have hlt : i < p.size := (List.findIdx?_eq_some_iff_getElem.1 hi).1
  have hnat := toNat_toUInt32 (Nat.lt_trans hlt hfits)
  exact ⟨hnat, by rw [get?, hnat]; exact Pool.getElem?_of_indexOf? hi⟩

theorem lookup?_eq_some_iff (h : p.Coherent) (hdistinct : p.toPool.Distinct)
    (hfits : p.size < UInt32.size) {i : UInt32} :
    p.lookup? c = some i ↔ ∃ e, p.get? i = some e ∧ e.same c = true := by
  rw [h.lookup, Option.map_eq_some_iff]
  constructor
  · rintro ⟨k, hk, rfl⟩
    obtain ⟨e, he, hsame⟩ := Pool.exists_same_of_indexOf? hk
    refine ⟨e, ?_, hsame⟩
    rw [get?, (get?_of_indexOf? hfits hk).1]
    exact he
  · rintro ⟨e, he, hsame⟩
    -- the entry is found under its own value, so under that of `c`
    have hindex := hdistinct.indexOf?_eq he
    rw [Pool.indexOf?, Constant.same_congr hsame] at hindex
    exact ⟨i.toNat, hindex, UInt32.ofNat_toNat⟩

variable {cs : List Constant} {k : Nat}

theorem size_take_le (cs : List Constant) (m : Nat) :
    (after (cs.take m)).size ≤ (after cs).size := by
  conv_rhs => rw [← List.take_append_drop m cs]
  rw [size, size, entries_after, entries_after, Pool.addAll_append]
  exact (Pool.prefix_addAll _ _).length_le

/-- A number once given is not changed by what is added later. -/
theorem numberAt?_take {m : Nat} (hm : k < m) : numberAt? (cs.take m) k = numberAt? cs k := by
  rw [numberAt?, numberAt?, List.getElem?_take_of_lt hm, List.take_take,
    Nat.min_eq_left (Nat.le_of_lt hm)]

theorem find?_entries_after (cs : List Constant) (c : Constant) :
    (after cs).entries.find? (·.same c) = cs.find? (·.same c) := by
  rw [entries_after, Pool.find?_addAll]
  rfl

/-- The number of a constant refers to the first constant of its value, now and later. -/
theorem exists_get?_numberAt? (hfits : (after cs).size < UInt32.size) (hk : cs[k]? = some c) :
    ∃ i e, numberAt? cs k = some i ∧ cs.find? (·.same c) = some e ∧ e.same c = true ∧
      ∀ m, k < m → (after (cs.take m)).get? i = some e := by
  obtain ⟨i, hi, -⟩ := numberAt?_eq hk
  have htake : ∀ m, k < m → (cs.take m)[k]? = some c := fun m hm => by
    rwa [List.getElem?_take_of_lt hm]
  have hread : ∀ m, k < m →
      (after (cs.take m)).get? i.toUInt32 = (cs.take m).find? (·.same c) := by
    intro m hm
    obtain ⟨j, hj, hindex⟩ := numberAt?_eq (htake m hm)
    rw [numberAt?_take hm, hi, Option.some.injEq] at hj
    have hsize := Nat.lt_of_le_of_lt (size_take_le cs m) hfits
    rw [hj, (get?_of_indexOf? hsize hindex).2, find?_entries_after]
  -- the constant itself is among the first `m`, so the first of its value is
  have hfirst : ∀ m, k < m → ((cs.take m).find? (·.same c)).isSome := fun m hm =>
    List.find?_isSome.2 ⟨c, List.mem_of_getElem? (htake m hm), c.same_refl⟩
  obtain ⟨e, he⟩ := Option.isSome_iff_exists.1 (hfirst (k + 1) (Nat.lt_succ_self k))
  have hstays : ∀ m, k < m → (cs.take m).find? (·.same c) = some e := by
    intro m hm
    exact (List.take_prefix_take_left (by omega)).find?_eq_some he
  have hwhole : cs.find? (·.same c) = some e := (List.take_prefix (k + 1) cs).find?_eq_some he
  have hsame : e.same c = true := List.find?_some (p := fun d : Constant => d.same c) hwhole
  exact ⟨i.toUInt32, e, hi, hwhole, hsame, fun m hm => (hread m hm).trans (hstays m hm)⟩

/-- Two constants are given one number iff they have the same value. -/
theorem numberAt?_eq_iff (hfits : (after cs).size < UInt32.size) {j : Nat} (hj : cs[j]? = some c)
    (hk : cs[k]? = some d) : numberAt? cs j = numberAt? cs k ↔ c.same d = true := by
  obtain ⟨a, ha, hc⟩ := numberAt?_eq hj
  obtain ⟨b, hb, hd⟩ := numberAt?_eq hk
  rw [ha, hb, Option.some.injEq]
  constructor
  · intro heq
    obtain rfl : a = b := by
      rw [← (get?_of_indexOf? hfits hc).1, ← (get?_of_indexOf? hfits hd).1, heq]
    obtain ⟨e, he, hec⟩ := Pool.exists_same_of_indexOf? hc
    obtain ⟨f, hf, hfd⟩ := Pool.exists_same_of_indexOf? hd
    obtain rfl : e = f := Option.some.inj (he.symm.trans hf)
    exact Constant.same_trans (Constant.same_symm hec) hfd
  · intro hsame
    rw [Pool.indexOf?, Constant.same_congr hsame] at hc
    rw [Option.some.inj (hc.symm.trans hd)]

/-- The laws of a pool to which fewer than `2 ^ 32` values have been added, in any order and any
number of times. Its entries and its index are inverse to each other. A constant is given the number
of the first constant of its value, and that number refers to it for good. -/
theorem laws_after (cs : List Constant)
    (hfew : (cs.eraseDupsBy Constant.same).length < UInt32.size) :
    ((after cs).entries.Pairwise (fun d e => d.same e = false) ∧
      (after cs).index.Pairwise (fun d e => d.1.same e.1 = false) ∧
      (∀ c i, (c, i) ∈ (after cs).index ↔ (after cs).get? i = some c) ∧
      ∀ c i, (after cs).lookup? c = some i ↔ ∃ e, (after cs).get? i = some e ∧ e.same c = true) ∧
    ((∀ i, ((after cs).get? i).isSome ↔ i.toNat < (after cs).size) ∧
      (after cs).size = (cs.eraseDupsBy Constant.same).length) ∧
    (∀ k c, cs[k]? = some c →
      ∃ i e, numberAt? cs k = some i ∧ cs.find? (·.same c) = some e ∧ e.same c = true ∧
        ∀ m, k < m → (after (cs.take m)).get? i = some e) ∧
    (∀ j k c d, cs[j]? = some c → cs[k]? = some d →
      (numberAt? cs j = numberAt? cs k ↔ c.same d = true)) ∧
    (Equivalence (fun c d : Constant => c.same d = true) ∧
      ∀ c d : Constant, c.same d = true ↔ c = d ∨ ∃ x y, c = .float x ∧ d = .float y ∧
        (x.isZero = true ∧ y.isZero = true ∨ x.isNaN = true ∧ y.isNaN = true)) ∧
    ((after cs).entries = (Pool.addAll {} cs).entries ∧
      ∀ k, numberAt? cs k = cs[k]?.map fun c => ((Pool.addAll {} (cs.take k)).add c).2) := by
  have hcoherent := coherent_after cs
  have hdistinct := distinct_after cs
  have hfits : (after cs).size < UInt32.size := by rwa [size_after]
  have hinverse : ∀ c i, (c, i) ∈ (after cs).index ↔ (after cs).get? i = some c :=
    fun _ _ => mem_index_iff hcoherent hfits
  have hequivalence : Equivalence fun c d : Constant => c.same d = true :=
    ⟨Constant.same_refl, Constant.same_symm, Constant.same_trans⟩
  exact ⟨⟨hdistinct, pairwise_keys hcoherent hdistinct, hinverse,
      fun _ _ => lookup?_eq_some_iff hcoherent hdistinct hfits⟩,
    ⟨fun _ => isSome_get?_iff, size_after cs⟩,
    fun _ _ hk => exists_get?_numberAt? hfits hk,
    fun _ _ _ _ hj hk => numberAt?_eq_iff hfits hj hk,
    ⟨hequivalence, fun _ _ => Constant.same_iff⟩, agrees_after cs⟩

/-- An integer, both zeros and two words that are not a number. -/
def mixedNumbers : List Constant :=
  [.int 0, .float ⟨0⟩, .float ⟨0x7FF8000000000000⟩, .float ⟨0x8000000000000000⟩,
    .float ⟨0xFFF8000000000001⟩]

theorem laws_after_mixedNumbers :
    (mixedNumbers.eraseDupsBy Constant.same).length < UInt32.size ∧
      (after mixedNumbers).size = 3 ∧
      numberAt? mixedNumbers 0 ≠ numberAt? mixedNumbers 1 ∧
      numberAt? mixedNumbers 1 = numberAt? mixedNumbers 3 ∧
      numberAt? mixedNumbers 2 = numberAt? mixedNumbers 4 ∧
      ∃ i, numberAt? mixedNumbers 3 = some i ∧ (after mixedNumbers).get? i = some (.float ⟨0⟩) := by
  have hfew : (mixedNumbers.eraseDupsBy Constant.same).length < UInt32.size := by decide
  obtain ⟨-, ⟨-, hsize⟩, hread, hsame, -⟩ := laws_after mixedNumbers hfew
  obtain ⟨i, e, hi, he, -, hget⟩ := hread 3 _ rfl
  obtain rfl : Constant.float ⟨0⟩ = e := Option.some.inj he
  refine ⟨hfew, hsize, fun h => ?_, (hsame 1 3 _ _ rfl rfl).2 rfl, (hsame 2 4 _ _ rfl rfl).2 rfl,
    i, hi, hget 5 (by decide)⟩
  exact Bool.false_ne_true ((hsame 0 1 _ _ rfl rfl).1 h)

end IndexedPool

end Assembler
