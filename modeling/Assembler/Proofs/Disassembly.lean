import Assembler.Code.Disassembly
import Assembler.Proofs.Decoding

/-!
# Disassembly

The text of lowered code loses nothing: two codes have the same text iff they have the same words
(`Program.disassembly_eq_iff`). The text can be taken apart again, into lines at each newline, then
at the colon after the offset, and then into an opcode and its operands at each blank
(`Code.words_of_disassembly`). None of these stand inside a name or a number.

An operand word has one of three notations. Letters and digits do not overlap, so the letters of the
kind are known (`Operand.text_injective`), and no such text starts like that of another word.
-/

namespace Assembler

/-! ## Digits -/

theorem digitChar_injective {d e : Nat} (hd : d < 16) (he : e < 16)
    (h : d.digitChar = e.digitChar) : d = e := by
  have hall : ∀ d < 16, ∀ e < 16, Nat.digitChar d = Nat.digitChar e → d = e := by decide
  exact hall d hd e he h

/-- A number is determined by its digits. -/
theorem toDigits_injective {b : Nat} (hb : 1 < b) (hle : b ≤ 16) {m n : Nat}
    (h : b.toDigits m = b.toDigits n) : m = n := by
  induction m using Nat.strongRecOn generalizing n with
  | ind m ih =>
    have hone (d : Char) (k : Nat) (e : Char) : [d] ≠ b.toDigits k ++ [e] := by
      intro h
      have hlength := congrArg List.length h
      have hpos : 0 < (b.toDigits k).length := Nat.length_toDigits_pos
      rw [List.length_append, List.length_singleton, List.length_singleton] at hlength
      omega
    have hpos : 0 < b := Nat.zero_lt_of_lt hb
    rw [Nat.toDigits_eq_if hb, Nat.toDigits_eq_if (n := n) hb] at h
    split at h <;> split at h
    next hm hn => exact digitChar_injective (by omega) (by omega) (List.singleton_inj.1 h)
    · exact absurd h (hone _ _ _)
    · exact absurd h.symm (hone _ _ _)
    next hm hn =>
      obtain ⟨hinit, hlast⟩ := List.append_inj' h rfl
      have hdiv : m / b = n / b := ih (m / b) (Nat.div_lt_self (by omega) hb) hinit
      have hmod : m % b = n % b :=
        digitChar_injective (Nat.lt_of_lt_of_le (Nat.mod_lt m hpos) hle)
          (Nat.lt_of_lt_of_le (Nat.mod_lt n hpos) hle) (List.singleton_inj.1 hlast)
      rw [← Nat.div_add_mod m b, ← Nat.div_add_mod n b, hdiv, hmod]

theorem exists_digitChar {b n : Nat} (hb : 1 < b) {c : Char} (h : c ∈ b.toDigits n) :
    ∃ d : Nat, d.digitChar = c := by
  induction n using Nat.strongRecOn with
  | ind n ih =>
    rw [Nat.toDigits_eq_if hb] at h
    split at h
    · exact ⟨n, (List.mem_singleton.1 h).symm⟩
    · rcases List.mem_append.1 h with h | h
      · exact ih (n / b) (Nat.div_lt_self (by omega) hb) h
      · exact ⟨n % b, (List.mem_singleton.1 h).symm⟩

/-! ## Taking a text apart -/

section Parts

variable {a : Char}

/-- A mark ends what comes before its first occurrence. -/
theorem append_cons_inj {s t u v : List Char} (hs : a ∉ s) (ht : a ∉ t)
    (h : s ++ a :: u = t ++ a :: v) : s = t ∧ u = v := by
  have hsplit := congrArg (List.splitOn a) h
  rw [List.splitOn_append_cons_self_of_not_mem hs,
    List.splitOn_append_cons_self_of_not_mem ht] at hsplit
  obtain rfl : s = t := (List.cons.inj hsplit).1
  exact ⟨rfl, (List.cons.inj (List.append_cancel_left h)).2⟩

/-- Parts that each end with a mark are found at the marks. -/
theorem splitOn_flatMap {ls : List (List Char)} (hls : ∀ l ∈ ls, a ∉ l) :
    (ls.flatMap (· ++ [a])).splitOn a = ls ++ [[]] := by
  induction ls with
  | nil => exact List.splitOn_nil a
  | cons l ls ih =>
    have hl := hls l List.mem_cons_self
    have ih := ih fun m hm => hls m (List.mem_cons_of_mem _ hm)
    rw [List.flatMap_cons, List.append_assoc, List.singleton_append,
      List.splitOn_append_cons_self_of_not_mem hl, ih, List.cons_append]

theorem notMem_intercalate {sep : List Char} (hsep : a ∉ sep) {ls : List (List Char)}
    (hls : ∀ l ∈ ls, a ∉ l) : a ∉ sep.intercalate ls := by
  induction ls with
  | nil => exact List.not_mem_nil
  | cons l ls ih =>
    have hl := hls l List.mem_cons_self
    have ih := ih fun m hm => hls m (List.mem_cons_of_mem _ hm)
    by_cases hnil : ls = []
    · rw [hnil, List.intercalate_singleton]
      exact hl
    · rw [List.intercalate_cons_of_ne_nil hnil]
      simp only [List.mem_append, hl, hsep, ih, or_self, not_false_eq_true]

end Parts

/-! ## Tokens -/

/-- The characters at which the text is taken apart. -/
def separators : List Char := ['\n', ':', ' ']

/-- The text has no separators in it. -/
def Unbroken (cs : List Char) : Prop :=
  ∀ c ∈ separators, c ∉ cs

instance (cs : List Char) : Decidable (Unbroken cs) :=
  List.decidableBAll (· ∉ cs) separators

theorem Unbroken.append {cs ds : List Char} (hcs : Unbroken cs) (hds : Unbroken ds) :
    Unbroken (cs ++ ds) := by
  intro c hc hmem
  rcases List.mem_append.1 hmem with hmem | hmem
  · exact hcs c hc hmem
  · exact hds c hc hmem

theorem unbroken_toDigits {b : Nat} (hb : 1 < b) (n : Nat) : Unbroken (b.toDigits n) := by
  intro c hc hmem
  obtain ⟨d, rfl⟩ := exists_digitChar hb hmem
  have hne : ∀ c ∈ separators, Nat.digitChar d ≠ c := by
    simp only [separators, List.mem_cons, List.not_mem_nil, or_false, forall_eq_or_imp, forall_eq]
    exact ⟨Nat.digitChar_ne _ rfl, Nat.digitChar_ne _ rfl, Nat.digitChar_ne _ rfl⟩
  exact hne _ hc rfl

theorem Opcode.unbroken_name (op : Opcode) : Unbroken op.name.toList := by
  cases op <;> decide

theorem Opcode.name_injective {op op' : Opcode} (h : op.name = op'.name) : op = op' := by
  have hread (op : Opcode) : ofName? op.name = some op := by
    cases op <;> decide
  rw [← Option.some.injEq, ← hread, ← hread, h]

/-! ## Operands -/

theorem toList_toString (n : Nat) : (toString n).toList = Nat.toDigits 10 n := by
  rw [Nat.toString_eq_ofList_toDigits, String.toList_ofList]

theorem Operand.toList_text (o : Operand) :
    o.text.toList = o.kind.letters.toList ++ Nat.toDigits 10 o.index.toNat := by
  rw [text, String.toList_append, toList_toString]

theorem Kind.letters_injective {kind kind' : Kind} (h : kind.letters = kind'.letters) :
    kind = kind' := by
  revert h
  cases kind <;> cases kind' <;> decide

/-- The letters of a kind end where the digits of the number start. -/
theorem Operand.letters_eq (o : Operand) :
    o.text.toList.takeWhile (!·.isDigit) = o.kind.letters.toList := by
  have hletters : o.kind.letters.toList.all (!·.isDigit) = true := by
    cases o.kind <;> decide
  have hdigits : (Nat.toDigits 10 o.index.toNat).takeWhile (!·.isDigit) = [] := by
    cases hcs : Nat.toDigits 10 o.index.toNat with
    | nil => rfl
    | cons c cs =>
      have hc : c.isDigit := by
        apply Nat.isDigit_of_mem_toDigits (b := 10) (n := o.index.toNat) (by decide) (by decide)
        rw [hcs]
        exact List.mem_cons_self
      rw [List.takeWhile_cons_of_neg (by simp [hc])]
  rw [o.toList_text, List.takeWhile_append_of_pos (List.all_eq_true.1 hletters), hdigits,
    List.append_nil]

theorem Operand.text_injective {o o' : Operand} (h : o.text = o'.text) : o = o' := by
  have hletters : o.kind.letters.toList = o'.kind.letters.toList := by
    rw [← letters_eq, ← letters_eq, h]
  have hkind : o.kind = o'.kind := Kind.letters_injective (String.toList_inj.1 hletters)
  have hdigits : Nat.toDigits 10 o.index.toNat = Nat.toDigits 10 o'.index.toNat := by
    have htext := congrArg String.toList h
    rw [toList_text, toList_text, hletters] at htext
    exact List.append_cancel_left htext
  have hindex : o.index = o'.index :=
    UInt32.toNat_inj.1 (toDigits_injective (by decide) (by decide) hdigits)
  obtain ⟨kind, index, hle⟩ := o
  obtain ⟨kind', index', hle'⟩ := o'
  obtain rfl : kind = kind' := hkind
  obtain rfl : index = index' := hindex
  rfl

/-- The text of an operand starts with a letter. -/
theorem Operand.head?_text (o : Operand) : o.text.toList.head? ≠ some '#' := by
  rw [toList_text]
  cases o.kind <;> simp [Kind.letters]

theorem toList_operandText_of_none {w : UInt32} (h : Operand.decode? w = none) :
    (operandText w).toList = '#' :: Nat.toDigits 16 w.toNat := by
  simp only [operandText, h, String.toList_append, String.toList_ofList]
  rfl

theorem operandText_of_some {w : UInt32} {o : Operand} (h : Operand.decode? w = some o) :
    operandText w = o.text := by
  simp only [operandText, h]

/-- An operand word is determined by its text, also if it names no place. -/
theorem operandText_injective {w w' : UInt32} (h : operandText w = operandText w') : w = w' := by
  cases hw : Operand.decode? w with
  | some o =>
    rw [operandText_of_some hw] at h
    cases hw' : Operand.decode? w' with
    | some o' =>
      rw [operandText_of_some hw'] at h
      rw [← Operand.encode_of_decode? hw, ← Operand.encode_of_decode? hw', Operand.text_injective h]
    | none =>
      have htext := congrArg String.toList h
      rw [toList_operandText_of_none hw'] at htext
      exact absurd (congrArg List.head? htext) o.head?_text
  | none =>
    have htext := congrArg String.toList h
    rw [toList_operandText_of_none hw] at htext
    cases hw' : Operand.decode? w' with
    | some o' =>
      rw [operandText_of_some hw'] at htext
      exact absurd (congrArg List.head? htext).symm o'.head?_text
    | none =>
      rw [toList_operandText_of_none hw'] at htext
      have hdigits := (List.cons.inj htext).2
      exact UInt32.toNat_inj.1 (toDigits_injective (by decide) (by decide) hdigits)

theorem unbroken_operandText (w : UInt32) : Unbroken (operandText w).toList := by
  cases hw : Operand.decode? w with
  | some o =>
    rw [operandText_of_some hw, o.toList_text]
    have hletters : Unbroken o.kind.letters.toList := by
      cases o.kind <;> decide
    exact hletters.append (unbroken_toDigits (by decide) _)
  | none =>
    rw [toList_operandText_of_none hw]
    have hmark : Unbroken ['#'] := by decide
    exact hmark.append (unbroken_toDigits (by decide) _)

/-! ## Lines -/

namespace Decoded

variable {d d' : Decoded}

/-- The notation of the operand word number `i` of an opcode. -/
def operandNote (op : Opcode) (i : Nat) (w : UInt32) : String :=
  if op.address? = some i then s!"@{w}" else operandText w

/-- What a line says behind the offset, word by word. -/
def tokens (d : Decoded) : List String :=
  d.opcode.name :: d.operandTexts

theorem operandTexts_eq (d : Decoded) :
    d.operandTexts = d.operands.mapIdx (operandNote d.opcode) := rfl

theorem toList_address (w : UInt32) : (s!"@{w}").toList = '@' :: Nat.toDigits 10 w.toNat := by
  show ("@" ++ toString w.toNat).toList = _
  rw [String.toList_append, toList_toString]
  rfl

theorem operandNote_injective {op : Opcode} {i : Nat} {w w' : UInt32}
    (h : operandNote op i w = operandNote op i w') : w = w' := by
  unfold operandNote at h
  split at h
  · have htext := congrArg String.toList h
    rw [toList_address, toList_address] at htext
    have hdigits := (List.cons.inj htext).2
    exact UInt32.toNat_inj.1 (toDigits_injective (by decide) (by decide) hdigits)
  · exact operandText_injective h

theorem unbroken_operandNote (op : Opcode) (i : Nat) (w : UInt32) :
    Unbroken (operandNote op i w).toList := by
  unfold operandNote
  split
  · rw [toList_address]
    have hmark : Unbroken ['@'] := by decide
    exact hmark.append (unbroken_toDigits (by decide) _)
  · exact unbroken_operandText w

theorem unbroken_of_mem_tokens {token : String} (h : token ∈ d.tokens) :
    Unbroken token.toList := by
  rcases List.mem_cons.1 h with rfl | h
  · exact d.opcode.unbroken_name
  · rw [operandTexts_eq] at h
    obtain ⟨i, hi, rfl⟩ := List.mem_mapIdx.1 h
    exact unbroken_operandNote _ _ _

/-- The opcode and the operands are determined by the tokens. -/
theorem eq_of_tokens (h : d.tokens = d'.tokens) :
    d.opcode = d'.opcode ∧ d.operands = d'.operands := by
  obtain ⟨hname, hnotes⟩ := List.cons.inj h
  have hop := Opcode.name_injective hname
  rw [operandTexts_eq, operandTexts_eq, hop] at hnotes
  refine ⟨hop, List.ext_getElem? fun i => ?_⟩
  have hi := congrArg (·[i]?) hnotes
  simp only [List.getElem?_mapIdx] at hi
  exact Option.map_injective (fun _ _ => operandNote_injective) hi

/-- The offset as it stands in a line. -/
def column (d : Decoded) : List Char :=
  (Nat.toDigits 10 d.offset).leftpad 4 ' '

/-- A line without its newline. -/
def body (d : Decoded) : List Char :=
  d.column ++ ':' :: ' ' :: [' '].intercalate (d.tokens.map String.toList)

theorem toList_line (d : Decoded) : d.line.toList = d.body ++ ['\n'] := by
  simp only [line, String.toList_append, String.toList_ofList, String.toList_intercalate, body,
    column, tokens, List.append_assoc]
  rfl

theorem notMem_column {c : Char} (hc : c ∈ separators) (hne : c ≠ ' ') (d : Decoded) :
    c ∉ d.column := by
  rw [column, List.leftpad, List.mem_append, not_or]
  refine ⟨fun hmem => hne (List.eq_of_mem_replicate hmem), ?_⟩
  exact unbroken_toDigits (by decide) _ c hc

theorem unbroken_of_mem_map {cs : List Char} (h : cs ∈ d.tokens.map String.toList) :
    Unbroken cs := by
  obtain ⟨token, htoken, rfl⟩ := List.mem_map.1 h
  exact unbroken_of_mem_tokens htoken

theorem newline_notMem_body (d : Decoded) : '\n' ∉ d.body := by
  have hcolumn : '\n' ∉ d.column := notMem_column (by decide) (by decide) d
  have htokens : '\n' ∉ [' '].intercalate (d.tokens.map String.toList) :=
    notMem_intercalate (by decide) fun cs hcs => unbroken_of_mem_map hcs '\n' (by decide)
  have hmarks : '\n' ∉ [':', ' '] := by decide
  intro h
  rcases List.mem_append.1 h with h | h
  · exact hcolumn h
  · rcases List.mem_append.1 (show '\n' ∈ [':', ' '] ++ _ from h) with h | h
    · exact hmarks h
    · exact htokens h

/-- The opcode and the operands are determined by the line, whatever the offset. -/
theorem eq_of_body (h : d.body = d'.body) : d.opcode = d'.opcode ∧ d.operands = d'.operands := by
  have hcolon (d : Decoded) : ':' ∉ d.column := notMem_column (by decide) (by decide) d
  have hsplit (d : Decoded) :
      ([' '].intercalate (d.tokens.map String.toList)).splitOn ' ' = d.tokens.map String.toList :=
    List.splitOn_intercalate ' ' (fun cs hcs => unbroken_of_mem_map hcs ' ' (by decide))
      (List.cons_ne_nil _ _)
  obtain ⟨-, hrest⟩ := append_cons_inj (hcolon d) (hcolon d') h
  have htokens := congrArg (List.splitOn ' ') (List.cons.inj hrest).2
  rw [hsplit, hsplit] at htokens
  exact eq_of_tokens (List.map_injective_iff.2 (fun _ _ => String.toList_inj.1) htokens)

end Decoded

/-! ## Codes -/

/-- The words of an instruction. -/
def Decoded.words (d : Decoded) : List UInt32 :=
  d.opcode.word :: d.operands

namespace Code

variable {c c' : Code}

theorem toList_disassembly (c : Code) :
    c.disassembly.toList = (c.decoded.map Decoded.body).flatMap (· ++ ['\n']) := by
  rw [disassembly, String.toList_join, List.flatMap_map, List.flatMap_map]
  simp only [Decoded.toList_line]

/-- The words of the instructions are determined by the text of a code. -/
theorem words_of_disassembly (h : c.disassembly = c'.disassembly) :
    c.decoded.map Decoded.words = c'.decoded.map Decoded.words := by
  have hnewline (c : Code) : ∀ l ∈ c.decoded.map Decoded.body, '\n' ∉ l := by
    intro l hl
    obtain ⟨d, -, rfl⟩ := List.mem_map.1 hl
    exact d.newline_notMem_body
  have hsplit := congrArg (List.splitOn '\n') (congrArg String.toList h)
  rw [toList_disassembly, toList_disassembly, splitOn_flatMap (hnewline c),
    splitOn_flatMap (hnewline c')] at hsplit
  have hbodies := List.append_cancel_right hsplit
  rw [← List.forall₂_eq_eq_eq, List.forall₂_map_left_iff, List.forall₂_map_right_iff] at hbodies ⊢
  refine hbodies.imp fun d d' hbody => ?_
  obtain ⟨hop, hoperands⟩ := Decoded.eq_of_body hbody
  rw [Decoded.words, hop, hoperands, Decoded.words]

/-- The walk sees nothing of a code but its words. -/
theorem decodedFrom_congr (h : c.words = c'.words) (offset : Nat) :
    c.decodedFrom offset = c'.decodedFrom offset := by
  have hdecode (offset : Nat) : c.decodeAt? offset = c'.decodeAt? offset := by
    unfold decodeAt? opcodeAt? wordAt? size
    rw [h]
  fun_induction decodedFrom c offset with
  | case1 offset hnone => rw [decodedFrom_of_none ((hdecode offset).symm.trans hnone)]
  | case2 offset d hsome ih => rw [decodedFrom_of_some ((hdecode offset).symm.trans hsome), ih]

theorem disassembly_congr (h : c.words = c'.words) : c.disassembly = c'.disassembly := by
  rw [disassembly, decoded, decodedFrom_congr h, disassembly, decoded]

/-- An instruction that is found is there, word for word. -/
theorem drop_of_decodeAt? {offset : Nat} {d : Decoded} (h : c.decodeAt? offset = some d) :
    c.words.toList.drop offset = d.words ++ c.words.toList.drop (offset + d.opcode.width) := by
  obtain ⟨op, hop, h⟩ := Option.bind_eq_some_iff.1 h
  split at h
  · cases h
    obtain ⟨w, hw, hword⟩ := Option.bind_eq_some_iff.1 hop
    have hopcode : op.word = w := toUInt32_idxOf (by decide) hword
    rw [wordAt?_eq, List.getElem?_eq_some_iff] at hw
    obtain ⟨hlt, hw⟩ := hw
    have hnext : offset + op.width = offset + 1 + op.operandCount := by
      rw [Opcode.width, Nat.add_assoc]
    have hoperands : (c.words.extract (offset + 1) (offset + op.width)).toList =
        (c.words.toList.drop (offset + 1)).take op.operandCount := by
      rw [Array.toList_extract, List.extract_eq_take_drop, hnext, Nat.add_sub_cancel_left]
    show _ = op.word :: (c.words.extract (offset + 1) (offset + op.width)).toList ++ _
    calc
      c.words.toList.drop offset = op.word :: c.words.toList.drop (offset + 1) := by
        rw [List.drop_eq_getElem_cons hlt, hw, hopcode]
      _ = op.word :: ((c.words.toList.drop (offset + 1)).take op.operandCount ++
          (c.words.toList.drop (offset + 1)).drop op.operandCount) := by
        rw [List.take_append_drop]
      _ = _ := by rw [hoperands, List.drop_drop, hnext, List.cons_append]
  · cases h

theorem decodeAt?_size (c : Code) : c.decodeAt? c.size = none := by
  rw [Option.eq_none_iff_forall_ne_some]
  intro d hd
  exact Nat.lt_irrefl _ (lt_size_of_decodeAt? hd)

/-- The walk from the offset of an instruction on reads all words from there on. -/
theorem flatMap_decodedFrom {n : UInt32} {is : List Instr} {known : Label → UInt32 → Prop}
    (h : Image n is known c) (hsize : c.size = span is)
    (hformed : ∀ {k : Nat} {i : Instr}, is[k]? = some i → i.Formed) (k : Nat) :
    (c.decodedFrom (offsetOf is k)).flatMap Decoded.words =
      c.words.toList.drop (offsetOf is k) := by
  -- on the instructions that are left: one without code leaves the walk where it is
  induction hdrop : is.drop k generalizing k with
  | nil =>
    have hend : offsetOf is k = c.size := by
      rw [offsetOf, List.take_of_length_le (List.drop_eq_nil_iff.1 hdrop), hsize]
    have hnil : c.words.toList.drop c.size = [] := List.drop_of_length_le (Nat.le_refl c.size)
    rw [hend, decodedFrom_of_none c.decodeAt?_size, hnil, List.flatMap_nil]
  | cons i rest ih =>
    obtain ⟨hk, hrest⟩ := drop_eq_cons_iff.1 hdrop
    have hnext := ih (k + 1) hrest
    rw [offsetOf_succ hk] at hnext
    cases hop : i.opcode? with
    | none => rwa [Instr.width_eq_zero hop] at hnext
    | some op =>
      obtain ⟨ws, hdecode, -⟩ := exists_decodeAt? (h k) hsize hk (hformed hk) hop
      rw [Instr.width_of_opcode? hop] at hnext
      rw [decodedFrom_of_some hdecode, List.flatMap_cons, hnext, drop_of_decodeAt? hdecode]

end Code

namespace Program

variable {p q : Program} {m n : UInt32} {c c' : Code}

/-- The walk over lowered code reads all its words. -/
theorem words_of_lower (h : (p.lower n).result = .ok c) :
    c.words.toList = c.decoded.flatMap Decoded.words :=
  (Code.flatMap_decodedFrom (image_of_lower h) (size_of_lower h) (formed_of_lower h) 0).symm

/-- Two lowered codes have the same text iff they have the same words. -/
theorem disassembly_eq_iff (hp : (p.lower n).result = .ok c) (hq : (q.lower m).result = .ok c') :
    c.disassembly = c'.disassembly ↔ c.words = c'.words := by
  refine ⟨fun h => ?_, Code.disassembly_congr⟩
  have hwords := Code.words_of_disassembly h
  rw [← Array.toList_inj, words_of_lower hp, words_of_lower hq, List.flatMap_def, hwords,
    List.flatMap_def]

/-- The negation of a given word, whatever it names. -/
def rawNeg (w : UInt32) : Program :=
  ⟨[.op ⟨1, 1⟩ .neg [.imm w, .output (.fixed ⟨0⟩)]]⟩

/-- Its code. -/
def rawNegCode (w frameSize : UInt32) : Code where
  words := #[14, w, 0]
  locs := Array.replicate 3 ⟨1, 1⟩
  frameSize := frameSize

/-- Words that name no place have texts of their own. The size of the frame is not in the text. -/
theorem disassembly_eq_iff_rawNeg :
    ((rawNeg 0xf0000001).lower 1).result = .ok (rawNegCode 0xf0000001 1) ∧
      ((rawNeg 0xf0000001).lower 2).result = .ok (rawNegCode 0xf0000001 2) ∧
      ((rawNeg 0xf0000010).lower 1).result = .ok (rawNegCode 0xf0000010 1) ∧
      (rawNegCode 0xf0000001 1).disassembly = (rawNegCode 0xf0000001 2).disassembly ∧
      (rawNegCode 0xf0000001 1).disassembly ≠ (rawNegCode 0xf0000010 1).disassembly := by
  have hone : ((rawNeg 0xf0000001).lower 1).result = .ok (rawNegCode 0xf0000001 1) := by decide
  have htwo : ((rawNeg 0xf0000001).lower 2).result = .ok (rawNegCode 0xf0000001 2) := by decide
  have hother : ((rawNeg 0xf0000010).lower 1).result = .ok (rawNegCode 0xf0000010 1) := by decide
  refine ⟨hone, htwo, hother, (disassembly_eq_iff hone htwo).2 rfl, fun h => ?_⟩
  exact absurd ((disassembly_eq_iff hone hother).1 h) (by decide)

end Program

end Assembler
