import Javelet.Proofs.Assembly.Lines

/-!
# Operands read off the text

Some instructions carry an operand: an integer or a text to push, the slot of a variable behind the
first four, or the cells that a call of a method of an interface takes. The reader below finds it by
the first word of the instruction, whatever label stands in front of it, and gets back what was
written. So nothing else in a text is mistaken for an operand, and no operand is overlooked.
-/
namespace Javelet.Assembly

/-! ## Numbers -/

/-- The number that some decimal digits stand for. -/
def readNat? (digits : List Char) : Option Nat :=
  if digits ≠ [] ∧ digits.all Char.isDigit = true then some (Nat.ofDigitChars 10 digits 0) else none

/-- The number that some decimal digits stand for, perhaps behind a minus sign. -/
def readInt? : List Char → Option Int
  | '-' :: digits => (readNat? digits).map fun n => -Int.ofNat n
  | digits => (readNat? digits).map Int.ofNat

theorem isDigit_of_mem_repr {n : Nat} {c : Char} (h : c ∈ n.repr.toList) : c.isDigit = true := by
  rw [Nat.toList_repr] at h
  exact Nat.isDigit_of_mem_toDigits (by decide) (by decide) h

theorem readNat?_repr (n : Nat) : readNat? n.repr.toList = some n := by
  rw [readNat?, if_pos, Nat.toList_repr, Nat.ofDigitChars_ten_toDigits]
  refine ⟨?_, List.all_eq_true.2 fun c hc => isDigit_of_mem_repr hc⟩
  rw [Nat.toList_repr]
  exact Nat.toDigits_ne_nil

theorem readInt?_digits {digits : List Char} (h : ∀ c ∈ digits, c.isDigit = true) :
    readInt? digits = (readNat? digits).map Int.ofNat := by
  fun_cases readInt? digits with
  | case1 digits => cases h '-' List.mem_cons_self
  | case2 => rfl

theorem readInt?_repr (n : Int) : readInt? n.repr.toList = some n := by
  cases n with
  | ofNat n =>
    have hrepr : (Int.ofNat n).repr = n.repr := rfl
    rw [hrepr, readInt?_digits fun c hc => isDigit_of_mem_repr hc, readNat?_repr]
    rfl
  | negSucc n =>
    have hrepr : (Int.negSucc n).repr.toList = '-' :: n.succ.repr.toList := by
      rw [show (Int.negSucc n).repr = "-" ++ n.succ.repr from rfl, String.toList_append]
      rfl
    rw [hrepr, readInt?, readNat?_repr]
    rfl

theorem blank_not_mem_repr (n : Nat) : ' ' ∉ n.repr.toList := by
  intro h
  cases isDigit_of_mem_repr h

theorem blank_not_mem_reprInt (n : Int) : ' ' ∉ n.repr.toList := by
  cases n with
  | ofNat n => exact blank_not_mem_repr n
  | negSucc n =>
    rw [show (Int.negSucc n).repr = "-" ++ n.succ.repr from rfl, String.toList_append,
      List.mem_append, not_or]
    exact ⟨by decide, blank_not_mem_repr n.succ⟩

/-! ## Operands -/

/-- What an instruction with an operand carries: an integer in its name, in a byte or in the pool of
constants, a quoted text, the slot of a variable, or the cells that a call takes. -/
inductive Operand where
  | named (value : Int)
  | byte (value : Int)
  | pooled (value : Int)
  | quoted
  | slot (slot : Nat)
  | cells (count : Nat)
  deriving DecidableEq

/-- The integer that is pushed. -/
def Operand.constant? : Operand → Option Int
  | named value | byte value | pooled value => some value
  | quoted | slot _ | cells _ => none

/-- The instructions that push a constant by their name. -/
def namedWords : List String := (List.range 6).map fun n => "iconst_" ++ n.repr

/-- The instructions on variables with a number behind them. -/
def slotWords : List String := ["iload", "aload", "istore", "astore"]

/-- The instructions with an operand. -/
def operandWords : List String :=
  namedWords ++ ["bipush", "ldc", "invokeinterface"] ++ slotWords

/-- The operand of an instruction, read off its text. -/
def readOperand (text : String) : Option Operand :=
  let word := String.ofList (firstWord text.toList)
  let second := nthWord 1 text.toList
  if word ∈ namedWords then (readInt? (word.toList.drop 7)).map .named
  else if word = "bipush" then (readInt? second).map .byte
  else if word = "ldc" then
    if second.head? = some '"' then some .quoted else (readInt? second).map .pooled
  else if word ∈ slotWords then (readNat? second).map .slot
  else if word = "invokeinterface" then (readNat? (nthWord 5 text.toList)).map .cells
  else none

/-- The operand that an instruction is written with. The first slots are part of the name. -/
def Instruction.operand? : Instruction → Option Operand
  | pushInt value =>
    if 0 ≤ value.toInt ∧ value.toInt ≤ 5 then some (.named value.toInt)
    else if 6 ≤ value.toInt ∧ value.toInt ≤ 255 then some (.byte value.toInt)
    else some (.pooled value.toInt)
  | pushString _ => some .quoted
  | load _ slot | store _ slot => if slot ≤ 3 then none else some (.slot slot)
  | invokeInterface _ _ params _ => some (.cells (callCells params))
  | _ => none

/-- What is known about the operand of a text: its first word is none of those with an operand, or
the operand is read. -/
inductive HasOperand (text : String) : Option Operand → Prop
  | none : String.ofList (firstWord text.toList) ∉ operandWords → HasOperand text none
  | some {o : Operand} : readOperand text = some o → HasOperand text (some o)

section Reading

variable {rest text word : String} {n : Nat}

/-- An instruction that carries no operand is recognized, whatever stands behind its name. -/
theorem hasOperand_of_opening (opening : String)
    (h : (opening.toList.dropWhile (· != ' ')).head? = some ' ' ∧
      String.ofList (firstWord opening.toList) ∉ operandWords)
    (htext : text = opening ++ rest) : HasOperand text none := by
  have hword : firstWord text.toList = firstWord opening.toList := by
    rw [htext, String.toList_append]
    exact (takeWhile_append_of_head? h.1 rest.toList).1
  exact .none (hword ▸ h.2)

/-- A text of two words. -/
theorem words_append (hblank : ' ' ∉ word.toList) (hrest : ' ' ∉ rest.toList) :
    firstWord (word ++ " " ++ rest).toList = word.toList ∧
      nthWord 1 (word ++ " " ++ rest).toList = rest.toList := by
  have htext : (word ++ " " ++ rest).toList = word.toList ++ ' ' :: rest.toList := by
    simp
  rw [htext]
  exact ⟨firstWord_append hblank, (nthWord_succ_append hblank 0).trans (firstWord_self hrest)⟩

theorem head?_reprInt_ne_quote (value : Int) : value.repr.toList.head? ≠ some '"' := by
  cases value with
  | ofNat n =>
    intro h
    cases isDigit_of_mem_repr (List.mem_of_head? h)
  | negSucc n =>
    rw [show (Int.negSucc n).repr = "-" ++ n.succ.repr from rfl, String.toList_append]
    exact fun h => absurd (Option.some.inj h) (by decide)

theorem hasOperand_pushInt (value : Int32) :
    HasOperand (pushIntText value) (Instruction.pushInt value).operand? := by
  unfold pushIntText Instruction.operand?
  simp only
  split
  · rename_i hsmall
    have hcases : ∀ n ∈ List.range 6,
        readOperand ("iconst_" ++ (Int.ofNat n).repr) = some (.named (Int.ofNat n)) := by
      decide
    obtain ⟨n, hn⟩ := Int.eq_ofNat_of_zero_le hsmall.1
    rw [hn] at hsmall ⊢
    exact .some (hcases n (List.mem_range.2 (by omega)))
  · split
    · have hword : ' ' ∉ "bipush".toList ∧ "bipush" ∉ namedWords := by decide
      have hopening : "bipush" ++ " " = "bipush " := by decide
      obtain ⟨hfirst, hsecond⟩ := words_append hword.1 (blank_not_mem_reprInt value.toInt)
      rw [hopening] at hfirst hsecond
      refine .some ?_
      simp only [readOperand, hfirst, hsecond, String.ofList_toList, readInt?_repr]
      rw [if_neg hword.2, if_pos trivial]
      rfl
    · have hword : ' ' ∉ "ldc".toList ∧ "ldc" ∉ namedWords ∧ "ldc" ≠ "bipush" := by decide
      have hopening : "ldc" ++ " " = "ldc " := by decide
      obtain ⟨hfirst, hsecond⟩ := words_append hword.1 (blank_not_mem_reprInt value.toInt)
      rw [hopening] at hfirst hsecond
      refine .some ?_
      simp only [readOperand, hfirst, hsecond, String.ofList_toList, readInt?_repr]
      rw [if_neg hword.2.1, if_neg hword.2.2, if_pos trivial, if_neg (head?_reprInt_ne_quote _)]
      rfl

theorem hasOperand_pushString (value : String) :
    HasOperand ("ldc " ++ quote value) (some .quoted) := by
  have htext : ("ldc " ++ quote value).toList = "ldc".toList ++ ' ' :: (quote value).toList := by
    simp
  have hblank : ' ' ∉ "ldc".toList := by decide
  have hsecond : (nthWord 1 ("ldc " ++ quote value).toList).head? = some '"' := by
    rw [htext, nthWord_succ_append hblank, nthWord, firstWord, quote, String.toList_ofList,
      List.cons_append, List.takeWhile_cons_of_pos (by decide)]
    rfl
  refine .some ?_
  simp only [readOperand, hsecond]
  rw [htext, firstWord_append hblank]
  rfl

theorem hasOperand_slot {cell : Cell} {action : String} (haction : action ∈ ["load", "store"])
    (slot : Nat) : HasOperand (slotText cell action slot)
      (if slot ≤ 3 then none else some (.slot slot)) := by
  have hword : ' ' ∉ (cell.letter ++ action).toList ∧ cell.letter ++ action ∉ namedWords ∧
      cell.letter ++ action ≠ "bipush" ∧ cell.letter ++ action ≠ "ldc" ∧
      cell.letter ++ action ∈ slotWords := by
    simp only [List.mem_cons, List.not_mem_nil, or_false] at haction
    rcases haction with rfl | rfl <;> cases cell <;> decide
  unfold slotText
  split
  · rename_i hfew
    have hcases : ∀ n ∈ List.range 4, ∀ action ∈ ["load", "store"], String.ofList
        (firstWord (cell.letter ++ action ++ "_" ++ n.repr).toList) ∉ operandWords := by
      cases cell <;> decide
    exact .none (hcases slot (List.mem_range.2 (by omega)) action haction)
  · obtain ⟨hfirst, hsecond⟩ := words_append hword.1 (blank_not_mem_repr slot)
    refine .some ?_
    simp only [readOperand, hfirst, hsecond, String.ofList_toList, readNat?_repr]
    obtain ⟨-, hnamed, hbyte, hpooled, hslot⟩ := hword
    rw [if_neg hnamed, if_neg hbyte, if_neg hpooled, if_pos hslot]
    rfl

theorem hasOperand_invokeInterface {owner name : String} {params : List Ty} {returns : Ty}
    (ho : PlainName owner) (hn : PlainName name) (hp : ∀ t ∈ params, t.IsValue)
    (hr : returns.IsResult) : HasOperand ("invokeinterface InterfaceMethod " ++
      methodText owner name params returns ++ " " ++ n.repr) (some (.cells n)) := by
  have htext : ("invokeinterface InterfaceMethod " ++ methodText owner name params returns ++ " " ++
      n.repr).toList = "invokeinterface".toList ++ ' ' :: ("InterfaceMethod".toList ++ ' ' ::
        (owner.toList ++ ' ' :: (name.toList ++ ' ' ::
          ((methodDescriptor params returns).toList ++ ' ' :: n.repr.toList)))) := by
    simp [methodText]
  have hmnemonic : ' ' ∉ "invokeinterface".toList := by decide
  have hcount : nthWord 5 ("invokeinterface InterfaceMethod " ++
      methodText owner name params returns ++ " " ++ n.repr).toList = n.repr.toList := by
    rw [htext, nthWord_succ_append hmnemonic, nthWord_succ_append (by decide),
      nthWord_succ_append (blank_not_mem_name ho), nthWord_succ_append (blank_not_mem_name hn),
      nthWord_succ_append (blank_not_mem_methodDescriptor hp hr), nthWord,
      firstWord_self (blank_not_mem_repr n)]
  refine .some ?_
  simp only [readOperand, hcount, readNat?_repr]
  rw [htext, firstWord_append hmnemonic, String.ofList_toList]
  rfl

end Reading

/-- The operand of an instruction is read back from its text. -/
theorem hasOperand_text {i : Instruction} (h : i.Legible) : HasOperand i.text i.operand? := by
  cases i with
  | pushInt value => exact hasOperand_pushInt value
  | pushString value => exact hasOperand_pushString value
  | load cell slot => exact hasOperand_slot (by decide) slot
  | store cell slot => exact hasOperand_slot (by decide) slot
  | arithmetic op => cases op <;> exact .none (by decide)
  | jumpInts relation target =>
    exact hasOperand_of_opening ("if_icmp" ++ relationText relation ++ " ")
      (by cases relation <;> decide) rfl
  | jumpReferences same target =>
    cases same with
    | true => exact hasOperand_of_opening "if_acmpeq " (by decide) rfl
    | false => exact hasOperand_of_opening "if_acmpne " (by decide) rfl
  | jumpZero target => exact hasOperand_of_opening "ifeq " (by decide) rfl
  | jumpNonzero target => exact hasOperand_of_opening "ifne " (by decide) rfl
  | goto target => exact hasOperand_of_opening "goto " (by decide) rfl
  | new className => exact hasOperand_of_opening "new " (by decide) rfl
  | newArray element className =>
    cases element with
    | reference => exact hasOperand_of_opening "anewarray " (by decide) rfl
    | int | char | boolean => exact hasOperand_of_opening "newarray " (by decide) rfl
  | arrayLoad element | arrayStore element => cases element <;> exact .none (by decide)
  | getField owner name ty => exact hasOperand_of_opening "getfield " (by decide) rfl
  | putField owner name ty => exact hasOperand_of_opening "putfield " (by decide) rfl
  | print line value =>
    have htext : "invokevirtual Method " ++ printStreamClass ++
        (if line then " println (" else " print (") ++ value.elim "" printDescriptor ++ ")V" =
        "invokevirtual Method " ++ (printStreamClass ++
          (if line then " println (" else " print (") ++ value.elim "" printDescriptor ++ ")V") := by
      rw [String.append_assoc, String.append_assoc, String.append_assoc, String.append_assoc,
        String.append_assoc]
    have hnone := hasOperand_of_opening "invokevirtual Method " (by decide) htext
    exact hnone
  | invokeConstructor owner params =>
    exact hasOperand_of_opening "invokespecial Method " (by decide) rfl
  | invokeVirtual owner name params returns =>
    exact hasOperand_of_opening "invokevirtual Method " (by decide) rfl
  | invokeInterface owner name params returns =>
    exact hasOperand_invokeInterface h.1 h.2.1 h.2.2.1 h.2.2.2
  | getPrintStream | pushNull | pop | dup | dup2 | arrayLength | returnVoid | returnInt
  | returnReference => exact .none (by decide)

/-! ## Lines -/

/-- What stands behind the label of a line of code, if there is one. -/
def behindLabel (line : String) : String :=
  if '\t' ∈ line.toList then String.ofList ((line.toList.dropWhile (· != '\t')).drop 1) else line

theorem behindLabel_of_lacks {text : String} (h : Lacks controls text) : behindLabel text = text :=
  if_neg (h '\t' List.mem_cons_self)

theorem behindLabel_labelled (l : Label) (text : String) :
    behindLabel (labelText l ++ ":\t" ++ text) = text := by
  have htext : (labelText l ++ ":\t" ++ text).toList =
      ((labelText l).toList ++ [':']) ++ '\t' :: text.toList := by simp
  have hlabel : ∀ c ∈ (labelText l).toList ++ [':'], (c != '\t') = true := by
    intro c hc
    rw [bne_iff_ne]
    rintro rfl
    rcases List.mem_append.1 hc with hc | hc
    · exact lacks_labelText l '\t' List.mem_cons_self hc
    · exact absurd hc (by decide)
  rw [behindLabel, htext, if_pos (List.mem_append_right _ List.mem_cons_self),
    List.dropWhile_append_of_pos hlabel]
  simp

/-- The name of the instruction on a line of code. -/
def instructionWord (line : String) : String :=
  String.ofList (firstWord (behindLabel line).toList)

/-- A label alone is no instruction with an operand. -/
theorem instructionWord_label (l : Label) :
    instructionWord (labelText l ++ ":") ∉ operandWords := by
  have hblank : ' ' ∉ (labelText l ++ ":").toList := by
    have hlabel : (labelText l ++ ":").toList = 'L' :: (l.repr.toList ++ [':']) := by
      simp [labelText]
    rw [hlabel, List.mem_cons, List.mem_append, not_or, not_or]
    exact ⟨by decide, blank_not_mem_repr l, by decide⟩
  rw [instructionWord, behindLabel_of_lacks (lacks_append.2 ⟨lacks_labelText l, by decide⟩),
    firstWord_self hblank, String.ofList_toList]
  intro hmem
  have hwords : ∀ word ∈ operandWords, word.toList.head? ≠ some 'L' := by decide
  exact hwords _ hmem (by simp [labelText])

/-- Behind its label, a line is the text of its instruction. -/
theorem behindLabel_line {line : Line Instruction} {i : Instruction} (hi : .op i ∈ line.items)
    (h : i.Legible) : behindLabel line.text = i.text := by
  cases line with
  | op label j =>
    cases label with
    | none =>
      cases List.mem_singleton.1 hi
      exact behindLabel_of_lacks (lacks_text h)
    | some l =>
      rcases List.mem_cons.1 hi with heq | hi
      · cases heq
      · cases List.mem_singleton.1 hi
        exact behindLabel_labelled l i.text
  | label l => cases List.mem_singleton.1 hi

/-- The operand of an instruction is read off its line. -/
theorem readOperand_line {line : Line Instruction} {i : Instruction} {o : Operand}
    (hi : .op i ∈ line.items) (h : i.Legible) (ho : i.operand? = some o) :
    readOperand (behindLabel line.text) = some o := by
  have hread := hasOperand_text h
  rw [ho] at hread
  rw [behindLabel_line hi h]
  obtain ⟨⟩ | hread := hread
  exact hread

/-- A line with the name of an instruction with an operand holds such an instruction. -/
theorem exists_operand_of_line {line : Line Instruction} (h : ∀ i, .op i ∈ line.items → i.Legible)
    (hword : instructionWord line.text ∈ operandWords) :
    ∃ i o, .op i ∈ line.items ∧ i.operand? = some o := by
  cases line with
  | op label i =>
    have hi : .op i ∈ (Line.op label i).items := by cases label <;> simp [Line.items]
    have hread := hasOperand_text (h i hi)
    rw [instructionWord, behindLabel_line hi (h i hi)] at hword
    cases ho : i.operand? with
    | none =>
      rw [ho] at hread
      obtain ⟨hnone⟩ := hread
      exact absurd hword hnone
    | some o => exact ⟨i, o, hi, ho⟩
  | label l => exact absurd hword (instructionWord_label l)

end Javelet.Assembly
