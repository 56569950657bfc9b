import Javelet.Assembly.Instruction
import Javelet.Proofs.Syntax.Names

/-!
# Effects read off the text

What an instruction does to the operand stack can be read off its text: off the first word, and
for fields and calls off the descriptor, which is the fifth word. The reader below knows the
instructions and descriptors of the virtual machine, also the types of two cells that no code
here uses. It gives nothing for a text it cannot read.

The texts of instructions are read back with the effect they are counted with, if the names in
them hold no character that separates words or ends a class name.
-/
namespace Javelet.Assembly

/-! ## Words -/

/-- The first word of a text. -/
def firstWord (text : List Char) : List Char := text.takeWhile (· != ' ')

/-- The text behind the first word. -/
def afterWord (text : List Char) : List Char := (text.dropWhile (· != ' ')).drop 1

/-- The word of a number; the first one has number zero. -/
def nthWord : Nat → List Char → List Char
  | 0, text => firstWord text
  | n + 1, text => nthWord n (afterWord text)

section Words

variable {word text : List Char}

theorem ne_blank_of_mem (h : ' ' ∉ word) : ∀ c ∈ word, (c != ' ') = true := by
  intro c hc
  rw [bne_iff_ne]
  rintro rfl
  exact h hc

theorem firstWord_append (h : ' ' ∉ word) : firstWord (word ++ ' ' :: text) = word := by
  rw [firstWord, List.takeWhile_append_of_pos (ne_blank_of_mem h)]
  simp

theorem afterWord_append (h : ' ' ∉ word) : afterWord (word ++ ' ' :: text) = text := by
  rw [afterWord, List.dropWhile_append_of_pos (ne_blank_of_mem h)]
  simp

theorem firstWord_self (h : ' ' ∉ word) : firstWord word = word := by
  have hself : (word ++ []).takeWhile (· != ' ') = word ++ [] :=
    List.takeWhile_append_of_pos (ne_blank_of_mem h)
  simpa [firstWord] using hself

theorem nthWord_succ_append (h : ' ' ∉ word) (n : Nat) :
    nthWord (n + 1) (word ++ ' ' :: text) = nthWord n text := by
  rw [nthWord, afterWord_append h]

end Words

/-! ## Descriptors -/

/-- The letters of primitive types of one cell. -/
def narrowLetters : List Char := ['B', 'C', 'F', 'I', 'S', 'Z']

/-- The letters of primitive types of two cells. -/
def wideLetters : List Char := ['D', 'J']

/-- The cells of a value, by the descriptor of its type. -/
def valueCells : List Char → Option Nat
  | [] => none
  | c :: _ =>
    if c ∈ wideLetters then some 2
    else if c ∈ narrowLetters ∨ c = 'L' ∨ c = '[' then some 1
    else none

/-- The cells of a result, by its descriptor. -/
def resultCells (descriptor : List Char) : Option Nat :=
  if descriptor = ['V'] then some 0 else valueCells descriptor

/-- Where a reader of parameters is: before a parameter or the end, behind a bracket, or inside
the name of a class. -/
inductive Reading where
  | between | array | className
  deriving DecidableEq

/-- The cells of the parameters up to the closing parenthesis, and what stands behind it. -/
def paramCells : Reading → List Char → Option (Nat × List Char)
  | _, [] => none
  | .className, c :: rest =>
    if c = ';' then (paramCells .between rest).map fun r => (r.1 + 1, r.2)
    else paramCells .className rest
  | reading, c :: rest =>
    if c = ')' then if reading = .between then some (0, rest) else none
    else if c = '[' then paramCells .array rest
    else if c = 'L' then paramCells .className rest
    else if c ∈ narrowLetters ∨ c ∈ wideLetters ∧ reading = .array then
      (paramCells .between rest).map fun r => (r.1 + 1, r.2)
    else if c ∈ wideLetters then (paramCells .between rest).map fun r => (r.1 + 2, r.2)
    else none

/-- The cells that a call takes, the receiver included, and the cells of its result. -/
def callEffect : List Char → Option (Nat × Nat)
  | '(' :: rest =>
    (paramCells .between rest).bind fun r => (resultCells r.2).map fun n => (r.1 + 1, n)
  | _ => none

/-! ## Instructions -/

/-- The instructions whose effect is fixed, with the cells they take and put. -/
def fixedEffects : List (String × Nat × Nat) :=
  [("ldc", 0, 1), ("bipush", 0, 1), ("iload", 0, 1), ("aload", 0, 1), ("istore", 1, 0),
   ("astore", 1, 0), ("goto", 0, 0), ("ifeq", 1, 0), ("ifne", 1, 0), ("new", 0, 1),
   ("newarray", 1, 1), ("anewarray", 1, 1), ("arraylength", 1, 1), ("iadd", 2, 1),
   ("isub", 2, 1), ("imul", 2, 1), ("idiv", 2, 1), ("irem", 2, 1), ("pop", 1, 0), ("dup", 1, 2),
   ("dup2", 2, 4), ("iaload", 2, 1), ("caload", 2, 1), ("baload", 2, 1), ("aaload", 2, 1),
   ("iastore", 3, 0), ("castore", 3, 0), ("bastore", 3, 0), ("aastore", 3, 0),
   ("return", 0, 0), ("ireturn", 1, 0), ("areturn", 1, 0)]

/-- Families of instructions of one effect: what stands in their names before an underscore. -/
def familyEffects : List (String × Nat × Nat) :=
  [("iconst", 0, 1), ("aconst", 0, 1), ("iload", 0, 1), ("aload", 0, 1), ("istore", 1, 0),
   ("astore", 1, 0), ("if", 2, 0)]

/-- The effect of an instruction on a member, by its first word and the descriptor. -/
def memberEffect (mnemonic : String) (descriptor : List Char) : Option (Nat × Nat) :=
  if mnemonic = "getfield" then (valueCells descriptor).map fun n => (1, n)
  else if mnemonic = "putfield" then (valueCells descriptor).map fun n => (n + 1, 0)
  else if mnemonic = "getstatic" then (valueCells descriptor).map fun n => (0, n)
  else if mnemonic ∈ ["invokevirtual", "invokespecial", "invokeinterface"] then
    callEffect descriptor
  else none

/-- Whether a character goes on with the name of an instruction or of a family. -/
def inStem (c : Char) : Bool := c != ' ' && c != '_'

/-- The effect of an instruction on the operand stack, read off its text: the cells it takes and
the cells it puts. -/
def readEffect (text : String) : Option (Nat × Nat) :=
  let stem := String.ofList (text.toList.takeWhile inStem)
  if (text.toList.dropWhile inStem).head? = some '_' then familyEffects.lookup stem
  else (fixedEffects.lookup stem).or (memberEffect stem (nthWord 4 text.toList))

example : readEffect "invokevirtual Method A f (IJ[D[LB;LB;)Z" = some (7, 1) := by decide

example : readEffect "putfield Field A x D" = some (3, 0) := by decide

/-! ## Reading back -/

section Descriptors

variable {name : String} {ty : Ty} {rest : List Char}

theorem plainName_internalName (h : PlainName name) : PlainName (internalName name) := by
  unfold internalName
  split
  · exact ⟨by decide, by decide⟩
  · exact h

theorem paramCells_className {cs : List Char} (h : ';' ∉ cs) :
    paramCells .className (cs ++ ';' :: rest) =
      (paramCells .between rest).map fun r => (r.1 + 1, r.2) := by
  induction cs with
  | nil => simp [paramCells]
  | cons c cs ih =>
    rw [List.mem_cons, not_or] at h
    rw [List.cons_append, paramCells, if_neg (Ne.symm h.1), ih h.2]

/-- A class is read up to the end of its name, as a parameter or as an element. -/
theorem paramCells_class (h : PlainName name) {reading : Reading} (hr : reading ≠ .className) :
    paramCells reading ((classDescriptor name).toList ++ rest) =
      (paramCells .between rest).map fun r => (r.1 + 1, r.2) := by
  have hname : ';' ∉ name.toList := h.not_mem (by decide)
  have htext : (classDescriptor name).toList ++ rest = 'L' :: (name.toList ++ ';' :: rest) := by
    simp [classDescriptor]
  rw [htext, ← paramCells_className hname]
  cases reading with
  | between => simp [paramCells]
  | array => simp [paramCells]
  | className => exact (hr rfl).elim

theorem paramCells_plain (h : ValueName name) (rest : List Char) {reading : Reading}
    (hr : reading ≠ .className) :
    paramCells reading ((plainDescriptor name).toList ++ rest) =
      (paramCells .between rest).map fun r => (r.1 + 1, r.2) := by
  unfold plainDescriptor
  rw [if_neg h.ne_void]
  split
  · cases reading <;> simp_all [paramCells, narrowLetters]
  · split
    · cases reading <;> simp_all [paramCells, narrowLetters]
    · split
      · cases reading <;> simp_all [paramCells, narrowLetters]
      · exact paramCells_class (plainName_internalName h.toPlainName) hr

theorem paramCells_descriptor (h : ty.IsValue) (rest : List Char) :
    paramCells .between ((descriptor ty).toList ++ rest) =
      (paramCells .between rest).map fun r => (r.1 + 1, r.2) := by
  unfold descriptor
  split
  · have helement := paramCells_plain h rest (show Reading.array ≠ .className from nofun)
    rw [← helement]
    simp [paramCells]
  · exact paramCells_plain h rest nofun

theorem valueCells_descriptor (h : ty.IsValue) : valueCells (descriptor ty).toList = some 1 := by
  unfold descriptor
  split
  · simp [valueCells, wideLetters]
  · unfold plainDescriptor
    rw [if_neg h.ne_void]
    split
    · decide
    · split
      · decide
      · split
        · decide
        · simp [classDescriptor, valueCells, wideLetters]

theorem resultCells_descriptor (h : ty.IsResult) :
    resultCells (descriptor ty).toList = some (if ty.isVoid then 0 else 1) := by
  rcases h with rfl | h
  · decide
  · have hcells := valueCells_descriptor h
    have hne : (descriptor ty).toList ≠ ['V'] := by
      intro he
      rw [he] at hcells
      revert hcells
      decide
    rw [resultCells, if_neg hne, hcells, h.isVoid]
    rfl

theorem paramCells_params {params : List Ty} (h : ∀ t ∈ params, t.IsValue) :
    paramCells .between ((String.join (params.map descriptor)).toList ++ ')' :: rest) =
      some (params.length, rest) := by
  induction params with
  | nil => simp [paramCells]
  | cons t params ih =>
    have hrest := ih fun t ht => h t (List.mem_cons_of_mem _ ht)
    rw [List.map_cons, String.join_cons, String.toList_append, List.append_assoc,
      paramCells_descriptor (h t (List.mem_cons_self ..)), hrest]
    rfl

theorem callEffect_methodDescriptor {params : List Ty} {returns : Ty}
    (hp : ∀ t ∈ params, t.IsValue) (hr : returns.IsResult) :
    callEffect (methodDescriptor params returns).toList =
      some (params.length + 1, if returns.isVoid then 0 else 1) := by
  have htext : (methodDescriptor params returns).toList =
      '(' :: ((String.join (params.map descriptor)).toList ++
        ')' :: (descriptor returns).toList) := by
    simp [methodDescriptor]
  rw [htext, callEffect, paramCells_params hp, Option.bind_some, resultCells_descriptor hr]
  rfl

theorem blank_not_mem_name (h : PlainName name) : ' ' ∉ name.toList := h.not_mem (by decide)

/-- A character that ends names stands in no descriptor, unless it is one of those that mark classes
and arrays there. -/
theorem not_mem_descriptor {c : Char} (hc : separators.contains c = true) (hmark : c ∉ [';', '['])
    (h : ty.IsResult) : c ∉ (descriptor ty).toList := by
  rw [List.mem_cons, List.mem_singleton, not_or] at hmark
  have hword : ∀ {word : String}, PlainName word → c ∉ word.toList := fun hplain => hplain.not_mem hc
  have hplain : c ∉ (plainDescriptor ty.name).toList := by
    unfold plainDescriptor
    split
    · exact hword ⟨by decide, by decide⟩
    · rename_i hne
      have hname : PlainName ty.name := by
        rcases h with rfl | h
        · exact (hne rfl).elim
        · exact h.toPlainName
      have hletter : c ∉ "L".toList := hword ⟨by decide, by decide⟩
      have hinternal := hword (plainName_internalName hname)
      split
      · exact hword ⟨by decide, by decide⟩
      · split
        · exact hword ⟨by decide, by decide⟩
        · split
          · exact hword ⟨by decide, by decide⟩
          · simpa [classDescriptor, hinternal, hmark.1] using hletter
  unfold descriptor
  split
  · simp [hplain, hmark.2]
  · exact hplain

theorem not_mem_methodDescriptor {c : Char} (hc : separators.contains c = true)
    (hmark : c ∉ [';', '[', '(', ')']) {params : List Ty} {returns : Ty}
    (hp : ∀ t ∈ params, t.IsValue) (hr : returns.IsResult) :
    c ∉ (methodDescriptor params returns).toList := by
  simp only [List.mem_cons, List.not_mem_nil, or_false, not_or] at hmark
  have htype : ∀ {t : Ty}, t.IsResult → c ∉ (descriptor t).toList :=
    fun ht => not_mem_descriptor hc (by simp [hmark.1, hmark.2.1]) ht
  have hparams : ∀ t ∈ params, c ∉ (descriptor t).toList := fun t ht => htype (.inr (hp t ht))
  simpa [methodDescriptor, htype hr, hmark.2.2.1, hmark.2.2.2] using hparams

theorem blank_not_mem_descriptor (h : ty.IsResult) : ' ' ∉ (descriptor ty).toList :=
  not_mem_descriptor (by decide) (by decide) h

theorem blank_not_mem_methodDescriptor {params : List Ty} {returns : Ty}
    (hp : ∀ t ∈ params, t.IsValue) (hr : returns.IsResult) :
    ' ' ∉ (methodDescriptor params returns).toList :=
  not_mem_methodDescriptor (by decide) (by decide) hp hr

end Descriptors

/-- The names and types in an instruction can be told apart in its text. -/
def Instruction.Legible : Instruction → Prop
  | new className | newArray _ className => PlainName className
  | getField owner name type | putField owner name type =>
    PlainName owner ∧ PlainName name ∧ type.IsValue
  | invokeConstructor owner params => PlainName owner ∧ ∀ t ∈ params, t.IsValue
  | invokeVirtual owner name params returns | invokeInterface owner name params returns =>
    PlainName owner ∧ PlainName name ∧ (∀ t ∈ params, t.IsValue) ∧ returns.IsResult
  | _ => True

section Texts

variable {text opening m k owner name : String} {e : Nat × Nat} {desc rest : List Char}

/-- The effect of an instruction that goes on behind its name, if that is fixed. -/
def openingEffect (opening : String) : Option (Nat × Nat) :=
  let stem := String.ofList (opening.toList.takeWhile inStem)
  (opening.toList.dropWhile inStem).head?.bind fun c =>
    if c = '_' then familyEffects.lookup stem else fixedEffects.lookup stem

theorem takeWhile_append_of_head? {p : Char → Bool} {cs : List Char} {c : Char}
    (h : (cs.dropWhile p).head? = some c) (more : List Char) :
    (cs ++ more).takeWhile p = cs.takeWhile p ∧
      ((cs ++ more).dropWhile p).head? = some c := by
  induction cs with
  | nil => cases h
  | cons d cs ih =>
    rw [List.cons_append]
    by_cases hd : p d
    · rw [List.dropWhile_cons_of_pos hd] at h ⊢
      rw [List.takeWhile_cons_of_pos hd, List.takeWhile_cons_of_pos hd, (ih h).1]
      exact ⟨rfl, (ih h).2⟩
    · rw [List.dropWhile_cons_of_neg hd] at h ⊢
      rw [List.takeWhile_cons_of_neg hd, List.takeWhile_cons_of_neg hd]
      exact ⟨rfl, h⟩

/-- Such an instruction is recognized whatever its operands are. -/
theorem readEffect_append (h : openingEffect opening = some e) (operands : String) :
    readEffect (opening ++ operands) = some e := by
  obtain ⟨c, hc, he⟩ := Option.bind_eq_some_iff.1 h
  obtain ⟨htake, hdrop⟩ := takeWhile_append_of_head? hc operands.toList
  simp only [readEffect, String.toList_append, htake, hdrop, Option.some.injEq]
  split at he
  · rename_i heq
    rw [if_pos heq, he]
  · rename_i hne
    rw [if_neg hne, he, Option.some_or]

/-- An instruction on a member is read by its first word and its descriptor, whatever stands
behind that. -/
theorem readEffect_of_member (hm : m.toList.all inStem = true) (hk : ' ' ∉ k.toList)
    (ho : PlainName owner) (hn : ' ' ∉ name.toList) (hd : ' ' ∉ desc)
    (hnone : fixedEffects.lookup m = none) (hrest : rest = [] ∨ ∃ more, rest = ' ' :: more)
    (htext : text.toList = m.toList ++ ' ' :: (k.toList ++ ' ' :: (owner.toList ++ ' ' ::
      (name.toList ++ ' ' :: (desc ++ rest))))) :
    readEffect text = memberEffect m desc := by
  have hblank : ' ' ∉ m.toList := by
    intro hc
    cases List.all_eq_true.1 hm _ hc
  have hdesc : nthWord 4 text.toList = desc := by
    rw [htext, nthWord_succ_append hblank, nthWord_succ_append hk,
      nthWord_succ_append (blank_not_mem_name ho), nthWord_succ_append hn, nthWord]
    rcases hrest with rfl | ⟨more, rfl⟩
    · rw [List.append_nil, firstWord_self hd]
    · exact firstWord_append hd
  have htake : text.toList.takeWhile inStem = m.toList := by
    rw [htext, List.takeWhile_append_of_pos (List.all_eq_true.1 hm)]
    simp [inStem]
  have hdrop : (text.toList.dropWhile inStem).head? ≠ some '_' := by
    rw [htext, List.dropWhile_append_of_pos (List.all_eq_true.1 hm)]
    simp [inStem]
  simp only [readEffect, htake, if_neg hdrop, String.ofList_toList, hnone, Option.none_or, hdesc]

/-- The instructions on members, without those on the print stream. -/
def memberWords : List String :=
  ["getfield", "putfield", "invokevirtual", "invokespecial", "invokeinterface"]

theorem memberWords_apart : memberWords.all fun m =>
    m.toList.all inStem && (fixedEffects.lookup m).isNone := by decide +kernel

theorem readEffect_field {ty : Ty} (hm : m ∈ memberWords) (hopening : opening = m ++ " ")
    (ho : PlainName owner) (hn : PlainName name) (ht : ty.IsValue) :
    readEffect (opening ++ fieldText owner name ty) = memberEffect m (descriptor ty).toList := by
  have hapart := List.all_eq_true.1 memberWords_apart m hm
  rw [Bool.and_eq_true, Option.isNone_iff_eq_none] at hapart
  have htext : (opening ++ fieldText owner name ty).toList = m.toList ++ ' ' ::
      ("Field".toList ++ ' ' :: (owner.toList ++ ' ' :: (name.toList ++ ' ' ::
        ((descriptor ty).toList ++ [])))) := by
    simp [hopening, fieldText]
  exact readEffect_of_member hapart.1 (by decide) ho (blank_not_mem_name hn)
    (blank_not_mem_descriptor (.inr ht)) hapart.2 (.inl rfl) htext

theorem readEffect_getField {ty : Ty} (ho : PlainName owner) (hn : PlainName name)
    (ht : ty.IsValue) : readEffect ("getfield " ++ fieldText owner name ty) = some (1, 1) := by
  rw [readEffect_field (m := "getfield") (by simp [memberWords])
    (show "getfield " = _ by simp) ho hn ht, memberEffect, if_pos rfl, valueCells_descriptor ht]
  rfl

theorem readEffect_putField {ty : Ty} (ho : PlainName owner) (hn : PlainName name)
    (ht : ty.IsValue) : readEffect ("putfield " ++ fieldText owner name ty) = some (2, 0) := by
  rw [readEffect_field (m := "putfield") (by simp [memberWords])
    (show "putfield " = _ by simp) ho hn ht, memberEffect, if_neg (by simp), if_pos rfl,
    valueCells_descriptor ht]
  rfl

theorem memberEffect_call (desc : List Char)
    (hm : m ∈ ["invokevirtual", "invokespecial", "invokeinterface"]) :
    m ∈ memberWords ∧ memberEffect m desc = callEffect desc := by
  have hne : m ∈ memberWords ∧ m ≠ "getfield" ∧ m ≠ "putfield" ∧ m ≠ "getstatic" := by
    simp only [List.mem_cons, List.not_mem_nil, or_false] at hm
    rcases hm with rfl | rfl | rfl <;> simp [memberWords]
  refine ⟨hne.1, ?_⟩
  rw [memberEffect, if_neg hne.2.1, if_neg hne.2.2.1, if_neg hne.2.2.2, if_pos hm]

/-- A call is read by its descriptor, also if a number of words stands behind that. -/
theorem readEffect_call (hm : m ∈ ["invokevirtual", "invokespecial", "invokeinterface"])
    (hk : ' ' ∉ k.toList) (ho : PlainName owner) (hn : ' ' ∉ name.toList) (hd : ' ' ∉ desc)
    (hrest : rest = [] ∨ ∃ more, rest = ' ' :: more)
    (htext : text.toList = m.toList ++ ' ' :: (k.toList ++ ' ' :: (owner.toList ++ ' ' ::
      (name.toList ++ ' ' :: (desc ++ rest))))) :
    readEffect text = callEffect desc := by
  obtain ⟨hword, heffect⟩ := memberEffect_call desc hm
  have hapart := List.all_eq_true.1 memberWords_apart m hword
  rw [Bool.and_eq_true, Option.isNone_iff_eq_none] at hapart
  rw [readEffect_of_member hapart.1 hk ho hn hd hapart.2 hrest htext, heffect]

theorem readEffect_slot {cell : Cell} {action : String} {slot : Nat}
    (hfixed : openingEffect (cell.letter ++ action ++ " ") = some e)
    (hfamily : openingEffect (cell.letter ++ action ++ "_") = some e) :
    readEffect (slotText cell action slot) = some e := by
  unfold slotText
  split
  · exact readEffect_append hfamily _
  · exact readEffect_append hfixed _

theorem readEffect_pushInt (value : Int32) : readEffect (pushIntText value) = some (0, 1) := by
  unfold pushIntText
  simp only
  split
  · exact readEffect_append (by decide) _
  · split
    · exact readEffect_append (by decide) _
    · exact readEffect_append (by decide) _

theorem readEffect_methodText {params : List Ty} {returns : Ty} {r : String}
    (hm : m ∈ ["invokevirtual", "invokespecial", "invokeinterface"]) (hk : ' ' ∉ k.toList)
    (hopening : opening = m ++ " " ++ k ++ " ") (ho : PlainName owner) (hn : ' ' ∉ name.toList)
    (hp : ∀ t ∈ params, t.IsValue) (hr : returns.IsResult)
    (hrest : r.toList = [] ∨ ∃ more, r.toList = ' ' :: more) :
    readEffect (opening ++ methodText owner name params returns ++ r) =
      some (params.length + 1, if returns.isVoid then 0 else 1) := by
  have htext : (opening ++ methodText owner name params returns ++ r).toList =
      m.toList ++ ' ' :: (k.toList ++ ' ' :: (owner.toList ++ ' ' :: (name.toList ++ ' ' ::
        ((methodDescriptor params returns).toList ++ r.toList)))) := by
    simp [methodText, hopening]
  rw [readEffect_call hm hk ho hn (blank_not_mem_methodDescriptor hp hr) hrest htext,
    callEffect_methodDescriptor hp hr]

theorem readEffect_invokeConstructor {params : List Ty} (ho : PlainName owner)
    (hp : ∀ t ∈ params, t.IsValue) :
    readEffect ("invokespecial Method " ++ methodText owner "<init>" params .void) =
      some (params.length + 1, 0) := by
  have hinit : ' ' ∉ "<init>".toList := by decide
  have hread := readEffect_methodText (m := "invokespecial") (k := "Method") (r := "") (by simp)
    (by decide) (show "invokespecial Method " = _ by simp) ho hinit hp (.inl rfl) (.inl rfl)
  rw [String.append_empty] at hread
  exact hread

theorem readEffect_invokeVirtual {params : List Ty} {returns : Ty} (ho : PlainName owner)
    (hn : PlainName name) (hp : ∀ t ∈ params, t.IsValue) (hr : returns.IsResult) :
    readEffect ("invokevirtual Method " ++ methodText owner name params returns) =
      some (params.length + 1, if returns.isVoid then 0 else 1) := by
  have hread := readEffect_methodText (m := "invokevirtual") (k := "Method") (r := "") (by simp)
    (by decide) (show "invokevirtual Method " = _ by simp) ho (blank_not_mem_name hn) hp hr (.inl rfl)
  rw [String.append_empty] at hread
  exact hread

theorem readEffect_invokeInterface {params : List Ty} {returns : Ty} (ho : PlainName owner)
    (hn : PlainName name) (hp : ∀ t ∈ params, t.IsValue) (hr : returns.IsResult) (count : String) :
    readEffect ("invokeinterface InterfaceMethod " ++ methodText owner name params returns ++ " " ++
      count) = some (params.length + 1, if returns.isVoid then 0 else 1) := by
  rw [String.append_assoc]
  exact readEffect_methodText (m := "invokeinterface") (k := "InterfaceMethod") (by simp)
    (by decide) (by simp) ho (blank_not_mem_name hn) hp hr (.inr ⟨count.toList, by simp⟩)

/-- The print methods take what they print as an integer, a text or any object. -/
theorem printDescriptor_mem (ty : Ty) : printDescriptor ty ∈ ["I", "C", "Z",
    classDescriptor stringClass, classDescriptor objectClass] := by
  unfold printDescriptor
  split
  · rename_i hint
    obtain ⟨name, isArray⟩ := ty
    simp only [Ty.isInteger, Bool.and_eq_true, Bool.or_eq_true, Bool.not_eq_true',
      beq_iff_eq] at hint
    obtain ⟨rfl, (rfl | rfl) | rfl⟩ := hint <;> decide
  · split
    · simp
    · simp

theorem callEffect_print (value : Option Ty) :
    ' ' ∉ '(' :: ((value.elim "" printDescriptor).toList ++ [')', 'V']) ∧
      callEffect ('(' :: ((value.elim "" printDescriptor).toList ++ [')', 'V'])) =
        some (value.elim 1 fun _ => 2, 0) := by
  cases value with
  | none => decide +kernel
  | some ty =>
    have hdesc := printDescriptor_mem ty
    simp only [List.mem_cons, List.not_mem_nil, or_false] at hdesc
    simp only [Option.elim_some]
    rcases hdesc with h | h | h | h | h <;> rw [h] <;> decide +kernel

theorem readEffect_print (line : Bool) (value : Option Ty) :
    readEffect ("invokevirtual Method " ++ printStreamClass ++
      (if line then " println (" else " print (") ++ value.elim "" printDescriptor ++ ")V") =
        some (value.elim 1 fun _ => 2, 0) := by
  obtain ⟨hblank, heffect⟩ := callEffect_print value
  have hstream : PlainName printStreamClass := ⟨by decide +kernel, by decide +kernel⟩
  have hname : ' ' ∉ (if line then "println" else "print").toList := by
    cases line <;> decide +kernel
  have htext : ("invokevirtual Method " ++ printStreamClass ++
      (if line then " println (" else " print (") ++ value.elim "" printDescriptor ++ ")V").toList =
      "invokevirtual".toList ++ ' ' :: ("Method".toList ++ ' ' :: (printStreamClass.toList ++ ' ' ::
        ((if line then "println" else "print").toList ++ ' ' ::
          ('(' :: ((value.elim "" printDescriptor).toList ++ [')', 'V']) ++ [])))) := by
    cases line <;> simp
  rw [readEffect_call (by simp) (by decide +kernel) hstream hname hblank (.inl rfl) htext, heffect]

end Texts

/-- The text of an instruction is read back with the effect that is counted for it. -/
theorem readEffect_text {i : Instruction} (h : i.Legible) :
    readEffect i.text = some (i.pops, i.pushes) := by
  cases i with
  | pushInt value => exact readEffect_pushInt value
  | pushString value => exact readEffect_append (e := (0, 1)) (by decide +kernel) _
  | pushNull => decide +kernel
  | load cell slot =>
    cases cell <;> exact readEffect_slot (e := (0, 1)) (by decide +kernel) (by decide +kernel)
  | store cell slot =>
    cases cell <;> exact readEffect_slot (e := (1, 0)) (by decide +kernel) (by decide +kernel)
  | arithmetic op => cases op <;> decide +kernel
  | jumpInts relation target =>
    have hopening : openingEffect "if_icmp" = some (2, 0) := by decide +kernel
    have hread := readEffect_append hopening (relationText relation ++ (" " ++ labelText target))
    rw [← String.append_assoc, ← String.append_assoc] at hread
    exact hread
  | jumpReferences same target =>
    cases same <;> exact readEffect_append (e := (2, 0)) (by decide +kernel) _
  | jumpZero target => exact readEffect_append (e := (1, 0)) (by decide +kernel) _
  | jumpNonzero target => exact readEffect_append (e := (1, 0)) (by decide +kernel) _
  | goto target => exact readEffect_append (e := (0, 0)) (by decide +kernel) _
  | pop => decide +kernel
  | dup => decide +kernel
  | dup2 => decide +kernel
  | new className => exact readEffect_append (e := (0, 1)) (by decide +kernel) _
  | newArray element className =>
    cases element <;> exact readEffect_append (e := (1, 1)) (by decide +kernel) _
  | arrayLength => decide +kernel
  | arrayLoad element => cases element <;> decide +kernel
  | arrayStore element => cases element <;> decide +kernel
  | getField owner name ty => exact readEffect_getField h.1 h.2.1 h.2.2
  | putField owner name ty => exact readEffect_putField h.1 h.2.1 h.2.2
  | getPrintStream => decide +kernel
  | print line value => exact readEffect_print line value
  | invokeConstructor owner params => exact readEffect_invokeConstructor h.1 h.2
  | invokeVirtual owner name params returns =>
    exact readEffect_invokeVirtual h.1 h.2.1 h.2.2.1 h.2.2.2
  | invokeInterface owner name params returns =>
    exact readEffect_invokeInterface h.1 h.2.1 h.2.2.1 h.2.2.2 _
  | returnVoid => decide +kernel
  | returnInt => decide +kernel
  | returnReference => decide +kernel

end Javelet.Assembly
