import Javelet.Proofs.Assembly.Lines

/-!
# Quotations read back

For the machine that loads it, a text constant is a sequence of UTF-16 units. The reader below has the
rules for a quoted operand: a backslash opens an escape, which is one of five marks, or the letter
`u` with exactly four hexadecimal digits for one unit; every other character stands for itself, and
the first quote outside an escape ends the text. That an assembler reads operands so is assumed here.
What is written is read back up to the closing quote, whatever stands behind it. Units tell the
characters that they were made of, so two texts are never written alike.
-/
namespace Javelet

/-! ## Units -/

namespace Text

/-- The UTF-16 units of a text. -/
def utf16 (cs : List Char) : List Nat := cs.flatMap utf16Units

/-- The units of a character are one unit that is no surrogate, or a high surrogate and a low one. -/
inductive HasUnits (c : Char) : List Nat → Prop
  | single : c.toNat < 0xD800 ∨ 0xDFFF < c.toNat ∧ c.toNat < 0x10000 → HasUnits c [c.toNat]
  | pair {high low : Nat} : 0xD800 ≤ high → high < 0xDC00 → 0xDC00 ≤ low → low < 0xE000 →
      c.toNat = 0x10000 + (high - 0xD800) * 0x400 + (low - 0xDC00) → HasUnits c [high, low]

theorem hasUnits_utf16Units (c : Char) : HasUnits c (utf16Units c) := by
  have hvalid : c.toNat < 0xD800 ∨ 0xDFFF < c.toNat ∧ c.toNat < 0x110000 := c.valid
  unfold utf16Units
  split
  · rename_i hlt
    exact .single (hvalid.imp_right fun h => ⟨h.1, hlt⟩)
  · exact .pair (by omega) (by omega) (by omega) (by omega) (by omega)

theorem HasUnits.lt {c : Char} {units : List Nat} (h : HasUnits c units) :
    ∀ unit ∈ units, unit < 0x10000 := by
  cases h with
  | single hplain => exact List.forall_mem_singleton.2 (by omega)
  | pair _ hhigh _ hlow _ =>
    exact List.forall_mem_cons.2 ⟨by omega, List.forall_mem_singleton.2 (by omega)⟩

/-- The first unit tells whether there is a second one. -/
theorem utf16Units_append_inj {c d : Char} {r r' : List Nat}
    (h : utf16Units c ++ r = utf16Units d ++ r') : c = d ∧ r = r' := by
  have hc := hasUnits_utf16Units c
  have hd := hasUnits_utf16Units d
  generalize utf16Units c = units at h hc
  generalize utf16Units d = units' at h hd
  cases hc with
  | single hplain =>
    cases hd with
    | single =>
      obtain ⟨hfirst, hrest⟩ := List.cons.inj h
      exact ⟨Char.toNat_inj.1 hfirst, hrest⟩
    | pair hhigh hhigh' =>
      obtain ⟨hfirst, -⟩ := List.cons.inj h
      omega
  | pair hhigh hhigh' hlow hlow' hvalue =>
    cases hd with
    | single =>
      obtain ⟨hfirst, -⟩ := List.cons.inj h
      omega
    | pair hhigh'' _ hlow'' _ hvalue' =>
      obtain ⟨hfirst, hmore⟩ := List.cons.inj h
      obtain ⟨hsecond, hrest⟩ := List.cons.inj hmore
      exact ⟨Char.toNat_inj.1 (by omega), hrest⟩

theorem utf16Units_ne_nil (c : Char) : utf16Units c ≠ [] := by
  have hc := hasUnits_utf16Units c
  intro hnil
  rw [hnil] at hc
  cases hc

theorem utf16_injective : Function.Injective utf16 := by
  intro cs ds h
  induction cs generalizing ds with
  | nil =>
    cases ds with
    | nil => rfl
    | cons d ds => exact absurd (List.append_eq_nil_iff.1 h.symm).1 (utf16Units_ne_nil d)
  | cons c cs ih =>
    cases ds with
    | nil => exact absurd (List.append_eq_nil_iff.1 h).1 (utf16Units_ne_nil c)
    | cons d ds =>
      obtain ⟨rfl, hrest⟩ := utf16Units_append_inj h
      rw [ih hrest]

end Text

/-! ## The reader -/

namespace Assembly

/-- The character that a mark behind a backslash stands for. -/
def escaped? : Char → Option Char
  | '\\' => some '\\'
  | '"' => some '"'
  | 'n' => some '\n'
  | 'r' => some '\r'
  | 't' => some '\t'
  | _ => none

/-- What was read, behind some other units. -/
def behindUnits (units : List Nat) (read : Option (List Nat × List Char)) :
    Option (List Nat × List Char) :=
  read.map fun (more, rest) => (units ++ more, rest)

/-- The units of a text up to its closing quote, and what stands behind the quote. -/
def readUnits : List Char → Option (List Nat × List Char)
  | [] => none
  | '"' :: rest => some ([], rest)
  | '\\' :: 'u' :: a :: b :: c :: d :: rest =>
    (Text.readDigits? 16 [a, b, c, d]).bind fun unit => behindUnits [unit] (readUnits rest)
  | '\\' :: mark :: rest =>
    (escaped? mark).bind fun c => behindUnits (Text.utf16Units c) (readUnits rest)
  | ['\\'] => none
  | c :: rest => behindUnits (Text.utf16Units c) (readUnits rest)

/-- The units of a text in quotes, and what stands behind it. -/
def readQuoted : List Char → Option (List Nat × List Char)
  | '"' :: rest => readUnits rest
  | _ => none

theorem behindUnits_append (units units' : List Nat) (read : Option (List Nat × List Char)) :
    behindUnits (units ++ units') read = behindUnits units (behindUnits units' read) := by
  cases read with
  | none => rfl
  | some found => simp [behindUnits]

section Reading

variable {c mark : Char}

theorem readUnits_mark (h : escaped? mark = some c) (rest : List Char) :
    readUnits ('\\' :: mark :: rest) = behindUnits (Text.utf16Units c) (readUnits rest) := by
  have hmark : mark ≠ 'u' := by
    rintro rfl
    cases h
  rw [readUnits, h]
  · rfl
  · exact fun _ _ _ _ _ heq _ => hmark heq

theorem readUnits_plain (hquote : c ≠ '"') (hslash : c ≠ '\\') (rest : List Char) :
    readUnits (c :: rest) = behindUnits (Text.utf16Units c) (readUnits rest) := by
  rw [readUnits]
  · exact hquote
  · exact fun _ _ _ _ _ heq _ => hslash heq
  · exact fun _ _ heq _ => hslash heq
  · exact fun heq _ => hslash heq

theorem readUnits_unit {unit : Nat} (h : unit < 0x10000) (rest : List Char) :
    readUnits ('\\' :: 'u' :: (Text.hexDigits4 unit ++ rest)) =
      behindUnits [unit] (readUnits rest) := by
  have hread := Text.readDigits?_hexDigits4 unit
  have hlength := Text.length_hexDigits4 h
  generalize Text.hexDigits4 unit = digits at hread hlength ⊢
  match digits, hlength with
  | [a, b, c, d], _ =>
    simp only [List.cons_append, List.nil_append, readUnits, hread, Option.bind_some]

/-- Units that are written one by one. -/
theorem readUnits_units {units : List Nat} (h : ∀ unit ∈ units, unit < 0x10000)
    (rest : List Char) :
    readUnits (units.flatMap (fun unit => '\\' :: 'u' :: Text.hexDigits4 unit) ++ rest) =
      behindUnits units (readUnits rest) := by
  induction units with
  | nil => cases hread : readUnits rest <;> simp [behindUnits, hread]
  | cons unit units ih =>
    obtain ⟨hfirst, hrest⟩ := List.forall_mem_cons.1 h
    rw [List.flatMap_cons, List.append_assoc, List.cons_append, List.cons_append,
      readUnits_unit hfirst, ih hrest, ← behindUnits_append, List.singleton_append]

/-- A character is read back, whatever stands behind it. -/
theorem readUnits_quoteChar (c : Char) (rest : List Char) :
    readUnits (quoteChar c ++ rest) = behindUnits (Text.utf16Units c) (readUnits rest) := by
  fun_cases quoteChar c with
  | case1 h | case2 _ h | case3 _ _ h | case4 _ _ _ h | case5 _ _ _ _ h =>
    rw [h]
    exact readUnits_mark rfl rest
  | case6 hquote hslash => exact readUnits_plain hquote hslash rest
  | case7 => exact readUnits_units (Text.hasUnits_utf16Units c).lt rest

end Reading

theorem readUnits_text (cs rest : List Char) :
    readUnits (cs.flatMap quoteChar ++ '"' :: rest) = some (Text.utf16 cs, rest) := by
  induction cs with
  | nil => rfl
  | cons c cs ih =>
    rw [List.flatMap_cons, List.append_assoc, readUnits_quoteChar, ih]
    rfl

theorem readQuoted_quote (s : String) (rest : List Char) :
    readQuoted ((quote s).toList ++ rest) = some (Text.utf16 s.toList, rest) := by
  rw [quote, String.toList_ofList, List.cons_append, List.cons_append, List.append_assoc,
    readQuoted]
  exact readUnits_text s.toList rest

/-- A text in quotes has printable ASCII characters only, it is read back as the units of the text,
up to its closing quote, and no other text is written in the same way. -/
theorem quote_units (s : String) :
    (∃ body : List Char, (quote s).toList = '"' :: (body ++ ['"']) ∧
        ∀ c ∈ body, isPrintable c = true) ∧
      (∀ rest, readQuoted ((quote s).toList ++ rest) = some (Text.utf16 s.toList, rest)) ∧
      ∀ s', quote s' = quote s → s' = s := by
  refine ⟨⟨s.toList.flatMap quoteChar, String.toList_ofList, ?_⟩, readQuoted_quote s, ?_⟩
  · rw [List.forall_mem_flatMap]
    exact fun c _ => isPrintable_quoteChar c
  · intro s' heq
    have hread := readQuoted_quote s' []
    rw [heq, readQuoted_quote s []] at hread
    have hunits : Text.utf16 s.toList = Text.utf16 s'.toList :=
      congrArg Prod.fst (Option.some.inj hread)
    exact String.toList_injective (Text.utf16_injective hunits).symm

/-- A constant with a quote, a text that looks like an escape, and a character of two units. -/
example : readQuoted (quote "\"\\u0041😀").toList =
    some ([0x22, 0x5C, 0x75, 0x30, 0x30, 0x34, 0x31, 0xD83D, 0xDE00], []) := by decide

end Assembly

end Javelet
