import Mathlib.Algebra.Group.Int.Defs
import Javelet.Proofs.Assembly.Operands
import Javelet.Proofs.Lowering.Constants
import Javelet.Proofs.Lowering.Linkage

/-!
# The operands in a program

Every operand in the text of an accepted program is in a range that comes from its instruction and
its method. The ranges are not those of a byte and of 16 bits: the instruction with an integer in a
byte is written from 6 to 255, slots stay below the number of local variables of the method, for
there is no wide form of the instructions on variables, and a character is pushed as its code point.
The count of a call through an interface does fit in a byte.
-/
namespace Javelet

open Assembly

/-- The integer that a literal stands for. A character stands for its code point. -/
def Literal.constant? : Literal → Option Int
  | .int value => some value.toInt
  | .char value => some value.toNat
  | .boolean value => some (if value then 1 else 0)
  | .string _ | .null => none

theorem codePoint_le (c : Char) : c.toNat ≤ 0x10FFFF := by
  have hvalid : c.toNat.isValidChar := c.valid
  rcases hvalid with hlow | ⟨-, hhigh⟩
  · omega
  · omega

namespace Assembly

/-- The range of an operand in a method with a number of local variables. -/
def Operand.Fits (locals : Nat) : Operand → Prop
  | .named value => 0 ≤ value ∧ value ≤ 5
  | .byte value => 6 ≤ value ∧ value ≤ 255
  | .pooled value => -2 ^ 31 ≤ value ∧ value < 2 ^ 31 ∧ (value < 0 ∨ 255 < value)
  | .quoted => True
  | .slot n => 4 ≤ n ∧ n < locals
  | .cells count => 1 ≤ count ∧ count ≤ 255

variable {i : Instruction} {o : Operand}

theorem fits_of_operand? {sections : List Section} {locals : Nat} (h : i.operand? = some o)
    (hslot : ∀ slot, i.slot? = some slot → slot < locals) (hlinked : Linked sections i) :
    o.Fits locals := by
  cases i with
  | pushInt value =>
    rw [Instruction.operand?] at h
    split at h
    · rename_i hnamed
      cases h
      exact hnamed
    · split at h
      · rename_i hbyte
        cases h
        exact hbyte
      · cases h
        exact ⟨value.le_toInt, value.toInt_lt, by omega⟩
  | pushString value =>
    cases h
    trivial
  | load cell slot | store cell slot =>
    obtain ⟨hmany, heq⟩ := Option.ite_none_left_eq_some.1 h
    cases heq
    exact ⟨Nat.lt_of_not_le hmany, hslot slot rfl⟩
  | invokeInterface owner name params returns =>
    cases h
    exact ⟨Nat.le_add_left 1 _, hlinked.2.2⟩
  | _ => cases h

/-- The integer in an operand is the one that the instruction pushes. -/
theorem constant?_of_operand? (h : i.operand? = some o) :
    o.constant? = i.pushed?.map Int32.toInt := by
  cases i with
  | pushInt value =>
    rw [Instruction.operand?] at h
    split at h
    · cases h
      rfl
    · split at h <;> cases h <;> rfl
  | load cell slot | store cell slot =>
    obtain ⟨-, heq⟩ := Option.ite_none_left_eq_some.1 h
    cases heq
    rfl
  | pushString | invokeInterface =>
    cases h
    rfl
  | _ => cases h

theorem exists_operand_pushInt (value : Int32) :
    ∃ o, (Instruction.pushInt value).operand? = some o ∧ o.constant? = some value.toInt := by
  have hsome : ∃ o, (Instruction.pushInt value).operand? = some o := by
    simp only [Instruction.operand?]
    split
    · exact ⟨_, rfl⟩
    · split <;> exact ⟨_, rfl⟩
  obtain ⟨o, ho⟩ := hsome
  exact ⟨o, ho, constant?_of_operand? ho⟩

/-- Some lines push an integer. -/
def PushedIn (code : List String) (n : Int) : Prop :=
  ∃ line ∈ code, ∃ o, readOperand (behindLabel line) = some o ∧ o.constant? = some n

/-- The lines of code of a method with a number of local variables, lowered from some places. A line
with the name of an instruction with an operand has this operand, it is in its range, and an integer
that is pushed is 0 or 1 or stands for a literal. All literals that stand for integers are pushed,
characters with their code points. -/
structure CodeFits (places : List Place) (locals : Nat) (code : List String) : Prop where
  operands : ∀ line ∈ code, instructionWord line ∈ operandWords →
    ∃ o, readOperand (behindLabel line) = some o ∧ o.Fits locals ∧
      ∀ n, o.constant? = some n → n = 0 ∨ n = 1 ∨ ∃ l ∈ literalsAt places, l.constant? = some n
  literals : ∀ l ∈ literalsAt places, ∀ n, l.constant? = some n → PushedIn code n
  chars : ∀ c, .char c ∈ literalsAt places → PushedIn code c.toNat ∧ c.toNat ≤ 0x10FFFF

/-- The text of a method with code. -/
structure OperandsFit (places : List Place) (mc : MethodCode) : Prop where
  limit : mc.locals ≤ 65535
  lines : ∃ stack code, mc.lines = mc.header.line ::
      (".code stack " ++ Nat.repr stack ++ " locals " ++ mc.locals.repr) :: code ++
        [".end code", ".end method"] ∧ CodeFits places mc.locals code

end Assembly

namespace Lowering

theorem constant?_eq (l : Literal) : l.constant? = (intValue? l).map Int32.toInt := by
  cases l with
  | char c =>
    have hle := codePoint_le c
    exact congrArg some (Int32.toInt_ofNat_of_lt (by omega)).symm
  | boolean b => cases b <;> rfl
  | int | string | null => rfl

/-! ## Methods -/

/-- The slots in the code of a class are among the local variables of their methods. -/
theorem ClassSlots.bounded {env : Env} {d : ClassDecl} {c : ClassSection} (h : ClassSlots env d c) :
    ∀ mc ∈ c.methods, mc.locals ≤ 65535 ∧
      ∀ slot ∈ readings Instruction.slot? mc.code, slot < mc.locals := by
  obtain ⟨own, default_, hmethods, hown, hdefault⟩ := h.methods
  intro mc hmc
  rw [hmethods] at hmc
  rcases List.mem_append.1 hmc with hmc | hmc
  · obtain ⟨m, -, hslots⟩ := exists_of_mem_right hown hmc
    exact ⟨hslots.limit, hslots.code⟩
  · obtain ⟨hlocals, hslots⟩ := hdefault mc hmc
    rw [hlocals]
    refine ⟨by decide, fun slot hslot => ?_⟩
    rw [hslots slot hslot]
    decide

section Blocks

variable {mc : MethodCode} {i : Instruction}

/-- An instruction of a printed method stands in its code, or it is the return behind it. -/
theorem mem_block (h : .op i ∈ mc.block) : .op i ∈ mc.code ∨ i = .returnVoid := by
  obtain ⟨tail, htail, hprinted⟩ := printed_listing mc.code
  rw [MethodCode.block, hprinted, written_append] at h
  rcases List.mem_append.1 h with h | h
  · exact .inl (List.mem_filter.1 h).1
  · rcases htail with rfl | rfl
    · cases h
    · cases List.mem_singleton.1 h
      exact .inr rfl

theorem mem_block_of_mem_code (h : .op i ∈ mc.code) : .op i ∈ mc.block := by
  obtain ⟨tail, -, hprinted⟩ := printed_listing mc.code
  rw [MethodCode.block, hprinted, written_append]
  exact List.mem_append_left _ (List.mem_filter.2 ⟨h, rfl⟩)

/-- The lines of a method whose operands are in their ranges and that pushes the literals at some
places. -/
theorem codeFits {places : List Place} {locals : Nat} (hlegible : ∀ i, .op i ∈ mc.code → i.Legible)
    (hfits : ∀ i o, .op i ∈ mc.block → i.operand? = some o → o.Fits locals)
    (hpushes : Pushes (literalsAt places) mc.code) :
    CodeFits places locals ((listing mc.code).lines.toList.map Line.text) := by
  have hblock : ∀ line ∈ (listing mc.code).lines.toList, ∀ i, .op i ∈ line.items →
      .op i ∈ mc.block :=
    fun line hline i hi => List.mem_flatMap.2 ⟨line, hline, hi⟩
  have hlegible' : ∀ i, .op i ∈ mc.block → i.Legible := by
    intro i hi
    rcases mem_block hi with hcode | rfl
    · exact hlegible i hcode
    · trivial
  have hliterals : ∀ l ∈ literalsAt places, ∀ n, l.constant? = some n →
      PushedIn ((listing mc.code).lines.toList.map Line.text) n := by
    intro l hl n hn
    rw [constant?_eq, Option.map_eq_some_iff] at hn
    obtain ⟨value, hvalue, rfl⟩ := hn
    obtain ⟨i, hi, hpushed⟩ := mem_readings.1 (hpushes.stands l hl value hvalue)
    obtain rfl := Instruction.eq_pushInt hpushed
    have hmem := mem_block_of_mem_code hi
    obtain ⟨line, hline, hi⟩ := List.mem_flatMap.1 hmem
    obtain ⟨o, ho, hconstant⟩ := exists_operand_pushInt value
    exact ⟨line.text, List.mem_map_of_mem hline, o,
      readOperand_line hi (hlegible' _ (hblock line hline _ hi)) ho, hconstant⟩
  refine ⟨List.forall_mem_map.2 fun line hline hword => ?_, hliterals,
    fun c hc => ⟨hliterals _ hc _ rfl, codePoint_le c⟩⟩
  obtain ⟨i, o, hi, ho⟩ :=
    exists_operand_of_line (fun i hi => hlegible' i (hblock line hline i hi)) hword
  have hmem := hblock line hline i hi
  refine ⟨o, readOperand_line hi (hlegible' i hmem) ho, hfits i o hmem ho, fun n hn => ?_⟩
  rw [constant?_of_operand? ho, Option.map_eq_some_iff] at hn
  obtain ⟨value, hvalue, rfl⟩ := hn
  have hcode : value ∈ readings Instruction.pushed? mc.code := by
    rcases mem_block hmem with hcode | rfl
    · exact mem_readings.2 ⟨i, hcode, hvalue⟩
    · cases hvalue
  rcases hpushes.origin value hcode with rfl | rfl | ⟨l, hl, heq⟩
  · exact .inl rfl
  · exact .inr (.inl rfl)
  · exact .inr (.inr ⟨l, hl, by rw [constant?_eq, heq, Option.map_some]⟩)

end Blocks

namespace Accepted

variable {source : String} {program : Program} {analysis : Analysis} {sections : List Section}
  {d : ClassDecl} {c : ClassSection} {first next : Label}

theorem classSlots (h : Accepted source program analysis sections)
    (hd : .class_ d ∈ program.declarations)
    (hc : Yields (class_ (.outermost analysis.table analysis.arena) d) first c next) :
    ClassSlots (classEnv (.outermost analysis.table analysis.arena) d) d c := by
  obtain ⟨hw, hn⟩ := wellNamed_of_parseSource h.parsed
  obtain ⟨htable, harena, hfaults⟩ := analyze_eq_ok h.analyzed
  have ht : analysis.table.WellNamed := htable ▸ Types.wellNamed_collect hw
  have hallotted := program_allotted ht hw hn hfaults hd
  rw [← harena] at hallotted
  exact class_slots (receiversFit_of_parseSource h.parsed hd) hallotted hc

/-- The operands in the block of a method are in their ranges. -/
theorem fits (h : Accepted source program analysis sections) (hc : .class_ c ∈ sections)
    {mc : MethodCode} (hmc : mc ∈ c.methods)
    (hbound : ∀ slot ∈ readings Instruction.slot? mc.code, slot < mc.locals) {i : Instruction}
    {o : Operand} (hi : .op i ∈ mc.block) (ho : i.operand? = some o) : o.Fits mc.locals := by
  have hslot : ∀ slot, i.slot? = some slot → slot < mc.locals := by
    intro slot hslot
    rcases mem_block hi with hcode | rfl
    · exact hbound slot (mem_readings.2 ⟨i, hcode, hslot⟩)
    · cases hslot
  -- the call of a constructor of the superclass, which need not be linked, has no operand
  obtain ⟨rest, hblock, hlinked⟩ := h.block_linked hc hmc
  have hcall : ∀ j, .op j ∈ superCall c.superclass → j.operand? = none := by
    simp [superCall, Instruction.loadThis, Instruction.operand?]
  rw [hblock] at hi
  rcases List.mem_append.1 hi with hi | hi
  · split at hi
    · cases (hcall i hi).symm.trans ho
    · cases hi
  · exact fits_of_operand? ho hslot (hlinked i hi)

theorem class_operandsFit (h : Accepted source program analysis sections)
    (hd : .class_ d ∈ program.declarations) (hc : .class_ c ∈ sections)
    (hy : Yields (class_ (.outermost analysis.table analysis.arena) d) first c next) :
    List.Forall₂ OperandsFit d.blockPlaces c.methods := by
  have hslots := (h.classSlots hd hy).bounded
  obtain ⟨-, hflow⟩ := h.class_flow hc
  have hpushes := (List.forall₂_and_left _ _).2 ⟨fun _ hmc => hmc, (class_pushes hy).flip⟩
  refine (hpushes.imp fun mc places ⟨hmc, hplaces⟩ => ?_).flip
  obtain ⟨hlimit, hbound⟩ := hslots mc hmc
  refine ⟨hlimit, _, _, lines_methodCode mc, ?_⟩
  exact codeFits (hflow mc hmc).1.legible (fun i o => h.fits hc hmc hbound) hplaces

end Accepted

/-- In the text of an accepted program every operand is there and in its range, and a constant is 0
or 1 or stands for a literal of its method. All literals that stand for integers are pushed, and so
each character with its code point. -/
theorem compiled_operands {source text : String} (h : compile source = .ok text) :
    ∃ program analysis sections, Accepted source program analysis sections ∧
      text = programText sections ∧
      List.Forall₂ (fun decl s => ∀ d, decl = .class_ d → ∃ c, s = .class_ c ∧
          List.Forall₂ OperandsFit d.blockPlaces c.methods)
        program.declarations sections := by
  obtain ⟨program, analysis, sections, ha, htext⟩ := compile_eq_ok_iff.1 h
  refine ⟨program, analysis, sections, ha, htext, ?_⟩
  obtain ⟨next, hy⟩ := yields_program ha.lowered
  have hlowered : List.Forall₂ (fun decl s => decl ∈ program.declarations ∧ ∃ first next,
      Yields (typeDecl (.outermost analysis.table analysis.arena) decl) first s next)
      program.declarations sections :=
    forall₂_mapM (fun decl hd first s next hs => ⟨hd, first, next, hs⟩) hy
  have hsections := (List.forall₂_and_left _ _).2 ⟨fun _ hs => hs, hlowered.flip⟩
  refine (hsections.imp ?_).flip
  rintro s _ ⟨hmem, hd, first, next, hs⟩ d rfl
  obtain ⟨c, hc, rfl⟩ := yields_typeDecl_class.1 hs
  exact ⟨c, rfl, ha.class_operandsFit hd hmem hc⟩

/-- A call through an interface, a variable behind the first slots, and a character as a label. -/
def numberedVariables : String :=
  "interface I \x7b int f(int a); \x7d class A \x7b int g(I i, int a, int b, int c) " ++
    "\x7b switch (c) \x7b case 'y': c = 200; \x7d return i.f(c); \x7d \x7d"

theorem numberedVariables_operands : ∃ text program analysis sections,
    compile numberedVariables = .ok text ∧ Accepted numberedVariables program analysis sections ∧
      text = programText sections ∧
      List.Forall₂ (fun decl s => ∀ d, decl = .class_ d → ∃ c, s = .class_ c ∧
          List.Forall₂ OperandsFit d.blockPlaces c.methods)
        program.declarations sections := by
  have hok : (compile numberedVariables).isOk = true := by
    rw [compile, parseSource, tokenize_ofList (s := numberedVariables)
      (Source.append_ofList rfl rfl)]
    decide +kernel
  obtain ⟨text, h⟩ := exists_ok_of_isOk hok
  obtain ⟨program, analysis, sections, hall⟩ := compiled_operands h
  exact ⟨text, program, analysis, sections, h, hall⟩

/-- An integer that needs eight bits without a sign, and a character that needs more than 16. -/
def wideConstants : String :=
  "class A \x7b int f() \x7b return 200; \x7d char g() \x7b return '😀'; \x7d \x7d"

/-- The integer is pushed as a byte, though it is none with a sign, and the character is pushed as its
code point. -/
theorem wideConstants_beyond : ∃ lines, compile wideConstants = .ok (textOfLines lines) ∧
    (∃ line ∈ lines, ∃ n, readOperand (behindLabel line) = some (.byte n) ∧ 127 < n) ∧
    ∃ line ∈ lines, ∃ n, readOperand (behindLabel line) = some (.pooled n) ∧ 65535 < n := by
  refine ⟨[".version 49 0", ".class public A", ".super java/lang/Object",
    ".method public f : ()I", ".code stack 1 locals 1", "bipush 200", "ireturn", ".end code",
    ".end method", ".method public g : ()C", ".code stack 1 locals 1", "ldc 128512", "ireturn",
    ".end code", ".end method", ".method public <init> : ()V", ".code stack 1 locals 1", "aload_0",
    "invokespecial Method java/lang/Object <init> ()V", "return", ".end code", ".end method",
    ".end class"], ?_, ⟨"bipush 200", by decide, 200, by decide, by decide⟩,
    "ldc 128512", by decide, 128512, by decide, by decide⟩
  rw [compile, parseSource, tokenize_ofList (s := wideConstants) rfl]
  decide +kernel

end Lowering

end Javelet
